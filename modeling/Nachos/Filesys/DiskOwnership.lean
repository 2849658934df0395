import Nachos.Filesys.Consistency

/-!
# Who owns a sector

From `FileSystem(TRUE)` on, and whatever calls are made, every sector that the bitmap file marks
is used for one thing: a header, or one data sector of a file. `disk_ownership` states this
together with what depends on it: the ASSERTs hold, and removing a file that was just created
gives back the bitmap as it was.
-/

namespace Nachos.Filesys

open Bytes Runs Shares

/-! ### Statement -/

/-- What a sector can be used for. -/
inductive Use
  | freeMapHeader
  | directoryHeader
  | freeMapData (k : Nat)
  | directoryData (k : Nat)
  | header (entry : Nat)
  | data (entry k : Nat)
  deriving DecidableEq

/-- One of the first `numSectors` data sectors of a file. -/
def FileHeader.dataSector? (h : FileHeader) (k : Nat) : Option Int :=
  if k < h.numSectors then some (h.dataSector k) else none

/-- The sector that is used for it, if there is one. -/
def sectorOf (disk : Disk) : Use → Option Int
  | .freeMapHeader => some freeMapSector
  | .directoryHeader => some directorySector
  | .freeMapData k => FileHeader.dataSector? (disk freeMapSector) k
  | .directoryData k => FileHeader.dataSector? (disk directorySector) k
  | .header i =>
    if i < numDirEntries ∧ (directoryOn disk).inUse i = true then some ((directoryOn disk).sector i)
    else none
  | .data i k =>
    if i < numDirEntries ∧ (directoryOn disk).inUse i = true then
      FileHeader.dataSector? (disk ((directoryOn disk).sector i).toNat) k
    else none

/-- The bitmap file marks the sectors that are used, and each of them has one use. -/
structure Owned (disk : Disk) : Prop where
  marked : ∀ x < numSectors,
    (freeMapOn disk).test x = true ↔ ∃ u, sectorOf disk u = some (x : Int)
  unique : ∀ {u v x}, sectorOf disk u = some x → sectorOf disk v = some x → u = v
  range : ∀ {u x}, sectorOf disk u = some x → 0 ≤ x ∧ x < numSectors
  names : ∀ i < numDirEntries, ∀ j < numDirEntries, i ≠ j → (directoryOn disk).inUse i = true →
    (directoryOn disk).inUse j = true → strncmp (directoryOn disk) (entrySize * i + 8)
      (directoryOn disk) (entrySize * j + 8) fileNameMaxLen ≠ 0

/-- What holds in every state: `Remove` fails no ASSERT, and it undoes `Create`. -/
structure Sound (s : State) : Prop where
  owned : Owned s.disk
  stopped : s.stopped ≠ some .assertion
  removes : ∀ (name : Image) (garbage : Garbage), ∃ r, s.remove name garbage = .ok r
  restores : ∀ (name : Image) (initialSize : Int) (garbage garbage' : Garbage) (disk' : Disk),
    0 ≤ initialSize → initialSize ≤ maxFileSize →
    s.create name initialSize garbage = .ok (disk', true) →
    ∃ disk'' sector, State.remove { s with disk := disk' } name garbage' =
        .ok (disk'', some sector) ∧
      ∀ x < numSectors, (freeMapOn disk'').test x = (freeMapOn s.disk).test x

/-! ### Uses and holders -/

section Uses

variable {disk : Disk} {h : FileHeader}

def Use.holder : Use → Holder
  | .freeMapHeader => .freeMap
  | .directoryHeader => .directory
  | .freeMapData _ => .freeMap
  | .directoryData _ => .directory
  | .header i => .entry i
  | .data i _ => .entry i

/-- The place of the sector among the holder's sectors, where the header comes first. -/
def Use.place : Use → Nat
  | .freeMapHeader => 0
  | .directoryHeader => 0
  | .freeMapData k => k + 1
  | .directoryData k => k + 1
  | .header _ => 0
  | .data _ k => k + 1

theorem Use.eq_of_holder_of_place {u v : Use} (hh : u.holder = v.holder) (hp : u.place = v.place) :
    u = v := by
  cases u <;> cases v <;> simp_all [Use.holder, Use.place]

theorem FileHeader.Valid.dataSector?_some (hv : h.Valid) {k : Nat} {x : Int}
    (hk : h.dataSector? k = some x) :
    0 ≤ x ∧ x < Filesys.numSectors ∧ h.sectors[k]? = some x.toNat := by
  unfold FileHeader.dataSector? at hk
  split at hk
  · rename_i hlt
    obtain rfl := Option.some.inj hk
    have hlt' : k < h.numSectors.toNat := by omega
    refine ⟨(hv.range k hlt').1, (hv.range k hlt').2, ?_⟩
    unfold FileHeader.sectors
    rw [List.getElem?_map, List.getElem?_range hlt']
    rfl
  · cases hk

theorem FileHeader.Valid.mem_sectors_dataSector? (hv : h.Valid) {y : Nat} (hy : y ∈ h.sectors) :
    ∃ k, h.dataSector? k = some (y : Int) := by
  obtain ⟨k, hk, rfl⟩ := FileHeader.mem_sectors.mp hy
  refine ⟨k, ?_⟩
  unfold FileHeader.dataSector?
  rw [if_pos (by omega), Int.toNat_of_nonneg (hv.range k hk).1]

/-- The uses of a holder with its header in the sector `y`. -/
theorem Laid.uses {hs : Holder → Option Nat} {used : Nat → Prop} (hlaid : Laid hs disk used)
    {o : Holder} {y : Nat} (ho : hs o = some y) :
    (holdings hs disk o)[0]? = some y ∧
      ∀ {k : Nat} {x : Int}, FileHeader.dataSector? (disk y) k = some x →
        0 ≤ x ∧ x < numSectors ∧ (holdings hs disk o)[k + 1]? = some x.toNat := by
  rw [holdings_of_some ho]
  refine ⟨rfl, fun hk => ?_⟩
  obtain ⟨h0, hlt, hget⟩ := (hlaid.valid ho).dataSector?_some hk
  exact ⟨h0, hlt, by rw [List.getElem?_cons_succ, hget]⟩

/-- A sector is used where its holder has it. -/
theorem Consistent.sectorOf_some (hc : Consistent disk) {u : Use} {x : Int}
    (hu : sectorOf disk u = some x) :
    0 ≤ x ∧ x < numSectors ∧
      (holdings (headerSectors (directoryOn disk).entry) disk u.holder)[u.place]? =
        some x.toNat := by
  have hmap : headerSectors (directoryOn disk).entry .freeMap = some freeMapSector := rfl
  have hdir : headerSectors (directoryOn disk).entry .directory = some directorySector := rfl
  cases u with
  | freeMapHeader =>
    obtain rfl := Option.some.inj hu
    exact ⟨by decide, by decide, (hc.laid.uses hmap).1⟩
  | directoryHeader =>
    obtain rfl := Option.some.inj hu
    exact ⟨by decide, by decide, (hc.laid.uses hdir).1⟩
  | freeMapData k => exact (hc.laid.uses hmap).2 hu
  | directoryData k => exact (hc.laid.uses hdir).2 hu
  | header i =>
    simp only [sectorOf] at hu
    split at hu
    · rename_i hi
      obtain rfl := Option.some.inj hu
      have hentry : headerSectors (directoryOn disk).entry (.entry i) = _ :=
        headerSectors_entry hi.1 hi.2
      have hnn : 0 ≤ (directoryOn disk).sector i := hc.nonneg i hi.1 hi.2
      have hlt := hc.laid.range hentry
      refine ⟨hnn, ?_, (hc.laid.uses hentry).1⟩
      have hlt' : ((directoryOn disk).sector i).toNat < numSectors := hlt
      omega
    · cases hu
  | data i k =>
    simp only [sectorOf] at hu
    split at hu
    · rename_i hi
      have hentry : headerSectors (directoryOn disk).entry (.entry i) = _ :=
        headerSectors_entry hi.1 hi.2
      exact (hc.laid.uses hentry).2 hu
    · cases hu

/-- What a holder has is used. -/
theorem Consistent.exists_use (hc : Consistent disk) {o : Holder} {y : Nat}
    (hy : y ∈ holdings (headerSectors (directoryOn disk).entry) disk o) :
    ∃ u, sectorOf disk u = some (y : Int) := by
  cases o with
  | freeMap =>
    rw [holdings_of_some (x := freeMapSector) rfl] at hy
    rcases List.mem_cons.mp hy with rfl | hy
    · exact ⟨.freeMapHeader, rfl⟩
    · obtain ⟨k, hk⟩ := hc.valid_freeMap.mem_sectors_dataSector? hy
      exact ⟨.freeMapData k, hk⟩
  | directory =>
    rw [holdings_of_some (x := directorySector) rfl] at hy
    rcases List.mem_cons.mp hy with rfl | hy
    · exact ⟨.directoryHeader, rfl⟩
    · obtain ⟨k, hk⟩ := hc.valid_directory.mem_sectors_dataSector? hy
      exact ⟨.directoryData k, hk⟩
  | entry i =>
    cases ho : headerSectors (directoryOn disk).entry (.entry i) with
    | none =>
      rw [holdings_of_none ho] at hy
      cases hy
    | some x =>
      obtain ⟨hi, hui, hsector⟩ := headerSectors_entry_some ho
      have hv := hc.laid.valid ho
      have hcond : i < numDirEntries ∧ (directoryOn disk).inUse i = true := ⟨hi, hui⟩
      have hnn : 0 ≤ (directoryOn disk).sector i := hc.nonneg i hi hui
      have hsector' : ((directoryOn disk).sector i).toNat = x := hsector
      rw [holdings_of_some ho] at hy
      rcases List.mem_cons.mp hy with rfl | hy
      · refine ⟨.header i, ?_⟩
        simp only [sectorOf]
        rw [if_pos hcond, ← hsector', Int.toNat_of_nonneg hnn]
      · obtain ⟨k, hk⟩ := hv.mem_sectors_dataSector? hy
        refine ⟨.data i k, ?_⟩
        simp only [sectorOf]
        rw [if_pos hcond, hsector', hk]

theorem Consistent.owned (hc : Consistent disk) : Owned disk := by
  refine ⟨?_, ?_, ?_, ?_⟩
  · intro x _
    constructor
    · intro hx
      obtain ⟨o, ho⟩ := (hc.laid.divided.used_iff x).mp hx
      exact hc.exists_use ho
    · rintro ⟨u, hu⟩
      obtain ⟨-, -, hget⟩ := hc.sectorOf_some hu
      rw [Int.toNat_natCast] at hget
      exact hc.laid.divided.used_of_mem (List.mem_of_getElem? hget)
  · intro u v x hu hv
    obtain ⟨-, -, hgetu⟩ := hc.sectorOf_some hu
    obtain ⟨-, -, hgetv⟩ := hc.sectorOf_some hv
    have hholder : u.holder = v.holder :=
      hc.laid.divided.unique (List.mem_of_getElem? hgetu) (List.mem_of_getElem? hgetv)
    rw [← hholder] at hgetv
    obtain ⟨hltu, hequ⟩ := List.getElem?_eq_some_iff.mp hgetu
    obtain ⟨hltv, heqv⟩ := List.getElem?_eq_some_iff.mp hgetv
    have hplace : u.place = v.place :=
      (hc.laid.divided.nodup u.holder).getElem_inj_iff.mp (hequ.trans heqv.symm)
    exact Use.eq_of_holder_of_place hholder hplace
  · intro u x hu
    obtain ⟨h0, hlt, -⟩ := hc.sectorOf_some hu
    exact ⟨h0, hlt⟩
  · intro i hi j hj hij hui huj hcmp
    rw [strncmp_eq_zero] at hcmp
    exact hij (hc.names i hi j hj hui huj hcmp)

end Uses

/-! ### The invariant -/

/-- The file is in the directory, and the handle has its header. -/
def Alive (disk : Disk) (file : OpenFile) : Prop :=
  ∃ i < numDirEntries, ((directoryOn disk).entry i).inUse = true ∧
    ((directoryOn disk).entry i).sector = file.fileID ∧ file.hdr = disk file.fileID.toNat

structure Inv (s : State) : Prop where
  mounted : Mounted s
  handles : ∀ h ∈ s.handles, h.removed = false → Alive s.disk h.file
  stopped : s.stopped ≠ some .assertion

section Alive

variable {disk disk' : Disk} {file : OpenFile} {name : Image} {e x : Nat} {hdr : FileHeader}

/-- A file stays while its entry and its header do. -/
theorem Alive.congr (h : Alive disk file)
    (hkeep : ∀ i < numDirEntries, ((directoryOn disk).entry i).inUse = true →
      ((directoryOn disk).entry i).sector = file.fileID →
      (directoryOn disk').entry i = (directoryOn disk).entry i ∧
        disk' ((directoryOn disk).entry i).sector.toNat =
          disk ((directoryOn disk).entry i).sector.toNat) : Alive disk' file := by
  obtain ⟨i, hi, hui, hsector, hhdr⟩ := h
  obtain ⟨hentry, hheader⟩ := hkeep i hi hui hsector
  rw [hsector] at hheader
  refine ⟨i, hi, ?_, ?_, ?_⟩
  · rw [hentry]
    exact hui
  · rw [hentry]
    exact hsector
  · rw [hheader]
    exact hhdr

theorem Added.alive (ha : Added disk name e x hdr disk') (h : Alive disk file) :
    Alive disk' file := by
  apply h.congr
  intro i hi hui _
  have hie : i ≠ e := by
    rintro rfl
    rw [ha.unused] at hui
    cases hui
  refine ⟨?_, ha.headers (headerSectors_entry hi hui)⟩
  rw [ha.entries i hi, if_neg hie]

theorem Removed.alive (hr : Removed disk name e disk') (h : Alive disk file)
    (hne : file.fileID ≠ ((directoryOn disk).entry e).sector) : Alive disk' file := by
  apply h.congr
  intro i hi hui hsector
  have hie : i ≠ e := by
    rintro rfl
    exact hne hsector.symm
  have hie' : Holder.entry i ≠ .entry e := fun heq => hie (Holder.entry.inj heq)
  refine ⟨?_, hr.headers hie' (headerSectors_entry hi hui)⟩
  rw [hr.entries i hi, if_neg hie]

theorem Added.mounted {s : State} (hm : Mounted s) (ha : Added s.disk name e x hdr disk') :
    Mounted { s with disk := disk' } := by
  refine ⟨ha.consistent, ?_, ?_⟩
  · rw [hm.freeMapHdr]
    exact (ha.headers (o := .freeMap) rfl).symm
  · rw [hm.directoryHdr]
    exact (ha.headers (o := .directory) rfl).symm

theorem Removed.mounted {s : State} (hm : Mounted s) (hr : Removed s.disk name e disk')
    (hs : List Handle) : Mounted { s with disk := disk', handles := hs } := by
  refine ⟨hr.consistent, ?_, ?_⟩
  · rw [hm.freeMapHdr]
    exact (hr.headers (o := .freeMap) (by simp) rfl).symm
  · rw [hm.directoryHdr]
    exact (hr.headers (o := .directory) (by simp) rfl).symm

end Alive

section Steps

variable {s : State} {file : OpenFile} {disk' : Disk}

/-- A write through a handle keeps the bitmap, the directory and every header. -/
theorem Inv.write (hinv : Inv s) (hfile : Alive s.disk file)
    (hframe : ∀ x, x ∉ file.hdr.sectors → disk' x = s.disk x) : Inv { s with disk := disk' } := by
  obtain ⟨i, hi, hui, hsector, hhdr⟩ := hfile
  have hc := hinv.mounted.consistent
  have ho := headerSectors_entry hi hui
  rw [hsector] at ho
  rw [hhdr] at hframe
  obtain ⟨hd, hheaders⟩ := hc.write ho hframe
  have hentries := hc.directoryOn_write (by simp) ho hframe
  have hfree := hc.freeMapOn_write (by simp) ho hframe
  refine ⟨⟨hd.congr hentries ?_, ?_, ?_⟩, ?_, hinv.stopped⟩
  · intro x
    rw [hfree]
  · rw [hinv.mounted.freeMapHdr]
    exact (hheaders (p := .freeMap) rfl).symm
  · rw [hinv.mounted.directoryHdr]
    exact (hheaders (p := .directory) rfl).symm
  · intro h hmem hlive
    apply (hinv.handles h hmem hlive).congr
    intro j hj huj _
    exact ⟨hentries j hj, hheaders (headerSectors_entry hj huj)⟩

theorem Inv.stop (hinv : Inv s) : Inv { s with stopped := some .outOfBounds } :=
  ⟨⟨hinv.mounted.consistent, hinv.mounted.freeMapHdr, hinv.mounted.directoryHdr⟩, hinv.handles,
    by simp⟩

theorem Inv.alive (hinv : Inv s) {handle : Nat} (h : s.live handle = some file) :
    Alive s.disk file := by
  unfold State.live at h
  split at h
  · rename_i hd hget
    split at h
    · cases h
    · rename_i hremoved
      obtain rfl := Option.some.inj h
      exact hinv.handles hd (List.mem_of_getElem? hget) (by simpa using hremoved)
  · cases h

theorem Inv.valid (hinv : Inv s) (hfile : Alive s.disk file) : file.hdr.Valid := by
  obtain ⟨i, hi, hui, hsector, hhdr⟩ := hfile
  have ho := headerSectors_entry hi hui
  rw [hsector] at ho
  rw [hhdr]
  exact hinv.mounted.consistent.laid.valid ho

/-- The file that `Open` returns. -/
theorem Mounted.openFile_alive (hm : Mounted s) (name : Image) (garbage : Garbage) :
    ∃ r, s.openFile name garbage = .ok r ∧ ∀ file ∈ r, Alive s.disk file := by
  rcases hm.openFile_spec name garbage with hnone | ⟨i, hi, hui, hsome⟩
  · exact ⟨none, hnone, by simp⟩
  · refine ⟨_, hsome, ?_⟩
    intro file hfile
    obtain rfl := Option.mem_some_iff.mp hfile
    exact ⟨i, hi, hui, rfl, rfl⟩

/-- The states that a call of `Create` leads to. -/
theorem Inv.create (hinv : Inv s) (name : Image) {initialSize : Int} (h0 : 0 ≤ initialSize)
    (hmax : initialSize ≤ maxFileSize) (garbage : Garbage) :
    ∃ disk' r, s.create name initialSize garbage = .ok (disk', r) ∧ Inv { s with disk := disk' } := by
  rcases hinv.mounted.create_spec name h0 hmax garbage with hfalse | ⟨e, x, hdr, disk', htrue, -, ha⟩
  · exact ⟨s.disk, false, hfalse, hinv⟩
  · refine ⟨disk', true, htrue, ha.mounted hinv.mounted, ?_, hinv.stopped⟩
    exact fun h hmem hlive => ha.alive (hinv.handles h hmem hlive)

/-- The states that a call of `Remove` leads to. -/
theorem Inv.remove (hinv : Inv s) (name : Image) (garbage : Garbage) :
    (s.remove name garbage = .ok (s.disk, none)) ∨
      ∃ disk' sector, s.remove name garbage = .ok (disk', some sector) ∧
        Inv { s with disk := disk', handles := s.forget sector } := by
  rcases hinv.mounted.remove_spec name garbage with ⟨hnone, -⟩ | ⟨e, disk', hsome, hr⟩
  · exact Or.inl hnone
  · refine Or.inr ⟨disk', _, hsome, hr.mounted hinv.mounted _, ?_, hinv.stopped⟩
    intro h hmem hlive
    obtain ⟨g, hg, rfl⟩ := List.mem_map.mp hmem
    split at hlive
    · cases hlive
    · rename_i hne
      rw [if_neg hne]
      exact hr.alive (hinv.handles g hg hlive) hne

theorem Inv.perform (hinv : Inv s) {l : Label} {t : State} (hstep : s.perform l = some t) :
    Inv t := by
  unfold State.perform at hstep
  split at hstep
  case h_1 name initialSize _ =>
    split at hstep
    · rename_i hsize
      obtain ⟨disk', r, hcreate, hinv'⟩ := hinv.create name hsize.1 hsize.2 l.garbage
      rw [hcreate] at hstep
      obtain rfl := Option.some.inj hstep
      exact hinv'
    · cases hstep
  case h_2 name _ =>
    rcases hinv.remove name l.garbage with hnone | ⟨disk', sector, hsome, hinv'⟩
    · rw [hnone] at hstep
      obtain rfl := Option.some.inj hstep
      exact hinv
    · rw [hsome] at hstep
      obtain rfl := Option.some.inj hstep
      exact hinv'
  case h_3 name _ =>
    obtain ⟨r, hopen, halive⟩ := hinv.mounted.openFile_alive name l.garbage
    rw [hopen] at hstep
    obtain rfl := Option.some.inj hstep
    cases r with
    | none => exact hinv
    | some file =>
      refine ⟨⟨hinv.mounted.consistent, hinv.mounted.freeMapHdr, hinv.mounted.directoryHdr⟩, ?_,
        hinv.stopped⟩
      intro h hmem hlive
      rcases List.mem_append.mp hmem with hold | hnew
      · exact hinv.handles h hold hlive
      · obtain rfl := List.mem_singleton.mp hnew
        exact halive file rfl
  case h_4 handle numBytes position _ =>
    split at hstep
    · rename_i file hlive
      have hv := hinv.valid (hinv.alive hlive)
      rcases readAt_cases hv numBytes position with ⟨bytes, hread⟩ | hread
      · rw [hread] at hstep
        obtain rfl := Option.some.inj hstep
        exact hinv
      · rw [hread] at hstep
        obtain rfl := Option.some.inj hstep
        exact hinv.stop
    · cases hstep
  case h_5 handle bytes numBytes position _ =>
    split at hstep
    · rename_i file hlive
      have hfile := hinv.alive hlive
      rcases writeAt_cases (hinv.valid hfile) bytes numBytes position l.buf with
        ⟨disk', result, hwrite, hframe⟩ | hwrite
      · rw [hwrite] at hstep
        obtain rfl := Option.some.inj hstep
        exact hinv.write hfile hframe
      · rw [hwrite] at hstep
        obtain rfl := Option.some.inj hstep
        exact hinv.stop
    · cases hstep

/-- `Remove` after `Create` gives the bitmap back as it was. -/
theorem Added.restored {name : Image} {e x : Nat} {hdr : FileHeader} (hm : Mounted s)
    (ha : Added s.disk name e x hdr disk') (garbage : Garbage) :
    ∃ disk'' sector, State.remove { s with disk := disk' } name garbage =
        .ok (disk'', some sector) ∧
      ∀ y, (freeMapOn disk'').test y = (freeMapOn s.disk).test y := by
  have hm' := ha.mounted hm
  have hself := ha.entry_new
  have huse : ((directoryOn disk').entry e).inUse = true := by rw [hself]
  have hname : ((directoryOn disk').entry e).name = compared name := by rw [hself]
  rcases hm'.remove_spec name garbage with ⟨-, hnone⟩ | ⟨i, disk'', hsome, hr⟩
  · exact absurd hname (hnone e ha.index huse)
  · obtain rfl : i = e := ha.consistent.names i hr.index e ha.index hr.inUse huse
      (hr.named.trans hname.symm)
    have hheader : headerSectors (directoryOn disk').entry (.entry i) = some x := by
      rw [headerSectors_entry ha.index huse, hself, Int.toNat_natCast]
    have hholds : holdings (headerSectors (directoryOn disk').entry) disk' (.entry i) =
        x :: hdr.sectors := by
      rw [holdings_of_some hheader, ha.header]
    refine ⟨disk'', _, hsome, fun y => ?_⟩
    have hmarked : (freeMapOn disk'').test y = true ↔ (freeMapOn disk').test y = true ∧
        y ∉ holdings (headerSectors (directoryOn disk').entry) disk' (.entry i) := hr.marked y
    rw [hholds, ha.marked y] at hmarked
    rw [Bool.eq_iff_iff, hmarked]
    constructor
    · rintro ⟨hy | hy, hno⟩
      · exact hy
      · exact absurd hy hno
    · intro hy
      refine ⟨Or.inl hy, fun hmem => ?_⟩
      rw [ha.free y hmem] at hy
      cases hy

theorem Inv.sound (hinv : Inv s) : Sound s := by
  refine ⟨hinv.mounted.consistent.owned, hinv.stopped, ?_, ?_⟩
  · intro name garbage
    rcases hinv.remove name garbage with hnone | ⟨disk', sector, hsome, -⟩
    · exact ⟨_, hnone⟩
    · exact ⟨_, hsome⟩
  · intro name initialSize garbage garbage' disk' h0 hmax hcreate
    rcases hinv.mounted.create_spec name h0 hmax garbage with
      hfalse | ⟨e, x, hdr, disk₁, htrue, -, ha⟩
    · rw [hfalse] at hcreate
      simp at hcreate
    · rw [htrue] at hcreate
      obtain rfl : disk₁ = disk' := by simpa using hcreate
      obtain ⟨disk'', sector, hremove, htest⟩ := ha.restored hinv.mounted garbage'
      exact ⟨disk'', sector, hremove, fun y _ => htest y⟩

end Steps

/-! ### Formatting -/

section Format

variable {disk : Disk} {mapHdr dirHdr : FileHeader} {b b₁ b₂ : BitMap} {fs gs : List Nat}

/-- Nothing is laid out on the disk. -/
theorem Laid.empty (disk : Disk) : Laid (fun _ => none) disk fun _ => False := by
  refine ⟨⟨fun _ => List.nodup_nil, ?_, ?_⟩, ?_, ?_⟩
  · intro i j x hx
    cases hx
  · simp [holdings]
  · intro o x ho
    cases ho
  · intro o x ho
    cases ho

/-- The disk with the headers of the bitmap file and of the directory file, before anything is
in the directory. -/
theorem Described.formatted {es : Nat → Entry} (hes : ∀ i < numDirEntries, (es i).inUse = false)
    (hstart : ∀ y, b.test y = true ↔ y = freeMapSector ∨ y = directorySector)
    (hmap : Allocated b mapHdr.sectors b₁) (hdir : Allocated b₁ dirHdr.sectors b₂)
    (hvmap : mapHdr.Valid) (hvdir : dirHdr.Valid) (hsmap : mapHdr.numBytes = freeMapFileSize)
    (hsdir : dirHdr.numBytes = directoryFileSize) (disk : Disk) :
    Described es
      (Function.update (Function.update disk freeMapSector mapHdr) directorySector dirHdr)
      fun y => b₂.test y = true := by
  have htest₁ : ∀ y, b₁.test y = true ↔
      y ∈ mapHdr.sectors ∨ y = freeMapSector ∨ y = directorySector := by
    intro y
    rw [hmap.test, Bool.or_eq_true, decide_eq_true_eq, hstart]
  have htest₂ : ∀ y, b₂.test y = true ↔ y ∈ dirHdr.sectors ∨ y ∈ mapHdr.sectors ∨
      y = freeMapSector ∨ y = directorySector := by
    intro y
    rw [hdir.test, Bool.or_eq_true, decide_eq_true_eq, htest₁]
  have hclear : ∀ y ∈ mapHdr.sectors, y ≠ freeMapSector ∧ y ≠ directorySector := by
    intro y hy
    have hno := hmap.clear y hy
    rw [Bool.eq_false_iff, ne_eq, hstart, not_or] at hno
    exact hno
  have hclear₁ : ∀ y ∈ dirHdr.sectors,
      y ∉ mapHdr.sectors ∧ y ≠ freeMapSector ∧ y ≠ directorySector := by
    intro y hy
    have hno := hdir.clear y hy
    rw [Bool.eq_false_iff, ne_eq, htest₁, not_or, not_or] at hno
    exact hno
  have hne : directorySector ≠ freeMapSector := by decide
  have hnodup : (freeMapSector :: mapHdr.sectors).Nodup :=
    List.nodup_cons.mpr ⟨fun hmem => (hclear _ hmem).1 rfl, hvmap.nodup⟩
  have hnodup₁ : (directorySector :: dirHdr.sectors).Nodup :=
    List.nodup_cons.mpr ⟨fun hmem => (hclear₁ _ hmem).2.2 rfl, hvdir.nodup⟩
  have hlaid := (Laid.empty disk).add (o := .freeMap) rfl hvmap (by decide) hnodup (by simp)
  have hfree : ∀ y ∈ directorySector :: dirHdr.sectors,
      ¬ (False ∨ y ∈ freeMapSector :: mapHdr.sectors) := by
    intro y hy hor
    have hmem := hor.resolve_left id
    rcases List.mem_cons.mp hy with rfl | hy
    · rcases List.mem_cons.mp hmem with heq | hmem
      · exact hne heq
      · exact (hclear _ hmem).2 rfl
    · rcases List.mem_cons.mp hmem with heq | hmem
      · exact (hclear₁ y hy).2.1 heq
      · exact (hclear₁ y hy).1 hmem
  have hlaid₂ := hlaid.add (o := .directory) rfl hvdir (by decide) hnodup₁ hfree
  have hheaders : headerSectors es = Function.update (Function.update (fun _ => none) .freeMap
      (some freeMapSector)) .directory (some directorySector) := by
    funext o
    cases o with
    | freeMap => rfl
    | directory => rfl
    | entry i =>
      rw [Function.update_of_ne (by simp), Function.update_of_ne (by simp)]
      apply if_neg
      rintro ⟨hi, hui⟩
      rw [hes i hi] at hui
      cases hui
  refine ⟨?_, ?_, ?_, ?_, ?_⟩
  · rw [hheaders]
    refine ⟨hlaid₂.divided.congr (fun _ => rfl) fun y => ?_, hlaid₂.range, hlaid₂.valid⟩
    rw [htest₂, List.mem_cons, List.mem_cons]
    tauto
  · intro i hi hui
    rw [hes i hi] at hui
    cases hui
  · intro i hi j hj hui
    rw [hes i hi] at hui
    cases hui
  · rw [Function.update_of_ne (Ne.symm hne), Function.update_self]
    exact hsmap
  · rw [Function.update_self]
    exact hsdir

/-- `Allocate` succeeds for a file of one sector while there is a clear one. -/
theorem FileHeader.allocate_one (h : FileHeader) (fileSize : Nat)
    (hone : divRoundUp fileSize sectorSize = 1) (hmax : fileSize ≤ maxFileSize)
    (hbits : b.numBits = Filesys.numSectors) (hclear : b.numMarked < Filesys.numSectors) :
    ∃ h' b', h.allocate b fileSize = .ok (some (h', b')) ∧ Allocated b h'.sectors b' ∧
      h'.sectors.length = 1 ∧ h'.numBytes = fileSize ∧ h'.Valid := by
  have hcount := b.numMarked_add_numClear
  rcases h.allocate_spec (Int.natCast_nonneg fileSize) (by exact_mod_cast hmax) hbits with
    ⟨hfull, -⟩ | ⟨h', fs, b', halloc, hallocated, hlen, hbytes, rfl, hv⟩
  · rw [Int.toNat_natCast, hone] at hfull
    omega
  · rw [Int.toNat_natCast, hone] at hlen
    exact ⟨h', b', halloc, hallocated, hlen, hbytes, hv⟩

/-- Formatting fails no ASSERT; it leaves a consistent disk with an empty directory and four sectors
in use. -/
theorem format_empty (disk : Disk) (mapHdr dirHdr : Image) (garbage : Garbage) :
    ∃ s, format disk mapHdr dirHdr garbage = .ok s ∧ Mounted s ∧ s.handles = [] ∧
      s.stopped = none ∧ (∀ i < numDirEntries, ((directoryOn s.disk).entry i).inUse = false) ∧
      (freeMapOn s.disk).numMarked = 4 := by
  have h0 : freeMapSector < (BitMap.new numSectors).numBits := by decide
  have h1 : directorySector < ((BitMap.new numSectors).mark freeMapSector).numBits := by decide
  have htest₀ : (BitMap.new numSectors).test freeMapSector = false := BitMap.test_new _ _
  have htest₁ : ((BitMap.new numSectors).mark freeMapSector).test directorySector = false := by
    rw [BitMap.test_mark _ h0, BitMap.test_new]
    rfl
  generalize hb : ((BitMap.new numSectors).mark freeMapSector).mark directorySector = b
  have hstart : ∀ y, b.test y = true ↔ y = freeMapSector ∨ y = directorySector := by
    intro y
    rw [← hb, BitMap.test_mark _ h1, BitMap.test_mark _ h0, BitMap.test_new]
    simp only [Bool.or_false, Bool.or_eq_true, decide_eq_true_eq]
    exact or_comm
  have hbits : b.numBits = numSectors := by
    rw [← hb]
    rfl
  have hmarked : b.numMarked = 2 := by
    rw [← hb, BitMap.numMarked_mark h1 htest₁, BitMap.numMarked_mark h0 htest₀, BitMap.numMarked_new]
  obtain ⟨hdr, b₁, halloc, hallocated, hlen, hsize, hv⟩ := FileHeader.allocate_one mapHdr
    freeMapFileSize (by decide) (by decide) hbits (by rw [hmarked]; decide)
  have hmarked₁ : b₁.numMarked = 3 := by
    rw [hallocated.marked, hmarked, hlen]
  obtain ⟨hdr₁, b₂, halloc₁, hallocated₁, hlen₁, hsize₁, hv₁⟩ := FileHeader.allocate_one dirHdr
    directoryFileSize (by decide) (by decide) (hallocated.numBits.trans hbits)
    (by rw [hmarked₁]; decide)
  have hunused : ∀ i < numDirEntries,
      ((Directory.new garbage.table).entry i).inUse = false := fun i hi =>
    Directory.inUse_new garbage.table hi
  have hd := Described.formatted hunused hstart hallocated hallocated₁ hv hv₁ hsize hsize₁ disk
  have hbits₂ : b₂.numBits = numSectors :=
    hallocated₁.numBits.trans (hallocated.numBits.trans hbits)
  generalize hdisk : Function.update (Function.update disk freeMapSector hdr) directorySector hdr₁ =
    disk₁ at hd
  have hmap : disk₁ freeMapSector = hdr := by
    rw [← hdisk]
    rfl
  have hdir : disk₁ directorySector = hdr₁ := by
    rw [← hdisk]
    rfl
  obtain ⟨disk', hflush, hf⟩ := hd.flush_remove (b := b₂)
    (s := ⟨disk₁, ⟨hdr, freeMapSector⟩, ⟨hdr₁, directorySector⟩, [], none⟩) hbits₂
    (fun _ => Iff.rfl) hmap.symm hdir.symm garbage
  refine ⟨⟨disk', ⟨hdr, freeMapSector⟩, ⟨hdr₁, directorySector⟩, [], none⟩, ?_, ?_, rfl, rfl, ?_, ?_⟩
  · unfold format
    simp only [hb, halloc, halloc₁, ok_bind]
    rw [writeSector_eq disk _ (by decide) (by decide), ok_bind,
      writeSector_eq _ _ (by decide) (by decide), ok_bind]
    simp only [Int.toNat_natCast, hdisk]
    unfold OpenFile.new
    rw [readSector_eq _ (by decide) (by decide), readSector_eq _ (by decide) (by decide)]
    simp only [Int.toNat_natCast, hmap, hdir]
    have hdone := congrArg (fun r => r >>= fun disk => pure
      (State.mk disk ⟨hdr, freeMapSector⟩ ⟨hdr₁, directorySector⟩ [] none)) hflush
    simp only [ok_bind, bind_assoc] at hdone
    exact hdone
  · refine ⟨hf.consistent, ?_, ?_⟩
    · rw [← hmap]
      exact (hf.headers (o := .freeMap) rfl).symm
    · rw [← hdir]
      exact (hf.headers (o := .directory) rfl).symm
  · intro i hi
    rw [hf.entries i hi]
    exact hunused i hi
  · show (freeMapOn disk').numMarked = 4
    rw [hf.freeMap, hallocated₁.marked, hmarked₁, hlen₁]

/-- Formatting fails no ASSERT and leaves a consistent disk. -/
theorem format_spec (disk : Disk) (mapHdr dirHdr : Image) (garbage : Garbage) :
    ∃ s, format disk mapHdr dirHdr garbage = .ok s ∧ Mounted s ∧ s.handles = [] ∧
      s.stopped = none := by
  obtain ⟨s, hformat, hm, hhandles, hstopped, -⟩ := format_empty disk mapHdr dirHdr garbage
  exact ⟨s, hformat, hm, hhandles, hstopped⟩

/-- `FileSystem(TRUE)` fails no ASSERT and starts in the invariant. -/
theorem fileSystem_spec (disk : Disk) (mapHdr dirHdr : Image) (garbage : Nat → Garbage) :
    ∃ s, fileSystem disk mapHdr dirHdr garbage = .ok s ∧ Inv s := by
  obtain ⟨s, hformat, hm, hhandles, hstopped⟩ := format_spec disk mapHdr dirHdr (garbage 0)
  have hinv : Inv s := by
    refine ⟨hm, ?_, ?_⟩
    · rw [hhandles]
      intro h hmem
      cases hmem
    · rw [hstopped]
      simp
  obtain ⟨disk₁, r₁, hcreate₁, hinv₁⟩ := hinv.create (literal "stdin")
    (show (0 : Int) ≤ 2 by decide) (by decide) (garbage 1)
  obtain ⟨disk₂, r₂, hcreate₂, hinv₂⟩ := hinv₁.create (literal "stdout")
    (show (0 : Int) ≤ 3 by decide) (by decide) (garbage 2)
  obtain ⟨stdin, hstdin, halive⟩ := hinv₂.mounted.openFile_alive (literal "stdin") (garbage 3)
  obtain ⟨stdout, hstdout, halive'⟩ := hinv₂.mounted.openFile_alive (literal "stdout") (garbage 4)
  let handles := (stdin.toList ++ stdout.toList).map fun file => Handle.mk file false
  refine ⟨{ s with disk := disk₂, handles := handles }, ?_, ?_⟩
  · unfold fileSystem
    simp only [hformat, ok_bind, hcreate₁, hcreate₂, hstdin, hstdout]
    rfl
  · refine ⟨⟨hinv₂.mounted.consistent, hinv₂.mounted.freeMapHdr, hinv₂.mounted.directoryHdr⟩, ?_,
      hinv₂.stopped⟩
    intro h hmem _
    obtain ⟨file, hfile, rfl⟩ := List.mem_map.mp hmem
    rcases List.mem_append.mp hfile with hfile | hfile
    · exact halive file (Option.mem_toList.mp hfile)
    · exact halive' file (Option.mem_toList.mp hfile)

end Format

theorem Inv.step {s t : State} {l : Label} (hinv : Inv s) (hstep : step s l = some t) : Inv t := by
  unfold Filesys.step at hstep
  split at hstep
  · cases hstep
  · exact hinv.perform hstep

/-- The ownership of sectors, in every state of every run. -/
theorem disk_ownership (disk : Disk) (mapHdr dirHdr : Image) (garbage : Nat → Garbage)
    (ls : List Label) :
    ∃ s, fileSystem disk mapHdr dirHdr garbage = .ok s ∧ AllStates step Sound s ls := by
  obtain ⟨s, hstart, hinv⟩ := fileSystem_spec disk mapHdr dirHdr garbage
  refine ⟨s, hstart, ?_⟩
  exact (allStates_of_invariant (fun _ _ _ => Inv.step) hinv ls).mono fun _ h => h.sound

end Nachos.Filesys
