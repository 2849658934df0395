import Nachos.Filesys.Layout

/-!
# Consistent disks

A disk is consistent when the bitmap file marks the sectors that the bitmap file itself, the
directory file and the files of the directory hold, each sector once, and the names in the
directory are different. `Create` and `Remove` are specified on consistent disks: `create_spec`
and `remove_spec` say what becomes of the entries, of the headers and of the marked sectors.
-/

namespace Nachos.Filesys

open Bytes Shares

/-! ### Contents of the disk -/

/-- The contents of the directory file. -/
def directoryOn (disk : Disk) : Directory := fun k => fileByte disk (disk directorySector) k

/-- The contents of the bitmap file. -/
def freeMapOn (disk : Disk) : BitMap :=
  BitMap.ofImage numSectors fun k => fileByte disk (disk freeMapSector) k

/-- The sectors of the headers, for the entries of a directory. -/
def headerSectors (es : Nat → Entry) : Holder → Option Nat
  | .freeMap => some freeMapSector
  | .directory => some directorySector
  | .entry i => if i < numDirEntries ∧ (es i).inUse = true then some (es i).sector.toNat else none

/-- The entries `es` describe the files of the disk, and the sectors in use are theirs. -/
structure Described (es : Nat → Entry) (disk : Disk) (used : Nat → Prop) : Prop where
  laid : Laid (headerSectors es) disk used
  nonneg : ∀ i < numDirEntries, (es i).inUse = true → 0 ≤ (es i).sector
  names : ∀ i < numDirEntries, ∀ j < numDirEntries, (es i).inUse = true → (es j).inUse = true →
    (es i).name = (es j).name → i = j
  freeMapSize : FileHeader.numBytes (disk freeMapSector) = freeMapFileSize
  directorySize : FileHeader.numBytes (disk directorySector) = directoryFileSize

def Consistent (disk : Disk) : Prop :=
  Described (directoryOn disk).entry disk fun x => (freeMapOn disk).test x = true

section Described

variable {es es' : Nat → Entry} {disk disk' : Disk} {used used' : Nat → Prop} {i x : Nat}

theorem headerSectors_entry (hi : i < numDirEntries) (huse : (es i).inUse = true) :
    headerSectors es (.entry i) = some (es i).sector.toNat := if_pos ⟨hi, huse⟩

theorem headerSectors_unused (huse : (es i).inUse = false) :
    headerSectors es (.entry i) = none := by
  apply if_neg
  rw [huse]
  simp

theorem headerSectors_entry_some (h : headerSectors es (.entry i) = some x) :
    i < numDirEntries ∧ (es i).inUse = true ∧ (es i).sector.toNat = x := by
  simp only [headerSectors] at h
  split at h
  · rename_i hcond
    exact ⟨hcond.1, hcond.2, Option.some.inj h⟩
  · cases h

theorem headerSectors_congr (h : ∀ i < numDirEntries, es' i = es i) :
    headerSectors es' = headerSectors es := by
  funext o
  cases o with
  | freeMap => rfl
  | directory => rfl
  | entry i =>
    unfold headerSectors
    by_cases hi : i < numDirEntries
    · simp only [hi, true_and, h i hi]
    · simp only [hi, false_and, if_false]

/-- The header sector of a holder depends on its own entry. -/
theorem headerSectors_eq {o : Holder} (h : ∀ i, o = .entry i → es' i = es i) :
    headerSectors es' o = headerSectors es o := by
  cases o with
  | freeMap => rfl
  | directory => rfl
  | entry i => simp only [headerSectors, h i rfl]

namespace Described

theorem congr (hd : Described es disk used) (hes : ∀ i < numDirEntries, es' i = es i)
    (hused : ∀ x, used' x ↔ used x) : Described es' disk used' := by
  refine ⟨?_, ?_, ?_, hd.freeMapSize, hd.directorySize⟩
  · rw [headerSectors_congr hes]
    exact ⟨hd.laid.divided.congr (fun _ => rfl) hused, hd.laid.range, hd.laid.valid⟩
  · intro i hi huse
    rw [hes i hi] at huse ⊢
    exact hd.nonneg i hi huse
  · intro i hi j hj hui huj hname
    rw [hes i hi] at hui hname
    rw [hes j hj] at huj hname
    exact hd.names i hi j hj hui huj hname

theorem valid_freeMap (hd : Described es disk used) : FileHeader.Valid (disk freeMapSector) :=
  hd.laid.valid (o := .freeMap) rfl

theorem valid_directory (hd : Described es disk used) : FileHeader.Valid (disk directorySector) :=
  hd.laid.valid (o := .directory) rfl

/-- Writing the data of one file keeps the description. -/
theorem write (hd : Described es disk used) {o : Holder} (ho : headerSectors es o = some x)
    (hframe : ∀ z, z ∉ FileHeader.sectors (disk x) → disk' z = disk z) :
    Described es disk' used ∧ ∀ {p y}, headerSectors es p = some y → disk' y = disk y := by
  obtain ⟨hlaid, hheaders, -⟩ := hd.laid.write ho hframe
  refine ⟨⟨hlaid, hd.nonneg, hd.names, ?_, ?_⟩, hheaders⟩
  · rw [hheaders (p := .freeMap) rfl]
    exact hd.freeMapSize
  · rw [hheaders (p := .directory) rfl]
    exact hd.directorySize

/-- Writing the data of another file does not change the bitmap. -/
theorem freeMapOn_write (hd : Described es disk used) {o : Holder} (hne : o ≠ .freeMap)
    (ho : headerSectors es o = some x)
    (hframe : ∀ z, z ∉ FileHeader.sectors (disk x) → disk' z = disk z) :
    freeMapOn disk' = freeMapOn disk := by
  obtain ⟨-, hheaders, hdata⟩ := hd.laid.write ho hframe
  have hfree : disk' freeMapSector = disk freeMapSector := hheaders (p := .freeMap) rfl
  have hsize := hd.freeMapSize
  unfold freeMapOn
  rw [hfree]
  apply BitMap.ofImage_congr
  intro k hk
  have hbytes : divRoundUp numSectors 32 * 4 = freeMapFileSize := rfl
  exact hdata (p := .freeMap) (Ne.symm hne) rfl k (by omega)

/-- Writing the data of another file does not change the directory. -/
theorem directoryOn_write (hd : Described es disk used) {o : Holder} (hne : o ≠ .directory)
    (ho : headerSectors es o = some x)
    (hframe : ∀ z, z ∉ FileHeader.sectors (disk x) → disk' z = disk z) :
    ∀ i < numDirEntries, (directoryOn disk').entry i = (directoryOn disk).entry i := by
  obtain ⟨-, hheaders, hdata⟩ := hd.laid.write ho hframe
  have hdir : disk' directorySector = disk directorySector := hheaders (p := .directory) rfl
  have hsize := hd.directorySize
  intro i hi
  apply Directory.entry_congr_of_lt _ hi
  intro k hk
  unfold directoryOn
  rw [hdir]
  exact hdata (p := .directory) (Ne.symm hne) rfl k (by omega)

/-- `WriteBack` of a bitmap. -/
theorem freeMap_writeBack (hd : Described es disk used) {file : OpenFile}
    (hfile : file.hdr = disk freeMapSector) {b : BitMap} (hbits : b.numBits = numSectors)
    (buf : Image) :
    ∃ disk', b.writeBack disk file buf = .ok disk' ∧ Described es disk' used ∧
      (∀ {p y}, headerSectors es p = some y → disk' y = disk y) ∧ freeMapOn disk' = b ∧
      ∀ i < numDirEntries, (directoryOn disk').entry i = (directoryOn disk).entry i := by
  have hbytes : b.map.length * 4 = freeMapFileSize := by
    rw [b.length_map, hbits]
    rfl
  have hv : file.hdr.Valid := hfile ▸ hd.valid_freeMap
  obtain ⟨disk', hwrite, hframe, hdata⟩ := storeFrom_spec hv (n := freeMapFileSize) (by decide)
    (hfile ▸ hd.freeMapSize.ge) b.toImage buf
  rw [hfile] at hframe hdata
  have ho : headerSectors es .freeMap = some freeMapSector := rfl
  obtain ⟨hd', hheaders⟩ := hd.write ho hframe
  refine ⟨disk', ?_, hd', hheaders, ?_, hd.directoryOn_write (by decide) ho hframe⟩
  · unfold BitMap.writeBack
    rw [hbytes, hwrite]
  · rw [← b.ofImage_toImage, hbits]
    unfold freeMapOn
    rw [hheaders ho]
    apply BitMap.ofImage_congr
    intro k hk
    exact hdata k hk

/-- `WriteBack` of a directory. -/
theorem directory_writeBack (hd : Described es disk used) {file : OpenFile}
    (hfile : file.hdr = disk directorySector) (d : Directory) (buf : Image) :
    ∃ disk', d.writeBack disk file buf = .ok disk' ∧ Described es disk' used ∧
      (∀ {p y}, headerSectors es p = some y → disk' y = disk y) ∧
      freeMapOn disk' = freeMapOn disk ∧
      ∀ i < numDirEntries, (directoryOn disk').entry i = d.entry i := by
  have hv : file.hdr.Valid := hfile ▸ hd.valid_directory
  obtain ⟨disk', hwrite, hframe, hdata⟩ := storeFrom_spec hv (n := directoryFileSize) (by decide)
    (hfile ▸ hd.directorySize.ge) d buf
  rw [hfile] at hframe hdata
  have ho : headerSectors es .directory = some directorySector := rfl
  obtain ⟨hd', hheaders⟩ := hd.write ho hframe
  refine ⟨disk', hwrite, hd', hheaders, hd.freeMapOn_write (by decide) ho hframe, ?_⟩
  intro i hi
  apply Directory.entry_congr_of_lt _ hi
  intro k hk
  unfold directoryOn
  rw [hheaders ho]
  exact hdata k hk

/-- A sector that is not in use has no header. -/
theorem header_update (hd : Described es disk used) {o : Holder} {y : Nat}
    (ho : headerSectors es o = some y) (hx : ¬ used x) (hdr : FileHeader) :
    Function.update disk x hdr y = disk y := by
  apply Function.update_of_ne
  rintro rfl
  exact hx (hd.laid.divided.used_of_mem (Laid.mem_header ho))

/-- `Deallocate` and `Clear`, as `Remove` calls them for the header in the sector `x`: all the
sectors of the file are marked, so that no ASSERT fails. -/
theorem deallocate {b : BitMap} (hd : Described es disk fun y => b.test y = true)
    (hbits : b.numBits = numSectors) {o : Holder} (ho : headerSectors es o = some x) :
    ∃ b', FileHeader.deallocate (disk x) b = .ok b' ∧ b'.clear? (x : Int) = some (b'.clear x) ∧
      b'.numBits = numSectors ∧ ∀ y, (b'.clear x).test y = true ↔
        b.test y = true ∧ y ∉ holdings (headerSectors es) disk o := by
  have hholds : holdings (headerSectors es) disk o = x :: FileHeader.sectors (disk x) :=
    holdings_of_some ho
  have hmarked : ∀ y ∈ FileHeader.sectors (disk x), b.test y = true := by
    intro y hy
    apply hd.laid.divided.used_of_mem (i := o)
    rw [hholds]
    exact List.mem_cons_of_mem _ hy
  obtain ⟨b', hdealloc, hbits', htest⟩ :=
    FileHeader.deallocate_spec (hd.laid.valid ho) hbits hmarked
  have hx : x < b'.numBits := by
    rw [hbits']
    exact hd.laid.range ho
  refine ⟨b', hdealloc, ?_, hbits', ?_⟩
  · unfold BitMap.clear?
    rw [if_pos (by simpa [BitMap.inRange] using hx), Int.toNat_natCast]
  · intro y
    rw [BitMap.test_clear b' hx, hholds, List.mem_cons, not_or, Bool.and_eq_true, htest]
    simp only [Bool.not_eq_true', decide_eq_false_iff_not]
    tauto

section Flush

variable {s : State} {d : Directory} {b : BitMap}

/-- The disk when `Create` or `Remove` has written the directory `d` and the bitmap `b`. -/
structure Flushed (d : Directory) (b : BitMap) (disk disk' : Disk) : Prop where
  consistent : Consistent disk'
  headers : ∀ {o y}, headerSectors d.entry o = some y → disk' y = disk y
  freeMap : freeMapOn disk' = b
  entries : ∀ i < numDirEntries, (directoryOn disk').entry i = d.entry i

/-- The end of `Create`. -/
theorem flush_create (hd : Described d.entry disk used) (hbits : b.numBits = numSectors)
    (hused : ∀ x, b.test x = true ↔ used x) (hmap : s.freeMapFile.hdr = disk freeMapSector)
    (hdir : s.directoryFile.hdr = disk directorySector) (garbage : Garbage) :
    ∃ disk', (do
        let disk ← d.writeBack disk s.directoryFile garbage.directoryBuf
        b.writeBack disk s.freeMapFile garbage.freeMapBuf) = Except.ok disk' ∧
      Flushed d b disk disk' := by
  obtain ⟨disk₁, hw₁, hd₁, hh₁, -, he₁⟩ := hd.directory_writeBack hdir d garbage.directoryBuf
  have hmap₁ : s.freeMapFile.hdr = disk₁ freeMapSector := by rw [hmap, hh₁ (p := .freeMap) rfl]
  obtain ⟨disk₂, hw₂, hd₂, hh₂, hb₂, he₂⟩ := hd₁.freeMap_writeBack hmap₁ hbits garbage.freeMapBuf
  have hentries : ∀ i < numDirEntries, (directoryOn disk₂).entry i = d.entry i := fun i hi =>
    (he₂ i hi).trans (he₁ i hi)
  refine ⟨disk₂, ?_, hd₂.congr hentries ?_, fun ho => (hh₂ ho).trans (hh₁ ho), hb₂, hentries⟩
  · rw [hw₁]
    exact hw₂
  · intro x
    rw [hb₂]
    exact hused x

/-- The end of `Remove`, which writes the bitmap first. -/
theorem flush_remove (hd : Described d.entry disk used) (hbits : b.numBits = numSectors)
    (hused : ∀ x, b.test x = true ↔ used x) (hmap : s.freeMapFile.hdr = disk freeMapSector)
    (hdir : s.directoryFile.hdr = disk directorySector) (garbage : Garbage) :
    ∃ disk', (do
        let disk ← b.writeBack disk s.freeMapFile garbage.freeMapBuf
        d.writeBack disk s.directoryFile garbage.directoryBuf) = Except.ok disk' ∧
      Flushed d b disk disk' := by
  obtain ⟨disk₁, hw₁, hd₁, hh₁, hb₁, -⟩ := hd.freeMap_writeBack hmap hbits garbage.freeMapBuf
  have hdir₁ : s.directoryFile.hdr = disk₁ directorySector := by
    rw [hdir, hh₁ (p := .directory) rfl]
  obtain ⟨disk₂, hw₂, hd₂, hh₂, hb₂, he₂⟩ := hd₁.directory_writeBack hdir₁ d garbage.directoryBuf
  have hfree : freeMapOn disk₂ = b := hb₂.trans hb₁
  refine ⟨disk₂, ?_, hd₂.congr he₂ ?_, fun ho => (hh₂ ho).trans (hh₁ ho), hfree, he₂⟩
  · rw [hw₁]
    exact hw₂
  · intro x
    rw [hfree]
    exact hused x

end Flush

/-- A new entry, with its header on sectors that were not in use. -/
theorem add (hd : Described es disk used) {e : Nat} (he : e < numDirEntries)
    (huse : (es e).inUse = false) {name : List Byte}
    (hnew : ∀ i < numDirEntries, (es i).inUse = true → (es i).name ≠ name) {hdr : FileHeader}
    (hv : hdr.Valid) (hx : x < numSectors) (hnodup : (x :: hdr.sectors).Nodup)
    (hfree : ∀ y ∈ x :: hdr.sectors, ¬ used y)
    (hes : ∀ i, es' i = if i = e then ⟨true, x, name⟩ else es i) :
    Described es' (Function.update disk x hdr) fun y => used y ∨ y ∈ x :: hdr.sectors := by
  have hself : es' e = ⟨true, x, name⟩ := by rw [hes, if_pos rfl]
  have hother : ∀ {i}, i ≠ e → es' i = es i := fun hi => by rw [hes, if_neg hi]
  have hheaders : headerSectors es' = Function.update (headerSectors es) (.entry e) (some x) := by
    funext o
    by_cases ho : o = .entry e
    · subst ho
      rw [Function.update_self, headerSectors_entry he (by rw [hself]), hself, Int.toNat_natCast]
    · rw [Function.update_of_ne ho]
      apply headerSectors_eq
      rintro i rfl
      exact hother fun hi => ho (by rw [hi])
  have hkeep : ∀ {o y}, headerSectors es o = some y → Function.update disk x hdr y = disk y :=
    fun ho => hd.header_update ho (hfree x (List.mem_cons_self ..)) hdr
  refine ⟨?_, ?_, ?_, ?_, ?_⟩
  · rw [hheaders]
    exact hd.laid.add (headerSectors_unused huse) hv hx hnodup hfree
  · intro i hi hui
    by_cases hie : i = e
    · rw [hie, hself]
      exact Int.natCast_nonneg x
    · rw [hother hie] at hui ⊢
      exact hd.nonneg i hi hui
  · intro i hi j hj hui huj hname
    by_cases hie : i = e
    · by_cases hje : j = e
      · rw [hie, hje]
      · rw [hother hje] at huj hname
        rw [hie, hself] at hname
        exact absurd hname.symm (hnew j hj huj)
    · rw [hother hie] at hui hname
      by_cases hje : j = e
      · rw [hje, hself] at hname
        exact absurd hname (hnew i hi hui)
      · rw [hother hje] at huj hname
        exact hd.names i hi j hj hui huj hname
  · rw [hkeep (o := .freeMap) rfl]
    exact hd.freeMapSize
  · rw [hkeep (o := .directory) rfl]
    exact hd.directorySize

/-- An entry is given up. -/
theorem drop (hd : Described es disk used) (e : Nat)
    (hes : ∀ i, es' i = if i = e then { es i with inUse := false } else es i) :
    Described es' disk fun y => used y ∧ y ∉ holdings (headerSectors es) disk (.entry e) := by
  have hself : (es' e).inUse = false := by rw [hes, if_pos rfl]
  have hother : ∀ {i}, (es' i).inUse = true → es' i = es i := by
    intro i hi
    by_cases hie : i = e
    · rw [hie, hself] at hi
      cases hi
    · rw [hes, if_neg hie]
  have hheaders : headerSectors es' = Function.update (headerSectors es) (.entry e) none := by
    funext o
    by_cases ho : o = .entry e
    · subst ho
      rw [Function.update_self, headerSectors_unused hself]
    · rw [Function.update_of_ne ho]
      apply headerSectors_eq
      rintro i rfl
      rw [hes, if_neg fun hi => ho (by rw [hi])]
  refine ⟨?_, ?_, ?_, hd.freeMapSize, hd.directorySize⟩
  · rw [hheaders]
    exact hd.laid.drop (.entry e)
  · intro i hi hui
    have heq := hother hui
    rw [heq] at hui ⊢
    exact hd.nonneg i hi hui
  · intro i hi j hj hui huj hname
    have hei := hother hui
    have hej := hother huj
    rw [hei] at hui hname
    rw [hej] at huj hname
    exact hd.names i hi j hj hui huj hname

end Described

end Described

/-! ### Operations on a consistent disk -/

/-- The bitmap file and the directory file are open, on a consistent disk. -/
structure Mounted (s : State) : Prop where
  consistent : Consistent s.disk
  freeMapHdr : s.freeMapFile.hdr = s.disk freeMapSector
  directoryHdr : s.directoryFile.hdr = s.disk directorySector

section Mounted

variable {s : State} {name : Image}

namespace Mounted

theorem fetchDirectory_spec (hm : Mounted s) (garbage : Garbage) :
    ∃ d, s.fetchDirectory garbage = .ok d ∧
      ∀ i < numDirEntries, d.entry i = (directoryOn s.disk).entry i := by
  have hv : s.directoryFile.hdr.Valid := hm.directoryHdr ▸ hm.consistent.valid_directory
  obtain ⟨d, hfetch, hdata⟩ := fetchInto_spec hv (n := directoryFileSize) (by decide)
    (hm.directoryHdr ▸ hm.consistent.directorySize.ge) (Directory.new garbage.table)
  refine ⟨d, hfetch, fun i hi => Directory.entry_congr_of_lt (fun k hk => ?_) hi⟩
  rw [hdata k hk, hm.directoryHdr]
  rfl

theorem fetchFreeMap_spec (hm : Mounted s) : s.fetchFreeMap = .ok (freeMapOn s.disk) := by
  have hv : s.freeMapFile.hdr.Valid := hm.freeMapHdr ▸ hm.consistent.valid_freeMap
  obtain ⟨image, hfetch, hdata⟩ := fetchInto_spec hv (n := freeMapFileSize) (by decide)
    (hm.freeMapHdr ▸ hm.consistent.freeMapSize.ge) (BitMap.new numSectors).toImage
  have hbytes : (BitMap.new numSectors).map.length * 4 = freeMapFileSize := by
    rw [BitMap.length_map]
    rfl
  have himage : BitMap.ofImage numSectors image = freeMapOn s.disk := by
    apply BitMap.ofImage_congr
    intro k hk
    rw [hdata k hk, hm.freeMapHdr]
  unfold State.fetchFreeMap BitMap.fetchFrom
  rw [hbytes, hfetch]
  exact congrArg Except.ok himage

end Mounted

/-- A file was created: its entry is `e`, and its header `hdr` is in the sector `x`. -/
structure Added (disk : Disk) (name : Image) (e x : Nat) (hdr : FileHeader) (disk' : Disk) :
    Prop where
  consistent : Consistent disk'
  index : e < numDirEntries
  unused : ((directoryOn disk).entry e).inUse = false
  new : ∀ i < numDirEntries, ((directoryOn disk).entry i).inUse = true →
    ((directoryOn disk).entry i).name ≠ compared name
  entries : ∀ i < numDirEntries, (directoryOn disk').entry i =
    if i = e then ⟨true, x, compared name⟩ else (directoryOn disk).entry i
  header : disk' x = hdr
  headers : ∀ {o y}, headerSectors (directoryOn disk).entry o = some y → disk' y = disk y
  free : ∀ y ∈ x :: hdr.sectors, (freeMapOn disk).test y = false
  marked : ∀ y, (freeMapOn disk').test y = true ↔
    (freeMapOn disk).test y = true ∨ y ∈ x :: hdr.sectors

/-- The file of the entry `e` was removed. -/
structure Removed (disk : Disk) (name : Image) (e : Nat) (disk' : Disk) : Prop where
  consistent : Consistent disk'
  index : e < numDirEntries
  inUse : ((directoryOn disk).entry e).inUse = true
  named : ((directoryOn disk).entry e).name = compared name
  entries : ∀ i < numDirEntries, (directoryOn disk').entry i =
    if i = e then { (directoryOn disk).entry i with inUse := false } else (directoryOn disk).entry i
  headers : ∀ {o y}, o ≠ .entry e → headerSectors (directoryOn disk).entry o = some y →
    disk' y = disk y
  marked : ∀ y, (freeMapOn disk').test y = true ↔ (freeMapOn disk).test y = true ∧
    y ∉ holdings (headerSectors (directoryOn disk).entry) disk (.entry e)

section Added

variable {disk disk' : Disk} {e x : Nat} {hdr : FileHeader}

/-- The entry of the new file. -/
theorem Added.entry_new (ha : Added disk name e x hdr disk') :
    (directoryOn disk').entry e = ⟨true, x, compared name⟩ := by
  rw [ha.entries e ha.index, if_pos rfl]

theorem Added.header_new (ha : Added disk name e x hdr disk') :
    headerSectors (directoryOn disk').entry (.entry e) = some x := by
  rw [headerSectors_entry ha.index (by rw [ha.entry_new]), ha.entry_new, Int.toNat_natCast]

theorem Added.valid (ha : Added disk name e x hdr disk') : hdr.Valid :=
  ha.header ▸ ha.consistent.laid.valid ha.header_new

end Added

@[simp] theorem ok_bind {α β : Type} (a : α) (f : α → Except Fault β) :
    (Except.ok a >>= f) = f a := rfl

theorem find_of_none {d : Directory} (h : d.findIndex name = none) : d.find name = -1 := by
  unfold Directory.find
  rw [h]

theorem find_of_some {d : Directory} {i : Nat} (h : d.findIndex name = some i) :
    d.find name = (d.entry i).sector := by
  unfold Directory.find
  rw [h]
  rfl

/-- The disk that `Create` leaves, when the entry `e` was free and the sectors of the header were
clear. -/
theorem Mounted.added (hm : Mounted s) {d d' : Directory} {b' : BitMap} {e x : Nat}
    {hdr : FileHeader}
    (hentries : ∀ i < numDirEntries, d.entry i = (directoryOn s.disk).entry i)
    (hnew : d.findIndex name = none) (he : e < numDirEntries) (huse : (d.entry e).inUse = false)
    (hd' : ∀ i, d'.entry i = if i = e then ⟨true, x, compared name⟩ else d.entry i)
    (hv : hdr.Valid) (halloc : Allocated (freeMapOn s.disk) (x :: hdr.sectors) b')
    (garbage : Garbage) :
    ∃ disk', (do
        let disk ← writeSector s.disk x hdr
        let disk ← d'.writeBack disk s.directoryFile garbage.directoryBuf
        b'.writeBack disk s.freeMapFile garbage.freeMapBuf) = Except.ok disk' ∧
      Added s.disk name e x hdr disk' := by
  have hx : x < numSectors := halloc.range x (List.mem_cons_self ..)
  have hfree : ∀ y ∈ x :: hdr.sectors, ¬ (freeMapOn s.disk).test y = true := by
    intro y hy
    rw [halloc.clear y hy]
    exact Bool.false_ne_true
  have hd₀ : Described d.entry s.disk fun y => (freeMapOn s.disk).test y = true :=
    hm.consistent.congr hentries fun _ => Iff.rfl
  have hnew' : ∀ i < numDirEntries, (d.entry i).inUse = true → (d.entry i).name ≠ compared name :=
    fun i hi hui => Directory.findIndex_none hnew hi hui
  have hd₁ := hd₀.add he huse hnew' hv hx halloc.nodup hfree hd'
  have hxfree := hfree x (List.mem_cons_self ..)
  have hmap : s.freeMapFile.hdr = Function.update s.disk x hdr freeMapSector := by
    rw [hm.freeMapHdr, hd₀.header_update (o := .freeMap) rfl hxfree]
  have hdir : s.directoryFile.hdr = Function.update s.disk x hdr directorySector := by
    rw [hm.directoryHdr, hd₀.header_update (o := .directory) rfl hxfree]
  have hmarked : ∀ y, b'.test y = true ↔
      (freeMapOn s.disk).test y = true ∨ y ∈ x :: hdr.sectors := by
    intro y
    rw [halloc.test y, Bool.or_eq_true, decide_eq_true_eq, or_comm]
  obtain ⟨disk', hflush, hf⟩ := hd₁.flush_create halloc.numBits hmarked hmap hdir garbage
  have hheaders : ∀ {o y}, headerSectors (directoryOn s.disk).entry o = some y →
      headerSectors d'.entry o = some y := by
    intro o y ho
    rw [← headerSectors_congr hentries] at ho
    rw [← ho]
    apply headerSectors_eq
    rintro i rfl
    have hie : i ≠ e := by
      rintro rfl
      rw [headerSectors_unused huse] at ho
      cases ho
    rw [hd', if_neg hie]
  refine ⟨disk', ?_, hf.consistent, he, ?_, ?_, ?_, ?_, ?_, halloc.clear, ?_⟩
  · rw [writeSector_eq s.disk hdr (Int.natCast_nonneg x) (by exact_mod_cast hx), Int.toNat_natCast]
    exact hflush
  · rw [← hentries e he]
    exact huse
  · intro i hi hui
    rw [← hentries i hi] at hui ⊢
    exact hnew' i hi hui
  · intro i hi
    rw [hf.entries i hi, hd', hentries i hi]
  · have hself : headerSectors d'.entry (.entry e) = some x := by
      have hself' : d'.entry e = ⟨true, x, compared name⟩ := by rw [hd', if_pos rfl]
      rw [headerSectors_entry he (by rw [hself']), hself', Int.toNat_natCast]
    rw [hf.headers hself, Function.update_self]
  · intro o y ho
    rw [hf.headers (hheaders ho)]
    rw [← headerSectors_congr hentries] at ho
    exact hd₀.header_update ho hxfree hdr
  · rw [hf.freeMap]
    exact hmarked

/-- Why `Create` returns FALSE. -/
inductive Refused (disk : Disk) (name : Image) (initialSize : Int) : Prop
  | named (i : Nat) (index : i < numDirEntries) (inUse : ((directoryOn disk).entry i).inUse = true)
    (name : ((directoryOn disk).entry i).name = compared name)
  | entries (inUse : ∀ i < numDirEntries, ((directoryOn disk).entry i).inUse = true)
  | space (clear : (freeMapOn disk).numClear < 1 + divRoundUp initialSize.toNat sectorSize)

/-- The header and the sectors that `Create` takes depend on the bitmap only. -/
structure Chosen (disk : Disk) (initialSize : Int) (header : Image) (x : Nat) (hdr : FileHeader) :
    Prop where
  find : (freeMapOn disk).find.1 = some x
  allocate : ∃ b', FileHeader.allocate header ((freeMapOn disk).mark x) initialSize =
    .ok (some (hdr, b'))
  numBytes : hdr.numBytes = initialSize
  length : hdr.sectors.length = divRoundUp initialSize.toNat sectorSize
  clear : 1 + divRoundUp initialSize.toNat sectorSize ≤ (freeMapOn disk).numClear

/-- Why `Create` returns FALSE before it allocates: the name, no free entry, or no sector for the
header. -/
inductive Stopped (disk : Disk) (name : Image) : Prop
  | named (i : Nat) (index : i < numDirEntries) (inUse : ((directoryOn disk).entry i).inUse = true)
    (name : ((directoryOn disk).entry i).name = compared name)
  | entries (inUse : ∀ i < numDirEntries, ((directoryOn disk).entry i).inUse = true)
  | header (clear : (freeMapOn disk).numClear = 0)

theorem Stopped.refused {disk : Disk} (h : Stopped disk name) (initialSize : Int) :
    Refused disk name initialSize := by
  cases h with
  | named i hi hui hname => exact .named i hi hui hname
  | entries hall => exact .entries hall
  | header hclear => exact .space (by omega)

/-- `Create` calls `Allocate`: it has the entry `e` of the directory `d`, which becomes `d'`, and the
sector `x`. -/
structure Allocating (disk : Disk) (name : Image) (e x : Nat) (d d' : Directory) : Prop where
  entries : ∀ i < numDirEntries, d.entry i = (directoryOn disk).entry i
  new : d.findIndex name = none
  index : e < numDirEntries
  unused : (d.entry e).inUse = false
  added : ∀ i, d'.entry i = if i = e then ⟨true, x, compared name⟩ else d.entry i
  range : x < numSectors
  clear : (freeMapOn disk).test x = false
  find : (freeMapOn disk).find = (some x, (freeMapOn disk).mark x)

/-- What `Create` does with the result of `Allocate`. -/
structure Finishes (s : State) (name : Image) (garbage : Garbage) (x : Nat) (d' : Directory)
    (initialSize : Int) : Prop where
  fails : ∀ {f}, FileHeader.allocate garbage.header ((freeMapOn s.disk).mark x) initialSize = .error f →
    s.create name initialSize garbage = .error f
  refuses : FileHeader.allocate garbage.header ((freeMapOn s.disk).mark x) initialSize = .ok none →
    s.create name initialSize garbage = .ok (s.disk, false)
  writes : ∀ {hdr b'}, FileHeader.allocate garbage.header ((freeMapOn s.disk).mark x) initialSize =
      .ok (some (hdr, b')) →
    s.create name initialSize garbage = (do
      let disk ← writeSector s.disk x hdr
      let disk ← d'.writeBack disk s.directoryFile garbage.directoryBuf
      let disk ← b'.writeBack disk s.freeMapFile garbage.freeMapBuf
      pure (disk, true))

/-- `Create` returns FALSE, or it comes to `Allocate`. -/
theorem Mounted.create_allocates (hm : Mounted s) (name : Image) (garbage : Garbage) :
    (Stopped s.disk name ∧ ∀ initialSize, s.create name initialSize garbage = .ok (s.disk, false)) ∨
      ∃ e x d d', Allocating s.disk name e x d d' ∧ ∀ initialSize, Finishes s name garbage x d' initialSize := by
  obtain ⟨d, hfetch, hentries⟩ := hm.fetchDirectory_spec garbage
  unfold State.create
  simp only [hfetch, ok_bind, hm.fetchFreeMap_spec]
  cases hfind : d.findIndex name with
  | some i =>
    obtain ⟨hi, hui, hname⟩ := Directory.findIndex_some hfind
    rw [hentries i hi] at hui hname
    have hsector : 0 ≤ d.find name := by
      rw [find_of_some hfind, hentries i hi]
      exact hm.consistent.nonneg i hi hui
    refine Or.inl ⟨.named i hi hui hname, fun initialSize => ?_⟩
    rw [if_pos (by omega)]
    rfl
  | none =>
    have hnone : ¬ d.find name ≠ -1 := by
      rw [find_of_none hfind]
      simp
    simp only [if_neg hnone]
    rcases (freeMapOn s.disk).find_cases with ⟨x, hx, hclear, hb⟩ | ⟨hall, hb⟩
    · have hx' : x < numSectors := hx
      simp only [hb]
      rcases Directory.add_cases hfind hx' with ⟨hfull, hadd⟩ | ⟨e, he, huse, d', hadd, hd'⟩
      · refine Or.inl ⟨.entries fun i hi => ?_, fun initialSize => ?_⟩
        · rw [← hentries i hi]
          exact hfull i hi
        · simp only [hadd]
          rfl
      · refine Or.inr ⟨e, x, d, d', ⟨hentries, hfind, he, huse, hd', hx', hclear, hb⟩, fun initialSize => ?_⟩
        refine ⟨fun halloc => ?_, fun halloc => ?_, fun halloc => ?_⟩
        · unfold State.create
          simp only [hfetch, ok_bind, hm.fetchFreeMap_spec, if_neg hnone, hb, hadd, halloc]
          rfl
        · unfold State.create
          simp only [hfetch, ok_bind, hm.fetchFreeMap_spec, if_neg hnone, hb, hadd, halloc]
          rfl
        · unfold State.create
          simp only [hfetch, ok_bind, hm.fetchFreeMap_spec, if_neg hnone, hb, hadd, halloc]
    · refine Or.inl ⟨.header ?_, fun initialSize => ?_⟩
      · refine List.countP_eq_zero.mpr fun i hi => ?_
        simp [hall i (List.mem_range.mp hi)]
      · simp only [hb]
        rfl

/-- `Create` changes nothing and returns FALSE, or it makes a file. -/
theorem Mounted.create_cases (hm : Mounted s) (name : Image) {initialSize : Int}
    (h0 : 0 ≤ initialSize) (hmax : initialSize ≤ maxFileSize) (garbage : Garbage) :
    (s.create name initialSize garbage = .ok (s.disk, false) ∧ Refused s.disk name initialSize) ∨
      ∃ e x hdr disk', s.create name initialSize garbage = .ok (disk', true) ∧
        Chosen s.disk initialSize garbage.header x hdr ∧ Added s.disk name e x hdr disk' := by
  rcases hm.create_allocates name garbage with ⟨hstopped, hfalse⟩ | ⟨e, x, d, d', ha, hfinishes⟩
  · exact Or.inl ⟨hfalse initialSize, hstopped.refused initialSize⟩
  · have hcount := numClear_mark (b := freeMapOn s.disk) ha.range ha.clear
    rcases FileHeader.allocate_spec garbage.header h0 hmax
      (show ((freeMapOn s.disk).mark x).numBits = numSectors from rfl) with
      ⟨hspace, halloc⟩ | ⟨hdr, fs, b', halloc, hallocated, hlen, hbytes, rfl, hv⟩
    · exact Or.inl ⟨(hfinishes initialSize).refuses halloc, .space (by omega)⟩
    · right
      have htaken := Allocated.cons ha.range ha.clear hallocated
      obtain ⟨disk', hflush, hadded⟩ := hm.added ha.entries ha.new ha.index ha.unused ha.added hv htaken
        garbage
      have hspace : 1 + divRoundUp initialSize.toNat sectorSize ≤ (freeMapOn s.disk).numClear := by
        have hmarked := htaken.marked
        have hclear := (freeMapOn s.disk).numMarked_add_numClear
        have hclear' := b'.numMarked_add_numClear
        rw [htaken.numBits] at hclear'
        rw [List.length_cons, hlen] at hmarked
        omega
      refine ⟨e, x, hdr, disk', ?_, ⟨by rw [ha.find], ⟨b', halloc⟩, hbytes, hlen, hspace⟩, hadded⟩
      rw [(hfinishes initialSize).writes halloc]
      have hdone := congrArg (fun r => r >>= fun disk => pure (disk, true)) hflush
      simp only [ok_bind, bind_assoc] at hdone
      exact hdone

/-- A file is made only when there is no reason to return FALSE. -/
theorem Added.not_refused {disk disk' : Disk} {initialSize : Int} {header : Image} {e x : Nat}
    {hdr : FileHeader} (ha : Added disk name e x hdr disk')
    (hchosen : Chosen disk initialSize header x hdr) : ¬ Refused disk name initialSize := by
  intro hrefused
  cases hrefused with
  | named i hi hui hname => exact ha.new i hi hui hname
  | entries hall =>
    have hue := hall e ha.index
    rw [ha.unused] at hue
    cases hue
  | space hclear => exact absurd hchosen.clear (Nat.not_le_of_lt hclear)

/-- `Create` changes nothing and returns FALSE, or it makes a file of the given size. -/
theorem Mounted.create_spec (hm : Mounted s) (name : Image) {initialSize : Int}
    (h0 : 0 ≤ initialSize) (hmax : initialSize ≤ maxFileSize) (garbage : Garbage) :
    s.create name initialSize garbage = .ok (s.disk, false) ∨
      ∃ e x hdr disk', s.create name initialSize garbage = .ok (disk', true) ∧
        FileHeader.numBytes hdr = initialSize ∧ Added s.disk name e x hdr disk' := by
  rcases hm.create_cases name h0 hmax garbage with ⟨hfalse, -⟩ | ⟨e, x, hdr, disk', htrue, hc, ha⟩
  · exact Or.inl hfalse
  · exact Or.inr ⟨e, x, hdr, disk', htrue, hc.numBytes, ha⟩

/-- `Remove` changes nothing and returns FALSE, or it removes the file with the given name; no
ASSERT fails. -/
theorem Mounted.remove_spec (hm : Mounted s) (name : Image) (garbage : Garbage) :
    (s.remove name garbage = .ok (s.disk, none) ∧
      ∀ i < numDirEntries, ((directoryOn s.disk).entry i).inUse = true →
        ((directoryOn s.disk).entry i).name ≠ compared name) ∨
      ∃ e disk', s.remove name garbage =
          .ok (disk', some ((directoryOn s.disk).entry e).sector) ∧
        Removed s.disk name e disk' := by
  obtain ⟨d, hfetch, hentries⟩ := hm.fetchDirectory_spec garbage
  unfold State.remove
  simp only [hfetch, ok_bind, hm.fetchFreeMap_spec]
  cases hfind : d.findIndex name with
  | none =>
    refine Or.inl ⟨?_, ?_⟩
    · rw [if_pos (find_of_none hfind)]
      rfl
    · intro i hi hui
      rw [← hentries i hi] at hui ⊢
      exact Directory.findIndex_none hfind hi hui
  | some e =>
    obtain ⟨he, hue, hname⟩ := Directory.findIndex_some hfind
    rw [find_of_some hfind]
    have hd₀ : Described d.entry s.disk fun y => (freeMapOn s.disk).test y = true :=
      hm.consistent.congr hentries fun _ => Iff.rfl
    have hnn := hd₀.nonneg e he hue
    have hheader := headerSectors_entry he hue
    have hx := hd₀.laid.range hheader
    have hcast : (d.entry e).sector = ((d.entry e).sector.toNat : Nat) := by omega
    generalize (d.entry e).sector.toNat = x at hcast hheader hx
    obtain ⟨b, hdealloc, hclear, hbits, hused⟩ := hd₀.deallocate rfl hheader
    obtain ⟨d', hremove, hd'⟩ := Directory.entry_remove hfind
    have hd₁ := hd₀.drop e hd'
    obtain ⟨disk', hflush, hf⟩ := hd₁.flush_remove (b := b.clear x) hbits hused hm.freeMapHdr
      hm.directoryHdr garbage
    have hsame := headerSectors_congr hentries
    refine Or.inr ⟨e, disk', ?_, hf.consistent, he, ?_, ?_, ?_, ?_, ?_⟩
    · rw [if_neg (by omega), hcast,
        readSector_eq s.disk (Int.natCast_nonneg x) (by exact_mod_cast hx), Int.toNat_natCast,
        ok_bind, hdealloc, ok_bind, hclear, hremove, ← hentries e he, hcast]
      have hdone := congrArg (fun r => r >>= fun disk => pure (disk, some (x : Int))) hflush
      simp only [ok_bind, bind_assoc] at hdone
      exact hdone
    · rw [← hentries e he]
      exact hue
    · rw [← hentries e he]
      exact hname
    · intro i hi
      rw [hf.entries i hi, hd', hentries i hi]
    · intro o y hoe ho
      rw [← hsame] at ho
      have hkept : headerSectors d'.entry o = some y := by
        rw [← ho]
        apply headerSectors_eq
        rintro i rfl
        rw [hd', if_neg fun hie => hoe (by rw [hie])]
      exact hf.headers hkept
    · intro y
      rw [hf.freeMap, ← hsame]
      exact hused y

/-- `Open` returns the file of the entry with the given name, or there is none. -/
theorem Mounted.openFile_cases (hm : Mounted s) (name : Image) (garbage : Garbage) :
    (s.openFile name garbage = .ok none ∧
      ∀ i < numDirEntries, ((directoryOn s.disk).entry i).inUse = true →
        ((directoryOn s.disk).entry i).name ≠ compared name) ∨
      ∃ i < numDirEntries, ((directoryOn s.disk).entry i).inUse = true ∧
        ((directoryOn s.disk).entry i).name = compared name ∧
        s.openFile name garbage = .ok (some
          { hdr := s.disk ((directoryOn s.disk).entry i).sector.toNat
            fileID := ((directoryOn s.disk).entry i).sector }) := by
  obtain ⟨d, hfetch, hentries⟩ := hm.fetchDirectory_spec garbage
  unfold State.openFile
  simp only [hfetch, ok_bind]
  cases hfind : d.findIndex name with
  | none =>
    refine Or.inl ⟨?_, fun i hi hui => ?_⟩
    · rw [find_of_none hfind]
      rfl
    · rw [← hentries i hi] at hui ⊢
      exact Directory.findIndex_none hfind hi hui
  | some i =>
    obtain ⟨hi, hui, hname⟩ := Directory.findIndex_some hfind
    rw [find_of_some hfind]
    rw [hentries i hi] at hui hname ⊢
    have hnn := hm.consistent.nonneg i hi hui
    have hx := hm.consistent.laid.range (headerSectors_entry hi hui)
    refine Or.inr ⟨i, hi, hui, hname, ?_⟩
    rw [if_pos hnn]
    unfold OpenFile.new
    rw [readSector_eq s.disk hnn (by omega)]
    rfl

/-- `Open` of the name of an entry. -/
theorem Mounted.openFile_entry (hm : Mounted s) {e x : Nat} (he : e < numDirEntries)
    (hentry : (directoryOn s.disk).entry e = ⟨true, x, compared name⟩) {hdr : FileHeader}
    (hheader : s.disk x = hdr) (garbage : Garbage) :
    s.openFile name garbage = .ok (some ⟨hdr, x⟩) := by
  rcases hm.openFile_cases name garbage with ⟨-, hnone⟩ | ⟨i, hi, hui, hname, hopen⟩
  · exact absurd (by rw [hentry]) (hnone e he (by rw [hentry]))
  · obtain rfl : i = e :=
      hm.consistent.names i hi e he hui (by rw [hentry]) (hname.trans (by rw [hentry]))
    rw [hopen, hentry, Int.toNat_natCast, hheader]

/-- `Open` finds the file with the given name, or there is none. -/
theorem Mounted.openFile_spec (hm : Mounted s) (name : Image) (garbage : Garbage) :
    s.openFile name garbage = .ok none ∨
      ∃ i < numDirEntries, ((directoryOn s.disk).entry i).inUse = true ∧
        s.openFile name garbage = .ok (some
          { hdr := s.disk ((directoryOn s.disk).entry i).sector.toNat
            fileID := ((directoryOn s.disk).entry i).sector }) := by
  rcases hm.openFile_cases name garbage with ⟨hnone, -⟩ | ⟨i, hi, hui, -, hsome⟩
  · exact Or.inl hnone
  · exact Or.inr ⟨i, hi, hui, hsome⟩

end Mounted

end Nachos.Filesys
