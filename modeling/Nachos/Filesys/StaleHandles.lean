import Nachos.Filesys.Room

/-!
# Handles of removed files

An `OpenFile` has its own copy of the header, and `FileSystem::Remove` does not look for open
files. So the handle of a file that was removed still names the sectors the file had, which
`Create` may have given to another file since.

`stepAny` lets a caller use every handle it has. `others_kept`: in a run in which no write through
the handle of a removed file covers a sector that is in use again, a `WriteAt` leaves every other
file, the directory and the bitmap as they are. `stale_overwrites`: such a write overwrites another
file.
-/

namespace Nachos.Filesys

open Bytes Runs Shares

/-! ### Calls through any handle -/

def State.performAny (s : State) (l : Label) : Option State :=
  match l.call with
  | .readAt handle numBytes position =>
    (s.handles[handle]?).map fun h =>
      s.after (readAt s.disk h.file.hdr numBytes position) fun _ => s
  | .writeAt handle bytes numBytes position =>
    (s.handles[handle]?).map fun h =>
      s.after (writeAt s.disk h.file.hdr bytes numBytes position l.buf) fun r => { s with disk := r.1 }
  | _ => s.perform l

/-- A call of the file system; a file that was removed may still be used. -/
def stepAny (s : State) (l : Label) : Option State :=
  if s.stopped.isSome then none else s.performAny l

/-! ### Statement -/

/-- The sector of the header of the handle's file, unless the file was removed. -/
def Handle.own (h : Handle) : Option Int := if h.removed then none else some h.file.fileID

/-- What a write through a handle has to leave as it is: the bitmap, the directory, and the header
(with the length) and the contents of each file other than the handle's own. -/
structure OthersKept (own : Option Int) (disk disk' : Disk) : Prop where
  freeMapHeader : disk' freeMapSector = disk freeMapSector
  freeMap : freeMapOn disk' = freeMapOn disk
  directoryHeader : disk' directorySector = disk directorySector
  directory : ∀ k < directoryFileSize, directoryOn disk' k = directoryOn disk k
  headers : ∀ i < numDirEntries, (directoryOn disk).inUse i = true →
    own ≠ some ((directoryOn disk).sector i) →
    disk' ((directoryOn disk).sector i).toNat = disk ((directoryOn disk).sector i).toNat
  contents : ∀ i < numDirEntries, (directoryOn disk).inUse i = true →
    own ≠ some ((directoryOn disk).sector i) →
    ∀ k : Nat, k < FileHeader.numBytes (disk ((directoryOn disk).sector i).toNat) →
      fileByte disk' (disk ((directoryOn disk).sector i).toNat) k =
        fileByte disk (disk ((directoryOn disk).sector i).toNat) k

/-- A `WriteAt` keeps the other files. -/
def WritesOwn (s : State) (l : Label) : Prop :=
  match l.call with
  | .writeAt handle _ _ _ =>
    ∀ h ∈ s.handles[handle]?, ∀ t, stepAny s l = some t → OthersKept h.own s.disk t.disk
  | _ => True

/-- The data sectors that a request covers. -/
def FileHeader.covered (h : FileHeader) (numBytes position : Int) : List Nat :=
  let n := (clip h.numBytes numBytes position).toNat
  let pos := position.toNat
  if n = 0 then []
  else
    (List.range' (pos / sectorSize) (1 + (pos + n - 1) / sectorSize - pos / sectorSize)).map
      fun i => (h.dataSector i).toNat

/-- No write through the handle of a removed file covers a sector that is in use again. -/
def NotReused (s : State) (l : Label) : Prop :=
  match l.call with
  | .writeAt handle _ numBytes position =>
    ∀ h ∈ s.handles[handle]?, h.removed = true →
      ∀ x ∈ h.file.hdr.covered numBytes position, (freeMapOn s.disk).test x = false
  | _ => True

/-! ### What a write leaves -/

/-- `WriteAt` writes the sectors it covers. -/
theorem writeAt_covered {disk : Disk} {h : FileHeader} (hv : h.Valid) {bytes : List Byte}
    {numBytes position : Int} {junk : Image} {disk' : Disk} {result : Int}
    (hw : writeAt disk h bytes numBytes position junk = .ok (disk', result)) {x : Nat}
    (hx : x ∉ h.covered numBytes position) : disk' x = disk x := by
  by_cases hzero : clip h.numBytes numBytes position = 0
  · unfold writeAt at hw
    rw [if_pos hzero] at hw
    cases hw
    rfl
  by_cases hout : position < 0 ∨ h.numBytes < position + clip h.numBytes numBytes position ∨
      bytes.length < clip h.numBytes numBytes position
  · unfold writeAt at hw
    simp only [if_neg hzero, if_pos hout] at hw
    cases hw
  obtain ⟨n, hn⟩ := Int.eq_ofNat_of_zero_le (clip_nonneg h.numBytes numBytes position)
  obtain ⟨pos, rfl⟩ := Int.eq_ofNat_of_zero_le (show 0 ≤ position by omega)
  have hpos : 0 < n := by omega
  rw [writeAt_inside hv hpos (by omega) hn (by omega) junk] at hw
  cases hw
  unfold FileHeader.covered at hx
  simp only [hn, Int.toNat_natCast, if_neg (Nat.ne_of_gt hpos), List.mem_map, not_exists,
    not_and] at hx
  -- the loop writes the covered sectors one after the other
  have hloop : ∀ (l : List Nat) (block : Nat → Image) (disk : Disk),
      (∀ i ∈ l, (h.dataSector i).toNat ≠ x) →
      l.foldl (fun disk' i => Function.update disk' (h.dataSector i).toNat (block i)) disk x =
        disk x := by
    intro l block
    induction l with
    | nil => exact fun _ _ => rfl
    | cons i l ih =>
      intro disk hl
      rw [List.foldl_cons, ih _ fun j hj => hl j (List.mem_cons_of_mem _ hj)]
      exact Function.update_of_ne (Ne.symm (hl i List.mem_cons_self)) _ _
  exact hloop _ _ disk hx

/-- The headers of all files, and the contents of the files but one, are the same on two disks. -/
structure Kept (own : Holder → Prop) (disk disk' : Disk) : Prop where
  headers : ∀ {o y}, headerSectors (directoryOn disk).entry o = some y → disk' y = disk y
  data : ∀ {o y}, ¬ own o → headerSectors (directoryOn disk).entry o = some y →
    ∀ k : Nat, (k : Int) < FileHeader.numBytes (disk y) →
      fileByte disk' (disk y) k = fileByte disk (disk y) k

section Kept

variable {own : Holder → Prop} {disk disk' : Disk}

/-- The data sectors of one file were written. -/
theorem Consistent.kept_of_write (hc : Consistent disk) {o : Holder} {x : Nat}
    (ho : headerSectors (directoryOn disk).entry o = some x)
    (hframe : ∀ z, z ∉ FileHeader.sectors (disk x) → disk' z = disk z) :
    Kept (· = o) disk disk' := by
  obtain ⟨-, hheaders, hdata⟩ := hc.laid.write ho hframe
  exact ⟨hheaders, hdata⟩

/-- Only sectors that are not in use were written. -/
theorem Consistent.kept_of_free (hc : Consistent disk)
    (hframe : ∀ z, (freeMapOn disk).test z = true → disk' z = disk z) :
    Kept (fun _ => False) disk disk' := by
  refine ⟨fun ho => hframe _ (hc.laid.divided.used_of_mem (Laid.mem_header ho)), ?_⟩
  intro o y _ ho k hk
  have hmem := (hc.laid.valid ho).mem_dataSector hk
  unfold fileByte
  rw [hframe]
  exact hc.laid.divided.used_of_mem (Laid.mem_data ho hmem)

namespace Kept

theorem freeMap (h : Kept own disk disk') (hc : Consistent disk) (hown : ¬ own .freeMap) :
    freeMapOn disk' = freeMapOn disk := by
  have hheader : disk' freeMapSector = disk freeMapSector := h.headers (o := .freeMap) rfl
  have hsize := hc.freeMapSize
  unfold freeMapOn
  rw [hheader]
  apply BitMap.ofImage_congr
  intro k hk
  have hbytes : divRoundUp numSectors 32 * 4 = freeMapFileSize := rfl
  exact h.data hown rfl k (by omega)

theorem directory (h : Kept own disk disk') (hc : Consistent disk) (hown : ¬ own .directory)
    {k : Nat} (hk : k < directoryFileSize) : directoryOn disk' k = directoryOn disk k := by
  have hheader : disk' directorySector = disk directorySector := h.headers (o := .directory) rfl
  have hsize := hc.directorySize
  unfold directoryOn
  rw [hheader]
  exact h.data hown rfl k (by omega)

theorem consistent (h : Kept own disk disk') (hc : Consistent disk) (hmap : ¬ own .freeMap)
    (hdir : ¬ own .directory) : Consistent disk' := by
  have hd : Described (directoryOn disk).entry disk' fun x => (freeMapOn disk).test x = true := by
    refine ⟨hc.laid.congr_disk h.headers, hc.nonneg, hc.names, ?_, ?_⟩
    · rw [h.headers (o := .freeMap) rfl]
      exact hc.freeMapSize
    · rw [h.headers (o := .directory) rfl]
      exact hc.directorySize
  refine hd.congr (fun i hi => ?_) fun x => ?_
  · exact Directory.entry_congr_of_lt (fun k hk => h.directory hc hdir hk) hi
  · rw [h.freeMap hc hmap]

/-- The invariant of the file system is kept. -/
theorem inv {s : State} (h : Kept own s.disk disk') (hinv : Inv s) (hmap : ¬ own .freeMap)
    (hdir : ¬ own .directory) : Inv { s with disk := disk' } := by
  have hc := hinv.mounted.consistent
  refine ⟨⟨h.consistent hc hmap hdir, ?_, ?_⟩, fun g hg hlive => ?_, hinv.stopped⟩
  · rw [hinv.mounted.freeMapHdr]
    exact (h.headers (o := .freeMap) rfl).symm
  · rw [hinv.mounted.directoryHdr]
    exact (h.headers (o := .directory) rfl).symm
  · apply (hinv.handles g hg hlive).congr
    intro i hi hui _
    refine ⟨?_, h.headers (headerSectors_entry hi hui)⟩
    exact Directory.entry_congr_of_lt (fun k hk => h.directory hc hdir hk) hi

theorem othersKept (h : Kept own disk disk') (hc : Consistent disk) (hmap : ¬ own .freeMap)
    (hdir : ¬ own .directory) {file : Option Int}
    (hfile : ∀ i < numDirEntries, (directoryOn disk).inUse i = true →
      file ≠ some ((directoryOn disk).sector i) → ¬ own (.entry i)) : OthersKept file disk disk' where
  freeMapHeader := h.headers (o := .freeMap) rfl
  freeMap := h.freeMap hc hmap
  directoryHeader := h.headers (o := .directory) rfl
  directory := fun _ hk => h.directory hc hdir hk
  headers := fun _ hi hui _ => h.headers (headerSectors_entry hi hui)
  contents := fun i hi hui hne => h.data (hfile i hi hui hne) (headerSectors_entry hi hui)

end Kept

end Kept

/-! ### Runs -/

/-- The invariant of the file system, and that also the headers of removed files are ones that
`Create` has made. -/
structure AnyInv (s : State) : Prop where
  inv : Inv s
  valid : ∀ h ∈ s.handles, h.file.hdr.Valid

section Steps

variable {s t : State} {l : Label}

/-- A write through a handle. -/
theorem AnyInv.write (hs : AnyInv s) {h : Handle} (hmem : h ∈ s.handles) {bytes : List Byte}
    {numBytes position : Int} {junk : Image} {disk' : Disk} {result : Int}
    (hfree : h.removed = true →
      ∀ x ∈ h.file.hdr.covered numBytes position, (freeMapOn s.disk).test x = false)
    (hw : writeAt s.disk h.file.hdr bytes numBytes position junk = .ok (disk', result)) :
    Inv { s with disk := disk' } ∧ OthersKept h.own s.disk disk' := by
  have hc := hs.inv.mounted.consistent
  have hv := hs.valid h hmem
  cases hremoved : h.removed with
  | true =>
    have hkept : Kept (fun _ => False) s.disk disk' := hc.kept_of_free fun z hz => by
      refine writeAt_covered hv hw fun hcovered => ?_
      rw [hfree hremoved z hcovered] at hz
      cases hz
    exact ⟨hkept.inv hs.inv id id, hkept.othersKept hc id id fun _ _ _ _ => id⟩
  | false =>
    obtain ⟨i, hi, hui, hsector, hhdr⟩ := hs.inv.handles h hmem hremoved
    have ho := headerSectors_entry hi hui
    rw [hsector] at ho
    have hframe : ∀ z, z ∉ FileHeader.sectors (s.disk h.file.fileID.toNat) → disk' z = s.disk z := by
      rw [← hhdr]
      rcases writeAt_cases hv bytes numBytes position junk with ⟨d, r, hd, hframe⟩ | hd
      · rw [hw] at hd
        cases hd
        exact hframe
      · rw [hw] at hd
        cases hd
    have hkept := hc.kept_of_write ho hframe
    refine ⟨hkept.inv hs.inv (by simp) (by simp), hkept.othersKept hc (by simp) (by simp) ?_⟩
    intro j hj huj hne heq
    obtain rfl := Holder.entry.inj heq
    refine hne ?_
    unfold Handle.own
    rw [hremoved, ← hsector]
    rfl

/-- The handles after a call that does not use one: their files were there before, or they are
new. -/
theorem handles_perform (hstep : s.perform l = some t)
    (hread : ∀ handle numBytes position, l.call ≠ .readAt handle numBytes position)
    (hwrite : ∀ handle bytes numBytes position, l.call ≠ .writeAt handle bytes numBytes position) :
    ∀ h ∈ t.handles, (∃ g ∈ s.handles, g.file = h.file) ∨ h.removed = false := by
  have hsame : ∀ h ∈ s.handles, (∃ g ∈ s.handles, g.file = h.file) ∨ h.removed = false :=
    fun h hh => Or.inl ⟨h, hh, rfl⟩
  unfold State.perform State.after at hstep
  split at hstep
  case h_1 name initialSize _ =>
    obtain ⟨-, hstep⟩ := Option.ite_none_right_eq_some.mp hstep
    obtain rfl := Option.some.inj hstep
    split
    · exact hsame
    · exact hsame
  case h_2 name _ =>
    cases hr : s.remove name l.garbage with
    | error f =>
      rw [hr] at hstep
      obtain rfl := Option.some.inj hstep
      exact hsame
    | ok r =>
      rw [hr] at hstep
      obtain rfl := Option.some.inj hstep
      obtain ⟨disk', sector | sector⟩ := r
      · exact hsame
      · intro h hh
        obtain ⟨g, hg, rfl⟩ := List.mem_map.mp hh
        refine Or.inl ⟨g, hg, ?_⟩
        split
        · rfl
        · rfl
  case h_3 name _ =>
    cases hr : s.openFile name l.garbage with
    | error f =>
      rw [hr] at hstep
      obtain rfl := Option.some.inj hstep
      exact hsame
    | ok r =>
      rw [hr] at hstep
      obtain rfl := Option.some.inj hstep
      cases r with
      | none => exact hsame
      | some file =>
        intro h hh
        rcases List.mem_append.mp hh with hold | hnew
        · exact hsame h hold
        · rw [List.mem_singleton.mp hnew]
          exact Or.inr rfl
  case h_4 handle numBytes position hcall => exact absurd hcall (hread handle numBytes position)
  case h_5 handle bytes numBytes position hcall =>
    exact absurd hcall (hwrite handle bytes numBytes position)

theorem AnyInv.perform (hs : AnyInv s) (hstep : s.perform l = some t)
    (hread : ∀ handle numBytes position, l.call ≠ .readAt handle numBytes position)
    (hwrite : ∀ handle bytes numBytes position, l.call ≠ .writeAt handle bytes numBytes position) :
    AnyInv t := by
  have hinv := hs.inv.perform hstep
  refine ⟨hinv, fun h hh => ?_⟩
  rcases handles_perform hstep hread hwrite h hh with ⟨g, hg, hfile⟩ | hlive
  · rw [← hfile]
    exact hs.valid g hg
  · exact hinv.valid (hinv.handles h hh hlive)

theorem AnyInv.stop (hs : AnyInv s) : AnyInv { s with stopped := some .outOfBounds } :=
  ⟨hs.inv.stop, hs.valid⟩

theorem perform_of_stepAny (hstep : stepAny s l = some t) : s.performAny l = some t := by
  unfold stepAny at hstep
  split at hstep
  · cases hstep
  · exact hstep

/-- A `WriteAt` of a run in which no sector was re-used. -/
theorem AnyInv.writeAt (hs : AnyInv s) {handle : Nat} {bytes : List Byte} {numBytes position : Int}
    (hcall : l.call = .writeAt handle bytes numBytes position) (hreused : NotReused s l)
    (hstep : stepAny s l = some t) :
    AnyInv t ∧ ∀ h ∈ s.handles[handle]?, OthersKept h.own s.disk t.disk := by
  have hperform := perform_of_stepAny hstep
  unfold State.performAny at hperform
  unfold NotReused at hreused
  rw [hcall] at hperform hreused
  obtain ⟨h, hh, rfl⟩ := Option.map_eq_some_iff.mp hperform
  have hmem : h ∈ s.handles := List.mem_of_getElem? hh
  have hunique : ∀ g ∈ s.handles[handle]?, g = h := by
    intro g hg
    rw [hh] at hg
    exact (Option.mem_some_iff.mp hg).symm
  rcases writeAt_cases (hs.valid h hmem) bytes numBytes position l.buf with
    ⟨disk', result, hw, -⟩ | hw
  · obtain ⟨hinv, hothers⟩ := hs.write hmem (hreused h hh) hw
    rw [hw]
    refine ⟨⟨hinv, hs.valid⟩, fun g hg => ?_⟩
    rw [hunique g hg]
    exact hothers
  · rw [hw]
    refine ⟨hs.stop, fun g _ => ?_⟩
    exact ⟨rfl, rfl, rfl, fun _ _ => rfl, fun _ _ _ _ => rfl, fun _ _ _ _ _ _ => rfl⟩

theorem AnyInv.step (hs : AnyInv s) (hreused : NotReused s l) (hstep : stepAny s l = some t) :
    AnyInv t := by
  have hperform := perform_of_stepAny hstep
  cases hcall : l.call with
  | readAt handle numBytes position =>
    unfold State.performAny at hperform
    rw [hcall] at hperform
    obtain ⟨h, hh, rfl⟩ := Option.map_eq_some_iff.mp hperform
    rcases readAt_cases (hs.valid h (List.mem_of_getElem? hh)) numBytes position with
      ⟨bytes, hr⟩ | hr
    · rw [hr]
      exact hs
    · rw [hr]
      exact hs.stop
  | writeAt handle bytes numBytes position => exact (hs.writeAt hcall hreused hstep).1
  | _ =>
    unfold State.performAny at hperform
    rw [hcall] at hperform
    exact hs.perform hperform (by simp [hcall]) (by simp [hcall])

theorem AnyInv.writesOwn (hs : AnyInv s) (hreused : NotReused s l) : WritesOwn s l := by
  unfold WritesOwn
  split
  · rename_i handle bytes numBytes position hcall
    intro h hh t hstep
    exact (hs.writeAt hcall hreused hstep).2 h hh
  · trivial

end Steps

theorem bind_eq_ok {α β : Type} {x : Except Fault α} {f : α → Except Fault β} {b : β}
    (h : x >>= f = .ok b) : ∃ a, x = .ok a ∧ f a = .ok b := by
  cases x with
  | error e => cases h
  | ok a => exact ⟨a, rfl, h⟩

/-- The files that `FileSystem(TRUE)` opens are not removed. -/
theorem fileSystem_live {disk : Disk} {mapHdr dirHdr : Image} {garbage : Nat → Garbage} {s : State}
    (hstart : fileSystem disk mapHdr dirHdr garbage = .ok s) : ∀ h ∈ s.handles, h.removed = false := by
  unfold fileSystem at hstart
  obtain ⟨s₀, -, hstart⟩ := bind_eq_ok hstart
  obtain ⟨⟨disk₁, r₁⟩, -, hstart⟩ := bind_eq_ok hstart
  obtain ⟨⟨disk₂, r₂⟩, -, hstart⟩ := bind_eq_ok hstart
  obtain ⟨stdin, -, hstart⟩ := bind_eq_ok hstart
  obtain ⟨stdout, -, hstart⟩ := bind_eq_ok hstart
  obtain rfl := Except.ok.inj hstart
  intro h hh
  obtain ⟨file, -, rfl⟩ := List.mem_map.mp hh
  rfl

theorem anyInv_start {disk : Disk} {mapHdr dirHdr : Image} {garbage : Nat → Garbage} {s : State}
    (hstart : fileSystem disk mapHdr dirHdr garbage = .ok s) : AnyInv s := by
  obtain ⟨s', hstart', hinv⟩ := fileSystem_spec disk mapHdr dirHdr garbage
  rw [hstart] at hstart'
  obtain rfl := Except.ok.inj hstart'
  exact ⟨hinv, fun h hh => hinv.valid (hinv.handles h hh (fileSystem_live hstart h hh))⟩

/-- From `FileSystem(TRUE)` on, any sequence of calls with any handles, also of removed files: if no
write through the handle of a removed file covers a sector that is in use again, every `WriteAt`
keeps the other files, the directory and the bitmap. -/
theorem others_kept {disk : Disk} {mapHdr dirHdr : Image} {garbage : Nat → Garbage} {s : State}
    (hstart : fileSystem disk mapHdr dirHdr garbage = .ok s) {ls : List Label}
    (hls : AllSteps stepAny NotReused s ls) : AllSteps stepAny WritesOwn s ls := by
  refine allSteps_of_allSteps ?_ ?_ (anyInv_start hstart) hls
  · intro s l t hs hreused hstep
    exact hs.step hreused hstep
  · intro s l t hs hreused _
    exact hs.writesOwn hreused

/-- Memory that happens to be zero. -/
def zeroGarbage : Garbage := ⟨fun _ => 0, fun _ => 0, fun _ => 0, fun _ => 0⟩

/-- A call that gets such memory. -/
def zeroLabel (call : Call) : Label := ⟨call, zeroGarbage, fun _ => 0⟩

/-- A write to the file `stdin`, which `FileSystem(TRUE)` has opened. -/
theorem others_kept_stdin :
    ∃ s, fileSystem (fun _ _ => 0) (fun _ => 0) (fun _ => 0) (fun _ => zeroGarbage) = .ok s ∧
      AllSteps stepAny NotReused s [zeroLabel (.writeAt 0 [0x41] 1 0)] ∧
      AllSteps stepAny WritesOwn s [zeroLabel (.writeAt 0 [0x41] 1 0)] := by
  obtain ⟨s, hstart, -⟩ := fileSystem_spec (fun _ _ => 0) (fun _ => 0) (fun _ => 0)
    (fun _ => zeroGarbage)
  have hls : AllSteps stepAny NotReused s [zeroLabel (.writeAt 0 [0x41] 1 0)] := by
    refine fun t _ => ⟨fun h hh hremoved => ?_, trivial⟩
    rw [fileSystem_live hstart h (List.mem_of_getElem? hh)] at hremoved
    cases hremoved
  exact ⟨s, hstart, hls, others_kept hstart hls⟩

/-! ### A sector that was re-used -/

/-- A file is opened and removed, and another one is created. -/
def reuse : List Label :=
  [zeroLabel (.create (literal "a") 1), zeroLabel (.openFile (literal "a")),
    zeroLabel (.remove (literal "a")), zeroLabel (.create (literal "b") 1)]

/-- Two writes through the handle `n`. -/
def staleWrites (n : Nat) : List Label :=
  [zeroLabel (.writeAt n [0x41] 1 0), zeroLabel (.writeAt n [0x42] 1 0)]

section Stale

variable {s : State} {disk' : Disk} {e x : Nat} {hdr : FileHeader}

theorem stepAny_eq (hs : s.stopped = none) (l : Label) : stepAny s l = s.performAny l := by
  unfold stepAny
  rw [hs]
  rfl

/-- The file that was just created is opened. -/
theorem Added.openFile {name : Image} (hm : Mounted s) (ha : Added s.disk name e x hdr disk')
    (garbage : Garbage) :
    State.openFile { s with disk := disk' } name garbage = .ok (some ⟨hdr, x⟩) :=
  (ha.mounted hm).openFile_entry ha.index ha.entry_new ha.header garbage

/-- Removing the file that was just created gives the bitmap and the names back. -/
theorem Added.removed {name : Image} (hm : Mounted s) (ha : Added s.disk name e x hdr disk')
    (garbage : Garbage) :
    ∃ disk₃, State.remove { s with disk := disk' } name garbage = .ok (disk₃, some (x : Int)) ∧
      Removed disk' name e disk₃ ∧ freeMapOn disk₃ = freeMapOn s.disk := by
  have hself := ha.entry_new
  obtain ⟨disk₂, sector, hremove, htest⟩ := ha.restored hm garbage
  rcases (ha.mounted hm).remove_spec name garbage with ⟨-, hnone⟩ | ⟨i, disk₃, hsome, hr⟩
  · exact absurd (by rw [hself]) (hnone e ha.index (by rw [hself]))
  · obtain rfl : i = e :=
      ha.consistent.names i hr.index e ha.index hr.inUse (by rw [hself])
        (hr.named.trans (by rw [hself]))
    have hself' : (directoryOn ({ s with disk := disk' } : State).disk).entry i =
        ⟨true, x, compared name⟩ := hself
    rw [hself'] at hsome
    obtain rfl : disk₃ = disk₂ := by
      rw [hsome] at hremove
      cases hremove
      rfl
    exact ⟨disk₃, hsome, hr, BitMap.ext_test rfl htest⟩

/-- With the same bitmap `Create` chooses the same sectors. -/
theorem Chosen.unique {disk : Disk} {size : Int} {header : Image} {x' : Nat} {hdr' : FileHeader}
    (h : Chosen disk size header x hdr) (h' : Chosen disk' size header x' hdr')
    (hmap : freeMapOn disk' = freeMapOn disk) : x' = x ∧ hdr' = hdr := by
  obtain rfl : x' = x := by
    have hfind := h'.find
    rw [hmap, h.find] at hfind
    exact (Option.some.inj hfind).symm
  obtain ⟨b, hb⟩ := h.allocate
  obtain ⟨b', hb'⟩ := h'.allocate
  rw [hmap, hb] at hb'
  cases hb'
  exact ⟨rfl, rfl⟩

/-- A write of the one byte of a file. -/
theorem writeAt_one (hv : hdr.Valid) (hlen : hdr.numBytes = 1) (c : Byte) (disk : Disk)
    (junk : Image) :
    ∃ disk', writeAt disk hdr [c] 1 0 junk = .ok (disk', 1) ∧ fileByte disk' hdr 0 = c := by
  have hclip : clip hdr.numBytes 1 (0 : Nat) = (1 : Nat) := by
    rw [hlen]
    decide
  have hfit : ((0 + 1 : Nat) : Int) ≤ hdr.numBytes := by
    rw [hlen]
    decide
  have hbytes : 1 ≤ [c].length := Nat.le_refl 1
  obtain ⟨disk', hw, -, hdata⟩ : ∃ disk', writeAt disk hdr [c] 1 (0 : Nat) junk =
      .ok (disk', ((1 : Nat) : Int)) ∧ _ := writeAt_spec hv Nat.one_pos hfit hclip hbytes junk
  refine ⟨disk', hw, ?_⟩
  rw [hdata 0 (by rw [hlen]; decide)]
  rfl

/-- What a write that keeps the other files does to a file of one byte. -/
theorem OthersKept.one {disk : Disk} {name : List Byte} (h : OthersKept none disk disk')
    (he : e < numDirEntries) (hentry : (directoryOn disk).entry e = ⟨true, x, name⟩)
    (hhdr : disk x = hdr) (hlen : hdr.numBytes = 1) :
    (directoryOn disk').entry e = ⟨true, x, name⟩ ∧ disk' x = hdr ∧
      fileByte disk' hdr 0 = fileByte disk hdr 0 := by
  have huse : (directoryOn disk).inUse e = true := congrArg Entry.inUse hentry
  have hsector : (directoryOn disk).sector e = x := congrArg Entry.sector hentry
  have hheader := h.headers e he huse (by simp)
  have hcontents := h.contents e he huse (by simp) 0
  rw [hsector, Int.toNat_natCast, hhdr] at hheader hcontents
  refine ⟨?_, hheader, hcontents (by rw [hlen]; decide)⟩
  rw [← hentry]
  exact Directory.entry_congr_of_lt h.directory he

theorem perform_create {name : Image} {initialSize : Int} {garbage : Garbage} {r : Bool}
    (h0 : 0 ≤ initialSize) (hmax : initialSize ≤ maxFileSize)
    (hc : s.create name initialSize garbage = .ok (disk', r)) (buf : Image) :
    s.perform ⟨.create name initialSize, garbage, buf⟩ = some { s with disk := disk' } := by
  show (if 0 ≤ initialSize ∧ initialSize ≤ maxFileSize then
    some (s.after (s.create name initialSize garbage) fun r => { s with disk := r.1 }) else none) = _
  rw [if_pos ⟨h0, hmax⟩, hc]
  rfl

theorem perform_openFile {name : Image} {garbage : Garbage} {r : Option OpenFile}
    (ho : s.openFile name garbage = .ok r) (buf : Image) :
    s.perform ⟨.openFile name, garbage, buf⟩ =
      some { s with handles := s.handles ++ r.toList.map fun file => ⟨file, false⟩ } := by
  show some (s.after (s.openFile name garbage) _) = _
  rw [ho]
  cases r with
  | none =>
    rw [Option.toList_none, List.map_nil, List.append_nil]
    rfl
  | some file => rfl

theorem step_create {name : Image} {r : Bool} (hs : s.stopped = none)
    (hc : s.create name 1 zeroGarbage = .ok (disk', r)) :
    stepAny s (zeroLabel (.create name 1)) = some { s with disk := disk' } := by
  rw [stepAny_eq hs]
  exact perform_create (by decide) (by decide) hc fun _ => 0

theorem step_openFile {name : Image} {file : OpenFile} (hs : s.stopped = none)
    (ho : s.openFile name zeroGarbage = .ok (some file)) :
    stepAny s (zeroLabel (.openFile name)) =
      some { s with handles := s.handles ++ [⟨file, false⟩] } := by
  rw [stepAny_eq hs]
  exact perform_openFile ho fun _ => 0

theorem step_remove {name : Image} {sector : Int} (hs : s.stopped = none)
    (hr : s.remove name zeroGarbage = .ok (disk', some sector)) :
    stepAny s (zeroLabel (.remove name)) =
      some { s with disk := disk', handles := s.forget sector } := by
  rw [stepAny_eq hs]
  show some (s.after (s.remove name zeroGarbage) _) = _
  rw [hr]
  rfl

theorem step_writeAt {n : Nat} {h : Handle} {c : Byte} (hs : s.stopped = none)
    (hh : s.handles[n]? = some h)
    (hw : writeAt s.disk h.file.hdr [c] 1 0 (fun _ => 0) = .ok (disk', 1)) :
    stepAny s (zeroLabel (.writeAt n [c] 1 0)) = some { s with disk := disk' } := by
  rw [stepAny_eq hs]
  show (s.handles[n]?).map (fun h => s.after (writeAt s.disk h.file.hdr [c] 1 0 fun _ => 0)
    fun r => { s with disk := r.1 }) = _
  rw [hh, Option.map_some, hw]
  rfl

/-- The handle `n` of a removed file has the header of the file of the entry `e`, of one byte. -/
structure Reused (t : State) (n e x : Nat) (hdr : FileHeader) (name : List Byte) : Prop where
  stopped : t.stopped = none
  handle : t.handles[n]? = some ⟨⟨hdr, x⟩, true⟩
  index : e < numDirEntries
  entry : (directoryOn t.disk).entry e = ⟨true, x, name⟩
  header : t.disk x = hdr
  length : hdr.numBytes = 1
  valid : hdr.Valid

/-- A removed file leaves the room it has taken. -/
theorem Removed.room {disk disk₁ disk₃ : Disk} {name : Image} {names : List (List Byte)} {m : Nat}
    (ha : Added disk name e x hdr disk₁) (hr : Removed disk₁ name e disk₃)
    (hmap : freeMapOn disk₃ = freeMapOn disk) (h : Room disk names m) : Room disk₃ names m := by
  refine ⟨fun i hi hui => ?_, ?_⟩
  · have hentries := hr.entries i hi
    by_cases hie : i = e
    · rw [hentries, if_pos hie] at hui
      cases hui
    · rw [if_neg hie, ha.entries i hi, if_neg hie] at hentries
      rw [hentries] at hui ⊢
      exact h.names i hi hui
  · rw [hmap]
    exact h.marked

/-- After `reuse` the new file has the sectors of the removed one. -/
theorem run_reuse (hinv : Inv s) (hstop : s.stopped = none)
    (hroom : Room s.disk [compared (literal "stdout"), compared (literal "stdin")] 8) :
    ∃ t e x hdr, run stepAny s reuse = some t ∧
      Reused t s.handles.length e x hdr (compared (literal "b")) := by
  have hm := hinv.mounted
  obtain ⟨e, x, hdr, disk₁, hcreate, hchosen, ha⟩ :
      ∃ e x hdr disk', s.create (literal "a") 1 zeroGarbage = .ok (disk', true) ∧
        Chosen s.disk 1 zeroGarbage.header x hdr ∧ Added s.disk (literal "a") e x hdr disk' :=
    hroom.creates hm (by decide) (by decide) zeroGarbage (by decide) (by decide) (by decide)
  obtain ⟨disk₃, hremove, hr, hmap⟩ := ha.removed hm zeroGarbage
  let s₂ : State := { s with disk := disk₁, handles := s.handles ++ [⟨⟨hdr, x⟩, false⟩] }
  let s₃ : State := { s with disk := disk₃, handles := s₂.forget x }
  have hm₃ : Mounted s₃ := hr.mounted (ha.mounted hm) _
  -- the bitmap is as it was: the second file gets the same sectors
  obtain ⟨e', x', hdr', disk₄, hcreate', hchosen', ha'⟩ :
      ∃ e x hdr disk', s₃.create (literal "b") 1 zeroGarbage = .ok (disk', true) ∧
        Chosen s₃.disk 1 zeroGarbage.header x hdr ∧ Added s₃.disk (literal "b") e x hdr disk' :=
    (hr.room ha hmap hroom).creates hm₃ (by decide) (by decide) zeroGarbage (by decide) (by decide)
      (by decide)
  obtain ⟨rfl, rfl⟩ := hchosen.unique hchosen' hmap
  have hopen : stepAny { s with disk := disk₁ } (zeroLabel (.openFile (literal "a"))) = some s₂ :=
    step_openFile hstop (ha.openFile hm zeroGarbage)
  have hremoved : stepAny s₂ (zeroLabel (.remove (literal "a"))) = some s₃ :=
    step_remove hstop hremove
  refine ⟨{ s₃ with disk := disk₄ }, e', x', hdr', ?_, hstop, ?_, ha'.index, ha'.entry_new,
    ha'.header, hchosen'.numBytes, ha'.valid⟩
  · refine Option.bind_eq_some_iff.mpr ⟨_, step_create hstop hcreate, ?_⟩
    refine Option.bind_eq_some_iff.mpr ⟨_, hopen, ?_⟩
    refine Option.bind_eq_some_iff.mpr ⟨_, hremoved, ?_⟩
    exact Option.bind_eq_some_iff.mpr ⟨_, step_create hstop hcreate', rfl⟩
  · simp [s₃, s₂, State.forget]

/-- A write through the handle that keeps the other files. -/
theorem Reused.write {t : State} {n : Nat} {name : List Byte} (h : Reused t n e x hdr name) {c : Byte}
    {rest : List Label}
    (hrun : AllSteps stepAny WritesOwn t (zeroLabel (.writeAt n [c] 1 0) :: rest)) :
    ∃ u, Reused u n e x hdr name ∧ AllSteps stepAny WritesOwn u rest ∧
      fileByte t.disk hdr 0 = c ∧ fileByte u.disk hdr 0 = c := by
  obtain ⟨disk', hw, hdata⟩ := writeAt_one h.valid h.length c t.disk fun _ => 0
  have hstep := step_writeAt h.stopped h.handle hw
  obtain ⟨hkeeps, hrest⟩ := hrun _ hstep
  have hkept : OthersKept none t.disk disk' := hkeeps _ h.handle _ hstep
  obtain ⟨hentry, hheader, hsame⟩ := hkept.one h.index h.entry h.header h.length
  refine ⟨{ t with disk := disk' },
    ⟨h.stopped, h.handle, h.index, hentry, hheader, h.length, h.valid⟩, hrest, ?_, hdata⟩
  rw [← hsame]
  exact hdata

end Stale

/-- The writes through the handle of the removed file overwrite the new file. -/
theorem stale_overwrites :
    ∃ s, fileSystem (fun _ _ => 0) (fun _ => 0) (fun _ => 0) (fun _ => zeroGarbage) = .ok s ∧
      ¬ AllSteps stepAny WritesOwn s (reuse ++ staleWrites s.handles.length) := by
  obtain ⟨s, hstart, hinv, hstop, hroom⟩ := room_fileSystem (fun _ _ => 0) (fun _ => 0) (fun _ => 0)
    (fun _ => zeroGarbage)
  refine ⟨s, hstart, fun hrun => ?_⟩
  obtain ⟨t, e, x, hdr, hreuse, ht⟩ := run_reuse hinv hstop hroom
  obtain ⟨u, hu, hrest, -, hfirst⟩ := ht.write (hrun.after_run hreuse)
  obtain ⟨-, -, -, hsecond, -⟩ := hu.write hrest
  rw [hfirst] at hsecond
  cases hsecond

end Nachos.Filesys
