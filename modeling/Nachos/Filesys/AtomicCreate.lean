import Nachos.Filesys.StaleHandles

/-!
# `Create` takes everything or nothing

`Create` marks sectors and enters the name in copies of the bitmap and of the directory, and writes
them back when all of them were found. `create_atomic`: when it returns TRUE, and what is on the disk
then. The other files keep their headers and their contents (`Mounted.create_kept`).
-/

namespace Nachos.Filesys

open Bytes Shares

/-! ### Statement -/

/-- No file has the name (of which the first nine characters count), an entry of the directory is free,
and there are enough free sectors for the header and the data. -/
structure Creatable (disk : Disk) (name : Image) (initialSize : Int) : Prop where
  new : ∀ i < numDirEntries, (directoryOn disk).inUse i = true →
    strncmp (directoryOn disk) (entrySize * i + 8) name 0 fileNameMaxLen ≠ 0
  entry : ∃ i < numDirEntries, (directoryOn disk).inUse i = false
  space : 1 + divRoundUp initialSize.toNat sectorSize ≤ (freeMapOn disk).numClear

/-- The disk has one more file, of the given name and length, and the files that it had. -/
structure Created (disk : Disk) (name : Image) (initialSize : Int) (disk' : Disk) : Prop where
  file : ∃ e < numDirEntries, (directoryOn disk).inUse e = false ∧
    ((directoryOn disk').entry e).inUse = true ∧ ((directoryOn disk').entry e).name = compared name ∧
    FileHeader.numBytes (disk' ((directoryOn disk').sector e).toNat) = initialSize
  entries : ∀ i < numDirEntries, (directoryOn disk).inUse i = true →
    (directoryOn disk').entry i = (directoryOn disk).entry i
  headers : ∀ i < numDirEntries, (directoryOn disk).inUse i = true →
    disk' ((directoryOn disk).sector i).toNat = disk ((directoryOn disk).sector i).toNat
  contents : ∀ i < numDirEntries, (directoryOn disk).inUse i = true →
    ∀ k : Nat, k < FileHeader.numBytes (disk ((directoryOn disk).sector i).toNat) →
      fileByte disk' (disk ((directoryOn disk).sector i).toNat) k =
        fileByte disk (disk ((directoryOn disk).sector i).toNat) k

/-! ### What is written -/

/-- The files that the file system keeps for itself. -/
def Holder.System (o : Holder) : Prop := o = .freeMap ∨ o = .directory

section Written

variable {s : State} {disk disk' : Disk} {file : OpenFile} {n : Nat} {name : Image} {e x : Nat}
  {d d' : Directory} {hdr : FileHeader}

/-- An object is written to the sectors of its file. -/
theorem storeFrom_frame (hv : file.hdr.Valid) {image buf : Image}
    (h : storeFrom image disk file n buf = .ok disk') {z : Nat} (hz : z ∉ file.hdr.sectors) :
    disk' z = disk z := by
  obtain ⟨⟨disk₁, result⟩, hwrite, hdisk⟩ := bind_eq_ok h
  obtain rfl := Except.ok.inj hdisk
  rcases writeAt_cases hv (toList image n) n 0 buf with ⟨disk₂, result₂, hwrite₂, hframe⟩ | hwrite₂
  · rw [hwrite] at hwrite₂
    obtain ⟨rfl, rfl⟩ := Prod.mk.inj (Except.ok.inj hwrite₂)
    exact hframe z hz
  · rw [hwrite] at hwrite₂
    cases hwrite₂

/-- Everything but the two files of the system is kept, when a sector that is not in use is written
besides them. -/
theorem Consistent.kept_of_system (hc : Consistent disk) (hx : (freeMapOn disk).test x = false)
    (hframe : ∀ z, z ≠ x → z ∉ FileHeader.sectors (disk directorySector) →
      z ∉ FileHeader.sectors (disk freeMapSector) → disk' z = disk z) :
    Kept Holder.System disk disk' := by
  have hmap : headerSectors (directoryOn disk).entry .freeMap = some freeMapSector := rfl
  have hdir : headerSectors (directoryOn disk).entry .directory = some directorySector := rfl
  have hne : ∀ {z}, (freeMapOn disk).test z = true → z ≠ x := by
    rintro z hz rfl
    rw [hx] at hz
    cases hz
  refine ⟨fun {o y} ho => ?_, fun {o y} hown ho k hk => ?_⟩
  · apply hframe
    · exact hne (hc.laid.divided.used_of_mem (Laid.mem_header ho))
    · exact hc.laid.header_not_data hdir ho
    · exact hc.laid.header_not_data hmap ho
  · have hmem := (hc.laid.valid ho).mem_dataSector hk
    unfold fileByte
    rw [hframe]
    · exact hne (hc.laid.divided.used_of_mem (Laid.mem_data ho hmem))
    · exact hc.laid.data_disjoint (fun h => hown (Or.inr h.symm)) hdir ho hmem
    · exact hc.laid.data_disjoint (fun h => hown (Or.inl h.symm)) hmap ho hmem

/-- `Allocate` keeps the size of the bitmap. -/
theorem FileHeader.allocateLoop_numBits {freeMap b' : BitMap} {i : Nat} {h hdr : FileHeader}
    (halloc : allocateLoop freeMap n i h = .ok (hdr, b')) : b'.numBits = freeMap.numBits := by
  induction n generalizing freeMap i h with
  | zero =>
    cases halloc
    rfl
  | succ n ih =>
    unfold allocateLoop at halloc
    split at halloc
    · rcases freeMap.find_cases with ⟨f, -, -, hfind⟩ | ⟨-, hfind⟩
      · simp only [hfind] at halloc
        exact (ih halloc).trans (freeMap.numBits_mark f)
      · simp only [hfind] at halloc
        exact ih halloc
    · cases halloc

theorem FileHeader.allocate_numBits {freeMap b' : BitMap} {h hdr : FileHeader} {fileSize : Int}
    (halloc : h.allocate freeMap fileSize = .ok (some (hdr, b'))) : b'.numBits = freeMap.numBits := by
  unfold allocate at halloc
  simp only at halloc
  split at halloc
  · cases halloc
  · cases hloop : allocateLoop freeMap (divRoundUpInt fileSize sectorSize).toNat 0
      ((h.setNumBytes fileSize).setNumSectors (divRoundUpInt fileSize sectorSize)) with
    | error f =>
      rw [hloop] at halloc
      cases halloc
    | ok made =>
      rw [hloop] at halloc
      cases halloc
      exact allocateLoop_numBits hloop

/-- The end of `Create`, for any header in the sector `x`. -/
theorem Allocating.flush (ha : Allocating s.disk name e x d d') (hm : Mounted s) (hdr : FileHeader)
    {b' : BitMap} (hbits : b'.numBits = numSectors) (garbage : Garbage) :
    ∃ disk', (do
        let disk ← writeSector s.disk x hdr
        let disk ← d'.writeBack disk s.directoryFile garbage.directoryBuf
        let disk ← b'.writeBack disk s.freeMapFile garbage.freeMapBuf
        pure (disk, true)) = Except.ok (disk', true) ∧
      Kept Holder.System s.disk disk' ∧ disk' x = hdr ∧
      (∀ i < numDirEntries, (directoryOn disk').entry i = d'.entry i) := by
  have hc := hm.consistent
  let disk₁ := Function.update s.disk x hdr
  have hkept₁ : Kept (fun _ => False) s.disk disk₁ := hc.kept_of_free fun z hz => by
    apply Function.update_of_ne
    rintro rfl
    rw [ha.clear] at hz
    cases hz
  have hc₁ : Consistent disk₁ := hkept₁.consistent hc id id
  have hmap₁ : s.freeMapFile.hdr = disk₁ freeMapSector :=
    hm.freeMapHdr.trans (hkept₁.headers (o := .freeMap) rfl).symm
  have hdir₁ : s.directoryFile.hdr = disk₁ directorySector :=
    hm.directoryHdr.trans (hkept₁.headers (o := .directory) rfl).symm
  obtain ⟨disk₂, hwrite₂, hd₂, hheaders₂, -, hentries₂⟩ :=
    hc₁.directory_writeBack hdir₁ d' garbage.directoryBuf
  have hmap₂ : s.freeMapFile.hdr = disk₂ freeMapSector :=
    hmap₁.trans (hheaders₂ (p := .freeMap) rfl).symm
  obtain ⟨disk₃, hwrite₃, -, -, -, hentries₃⟩ := hd₂.freeMap_writeBack hmap₂ hbits garbage.freeMapBuf
  have hvdir : s.directoryFile.hdr.Valid := hdir₁ ▸ hc₁.valid_directory
  have hvmap : s.freeMapFile.hdr.Valid := hmap₁ ▸ hc₁.valid_freeMap
  have hframe : ∀ z, z ∉ FileHeader.sectors (s.disk directorySector) →
      z ∉ FileHeader.sectors (s.disk freeMapSector) → disk₃ z = disk₁ z := by
    intro z hz hz'
    rw [← hm.directoryHdr] at hz
    rw [← hm.freeMapHdr] at hz'
    exact (storeFrom_frame hvmap hwrite₃ hz').trans (storeFrom_frame hvdir hwrite₂ hz)
  have hxdata : ∀ {o y}, headerSectors (directoryOn s.disk).entry o = some y →
      x ∉ FileHeader.sectors (s.disk y) := by
    intro o y ho hmem
    have hused := hc.laid.divided.used_of_mem (Laid.mem_data ho hmem)
    rw [ha.clear] at hused
    cases hused
  refine ⟨disk₃, ?_, hc.kept_of_system ha.clear fun z hzx hz hz' => ?_, ?_, fun i hi => ?_⟩
  · rw [writeSector_eq s.disk hdr (Int.natCast_nonneg x) (by exact_mod_cast ha.range), Int.toNat_natCast,
      ok_bind, hwrite₂, ok_bind, hwrite₃]
    rfl
  · rw [hframe z hz hz']
    exact Function.update_of_ne hzx _ _
  · rw [hframe x (hxdata (o := .directory) rfl) (hxdata (o := .freeMap) rfl)]
    exact Function.update_self ..
  · rw [hentries₃ i hi, hentries₂ i hi]

/-- `Create` keeps the other files. -/
theorem Mounted.create_kept (hm : Mounted s) {initialSize : Int} {garbage : Garbage}
    (hcreate : s.create name initialSize garbage = .ok (disk', true)) :
    Kept Holder.System s.disk disk' := by
  rcases hm.create_allocates name garbage with ⟨-, hfalse⟩ | ⟨e, x, d, d', ha, hfinishes⟩
  · rw [hfalse initialSize] at hcreate
    cases hcreate
  · cases halloc : FileHeader.allocate garbage.header ((freeMapOn s.disk).mark x) initialSize with
    | error f =>
      rw [(hfinishes initialSize).fails halloc] at hcreate
      cases hcreate
    | ok result =>
      cases result with
      | none =>
        rw [(hfinishes initialSize).refuses halloc] at hcreate
        cases hcreate
      | some made =>
        obtain ⟨hdr, b'⟩ := made
        have hbits : b'.numBits = numSectors := FileHeader.allocate_numBits halloc
        obtain ⟨disk₁, hdone, hkept, -, -⟩ := ha.flush hm hdr hbits garbage
        rw [(hfinishes initialSize).writes halloc, hdone] at hcreate
        cases hcreate
        exact hkept

/-- `Create` returns FALSE for one of the reasons that it has. -/
theorem creatable_iff (disk : Disk) (name : Image) (initialSize : Int) :
    Creatable disk name initialSize ↔ ¬ Refused disk name initialSize := by
  constructor
  · rintro ⟨hnew, ⟨i, hi, hfree⟩, hspace⟩ hrefused
    cases hrefused with
    | named j hj huj hname => exact hnew j hj huj ((strncmp_eq_zero ..).mpr hname)
    | entries hall =>
      have huse : (directoryOn disk).inUse i = true := hall i hi
      rw [hfree] at huse
      cases huse
    | space hclear => omega
  · intro hnot
    refine ⟨fun i hi hui hcmp => hnot (.named i hi hui ((strncmp_eq_zero ..).mp hcmp)), ?_, ?_⟩
    · by_contra hnone
      refine hnot (.entries fun i hi => ?_)
      by_contra hfree
      exact hnone ⟨i, hi, Bool.eq_false_iff.mpr hfree⟩
    · by_contra hfew
      exact hnot (.space (Nat.not_le.mp hfew))

theorem Added.created (ha : Added disk name e x hdr disk') (hkept : Kept Holder.System disk disk') :
    Created disk name hdr.numBytes disk' := by
  have hentry : (directoryOn disk').entry e = ⟨true, x, compared name⟩ := ha.entry_new
  have hsector : (directoryOn disk').sector e = x := congrArg Entry.sector hentry
  refine ⟨⟨e, ha.index, ha.unused, ?_, ?_, ?_⟩, fun i hi hui => ?_, fun i hi hui => ?_, fun i hi hui => ?_⟩
  · rw [hentry]
  · rw [hentry]
  · rw [hsector, Int.toNat_natCast, ha.header]
  · rw [ha.entries i hi, if_neg]
    rintro rfl
    have hunused := ha.unused
    rw [Directory.inUse_entry, hui] at hunused
    cases hunused
  · exact ha.headers (headerSectors_entry hi hui)
  · exact hkept.data (by simp [Holder.System]) (headerSectors_entry hi hui)

end Written

/-- `Create` of a size that a header can describe, on a consistent disk: it returns TRUE exactly when
there is room for the file, and then there is one more file; when it returns FALSE the disk is as it
was. -/
theorem create_atomic {s : State} (hm : Mounted s) (name : Image) {initialSize : Int}
    (h0 : 0 ≤ initialSize) (hmax : initialSize ≤ maxFileSize) (garbage : Garbage) :
    ∃ disk' created, s.create name initialSize garbage = .ok (disk', created) ∧
      (created = true ↔ Creatable s.disk name initialSize) ∧
      (created = false → disk' = s.disk) ∧
      (created = true → Created s.disk name initialSize disk') := by
  rcases hm.create_cases name h0 hmax garbage with
    ⟨hfalse, hrefused⟩ | ⟨e, x, hdr, disk', htrue, hchosen, ha⟩
  · refine ⟨s.disk, false, hfalse, ?_, fun _ => rfl, fun h => by cases h⟩
    rw [creatable_iff]
    exact iff_of_false Bool.false_ne_true fun hnot => hnot hrefused
  · refine ⟨disk', true, htrue, ?_, fun h => (by cases h), fun _ => ?_⟩
    · rw [creatable_iff]
      exact iff_of_true rfl (ha.not_refused hchosen)
    · rw [← hchosen.numBytes]
      exact ha.created (hm.create_kept htrue)

/-- A file of two sectors on a disk that was just formatted. -/
theorem create_atomic_twoSectors :
    ∃ s disk', format (fun _ _ => 0) (fun _ => 0) (fun _ => 0) zeroGarbage = .ok s ∧
      s.create (literal "a") 600 zeroGarbage = .ok (disk', true) ∧
      Created s.disk (literal "a") 600 disk' := by
  obtain ⟨s, hformat, hm, -, -, hempty, hmarked⟩ :=
    format_empty (fun _ _ => 0) (fun _ => 0) (fun _ => 0) zeroGarbage
  obtain ⟨disk', created, hcreate, hiff, -, hcreated⟩ :=
    create_atomic hm (literal "a") (show (0 : Int) ≤ 600 by decide) (by decide) zeroGarbage
  have hroom : Creatable s.disk (literal "a") 600 := by
    have hcount := (freeMapOn s.disk).numMarked_add_numClear
    have hbits : (freeMapOn s.disk).numBits = 1024 := rfl
    have htwo : divRoundUp (600 : Int).toNat sectorSize = 2 := by decide
    refine ⟨fun i hi hui => ?_, ⟨0, by decide, hempty 0 (by decide)⟩, by omega⟩
    have hunused : (directoryOn s.disk).inUse i = false := hempty i hi
    rw [hui] at hunused
    cases hunused
  obtain rfl := hiff.mpr hroom
  exact ⟨s, disk', hformat, hcreate, hcreated rfl⟩

end Nachos.Filesys
