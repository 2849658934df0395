import Nachos.Filesys.AtomicCreate

/-!
# Files that are too large

`FileHeader::Allocate` compares the size of a file with the number of free sectors, but not with the
length of `dataSectors`, and it takes negative sizes. `sizes_iff`: for which calls of `Allocate` the
table is large enough, and for which runs with `Create` calls of any size the headers on the disk
describe files.
-/

namespace Nachos.Filesys

open Bytes Runs

/-! ### Calls with any size -/

def State.performSized (s : State) (l : Label) : Option State :=
  match l.call with
  | .create name initialSize =>
    if -2 ^ 31 ≤ initialSize ∧ initialSize < 2 ^ 31 then
      some (s.after (s.create name initialSize l.garbage) fun r => { s with disk := r.1 })
    else none
  | _ => s.perform l

/-- A call of the file system; `Create` is given any `int`. -/
def stepSized (s : State) (l : Label) : Option State :=
  if s.stopped.isSome then none else s.performSized l

/-! ### Statement -/

/-- The header describes a file that fits into its table. -/
structure FileHeader.Fits (h : FileHeader) : Prop where
  nonneg : 0 ≤ h.numSectors
  direct : h.numSectors ≤ numDirect
  size : 0 ≤ h.numBytes
  length : h.numBytes ≤ h.numSectors * sectorSize

/-- The headers on the disk: those of the two files of the system, and those of the files in the
directory. -/
structure HeadersFit (s : State) : Prop where
  freeMap : FileHeader.Fits (s.disk freeMapSector)
  directory : FileHeader.Fits (s.disk directorySector)
  files : ∀ i < numDirEntries, (directoryOn s.disk).inUse i = true →
    FileHeader.Fits (s.disk ((directoryOn s.disk).sector i).toNat)

/-- `Create` does not write outside the table, and it refuses a file that is too large. -/
def RefusesLarge (s : State) (l : Label) : Prop :=
  match l.call with
  | .create name initialSize =>
    s.create name initialSize l.garbage ≠ .error .outOfBounds ∧
      (maxFileSize < initialSize → s.create name initialSize l.garbage = .ok (s.disk, false))
  | _ => True

/-- The size of a new file is one that a header can describe, or there is no room for the file. -/
def SizeFits (s : State) (l : Label) : Prop :=
  match l.call with
  | .create name initialSize =>
    (0 ≤ initialSize ∧ initialSize ≤ maxFileSize) ∨ ¬ Creatable s.disk name initialSize
  | _ => True

/-! ### Allocation -/

section Allocate

variable {h : FileHeader} {b : BitMap} {fileSize : Int} {i n : Nat}

theorem divRoundUpInt_of_neg (hneg : fileSize ≤ 0) : divRoundUpInt fileSize sectorSize ≤ 0 := by
  obtain ⟨m, rfl⟩ : ∃ m : Nat, fileSize = -m := ⟨fileSize.natAbs, by omega⟩
  unfold divRoundUpInt
  rw [Int.neg_tdiv, Int.neg_tmod, if_neg]
  · have := Int.tdiv_nonneg (Int.natCast_nonneg m) (Int.natCast_nonneg sectorSize)
    omega
  · have := Int.tmod_nonneg (sectorSize : Int) (Int.natCast_nonneg m)
    omega

theorem divRoundUpInt_le_iff : divRoundUpInt fileSize sectorSize ≤ numDirect ↔ fileSize ≤ maxFileSize := by
  by_cases hpos : 0 ≤ fileSize
  · rw [divRoundUpInt_of_nonneg hpos]
    unfold maxFileSize numDirect sectorSize
    split
    · omega
    · omega
  · have hle := divRoundUpInt_of_neg (show fileSize ≤ 0 by omega)
    unfold maxFileSize numDirect
    exact iff_of_true (by omega) (by omega)

/-- The loop ends for as many sectors as the table has entries. -/
theorem FileHeader.allocateLoop_inside (hi : i + n ≤ numDirect) :
    ∃ r, allocateLoop b n i h = .ok r := by
  induction n generalizing i h b with
  | zero => exact ⟨_, rfl⟩
  | succ n ih =>
    unfold allocateLoop
    rw [if_pos (by omega)]
    split
    · exact ih (by omega)
    · exact ih (by omega)

/-- With more sectors it writes behind the table. -/
theorem FileHeader.allocateLoop_outside (hi : i ≤ numDirect) (hn : numDirect < i + n) :
    allocateLoop b n i h = .error .outOfBounds := by
  induction n generalizing i h b with
  | zero => omega
  | succ n ih =>
    unfold allocateLoop
    by_cases hlast : i < numDirect
    · rw [if_pos hlast]
      split
      · exact ih hlast (by omega)
      · exact ih hlast (by omega)
    · rw [if_neg hlast]

/-- `Allocate` writes behind its table. -/
theorem FileHeader.allocate_outside (hlarge : maxFileSize < fileSize)
    (hspace : divRoundUpInt fileSize sectorSize ≤ b.numClear) :
    h.allocate b fileSize = .error .outOfBounds := by
  have hn : ¬ divRoundUpInt fileSize sectorSize ≤ numDirect := by
    rw [divRoundUpInt_le_iff]
    omega
  unfold allocate
  simp only [if_neg (Int.not_lt.mpr hspace)]
  rw [allocateLoop_outside (Nat.zero_le _) (by omega)]
  rfl

theorem FileHeader.allocate_refuses (hspace : (b.numClear : Int) < divRoundUpInt fileSize sectorSize) :
    h.allocate b fileSize = .ok none := by
  unfold allocate
  simp only [if_pos hspace]

/-- When `Allocate` uses only entries of its table. -/
theorem FileHeader.allocate_inside_iff (h : FileHeader) (b : BitMap) (fileSize : Int) :
    h.allocate b fileSize ≠ .error .outOfBounds ↔
      fileSize ≤ maxFileSize ∨ (b.numClear : Int) < divRoundUpInt fileSize sectorSize := by
  constructor
  · intro hinside
    by_contra hnot
    rw [not_or] at hnot
    exact hinside (allocate_outside (by omega) (by omega))
  · rintro (hsize | hspace)
    · have hn := divRoundUpInt_le_iff.mpr hsize
      obtain ⟨r, hr⟩ := allocateLoop_inside (b := b) (i := 0)
        (h := (h.setNumBytes fileSize).setNumSectors (divRoundUpInt fileSize sectorSize))
        (show 0 + (divRoundUpInt fileSize sectorSize).toNat ≤ numDirect by omega)
      unfold allocate
      simp only
      split
      · simp
      · rw [hr]
        simp [Except.map]
    · rw [allocate_refuses hspace]
      simp

end Allocate

/-! ### `Create` -/

section Create

variable {s : State} {name : Image} {initialSize : Int} {garbage : Garbage} {e x : Nat} {d d' : Directory}

/-- When `Create` comes to `Allocate`, there is room unless the data is too much. -/
theorem Allocating.creatable_iff (ha : Allocating s.disk name e x d d') :
    Creatable s.disk name initialSize ↔
      divRoundUp initialSize.toNat sectorSize ≤ ((freeMapOn s.disk).mark x).numClear := by
  have hcount := numClear_mark (b := freeMapOn s.disk) ha.range ha.clear
  constructor
  · intro hroom
    have := hroom.space
    omega
  · intro hspace
    refine ⟨fun i hi hui hcmp => ?_, ⟨e, ha.index, ?_⟩, by omega⟩
    · have hui' : (d.entry i).inUse = true := by
        rw [ha.entries i hi]
        exact hui
      refine Directory.findIndex_none ha.new hi hui' ?_
      rw [ha.entries i hi]
      exact (strncmp_eq_zero ..).mp hcmp
    · have hunused := ha.unused
      rw [ha.entries e ha.index] at hunused
      exact hunused

theorem divRoundUpInt_toNat (h0 : 0 ≤ initialSize) :
    divRoundUpInt initialSize sectorSize = (divRoundUp initialSize.toNat sectorSize : Nat) := by
  rw [← divRoundUpInt_natCast, Int.toNat_of_nonneg h0]

/-- Without room `Create` returns FALSE, whatever the size is. -/
theorem Mounted.create_refuses (hm : Mounted s) (hroom : ¬ Creatable s.disk name initialSize) :
    s.create name initialSize garbage = .ok (s.disk, false) := by
  rcases hm.create_allocates name garbage with ⟨-, hfalse⟩ | ⟨e, x, d, d', ha, hfinishes⟩
  · exact hfalse initialSize
  · rw [ha.creatable_iff, Nat.not_le] at hroom
    have h0 : 0 ≤ initialSize := by
      by_contra hneg
      rw [show initialSize.toNat = 0 by omega] at hroom
      exact absurd hroom (Nat.not_lt_zero _)
    apply (hfinishes initialSize).refuses
    apply FileHeader.allocate_refuses
    rw [divRoundUpInt_toNat h0]
    exact_mod_cast hroom

/-- With room for a file that is too large, it writes outside the header. -/
theorem Mounted.create_outside (hm : Mounted s) (hlarge : maxFileSize < initialSize)
    (hroom : Creatable s.disk name initialSize) :
    s.create name initialSize garbage = .error .outOfBounds := by
  rcases hm.create_allocates name garbage with ⟨hstopped, -⟩ | ⟨e, x, d, d', ha, hfinishes⟩
  · exact absurd (hstopped.refused initialSize) ((creatable_iff ..).mp hroom)
  · rw [ha.creatable_iff] at hroom
    apply (hfinishes initialSize).fails
    apply FileHeader.allocate_outside hlarge
    rw [divRoundUpInt_toNat (by omega)]
    exact_mod_cast hroom

/-- With room for a file of negative size, that is what its header says. -/
theorem Mounted.create_negative (hm : Mounted s) (hmin : -2 ^ 31 ≤ initialSize) (hneg : initialSize < 0)
    (hroom : Creatable s.disk name initialSize) :
    ∃ disk' e x, s.create name initialSize garbage = .ok (disk', true) ∧ e < numDirEntries ∧
      (directoryOn disk').entry e = ⟨true, (x : Nat), compared name⟩ ∧
      FileHeader.numBytes (disk' x) = initialSize := by
  rcases hm.create_allocates name garbage with ⟨hstopped, -⟩ | ⟨e, x, d, d', ha, hfinishes⟩
  · exact absurd (hstopped.refused initialSize) ((creatable_iff ..).mp hroom)
  · have hn : divRoundUpInt initialSize sectorSize ≤ 0 := divRoundUpInt_of_neg (Int.le_of_lt hneg)
    let hdr := FileHeader.setNumSectors (FileHeader.setNumBytes garbage.header initialSize)
      (divRoundUpInt initialSize sectorSize)
    have halloc : FileHeader.allocate garbage.header ((freeMapOn s.disk).mark x) initialSize =
        .ok (some (hdr, (freeMapOn s.disk).mark x)) := by
      unfold FileHeader.allocate
      simp only
      rw [if_neg (by omega), show (divRoundUpInt initialSize sectorSize).toNat = 0 by omega]
      rfl
    have hbits : ((freeMapOn s.disk).mark x).numBits = numSectors := rfl
    obtain ⟨disk', hflush, -, hheader, hentries⟩ := ha.flush hm hdr hbits garbage
    refine ⟨disk', e, x, ?_, ha.index, ?_, ?_⟩
    · rw [(hfinishes initialSize).writes halloc]
      exact hflush
    · rw [hentries e ha.index, ha.added, if_pos rfl]
    · rw [hheader]
      show FileHeader.numBytes (FileHeader.setNumSectors _ _) = _
      rw [FileHeader.numBytes_setNumSectors]
      unfold FileHeader.numBytes FileHeader.setNumBytes
      rw [load_store _ _ (by decide)]
      exact toInt_ofInt_of_bounds hmin (by omega)

end Create

/-! ### The invariant -/

/-- No file has a negative size. -/
def Sized (disk : Disk) : Prop :=
  ∀ i < numDirEntries, (directoryOn disk).inUse i = true →
    0 ≤ FileHeader.numBytes (disk ((directoryOn disk).sector i).toNat)

structure SizedInv (s : State) : Prop where
  inv : Inv s
  sized : Sized s.disk

section Invariant

variable {s t : State} {disk disk' : Disk} {l : Label}

/-- The files that are left have the headers they had. -/
theorem Sized.congr (h : Sized disk)
    (hold : ∀ i < numDirEntries, (directoryOn disk').inUse i = true →
      (directoryOn disk).inUse i = true ∧ (directoryOn disk').sector i = (directoryOn disk).sector i ∧
        disk' ((directoryOn disk).sector i).toNat = disk ((directoryOn disk).sector i).toNat) :
    Sized disk' := by
  intro i hi hui
  obtain ⟨hui', hsector, hheader⟩ := hold i hi hui
  rw [hsector, hheader]
  exact h i hi hui'

theorem Kept.sized {own : Holder → Prop} (hkept : Kept own disk disk') (hc : Consistent disk)
    (hdir : ¬ own .directory) (h : Sized disk) : Sized disk' := by
  refine h.congr fun i hi hui => ?_
  have hentry : (directoryOn disk').entry i = (directoryOn disk).entry i :=
    Directory.entry_congr_of_lt (fun k hk => hkept.directory hc hdir hk) hi
  have hui' : (directoryOn disk).inUse i = true := by
    rw [← Directory.inUse_entry, ← hentry]
    exact hui
  exact ⟨hui', congrArg Entry.sector hentry, hkept.headers (headerSectors_entry hi hui')⟩

theorem Added.sized {name : Image} {e x : Nat} {hdr : FileHeader} (ha : Added disk name e x hdr disk')
    (h : Sized disk) (h0 : 0 ≤ hdr.numBytes) : Sized disk' := by
  intro i hi hui
  have hentry := ha.entries i hi
  by_cases hie : i = e
  · rw [if_pos hie] at hentry
    have hsector : (directoryOn disk').sector i = x := congrArg Entry.sector hentry
    rw [hsector, Int.toNat_natCast, ha.header]
    exact h0
  · rw [if_neg hie] at hentry
    have hui' : (directoryOn disk).inUse i = true := by
      rw [← Directory.inUse_entry, ← hentry]
      exact hui
    have hsector : (directoryOn disk').sector i = (directoryOn disk).sector i := congrArg Entry.sector hentry
    have hheader : disk' ((directoryOn disk).sector i).toNat = disk ((directoryOn disk).sector i).toNat :=
      ha.headers (headerSectors_entry hi hui')
    rw [hsector, hheader]
    exact h i hi hui'

theorem Removed.sized {name : Image} {e : Nat} (hr : Removed disk name e disk') (h : Sized disk) :
    Sized disk' := by
  refine h.congr fun i hi hui => ?_
  have hentry := hr.entries i hi
  by_cases hie : i = e
  · rw [if_pos hie] at hentry
    have hunused := congrArg Entry.inUse hentry
    rw [Directory.inUse_entry, hui] at hunused
    cases hunused
  · rw [if_neg hie] at hentry
    have hui' : (directoryOn disk).inUse i = true := by
      rw [← Directory.inUse_entry, ← hentry]
      exact hui
    refine ⟨hui', congrArg Entry.sector hentry, hr.headers ?_ (headerSectors_entry hi hui')⟩
    exact fun h => hie (Holder.entry.inj h)

/-- The calls other than `Create`. -/
theorem SizedInv.perform (hs : SizedInv s) (hcreate : ∀ name initialSize, l.call ≠ .create name initialSize)
    (hstep : s.perform l = some t) : SizedInv t := by
  refine ⟨hs.inv.perform hstep, ?_⟩
  have hm := hs.inv.mounted
  unfold State.perform at hstep
  split at hstep
  case h_1 name initialSize hcall => exact absurd hcall (hcreate name initialSize)
  case h_2 name _ =>
    rcases hm.remove_spec name l.garbage with ⟨hnone, -⟩ | ⟨e, disk', hsome, hr⟩
    · rw [hnone] at hstep
      obtain rfl := Option.some.inj hstep
      exact hs.sized
    · rw [hsome] at hstep
      obtain rfl := Option.some.inj hstep
      exact hr.sized hs.sized
  case h_3 name _ =>
    obtain ⟨r, hopen, -⟩ := hm.openFile_alive name l.garbage
    rw [hopen] at hstep
    obtain rfl := Option.some.inj hstep
    cases r with
    | none => exact hs.sized
    | some file => exact hs.sized
  case h_4 handle numBytes position _ =>
    split at hstep
    · rename_i file _
      obtain rfl := Option.some.inj hstep
      cases readAt s.disk file.hdr numBytes position with
      | error f => exact hs.sized
      | ok bytes => exact hs.sized
    · cases hstep
  case h_5 handle bytes numBytes position _ =>
    split at hstep
    · rename_i file hlive
      have hfile := hs.inv.alive hlive
      rcases writeAt_cases (hs.inv.valid hfile) bytes numBytes position l.buf with
        ⟨disk', result, hwrite, hframe⟩ | hwrite
      · rw [hwrite] at hstep
        obtain rfl := Option.some.inj hstep
        obtain ⟨i, hi, hui, hsector, hhdr⟩ := hfile
        have ho := headerSectors_entry hi hui
        rw [hsector] at ho
        rw [hhdr] at hframe
        exact (hm.consistent.kept_of_write ho hframe).sized hm.consistent (by simp) hs.sized
      · rw [hwrite] at hstep
        obtain rfl := Option.some.inj hstep
        exact hs.sized
    · cases hstep

/-- `Create` of a size that fits. -/
theorem SizedInv.create (hs : SizedInv s) (name : Image) {initialSize : Int} (garbage : Garbage)
    (hfits : (0 ≤ initialSize ∧ initialSize ≤ maxFileSize) ∨ ¬ Creatable s.disk name initialSize) :
    ∃ disk' r, s.create name initialSize garbage = .ok (disk', r) ∧ SizedInv { s with disk := disk' } := by
  have hm := hs.inv.mounted
  rcases hfits with ⟨h0, hmax⟩ | hroom
  · obtain ⟨disk', r, hcreate, hinv⟩ := hs.inv.create name h0 hmax garbage
    refine ⟨disk', r, hcreate, hinv, ?_⟩
    rcases hm.create_cases name h0 hmax garbage with ⟨hfalse, -⟩ | ⟨e, x, hdr, disk₁, htrue, hchosen, ha⟩
    · rw [hcreate] at hfalse
      cases hfalse
      exact hs.sized
    · rw [hcreate] at htrue
      cases htrue
      exact ha.sized hs.sized (by rw [hchosen.numBytes]; exact h0)
  · exact ⟨s.disk, false, hm.create_refuses hroom, hs⟩

theorem stepSized_eq_some (hstep : stepSized s l = some t) : s.performSized l = some t := by
  unfold stepSized at hstep
  split at hstep
  · cases hstep
  · exact hstep

theorem performSized_create {name : Image} {initialSize : Int} {garbage : Garbage} {buf : Image}
    (hstep : s.performSized ⟨.create name initialSize, garbage, buf⟩ = some t) :
    (-2 ^ 31 ≤ initialSize ∧ initialSize < 2 ^ 31) ∧
      t = s.after (s.create name initialSize garbage) fun r => { s with disk := r.1 } := by
  have hite : (if -2 ^ 31 ≤ initialSize ∧ initialSize < 2 ^ 31 then
      some (s.after (s.create name initialSize garbage) fun r => { s with disk := r.1 }) else none) = some t :=
    hstep
  obtain ⟨hrange, hsome⟩ := Option.ite_none_right_eq_some.mp hite
  exact ⟨hrange, (Option.some.inj hsome).symm⟩

theorem SizedInv.step (hs : SizedInv s) (hfits : SizeFits s l) (hstep : stepSized s l = some t) :
    SizedInv t := by
  have hperform := stepSized_eq_some hstep
  obtain ⟨call, garbage, buf⟩ := l
  cases call with
  | create name initialSize =>
    obtain ⟨-, rfl⟩ := performSized_create hperform
    obtain ⟨disk', r, hcreate, hs'⟩ := hs.create name garbage hfits
    rw [hcreate]
    exact hs'
  | remove name => exact SizedInv.perform (l := ⟨.remove name, garbage, buf⟩) hs (by simp) hperform
  | openFile name => exact SizedInv.perform (l := ⟨.openFile name, garbage, buf⟩) hs (by simp) hperform
  | readAt handle numBytes position => exact SizedInv.perform (l := ⟨.readAt handle numBytes position, garbage, buf⟩) hs (by simp) hperform
  | writeAt handle bytes numBytes position => exact SizedInv.perform (l := ⟨.writeAt handle bytes numBytes position, garbage, buf⟩) hs (by simp) hperform

theorem SizedInv.refusesLarge (hs : SizedInv s) (hfits : SizeFits s l) : RefusesLarge s l := by
  obtain ⟨call, garbage, buf⟩ := l
  cases call with
  | create name initialSize =>
    obtain ⟨disk', r, hcreate, -⟩ := hs.create name garbage hfits
    refine ⟨?_, fun hlarge => hs.inv.mounted.create_refuses (hfits.resolve_left ?_)⟩
    · show s.create name initialSize garbage ≠ _
      rw [hcreate]
      simp
    · intro hsize
      omega
  | remove name => trivial
  | openFile name => trivial
  | readAt handle numBytes position => trivial
  | writeAt handle bytes numBytes position => trivial

theorem FileHeader.Valid.fits {h : FileHeader} (hv : h.Valid) (h0 : 0 ≤ h.numBytes) : h.Fits :=
  ⟨hv.nonneg, hv.direct, h0, hv.length⟩

theorem SizedInv.headersFit (hs : SizedInv s) : HeadersFit s := by
  have hc := hs.inv.mounted.consistent
  refine ⟨hc.valid_freeMap.fits ?_, hc.valid_directory.fits ?_, fun i hi hui => ?_⟩
  · rw [hc.freeMapSize]
    exact Int.natCast_nonneg _
  · rw [hc.directorySize]
    exact Int.natCast_nonneg _
  · have hheader : headerSectors (directoryOn s.disk).entry (.entry i) =
        some ((directoryOn s.disk).entry i).sector.toNat := headerSectors_entry hi hui
    exact (hc.laid.valid hheader).fits (hs.sized i hi hui)

/-- A size that does not fit: `Create` writes outside the header, or the header is wrong. -/
theorem SizedInv.not_headersFit (hs : SizedInv s) (hbad : ¬ SizeFits s l)
    (hstep : stepSized s l = some t) (hrefuses : RefusesLarge s l) : ¬ HeadersFit t := by
  have hperform := stepSized_eq_some hstep
  have hm := hs.inv.mounted
  obtain ⟨call, garbage, buf⟩ := l
  cases call with
  | create name initialSize =>
    obtain ⟨hrange, rfl⟩ := performSized_create hperform
    obtain ⟨hsize, hroom⟩ := not_or.mp hbad
    have hroom := not_not.mp hroom
    by_cases hlarge : maxFileSize < initialSize
    · exact absurd (hm.create_outside hlarge hroom) hrefuses.1
    · have hneg : initialSize < 0 := by
        by_contra h0
        exact hsize ⟨by omega, by omega⟩
      obtain ⟨disk', e, x, hcreate, he, hentry, hbytes⟩ := hm.create_negative hrange.1 hneg hroom
      rw [hcreate]
      intro hfit
      have hui : (directoryOn disk').inUse e = true := congrArg Entry.inUse hentry
      have hsector : (directoryOn disk').sector e = x := congrArg Entry.sector hentry
      have h0 := (hfit.files e he hui).size
      have hheader : FileHeader.numBytes (disk' ((directoryOn disk').sector e).toNat) = initialSize := by
        rw [hsector, Int.toNat_natCast]
        exact hbytes
      have h0' : 0 ≤ FileHeader.numBytes (disk' ((directoryOn disk').sector e).toNat) := h0
      omega
  | remove name => exact absurd trivial hbad
  | openFile name => exact absurd trivial hbad
  | readAt handle numBytes position => exact absurd trivial hbad
  | writeAt handle bytes numBytes position => exact absurd trivial hbad

end Invariant

/-! ### Every run -/

/-- A disk with no files. -/
theorem sized_format {disk : Disk} (hempty : ∀ i < numDirEntries, ((directoryOn disk).entry i).inUse = false) :
    Sized disk := by
  intro i hi hui
  have hunused : (directoryOn disk).inUse i = false := hempty i hi
  rw [hui] at hunused
  cases hunused

theorem sizedInv_fileSystem (disk : Disk) (mapHdr dirHdr : Image) (garbage : Nat → Garbage) :
    ∃ s, fileSystem disk mapHdr dirHdr garbage = .ok s ∧ SizedInv s := by
  obtain ⟨s, hstart, hinv⟩ := fileSystem_spec disk mapHdr dirHdr garbage
  refine ⟨s, hstart, hinv, ?_⟩
  obtain ⟨s₀, hformat, hm₀, hhandles, hstopped, hempty, -⟩ := format_empty disk mapHdr dirHdr (garbage 0)
  have hs₀ : SizedInv s₀ := by
    refine ⟨⟨hm₀, fun h hmem => ?_, by simp [hstopped]⟩, sized_format hempty⟩
    rw [hhandles] at hmem
    cases hmem
  obtain ⟨disk₁, r₁, hcreate₁, hs₁⟩ := hs₀.create (literal "stdin") (garbage 1)
    (Or.inl ⟨show (0 : Int) ≤ 2 by decide, by decide⟩)
  obtain ⟨disk₂, r₂, hcreate₂, hs₂⟩ := hs₁.create (literal "stdout") (garbage 2)
    (Or.inl ⟨show (0 : Int) ≤ 3 by decide, by decide⟩)
  obtain ⟨stdin, hstdin, -⟩ := hs₂.inv.mounted.openFile_alive (literal "stdin") (garbage 3)
  obtain ⟨stdout, hstdout, -⟩ := hs₂.inv.mounted.openFile_alive (literal "stdout") (garbage 4)
  unfold fileSystem at hstart
  simp only [hformat, ok_bind, hcreate₁, hcreate₂, hstdin, hstdout] at hstart
  obtain rfl := Except.ok.inj hstart
  exact hs₂.sized

/-- `Allocate` uses only entries of its table exactly for a size up to `MaxFileSize`, or when there are
not enough free sectors. In a run from `FileSystem(TRUE)` no `Create` writes outside a header, each
refuses what is too large, and all headers fit, exactly when each `Create` is given a size from 0 to
`MaxFileSize` or finds no room. -/
theorem sizes_iff (disk : Disk) (mapHdr dirHdr : Image) (garbage : Nat → Garbage) (ls : List Label) :
    (∀ (h : FileHeader) (b : BitMap) (fileSize : Int), h.allocate b fileSize ≠ .error .outOfBounds ↔
      fileSize ≤ maxFileSize ∨ (b.numClear : Int) < divRoundUpInt fileSize sectorSize) ∧
    ∃ s, fileSystem disk mapHdr dirHdr garbage = .ok s ∧
      (AllStates stepSized HeadersFit s ls ∧ AllSteps stepSized RefusesLarge s ls ↔
        AllSteps stepSized SizeFits s ls) := by
  obtain ⟨s, hstart, hs⟩ := sizedInv_fileSystem disk mapHdr dirHdr garbage
  refine ⟨FileHeader.allocate_inside_iff, s, hstart, ?_⟩
  exact allStates_and_allSteps_iff (fun _ h => h.headersFit) (fun _ _ _ h hfits hstep => h.step hfits hstep)
    (fun _ _ _ h hfits _ => h.refusesLarge hfits)
    (fun _ _ _ h hbad hstep hrefuses => h.not_headersFit hbad hstep hrefuses) hs ls

/-- One byte more than a header can describe, in a file system with free sectors for it. -/
theorem not_sizes_large :
    ∃ s, fileSystem (fun _ _ => 0) (fun _ => 0) (fun _ => 0) (fun _ => zeroGarbage) = .ok s ∧
      s.create (literal "a") (maxFileSize + 1) zeroGarbage = .error .outOfBounds ∧
      ¬ AllSteps stepSized RefusesLarge s [zeroLabel (.create (literal "a") (maxFileSize + 1))] := by
  obtain ⟨s, hstart, hinv, hstopped, hroom⟩ := room_fileSystem (fun _ _ => 0) (fun _ => 0) (fun _ => 0)
    (fun _ => zeroGarbage)
  have hcreatable : Creatable s.disk (literal "a") (maxFileSize + 1) := by
    rw [creatable_iff]
    exact hroom.not_refused hinv.mounted.consistent (by decide) (by decide) (by decide)
  have houtside : s.create (literal "a") (maxFileSize + 1) zeroGarbage = .error .outOfBounds :=
    hinv.mounted.create_outside (by omega) hcreatable
  refine ⟨s, hstart, houtside, fun hsteps => ?_⟩
  have hstep : ∃ t, stepSized s (zeroLabel (.create (literal "a") (maxFileSize + 1))) = some t := by
    have hrange : -2 ^ 31 ≤ (maxFileSize : Int) + 1 ∧ (maxFileSize : Int) + 1 < 2 ^ 31 := by decide
    unfold stepSized
    rw [hstopped]
    exact ⟨_, Option.ite_none_right_eq_some.mpr ⟨hrange, rfl⟩⟩
  obtain ⟨t, ht⟩ := hstep
  exact (hsteps t ht).1.1 houtside

end Nachos.Filesys
