import Nachos.Lib.CInt
import Nachos.Userprog.Frames

/-!
# The disk and file headers

The disk of the `FILESYS` build and `FileHeader` (filehdr.cc). Objects that are read from and
written to the disk as raw memory, such as a file header, are byte images here, with functions
that read and set their members.

* `allocate_spec`: with enough clear sectors, `Allocate` makes a valid header on sectors that
  were clear.
* `deallocate_spec`: when the sectors of a valid header are marked, `Deallocate` fails no
  ASSERT and clears exactly these.
-/

namespace Nachos.Filesys

open Bytes CInt

def sectorSize : Nat := 512
def numSectors : Nat := 1024
def numDirect : Nat := 126
def maxFileSize : Nat := numDirect * sectorSize

/-- The contents of each sector. A sector has `SectorSize` bytes; the rest of an image is never
looked at. -/
abbrev Disk := Nat → Image

/-- `SynchDisk::ReadSector`, with the ASSERT of `Disk::ReadRequest`. -/
def readSector (disk : Disk) (sector : Int) : Except Fault Image :=
  if 0 ≤ sector ∧ sector < numSectors then .ok (disk sector.toNat) else .error .assertion

/-- `SynchDisk::WriteSector`, with the ASSERT of `Disk::WriteRequest`. -/
def writeSector (disk : Disk) (sector : Int) (data : Image) : Except Fault Disk :=
  if 0 ≤ sector ∧ sector < numSectors then .ok (Function.update disk sector.toNat data)
  else .error .assertion

/-! ### File headers -/

/-- The memory of a `FileHeader` object. -/
abbrev FileHeader := Image

namespace FileHeader

def numBytes (h : FileHeader) : Int := (load h 0 4 : Word).toInt

def numSectors (h : FileHeader) : Int := (load h 4 4 : Word).toInt

/-- `dataSectors[i]`. -/
def dataSector (h : FileHeader) (i : Nat) : Int := (load h (8 + 4 * i) 4 : Word).toInt

def setNumBytes (h : FileHeader) (n : Int) : FileHeader := store h 0 4 (BitVec.ofInt 32 n)

def setNumSectors (h : FileHeader) (n : Int) : FileHeader := store h 4 4 (BitVec.ofInt 32 n)

def setDataSector (h : FileHeader) (i : Nat) (sector : Int) : FileHeader :=
  store h (8 + 4 * i) 4 (BitVec.ofInt 32 sector)

/-- `FileHeader::ByteToSector`. -/
def byteToSector (h : FileHeader) (offset : Int) : Except Fault Int :=
  let i := offset.tdiv sectorSize
  if 0 ≤ i ∧ i < numDirect then .ok (h.dataSector i.toNat) else .error .outOfBounds

/-- The loop of `FileHeader::Allocate`, from `i` on and for `n` sectors. -/
def allocateLoop (freeMap : BitMap) : Nat → Nat → FileHeader → Except Fault (FileHeader × BitMap)
  | 0, _, h => .ok (h, freeMap)
  | n + 1, i, h =>
    if i < numDirect then
      match freeMap.find with
      | (some sector, freeMap) => allocateLoop freeMap n (i + 1) (h.setDataSector i sector)
      | (none, freeMap) => allocateLoop freeMap n (i + 1) (h.setDataSector i (-1))
    else .error .outOfBounds

/-- `FileHeader::Allocate` of the object `h`; `none` is the result FALSE. -/
def allocate (h : FileHeader) (freeMap : BitMap) (fileSize : Int) :
    Except Fault (Option (FileHeader × BitMap)) :=
  let n := divRoundUpInt fileSize sectorSize
  let h := (h.setNumBytes fileSize).setNumSectors n
  if freeMap.numClear < n then .ok none
  else (allocateLoop freeMap n.toNat 0 h).map some

/-- The loop of `FileHeader::Deallocate`, from `i` on and for `n` sectors. -/
def deallocateLoop (h : FileHeader) : Nat → Nat → BitMap → Except Fault BitMap
  | 0, _, freeMap => .ok freeMap
  | n + 1, i, freeMap =>
    if i < numDirect then
      match freeMap.test? (h.dataSector i) with
      | none => .error .assertion
      | some false => .error .assertion
      | some true =>
        match freeMap.clear? (h.dataSector i) with
        | none => .error .assertion
        | some freeMap => deallocateLoop h n (i + 1) freeMap
    else .error .outOfBounds

/-- `FileHeader::Deallocate`. -/
def deallocate (h : FileHeader) (freeMap : BitMap) : Except Fault BitMap :=
  h.deallocateLoop h.numSectors.toNat 0 freeMap

/-- The sectors that hold the data of the file. -/
def sectors (h : FileHeader) : List Nat :=
  (List.range h.numSectors.toNat).map fun i => (h.dataSector i).toNat

/-- A header that describes an array of bytes: its data sectors exist, are different from each
other and are enough for its length. -/
structure Valid (h : FileHeader) : Prop where
  nonneg : 0 ≤ h.numSectors
  direct : h.numSectors ≤ numDirect
  length : h.numBytes ≤ h.numSectors * sectorSize
  range : ∀ i < h.numSectors.toNat, 0 ≤ h.dataSector i ∧ h.dataSector i < Filesys.numSectors
  nodup : h.sectors.Nodup

end FileHeader

namespace FileHeader

variable {h : FileHeader}

theorem byteToSector_eq {i : Nat} (hi : i < numDirect) :
    h.byteToSector (i * sectorSize) = .ok (h.dataSector i) := by
  have hdiv : ((i : Int) * sectorSize).tdiv sectorSize = i := by
    apply Int.mul_tdiv_cancel
    decide
  unfold byteToSector
  simp only [hdiv, Int.toNat_natCast]
  rw [if_pos ⟨by omega, by exact_mod_cast hi⟩]

theorem Valid.lt_numDirect (hv : h.Valid) {i : Nat} (hi : i < h.numSectors.toNat) :
    i < numDirect := by
  have hd := hv.direct
  omega

theorem Valid.dataSector_injective (hv : h.Valid) {i j : Nat} (hi : i < h.numSectors.toNat)
    (hj : j < h.numSectors.toNat) (hij : (h.dataSector i).toNat = (h.dataSector j).toNat) :
    i = j := by
  have hinj := List.inj_on_of_nodup_map hv.nodup
  exact hinj (List.mem_range.mpr hi) (List.mem_range.mpr hj) hij

theorem mem_sectors {x : Nat} :
    x ∈ h.sectors ↔ ∃ i < h.numSectors.toNat, (h.dataSector i).toNat = x := by
  simp [sectors]

/-- The bytes of the file lie in its sectors. -/
theorem Valid.div_lt (hv : h.Valid) {k : Nat} (hk : (k : Int) < h.numBytes) :
    k / sectorSize < h.numSectors.toNat := by
  have hlen := hv.length
  have hnn := hv.nonneg
  unfold sectorSize at *
  omega

theorem Valid.mem_dataSector (hv : h.Valid) {k : Nat} (hk : (k : Int) < h.numBytes) :
    (h.dataSector (k / sectorSize)).toNat ∈ h.sectors :=
  mem_sectors.mpr ⟨_, hv.div_lt hk, rfl⟩

end FileHeader

/-! ### Members -/

theorem toInt_ofInt_of_bounds {x : Int} (h : -2 ^ 31 ≤ x) (h' : x < 2 ^ 31) :
    (BitVec.ofInt 32 x).toInt = x := by
  rw [BitVec.toInt_ofInt]
  exact s32_of_bounds h h'

namespace FileHeader

variable {h : FileHeader}

theorem numBytes_setNumBytes {n : Int} (h0 : 0 ≤ n) (hn : n < 2 ^ 31) :
    (h.setNumBytes n).numBytes = n := by
  unfold numBytes setNumBytes
  rw [load_store _ _ (by decide)]
  exact toInt_ofInt_of_bounds (by omega) hn

theorem numSectors_setNumSectors {n : Int} (h0 : 0 ≤ n) (hn : n < 2 ^ 31) :
    (h.setNumSectors n).numSectors = n := by
  unfold numSectors setNumSectors
  rw [load_store _ _ (by decide)]
  exact toInt_ofInt_of_bounds (by omega) hn

@[simp] theorem numBytes_setNumSectors (n : Int) : (h.setNumSectors n).numBytes = h.numBytes := by
  unfold numBytes setNumSectors
  rw [load_store_of_disjoint _ _ (by omega)]

@[simp] theorem numBytes_setDataSector (i : Nat) (x : Int) :
    (h.setDataSector i x).numBytes = h.numBytes := by
  unfold numBytes setDataSector
  rw [load_store_of_disjoint _ _ (by omega)]

@[simp] theorem numSectors_setDataSector (i : Nat) (x : Int) :
    (h.setDataSector i x).numSectors = h.numSectors := by
  unfold numSectors setDataSector
  rw [load_store_of_disjoint _ _ (by omega)]

theorem dataSector_setDataSector (i : Nat) {x : Nat} (hx : x < Filesys.numSectors) :
    (h.setDataSector i x).dataSector i = x := by
  unfold Filesys.numSectors at hx
  unfold dataSector setDataSector
  rw [load_store _ _ (by decide)]
  exact toInt_ofInt_of_bounds (by omega) (by omega)

theorem dataSector_setDataSector_of_ne {i j : Nat} (x : Int) (hij : j ≠ i) :
    (h.setDataSector i x).dataSector j = h.dataSector j := by
  unfold dataSector setDataSector
  rw [load_store_of_disjoint _ _ (by omega)]

/-! ### Allocation -/

/-- What the loop of `Allocate` has done when it has found the sectors `fs`. -/
theorem allocateLoop_spec {freeMap freeMap' : BitMap} {n i : Nat} {fs : List Nat}
    (halloc : allocFrames freeMap n = (some fs, freeMap')) (hi : i + n ≤ numDirect)
    (hbits : freeMap.numBits = Filesys.numSectors) :
    ∃ h', allocateLoop freeMap n i h = .ok (h', freeMap') ∧ h'.numBytes = h.numBytes ∧
      h'.numSectors = h.numSectors ∧ (∀ j < i, h'.dataSector j = h.dataSector j) ∧
      ∀ k < n, h'.dataSector (i + k) = (fs.getD k 0 : Nat) := by
  induction n generalizing freeMap i h fs with
  | zero =>
    obtain ⟨-, rfl⟩ : [] = fs ∧ freeMap = freeMap' := by simpa [allocFrames] using halloc
    exact ⟨h, rfl, rfl, rfl, fun _ _ => rfl, fun k hk => absurd hk (by omega)⟩
  | succ n ih =>
    rcases freeMap.find_cases with ⟨f, hf, -, hfind⟩ | ⟨-, hfind⟩
    · simp only [allocFrames, hfind] at halloc
      split at halloc
      next gs b'' hrest =>
        obtain ⟨rfl, rfl⟩ : f :: gs = fs ∧ b'' = freeMap' := by simpa using halloc
        rw [hbits] at hf
        obtain ⟨h', hloop, hbytes, hsectors, hbefore, hdata⟩ :=
          ih (h := h.setDataSector i f) (i := i + 1) hrest (by omega) (by simpa using hbits)
        refine ⟨h', ?_, by rw [hbytes, numBytes_setDataSector],
          by rw [hsectors, numSectors_setDataSector], ?_, ?_⟩
        · simp only [allocateLoop, hfind]
          rw [if_pos (by omega), hloop]
        · intro j hj
          rw [hbefore j (by omega), dataSector_setDataSector_of_ne _ (by omega)]
        · intro k hk
          cases k with
          | zero =>
            rw [Nat.add_zero, hbefore i (by omega), dataSector_setDataSector i hf]
            rfl
          | succ k =>
            have hk' := hdata k (by omega)
            rw [show i + 1 + k = i + (k + 1) by omega] at hk'
            rw [hk']
            rfl
      next => simp at halloc
    · simp [allocFrames, hfind] at halloc

/-- `Allocate` for a size that a header can describe: there are not enough clear sectors, or it
makes a valid header on sectors that were clear. -/
theorem allocate_spec (h : FileHeader) {freeMap : BitMap} {fileSize : Int} (h0 : 0 ≤ fileSize)
    (hmax : fileSize ≤ maxFileSize) (hbits : freeMap.numBits = Filesys.numSectors) :
    (freeMap.numClear < divRoundUp fileSize.toNat sectorSize ∧
        h.allocate freeMap fileSize = .ok none) ∨
      ∃ h' fs freeMap', h.allocate freeMap fileSize = .ok (some (h', freeMap')) ∧
        Allocated freeMap fs freeMap' ∧ fs.length = divRoundUp fileSize.toNat sectorSize ∧
        h'.numBytes = fileSize ∧ h'.sectors = fs ∧ h'.Valid := by
  have hcount : divRoundUpInt fileSize sectorSize = (divRoundUp fileSize.toNat sectorSize : Nat) := by
    rw [← divRoundUpInt_natCast, Int.toNat_of_nonneg h0]
  have hround := divRoundUp_mul_ge (n := fileSize.toNat) (s := sectorSize) (by decide)
  have hle : divRoundUp fileSize.toNat sectorSize ≤ numDirect := by
    apply divRoundUp_le (by decide)
    unfold maxFileSize at hmax
    omega
  unfold allocate
  simp only [hcount]
  generalize divRoundUp fileSize.toNat sectorSize = n at *
  by_cases hclear : freeMap.numClear < n
  · exact Or.inl ⟨hclear, if_pos (by exact_mod_cast hclear)⟩
  refine Or.inr ?_
  rw [if_neg (by exact_mod_cast hclear)]
  obtain ⟨fs, freeMap', halloc⟩ := allocFrames_of_le (b := freeMap) (not_lt.mp hclear)
  obtain ⟨hallocated, hlen⟩ := allocFrames_some halloc
  have hmax' : fileSize < 2 ^ 31 := by
    unfold maxFileSize numDirect sectorSize at hmax
    omega
  have hn31 : ((n : Nat) : Int) < 2 ^ 31 := by
    unfold numDirect at hle
    omega
  obtain ⟨h', hloop, hbytes, hsectors, -, hdata⟩ := allocateLoop_spec
    (h := (h.setNumBytes fileSize).setNumSectors n) (i := 0) halloc (by omega) hbits
  rw [numBytes_setNumSectors, numBytes_setNumBytes h0 hmax'] at hbytes
  rw [numSectors_setNumSectors (by omega) hn31] at hsectors
  have hentry : ∀ i < n, h'.dataSector i = (fs.getD i 0 : Nat) := by
    intro i hi
    have := hdata i hi
    rwa [Nat.zero_add] at this
  have hfs : h'.sectors = fs := by
    unfold sectors
    rw [hsectors, Int.toNat_natCast]
    apply List.ext_getElem
    · simp [hlen]
    · intro i h1 h2
      simp only [List.getElem_map, List.getElem_range]
      rw [hentry i (by omega), Int.toNat_natCast, List.getD_eq_getElem?_getD,
        List.getElem?_eq_getElem h2, Option.getD_some]
  refine ⟨h', fs, freeMap', ?_, hallocated, hlen, hbytes, hfs, ?_⟩
  · rw [Int.toNat_natCast, hloop]
    rfl
  · refine ⟨by omega, by rw [hsectors]; exact_mod_cast hle, ?_, ?_, by rw [hfs]; exact hallocated.nodup⟩
    · rw [hbytes, hsectors]
      have hcast : ((fileSize.toNat : Nat) : Int) ≤ (n * sectorSize : Nat) := by exact_mod_cast hround
      push_cast at hcast
      omega
    · intro i hi
      rw [hsectors, Int.toNat_natCast] at hi
      have hmem : fs.getD i 0 ∈ fs := by
        have hi' : i < fs.length := by omega
        rw [List.getD_eq_getElem?_getD, List.getElem?_eq_getElem hi', Option.getD_some]
        exact List.getElem_mem hi'
      have hlt := hallocated.range _ hmem
      rw [hbits] at hlt
      rw [hentry i hi]
      exact ⟨by omega, by exact_mod_cast hlt⟩

/-! ### Deallocation -/

/-- One round of the loop of `Deallocate`, on a sector that is marked. -/
theorem deallocateLoop_succ {freeMap : BitMap} {i n x : Nat} (hi : i < numDirect)
    (hx : h.dataSector i = (x : Nat)) (hlt : x < freeMap.numBits) (htest : freeMap.test x = true) :
    h.deallocateLoop (n + 1) i freeMap = h.deallocateLoop n (i + 1) (freeMap.clear x) := by
  have hrange : freeMap.inRange (x : Int) = true := by
    simp only [BitMap.inRange, decide_eq_true_eq]
    omega
  simp only [deallocateLoop, hx, BitMap.test?, BitMap.clear?, hrange, if_true, Int.toNat_natCast,
    htest]
  rw [if_pos hi]

/-- The loop clears the sectors from `i` on, which are marked. -/
theorem deallocateLoop_spec (hv : h.Valid) {freeMap : BitMap} {i n : Nat}
    (hin : i + n = h.numSectors.toNat) (hbits : freeMap.numBits = Filesys.numSectors)
    (hmarked : ∀ j, i ≤ j → j < i + n → freeMap.test (h.dataSector j).toNat = true) :
    ∃ freeMap', h.deallocateLoop n i freeMap = .ok freeMap' ∧
      freeMap'.numBits = freeMap.numBits ∧
      ∀ x, freeMap'.test x = true ↔ freeMap.test x = true ∧
        ∀ j, i ≤ j → j < i + n → (h.dataSector j).toNat ≠ x := by
  induction n generalizing i freeMap with
  | zero =>
    refine ⟨freeMap, rfl, rfl, fun x => ⟨fun hx => ⟨hx, ?_⟩, fun hx => hx.1⟩⟩
    intro j h1 h2
    omega
  | succ n ih =>
    obtain ⟨hpos, hlt⟩ := hv.range i (by omega)
    have hcast : h.dataSector i = ((h.dataSector i).toNat : Nat) := by omega
    have hbit : (h.dataSector i).toNat < freeMap.numBits := by
      rw [hbits]
      omega
    rw [deallocateLoop_succ (hv.lt_numDirect (by omega)) hcast hbit (hmarked i (by omega) (by omega))]
    -- the sectors still to come are different from the one just cleared
    have hmarked' : ∀ j, i + 1 ≤ j → j < i + 1 + n →
        (freeMap.clear (h.dataSector i).toNat).test (h.dataSector j).toNat = true := by
      intro j h1 h2
      have hne : (h.dataSector j).toNat ≠ (h.dataSector i).toNat := by
        intro heq
        have := hv.dataSector_injective (by omega) (by omega) heq
        omega
      rw [BitMap.test_clear _ hbit, hmarked j (by omega) (by omega)]
      simp [hne]
    have hbits' : (freeMap.clear (h.dataSector i).toNat).numBits = Filesys.numSectors := hbits
    obtain ⟨freeMap', hloop, hnum, htest⟩ := ih (i := i + 1) (by omega) hbits' hmarked'
    refine ⟨freeMap', hloop, hnum, fun x => ?_⟩
    rw [htest, BitMap.test_clear _ hbit]
    simp only [Bool.and_eq_true, Bool.not_eq_true', decide_eq_false_iff_not]
    constructor
    · rintro ⟨⟨hne, hx⟩, hrest⟩
      refine ⟨hx, fun j h1 h2 => ?_⟩
      by_cases hji : j = i
      · rw [hji]
        exact Ne.symm hne
      · exact hrest j (by omega) (by omega)
    · rintro ⟨hx, hall⟩
      exact ⟨⟨Ne.symm (hall i (by omega) (by omega)), hx⟩,
        fun j h1 h2 => hall j (by omega) (by omega)⟩

/-- `Deallocate` of a valid header whose sectors are marked fails no ASSERT and clears exactly
these sectors. -/
theorem deallocate_spec (hv : h.Valid) {freeMap : BitMap}
    (hbits : freeMap.numBits = Filesys.numSectors)
    (hmarked : ∀ x ∈ h.sectors, freeMap.test x = true) :
    ∃ freeMap', h.deallocate freeMap = .ok freeMap' ∧ freeMap'.numBits = Filesys.numSectors ∧
      ∀ x, freeMap'.test x = true ↔ freeMap.test x = true ∧ x ∉ h.sectors := by
  obtain ⟨freeMap', hloop, hnum, htest⟩ := deallocateLoop_spec hv (i := 0)
    (n := h.numSectors.toNat) (by omega) hbits
    (fun j _ hj => hmarked _ (mem_sectors.mpr ⟨j, by omega, rfl⟩))
  refine ⟨freeMap', hloop, by rw [hnum, hbits], fun x => ?_⟩
  rw [htest, mem_sectors]
  constructor
  · rintro ⟨hx, hall⟩
    refine ⟨hx, ?_⟩
    rintro ⟨i, hi, hix⟩
    exact hall i (by omega) (by omega) hix
  · rintro ⟨hx, hno⟩
    exact ⟨hx, fun j _ hj hjx => hno ⟨j, by omega, hjx⟩⟩

end FileHeader

end Nachos.Filesys
