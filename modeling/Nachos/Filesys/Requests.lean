import Nachos.Filesys.OpenFile

/-!
# The request check of `ReadAt` and `WriteAt`

Both functions cut a request off at the end of the file when `position + numBytes > fileLength`. The
sum is an `int`: when it wraps around, the request stays as long as it was. `SC_Write` takes this
length from a register.

`clipped_iff`: for which requests the bytes transferred and the sectors asked for are the file's.
-/

namespace Nachos.Filesys

open CInt

/-! ### The sectors of a request -/

/-- `divRoundDown(position, SectorSize)`. -/
def firstSector (position : Int) : Int := position.tdiv sectorSize

/-- `divRoundDown(position + numBytes - 1, SectorSize)`. -/
def lastSector (numBytes position : Int) : Int :=
  (s32 (s32 (position + numBytes) - 1)).tdiv sectorSize

/-- What the calls `ByteToSector(i * SectorSize)` of a loop index the data sectors with. -/
def loopIndices (first last : Int) : List Int :=
  (List.range (last + 1 - first).toNat).map fun k : Nat =>
    (s32 ((first + k) * sectorSize)).tdiv sectorSize

/-- The same for `ReadAt`. -/
def readIndices (fileLength numBytes position : Int) : List Int :=
  if numBytes ≤ 0 ∨ position ≥ fileLength then []
  else
    let n := clip fileLength numBytes position
    loopIndices (firstSector position) (lastSector n position)

/-- The same for `WriteAt`, which may read its first and its last sector before it writes. -/
def writeIndices (fileLength numBytes position : Int) : List Int :=
  if numBytes ≤ 0 ∨ position ≥ fileLength then []
  else
    let n := clip fileLength numBytes position
    let first := firstSector position
    let last := lastSector n position
    let firstAligned : Bool := position = s32 (first * sectorSize)
    let lastAligned : Bool := s32 (position + n) = s32 (s32 (last + 1) * sectorSize)
    (if !firstAligned then readIndices fileLength sectorSize (s32 (first * sectorSize)) else []) ++
      (if !lastAligned && (first != last || firstAligned) then
        readIndices fileLength sectorSize (s32 (last * sectorSize)) else []) ++
      loopIndices first last

/-- The number of bytes and the indices of the data sectors that the two functions use for a request
are within the file. -/
structure Clipped (h : FileHeader) (numBytes position : Int) : Prop where
  count : 0 ≤ clip h.numBytes numBytes position ∧
    clip h.numBytes numBytes position ≤ h.numBytes - position
  read : ∀ i ∈ readIndices h.numBytes numBytes position, i < h.numSectors
  write : ∀ i ∈ writeIndices h.numBytes numBytes position, i < h.numSectors

section Indices

variable {fileLength numBytes position n i : Int}

theorem mem_loopIndices {first last : Int} (h0 : 0 ≤ first) (hlast : last < 2 ^ 22)
    (hi : i ∈ loopIndices first last) : first ≤ i ∧ i ≤ last := by
  obtain ⟨k, hk, rfl⟩ := List.mem_map.mp hi
  rw [List.mem_range] at hk
  have hfits : s32 ((first + k) * sectorSize) = (first + k) * sectorSize := by
    unfold sectorSize
    exact s32_of_bounds (by omega) (by omega)
  have hindex : ((first + k) * sectorSize).tdiv sectorSize = first + k :=
    Int.mul_tdiv_cancel _ (by decide)
  rw [hfits, hindex]
  omega

theorem firstSector_of_nonneg (h0 : 0 ≤ position) : firstSector position = position / sectorSize :=
  Int.tdiv_eq_ediv_of_nonneg h0

theorem lastSector_of_le (h0 : 0 ≤ position) (hn : 0 < n) (hfit : position + n ≤ fileLength)
    (hsmall : fileLength ≤ maxFileSize) : lastSector n position = (position + n - 1) / sectorSize := by
  unfold maxFileSize numDirect sectorSize at hsmall
  unfold lastSector
  rw [s32_of_bounds (x := position + n) (by omega) (by omega), s32_of_bounds (by omega) (by omega)]
  exact Int.tdiv_eq_ediv_of_nonneg (by omega)

/-- The loop over the sectors of a request inside the file. -/
theorem mem_loopIndices_request (h0 : 0 ≤ position) (hn : 0 < n) (hfit : position + n ≤ fileLength)
    (hsmall : fileLength ≤ maxFileSize)
    (hi : i ∈ loopIndices (firstSector position) (lastSector n position)) :
    0 ≤ i ∧ i * sectorSize < fileLength := by
  rw [firstSector_of_nonneg h0, lastSector_of_le h0 hn hfit hsmall] at hi
  unfold maxFileSize numDirect at hsmall
  have hbounds := mem_loopIndices (by unfold sectorSize; omega) (by unfold sectorSize at *; omega) hi
  unfold sectorSize at *
  omega

/-- A request that is not refused and whose end is an `int`. -/
theorem clip_inside (h0 : 0 ≤ position) (hend : position + numBytes < 2 ^ 31)
    (hserved : ¬ (numBytes ≤ 0 ∨ position ≥ fileLength)) :
    0 < clip fileLength numBytes position ∧
      position + clip fileLength numBytes position ≤ fileLength := by
  unfold clip
  rw [if_neg hserved, s32_of_bounds (by omega) hend]
  split <;> omega

theorem mem_readIndices (h0 : 0 ≤ position) (hend : position + numBytes < 2 ^ 31)
    (hsmall : fileLength ≤ maxFileSize) (hi : i ∈ readIndices fileLength numBytes position) :
    0 ≤ i ∧ i * sectorSize < fileLength := by
  unfold readIndices at hi
  by_cases hserved : numBytes ≤ 0 ∨ position ≥ fileLength
  · rw [if_pos hserved] at hi
    cases hi
  · rw [if_neg hserved] at hi
    obtain ⟨hn, hfit⟩ := clip_inside h0 hend hserved
    exact mem_loopIndices_request h0 hn hfit hsmall hi

theorem mem_writeIndices (h0 : 0 ≤ position) (hend : position + numBytes < 2 ^ 31)
    (hsmall : fileLength ≤ maxFileSize) (hi : i ∈ writeIndices fileLength numBytes position) :
    0 ≤ i ∧ i * sectorSize < fileLength := by
  unfold writeIndices at hi
  by_cases hserved : numBytes ≤ 0 ∨ position ≥ fileLength
  · rw [if_pos hserved] at hi
    cases hi
  rw [if_neg hserved] at hi
  obtain ⟨hn, hfit⟩ := clip_inside h0 hend hserved
  simp only at hi
  generalize clip fileLength numBytes position = n at *
  -- the two reads are of whole sectors of the request
  have hread : ∀ s : Int, 0 ≤ s → s * sectorSize < fileLength →
      i ∈ readIndices fileLength sectorSize (s32 (s * sectorSize)) →
      0 ≤ i ∧ i * sectorSize < fileLength := by
    intro s hs hinside hi
    have hsmall' := hsmall
    unfold maxFileSize numDirect at hsmall'
    rw [s32_of_bounds (by unfold sectorSize at *; omega) (by unfold sectorSize at *; omega)] at hi
    exact mem_readIndices (by unfold sectorSize at *; omega) (by unfold sectorSize at *; omega) hsmall hi
  rcases List.mem_append.mp hi with hi | hi
  · rw [firstSector_of_nonneg h0, lastSector_of_le h0 hn hfit hsmall] at hi
    rcases List.mem_append.mp hi with hi | hi
    · split at hi
      · exact hread _ (by unfold sectorSize; omega) (by unfold sectorSize; omega) hi
      · cases hi
    · split at hi
      · exact hread _ (by unfold sectorSize; omega) (by unfold sectorSize; omega) hi
      · cases hi
  · exact mem_loopIndices_request h0 hn hfit hsmall hi

/-- The indices of a request inside the file, one after the other. -/
theorem readIndices_eq {pos n : Nat} (hserved : ¬ (numBytes ≤ 0 ∨ (pos : Int) ≥ fileLength))
    (hclip : clip fileLength numBytes pos = n) (hn : 0 < n) (hfit : (pos + n : Int) ≤ fileLength)
    (hsmall : fileLength ≤ maxFileSize) :
    readIndices fileLength numBytes pos = (List.range' (pos / sectorSize)
      (1 + (pos + n - 1) / sectorSize - pos / sectorSize)).map fun i : Nat => (i : Int) := by
  unfold readIndices
  rw [if_neg hserved, hclip]
  simp only
  rw [firstSector_of_nonneg (Int.natCast_nonneg pos),
    lastSector_of_le (Int.natCast_nonneg pos) (by omega) hfit hsmall]
  unfold loopIndices
  rw [List.range'_eq_map_range, List.map_map]
  have hcount : (((pos : Int) + n - 1) / sectorSize + 1 - pos / sectorSize).toNat =
      1 + (pos + n - 1) / sectorSize - pos / sectorSize := by
    unfold sectorSize
    omega
  rw [hcount]
  refine List.map_congr_left fun k hk => ?_
  rw [List.mem_range] at hk
  unfold maxFileSize numDirect sectorSize at *
  rw [s32_of_bounds (by omega) (by omega), Int.mul_tdiv_cancel _ (by omega)]
  show _ = ((pos / 512 + k : Nat) : Int)
  omega

/-- `ReadAt` reads the sectors at these indices. -/
theorem readAt_eq_readIndices (disk : Disk) (h : FileHeader) (hsmall : h.numBytes ≤ maxFileSize)
    (h0 : 0 ≤ position) (hend : position + numBytes < 2 ^ 31) :
    readAt disk h numBytes position = (do
      let data ← (readIndices h.numBytes numBytes position).mapM fun i => do
        let sector ← h.byteToSector (i * sectorSize)
        readSector disk sector
      let pos := position.toNat
      let buf : Bytes.Image := fun k => data.getD (k / sectorSize) (fun _ => 0) (k % sectorSize)
      pure ((List.range (clip h.numBytes numBytes position).toNat).map fun k =>
        buf (pos - pos / sectorSize * sectorSize + k))) := by
  by_cases hserved : numBytes ≤ 0 ∨ position ≥ h.numBytes
  · have hzero : clip h.numBytes numBytes position = 0 := if_pos hserved
    have hread : readIndices h.numBytes numBytes position = [] := if_pos hserved
    rw [readAt_nothing hzero, hread, hzero]
    rfl
  · obtain ⟨hcount, hfit⟩ := clip_inside h0 hend hserved
    obtain ⟨pos, rfl⟩ := Int.eq_ofNat_of_zero_le h0
    obtain ⟨n, hclip⟩ := Int.eq_ofNat_of_zero_le (Int.le_of_lt hcount)
    rw [hclip] at hcount hfit
    rw [readIndices_eq hserved hclip (by omega) hfit hsmall, List.mapM_map]
    unfold readAt
    simp only [hclip]
    rw [if_neg (by omega), if_neg (by omega)]
    rfl

end Indices

/-- A request inside a file is clipped to it exactly when its end is an `int`, but for those at the
end of the file, which are refused. -/
theorem clipped_iff (h : FileHeader) (hsmall : h.numBytes ≤ maxFileSize)
    (hsectors : h.numBytes ≤ h.numSectors * sectorSize) {numBytes position : Int}
    (hn : numBytes < 2 ^ 31) (h0 : 0 ≤ position) (hpos : position ≤ h.numBytes) :
    Clipped h numBytes position ↔ position = h.numBytes ∨ position + numBytes < 2 ^ 31 := by
  constructor
  · intro hclipped
    by_contra hnot
    obtain ⟨hne, hend⟩ := not_or.mp hnot
    have hcount := hclipped.count.2
    rw [clip_overflow hn (by omega) hsmall (by omega)] at hcount
    unfold maxFileSize numDirect sectorSize at hsmall
    omega
  · intro hcond
    by_cases hserved : numBytes ≤ 0 ∨ position ≥ h.numBytes
    · have hzero : clip h.numBytes numBytes position = 0 := if_pos hserved
      have hread : readIndices h.numBytes numBytes position = [] := if_pos hserved
      have hwrite : writeIndices h.numBytes numBytes position = [] := if_pos hserved
      refine ⟨by rw [hzero]; omega, ?_, ?_⟩
      · rw [hread]
        exact fun i hi => absurd hi List.not_mem_nil
      · rw [hwrite]
        exact fun i hi => absurd hi List.not_mem_nil
    · have hend : position + numBytes < 2 ^ 31 := by omega
      obtain ⟨hcount, hfit⟩ := clip_inside h0 hend hserved
      refine ⟨by omega, fun i hi => ?_, fun i hi => ?_⟩
      · obtain ⟨-, hinside⟩ := mem_readIndices h0 hend hsmall hi
        unfold sectorSize at *
        omega
      · obtain ⟨-, hinside⟩ := mem_writeIndices h0 hend hsmall hi
        unfold sectorSize at *
        omega

/-- The longest request behind the first byte that has an end. -/
theorem clipped_iff_longest : Clipped threeBytes (2 ^ 31 - 2) 1 ↔
    1 = threeBytes.numBytes ∨ (1 : Int) + (2 ^ 31 - 2) < 2 ^ 31 := by
  obtain ⟨hv, hlen⟩ := valid_threeBytes
  have hsmall : threeBytes.numBytes ≤ maxFileSize := by
    rw [hlen]
    decide
  exact clipped_iff threeBytes hsmall hv.length (by omega) (by omega) (by omega)

/-- With one byte more the sum is negative, and the request stays as it is. -/
theorem not_clipped_longer :
    threeBytes.Valid ∧ threeBytes.numBytes = 3 ∧ ¬ Clipped threeBytes (2 ^ 31 - 1) 1 := by
  obtain ⟨hv, hlen⟩ := valid_threeBytes
  have hsmall : threeBytes.numBytes ≤ maxFileSize := by
    rw [hlen]
    decide
  refine ⟨hv, hlen, fun hclipped => ?_⟩
  have hcount := hclipped.count.2
  rw [clip_overflow (by omega) (by omega) hsmall (by omega)] at hcount
  omega

end Nachos.Filesys
