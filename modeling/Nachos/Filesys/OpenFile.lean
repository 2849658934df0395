import Nachos.Filesys.FileHeader

/-!
# Files on the disk

The functions `ReadAt` and `WriteAt` of `OpenFile` (openfile.cc) in the `FILESYS` build. A file
with a valid header is an array of `FileLength()` bytes, kept in the sectors that the header
names. `readAt_inside` and `writeAt_spec` say what the two functions do to this array for a
request inside the file; `writeAt_spec` says also that all other sectors are left alone.
`transfers` puts them together for every request whose end is an `int`.
-/

namespace Nachos.Filesys

open Bytes CInt

/-! ### Reading and writing -/

/-- The byte at the offset `k` of a file. -/
def fileByte (disk : Disk) (h : FileHeader) (k : Nat) : Byte :=
  disk (h.dataSector (k / sectorSize)).toNat (k % sectorSize)

/-- The number of bytes that `ReadAt` and `WriteAt` transfer, computed on `int`s. -/
def clip (fileLength numBytes position : Int) : Int :=
  if numBytes ≤ 0 ∨ position ≥ fileLength then 0
  else if s32 (position + numBytes) > fileLength then fileLength - position
  else numBytes

/-- `OpenFile::ReadAt`: the bytes read. A request that begins before the file, or that was not
clipped because its end overflows, indexes the buffer out of bounds. -/
def readAt (disk : Disk) (h : FileHeader) (numBytes position : Int) : Except Fault (List Byte) :=
  let n := clip h.numBytes numBytes position
  if n = 0 then .ok []
  else if position < 0 ∨ h.numBytes < position + n then .error .outOfBounds
  else do
    let pos := position.toNat
    let firstSector := pos / sectorSize
    let lastSector := (pos + n.toNat - 1) / sectorSize
    let data ← (List.range' firstSector (1 + lastSector - firstSector)).mapM fun (i : Nat) => do
      let sector ← h.byteToSector (i * sectorSize)
      readSector disk sector
    let buf : Image := fun k => data.getD (k / sectorSize) (fun _ => 0) (k % sectorSize)
    pure ((List.range n.toNat).map fun k => buf (pos - firstSector * sectorSize + k))

/-- `OpenFile::WriteAt` of the buffer `bytes`: the disk and the result. The buffer it makes is
not initialised; `junk` is what it holds. -/
def writeAt (disk : Disk) (h : FileHeader) (bytes : List Byte) (numBytes position : Int)
    (junk : Image) : Except Fault (Disk × Int) :=
  let n := clip h.numBytes numBytes position
  if n = 0 then .ok (disk, 0)
  else if position < 0 ∨ h.numBytes < position + n ∨ bytes.length < n then .error .outOfBounds
  else do
    let pos := position.toNat
    let firstSector := pos / sectorSize
    let lastSector := (pos + n.toNat - 1) / sectorSize
    let firstAligned : Bool := pos = firstSector * sectorSize
    let lastAligned : Bool := pos + n.toNat = (lastSector + 1) * sectorSize
    let buf ←
      if !firstAligned then do
        let old ← readAt disk h sectorSize (firstSector * sectorSize : Nat)
        pure (splice junk 0 old)
      else pure junk
    let buf ←
      if !lastAligned && (firstSector != lastSector || firstAligned) then do
        let old ← readAt disk h sectorSize (lastSector * sectorSize : Nat)
        pure (splice buf ((lastSector - firstSector) * sectorSize) old)
      else pure buf
    let buf := splice buf (pos - firstSector * sectorSize) (bytes.take n.toNat)
    let disk ← (List.range' firstSector (1 + lastSector - firstSector)).foldlM
      (fun disk (i : Nat) => do
        let sector ← h.byteToSector (i * sectorSize)
        writeSector disk sector fun k => buf ((i - firstSector) * sectorSize + k)) disk
    pure (disk, n)

/-! ### What they do -/

section Loops

variable {α β : Type}

theorem mapM_ok {f : α → Except Fault β} {g : α → β} {l : List α}
    (h : ∀ a ∈ l, f a = .ok (g a)) : l.mapM f = .ok (l.map g) := by
  induction l with
  | nil => rfl
  | cons a l ih =>
    have ha := h a (List.mem_cons_self ..)
    have hl := ih fun b hb => h b (List.mem_cons_of_mem _ hb)
    rw [List.mapM_cons, ha, hl]
    rfl

theorem foldlM_ok {f : β → α → Except Fault β} {g : β → α → β} {l : List α} (b : β)
    (h : ∀ b, ∀ a ∈ l, f b a = .ok (g b a)) : l.foldlM f b = .ok (l.foldl g b) := by
  induction l generalizing b with
  | nil => rfl
  | cons a l ih =>
    rw [List.foldlM_cons, h b a (List.mem_cons_self ..)]
    exact ih (g b a) fun b' a' ha' => h b' a' (List.mem_cons_of_mem _ ha')

/-- Writing different places one after the other. -/
theorem foldl_update {l : List Nat} {at' : Nat → Nat} (block : Nat → Image) (disk : Disk)
    (hinj : ∀ i ∈ l, ∀ j ∈ l, at' i = at' j → i = j) (hl : l.Nodup) (x : Nat) :
    (∀ i ∈ l, at' i ≠ x) ∧
        l.foldl (fun disk i => Function.update disk (at' i) (block i)) disk x = disk x ∨
      ∃ i ∈ l, at' i = x ∧
        l.foldl (fun disk i => Function.update disk (at' i) (block i)) disk x = block i := by
  induction l generalizing disk with
  | nil => exact Or.inl ⟨by simp, rfl⟩
  | cons a l ih =>
    obtain ⟨ha, hl'⟩ := List.nodup_cons.mp hl
    have hinj' : ∀ i ∈ l, ∀ j ∈ l, at' i = at' j → i = j := fun i hi j hj =>
      hinj i (List.mem_cons_of_mem _ hi) j (List.mem_cons_of_mem _ hj)
    simp only [List.foldl_cons]
    rcases ih (Function.update disk (at' a) (block a)) hinj' hl' with ⟨hno, heq⟩ | ⟨i, hi, hix, heq⟩
    · by_cases hax : at' a = x
      · refine Or.inr ⟨a, List.mem_cons_self .., hax, ?_⟩
        rw [heq, ← hax, Function.update_self]
      · refine Or.inl ⟨?_, ?_⟩
        · intro i hi
          rcases List.mem_cons.mp hi with rfl | hi
          · exact hax
          · exact hno i hi
        · rw [heq, Function.update_of_ne (Ne.symm hax)]
    · exact Or.inr ⟨i, List.mem_cons_of_mem _ hi, hix, heq⟩

end Loops

theorem readSector_eq (disk : Disk) {x : Int} (h0 : 0 ≤ x) (hx : x < numSectors) :
    readSector disk x = .ok (disk x.toNat) := if_pos ⟨h0, hx⟩

theorem writeSector_eq (disk : Disk) {x : Int} (data : Image) (h0 : 0 ≤ x) (hx : x < numSectors) :
    writeSector disk x data = .ok (Function.update disk x.toNat data) := if_pos ⟨h0, hx⟩

theorem clip_nonneg (fileLength numBytes position : Int) : 0 ≤ clip fileLength numBytes position := by
  unfold clip
  split
  · exact le_refl 0
  · split <;> omega

/-- A request whose end is not an `int` is not cut off. -/
theorem clip_overflow {fileLength numBytes position : Int} (hn : numBytes < 2 ^ 31)
    (hpos : position < fileLength) (hsmall : fileLength ≤ maxFileSize)
    (hend : 2 ^ 31 ≤ position + numBytes) : clip fileLength numBytes position = numBytes := by
  unfold maxFileSize numDirect sectorSize at hsmall
  have hwrap : s32 (position + numBytes) = position + numBytes - 2 ^ 32 := by
    unfold s32
    rw [Int.bmod_def]
    split <;> omega
  unfold clip
  rw [if_neg (by omega), hwrap, if_neg (by omega)]

section Transfer

variable {disk : Disk} {h : FileHeader} {n : Nat} {pos : Nat}

/-- The sectors of a transfer are data sectors of the file. -/
theorem lt_numSectors_of_mem (hv : h.Valid) (hn : 0 < n) (hfit : ((pos + n : Nat) : Int) ≤ h.numBytes)
    {i : Nat}
    (hi : i ∈ List.range' (pos / sectorSize)
      (1 + (pos + n - 1) / sectorSize - pos / sectorSize)) : i < h.numSectors.toNat := by
  have hlen := hv.length
  have hnn := hv.nonneg
  simp only [List.mem_range'_1] at hi
  unfold sectorSize at *
  omega

/-- `ReadAt` of a request that lies inside the file. -/
theorem readAt_inside (hv : h.Valid) (hn : 0 < n) (hfit : ((pos + n : Nat) : Int) ≤ h.numBytes)
    {numBytes : Int} (hclip : clip h.numBytes numBytes pos = n) :
    readAt disk h numBytes pos = .ok ((List.range n).map fun k => fileByte disk h (pos + k)) := by
  unfold readAt
  simp only [hclip, Int.toNat_natCast]
  rw [if_neg (by omega), if_neg (by push_cast at hfit; omega)]
  have hdata : ∀ i ∈ List.range' (pos / sectorSize)
      (1 + (pos + n - 1) / sectorSize - pos / sectorSize),
      (do
        let sector ← h.byteToSector ((i : Nat) * sectorSize)
        readSector disk sector) = Except.ok (disk (h.dataSector i).toNat) := by
    intro i hi
    have hlt := lt_numSectors_of_mem hv hn hfit hi
    rw [FileHeader.byteToSector_eq (hv.lt_numDirect hlt)]
    exact readSector_eq disk (hv.range i hlt).1 (hv.range i hlt).2
  rw [mapM_ok hdata]
  show Except.ok _ = _
  congr 1
  apply List.map_congr_left
  intro k hk
  rw [List.mem_range] at hk
  unfold fileByte
  have hindex : (pos - pos / sectorSize * sectorSize + k) / sectorSize <
      1 + (pos + n - 1) / sectorSize - pos / sectorSize := by
    unfold sectorSize
    omega
  have hsector : pos / sectorSize + (pos - pos / sectorSize * sectorSize + k) / sectorSize =
      (pos + k) / sectorSize := by
    unfold sectorSize
    omega
  have hoffset : (pos - pos / sectorSize * sectorSize + k) % sectorSize =
      (pos + k) % sectorSize := by
    unfold sectorSize
    omega
  simp only [List.getD_eq_getElem?_getD, List.getElem?_map, List.getElem?_range' hindex,
    Option.map_some, Option.getD_some, one_mul, hsector, hoffset]

/-- The bytes of one sector that belong to the file. -/
def oldSector (disk : Disk) (h : FileHeader) (i : Nat) : List Byte :=
  toList (fun k => fileByte disk h (i * sectorSize + k))
    (min sectorSize (h.numBytes.toNat - i * sectorSize))

/-- `ReadAt` of a whole sector, as `WriteAt` calls it. -/
theorem readAt_sector (hv : h.Valid) {i : Nat} (hi : ((i * sectorSize : Nat) : Int) < h.numBytes) :
    readAt disk h sectorSize (i * sectorSize : Nat) = .ok (oldSector disk h i) := by
  have hlen := hv.length
  have hdirect := hv.direct
  have hclip : clip h.numBytes sectorSize (i * sectorSize : Nat) =
      (min sectorSize (h.numBytes.toNat - i * sectorSize) : Nat) := by
    unfold clip
    unfold sectorSize numDirect at *
    rw [if_neg (by omega), s32_of_bounds (by omega) (by omega)]
    split <;> omega
  exact readAt_inside hv (by unfold sectorSize at *; omega) (by omega) hclip

/-- The buffer from which `WriteAt` writes the sectors. -/
def writeBuffer (disk : Disk) (h : FileHeader) (bytes : List Byte) (n pos : Nat) (junk : Image) :
    Image :=
  let firstSector := pos / sectorSize
  let lastSector := (pos + n - 1) / sectorSize
  let firstAligned : Bool := pos = firstSector * sectorSize
  let lastAligned : Bool := pos + n = (lastSector + 1) * sectorSize
  let buf := if !firstAligned then splice junk 0 (oldSector disk h firstSector) else junk
  let buf :=
    if !lastAligned && (firstSector != lastSector || firstAligned) then
      splice buf ((lastSector - firstSector) * sectorSize) (oldSector disk h lastSector)
    else buf
  splice buf (pos - firstSector * sectorSize) (bytes.take n)

/-- `WriteAt` of a request that lies inside the file writes the sectors of the request. -/
theorem writeAt_inside (hv : h.Valid) (hn : 0 < n) (hfit : ((pos + n : Nat) : Int) ≤ h.numBytes)
    {numBytes : Int} (hclip : clip h.numBytes numBytes pos = n) {bytes : List Byte}
    (hbytes : n ≤ bytes.length) (junk : Image) :
    writeAt disk h bytes numBytes pos junk =
      .ok ((List.range' (pos / sectorSize)
        (1 + (pos + n - 1) / sectorSize - pos / sectorSize)).foldl
          (fun disk' i => Function.update disk' (h.dataSector i).toNat fun k =>
            writeBuffer disk h bytes n pos junk ((i - pos / sectorSize) * sectorSize + k)) disk,
        (n : Int)) := by
  have hfirst : ((pos / sectorSize * sectorSize : Nat) : Int) < h.numBytes := by
    unfold sectorSize
    omega
  have hlast : (((pos + n - 1) / sectorSize * sectorSize : Nat) : Int) < h.numBytes := by
    unfold sectorSize
    omega
  unfold writeAt
  simp only [hclip, Int.toNat_natCast]
  rw [if_neg (by omega), if_neg (by push_cast at hfit; omega)]
  simp only [readAt_sector hv hfirst, readAt_sector hv hlast]
  have hloop : ∀ buf : Image,
      (do
        let disk ← (List.range' (pos / sectorSize)
            (1 + (pos + n - 1) / sectorSize - pos / sectorSize)).foldlM
          (fun disk (i : Nat) => do
            let sector ← h.byteToSector (i * sectorSize)
            writeSector disk sector fun k => buf ((i - pos / sectorSize) * sectorSize + k)) disk
        pure (disk, (n : Int)) : Except Fault (Disk × Int)) =
      .ok ((List.range' (pos / sectorSize)
        (1 + (pos + n - 1) / sectorSize - pos / sectorSize)).foldl
          (fun disk' i => Function.update disk' (h.dataSector i).toNat fun k =>
            buf ((i - pos / sectorSize) * sectorSize + k)) disk, (n : Int)) := by
    intro buf
    rw [foldlM_ok disk]
    · rfl
    · intro disk' i hi
      have hlt := lt_numSectors_of_mem hv hn hfit hi
      rw [FileHeader.byteToSector_eq (hv.lt_numDirect hlt)]
      exact writeSector_eq disk' _ (hv.range i hlt).1 (hv.range i hlt).2
  unfold writeBuffer
  split
  · split
    · exact hloop _
    · exact hloop _
  · split
    · exact hloop _
    · exact hloop _

theorem sector_add_offset {i k : Nat} (h : i ≤ k / sectorSize) :
    i * sectorSize + (k - i * sectorSize) = k := by
  unfold sectorSize at *
  omega

/-- What the buffer holds for each byte of the file that it covers. -/
theorem writeBuffer_eq (hn : 0 < n) {bytes : List Byte} (hbytes : n ≤ bytes.length) (junk : Image)
    {k : Nat} (hk : pos / sectorSize ≤ k / sectorSize)
    (hk' : k / sectorSize ≤ (pos + n - 1) / sectorSize) (hlen : (k : Int) < h.numBytes) :
    writeBuffer disk h bytes n pos junk (k - pos / sectorSize * sectorSize) =
      if pos ≤ k ∧ k < pos + n then bytes.getD (k - pos) 0 else fileByte disk h k := by
  have htake : (bytes.take n).length = n := by
    rw [List.length_take]
    omega
  unfold writeBuffer
  by_cases hmid : pos ≤ k ∧ k < pos + n
  · rw [if_pos hmid]
    unfold splice
    rw [if_pos (by rw [htake]; unfold sectorSize at *; omega)]
    have hindex : k - pos / sectorSize * sectorSize - (pos - pos / sectorSize * sectorSize) =
        k - pos := by
      unfold sectorSize
      omega
    rw [hindex, List.getD_eq_getElem?_getD, List.getElem?_take_of_lt (by omega),
      ← List.getD_eq_getElem?_getD]
  · rw [if_neg hmid, splice_of_not_mem (by rw [htake]; unfold sectorSize at *; omega)]
    unfold oldSector
    by_cases hlow : k < pos
    · -- before the request, in the first sector
      have hfirst : k / sectorSize = pos / sectorSize := by
        unfold sectorSize at *
        omega
      have hunaligned : pos ≠ pos / sectorSize * sectorSize := by
        unfold sectorSize at *
        omega
      have hoffset := sector_add_offset hk
      simp only [hunaligned, decide_false, Bool.not_false, if_true, Bool.or_false]
      split
      · rename_i hcond
        have hne : pos / sectorSize ≠ (pos + n - 1) / sectorSize := by
          intro heq
          simp [heq] at hcond
        rw [splice_toList, if_neg (by unfold sectorSize at *; omega), splice_toList,
          if_pos (by unfold sectorSize at *; omega), Nat.sub_zero, hoffset]
      · rw [splice_toList, if_pos (by unfold sectorSize at *; omega), Nat.sub_zero, hoffset]
    · -- after the request, in the last sector
      have hlast : k / sectorSize = (pos + n - 1) / sectorSize := by
        unfold sectorSize at *
        omega
      have hunaligned : pos + n ≠ ((pos + n - 1) / sectorSize + 1) * sectorSize := by
        unfold sectorSize at *
        omega
      have hoffset : (pos + n - 1) / sectorSize * sectorSize + (k - pos / sectorSize * sectorSize -
          ((pos + n - 1) / sectorSize - pos / sectorSize) * sectorSize) = k := by
        unfold sectorSize at *
        omega
      simp only [hunaligned, decide_false, Bool.not_false, Bool.true_and]
      split
      · rw [splice_toList, if_pos (by unfold sectorSize at *; omega), hoffset]
      · rename_i hcond
        simp only [Bool.or_eq_true, bne_iff_ne, ne_eq, decide_eq_true_eq, not_or, not_not] at hcond
        have hrange : 0 ≤ k - pos / sectorSize * sectorSize ∧ k - pos / sectorSize * sectorSize <
            0 + min sectorSize (h.numBytes.toNat - pos / sectorSize * sectorSize) := by
          rw [hcond.1, ← hlast]
          unfold sectorSize
          omega
        simp only [hcond.2, decide_false, Bool.not_false, if_true]
        rw [splice_toList, if_pos hrange, Nat.sub_zero, sector_add_offset hk]

/-- `WriteAt` of a request that lies inside the file changes exactly the bytes of the request,
and no sector that is not the file's. -/
theorem writeAt_spec (hv : h.Valid) (hn : 0 < n) (hfit : ((pos + n : Nat) : Int) ≤ h.numBytes)
    {numBytes : Int} (hclip : clip h.numBytes numBytes pos = n) {bytes : List Byte}
    (hbytes : n ≤ bytes.length) (junk : Image) :
    ∃ disk', writeAt disk h bytes numBytes pos junk = .ok (disk', (n : Int)) ∧
      (∀ x, x ∉ h.sectors → disk' x = disk x) ∧
      ∀ k : Nat, (k : Int) < h.numBytes → fileByte disk' h k =
        if pos ≤ k ∧ k < pos + n then bytes.getD (k - pos) 0 else fileByte disk h k := by
  have hinj : ∀ i ∈ List.range' (pos / sectorSize)
      (1 + (pos + n - 1) / sectorSize - pos / sectorSize),
      ∀ j ∈ List.range' (pos / sectorSize) (1 + (pos + n - 1) / sectorSize - pos / sectorSize),
      (h.dataSector i).toNat = (h.dataSector j).toNat → i = j := fun i hi j hj =>
    hv.dataSector_injective (lt_numSectors_of_mem hv hn hfit hi)
      (lt_numSectors_of_mem hv hn hfit hj)
  have hwrites := foldl_update (fun i k =>
    writeBuffer disk h bytes n pos junk ((i - pos / sectorSize) * sectorSize + k)) disk hinj
    List.nodup_range'
  refine ⟨_, writeAt_inside hv hn hfit hclip hbytes junk, ?_, ?_⟩
  · intro x hx
    rcases hwrites x with ⟨-, heq⟩ | ⟨i, hi, hix, -⟩
    · exact heq
    · exact absurd (FileHeader.mem_sectors.mpr ⟨i, lt_numSectors_of_mem hv hn hfit hi, hix⟩) hx
  · intro k hk
    have hlt := hv.div_lt hk
    unfold fileByte
    rcases hwrites (h.dataSector (k / sectorSize)).toNat with ⟨hno, heq⟩ | ⟨i, hi, hix, heq⟩
    · rw [heq, if_neg]
      intro hmid
      apply hno (k / sectorSize) _ rfl
      rw [List.mem_range'_1]
      unfold sectorSize
      omega
    · have hik : i = k / sectorSize :=
        hv.dataSector_injective (lt_numSectors_of_mem hv hn hfit hi) hlt hix
      subst hik
      rw [List.mem_range'_1] at hi
      have hindex : (k / sectorSize - pos / sectorSize) * sectorSize + k % sectorSize =
          k - pos / sectorSize * sectorSize := by
        unfold sectorSize at *
        omega
      rw [heq]
      simp only [hindex]
      exact writeBuffer_eq hn hbytes junk hi.1 (by omega) hk

/-- `ReadAt` of a request for nothing. -/
theorem readAt_nothing {numBytes position : Int} (hzero : clip h.numBytes numBytes position = 0) :
    readAt disk h numBytes position = .ok [] := by
  unfold readAt
  rw [if_pos hzero]

/-- `WriteAt` of a request for nothing. -/
theorem writeAt_nothing {numBytes position : Int} (hzero : clip h.numBytes numBytes position = 0)
    (bytes : List Byte) (junk : Image) :
    writeAt disk h bytes numBytes position junk = .ok (disk, 0) := by
  unfold writeAt
  rw [if_pos hzero]

/-- Any request to `ReadAt`: it is served, or it indexes out of bounds. -/
theorem readAt_cases (hv : h.Valid) (numBytes position : Int) :
    (∃ bytes, readAt disk h numBytes position = .ok bytes) ∨
      readAt disk h numBytes position = .error .outOfBounds := by
  by_cases hzero : clip h.numBytes numBytes position = 0
  · exact Or.inl ⟨[], readAt_nothing hzero⟩
  by_cases hout : position < 0 ∨ h.numBytes < position + clip h.numBytes numBytes position
  · right
    unfold readAt
    simp only [if_neg hzero, if_pos hout]
  have hpos := clip_nonneg h.numBytes numBytes position
  obtain ⟨n, hn⟩ := Int.eq_ofNat_of_zero_le hpos
  obtain ⟨pos, rfl⟩ := Int.eq_ofNat_of_zero_le (show 0 ≤ position by omega)
  exact Or.inl ⟨_, readAt_inside hv (by omega) (by omega) hn⟩

/-- Any request to `WriteAt`: nothing is written, or it indexes out of bounds, or only sectors
of the file change. -/
theorem writeAt_cases (hv : h.Valid) (bytes : List Byte) (numBytes position : Int) (junk : Image) :
    (∃ disk' result, writeAt disk h bytes numBytes position junk = .ok (disk', result) ∧
      ∀ x, x ∉ h.sectors → disk' x = disk x) ∨
      writeAt disk h bytes numBytes position junk = .error .outOfBounds := by
  by_cases hzero : clip h.numBytes numBytes position = 0
  · exact Or.inl ⟨disk, 0, writeAt_nothing hzero bytes junk, fun _ _ => rfl⟩
  by_cases hout : position < 0 ∨ h.numBytes < position + clip h.numBytes numBytes position ∨
      bytes.length < clip h.numBytes numBytes position
  · right
    unfold writeAt
    simp only [if_neg hzero, if_pos hout]
  have hpos := clip_nonneg h.numBytes numBytes position
  obtain ⟨n, hn⟩ := Int.eq_ofNat_of_zero_le hpos
  obtain ⟨pos, rfl⟩ := Int.eq_ofNat_of_zero_le (show 0 ≤ position by omega)
  have hbytes : n ≤ bytes.length := by omega
  obtain ⟨disk', hwrite, hframe, -⟩ := writeAt_spec hv (by omega) (by omega) hn hbytes junk
  exact Or.inl ⟨disk', n, hwrite, hframe⟩

/-- What a request transfers. -/
theorem clip_eq_max {numBytes position : Int} (hpos : 0 ≤ position)
    (hend : position + numBytes < 2 ^ 31) :
    clip h.numBytes numBytes position = max 0 (min numBytes (h.numBytes - position)) := by
  unfold clip
  by_cases hnone : numBytes ≤ 0 ∨ position ≥ h.numBytes
  · rw [if_pos hnone]
    omega
  · rw [if_neg hnone, s32_of_bounds (by omega) hend]
    split <;> omega

/-- `WriteAt` and `ReadAt` on the array of bytes that a file is: the number of bytes transferred,
what is written and what is left alone, and what is read. -/
theorem transfers (disk : Disk) (hv : h.Valid) {numBytes position : Int} (hpos : 0 ≤ position)
    (hend : position + numBytes < 2 ^ 31) {bytes : List Byte} (hbytes : numBytes ≤ bytes.length)
    (junk : Image) :
    let n := max 0 (min numBytes (h.numBytes - position))
    (∃ disk', writeAt disk h bytes numBytes position junk = .ok (disk', n) ∧
      (∀ x, x ∉ h.sectors → disk' x = disk x) ∧
      ∀ k : Nat, (k : Int) < h.numBytes → fileByte disk' h k =
        if position ≤ k ∧ k < position + n then bytes.getD (k - position).toNat 0
        else fileByte disk h k) ∧
    ∃ into, readAt disk h numBytes position = .ok into ∧ (into.length : Int) = n ∧
      ∀ k : Nat, (k : Int) < n → into.getD k 0 = fileByte disk h (position.toNat + k) := by
  intro n
  have hclip : clip h.numBytes numBytes position = n := clip_eq_max hpos hend
  have hn : 0 ≤ n := Int.le_max_left ..
  clear_value n
  obtain ⟨pos, rfl⟩ := Int.eq_ofNat_of_zero_le hpos
  obtain ⟨n, rfl⟩ := Int.eq_ofNat_of_zero_le hn
  rcases Nat.eq_zero_or_pos n with rfl | hn
  · -- nothing is transferred
    refine ⟨⟨disk, ?_, fun _ _ => rfl, fun k _ => ?_⟩, [], ?_, rfl, fun k hk => ?_⟩
    · exact writeAt_nothing hclip bytes junk
    · rw [if_neg (by omega)]
    · exact readAt_nothing hclip
    · omega
  · have hbounds := clip_eq_max (h := h) hpos hend
    rw [hclip] at hbounds
    have hfit : ((pos + n : Nat) : Int) ≤ h.numBytes := by
      push_cast
      omega
    obtain ⟨disk', hwrite, hother, hsame⟩ :=
      writeAt_spec hv hn hfit hclip (show n ≤ bytes.length by omega) junk
    refine ⟨⟨disk', hwrite, hother, fun k hk => ?_⟩, _, readAt_inside hv hn hfit hclip, ?_, ?_⟩
    · rw [hsame k hk]
      by_cases hin : pos ≤ k ∧ k < pos + n
      · rw [if_pos hin, if_pos (by omega), show ((k : Int) - (pos : Int)).toNat = k - pos by omega]
      · rw [if_neg hin, if_neg (by omega)]
    · rw [List.length_map, List.length_range]
    · intro k hk
      have hk' : k < n := by omega
      rw [List.getD_eq_getElem?_getD, List.getElem?_map, List.getElem?_range hk', Option.map_some,
        Option.getD_some, Int.toNat_natCast]

end Transfer

/-- The header of a file of three bytes in the sector 5. -/
def threeBytes : FileHeader :=
  let h : FileHeader := fun _ => 0
  ((h.setNumBytes 3).setNumSectors 1).setDataSector 0 (5 : Nat)

theorem valid_threeBytes : threeBytes.Valid ∧ threeBytes.numBytes = 3 := by
  have hbytes : threeBytes.numBytes = 3 := by
    rw [threeBytes, FileHeader.numBytes_setDataSector, FileHeader.numBytes_setNumSectors,
      FileHeader.numBytes_setNumBytes (by omega) (by omega)]
  have hsectors : threeBytes.numSectors = 1 := by
    rw [threeBytes, FileHeader.numSectors_setDataSector,
      FileHeader.numSectors_setNumSectors (by omega) (by omega)]
  have hdata : threeBytes.dataSector 0 = 5 :=
    FileHeader.dataSector_setDataSector 0 (x := 5) (by decide)
  refine ⟨⟨?_, ?_, ?_, ?_, ?_⟩, hbytes⟩
  · rw [hsectors]
    decide
  · rw [hsectors]
    decide
  · rw [hbytes, hsectors]
    decide
  · intro i hi
    rw [hsectors] at hi
    obtain rfl : i = 0 := by omega
    rw [hdata]
    decide
  · rw [FileHeader.sectors, hsectors]
    exact List.nodup_singleton _

/-- Two bytes, behind the first one of a file of three bytes. -/
theorem transfers_threeBytes :
    ∃ disk' : Disk, writeAt (fun _ _ => 0) threeBytes [7, 8] 2 1 (fun _ => 9) = .ok (disk', 2) ∧
      fileByte disk' threeBytes 0 = 0 ∧ fileByte disk' threeBytes 1 = 7 ∧
      fileByte disk' threeBytes 2 = 8 := by
  obtain ⟨hv, hlen⟩ := valid_threeBytes
  obtain ⟨⟨disk', hwrite, -, hbytes⟩, -⟩ := @transfers threeBytes (fun _ _ => 0) hv 2 1
    (by omega) (by omega) [7, 8] (by decide) (fun _ => 9)
  rw [hlen] at hwrite hbytes
  exact ⟨disk', hwrite, hbytes 0 (by decide), hbytes 1 (by decide), hbytes 2 (by decide)⟩

end Nachos.Filesys
