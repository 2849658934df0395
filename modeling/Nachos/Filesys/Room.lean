import Nachos.Filesys.DiskOwnership

/-!
# When `Create` succeeds

`Create` returns FALSE for a name that is in the directory, for a full directory and for a full
disk (`Refused`). `Room` bounds the names and the sectors in use, so that it excludes all three;
`room_fileSystem` gives the bounds after `FileSystem(TRUE)`, which has created two small files.
-/

namespace Nachos

open Bytes

/-- A bitmap is determined by its bits. -/
theorem BitMap.ext_test {b b' : BitMap} (hn : b.numBits = b'.numBits)
    (h : ∀ i, b.test i = b'.test i) : b = b' := by
  obtain ⟨n, map, hlen⟩ := b
  obtain ⟨n', map', hlen'⟩ := b'
  obtain rfl : n = n' := hn
  have hmap : map = map' := by
    apply List.ext_getElem (hlen.trans hlen'.symm)
    intro i hi hi'
    apply BitVec.eq_of_getLsbD_eq
    intro j hj
    have hbit := h (32 * i + j)
    rw [test_eq, test_eq, show (32 * i + j) / 32 = i by omega,
      show (32 * i + j) % 32 = j by omega] at hbit
    simpa [List.getD_eq_getElem?_getD, List.getElem?_eq_getElem hi,
      List.getElem?_eq_getElem hi'] using hbit
  subst hmap
  rfl

namespace Filesys

/-- How many indices have one of two properties. -/
theorem countP_or_le (p q : Nat → Bool) (l : List Nat) :
    l.countP (fun i => p i || q i) ≤ l.countP p + l.countP q := by
  induction l with
  | nil => exact Nat.le_refl _
  | cons a l ih =>
    simp only [List.countP_cons]
    cases hp : p a <;> cases hq : q a <;> simp <;> omega

/-- At most the sectors of the new file are marked in addition. -/
theorem Added.numMarked_le {disk disk' : Disk} {name : Image} {e x : Nat} {hdr : FileHeader}
    (ha : Added disk name e x hdr disk') :
    (freeMapOn disk').numMarked ≤ (freeMapOn disk).numMarked + (1 + hdr.sectors.length) := by
  have htest : (freeMapOn disk').test =
      fun y => (freeMapOn disk).test y || decide (y ∈ x :: hdr.sectors) := by
    ext1 y
    rw [Bool.eq_iff_iff, Bool.or_eq_true, decide_eq_true_iff]
    exact ha.marked y
  have hnew : (List.range numSectors).countP (fun y => decide (y ∈ x :: hdr.sectors)) ≤
      (x :: hdr.sectors).length := by
    rw [List.countP_eq_length_filter]
    refine (List.subperm_of_subset (List.nodup_range.filter _) fun y hy => ?_).length_le
    exact of_decide_eq_true (List.mem_filter.mp hy).2
  have hor := countP_or_le (freeMapOn disk).test (fun y => decide (y ∈ x :: hdr.sectors))
    (List.range numSectors)
  have hnumMarked : (freeMapOn disk').numMarked = (List.range numSectors).countP
      fun y => (freeMapOn disk).test y || decide (y ∈ x :: hdr.sectors) := by
    rw [← htest]
    rfl
  rw [hnumMarked]
  rw [List.length_cons] at hnew
  have hold : (freeMapOn disk).numMarked = (List.range numSectors).countP (freeMapOn disk).test := rfl
  omega

/-- The names in the directory are among `names`, and at most `m` sectors are in use. -/
structure Room (disk : Disk) (names : List (List Byte)) (m : Nat) : Prop where
  names : ∀ i < numDirEntries, ((directoryOn disk).entry i).inUse = true →
    ((directoryOn disk).entry i).name ∈ names
  marked : (freeMapOn disk).numMarked ≤ m

section Room

variable {s : State} {names : List (List Byte)} {m : Nat} {name : Image} {initialSize : Int}

theorem one_sector (hsize : initialSize ≤ sectorSize) :
    divRoundUp initialSize.toNat sectorSize ≤ 1 := by
  apply divRoundUp_le (by decide)
  omega

theorem Added.room {disk disk' : Disk} {e x : Nat} {hdr : FileHeader} (h : Room disk names m)
    (ha : Added disk name e x hdr disk') (hlen : hdr.sectors.length ≤ 1) :
    Room disk' (compared name :: names) (m + 2) := by
  refine ⟨fun i hi hui => ?_, ?_⟩
  · rw [ha.entries i hi] at hui ⊢
    by_cases hie : i = e
    · rw [if_pos hie]
      exact List.mem_cons_self
    · rw [if_neg hie] at hui ⊢
      exact List.mem_cons_of_mem _ (h.names i hi hui)
  · have hmarked := ha.numMarked_le
    have hold := h.marked
    omega

/-- A file of at most one sector is created, or it is not. -/
theorem Room.create (h : Room s.disk names m) (hinv : Inv s) (name : Image) (h0 : 0 ≤ initialSize)
    (hsize : initialSize ≤ sectorSize) (garbage : Garbage) :
    ∃ disk' r, s.create name initialSize garbage = .ok (disk', r) ∧ Inv { s with disk := disk' } ∧
      Room disk' (compared name :: names) (m + 2) := by
  have hmax : initialSize ≤ maxFileSize := by
    unfold maxFileSize numDirect
    omega
  obtain ⟨disk', r, hcreate, hinv'⟩ := hinv.create name h0 hmax garbage
  refine ⟨disk', r, hcreate, hinv', ?_⟩
  rcases hinv.mounted.create_cases name h0 hmax garbage with
    ⟨hfalse, -⟩ | ⟨e, x, hdr, disk₁, htrue, hchosen, ha⟩
  · rw [hcreate] at hfalse
    cases hfalse
    refine ⟨fun i hi hui => List.mem_cons_of_mem _ (h.names i hi hui), ?_⟩
    have hold := h.marked
    omega
  · rw [hcreate] at htrue
    cases htrue
    refine ha.room h ?_
    rw [hchosen.length]
    exact one_sector hsize

/-- With room for the file there is no reason to return FALSE. -/
theorem Room.not_refused {disk : Disk} (h : Room disk names m) (hc : Consistent disk)
    (hname : compared name ∉ names) (hentries : names.length < numDirEntries)
    (hspace : m + (1 + divRoundUp initialSize.toNat sectorSize) ≤ numSectors) :
    ¬ Refused disk name initialSize := by
  intro hrefused
  cases hrefused with
  | named i hi hui hnamed => exact hname (hnamed ▸ h.names i hi hui)
  | entries hall =>
    -- ten entries with different names
    have hnodup : ((List.range numDirEntries).map fun i => ((directoryOn disk).entry i).name).Nodup := by
      refine List.Nodup.map_on ?_ List.nodup_range
      intro i hi j hj heq
      rw [List.mem_range] at hi hj
      exact hc.names i hi j hj (hall i hi) (hall j hj) heq
    have hsub : (List.range numDirEntries).map (fun i => ((directoryOn disk).entry i).name) ⊆ names := by
      intro y hy
      obtain ⟨i, hi, rfl⟩ := List.mem_map.mp hy
      rw [List.mem_range] at hi
      exact h.names i hi (hall i hi)
    have hle := (List.subperm_of_subset hnodup hsub).length_le
    rw [List.length_map, List.length_range] at hle
    omega
  | space hclear =>
    have hcount := (freeMapOn disk).numMarked_add_numClear
    have hbits : (freeMapOn disk).numBits = numSectors := rfl
    have hmarked := h.marked
    omega

/-- With room for it, a file of at most one sector is created. -/
theorem Room.creates (h : Room s.disk names m) (hm : Mounted s) (h0 : 0 ≤ initialSize)
    (hsize : initialSize ≤ sectorSize) (garbage : Garbage) (hname : compared name ∉ names)
    (hentries : names.length < numDirEntries) (hspace : m + 2 ≤ numSectors) :
    ∃ e x hdr disk', s.create name initialSize garbage = .ok (disk', true) ∧
      Chosen s.disk initialSize garbage.header x hdr ∧ Added s.disk name e x hdr disk' := by
  have hmax : initialSize ≤ maxFileSize := by
    unfold maxFileSize numDirect
    omega
  have hone := one_sector hsize
  rcases hm.create_cases name h0 hmax garbage with ⟨-, hrefused⟩ | hmade
  · exact absurd hrefused (h.not_refused hm.consistent hname hentries (by omega))
  · exact hmade

end Room

/-- A disk that was just formatted has no files. -/
theorem room_format (disk : Disk) (mapHdr dirHdr : Image) (garbage : Garbage) :
    ∃ s, format disk mapHdr dirHdr garbage = .ok s ∧ Inv s ∧ s.stopped = none ∧
      Room s.disk [] 4 := by
  obtain ⟨s, hformat, hm, hhandles, hstopped, hempty, hmarked⟩ :=
    format_empty disk mapHdr dirHdr garbage
  refine ⟨s, hformat, ⟨hm, fun h hh => ?_, by simp [hstopped]⟩, hstopped, fun i hi hui => ?_,
    Nat.le_of_eq hmarked⟩
  · rw [hhandles] at hh
    cases hh
  · rw [hempty i hi] at hui
    cases hui

/-- After `FileSystem(TRUE)`. -/
theorem room_fileSystem (disk : Disk) (mapHdr dirHdr : Image) (garbage : Nat → Garbage) :
    ∃ s, fileSystem disk mapHdr dirHdr garbage = .ok s ∧ Inv s ∧ s.stopped = none ∧
      Room s.disk [compared (literal "stdout"), compared (literal "stdin")] 8 := by
  obtain ⟨s, hstart, hinv⟩ := fileSystem_spec disk mapHdr dirHdr garbage
  refine ⟨s, hstart, hinv, ?_⟩
  obtain ⟨s₀, hformat, hinv₀, hstopped, hroom⟩ := room_format disk mapHdr dirHdr (garbage 0)
  obtain ⟨disk₁, r₁, hcreate₁, hinv₁, hroom₁⟩ := hroom.create hinv₀ (literal "stdin")
    (show (0 : Int) ≤ 2 by decide) (by decide) (garbage 1)
  obtain ⟨disk₂, r₂, hcreate₂, hinv₂, hroom₂⟩ := hroom₁.create hinv₁ (literal "stdout")
    (show (0 : Int) ≤ 3 by decide) (by decide) (garbage 2)
  obtain ⟨stdin, hstdin, -⟩ := hinv₂.mounted.openFile_alive (literal "stdin") (garbage 3)
  obtain ⟨stdout, hstdout, -⟩ := hinv₂.mounted.openFile_alive (literal "stdout") (garbage 4)
  unfold fileSystem at hstart
  simp only [hformat, ok_bind, hcreate₁, hcreate₂, hstdin, hstdout] at hstart
  obtain rfl := Except.ok.inj hstart
  exact ⟨hstopped, hroom₂⟩

end Filesys

end Nachos
