import Nachos.Filesys.Layout

/-!
# A bitmap is a set

Runs of `Mark`, `Clear`, `Find` and `FindFreeSlot` on a bitmap, from its constructor, which gets
uninitialised memory and clears the bits one by one. Beside the words the state has a log of what
was marked, found and cleared. `lastMarked` is the set that the log describes.

`bitMap_refines_set`: in every state of every run `Test` is membership in this set, `Find` and
`FindFreeSlot` allocate its least missing element, `NumClear` counts the missing elements, and a
bitmap that is written to a file and read back is the same set.
-/

namespace Nachos.BitMap

open Runs Bytes Filesys

/-! ### The operations -/

/-- `BitMap::BitMap` with memory that holds `memory`. -/
def construct (nitems : Nat) (memory : Nat → BitVec 32) : BitMap :=
  (List.range nitems).foldl clear
    { numBits := nitems
      map := (List.range (divRoundUp nitems 32)).map memory
      length_map := by rw [List.length_map, List.length_range] }

/-- `BitMap::Mark`; `none` is a failed `ASSERT`. -/
def mark? (b : BitMap) (which : Int) : Option BitMap :=
  if b.inRange which then some (b.mark which.toNat) else none

/-- Calls of `Find`, one after the other: the results, and the bitmap. -/
def finds : Nat → BitMap → List (Option Nat) × BitMap
  | 0, b => ([], b)
  | k + 1, b => (b.find.1 :: (finds k b.find.2).1, (finds k b.find.2).2)

inductive Op
  | mark (which : Int)
  | clear (which : Int)
  | find
  | findFreeSlot

/-- A bitmap with its log, the newest entry first: an index, and whether it was marked. -/
structure Logged where
  map : BitMap
  log : List (Nat × Bool)

/-- A found index was marked. -/
def found (log : List (Nat × Bool)) (result : Option Nat × BitMap) : Logged where
  map := result.2
  log := (result.1.map fun i => (i, true)).toList ++ log

def step (s : Logged) : Op → Option Logged
  | .mark which => (s.map.mark? which).map fun b => ⟨b, (which.toNat, true) :: s.log⟩
  | .clear which => (s.map.clear? which).map fun b => ⟨b, (which.toNat, false) :: s.log⟩
  | .find => some (found s.log s.map.find)
  | .findFreeSlot => some (found s.log s.map.findFreeSlot)

/-- Whether the newest entry for an index marks it. -/
def lastMarked : List (Nat × Bool) → Nat → Bool
  | [], _ => false
  | (j, marked) :: log, i => if i = j then marked else lastMarked log i

/-! ### The set of the log -/

theorem foldl_clear (l : List Nat) {b : BitMap} (hl : ∀ i ∈ l, i < b.numBits) :
    (l.foldl clear b).numBits = b.numBits ∧
      ∀ j, (l.foldl clear b).test j = (!decide (j ∈ l) && b.test j) := by
  induction l generalizing b with
  | nil => exact ⟨rfl, fun j => by simp⟩
  | cons a l ih =>
    have ha := hl a List.mem_cons_self
    obtain ⟨hbits, htest⟩ := ih (b := b.clear a) fun i hi => hl i (List.mem_cons_of_mem a hi)
    refine ⟨hbits, fun j => ?_⟩
    rw [List.foldl_cons, htest j, test_clear b ha]
    by_cases hj : j = a
    · simp [hj]
    · simp [hj]

/-- The constructor leaves no index marked. -/
theorem construct_spec (nitems : Nat) (memory : Nat → BitVec 32) :
    (construct nitems memory).numBits = nitems ∧
      ∀ i < nitems, (construct nitems memory).test i = false := by
  let raw : BitMap :=
    { numBits := nitems
      map := (List.range (divRoundUp nitems 32)).map memory
      length_map := by rw [List.length_map, List.length_range] }
  have hrange : ∀ i ∈ List.range nitems, i < raw.numBits := fun i hi => List.mem_range.mp hi
  obtain ⟨hbits, htest⟩ := foldl_clear (List.range nitems) hrange
  refine ⟨hbits, fun i hi => ?_⟩
  have htest' : (construct nitems memory).test i = (!decide (i ∈ List.range nitems) && raw.test i) :=
    htest i
  rw [htest']
  simp [hi]

/-- The bitmap is the set of its log. -/
structure IsSet (nitems : Nat) (s : Logged) : Prop where
  numBits : s.map.numBits = nitems
  test : ∀ i < nitems, s.map.test i = lastMarked s.log i

variable {nitems : Nat} {s s' : Logged} {b : BitMap}

theorem lt_of_inRange {which : Int} (h : b.inRange which = true) : which.toNat < b.numBits := by
  have hbounds : 0 ≤ which ∧ which < b.numBits := of_decide_eq_true h
  omega

theorem IsSet.mark (hs : IsSet nitems s) {j : Nat} (hj : j < nitems) :
    IsSet nitems ⟨s.map.mark j, (j, true) :: s.log⟩ := by
  refine ⟨hs.numBits, fun i hi => ?_⟩
  rw [test_mark s.map (hs.numBits.symm ▸ hj), hs.test i hi, lastMarked]
  by_cases hij : i = j
  · simp [hij]
  · simp [hij]

theorem IsSet.clear (hs : IsSet nitems s) {j : Nat} (hj : j < nitems) :
    IsSet nitems ⟨s.map.clear j, (j, false) :: s.log⟩ := by
  refine ⟨hs.numBits, fun i hi => ?_⟩
  rw [test_clear s.map (hs.numBits.symm ▸ hj), hs.test i hi, lastMarked]
  by_cases hij : i = j
  · simp [hij]
  · simp [hij]

theorem IsSet.find (hs : IsSet nitems s) : IsSet nitems (found s.log s.map.find) := by
  rcases s.map.find_cases with ⟨i, hi, -, hfind⟩ | ⟨-, hfind⟩
  · rw [hfind]
    exact hs.mark (hs.numBits ▸ hi)
  · rw [hfind]
    exact hs

theorem IsSet.step (hs : IsSet nitems s) {op : Op} (h : step s op = some s') : IsSet nitems s' := by
  cases op with
  | mark which =>
    obtain ⟨b, hb, rfl⟩ := Option.map_eq_some_iff.mp h
    simp only [mark?] at hb
    split_ifs at hb with hrange
    cases hb
    exact hs.mark (hs.numBits ▸ lt_of_inRange hrange)
  | clear which =>
    obtain ⟨b, hb, rfl⟩ := Option.map_eq_some_iff.mp h
    simp only [clear?] at hb
    split_ifs at hb with hrange
    cases hb
    exact hs.clear (hs.numBits ▸ lt_of_inRange hrange)
  | find =>
    cases h
    exact hs.find
  | findFreeSlot =>
    cases h
    rw [findFreeSlot_eq_find]
    exact hs.find

/-! ### Allocation and counting -/

/-- First-fit allocation, and the count on which the allocators rely. -/
structure FirstFit (b : BitMap) : Prop where
  agree : b.findFreeSlot = b.find
  least : ∀ i b', b.find = (some i, b') → i < b.numBits ∧ b.test i = false ∧
    (∀ j < i, b.test j = true) ∧ (∀ j, b'.test j = (decide (j = i) || b.test j)) ∧
    b'.numBits = b.numBits ∧ b'.numClear + 1 = b.numClear
  unchanged : ∀ b', b.find = (none, b') → b' = b
  fails_iff : b.find.1 = none ↔ b.numClear = 0
  counts : b.numClear = ((Finset.range b.numBits).filter fun i => b.test i = false).card
  distinct : ∀ k ≤ b.numClear, ∃ l : List Nat, (finds k b).1 = l.map some ∧ l.length = k ∧
    l.Nodup ∧ ∀ i ∈ l, i < b.numBits ∧ b.test i = false

theorem numClear_eq_card (b : BitMap) :
    b.numClear = ((Finset.range b.numBits).filter fun i => b.test i = false).card := by
  unfold numClear
  rw [List.countP_eq_length_filter, Finset.card_def, Finset.filter_val, Finset.range_val,
    ← Multiset.coe_range, Multiset.filter_coe, Multiset.coe_card]
  refine congrArg _ (List.filter_congr fun i _ => ?_)
  simp

/-- The loop of the allocators makes the same calls. -/
theorem finds_of_allocFrames {b' : BitMap} {k : Nat} {l : List Nat}
    (h : allocFrames b k = (some l, b')) : finds k b = (l.map some, b') := by
  induction k generalizing b l with
  | zero =>
    obtain ⟨rfl, rfl⟩ : [] = l ∧ b = b' := by simpa [allocFrames] using h
    rfl
  | succ k ih =>
    rcases b.find_cases with ⟨i, -, -, hfind⟩ | ⟨-, hfind⟩
    · cases hrest : allocFrames (b.mark i) k with
      | mk result b'' =>
        cases result with
        | none => simp [allocFrames, hfind, hrest] at h
        | some l' =>
          obtain ⟨rfl, rfl⟩ : i :: l' = l ∧ b'' = b' := by simpa [allocFrames, hfind, hrest] using h
          rw [finds, hfind]
          dsimp only
          rw [ih hrest]
          rfl
    · simp [allocFrames, hfind] at h

theorem firstFit (b : BitMap) : FirstFit b where
  agree := findFreeSlot_eq_find b
  least := by
    intro i b' hfind
    cases hfirst : b.firstClear with
    | none =>
      rw [BitMap.find, hfirst] at hfind
      cases hfind
    | some j =>
      obtain ⟨hj, hclear, hleast⟩ := firstClear_some hfirst
      rw [BitMap.find, hfirst] at hfind
      cases hfind
      exact ⟨hj, hclear, hleast, test_mark b hj, rfl, numClear_mark hj hclear⟩
  unchanged := by
    intro b' hfind
    rcases b.find_cases with ⟨i, -, -, hfound⟩ | ⟨-, hnone⟩
    · rw [hfound] at hfind
      cases hfind
    · rw [hnone] at hfind
      cases hfind
      rfl
  fails_iff := by
    constructor
    · intro hnone
      by_contra hpos
      obtain ⟨f, -, -, hfind⟩ := find_of_numClear_pos (Nat.pos_of_ne_zero hpos)
      rw [hfind] at hnone
      cases hnone
    · intro hzero
      rcases b.find_cases with ⟨i, hi, hclear, -⟩ | ⟨-, hfind⟩
      · have hcount := numClear_mark hi hclear
        omega
      · rw [hfind]
  counts := numClear_eq_card b
  distinct := by
    intro k hk
    obtain ⟨l, b', halloc⟩ := allocFrames_of_le hk
    obtain ⟨hallocated, hlength⟩ := allocFrames_some halloc
    refine ⟨l, ?_, hlength, hallocated.nodup, fun i hi =>
      ⟨hallocated.range i hi, hallocated.clear i hi⟩⟩
    rw [finds_of_allocFrames halloc]

/-! ### Files -/

/-- `WriteBack` to a file that has room for the words, and `FetchFrom` into a bitmap of the same
size. -/
def Restored (b : BitMap) : Prop :=
  ∀ (disk : Disk) (file : OpenFile) (buf : Image) (receiver : BitMap), file.hdr.Valid →
    (b.map.length * 4 : Nat) ≤ file.hdr.numBytes → receiver.numBits = b.numBits →
    ∃ disk' b', b.writeBack disk file buf = .ok disk' ∧ receiver.fetchFrom disk' file = .ok b' ∧
      b'.numBits = b.numBits ∧ ∀ i < b.numBits, b'.test i = b.test i

/-- Files of no bytes are neither read nor written. -/
theorem restored_of_nil {b : BitMap} (hnil : b.map.length = 0) : Restored b := by
  intro disk file buf receiver _ _ hbits
  have hreceiver : receiver.map.length * 4 = 0 := by
    rw [receiver.length_map, hbits, ← b.length_map, hnil]
  have hzero : clip file.hdr.numBytes (0 : Nat) 0 = 0 := if_pos (Or.inl (Int.le_refl 0))
  have hnone : b.numBits = 0 := by
    have hge := divRoundUp_mul_ge (n := b.numBits) (s := 32) (by decide)
    rw [← b.length_map, hnil] at hge
    omega
  refine ⟨disk, ofImage receiver.numBits (splice receiver.toImage 0 []), ?_, ?_, hbits,
    fun i hi => absurd hi (by omega)⟩
  · unfold BitMap.writeBack storeFrom
    rw [hnil, Nat.zero_mul, writeAt_nothing hzero]
    rfl
  · unfold BitMap.fetchFrom fetchInto
    rw [hreceiver, readAt_nothing hzero]
    rfl

theorem restored (b : BitMap) : Restored b := by
  by_cases hnil : b.map.length = 0
  · exact restored_of_nil hnil
  intro disk file buf receiver hv hroom hbits
  have hwords : receiver.map.length = b.map.length := by
    rw [receiver.length_map, b.length_map, hbits]
  obtain ⟨disk', hwrite, -, hdata⟩ := storeFrom_spec hv (by omega) hroom b.toImage buf
  obtain ⟨image, hfetch, himage⟩ :
      ∃ image, fetchInto receiver.toImage disk' file (b.map.length * 4) = .ok image ∧ _ :=
    fetchInto_spec hv (by omega) hroom receiver.toImage
  have hsame : ofImage receiver.numBits image = b := by
    rw [hbits, ← b.ofImage_toImage]
    apply ofImage_congr
    intro k hk
    have hk' : k < b.map.length * 4 := by rwa [b.length_map]
    rw [himage k hk', hdata k hk']
  refine ⟨disk', b, hwrite, ?_, rfl, fun i _ => rfl⟩
  unfold BitMap.fetchFrom
  rw [hwords, hfetch, ← hsame]
  rfl

/-! ### Every run -/

/-- In every state of every run the bitmap is the set that was marked and found and not cleared
since, allocates by first fit, and is restored from a file. -/
theorem bitMap_refines_set (nitems : Nat) (memory : Nat → BitVec 32) (ops : List Op) :
    AllStates step (fun s => (s.map.numBits = nitems ∧
      ∀ i < nitems, s.map.test i = lastMarked s.log i) ∧ FirstFit s.map ∧ Restored s.map)
      ⟨construct nitems memory, []⟩ ops := by
  obtain ⟨hbits, htest⟩ := construct_spec nitems memory
  have hstart : IsSet nitems ⟨construct nitems memory, []⟩ := ⟨hbits, htest⟩
  have hset : AllStates step (IsSet nitems) ⟨construct nitems memory, []⟩ ops :=
    allStates_of_invariant (fun s op s' hs h => hs.step h) hstart ops
  exact hset.mono fun s hs => ⟨⟨hs.numBits, hs.test⟩, firstFit s.map, restored s.map⟩

end Nachos.BitMap
