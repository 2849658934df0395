import Mathlib.Data.List.Basic
import Mathlib.Data.Finset.Card

/-!
# Bitmaps

`BitMap` of `userprog/bitmap.cc`: an array of 32-bit words, one bit per item. The operations
are written on the words as the source has them; everything else in the development uses
them through `test_mark`, `test_clear` and the specification of `find`.

The constructor clears the bits `0, …, nitems - 1`. The bits past `nitems` in the last word,
which the source leaves as it finds them, are never read; here they are clear.
-/

namespace Nachos

/-- `divRoundUp(n, s)` of `utility.h`, on non-negative operands. -/
def divRoundUp (n s : Nat) : Nat := n / s + if n % s > 0 then 1 else 0

/-- `divRoundUp(n, s)` on `int`s, whose division rounds towards zero. -/
def divRoundUpInt (n s : Int) : Int := n.tdiv s + if n.tmod s > 0 then 1 else 0

theorem divRoundUpInt_of_nonneg {n : Int} (h : 0 ≤ n) (s : Int) :
    divRoundUpInt n s = n / s + if n % s > 0 then 1 else 0 := by
  unfold divRoundUpInt
  rw [Int.tdiv_eq_ediv_of_nonneg h, Int.tmod_eq_emod_of_nonneg h]

theorem divRoundUpInt_natCast (n s : Nat) : divRoundUpInt n s = (divRoundUp n s : Nat) := by
  rw [divRoundUpInt_of_nonneg (by omega)]
  unfold divRoundUp
  by_cases hpos : n % s > 0
  · have hpos' : (n : Int) % s > 0 := by exact_mod_cast hpos
    rw [if_pos hpos, if_pos hpos']
    push_cast
    rfl
  · have hpos' : ¬ (n : Int) % s > 0 := by exact_mod_cast hpos
    rw [if_neg hpos, if_neg hpos']
    push_cast
    rfl

theorem divRoundUp_mul_ge {n s : Nat} (hs : 0 < s) : n ≤ divRoundUp n s * s := by
  have hdiv := Nat.div_add_mod n s
  have hmod := Nat.mod_lt n hs
  have hcomm : s * (n / s) = n / s * s := Nat.mul_comm _ _
  unfold divRoundUp
  split
  · rw [Nat.add_mul]
    omega
  · simp only [Nat.add_zero]
    omega

theorem divRoundUp_le {n s m : Nat} (hs : 0 < s) (h : n ≤ m * s) : divRoundUp n s ≤ m := by
  have hdiv := Nat.div_add_mod n s
  have hcomm : s * (n / s) = n / s * s := Nat.mul_comm _ _
  unfold divRoundUp
  split
  · rename_i hpos
    have hlt : n / s * s < m * s := by omega
    exact Nat.lt_of_mul_lt_mul_right hlt
  · simp only [Nat.add_zero]
    have hle : n / s * s ≤ m * s := by omega
    exact Nat.le_of_mul_le_mul_right hle hs

/-- An array of bits, stored in words. -/
structure BitMap where
  numBits : Nat
  map : List (BitVec 32)
  /-- There are `numWords` words. -/
  length_map : map.length = divRoundUp numBits 32
  deriving DecidableEq

namespace BitMap

/-- `BitMap::BitMap`. -/
def new (nitems : Nat) : BitMap where
  numBits := nitems
  map := List.replicate (divRoundUp nitems 32) 0
  length_map := List.length_replicate

/-- The mask `1 << (which % BitsInWord)`. -/
def mask (which : Nat) : BitVec 32 := 1#32 <<< (which % 32)

/-- `BitMap::Mark`, for an index in range. -/
def mark (b : BitMap) (which : Nat) : BitMap where
  numBits := b.numBits
  map := b.map.modify (which / 32) (· ||| mask which)
  length_map := by rw [List.length_modify, b.length_map]

/-- `BitMap::Clear`, for an index in range. -/
def clear (b : BitMap) (which : Nat) : BitMap where
  numBits := b.numBits
  map := b.map.modify (which / 32) (· &&& ~~~mask which)
  length_map := by rw [List.length_modify, b.length_map]

/-- `BitMap::Test`, for an index in range. -/
def test (b : BitMap) (which : Nat) : Bool :=
  (b.map.getD (which / 32) 0 &&& mask which) != 0

/-- The `ASSERT` of `Mark`, `Clear` and `Test`. -/
def inRange (b : BitMap) (which : Int) : Bool := 0 ≤ which ∧ which < b.numBits

/-- `BitMap::Test`; `none` is a failed `ASSERT`. -/
def test? (b : BitMap) (which : Int) : Option Bool :=
  if b.inRange which then some (b.test which.toNat) else none

/-- `BitMap::Clear`; `none` is a failed `ASSERT`. -/
def clear? (b : BitMap) (which : Int) : Option BitMap :=
  if b.inRange which then some (b.clear which.toNat) else none

/-- The loop of `Find` and `FindFreeSlot`: the first clear bit. -/
def firstClear (b : BitMap) : Option Nat := (List.range b.numBits).find? fun i => !b.test i

/-- `BitMap::Find`; `none` is the result `-1`. -/
def find (b : BitMap) : Option Nat × BitMap :=
  match b.firstClear with
  | some i => (some i, b.mark i)
  | none => (none, b)

/-- `BitMap::FindFreeSlot`, which has the same body as `Find`. -/
def findFreeSlot (b : BitMap) : Option Nat × BitMap :=
  match b.firstClear with
  | some i => (some i, b.mark i)
  | none => (none, b)

/-- `BitMap::NumClear`. -/
def numClear (b : BitMap) : Nat := (List.range b.numBits).countP fun i => !b.test i

/-! ## Single bits -/

theorem getLsbD_mask {i : Nat} {k : Nat} : (mask i).getLsbD k = decide (k = i % 32) := by
  have hlt : i % 32 < 32 := Nat.mod_lt _ (by decide)
  unfold mask
  by_cases hk : k = i % 32
  · subst hk
    simp [hlt]
  · simp only [BitVec.getLsbD_shiftLeft, BitVec.getLsbD_one, hk, decide_false]
    by_cases h1 : k < i % 32
    · simp [h1]
    · have h2 : k - i % 32 ≠ 0 := by omega
      simp [h2]

/-- Testing with a mask reads one bit of the word. -/
theorem and_mask_ne_zero (w : BitVec 32) (i : Nat) :
    ((w &&& mask i) != 0) = w.getLsbD (i % 32) := by
  have hlt : i % 32 < 32 := Nat.mod_lt _ (by decide)
  cases hbit : w.getLsbD (i % 32) with
  | false =>
    have hzero : w &&& mask i = 0 := by
      apply BitVec.eq_of_getLsbD_eq
      intro k _
      rw [BitVec.getLsbD_and, getLsbD_mask]
      by_cases hk : k = i % 32
      · subst hk
        simp [hbit]
      · simp [hk]
    simp [hzero]
  | true =>
    have hne : w &&& mask i ≠ 0 := by
      intro h0
      have hk := congrArg (fun v : BitVec 32 => v.getLsbD (i % 32)) h0
      simp [getLsbD_mask, hbit] at hk
    simpa using hne

theorem test_eq (b : BitMap) (i : Nat) :
    b.test i = (b.map.getD (i / 32) 0).getLsbD (i % 32) := and_mask_ne_zero _ _

theorem word_lt (b : BitMap) {i : Nat} (hi : i < b.numBits) : i / 32 < b.map.length := by
  have hge := divRoundUp_mul_ge (n := b.numBits) (s := 32) (by decide)
  rw [b.length_map]
  omega

theorem index_eq {i j : Nat} (hw : i / 32 = j / 32) (hb : i % 32 = j % 32) : i = j := by omega

@[simp] theorem numBits_new (n : Nat) : (new n).numBits = n := rfl
@[simp] theorem numBits_mark (b : BitMap) (i : Nat) : (b.mark i).numBits = b.numBits := rfl
@[simp] theorem numBits_clear (b : BitMap) (i : Nat) : (b.clear i).numBits = b.numBits := rfl

@[simp] theorem test_new (n i : Nat) : (new n).test i = false := by
  rw [test_eq]
  unfold new
  simp only [List.getD_eq_getElem?_getD, List.getElem?_replicate]
  split <;> simp

/-- Reading a word after one word was modified. -/
theorem getD_modify (l : List (BitVec 32)) (f : BitVec 32 → BitVec 32) {i : Nat} (j : Nat)
    (hi : i < l.length) :
    (l.modify i f).getD j 0 = if j = i then f (l.getD i 0) else l.getD j 0 := by
  simp only [List.getD_eq_getElem?_getD, List.getElem?_modify]
  by_cases hji : j = i
  · subst hji
    simp [hi]
  · simp [hji, Ne.symm hji]

theorem test_mark (b : BitMap) {i : Nat} (hi : i < b.numBits) (j : Nat) :
    (b.mark i).test j = (decide (j = i) || b.test j) := by
  rw [test_eq, test_eq, mark, getD_modify _ _ _ (b.word_lt hi)]
  by_cases hw : j / 32 = i / 32
  · rw [if_pos hw, BitVec.getLsbD_or, getLsbD_mask, hw, Bool.or_comm]
    congr 1
    have : j % 32 = i % 32 ↔ j = i := ⟨index_eq hw, fun h => by rw [h]⟩
    simp [this]
  · have hne : j ≠ i := fun h => hw (by rw [h])
    simp [hw, hne]

theorem test_clear (b : BitMap) {i : Nat} (hi : i < b.numBits) (j : Nat) :
    (b.clear i).test j = (!decide (j = i) && b.test j) := by
  rw [test_eq, test_eq, clear, getD_modify _ _ _ (b.word_lt hi)]
  by_cases hw : j / 32 = i / 32
  · have hbit : j % 32 < 32 := Nat.mod_lt _ (by decide)
    rw [if_pos hw, BitVec.getLsbD_and, BitVec.getLsbD_not, getLsbD_mask, hw, Bool.and_comm]
    congr 1
    have : j % 32 = i % 32 ↔ j = i := ⟨index_eq hw, fun h => by rw [h]⟩
    simp [this, hbit]
  · have hne : j ≠ i := fun h => hw (by rw [h])
    simp [hw, hne]

/-! ## First-fit allocation -/

theorem firstClear_some {b : BitMap} {i : Nat} (h : b.firstClear = some i) :
    i < b.numBits ∧ b.test i = false ∧ ∀ j, j < i → b.test j = true := by
  unfold firstClear at h
  rw [List.find?_range_eq_some] at h
  obtain ⟨hclear, hmem, hleast⟩ := h
  refine ⟨by simpa using hmem, by simpa using hclear, ?_⟩
  intro j hj
  simpa using hleast j hj

theorem firstClear_none {b : BitMap} (h : b.firstClear = none) {i : Nat} (hi : i < b.numBits) :
    b.test i = true := by
  unfold firstClear at h
  simpa using List.find?_eq_none.mp h i (List.mem_range.mpr hi)

theorem findFreeSlot_eq_find (b : BitMap) : b.findFreeSlot = b.find := rfl

theorem find_cases (b : BitMap) :
    (∃ i, i < b.numBits ∧ b.test i = false ∧ b.find = (some i, b.mark i)) ∨
      ((∀ i, i < b.numBits → b.test i = true) ∧ b.find = (none, b)) := by
  cases h : b.firstClear with
  | none => exact Or.inr ⟨fun i hi => firstClear_none h hi, by simp [find, h]⟩
  | some i =>
    obtain ⟨hi, hclear, -⟩ := firstClear_some h
    exact Or.inl ⟨i, hi, hclear, by simp [find, h]⟩

/-- `Find` takes the first clear bit. -/
theorem find_of_least {b : BitMap} {k : Nat} (hk : k < b.numBits) (hclear : b.test k = false)
    (hleast : ∀ i, i < k → b.test i = true) : b.find = (some k, b.mark k) := by
  have hfirst : b.firstClear = some k := by
    unfold firstClear
    rw [List.find?_range_eq_some]
    refine ⟨by simp [hclear], by simpa using hk, fun i hi => ?_⟩
    simp [hleast i hi]
  simp [find, hfirst]

/-- A bitmap whose marked bits are the first `k`. -/
def MarkedBelow (b : BitMap) (k : Nat) : Prop := ∀ i < b.numBits, b.test i = decide (i < k)

theorem MarkedBelow.find {b : BitMap} {k : Nat} (h : MarkedBelow b k) (hk : k < b.numBits) :
    b.find = (some k, b.mark k) ∧ MarkedBelow (b.mark k) (k + 1) := by
  have hfind : b.find = (some k, b.mark k) :=
    find_of_least hk (by simp [h k hk]) fun i hi => by simp [h i (hi.trans hk), hi]
  refine ⟨hfind, fun i hi => ?_⟩
  rw [test_mark b hk, h i hi]
  by_cases hik : i = k
  · simp [hik]
  · simp only [hik, decide_false, Bool.false_or, decide_eq_decide]
    omega

/-- The number of marked bits. -/
def numMarked (b : BitMap) : Nat := (List.range b.numBits).countP fun i => b.test i

theorem numMarked_add_numClear (b : BitMap) : b.numMarked + b.numClear = b.numBits := by
  have h := List.length_eq_countP_add_countP (fun i => b.test i) (l := List.range b.numBits)
  rw [List.length_range] at h
  unfold numMarked numClear
  simpa using h.symm

/-- Marking one clear bit of a list of distinct indices. -/
theorem countP_mark {b : BitMap} {i : Nat} (hi : i < b.numBits) (hclear : b.test i = false)
    (l : List Nat) (hl : l.Nodup) :
    l.countP (fun j => (b.mark i).test j) = l.countP (fun j => b.test j) + if i ∈ l then 1 else 0 := by
  induction l with
  | nil => simp
  | cons a l ih =>
    obtain ⟨ha, hl'⟩ := List.nodup_cons.mp hl
    rw [List.countP_cons, List.countP_cons, ih hl', test_mark b hi]
    by_cases hai : a = i
    · subst hai
      simp [ha, hclear]
    · have hmem : i ∈ a :: l ↔ i ∈ l := by simp [Ne.symm hai]
      simp only [hai, decide_false, Bool.false_or, hmem]
      omega

theorem numMarked_mark {b : BitMap} {i : Nat} (hi : i < b.numBits) (hclear : b.test i = false) :
    (b.mark i).numMarked = b.numMarked + 1 := by
  have h := countP_mark hi hclear (List.range b.numBits) List.nodup_range
  simpa [numMarked, hi] using h

theorem numMarked_new (n : Nat) : (new n).numMarked = 0 := by
  simp [numMarked]

end BitMap

end Nachos
