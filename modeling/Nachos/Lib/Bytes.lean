import Mathlib.Data.BitVec
import Mathlib.Data.List.Basic

/-!
# Byte images

A byte image is a function from addresses to bytes: the contents of a memory, of an object or
of a buffer. Words are stored in it with the lowest byte first (`load`, `store`), and lists of
bytes are copied into it (`splice`). `loadBig` and `storeBig` have the highest byte first.

* `load_store`: a stored word is read back.
* `load_congr`: a word depends on its own bytes only.
-/

namespace Bytes

/-- A byte image. -/
abbrev Image := Nat → BitVec 8

variable {w : Nat}

/-- The `n` bytes at the address `a`, the lowest first. -/
def load (image : Image) (a : Nat) : Nat → BitVec w
  | 0 => 0
  | n + 1 => (image a).setWidth w ||| load image (a + 1) n <<< 8

/-- The image with the low `n` bytes of `v` at the address `a`, the lowest first. -/
def store (image : Image) (a n : Nat) (v : BitVec w) : Image := fun i =>
  if a ≤ i ∧ i < a + n then (v >>> (8 * (i - a))).setWidth 8 else image i

/-- The `n` bytes at the address `a`, the highest first. -/
def loadBig (image : Image) (a n : Nat) : BitVec w := load (fun i => image (a + (n - 1 - i))) 0 n

/-- The image with the low `n` bytes of `v` at the address `a`, the highest first. -/
def storeBig (image : Image) (a n : Nat) (v : BitVec w) : Image := fun i =>
  if a ≤ i ∧ i < a + n then (v >>> (8 * (n - 1 - (i - a)))).setWidth 8 else image i

/-- The image with the bytes of a list from the address `a` on. -/
def splice (image : Image) (a : Nat) (bytes : List (BitVec 8)) : Image := fun i =>
  if a ≤ i ∧ i < a + bytes.length then bytes.getD (i - a) 0 else image i

/-- The first `n` bytes of an image. -/
def toList (image : Image) (n : Nat) : List (BitVec 8) := (List.range n).map image

/-- A word depends on its bytes, wherever they are. -/
theorem load_eq_of_bytes {image image' : Image} {a b n : Nat}
    (h : ∀ k < n, image (a + k) = image' (b + k)) :
    (load image a n : BitVec w) = load image' b n := by
  induction n generalizing a b with
  | zero => rfl
  | succ n ih =>
    have hrest : (load image (a + 1) n : BitVec w) = load image' (b + 1) n := by
      apply ih
      intro k hk
      have hnext := h (k + 1) (by omega)
      rwa [show a + (k + 1) = a + 1 + k by omega, show b + (k + 1) = b + 1 + k by omega] at hnext
    simp only [load, hrest, show image a = image' b from h 0 (by omega)]

theorem load_congr {image image' : Image} {a n : Nat}
    (h : ∀ i, a ≤ i → i < a + n → image i = image' i) :
    (load image a n : BitVec w) = load image' a n := by
  apply load_eq_of_bytes
  intro k hk
  exact h (a + k) (by omega) (by omega)

/-- The bits of a loaded word. -/
theorem getLsbD_load (image : Image) (a n : Nat) {i : Nat} (hi : i < w) :
    (load image a n : BitVec w).getLsbD i =
      (decide (i < 8 * n) && (image (a + i / 8)).getLsbD (i % 8)) := by
  induction n generalizing a i with
  | zero => simp [load]
  | succ n ih =>
    simp only [load, BitVec.getLsbD_or, BitVec.getLsbD_setWidth, hi, decide_true, Bool.true_and,
      BitVec.getLsbD_shiftLeft]
    by_cases h8 : i < 8
    · have hdiv : i / 8 = 0 := by omega
      have hmod : i % 8 = i := by omega
      have hlt : i < 8 * (n + 1) := by omega
      simp [h8, hdiv, hmod, hlt]
    · have hhigh : (image a).getLsbD i = false := BitVec.getLsbD_of_ge _ _ (by omega)
      have haddr : a + 1 + (i - 8) / 8 = a + i / 8 := by omega
      have hmod : (i - 8) % 8 = i % 8 := by omega
      have hlt : i - 8 < 8 * n ↔ i < 8 * (n + 1) := by omega
      rw [ih (a + 1) (i := i - 8) (by omega), hhigh, haddr, hmod]
      simp [h8, hlt]

theorem getLsbD_loadBig (image : Image) (a n : Nat) {i : Nat} (hi : i < w) :
    (loadBig image a n : BitVec w).getLsbD i =
      (decide (i < 8 * n) && (image (a + (n - 1 - i / 8))).getLsbD (i % 8)) := by
  rw [loadBig, getLsbD_load _ _ _ hi, Nat.zero_add]

/-- The bits of the byte `k` of a word. -/
theorem getLsbD_byte (v : BitVec w) (k : Nat) {i : Nat} (hi : i < 8) :
    ((v >>> (8 * k)).setWidth 8).getLsbD i = v.getLsbD (8 * k + i) := by
  rw [BitVec.getLsbD_setWidth, BitVec.getLsbD_ushiftRight]
  simp [hi]

/-- What is stored depends on the low bits of the word. -/
theorem store_eq_of_bits {w' : Nat} (image : Image) (a : Nat) {n : Nat} {v : BitVec w}
    {v' : BitVec w'} (h : ∀ i < 8 * n, v.getLsbD i = v'.getLsbD i) :
    store image a n v = store image a n v' := by
  ext1 k
  unfold store
  by_cases hk : a ≤ k ∧ k < a + n
  · rw [if_pos hk, if_pos hk]
    apply BitVec.eq_of_getLsbD_eq
    intro i hi
    rw [getLsbD_byte _ _ hi, getLsbD_byte _ _ hi]
    exact h _ (by omega)
  · rw [if_neg hk, if_neg hk]

/-- Storing the bytes of a word in the reverse order. -/
theorem storeBig_eq_of_bits {w' : Nat} (image : Image) (a : Nat) {n : Nat} {v : BitVec w}
    {v' : BitVec w'}
    (h : ∀ k < n, ∀ i < 8, v.getLsbD (8 * (n - 1 - k) + i) = v'.getLsbD (8 * k + i)) :
    storeBig image a n v = store image a n v' := by
  ext1 k
  unfold storeBig store
  by_cases hk : a ≤ k ∧ k < a + n
  · rw [if_pos hk, if_pos hk]
    apply BitVec.eq_of_getLsbD_eq
    intro i hi
    rw [getLsbD_byte _ _ hi, getLsbD_byte _ _ hi]
    exact h _ (by omega) i hi
  · rw [if_neg hk, if_neg hk]

/-- A stored word is read back. -/
theorem load_store (image : Image) (a : Nat) {n : Nat} (hn : w ≤ 8 * n) (v : BitVec w) :
    load (store image a n v) a n = v := by
  apply BitVec.eq_of_getLsbD_eq
  intro i hi
  have hstore : store image a n v (a + i / 8) = (v >>> (8 * (i / 8))).setWidth 8 := by
    unfold store
    rw [if_pos (by omega), Nat.add_sub_cancel_left]
  have hbit : 8 * (i / 8) + i % 8 = i := Nat.div_add_mod i 8
  have hmod : i % 8 < 8 := by omega
  have hlt : i < 8 * n := by omega
  rw [getLsbD_load _ _ _ hi, hstore, BitVec.getLsbD_setWidth, BitVec.getLsbD_ushiftRight, hbit]
  simp [hlt, hmod]

/-- Storing elsewhere does not change a word. -/
theorem load_store_of_disjoint (image : Image) {a b n m : Nat} (v : BitVec w)
    (h : b + m ≤ a ∨ a + n ≤ b) :
    (load (store image a n v) b m : BitVec w) = load image b m := by
  apply load_congr
  intro i h1 h2
  unfold store
  rw [if_neg (by omega)]

theorem store_of_not_mem {image : Image} {a n i : Nat} (v : BitVec w)
    (h : ¬ (a ≤ i ∧ i < a + n)) : store image a n v i = image i := if_neg h

theorem splice_of_not_mem {image : Image} {a i : Nat} {bytes : List (BitVec 8)}
    (h : ¬ (a ≤ i ∧ i < a + bytes.length)) : splice image a bytes i = image i := if_neg h

@[simp] theorem length_toList (image : Image) (n : Nat) : (toList image n).length = n := by
  simp [toList]

theorem getD_toList {image : Image} {n i : Nat} (h : i < n) :
    (toList image n).getD i 0 = image i := by
  simp [toList, List.getD_eq_getElem?_getD, h]

/-- Copying the first bytes of one image over another. -/
theorem splice_toList (image image' : Image) (a n i : Nat) :
    splice image a (toList image' n) i =
      if a ≤ i ∧ i < a + n then image' (i - a) else image i := by
  unfold splice
  rw [length_toList]
  split
  · rw [getD_toList (by omega)]
  · rfl

end Bytes
