import Nachos.Lib.Bytes

/-!
# Strings in byte images

A C string is the bytes of an image up to a zero byte. `strncmp` and `strncpy` look at no more
than a given number of them. Both are determined by the list `cstr` of the bytes they look at:

* `strncmp_eq_zero`: two strings compare equal when these lists are the same.
* `cstr_strncpy`: a copy has the same list as its source.

A string that is not part of an image is a `Str`; `strcmp_eq_zero` is the corresponding fact
for `strcmp`.
-/

namespace Bytes

/-- The string at the address `a`, cut off after `n` bytes. -/
def cstr (image : Image) (a : Nat) : Nat → List (BitVec 8)
  | 0 => []
  | n + 1 => if image a = 0#8 then [] else image a :: cstr image (a + 1) n

/-- `strncmp` of the strings at `a` and `b`: the difference of the first bytes that differ. -/
def strncmp (image : Image) (a : Nat) (image' : Image) (b : Nat) : Nat → Int
  | 0 => 0
  | n + 1 =>
    if image a ≠ image' b then (image a).toNat - (image' b).toNat
    else if image a = 0#8 then 0
    else strncmp image (a + 1) image' (b + 1) n

/-- The `n` bytes that `strncpy` writes: the string, then zeros. -/
def padded (image : Image) (a : Nat) : Nat → List (BitVec 8)
  | 0 => []
  | n + 1 => if image a = 0#8 then List.replicate (n + 1) 0 else image a :: padded image (a + 1) n

/-- `strncpy` to the address `a` of the string at `b`. -/
def strncpy (image : Image) (a : Nat) (image' : Image) (b n : Nat) : Image :=
  splice image a (padded image' b n)

theorem strncmp_eq_zero (image image' : Image) (a b n : Nat) :
    strncmp image a image' b n = 0 ↔ cstr image a n = cstr image' b n := by
  induction n generalizing a b with
  | zero => simp [strncmp, cstr]
  | succ n ih =>
    unfold strncmp cstr
    by_cases heq : image a = image' b
    · by_cases hzero : image' b = 0#8
      · simp [heq, hzero]
      · simpa [heq, hzero] using ih (a + 1) (b + 1)
    · have hdiff : ((image a).toNat : Int) - (image' b).toNat ≠ 0 := by
        intro h
        apply heq
        apply BitVec.eq_of_toNat_eq
        omega
      rw [if_pos heq]
      refine iff_of_false hdiff ?_
      -- one of the two strings may end here, but not both
      by_cases ha : image a = 0#8
      · have hb : image' b ≠ 0#8 := fun hb => heq (by rw [ha, hb])
        simp [ha, hb]
      · by_cases hb : image' b = 0#8
        · simp [ha, hb]
        · simp [ha, hb, heq]

theorem length_padded (image : Image) (a n : Nat) : (padded image a n).length = n := by
  induction n generalizing a with
  | zero => rfl
  | succ n ih =>
    unfold padded
    split
    · exact List.length_replicate
    · rw [List.length_cons, ih]

theorem cstr_congr {image image' : Image} {a b n : Nat}
    (h : ∀ k < n, image (a + k) = image' (b + k)) : cstr image a n = cstr image' b n := by
  induction n generalizing a b with
  | zero => rfl
  | succ n ih =>
    have hhead : image a = image' b := h 0 (by omega)
    have htail : cstr image (a + 1) n = cstr image' (b + 1) n := by
      apply ih
      intro k hk
      have := h (k + 1) (by omega)
      rwa [show a + (k + 1) = a + 1 + k by omega, show b + (k + 1) = b + 1 + k by omega] at this
    unfold cstr
    rw [hhead, htail]

/-- A string that is cut off earlier is a part of it. -/
theorem cstr_eq_take (image : Image) (a : Nat) {m n : Nat} (hmn : m ≤ n) :
    cstr image a m = (cstr image a n).take m := by
  induction m generalizing a n with
  | zero => rfl
  | succ m ih =>
    obtain ⟨n, rfl⟩ : ∃ k, n = k + 1 := ⟨n - 1, by omega⟩
    unfold cstr
    split
    · rfl
    · rw [List.take_succ_cons, ih (a + 1) (Nat.le_of_succ_le_succ hmn)]

/-- A string goes on while its bytes are not zero. -/
theorem lt_length_cstr {image : Image} {a n k : Nat} :
    k < (cstr image a n).length ↔ k < n ∧ ∀ j ≤ k, image (a + j) ≠ 0#8 := by
  induction n generalizing a k with
  | zero => simp [cstr]
  | succ n ih =>
    unfold cstr
    by_cases hzero : image a = 0#8
    · rw [if_pos hzero]
      refine iff_of_false (Nat.not_lt_zero k) fun h => ?_
      exact h.2 0 (Nat.zero_le k) hzero
    · rw [if_neg hzero, List.length_cons]
      cases k with
      | zero => simpa using hzero
      | succ k =>
        rw [Nat.succ_lt_succ_iff, Nat.succ_lt_succ_iff, ih]
        refine and_congr_right fun _ => ⟨fun h j hj => ?_, fun h j hj => ?_⟩
        · cases j with
          | zero => exact hzero
          | succ j =>
            rw [show a + (j + 1) = a + 1 + j by omega]
            exact h j (Nat.le_of_succ_le_succ hj)
        · rw [show a + 1 + j = a + (j + 1) by omega]
          exact h (j + 1) (Nat.succ_le_succ hj)

/-- An image that holds the bytes of a padded string holds the string. -/
theorem cstr_of_padded {image image' : Image} {a b n : Nat}
    (h : ∀ k < n, image (a + k) = (padded image' b n).getD k 0) :
    cstr image a n = cstr image' b n := by
  induction n generalizing a b with
  | zero => rfl
  | succ n ih =>
    have hhead := h 0 (by omega)
    unfold cstr
    by_cases hzero : image' b = 0#8
    · have himage : image a = 0#8 := by simpa [padded, hzero] using hhead
      rw [if_pos himage, if_pos hzero]
    · have himage : image a = image' b := by simpa [padded, hzero] using hhead
      rw [himage, if_neg hzero, if_neg hzero]
      congr 1
      apply ih
      intro k hk
      have hk' := h (k + 1) (by omega)
      rw [show a + (k + 1) = a + 1 + k by omega] at hk'
      simpa [padded, hzero] using hk'

/-- A copy of a string compares equal to it. -/
theorem cstr_strncpy (image : Image) (a : Nat) (image' : Image) (b n : Nat) :
    cstr (strncpy image a image' b n) a n = cstr image' b n := by
  apply cstr_of_padded
  intro k hk
  unfold strncpy splice
  rw [length_padded, if_pos (by omega), Nat.add_sub_cancel_left]

theorem strncpy_of_not_mem {image image' : Image} {a b n i : Nat} (h : ¬ (a ≤ i ∧ i < a + n)) :
    strncpy image a image' b n i = image i := by
  apply splice_of_not_mem
  rwa [length_padded]

/-! ## Strings by themselves -/

/-- The bytes of a string before its terminating zero. -/
structure Str where
  bytes : List (BitVec 8)
  noZero : 0#8 ∉ bytes
  deriving DecidableEq

/-- The difference of the first bytes that differ; a string that has ended has a zero there. -/
def compare : List (BitVec 8) → List (BitVec 8) → Int
  | [], [] => 0
  | [], b :: _ => 0 - b.toNat
  | a :: _, [] => a.toNat
  | a :: as, b :: bs => if a ≠ b then a.toNat - b.toNat else compare as bs

/-- `strcmp`. -/
def strcmp (a b : Str) : Int := compare a.bytes b.bytes

theorem toNat_ne_zero {b : BitVec 8} (h : b ≠ 0#8) : (b.toNat : Int) ≠ 0 := by
  intro hb
  apply h
  apply BitVec.eq_of_toNat_eq
  simpa using hb

theorem compare_eq_zero {as bs : List (BitVec 8)} (ha : 0#8 ∉ as) (hb : 0#8 ∉ bs) :
    compare as bs = 0 ↔ as = bs := by
  induction as generalizing bs with
  | nil =>
    cases bs with
    | nil => simp [compare]
    | cons b bs =>
      have hne : b ≠ 0#8 := fun h => hb (by simp [h])
      simpa [compare] using toNat_ne_zero hne
  | cons a as ih =>
    cases bs with
    | nil =>
      have hne : a ≠ 0#8 := fun h => ha (by simp [h])
      simpa [compare] using toNat_ne_zero hne
    | cons b bs =>
      unfold compare
      by_cases hab : a = b
      · rw [if_neg (by simpa using hab), List.cons.injEq]
        rw [ih (fun h => ha (List.mem_cons_of_mem _ h)) fun h => hb (List.mem_cons_of_mem _ h)]
        simp [hab]
      · rw [if_pos hab]
        refine iff_of_false ?_ fun h => hab (List.cons.inj h).1
        intro hdiff
        apply hab
        apply BitVec.eq_of_toNat_eq
        omega

theorem strcmp_eq_zero (a b : Str) : strcmp a b = 0 ↔ a = b := by
  unfold strcmp
  rw [compare_eq_zero a.noZero b.noZero]
  cases a
  cases b
  simp

end Bytes
