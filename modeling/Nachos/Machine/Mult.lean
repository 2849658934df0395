import Mathlib.Data.BitVec
import Mathlib.Tactic.Ring
import Nachos.Machine.Instructions

/-!
# Multiplication of words

`Mult` of `machine/mipssim.cc` adds shifted copies of one operand in two words, with the carry
and the sign made by hand. `mult_unsigned` and `mult_signed`: its two words are the
double-length product. `mult_exact`: no bit of the product of two words is lost.
-/

namespace Nachos

/-- A double word. -/
def dword (hi lo : Word) : BitVec 64 := hi ++ lo

theorem toNat_dword (hi lo : Word) : (dword hi lo).toNat = hi.toNat * 2 ^ 32 + lo.toNat := by
  rw [dword, BitVec.toNat_append, ← Nat.shiftLeft_add_eq_or_of_lt lo.isLt, Nat.shiftLeft_eq]

theorem dword_zero (lo : Word) : dword 0 lo = lo.setWidth 64 := by
  apply BitVec.eq_of_toNat_eq
  have hlt := lo.isLt
  have hzero : (0 : Word).toNat = 0 := rfl
  rw [toNat_dword, BitVec.toNat_setWidth, hzero]
  omega

theorem extract_dword_hi (hi lo : Word) : (dword hi lo).extractLsb' 32 32 = hi := by
  apply BitVec.eq_of_toNat_eq
  have hlo := lo.isLt
  have hhi := hi.isLt
  rw [BitVec.extractLsb'_toNat, toNat_dword, Nat.shiftRight_eq_div_pow]
  omega

theorem extract_dword_lo (hi lo : Word) : (dword hi lo).extractLsb' 0 32 = lo := by
  apply BitVec.eq_of_toNat_eq
  have hlo := lo.isLt
  rw [BitVec.extractLsb'_toNat, toNat_dword, Nat.shiftRight_eq_div_pow]
  omega

/-! ### One round -/

theorem and_twoPow_ne_zero (a : Word) {i : Nat} (hi : i < 32) :
    a &&& BitVec.twoPow 32 i ≠ 0 ↔ a.getLsbD i = true := by
  have hpos : BitVec.twoPow 32 i ≠ 0 := by
    intro h
    have hbit := congrArg (fun v => v.getLsbD i) h
    simp [hi] at hbit
  rw [BitVec.and_twoPow]
  split
  · rename_i h
    exact iff_of_true hpos h
  · rename_i h
    simp [h]

theorem and_signBit_ne_zero (a : Word) : a &&& 0x80000000 ≠ 0 ↔ a.msb = true := by
  have hbit := and_twoPow_ne_zero a (i := 31) (by omega)
  rw [BitVec.msb_eq_getLsbD_last]
  exact hbit

theorem and_one_ne_zero (a : Word) : a &&& 1 ≠ 0 ↔ a.toNat % 2 = 1 := by
  have hbit := and_twoPow_ne_zero a (i := 0) (by omega)
  rw [Nat.mod_two_eq_one_iff_testBit_zero]
  exact hbit

/-- The operand without its lowest bit is 0 only if it is at most 1. -/
theorem toNat_of_and_eq_zero {a : Word} (h : a &&& 0xfffffffe = 0) : a.toNat < 2 := by
  have hsplit : a = a &&& 1 := by
    ext i hi
    have hbit := congrArg (fun v => v.getLsbD i) h
    cases i with
    | zero => simp
    | succ i =>
      have hmask : ∀ j : Fin 31, (0xfffffffe : Word).getLsbD (j.val + 1) = true := by decide
      have hmask' := hmask ⟨i, by omega⟩
      simp only [BitVec.getLsbD_and] at hbit
      rw [hmask', Bool.and_true] at hbit
      simp [← BitVec.getLsbD_eq_getElem, hbit]
  have hval := congrArg BitVec.toNat hsplit
  have hone : (1 : Word).toNat = 1 := rfl
  rw [BitVec.toNat_and, hone, Nat.and_one_is_mod] at hval
  omega


/-- Adding a double word, with the carry out of the low words. -/
theorem dword_add (hi lo bHi bLo : Word) :
    dword ((if (lo + bLo).ult bLo then hi + 1 else hi) + bHi) (lo + bLo) =
      dword hi lo + dword bHi bLo := by
  apply BitVec.eq_of_toNat_eq
  have hlo := lo.isLt
  have hbLo := bLo.isLt
  rw [BitVec.toNat_add, toNat_dword, toNat_dword, toNat_dword]
  split
  · rename_i hcarry
    rw [BitVec.ult_iff_toNat_lt, BitVec.toNat_add] at hcarry
    have hone : (1 : Word).toNat = 1 := rfl
    simp only [BitVec.toNat_add, hone]
    omega
  · rename_i hcarry
    rw [BitVec.ult_iff_toNat_lt, BitVec.toNat_add] at hcarry
    simp only [BitVec.toNat_add]
    omega

/-- Shifting a double word, with the top bit of the low word going into the high word. -/
theorem dword_shift (bHi bLo : Word) :
    dword (if bLo &&& 0x80000000 ≠ 0 then bHi <<< 1 ||| 1 else bHi <<< 1) (bLo <<< 1) =
      dword bHi bLo + dword bHi bLo := by
  have hmsb : bLo &&& 0x80000000 ≠ 0 ↔ 2 ^ 31 ≤ bLo.toNat := by
    rw [and_signBit_ne_zero, BitVec.msb_eq_decide]
    simp
  have hor : (bHi <<< 1 ||| 1 : Word) = bHi <<< 1 + 1 := by
    symm
    apply BitVec.add_eq_or_of_and_eq_zero
    ext i hi
    cases i with
    | zero => simp
    | succ i => simp
  apply BitVec.eq_of_toNat_eq
  have hlo := bLo.isLt
  have hone : (1 : Word).toNat = 1 := rfl
  rw [BitVec.toNat_add, toNat_dword, toNat_dword]
  split
  · rename_i htop
    rw [hmsb] at htop
    simp only [hor, BitVec.toNat_add, BitVec.toNat_shiftLeft, Nat.shiftLeft_eq, hone]
    omega
  · rename_i htop
    rw [hmsb] at htop
    simp only [BitVec.toNat_shiftLeft, Nat.shiftLeft_eq]
    omega

/-- The bits of `a` that the loop has not looked at yet, after one more shift. -/
theorem toNat_shift (a : Word) {n : Nat} (hn : n < 32) :
    a.toNat % 2 ^ (n + 1) = a.toNat % 2 + 2 * ((a.sshiftRight 1).toNat % 2 ^ n) := by
  have hshift : (a.sshiftRight 1).toNat % 2 ^ n = a.toNat / 2 % 2 ^ n := by
    apply Nat.eq_of_testBit_eq
    intro i
    rw [Nat.testBit_mod_two_pow, Nat.testBit_mod_two_pow, Nat.testBit_div_two]
    by_cases hi : i < n
    · have hbit : (a.sshiftRight 1).getLsbD i = a.getLsbD (i + 1) := by
        rw [BitVec.getLsbD_sshiftRight, if_pos (show 1 + i < 32 by omega), Nat.add_comm 1 i]
        simp [show ¬ 32 ≤ i by omega]
      rw [BitVec.testBit_toNat, BitVec.testBit_toNat, hbit]
    · simp [hi]
  rw [hshift, Nat.pow_succ', Nat.mod_mul]

/-! ### The loop -/

/-- The loop adds the product of the shifted operand and the `n` lowest bits of the other. -/
theorem multLoop_eq (n : Nat) (hn : n ≤ 32) (s : MultState) :
    dword (multLoop n s).1 (multLoop n s).2 =
      dword s.hi s.lo + dword s.bHi s.bLo * ((s.a.toNat % 2 ^ n : Nat) : BitVec 64) := by
  induction n generalizing s with
  | zero => simp [multLoop, Nat.mod_one]
  | succ n ih =>
    have hbits := toNat_shift s.a (n := n) (by omega)
    have hshift := dword_shift s.bHi s.bLo
    by_cases hodd : s.a &&& 1 ≠ 0
    · have hodd' := (and_one_ne_zero s.a).mp hodd
      have hadd := dword_add s.hi s.lo s.bHi s.bLo
      by_cases hlast : s.a &&& 0xfffffffe = 0
      · -- the loop is left, the other bits of `a` are 0
        have hsmall := toNat_of_and_eq_zero hlast
        have hone : s.a.toNat % 2 ^ (n + 1) = 1 := by
          rw [show s.a.toNat = 1 by omega]
          exact Nat.mod_eq_of_lt (Nat.one_lt_two_pow (by omega))
        simp only [multLoop, if_pos hodd, if_pos (And.intro hodd hlast), hone]
        rw [hadd]
        simp
      · have hgo : ¬ (s.a &&& 1 ≠ 0 ∧ s.a &&& 0xfffffffe = 0) := fun h => hlast h.2
        simp only [multLoop, if_pos hodd, if_neg hgo]
        rw [ih (by omega), hadd, hshift, hbits, hodd', Nat.cast_add, Nat.cast_mul, Nat.cast_one,
          Nat.cast_ofNat]
        ring
    · have heven : s.a.toNat % 2 = 0 := by
        have hne : ¬ s.a.toNat % 2 = 1 := fun h => hodd ((and_one_ne_zero s.a).mpr h)
        omega
      have hgo : ¬ (s.a &&& 1 ≠ 0 ∧ s.a &&& 0xfffffffe = 0) := fun h => hodd h.1
      simp only [multLoop, if_neg hodd, if_neg hgo]
      rw [ih (by omega), hshift, hbits, heven, Nat.cast_add, Nat.cast_mul, Nat.cast_zero,
        Nat.cast_ofNat]
      ring

theorem multLoop_product (a b : Word) :
    dword (multLoop 32 ⟨a, b, 0, 0, 0⟩).1 (multLoop 32 ⟨a, b, 0, 0, 0⟩).2 =
      a.setWidth 64 * b.setWidth 64 := by
  have hcast : ((a.toNat % 2 ^ 32 : Nat) : BitVec 64) = a.setWidth 64 := by
    rw [Nat.mod_eq_of_lt a.isLt, BitVec.natCast_eq_ofNat, BitVec.ofNat_toNat]
  rw [multLoop_eq 32 (le_refl 32), hcast]
  simp only [dword_zero]
  rw [BitVec.mul_comm, show (0 : Word).setWidth 64 = 0 from rfl, zero_add]

/-- The two's complement of a double word. -/
theorem dword_neg (hi lo : Word) :
    dword (if ~~~lo + 1 = 0 then ~~~hi + 1 else ~~~hi) (~~~lo + 1) = -dword hi lo := by
  apply BitVec.eq_of_toNat_eq
  have hhi := hi.isLt
  have hlo := lo.isLt
  have hone : (1 : Word).toNat = 1 := rfl
  have hzero : ~~~lo + 1 = 0 ↔ (~~~lo + 1).toNat = 0 := by
    rw [← BitVec.toNat_inj]
    rfl
  rw [BitVec.toNat_neg, toNat_dword, toNat_dword]
  simp only [hzero, BitVec.toNat_add, BitVec.toNat_not, hone]
  split
  · rename_i hz
    simp only [BitVec.toNat_add, BitVec.toNat_not, hone]
    omega
  · rename_i hz
    simp only [BitVec.toNat_not]
    omega

theorem signExtend_of_neg {a : Word} (h : a.slt 0 = true) :
    a.signExtend 64 = -(-a).setWidth 64 := by
  have hneg : a.toInt < 0 := by simpa [BitVec.slt] using h
  have hlt := a.isLt
  apply BitVec.eq_of_toInt_eq
  rw [BitVec.toInt_signExtend_of_le (by omega)]
  rw [BitVec.toInt_eq_toNat_cond] at hneg ⊢
  rw [BitVec.toInt_eq_toNat_cond, BitVec.toNat_neg, BitVec.toNat_setWidth, BitVec.toNat_neg]
  split_ifs at hneg ⊢ <;> omega

theorem signExtend_of_nonneg {a : Word} (h : a.slt 0 = false) :
    a.signExtend 64 = a.setWidth 64 := by
  apply BitVec.signExtend_eq_setWidth_of_msb_false
  rw [← BitVec.slt_zero_eq_msb]
  exact h

/-- `Mult` without `signedArith`: the product of the unsigned words. -/
theorem mult_unsigned (a b : Word) :
    dword (mult a b false).1 (mult a b false).2 = a.setWidth 64 * b.setWidth 64 := by
  unfold mult
  split
  · rename_i hzero
    rcases hzero with rfl | rfl
    · exact (zero_mul (b.setWidth 64)).symm
    · exact (mul_zero (a.setWidth 64)).symm
  · exact multLoop_product a b

/-- `Mult` with `signedArith`: the product of the signed words. -/
theorem mult_signed (a b : Word) :
    dword (mult a b true).1 (mult a b true).2 = a.signExtend 64 * b.signExtend 64 := by
  unfold mult
  split
  · rename_i hzero
    rcases hzero with rfl | rfl
    · exact (zero_mul (b.signExtend 64)).symm
    · exact (mul_zero (a.signExtend 64)).symm
  · cases ha : a.slt 0 with
    | false =>
      cases hb : b.slt 0 with
      | false =>
        rw [signExtend_of_nonneg ha, signExtend_of_nonneg hb]
        exact multLoop_product a b
      | true =>
        rw [signExtend_of_nonneg ha, signExtend_of_neg hb, mul_neg, ← multLoop_product]
        exact dword_neg _ _
    | true =>
      cases hb : b.slt 0 with
      | false =>
        rw [signExtend_of_neg ha, signExtend_of_nonneg hb, neg_mul, ← multLoop_product]
        exact dword_neg _ _
      | true =>
        rw [signExtend_of_neg ha, signExtend_of_neg hb, neg_mul_neg]
        exact multLoop_product (-a) (-b)

/-! ### Exact products -/

theorem natAbs_toInt_le (a : Word) : a.toInt.natAbs ≤ 2 ^ 31 := by
  have hlo := BitVec.le_toInt a
  have hhi := BitVec.toInt_lt (x := a)
  simp only [Nat.add_one_sub_one] at hlo hhi
  omega

/-- The signed product fits into a double word. -/
theorem toInt_mul_bounds (a b : Word) :
    -2 ^ 63 ≤ a.toInt * b.toInt ∧ a.toInt * b.toInt < 2 ^ 63 := by
  have habs : (a.toInt * b.toInt).natAbs ≤ 2 ^ 31 * 2 ^ 31 := by
    rw [Int.natAbs_mul]
    exact Nat.mul_le_mul (natAbs_toInt_le a) (natAbs_toInt_le b)
  omega

/-- `Mult` is exact, for signed and for unsigned operands. -/
theorem mult_exact (a b : Word) :
    (dword (mult a b true).1 (mult a b true).2).toInt = a.toInt * b.toInt ∧
      (dword (mult a b false).1 (mult a b false).2).toNat = a.toNat * b.toNat := by
  constructor
  · obtain ⟨hlo, hhi⟩ := toInt_mul_bounds a b
    rw [mult_signed, BitVec.toInt_mul, BitVec.toInt_signExtend_of_le (by omega),
      BitVec.toInt_signExtend_of_le (by omega), Int.bmod_def]
    split <;> omega
  · have hlt : a.toNat * b.toNat < 2 ^ 32 * 2 ^ 32 := Nat.mul_lt_mul'' a.isLt b.isLt
    rw [mult_unsigned, BitVec.toNat_mul, BitVec.toNat_setWidth, BitVec.toNat_setWidth,
      Nat.mod_eq_of_lt (show a.toNat < 2 ^ 64 by have := a.isLt; omega),
      Nat.mod_eq_of_lt (show b.toNat < 2 ^ 64 by have := b.isLt; omega), Nat.mod_eq_of_lt (by omega)]

end Nachos
