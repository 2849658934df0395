import Mathlib.Data.Nat.Digits.Lemmas
import Nachos.Userprog.CallSpecs

/-!
# `SC_PrintInt`

The call writes the digits of the number into a buffer of 12 bytes, the last one first, then a `0`
in front of them that is not meant to be printed, and prints from the first digit on. The sign of a
negative number is put with `buffer[printPos--] = '-'`: it replaces the first digit, and what is
printed starts with the `0`.

`prints_iff`: the call prints the decimal numeral exactly for the numbers that are not negative.
-/

namespace Nachos.Syscalls

open Programs Program CInt Machine

/-! ### Statement -/

/-- The character of a digit. -/
def digitChar (d : Nat) : Byte := BitVec.ofNat 8 (d + 48)

/-- The decimal numeral of a number. -/
def numeral (n : Int) : List Byte :=
  if n < 0 then BitVec.ofNat 8 '-'.toNat :: unsigned else unsigned
where
  unsigned : List Byte :=
    if n = 0 then [digitChar 0] else ((Nat.digits 10 n.natAbs).map digitChar).reverse

/-- Every byte that was read had been written before. -/
def Initialised (b : Buffer) : Prop :=
  ∀ l r i, b.accesses = l ++ ⟨false, i⟩ :: r → ⟨true, i⟩ ∈ l

/-- The call has printed the numeral of its argument from initialised bytes of its buffer. -/
def Prints (k : Kernel) : Outcome Kernel Stop Abort Unit → Prop
  | .done _ k' => k'.output = k.output ++ numeral (k.machine.registers r4).toInt ∧
      Inside k'.buffer ∧ Initialised k'.buffer
  | .trap _ _ => False
  | .fault _ => False

/-! ### The buffer -/

/-- The characters that the loop makes of a number, the last one first. -/
def lowDigits : Nat → Int → List Byte
  | 0, _ => []
  | n + 1, number =>
    if number = 0 then []
    else BitVec.ofInt 8 (number.tmod 10 + 48) :: lowDigits n (number.tdiv 10)

/-- The given characters from the index `i` on downwards. -/
def Buffer.writeDown (b : Buffer) (i : Int) : List Byte → Buffer
  | [] => b
  | c :: cs => (b.write i [c]).writeDown (i - 1) cs

section Down

variable {b : Buffer} {i : Int} (cs : List Byte)

theorem size_writeDown : (b.writeDown i cs).size = b.size := by
  induction cs generalizing b i with
  | nil => rfl
  | cons c cs ih => exact ih

theorem bytes_writeDown_of_lt {j : Int} (h : i < j) : (b.writeDown i cs).bytes j = b.bytes j := by
  induction cs generalizing b i with
  | nil => rfl
  | cons c cs ih =>
    rw [Buffer.writeDown, ih (by omega), Buffer.bytes_write_of_not_mem]
    rw [List.length_singleton]
    omega

theorem bytes_writeDown (j : Nat) (h : j < cs.length) : (b.writeDown i cs).bytes (i - j) = cs[j] := by
  induction cs generalizing b i j with
  | nil => cases h
  | cons c cs ih =>
    rw [Buffer.writeDown]
    cases j with
    | zero =>
      rw [Nat.cast_zero, Int.sub_zero, bytes_writeDown_of_lt cs (show i - 1 < i by omega),
        Buffer.bytes_write_of_mem _ _ _ (Int.le_refl i) (by simp), Int.sub_self]
      rfl
    | succ j =>
      rw [show i - ((j + 1 : Nat) : Int) = i - 1 - (j : Nat) by push_cast; ring]
      exact ih j (Nat.lt_of_succ_lt_succ h)

theorem slice_writeDown {len : Nat} (h : len ≤ cs.length) :
    (b.writeDown i cs).slice (i + 1 - len) len = (cs.take len).reverse := by
  unfold Buffer.slice
  apply List.ext_getElem
  · simp [h]
  · intro j hj hj'
    rw [List.length_map, List.length_range] at hj
    have hindex : i + 1 - (len : Int) + (j : Int) = i - (len - 1 - j : Nat) := by omega
    rw [List.getElem_map, List.getElem_range, hindex, bytes_writeDown cs _ (by omega),
      List.getElem_reverse, List.getElem_take]
    congr 1
    rw [List.length_take]
    omega

theorem mem_accesses_writeDown {a : Access} :
    a ∈ (b.writeDown i cs).accesses ↔
      a ∈ b.accesses ∨ (a.write = true ∧ i - cs.length < a.index ∧ a.index ≤ i) := by
  induction cs generalizing b i with
  | nil =>
    rw [Buffer.writeDown, List.length_nil]
    refine (or_iff_left ?_).symm
    omega
  | cons c cs ih =>
    rw [Buffer.writeDown, ih, List.length_cons]
    unfold Buffer.write
    rw [List.mem_append, mem_accessesFrom, List.length_singleton, or_assoc]
    refine or_congr Iff.rfl ⟨?_, ?_⟩
    · rintro (⟨hw, hlo, hhi⟩ | ⟨hw, hlo, hhi⟩)
      · exact ⟨hw, by push_cast; omega, by omega⟩
      · exact ⟨hw, by push_cast; omega, by omega⟩
    · rintro ⟨hw, hlo, hhi⟩
      push_cast at hlo
      by_cases htop : a.index = i
      · exact Or.inl ⟨hw, by omega, by omega⟩
      · exact Or.inr ⟨hw, by omega, by omega⟩

theorem initialised_read {n : Nat} (hwrites : ∀ a ∈ b.accesses, a.write = true)
    (hmem : ∀ j, i ≤ j → j < i + n → ⟨true, j⟩ ∈ b.accesses) : Initialised (b.read i n) := by
  intro l r j h
  have hin : ⟨false, j⟩ ∈ accessesFrom false i n → ⟨true, j⟩ ∈ b.accesses := by
    intro hj
    obtain ⟨-, hlo, hhi⟩ := mem_accessesFrom.mp hj
    exact hmem j hlo hhi
  have hnot : ⟨false, j⟩ ∉ b.accesses := fun hj => Bool.noConfusion (hwrites _ hj)
  rcases List.append_eq_append_iff.mp h with ⟨l', rfl, hreads⟩ | ⟨r', hb, hreads⟩
  · refine List.mem_append_left l' (hin ?_)
    rw [hreads]
    exact List.mem_append_right l' List.mem_cons_self
  · cases r' with
    | nil =>
      rw [List.append_nil] at hb
      rw [← hb]
      refine hin ?_
      rw [List.nil_append] at hreads
      rw [← hreads]
      exact List.mem_cons_self
    | cons a r' =>
      obtain ⟨rfl, -⟩ := List.cons.inj hreads
      refine absurd ?_ hnot
      rw [hb]
      exact List.mem_append_right l List.mem_cons_self

end Down

/-! ### The loop -/

theorem natAbs_tdiv_lt {number : Int} {n : Nat} (h : number.natAbs < 10 ^ (n + 1)) :
    (number.tdiv 10).natAbs < 10 ^ n := by
  rw [Int.natAbs_tdiv]
  exact Nat.div_lt_of_lt_mul (by rwa [Nat.pow_succ, Nat.mul_comm] at h)

/-- What the loop leaves in the buffer, and the position of the first digit. -/
theorem printIntLoop_eq {n : Nat} {number : Int} (i printPos : Int) (k : Kernel)
    (h : number.natAbs < 10 ^ n) :
    printIntLoop (n + 1) i number printPos k =
      .done (if lowDigits n number = [] then printPos else 12 - i - (lowDigits n number).length)
        { k with buffer := k.buffer.writeDown (11 - i) (lowDigits n number ++ [48]) } := by
  induction n generalizing i number printPos k with
  | zero =>
    obtain rfl : number = 0 := Int.natAbs_eq_zero.mp (Nat.lt_one_iff.mp h)
    rfl
  | succ n ih =>
    rw [printIntLoop, lowDigits]
    by_cases hzero : number = 0
    · rw [if_pos hzero, if_pos hzero]
      rfl
    · rw [if_neg hzero, if_neg hzero, if_neg (List.cons_ne_nil _ _)]
      let c := BitVec.ofInt 8 (number.tmod 10 + 48)
      refine (ih (i + 1) (11 - i) { k with buffer := k.buffer.write (11 - i) [c] }
        (natAbs_tdiv_lt h)).trans ?_
      have hpos : (if lowDigits n (number.tdiv 10) = [] then 11 - i
          else 12 - (i + 1) - ((lowDigits n (number.tdiv 10)).length : Int)) =
            12 - i - ((c :: lowDigits n (number.tdiv 10)).length : Int) := by
        rw [List.length_cons]
        push_cast
        split
        · rename_i hnil
          rw [hnil, List.length_nil]
          omega
        · omega
      rw [hpos, List.cons_append, Buffer.writeDown, show 11 - (i + 1) = 11 - i - 1 by omega]

theorem length_lowDigits {m : Nat} (n : Nat) {number : Int} (h : number.natAbs < 10 ^ m) :
    (lowDigits n number).length ≤ m := by
  induction n generalizing m number with
  | zero => exact Nat.zero_le m
  | succ n ih =>
    rw [lowDigits]
    by_cases hzero : number = 0
    · rw [if_pos hzero]
      exact Nat.zero_le m
    · rw [if_neg hzero, List.length_cons]
      cases m with
      | zero => exact absurd (Int.natAbs_eq_zero.mp (Nat.lt_one_iff.mp h)) hzero
      | succ m => exact Nat.succ_le_succ (ih (natAbs_tdiv_lt h))

theorem tdiv_natCast (m : Nat) : (m : Int).tdiv 10 = ((m / 10 : Nat) : Int) := by
  rw [Int.tdiv_eq_ediv_of_nonneg (Int.natCast_nonneg m)]
  push_cast
  rfl

theorem lowDigit_natCast (m : Nat) : BitVec.ofInt 8 ((m : Int).tmod 10 + 48) = digitChar (m % 10) := by
  have hmod : (m : Int).tmod 10 + 48 = ((m % 10 + 48 : Nat) : Int) := by
    rw [Int.tmod_eq_emod_of_nonneg (Int.natCast_nonneg m)]
    push_cast
    rfl
  rw [hmod, BitVec.ofInt_natCast]
  rfl

/-- For a number that is not negative the characters are its digits. -/
theorem lowDigits_natCast {n m : Nat} (h : m < 10 ^ n) :
    lowDigits n m = (Nat.digits 10 m).map digitChar := by
  induction n generalizing m with
  | zero =>
    obtain rfl : m = 0 := Nat.lt_one_iff.mp h
    rw [Nat.digits_zero]
    rfl
  | succ n ih =>
    rw [lowDigits]
    by_cases hzero : m = 0
    · rw [if_pos (by exact_mod_cast hzero), hzero, Nat.digits_zero]
      rfl
    · have hdiv : m / 10 < 10 ^ n := Nat.div_lt_of_lt_mul (by rwa [Nat.pow_succ, Nat.mul_comm] at h)
      rw [if_neg (by exact_mod_cast hzero),
        Nat.digits_def' (by decide) (Nat.pos_of_ne_zero hzero), List.map_cons, ← ih hdiv]
      rw [lowDigit_natCast, tdiv_natCast]

/-! ### The call -/

section Call

variable (k : Kernel) (u : Uninit)

/-- The number that the call prints. -/
def Kernel.number : Int := (k.machine.registers r4).toInt

/-- The buffer after the loop. -/
def loopBuffer (number : Int) : Buffer :=
  (Buffer.mk 12 u.heap []).writeDown 11 (lowDigits 11 number ++ [48])

theorem number_bounds : -2 ^ 31 ≤ k.number ∧ k.number < 2 ^ 31 := by
  have hlo := BitVec.le_toInt (k.machine.registers r4)
  have hhi := BitVec.toInt_lt (x := k.machine.registers r4)
  exact ⟨hlo, hhi⟩

theorem scPrintInt_eq : scPrintInt u k = (do
    let printPos ← printIntLoop 12 0 (if k.number < 0 then s32 (-k.number) else k.number) 11
    if k.number < 0 then
      put printPos [BitVec.ofNat 8 '-'.toNat]
      let _ ← consoleWrite (printPos - 1) (12 - (printPos - 1))
    else
      let _ ← consoleWrite printPos (12 - printPos)) { k with buffer := ⟨12, u.heap, []⟩ } := by
  unfold scPrintInt
  rfl

theorem printIntLoop_start {number : Int} (hlo : -2 ^ 31 ≤ number) (hhi : number < 2 ^ 31) :
    printIntLoop 12 0 number 11 { k with buffer := ⟨12, u.heap, []⟩ } =
        .done (if lowDigits 11 number = [] then 11 else 12 - (lowDigits 11 number).length)
          { k with buffer := loopBuffer u number } ∧
      (lowDigits 11 number).length ≤ 10 := by
  refine ⟨?_, length_lowDigits 11 (by omega)⟩
  have hloop := printIntLoop_eq 0 11 { k with buffer := ⟨12, u.heap, []⟩ }
    (show number.natAbs < 10 ^ 11 by omega)
  rw [hloop, Int.sub_zero]
  rfl

theorem inside_loopBuffer {number : Int} (hlen : (lowDigits 11 number).length ≤ 10) :
    Inside (loopBuffer u number) := by
  intro a ha
  have hsize : (loopBuffer u number).size = 12 := size_writeDown _
  rw [hsize]
  rcases (mem_accesses_writeDown _).mp ha with ha | ⟨-, hlo, hhi⟩
  · exact absurd ha List.not_mem_nil
  · rw [List.length_append, List.length_singleton] at hlo
    omega

/-- What is printed of a number that is not negative. -/
theorem numeral_of_nonneg {number : Int} (h : 0 ≤ number) (hhi : number < 2 ^ 31) :
    ∃ len : Nat, (if lowDigits 11 number = [] then 11 else 12 - ((lowDigits 11 number).length : Int)) =
        12 - len ∧ len ≤ (lowDigits 11 number ++ [48]).length ∧ len ≤ 12 ∧
      ((lowDigits 11 number ++ [48]).take len).reverse = numeral number := by
  obtain ⟨m, rfl⟩ := Int.eq_ofNat_of_zero_le h
  unfold numeral numeral.unsigned
  rw [if_neg (Int.not_lt.mpr h)]
  by_cases hzero : m = 0
  · subst hzero
    exact ⟨1, rfl, by decide, by decide, rfl⟩
  · have hdigits := lowDigits_natCast (n := 11) (m := m) (by omega)
    have hne : lowDigits 11 m ≠ [] := by
      rw [hdigits, ne_eq, List.map_eq_nil_iff, Nat.digits_eq_nil_iff_eq_zero]
      exact hzero
    have hlen : (lowDigits 11 m).length ≤ 10 := length_lowDigits 11 (by omega)
    refine ⟨(lowDigits 11 m).length, if_neg hne, by simp, by omega, ?_⟩
    rw [if_neg (by exact_mod_cast hzero), List.take_left', hdigits]
    · rfl
    · rfl

theorem prints_of_nonneg (h : 0 ≤ k.number) : Prints k (scPrintInt u k) := by
  obtain ⟨hlo, hhi⟩ := number_bounds k
  obtain ⟨hloop, hlen⟩ := printIntLoop_start k u hlo hhi
  obtain ⟨len, hpos, hle, hle', hnumeral⟩ := numeral_of_nonneg h hhi
  rw [scPrintInt_eq, if_neg (Int.not_lt.mpr h), bind_done hloop, hpos, if_neg (Int.not_lt.mpr h)]
  have hwrite := writeLoop_eq len (12 - len) { k with buffer := loopBuffer u k.number }
  have hwritten : consoleWrite (12 - len) (12 - (12 - len)) { k with buffer := loopBuffer u k.number } =
      .done (12 - (12 - len)) { k with
        output := k.output ++ (loopBuffer u k.number).slice (12 - len) len
        buffer := (loopBuffer u k.number).read (12 - len) len } := by
    unfold consoleWrite
    rw [show ((12 : Int) - (12 - len)).toNat = len by omega]
    exact bind_done hwrite
  rw [bind_done hwritten]
  refine ⟨?_, (inside_loopBuffer u hlen).read (by omega) ?_, initialised_read ?_ ?_⟩
  · refine congrArg (k.output ++ ·) ?_
    refine Eq.trans ?_ hnumeral
    exact slice_writeDown (b := ⟨12, u.heap, []⟩) (i := 11) _ hle
  · have hsize : (loopBuffer u k.number).size = 12 := size_writeDown _
    rw [hsize]
    omega
  · intro a ha
    rcases (mem_accesses_writeDown _).mp ha with ha | ⟨hw, -⟩
    · exact absurd ha List.not_mem_nil
    · exact hw
  · intro j hj hj'
    have hlow : 11 - ((lowDigits 11 k.number ++ [48]).length : Int) < j := by omega
    have hhigh : j ≤ 11 := by omega
    exact (mem_accesses_writeDown _).mpr (Or.inr ⟨rfl, hlow, hhigh⟩)

theorem s32_neg_ne_zero {number : Int} (hlo : -2 ^ 31 ≤ number) (hneg : number < 0) :
    s32 (-number) ≠ 0 ∧ -2 ^ 31 ≤ s32 (-number) ∧ s32 (-number) < 2 ^ 31 := by
  by_cases hmin : number = -2 ^ 31
  · subst hmin
    decide
  · rw [s32_of_bounds (by omega) (by omega)]
    omega

/-- What is printed of a negative number starts with 0. -/
theorem not_prints_of_neg (h : k.number < 0) : ¬ Prints k (scPrintInt u k) := by
  obtain ⟨hlo, -⟩ := number_bounds k
  obtain ⟨hne, hlo', hhi'⟩ := s32_neg_ne_zero hlo h
  obtain ⟨hloop, hlen⟩ := printIntLoop_start k u hlo' hhi'
  have hsome : lowDigits 11 (s32 (-k.number)) ≠ [] := by
    rw [lowDigits, if_neg hne]
    exact List.cons_ne_nil _ _
  rw [if_neg hsome] at hloop
  rw [scPrintInt_eq, if_pos h, bind_done hloop, if_pos h]
  generalize hds : lowDigits 11 (s32 (-k.number)) = ds at *
  let b := (loopBuffer u (s32 (-k.number))).write (12 - ds.length) [BitVec.ofNat 8 '-'.toNat]
  let i : Int := 12 - ds.length - 1
  have hwrite := writeLoop_eq (ds.length + 1) i { k with buffer := b }
  have hwritten : consoleWrite i (12 - i) { k with buffer := b } = .done (12 - i)
      { k with output := k.output ++ b.slice i (ds.length + 1), buffer := b.read i (ds.length + 1) } := by
    unfold consoleWrite
    rw [show ((12 : Int) - i).toNat = ds.length + 1 by omega]
    exact bind_done hwrite
  have hprinted : (do
      put (12 - ds.length) [BitVec.ofNat 8 '-'.toNat]
      let _ ← consoleWrite (12 - ds.length - 1) (12 - (12 - ds.length - 1)))
        { k with buffer := loopBuffer u (s32 (-k.number)) } = .done ()
      { k with output := k.output ++ b.slice i (ds.length + 1), buffer := b.read i (ds.length + 1) } :=
    bind_done hwritten
  rw [hprinted]
  rintro ⟨houtput, -⟩
  have hslice : b.slice i (ds.length + 1) = numeral k.number := List.append_cancel_left houtput
  have hfirst : b.bytes i = 48 := by
    have hbyte := bytes_writeDown (b := ⟨12, u.heap, []⟩) (i := 11) (ds ++ [48]) ds.length (by simp)
    rw [List.getElem_concat_length rfl] at hbyte
    have hindex : i = 11 - (ds.length : Int) := show (12 : Int) - ds.length - 1 = _ by omega
    rw [Buffer.bytes_write_of_not_mem _ _ _ (by simp; omega), ← hbyte, hindex, loopBuffer, hds]
  rw [Buffer.slice_succ, hfirst, numeral, if_pos h] at hslice
  obtain ⟨hsign, -⟩ := List.cons.inj hslice
  exact absurd hsign (by decide)

/-- `PrintInt` prints the decimal numeral exactly when the number is not negative. -/
theorem prints_iff : Prints k (scPrintInt u k) ↔ 0 ≤ k.number := by
  refine ⟨fun h => ?_, prints_of_nonneg k u⟩
  by_contra hneg
  exact not_prints_of_neg k u (Int.not_le.mp hneg) h

end Call

/-- For -5 the call prints `0-`. -/
theorem not_prints_neg_five :
    ¬ Prints (calling (onePage (fun _ => 0) (-5) 0 0) [])
      (scPrintInt zeroed (calling (onePage (fun _ => 0) (-5) 0 0) [])) :=
  not_prints_of_neg _ zeroed (by decide)

end Nachos.Syscalls
