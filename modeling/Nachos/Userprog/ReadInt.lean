import Nachos.Lib.Decimal
import Nachos.Userprog.ConsoleInput

/-!
# `SC_ReadInt`

The call reads at most 11 characters of a line and computes their value with 32 bits. Without a sign
it looks at 10 of them at most, and `SynchConsole::Read` drops the characters that equal `EOF`.

`scReadInt_eq`: what the call returns for a line. `returns_iff`: for which lines this is the value of
the numeral on the line, or 0 where there is none.
-/

namespace Nachos.Syscalls

open Programs Program CInt Decimal Machine

/-! ### Statement -/

def IsDecimal (c : Byte) : Prop := 48 ≤ c.toInt ∧ c.toInt ≤ 57

instance (c : Byte) : Decidable (IsDecimal c) := inferInstanceAs (Decidable (_ ∧ _))

def minus : Byte := BitVec.ofNat 8 '-'.toNat
def plus : Byte := BitVec.ofNat 8 '+'.toNat

/-- The values of the characters of digits. -/
def digitValues (chars : List Byte) : List Int := chars.map fun c => c.toInt - 48

/-- The value of one or more decimal digits. -/
def natOf (chars : List Byte) : Option Int :=
  if chars ≠ [] ∧ ∀ c ∈ chars, IsDecimal c then some (extend 0 (digitValues chars)) else none

/-- The value of an optional sign and one or more decimal digits. -/
def intOf : List Byte → Option Int
  | [] => none
  | c :: chars =>
    if c = minus then (natOf chars).map fun v => -v
    else if c = plus then natOf chars
    else natOf (c :: chars)

/-- The number on a line, or 0 when there is none that fits into 32 bits. -/
def numberOn (chars : List Byte) : Int :=
  match intOf chars with
  | some v => if -2 ^ 31 ≤ v ∧ v < 2 ^ 31 then v else 0
  | none => 0

def Signed (chars : List Byte) : Prop := chars.head? = some minus ∨ chars.head? = some plus

instance (chars : List Byte) : Decidable (Signed chars) := inferInstanceAs (Decidable (_ ∨ _))

/-- The characters of the buffer that the call looks at. -/
def scanned (chars : List Byte) : List Byte :=
  if chars.length = 11 ∧ ¬ Signed chars then chars.take 10 else chars

/-- What the call returns for a line. -/
def Line.number (l : Line) : Int :=
  if l.ending = .controlA then 0 else s32 ((intOf (scanned l.chars)).getD 0)

/-- The call has returned the given value. -/
def Returns (o : Outcome Kernel Stop Abort Unit) (v : Int) : Prop :=
  ∃ k', o = .done () k' ∧ (k'.machine.registers resultReg).toInt = v

/-- The characters of a line that the call looks at. -/
def lookedAt (text : List Byte) : List Byte := scanned (text.filter (· ≠ eof))

/-- When the call returns the number on a line. There is control-A in it, or what the call looks at is
no numeral, or it is the whole line with a number of 32 bits. Otherwise the number must be a multiple
of 2 ^ 32, and not be 0 when a digit that changes it was left out. -/
def ReadsRight (text : List Byte) : Prop :=
  controlA ∈ text ∨ ∀ v, intOf (lookedAt text) = some v →
    (lookedAt text = text ∧ -2 ^ 31 ≤ v ∧ v < 2 ^ 31) ∨
      ((2 ^ 32 : Int) ∣ v ∧ (v ≠ 0 ∨ ∀ c, text.getLast? = some c → ¬ (49 ≤ c.toInt ∧ c.toInt ≤ 57)))

/-! ### The loop -/

section Loop

variable {k : Kernel}

theorem slice_take (b : Buffer) (i : Int) {m n : Nat} (h : m ≤ n) :
    (b.slice i n).take m = b.slice i m := by
  unfold Buffer.slice
  rw [← List.map_take, List.take_range, Nat.min_eq_left h]

/-- The loop behind the first character. -/
theorem readIntLoop_eq (number multiplier : Int) {i : Int} (hi : 0 < i) {m n : Nat} (hm : m ≤ n) :
    ∃ b, readIntLoop n i (i + m) (s32 number) multiplier k =
      .done (if ∀ c ∈ k.buffer.slice i m, IsDecimal c
        then s32 (extend number (digitValues (k.buffer.slice i m))) else 0, multiplier)
        { k with buffer := b } := by
  induction m generalizing number i n k with
  | zero =>
    refine ⟨k.buffer, ?_⟩
    cases n with
    | zero => rfl
    | succ n =>
      unfold readIntLoop
      rw [if_neg (by simp)]
      rfl
  | succ m ih =>
    obtain ⟨n, rfl⟩ : ∃ n', n = n' + 1 := ⟨n - 1, by omega⟩
    have hget : get i k = .done (k.buffer.bytes i) { k with buffer := k.buffer.read i 1 } := rfl
    unfold readIntLoop
    rw [if_pos (by push_cast; omega), bind_done hget, Buffer.slice_succ]
    simp only [if_neg (show ¬ (i = 0 ∧ _) from fun h => absurd h.1 hi.ne')]
    generalize k.buffer.bytes i = c
    by_cases hc : IsDecimal c
    · have hc' : ¬ (c.toInt < 48 ∨ c.toInt > 57) := by
        unfold IsDecimal at hc
        omega
      obtain ⟨b, hloop⟩ := ih (number * 10 + (c.toInt - 48)) (i := i + 1) (n := n)
        (k := { k with buffer := k.buffer.read i 1 }) (by omega) (by omega)
      refine ⟨b, ?_⟩
      rw [if_neg hc', s32_mul_add, show i + ((m + 1 : Nat) : Int) = i + 1 + m by push_cast; ring]
      refine hloop.trans ?_
      simp only [List.forall_mem_cons, hc, true_and]
      rfl
    · have hc' : c.toInt < 48 ∨ c.toInt > 57 := by
        unfold IsDecimal at hc
        omega
      refine ⟨k.buffer.read i 1, ?_⟩
      rw [if_pos hc', if_neg fun h => hc (h c List.mem_cons_self)]
      rfl

theorem s32_natOf (chars : List Byte) : s32 ((natOf chars).getD 0) =
    if ∀ c ∈ chars, IsDecimal c then s32 (extend 0 (digitValues chars)) else 0 := by
  unfold natOf
  by_cases hall : ∀ c ∈ chars, IsDecimal c
  · rw [if_pos hall]
    cases chars with
    | nil => rfl
    | cons c chars => rw [if_pos ⟨List.cons_ne_nil _ _, hall⟩, Option.getD_some]
  · rw [if_neg hall, if_neg fun h => hall h.2]
    rfl

theorem scanned_of_signed {chars : List Byte} (h : Signed chars) : scanned chars = chars :=
  if_neg fun hn => hn.2 h

theorem scanned_of_length {chars : List Byte} (h : chars.length ≠ 11) : scanned chars = chars :=
  if_neg fun hn => h hn.1

/-- Without a sign the first character is a digit or the end. -/
theorem intOf_cons {c : Byte} (hminus : c ≠ minus) (hplus : c ≠ plus) (chars : List Byte) :
    intOf (c :: chars) = natOf (c :: chars) := by
  rw [intOf, if_neg hminus, if_neg hplus]

theorem s32_natOf_cons (c : Byte) (chars : List Byte) : s32 ((natOf (c :: chars)).getD 0) =
    if IsDecimal c then
      if ∀ d ∈ chars, IsDecimal d then s32 (extend (c.toInt - 48) (digitValues chars)) else 0
    else 0 := by
  rw [s32_natOf]
  simp only [List.forall_mem_cons, ite_and]
  have hextend : extend 0 (digitValues (c :: chars)) = extend (0 * 10 + (c.toInt - 48)) (digitValues chars) :=
    rfl
  rw [hextend, zero_mul, zero_add]

/-- What the call looks at behind a first character that is no sign. -/
theorem scanned_cons {c : Byte} (hminus : c ≠ minus) (hplus : c ≠ plus) (chars : List Byte) :
    ∃ m ≤ chars.length, scanned (c :: chars) = c :: chars.take m ∧
      (if (1 : Int) + chars.length = 11 then 10 else (1 : Int) + chars.length) = 1 + m := by
  have hsigned : ¬ Signed (c :: chars) := by
    rintro (h | h)
    · exact hminus (Option.some.inj h)
    · exact hplus (Option.some.inj h)
  by_cases hfull : chars.length = 10
  · refine ⟨9, by omega, ?_, by rw [if_pos (by omega)]; rfl⟩
    unfold scanned
    rw [if_pos ⟨by rw [List.length_cons, hfull], hsigned⟩]
    rfl
  · refine ⟨chars.length, Nat.le_refl _, ?_, if_neg (by omega)⟩
    rw [scanned_of_length (by rw [List.length_cons]; omega), List.take_length]

/-- The loop from the first character on. -/
theorem readIntLoop_start {chars : List Byte} (hslice : k.buffer.slice 0 chars.length = chars)
    (hlen : chars.length ≤ 11) (hne : chars ≠ []) :
    ∃ number multiplier b, readIntLoop chars.length 0 chars.length 0 1 k =
        .done (number, multiplier) { k with buffer := b } ∧
      s32 (number * multiplier) = s32 ((intOf (scanned chars)).getD 0) := by
  obtain ⟨c, chars, rfl⟩ := List.exists_cons_of_ne_nil hne
  rw [List.length_cons] at hlen
  rw [List.length_cons, Buffer.slice_succ, zero_add] at hslice
  obtain ⟨hc, hrest⟩ := List.cons.inj hslice
  have hget : get 0 k = .done c { k with buffer := k.buffer.read 0 1 } := by rw [← hc]; rfl
  have hcast : ((chars.length + 1 : Nat) : Int) = 1 + chars.length := by push_cast; ring
  have hsigned : ∀ multiplier, ∃ b, readIntLoop chars.length 1 (1 + chars.length) 0 multiplier
      { k with buffer := k.buffer.read 0 1 } =
        .done (s32 ((natOf chars).getD 0), multiplier) { k with buffer := b } := by
    intro multiplier
    obtain ⟨b, hloop⟩ := readIntLoop_eq (k := { k with buffer := k.buffer.read 0 1 }) 0 multiplier
      (show (0 : Int) < 1 by decide) (Nat.le_refl chars.length)
    refine ⟨b, hloop.trans ?_⟩
    rw [s32_natOf]
    simp only [show (k.buffer.read 0 1).slice 1 chars.length = chars from hrest]
  rw [List.length_cons, readIntLoop, if_pos (by omega), bind_done hget, hcast]
  by_cases hminus : c = minus
  · obtain ⟨b, hloop⟩ := hsigned (-1)
    refine ⟨s32 ((natOf chars).getD 0), -1, b, ?_, ?_⟩
    · rw [if_pos ⟨rfl, hminus⟩, zero_add]
      exact hloop
    · rw [scanned_of_signed (Or.inl (by rw [hminus]; rfl)), s32_neg]
      rw [intOf, if_pos hminus]
      cases natOf chars <;> rfl
  · rw [if_neg fun h => hminus h.2]
    by_cases hplus : c = plus
    · obtain ⟨b, hloop⟩ := hsigned 1
      refine ⟨s32 ((natOf chars).getD 0), 1, b, ?_, ?_⟩
      · rw [if_pos ⟨rfl, hplus⟩, zero_add]
        exact hloop
      · rw [scanned_of_signed (Or.inr (by rw [hplus]; rfl)), Int.mul_one, s32_s32, intOf,
          if_neg hminus, if_pos hplus]
    · obtain ⟨m, hm, hscanned, hnum⟩ := scanned_cons hminus hplus chars
      rw [if_neg fun h => hplus h.2, hscanned, intOf_cons hminus hplus]
      simp only [true_and, hnum]
      have htake : k.buffer.slice 1 m = chars.take m := by rw [← slice_take _ _ hm, hrest]
      by_cases hdecimal : IsDecimal c
      · have hdigit : ¬ (c.toInt < 48 ∨ c.toInt > 57) := by
          unfold IsDecimal at hdecimal
          omega
        obtain ⟨b, hloop⟩ := readIntLoop_eq (k := { k with buffer := k.buffer.read 0 1 })
          (c.toInt - 48) 1 (show (0 : Int) < 1 by decide) hm
        refine ⟨s32 ((natOf (c :: chars.take m)).getD 0), 1, b, ?_, ?_⟩
        · rw [if_neg hdigit, zero_mul, zero_add, zero_add, s32_natOf_cons, if_pos hdecimal, ← htake]
          exact hloop
        · rw [Int.mul_one, s32_s32]
      · have hother : c.toInt < 48 ∨ c.toInt > 57 := by
          unfold IsDecimal at hdecimal
          omega
        refine ⟨0, 1, k.buffer.read 0 1, ?_, ?_⟩
        · rw [if_pos hother]
          rfl
        · rw [s32_natOf_cons, if_neg hdecimal]
          rfl

end Loop

/-! ### The call -/

section Call

variable {k : Kernel} {u : Uninit}

theorem slice_filled_chars (size : Int) (heap : Int → Byte) (numBytes : Int) (l : Line) :
    (filled size heap numBytes l).slice 0 l.chars.length = l.chars := by
  unfold Buffer.slice
  apply List.ext_getElem
  · rw [List.length_map, List.length_range]
  · intro j hj hj'
    rw [List.getElem_map, List.getElem_range, zero_add,
      bytes_filled size heap numBytes l (Int.natCast_nonneg j) (by exact_mod_cast hj'), Int.toNat_natCast,
      List.getD_eq_getElem _ _ hj']

theorem result_returned (k : Kernel) (v : Int) :
    (k.returned v).machine.registers resultReg = BitVec.ofInt 32 v := by
  show Function.update k.machine.registers resultReg (BitVec.ofInt 32 v) resultReg = _
  rw [Function.update_self]

/-- The call takes a line and returns its number. -/
theorem scReadInt_eq (u : Uninit) {l : Line} (hl : line 11 k.input = l) (hending : l.ending ≠ .waiting) :
    ∃ b, scReadInt u k =
      .done () (({ k with input := l.rest, buffer := b } : Kernel).returned l.number) := by
  subst hl
  obtain ⟨hlen, -, -⟩ := line_chars 11 k.input
  unfold scReadInt Line.number
  rw [newBuffer_consoleRead (by decide)]
  simp only [show (11 : Int).toNat = 11 from rfl, if_neg hending]
  rcases result_cases hending u.ch with ⟨hstop, hresult⟩ | ⟨hcontrolA, -, hresult⟩
  · have hcontrolA : (line 11 k.input).ending = .controlA :=
      hstop.resolve_right fun h => absurd h.1 (by decide)
    refine ⟨filled 12 u.heap 11 (line 11 k.input), ?_⟩
    rw [hresult, if_pos hcontrolA, if_neg (by decide)]
    rfl
  · rw [hresult, if_neg hcontrolA]
    by_cases hempty : (line 11 k.input).chars = []
    · refine ⟨filled 12 u.heap 11 (line 11 k.input), ?_⟩
      rw [hempty, if_neg (by decide)]
      rfl
    · have hpos := List.length_pos_iff.mpr hempty
      obtain ⟨number, multiplier, b, hloop, hnumber⟩ := readIntLoop_start
        (k := { k with input := (line 11 k.input).rest, buffer := filled 12 u.heap 11 (line 11 k.input) })
        (slice_filled_chars 12 u.heap 11 (line 11 k.input)) hlen hempty
      refine ⟨b, ?_⟩
      rw [if_pos (by exact_mod_cast hpos), Int.toNat_natCast, bind_done hloop, hnumber]
      rfl

/-- The value that is returned fits into the register. -/
theorem returns_number_iff (u : Uninit) {l : Line} (hl : line 11 k.input = l)
    (hending : l.ending ≠ .waiting) {v : Int} : Returns (scReadInt u k) v ↔ l.number = v := by
  obtain ⟨b, hdone⟩ := scReadInt_eq u hl hending
  have hvalue : ((({ k with input := l.rest, buffer := b } : Kernel).returned
      l.number).machine.registers resultReg).toInt = l.number := by
    rw [result_returned]
    unfold Line.number
    split
    · rfl
    · exact toInt_ofInt_s32 _
  unfold Returns
  rw [hdone]
  constructor
  · rintro ⟨k', hk', rfl⟩
    cases hk'
    exact hvalue.symm
  · rintro rfl
    exact ⟨_, rfl, hvalue⟩

end Call

/-! ### Lines -/

section Lines

variable {text rest : List Byte} {n : Nat}

/-- A line that is not too long and has no control-A. -/
theorem line_typed (hn : newline ∉ text) (ha : controlA ∉ text)
    (hlen : (text.filter (· ≠ eof)).length ≤ n) :
    (line n (text ++ newline :: rest)).chars = text.filter (· ≠ eof) ∧
      (line n (text ++ newline :: rest)).ending ≠ .waiting ∧
      (line n (text ++ newline :: rest)).ending ≠ .controlA := by
  induction text generalizing n with
  | nil =>
    cases n with
    | zero => exact ⟨rfl, by simp [line], by simp [line]⟩
    | succ n =>
      have hline : line (n + 1) (newline :: rest) = ⟨[], .newline, rest⟩ := by
        rw [line, if_neg (by decide), if_pos rfl]
      rw [List.nil_append, hline]
      exact ⟨rfl, by simp, by simp⟩
  | cons c text ih =>
    obtain ⟨hnc, hn⟩ := List.ne_and_not_mem_of_not_mem_cons hn
    obtain ⟨hac, ha⟩ := List.ne_and_not_mem_of_not_mem_cons ha
    by_cases hc : c = eof
    · have hfilter : (c :: text).filter (· ≠ eof) = text.filter (· ≠ eof) :=
        List.filter_cons_of_neg (by simp [hc])
      rw [hfilter] at hlen ⊢
      cases n with
      | zero => exact ⟨(List.length_eq_zero_iff.mp (Nat.le_zero.mp hlen)).symm, by simp [line], by simp [line]⟩
      | succ n =>
        rw [List.cons_append, line, if_pos hc]
        exact ih hn ha hlen
    · have hfilter : (c :: text).filter (· ≠ eof) = c :: text.filter (· ≠ eof) :=
        List.filter_cons_of_pos (by simp [hc])
      rw [hfilter] at hlen ⊢
      obtain ⟨n, rfl⟩ : ∃ n', n = n' + 1 := ⟨n - 1, by rw [List.length_cons] at hlen; omega⟩
      rw [List.cons_append, line, if_neg hc, if_neg (Ne.symm hnc), if_neg (Ne.symm hac)]
      obtain ⟨hchars, hwaiting, hcontrolA⟩ := ih hn ha (Nat.le_of_succ_le_succ hlen)
      exact ⟨congrArg (c :: ·) hchars, hwaiting, hcontrolA⟩

/-- A line with control-A. -/
theorem line_controlA (hn : newline ∉ text) (ha : controlA ∈ text) (hlen : text.length ≤ n) :
    (line n (text ++ rest)).ending = .controlA := by
  induction text generalizing n with
  | nil => cases ha
  | cons c text ih =>
    obtain ⟨hnc, hn⟩ := List.ne_and_not_mem_of_not_mem_cons hn
    rw [List.length_cons] at hlen
    obtain ⟨n, rfl⟩ : ∃ n', n = n' + 1 := ⟨n - 1, by omega⟩
    rw [List.cons_append, line]
    by_cases hc : c = eof
    · rw [if_pos hc]
      have hne : controlA ≠ c := by rw [hc]; decide
      exact ih hn (List.mem_of_ne_of_mem hne ha) (Nat.le_of_succ_le hlen)
    · rw [if_neg hc, if_neg (Ne.symm hnc)]
      by_cases hca : c = controlA
      · rw [if_pos hca]
      · rw [if_neg hca]
        exact ih hn (List.mem_of_ne_of_mem (Ne.symm hca) ha) (Nat.le_of_succ_le_succ hlen)

end Lines

/-! ### Numerals -/

section Numerals

variable {text chars : List Byte} {c : Byte} {v : Int}

theorem natOf_eq_some : natOf chars = some v ↔
    chars ≠ [] ∧ (∀ c ∈ chars, IsDecimal c) ∧ extend 0 (digitValues chars) = v := by
  unfold natOf
  rw [Option.ite_none_right_eq_some, and_assoc, Option.some.injEq]

theorem natOf_nonneg (h : natOf chars = some v) : 0 ≤ v := by
  obtain ⟨-, hall, rfl⟩ := natOf_eq_some.mp h
  refine extend_nonneg (Int.le_refl 0) fun d hd => ?_
  obtain ⟨c, hc, rfl⟩ := List.mem_map.mp hd
  have := hall c hc
  unfold IsDecimal at this
  omega

/-- One more digit. -/
theorem natOf_concat (hne : chars ≠ []) : natOf (chars ++ [c]) =
    if IsDecimal c then (natOf chars).map fun v => v * 10 + (c.toInt - 48) else none := by
  by_cases hc : IsDecimal c
  · rw [if_pos hc]
    by_cases hall : ∀ d ∈ chars, IsDecimal d
    · have hconcat : ∀ d ∈ chars ++ [c], IsDecimal d := by
        intro d hd
        rcases List.mem_append.mp hd with hd | hd
        · exact hall d hd
        · rw [List.mem_singleton.mp hd]
          exact hc
      unfold natOf
      rw [if_pos ⟨by simp, hconcat⟩, if_pos ⟨hne, hall⟩, Option.map_some]
      unfold digitValues
      rw [List.map_append, List.map_singleton, extend_concat]
    · unfold natOf
      rw [if_neg fun h => hall fun d hd => h.2 d (List.mem_append_left _ hd), if_neg fun h => hall h.2]
      rfl
  · rw [if_neg hc]
    exact if_neg fun h => hc (h.2 c (List.mem_append_right _ List.mem_cons_self))

/-- A character that is neither a digit nor a sign. -/
theorem intOf_eq_none (hc : c ∈ text) (hminus : c ≠ minus) (hplus : c ≠ plus) (hdecimal : ¬ IsDecimal c) :
    intOf text = none := by
  have hnone : ∀ chars : List Byte, c ∈ chars → natOf chars = none :=
    fun chars hmem => if_neg fun h => hdecimal (h.2 c hmem)
  cases text with
  | nil => rfl
  | cons d text =>
    rw [intOf]
    by_cases hd : d = minus
    · rw [if_pos hd, hnone text (List.mem_of_ne_of_mem (by rwa [hd]) hc)]
      rfl
    · rw [if_neg hd]
      by_cases hd' : d = plus
      · rw [if_pos hd']
        exact hnone text (List.mem_of_ne_of_mem (by rwa [hd']) hc)
      · rw [if_neg hd']
        exact hnone (d :: text) hc

theorem numberOn_of_none (h : intOf text = none) : numberOn text = 0 := by
  unfold numberOn
  rw [h]

theorem numberOn_of_some (h : intOf text = some v) :
    numberOn text = if -2 ^ 31 ≤ v ∧ v < 2 ^ 31 then v else 0 := by
  unfold numberOn
  rw [h]

theorem numberOn_controlA (h : controlA ∈ text) : numberOn text = 0 :=
  numberOn_of_none (intOf_eq_none h (by decide) (by decide) (by decide))

theorem numberOn_eof (h : eof ∈ text) : numberOn text = 0 :=
  numberOn_of_none (intOf_eq_none h (by decide) (by decide) (by decide))

theorem natOf_pos (h : natOf (chars ++ [c]) = some v) (hc : 49 ≤ c.toInt) : 0 < v := by
  obtain ⟨-, hall, rfl⟩ := natOf_eq_some.mp h
  unfold digitValues
  rw [List.map_append, List.map_singleton, extend_concat]
  have hnonneg : 0 ≤ extend 0 (chars.map fun c => c.toInt - 48) := by
    refine extend_nonneg (Int.le_refl 0) fun d hd => ?_
    obtain ⟨e, he, rfl⟩ := List.mem_map.mp hd
    have := hall e (List.mem_append_left _ he)
    unfold IsDecimal at this
    omega
  omega

/-- A numeral whose last digit is not 0. -/
theorem intOf_ne_zero (h : intOf (chars ++ [c]) = some v) (hc : 49 ≤ c.toInt) : v ≠ 0 := by
  cases chars with
  | nil =>
    have hminus : c ≠ minus := by
      rintro rfl
      exact absurd hc (by decide)
    have hplus : c ≠ plus := by
      rintro rfl
      exact absurd hc (by decide)
    rw [List.nil_append, intOf_cons hminus hplus] at h
    have hpos : 0 < v := natOf_pos (show natOf ([] ++ [c]) = some v from h) hc
    exact hpos.ne'
  | cons d chars =>
    rw [List.cons_append, intOf] at h
    split at h
    · obtain ⟨w, hw, rfl⟩ := Option.map_eq_some_iff.mp h
      have := natOf_pos hw hc
      omega
    · split at h
      · exact (natOf_pos h hc).ne'
      · have hpos : 0 < v := natOf_pos (show natOf ((d :: chars) ++ [c]) = some v from h) hc
        exact hpos.ne'

end Numerals

/-! ### When the call returns the number -/

section ReadsRight

variable {text : List Byte}

theorem s32_getD_eq_zero_iff (o : Option Int) :
    s32 (o.getD 0) = 0 ↔ ∀ v, o = some v → (2 ^ 32 : Int) ∣ v := by
  cases o with
  | none => exact iff_of_true rfl fun v h => absurd h (by simp)
  | some w =>
    rw [Option.getD_some, s32_eq_zero_iff]
    exact ⟨fun h v hv => Option.some.inj hv ▸ h, fun h => h w rfl⟩

/-- When the call looks at the whole line, the number must fit into 32 bits or be cut off to 0. -/
theorem reads_whole (h : lookedAt text = text) (ha : controlA ∉ text) :
    s32 ((intOf (lookedAt text)).getD 0) = numberOn text ↔ ReadsRight text := by
  unfold ReadsRight
  rw [h, or_iff_right ha]
  cases hv : intOf text with
  | none =>
    rw [numberOn_of_none hv]
    exact iff_of_true rfl fun v h => absurd h (by simp)
  | some w =>
    rw [numberOn_of_some hv, Option.getD_some]
    by_cases hrange : -2 ^ 31 ≤ w ∧ w < 2 ^ 31
    · rw [if_pos hrange]
      refine iff_of_true (s32_of_bounds hrange.1 hrange.2) fun v hw => ?_
      obtain rfl := Option.some.inj hw
      exact Or.inl ⟨rfl, hrange⟩
    · rw [if_neg hrange, s32_eq_zero_iff]
      constructor
      · intro hdvd v hw
        obtain rfl := Option.some.inj hw
        exact Or.inr ⟨hdvd, Or.inl fun hzero => hrange (by omega)⟩
      · intro hall
        rcases hall w rfl with ⟨-, hin⟩ | ⟨hdvd, -⟩
        · exact absurd hin hrange
        · exact hdvd

/-- A character that equals `EOF` is dropped. -/
theorem reads_eof (he : eof ∈ text) (hlen : text.length ≤ 11) (ha : controlA ∉ text) :
    s32 ((intOf (lookedAt text)).getD 0) = numberOn text ↔ ReadsRight text := by
  have hshort : (text.filter (· ≠ eof)).length < text.length :=
    List.length_filter_lt_length_iff_exists.mpr ⟨eof, he, by simp⟩
  have hlooked : lookedAt text = text.filter (· ≠ eof) := scanned_of_length (by omega)
  have hne : lookedAt text ≠ text := by
    intro h
    rw [hlooked] at h
    rw [h] at hshort
    exact Nat.lt_irrefl _ hshort
  unfold ReadsRight
  rw [numberOn_eof he, s32_getD_eq_zero_iff, or_iff_right ha]
  refine forall₂_congr fun v hv => ?_
  rw [or_iff_right fun h => hne h.1]
  refine (and_iff_left ?_).symm
  by_contra hzero
  obtain ⟨hv0, hlast⟩ := not_or.mp hzero
  obtain ⟨c, hc⟩ := not_forall.mp hlast
  obtain ⟨hc, hdigit⟩ := not_forall.mp hc
  obtain ⟨chars, rfl⟩ := List.getLast?_eq_some_iff.mp hc
  have hdigit := not_not.mp hdigit
  have hceof : c ≠ eof := by
    rintro rfl
    exact absurd hdigit.1 (by decide)
  rw [hlooked, List.filter_append, List.filter_cons_of_pos (by simp [hceof]), List.filter_nil] at hv
  exact hv0 (intOf_ne_zero hv hdigit.1)

/-- Of eleven characters without a sign the last one is not looked at. -/
theorem reads_cut {chars : List Byte} {c : Byte} (hlen : chars.length = 10)
    (hsigned : ¬ Signed (chars ++ [c])) (he : eof ∉ chars ++ [c]) (ha : controlA ∉ chars ++ [c]) :
    s32 ((intOf (lookedAt (chars ++ [c]))).getD 0) = numberOn (chars ++ [c]) ↔
      ReadsRight (chars ++ [c]) := by
  have hfilter : (chars ++ [c]).filter (· ≠ eof) = chars ++ [c] :=
    List.filter_eq_self.mpr fun d hd => by simpa using fun h : d = eof => he (h ▸ hd)
  have hlooked : lookedAt (chars ++ [c]) = chars := by
    unfold lookedAt scanned
    rw [hfilter, if_pos ⟨by simp [hlen], hsigned⟩, List.take_left' hlen]
  have hne : chars ≠ [] := by
    rintro rfl
    cases hlen
  obtain ⟨d, ds, rfl⟩ := List.exists_cons_of_ne_nil hne
  have hminus : d ≠ minus := fun h => hsigned (Or.inl (by rw [h]; rfl))
  have hplus : d ≠ plus := fun h => hsigned (Or.inr (by rw [h]; rfl))
  have hvalue : intOf (d :: ds) = natOf (d :: ds) := intOf_cons hminus hplus ds
  have hwhole : intOf (d :: ds ++ [c]) = if IsDecimal c then
      (natOf (d :: ds)).map fun v => v * 10 + (c.toInt - 48) else none := by
    rw [List.cons_append, intOf_cons hminus hplus, ← List.cons_append, natOf_concat hne]
  unfold ReadsRight
  rw [hlooked, or_iff_right ha, hvalue, List.getLast?_append]
  cases hv : natOf (d :: ds) with
  | none =>
    rw [hv] at hwhole
    rw [numberOn_of_none (by rw [hwhole]; split <;> rfl)]
    exact iff_of_true rfl fun v h => absurd h (by simp)
  | some w =>
    have hw := natOf_nonneg hv
    rw [hv] at hwhole
    have hright : (∀ v, some w = some v → (d :: ds = d :: ds ++ [c] ∧ -2 ^ 31 ≤ v ∧ v < 2 ^ 31) ∨
        ((2 ^ 32 : Int) ∣ v ∧ (v ≠ 0 ∨ ∀ e, ([c].getLast?.or (d :: ds).getLast?) = some e →
          ¬ (49 ≤ e.toInt ∧ e.toInt ≤ 57)))) ↔
        (2 ^ 32 : Int) ∣ w ∧ (w ≠ 0 ∨ ¬ (49 ≤ c.toInt ∧ c.toInt ≤ 57)) := by
      simp
    rw [hright, Option.getD_some]
    by_cases hc : IsDecimal c
    · have hwhole : intOf (d :: ds ++ [c]) = some (w * 10 + (c.toInt - 48)) := by
        rw [hwhole, if_pos hc, Option.map_some]
      rw [numberOn_of_some hwhole]
      unfold IsDecimal at hc
      by_cases hrange : w * 10 + (c.toInt - 48) < 2 ^ 31
      · rw [if_pos ⟨by omega, hrange⟩, s32_of_bounds (by omega) (by omega)]
        omega
      · rw [if_neg fun h => hrange h.2, s32_eq_zero_iff]
        omega
    · rw [if_neg hc] at hwhole
      rw [numberOn_of_none hwhole, s32_eq_zero_iff]
      unfold IsDecimal at hc
      omega

/-- `ReadInt` returns the number on a line, or 0 where there is none, exactly for these lines. -/
theorem returns_iff (k : Kernel) (u : Uninit) {rest : List Byte} (hn : newline ∉ text)
    (hlen : text.length ≤ 11) :
    Returns (scReadInt u { k with input := text ++ newline :: rest }) (numberOn text) ↔
      ReadsRight text := by
  by_cases ha : controlA ∈ text
  · have hending : (line 11 (text ++ newline :: rest)).ending = .controlA := line_controlA hn ha hlen
    have hwaiting : (line 11 (text ++ newline :: rest)).ending ≠ .waiting := by
      rw [hending]
      simp
    rw [returns_number_iff u rfl hwaiting, numberOn_controlA ha]
    exact iff_of_true (if_pos hending) (Or.inl ha)
  · have hshort : (text.filter (· ≠ eof)).length ≤ 11 :=
      Nat.le_trans (List.length_filter_le _ _) hlen
    obtain ⟨hchars, hwaiting, hcontrolA⟩ := @line_typed text rest 11 hn ha hshort
    rw [returns_number_iff u rfl hwaiting]
    unfold Line.number
    simp only [if_neg hcontrolA, hchars]
    show s32 ((intOf (lookedAt text)).getD 0) = numberOn text ↔ ReadsRight text
    by_cases he : eof ∈ text
    · exact reads_eof he hlen ha
    · have hfilter : text.filter (· ≠ eof) = text :=
        List.filter_eq_self.mpr fun d hd => by simpa using fun h : d = eof => he (h ▸ hd)
      by_cases hcut : text.length = 11 ∧ ¬ Signed text
      · rcases List.eq_nil_or_concat text with rfl | ⟨chars, c, rfl⟩
        · exact absurd hcut.1 (by decide)
        · rw [List.concat_eq_append] at *
          have hten : chars.length = 10 := by simpa using hcut.1
          exact reads_cut hten hcut.2 he ha
      · refine reads_whole ?_ ha
        unfold lookedAt scanned
        rw [hfilter, if_neg hcut]

end ReadsRight

/-- For 2 ^ 31 the call returns -2 ^ 31. -/
theorem not_returns_overflow :
    ¬ Returns (scReadInt zeroed (calling (onePage (fun _ => 0) 0 0 0)
        ([0x32, 0x31, 0x34, 0x37, 0x34, 0x38, 0x33, 0x36, 0x34, 0x38] ++ [newline])))
      (numberOn [0x32, 0x31, 0x34, 0x37, 0x34, 0x38, 0x33, 0x36, 0x34, 0x38]) := by
  rw [returns_number_iff (l := ⟨[0x32, 0x31, 0x34, 0x37, 0x34, 0x38, 0x33, 0x36, 0x34, 0x38], .newline, []⟩)
    zeroed rfl (by simp)]
  decide

/-- The smallest number of all. -/
theorem returns_smallest :
    Returns (scReadInt zeroed { calling (onePage (fun _ => 0) 0 0 0) [] with
        input := [0x2D, 0x32, 0x31, 0x34, 0x37, 0x34, 0x38, 0x33, 0x36, 0x34, 0x38] ++ [newline] })
      (numberOn [0x2D, 0x32, 0x31, 0x34, 0x37, 0x34, 0x38, 0x33, 0x36, 0x34, 0x38]) := by
  have hvalue : intOf [0x2D, 0x32, 0x31, 0x34, 0x37, 0x34, 0x38, 0x33, 0x36, 0x34, 0x38] =
      some (-2 ^ 31) := by decide
  refine (returns_iff _ zeroed (by decide) (by decide)).mpr (Or.inr fun v hv => ?_)
  have hlooked : lookedAt [0x2D, 0x32, 0x31, 0x34, 0x37, 0x34, 0x38, 0x33, 0x36, 0x34, 0x38] =
      [0x2D, 0x32, 0x31, 0x34, 0x37, 0x34, 0x38, 0x33, 0x36, 0x34, 0x38] := by decide
  rw [hlooked, hvalue] at hv
  obtain rfl := Option.some.inj hv
  exact Or.inl ⟨hlooked, by omega, by omega⟩

end Nachos.Syscalls
