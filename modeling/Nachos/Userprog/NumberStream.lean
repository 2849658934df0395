import Nachos.Userprog.FileReading
import Nachos.Userprog.PrintInt
import Nachos.Userprog.ReadInt

/-!
# Numbers that are read one after the other

A program that calls `ReadInt` several times, while the numbers are typed one on each line. The call
reads 11 characters, which is the length of the longest numeral: it leaves the newline behind such a
numeral for the next call, which then finds an empty line and returns 0.

`readInts_iff`: the calls return the numbers exactly when only zeros follow the first number with such
a numeral.
-/

namespace Nachos.Syscalls

open Programs Program CInt Decimal Machine

/-! ### Statement -/

/-- What is typed for a list of numbers. -/
def typedLines (l : List Word) : List Byte := l.flatMap fun w => numeral w.toInt ++ [newline]

/-- The results of `n` calls of `SC_ReadInt` from the `i`-th one on. -/
def readInts (q : Nat → Request) : Nat → Nat → Kernel → Option (List Word)
  | 0, _, _ => some []
  | n + 1, i, k =>
    match scReadInt (q i).uninit { k with machine := (q i).machine } with
    | .done _ k' => (readInts q n (i + 1) k').map fun l => k'.machine.registers resultReg :: l
    | .trap _ _ => none
    | .fault _ => none

/-- The numeral has 11 characters. -/
def Long (w : Word) : Prop := w.toInt ≤ -10 ^ 9

instance (w : Word) : Decidable (Long w) := inferInstanceAs (Decidable (_ ≤ _))

/-- What the calls return as long as there is input. -/
def answers (l : List Word) : List Word := l.flatMap fun w => if Long w then [w, 0] else [w]

/-! ### Numerals -/

section Numerals

theorem toInt_digitChar : ∀ d < 10, (digitChar d).toInt = d + 48 := by decide

theorem ordinary_digitChar : ∀ d < 10, Ordinary (digitChar d) := by
  unfold Ordinary
  decide

/-- The digits of a number, the highest one first. -/
theorem unsigned_eq (n : Int) : ∃ ds : List Nat, numeral.unsigned n = ds.map digitChar ∧ ds ≠ [] ∧
    (∀ d ∈ ds, d < 10) ∧ extend 0 (ds.map Nat.cast) = n.natAbs ∧
    ∀ m, 0 < m → (ds.length ≤ m ↔ n.natAbs < 10 ^ m) := by
  unfold numeral.unsigned
  by_cases hzero : n = 0
  · subst hzero
    refine ⟨[0], rfl, by simp, by simp, rfl, fun m hm => ?_⟩
    exact iff_of_true hm (Nat.pow_pos (by decide))
  · have hne : Nat.digits 10 n.natAbs ≠ [] := by
      rw [ne_eq, Nat.digits_eq_nil_iff_eq_zero]
      omega
    refine ⟨(Nat.digits 10 n.natAbs).reverse, ?_, by simpa using hne, fun d hd => ?_, extend_digits _,
      fun m hm => ?_⟩
    · rw [if_neg hzero, List.map_reverse]
    · exact Nat.digits_lt_base (by decide) (List.mem_reverse.mp hd)
    · rw [List.length_reverse, Nat.digits_length_le_iff (by decide)]

theorem natOf_map_digitChar {ds : List Nat} (hne : ds ≠ []) (hds : ∀ d ∈ ds, d < 10) :
    natOf (ds.map digitChar) = some (extend 0 (ds.map Nat.cast)) := by
  refine natOf_eq_some.mpr ⟨by simpa using hne, fun c hc => ?_, congrArg _ ?_⟩
  · obtain ⟨d, hd, rfl⟩ := List.mem_map.mp hc
    have hlt := hds d hd
    unfold IsDecimal
    rw [toInt_digitChar d hlt]
    omega
  · unfold digitValues
    rw [List.map_map]
    refine List.map_congr_left fun d hd => ?_
    rw [Function.comp_apply, toInt_digitChar d (hds d hd), Int.add_sub_cancel]

/-- A numeral denotes its number. -/
theorem intOf_numeral (n : Int) : intOf (numeral n) = some n := by
  obtain ⟨ds, hds, hne, hlt, hvalue, -⟩ := unsigned_eq n
  have hnat : natOf (numeral.unsigned n) = some (n.natAbs : Int) := by
    rw [hds, natOf_map_digitChar hne hlt, hvalue]
  unfold numeral
  by_cases hneg : n < 0
  · rw [if_pos hneg, intOf, show BitVec.ofNat 8 '-'.toNat = minus from rfl, if_pos rfl, hnat,
      Option.map_some]
    congr 1
    omega
  · rw [if_neg hneg]
    obtain ⟨d, ds, rfl⟩ := List.exists_cons_of_ne_nil hne
    have hdigit := toInt_digitChar d (hlt d List.mem_cons_self)
    have hminus : digitChar d ≠ minus := by
      intro h
      rw [h] at hdigit
      have : (minus.toInt : Int) = 45 := by decide
      omega
    have hplus : digitChar d ≠ plus := by
      intro h
      rw [h] at hdigit
      have : (plus.toInt : Int) = 43 := by decide
      omega
    rw [hds] at hnat ⊢
    rw [List.map_cons] at hnat ⊢
    rw [intOf_cons hminus hplus, hnat]
    congr 1
    omega

theorem ordinary_numeral (n : Int) : ∀ c ∈ numeral n, Ordinary c := by
  obtain ⟨ds, hds, -, hlt, -, -⟩ := unsigned_eq n
  have hunsigned : ∀ c ∈ numeral.unsigned n, Ordinary c := by
    intro c hc
    rw [hds] at hc
    obtain ⟨d, hd, rfl⟩ := List.mem_map.mp hc
    exact ordinary_digitChar d (hlt d hd)
  intro c hc
  unfold numeral at hc
  split at hc
  · rcases List.mem_cons.mp hc with rfl | hc
    · unfold Ordinary
      decide
    · exact hunsigned c hc
  · exact hunsigned c hc

/-- The numeral of a number of 32 bits. -/
theorem length_numeral (w : Word) :
    (Long w → (numeral w.toInt).length = 11) ∧ (¬ Long w → (numeral w.toInt).length ≤ 10) := by
  obtain ⟨ds, hds, -, -, -, hlen⟩ := unsigned_eq w.toInt
  have hlo := BitVec.le_toInt w
  have hhi := BitVec.toInt_lt (x := w)
  have hten := hlen 10 (by decide)
  have hnine := hlen 9 (by decide)
  unfold Long numeral
  rw [hds]
  split
  · rw [List.length_cons, List.length_map]
    omega
  · rw [List.length_map]
    omega

end Numerals

/-! ### One call -/

section Stream

variable {k : Kernel} {u : Uninit} {q : Nat → Request}

theorem line_append {s : List Byte} (hs : ∀ c ∈ s, Ordinary c) (m : Nat) (rest : List Byte) :
    line (s.length + m) (s ++ rest) = { line m rest with chars := s ++ (line m rest).chars } := by
  induction s with
  | nil => rw [List.length_nil, Nat.zero_add, List.nil_append, List.nil_append]
  | cons c s ih =>
    obtain ⟨heof, hnewline, hcontrolA⟩ := hs c List.mem_cons_self
    rw [List.length_cons, Nat.add_right_comm, List.cons_append, line, if_neg heof, if_neg hnewline,
      if_neg hcontrolA, ih fun d hd => hs d (List.mem_cons_of_mem c hd)]
    rfl

theorem line_newline (m : Nat) (rest : List Byte) :
    line (m + 1) (newline :: rest) = ⟨[], .newline, rest⟩ := by
  rw [line, if_neg (by decide), if_pos rfl]

theorem line_zero (rest : List Byte) : line 0 rest = ⟨[], .full, rest⟩ := by
  cases rest <;> rfl

/-- The line with a numeral, and what is left of the input. -/
theorem line_numeral (w : Word) (rest : List Byte) :
    line 11 (numeral w.toInt ++ newline :: rest) =
      if Long w then ⟨numeral w.toInt, .full, newline :: rest⟩
      else ⟨numeral w.toInt, .newline, rest⟩ := by
  obtain ⟨hlong, hshort⟩ := length_numeral w
  by_cases h : Long w
  · rw [if_pos h]
    have happend := line_append (ordinary_numeral w.toInt) 0 (newline :: rest)
    rw [hlong h, line_zero] at happend
    rw [happend, List.append_nil]
  · rw [if_neg h]
    obtain ⟨m, hm⟩ : ∃ m, 11 = (numeral w.toInt).length + (m + 1) :=
      ⟨10 - (numeral w.toInt).length, by have := hshort h; omega⟩
    rw [hm, line_append (ordinary_numeral w.toInt), line_newline, List.append_nil]

theorem number_numeral {w : Word} {l : Line} (hchars : l.chars = numeral w.toInt)
    (hending : l.ending ≠ .controlA) : l.number = w.toInt := by
  have hscanned : scanned (numeral w.toInt) = numeral w.toInt := by
    by_cases h : Long w
    · refine scanned_of_signed (Or.inl ?_)
      unfold numeral
      rw [if_pos (by unfold Long at h; omega)]
      rfl
    · have := (length_numeral w).2 h
      exact scanned_of_length (by omega)
  unfold Line.number
  rw [if_neg hending, hchars, hscanned, intOf_numeral, Option.getD_some]
  exact s32_of_bounds (BitVec.le_toInt w) (BitVec.toInt_lt (x := w))

theorem readInts_succ {l : Line} (hl : line 11 k.input = l) (hending : l.ending ≠ .waiting) (n i : Nat) :
    ∃ k', k'.input = l.rest ∧
      readInts q (n + 1) i k = (readInts q n (i + 1) k').map fun ws => BitVec.ofInt 32 l.number :: ws := by
  obtain ⟨b, hdone⟩ := scReadInt_eq (k := { k with machine := (q i).machine }) (q i).uninit hl hending
  refine ⟨({ k with machine := (q i).machine, input := l.rest, buffer := b } : Kernel).returned l.number,
    rfl, ?_⟩
  rw [readInts, hdone]
  simp only [result_returned]

theorem answers_long {w : Word} (h : Long w) (l : List Word) :
    answers (w :: l) = w :: 0 :: answers l := by
  unfold answers
  rw [List.flatMap_cons, if_pos h]
  rfl

theorem answers_short {w : Word} (h : ¬ Long w) (l : List Word) : answers (w :: l) = w :: answers l := by
  unfold answers
  rw [List.flatMap_cons, if_neg h]
  rfl

/-- The calls return the numbers in order, with a 0 behind each number that has a long numeral. -/
theorem readInts_eq (l : List Word) {n i : Nat} (hk : k.input = typedLines l)
    (hn : n ≤ (answers l).length) : readInts q n i k = some ((answers l).take n) := by
  induction l generalizing n i k with
  | nil =>
    obtain rfl : n = 0 := Nat.le_zero.mp hn
    rfl
  | cons w l ih =>
    cases n with
    | zero => rfl
    | succ n =>
      have hinput : k.input = numeral w.toInt ++ newline :: typedLines l := by
        rw [hk]
        unfold typedLines
        rw [List.flatMap_cons, List.append_assoc]
        rfl
      have hline := line_numeral w (typedLines l)
      rw [← hinput] at hline
      by_cases hlong : Long w
      · rw [if_pos hlong] at hline
        obtain ⟨k', hk', hcalls⟩ := readInts_succ (q := q) hline (by simp) n i
        rw [hcalls, number_numeral rfl (by simp), BitVec.ofInt_toInt, answers_long hlong]
        rw [answers_long hlong] at hn
        cases n with
        | zero => rfl
        | succ n =>
          have hempty : line 11 k'.input = ⟨[], .newline, typedLines l⟩ := by
            rw [hk']
            exact line_newline 10 (typedLines l)
          obtain ⟨k'', hk'', hcalls'⟩ := readInts_succ (q := q) hempty (by simp) n (i + 1)
          rw [hcalls', ih hk'' (by simpa using hn)]
          rfl
      · rw [if_neg hlong] at hline
        obtain ⟨k', hk', hcalls⟩ := readInts_succ (q := q) hline (by simp) n i
        rw [hcalls, number_numeral rfl (by simp), BitVec.ofInt_toInt, answers_short hlong]
        rw [answers_short hlong] at hn
        rw [ih hk' (by simpa using hn)]
        rfl

/-! ### When the calls return the numbers -/

theorem length_le_answers (l : List Word) : l.length ≤ (answers l).length := by
  induction l with
  | nil => exact Nat.le_refl 0
  | cons w l ih =>
    rw [List.length_cons]
    by_cases hlong : Long w
    · rw [answers_long hlong, List.length_cons, List.length_cons]
      omega
    · rw [answers_short hlong, List.length_cons]
      omega

/-- One zero too many is right only in front of zeros. -/
theorem take_zero_answers_iff (l : List Word) :
    (0 :: answers l).take l.length = l ↔ ∀ w ∈ l, w = 0 := by
  induction l with
  | nil => simp
  | cons w l ih =>
    rw [List.length_cons, List.take_succ_cons, List.cons.injEq, List.forall_mem_cons, ← ih]
    refine ⟨?_, ?_⟩
    · rintro ⟨rfl, h⟩
      rw [answers_short (by decide)] at h
      exact ⟨rfl, h⟩
    · rintro ⟨rfl, h⟩
      rw [answers_short (by decide)]
      exact ⟨rfl, h⟩

theorem take_answers_iff (l : List Word) :
    (answers l).take l.length = l ↔ l.Pairwise fun w w' => Long w → w' = 0 := by
  induction l with
  | nil => simp [answers]
  | cons w l ih =>
    rw [List.pairwise_cons, List.length_cons]
    by_cases hlong : Long w
    · rw [answers_long hlong, List.take_succ_cons, List.cons.injEq, take_zero_answers_iff]
      constructor
      · rintro ⟨-, hzeros⟩
        refine ⟨fun w' hw' _ => hzeros w' hw', List.pairwise_of_forall_mem_list ?_⟩
        exact fun _ _ w' hw' _ => hzeros w' hw'
      · rintro ⟨hzeros, -⟩
        exact ⟨rfl, fun w' hw' => hzeros w' hw' hlong⟩
    · rw [answers_short hlong, List.take_succ_cons, List.cons.injEq, ih]
      constructor
      · rintro ⟨-, h⟩
        exact ⟨fun _ _ h' => absurd h' hlong, h⟩
      · rintro ⟨-, h⟩
        exact ⟨rfl, h⟩

/-- As many calls as numbers were typed return the numbers exactly when only zeros follow the first
number with a numeral of 11 characters. -/
theorem readInts_iff (k : Kernel) (q : Nat → Request) (l : List Word) :
    readInts q l.length 0 { k with input := typedLines l } = some l ↔
      l.Pairwise fun w w' => w.toInt ≤ -10 ^ 9 → w' = 0 := by
  rw [readInts_eq l rfl (length_le_answers l), Option.some.injEq]
  exact take_answers_iff l

end Stream

/-- After the longest numeral the next call finds an empty line. -/
theorem not_readInts_long :
    readInts (fun _ => ⟨onePage (fun _ => 0) 0 0 0, zeroed⟩) 2 0
      { calling (onePage (fun _ => 0) 0 0 0) [] with
        input := typedLines [BitVec.ofInt 32 (-10 ^ 9), 5] } ≠
      some [BitVec.ofInt 32 (-10 ^ 9), 5] := by
  have hcalls := readInts_eq (q := fun _ => ⟨onePage (fun _ => 0) 0 0 0, zeroed⟩) (n := 2) (i := 0)
    (k := { calling (onePage (fun _ => 0) 0 0 0) [] with
      input := typedLines [BitVec.ofInt 32 (-10 ^ 9), 5] }) _ rfl (by decide)
  rw [hcalls]
  decide

end Nachos.Syscalls
