import Mathlib.Data.List.GetD
import Mathlib.Tactic.Ring
import Nachos.Userprog.SystemCalls

/-!
# What the parts of a system call do

One lemma for each routine that the calls share. `consoleRead_eq`: `SynchConsole::Read` takes a
`Line` from the input. `user2System_cases` and `system2UserLoop_cases` say which bytes are copied from
and to the user program, and when the machine halts instead.
-/

namespace Nachos.Syscalls

open Programs Program CInt Machine

/-! ### Buffers -/

theorem accessesFrom_succ (write : Bool) (i : Int) (n : Nat) :
    accessesFrom write i (n + 1) = ⟨write, i⟩ :: accessesFrom write (i + 1) n := by
  unfold accessesFrom
  rw [List.range_succ_eq_map, List.map_cons, List.map_map]
  refine congrArg₂ List.cons (by simp) (List.map_congr_left fun k _ => ?_)
  simp only [Function.comp_apply, Access.mk.injEq, true_and]
  push_cast
  ring

theorem mem_accessesFrom {write : Bool} {i : Int} {n : Nat} {a : Access} :
    a ∈ accessesFrom write i n ↔ a.write = write ∧ i ≤ a.index ∧ a.index < i + n := by
  unfold accessesFrom
  rw [List.mem_map]
  constructor
  · rintro ⟨k, hk, rfl⟩
    rw [List.mem_range] at hk
    exact ⟨rfl, by simp, by simp [hk]⟩
  · rintro ⟨rfl, h, h'⟩
    refine ⟨(a.index - i).toNat, List.mem_range.mpr (by omega), ?_⟩
    rw [show i + ((a.index - i).toNat : Int) = a.index by omega]

namespace Buffer

variable (b : Buffer) (i : Int) (bytes : List Byte)

@[simp] theorem size_write : (b.write i bytes).size = b.size := rfl

@[simp] theorem write_nil : b.write i [] = b := by
  ext1
  · rfl
  · ext1 j
    exact if_neg (by simp)
  · exact List.append_nil _

theorem write_cons (c : Byte) : (b.write i [c]).write (i + 1) bytes = b.write i (c :: bytes) := by
  ext1
  · rfl
  · ext1 j
    simp only [write, List.length_cons, List.length_nil]
    by_cases hhead : j = i
    · subst hhead
      rw [if_neg (by omega), if_pos (by omega), if_pos (by omega), Int.sub_self]
      rfl
    · by_cases htail : i + 1 ≤ j ∧ j < i + 1 + bytes.length
      · rw [if_pos htail, if_pos (by push_cast; omega)]
        obtain ⟨m, hm⟩ : ∃ m, (j - i).toNat = m + 1 := ⟨(j - i).toNat - 1, by omega⟩
        rw [hm, List.getD_cons_succ, show (j - (i + 1)).toNat = m by omega]
      · rw [if_neg htail, if_neg (by omega), if_neg (by push_cast; omega)]
  · simp only [write, List.length_cons, List.length_nil, List.append_assoc, accessesFrom_succ]
    rfl

theorem bytes_write_of_mem {j : Int} (h : i ≤ j) (h' : j < i + bytes.length) :
    (b.write i bytes).bytes j = bytes.getD (j - i).toNat 0 := if_pos ⟨h, h'⟩

theorem bytes_write_of_not_mem {j : Int} (h : ¬ (i ≤ j ∧ j < i + bytes.length)) :
    (b.write i bytes).bytes j = b.bytes j := if_neg h

@[simp] theorem bytes_read (n : Nat) : (b.read i n).bytes = b.bytes := rfl

@[simp] theorem size_read (n : Nat) : (b.read i n).size = b.size := rfl

@[simp] theorem read_zero : b.read i 0 = b := by
  unfold read
  rw [show accessesFrom false i 0 = [] from rfl, List.append_nil]

theorem read_succ (n : Nat) : (b.read i 1).read (i + 1) n = b.read i (n + 1) := by
  ext1
  · rfl
  · rfl
  · simp only [read, List.append_assoc, accessesFrom_succ]
    rfl

theorem slice_succ (n : Nat) : b.slice i (n + 1) = b.bytes i :: b.slice (i + 1) n := by
  unfold slice
  rw [List.range_succ_eq_map, List.map_cons, List.map_map]
  refine congrArg₂ List.cons (by simp) (List.map_congr_left fun k _ => ?_)
  simp only [Function.comp_apply]
  push_cast
  ring_nf

end Buffer

/-! ### Accesses -/

/-- All accesses were inside the allocation. -/
def Inside (b : Buffer) : Prop := ∀ a ∈ b.accesses, 0 ≤ a.index ∧ a.index < b.size

section Accesses

variable {b : Buffer} {i : Int}

theorem Inside.new (size : Int) (heap : Int → Byte) : Inside ⟨size, heap, []⟩ :=
  fun _ ha => absurd ha List.not_mem_nil

theorem Inside.write (h : Inside b) (hi : 0 ≤ i) {bytes : List Byte} (hfit : i + bytes.length ≤ b.size) :
    Inside (b.write i bytes) := by
  intro a ha
  rcases List.mem_append.mp ha with ha | ha
  · exact h a ha
  · obtain ⟨-, hlo, hhi⟩ := mem_accessesFrom.mp ha
    exact ⟨Int.le_trans hi hlo, Int.lt_of_lt_of_le hhi hfit⟩

theorem Inside.read (h : Inside b) (hi : 0 ≤ i) {n : Nat} (hfit : i + n ≤ b.size) :
    Inside (b.read i n) := by
  intro a ha
  rcases List.mem_append.mp ha with ha | ha
  · exact h a ha
  · obtain ⟨-, hlo, hhi⟩ := mem_accessesFrom.mp ha
    exact ⟨Int.le_trans hi hlo, Int.lt_of_lt_of_le hhi hfit⟩

/-- A write outside stays in the record. -/
theorem not_inside_write {c : Byte} (hout : ¬ (0 ≤ i ∧ i < b.size)) : ¬ Inside (b.write i [c]) := by
  intro h
  exact hout (h ⟨true, i⟩ (List.mem_append_right _ (mem_accessesFrom.mpr ⟨rfl, Int.le_refl i, by simp⟩)))

theorem Inside.of_read {n : Nat} (h : Inside (b.read i n)) : Inside b :=
  fun a ha => h a (List.mem_append_left _ ha)

end Accesses

/-! ### Lines of input -/

/-- Why `SynchConsole::Read` stops. -/
inductive Ending
  | full
  | newline
  | controlA
  | waiting
  deriving DecidableEq

/-- What `SynchConsole::Read` takes from the input. -/
structure Line where
  chars : List Byte
  ending : Ending
  rest : List Byte

/-- The next line, of at most `n` characters. -/
def line : Nat → List Byte → Line
  | 0, input => ⟨[], .full, input⟩
  | _ + 1, [] => ⟨[], .waiting, []⟩
  | n + 1, c :: rest =>
    if c = eof then line (n + 1) rest
    else if c = newline then ⟨[], .newline, rest⟩
    else if c = controlA then ⟨[], .controlA, rest⟩
    else { line n rest with chars := c :: (line n rest).chars }

/-- The characters that can be in a line. -/
def Ordinary (c : Byte) : Prop := c ≠ eof ∧ c ≠ newline ∧ c ≠ controlA

theorem line_chars (n : Nat) (input : List Byte) :
    ((line n input).chars.length ≤ n) ∧
      ((line n input).ending = .full ↔ (line n input).chars.length = n) ∧
      ∀ c ∈ (line n input).chars, Ordinary c := by
  induction input generalizing n with
  | nil => cases n <;> simp [line]
  | cons c rest ih =>
    cases n with
    | zero => simp [line]
    | succ n =>
      unfold line
      by_cases hc : c = eof
      · rw [if_pos hc]
        exact ih (n + 1)
      rw [if_neg hc]
      by_cases hn : c = newline
      · simp [if_pos hn]
      rw [if_neg hn]
      by_cases ha : c = controlA
      · simp [if_pos ha]
      rw [if_neg ha]
      obtain ⟨hlen, hfull, hchars⟩ := ih n
      refine ⟨by simpa using hlen, by simpa using hfull, fun d hd => ?_⟩
      rcases List.mem_cons.mp hd with rfl | hd
      · exact ⟨hc, hn, ha⟩
      · exact hchars d hd

/-- The variable `ch` at the end of `SynchConsole::Read`. -/
def Line.last (l : Line) (ch : Byte) : Byte :=
  match l.ending with
  | .newline => newline
  | .controlA => controlA
  | _ => l.chars.getLast?.getD ch

/-- The result of `SynchConsole::Read`. -/
def Line.result (l : Line) (ch : Byte) : Int := if l.last ch = controlA then -1 else l.chars.length

/-- The state after a line was put into the buffer from the index `i` on. -/
def Kernel.taken (k : Kernel) (i : Int) (l : Line) : Kernel :=
  { k with input := l.rest, buffer := k.buffer.write i l.chars }

theorem taken_zero {k : Kernel} {input : List Byte} (hk : k.input = input) (i : Int) :
    k.taken i (line 0 input) = k := by
  subst hk
  simp [Kernel.taken, line]

theorem last_line_succ {n : Nat} {input : List Byte} (h : (line (n + 1) input).ending ≠ .waiting)
    (ch ch' : Byte) : (line (n + 1) input).last ch = (line (n + 1) input).last ch' := by
  obtain ⟨-, hfull, -⟩ := line_chars (n + 1) input
  unfold Line.last
  cases hending : (line (n + 1) input).ending with
  | newline => rfl
  | controlA => rfl
  | waiting => exact absurd hending h
  | full =>
    have hlen := hfull.mp hending
    cases hchars : (line (n + 1) input).chars.getLast? with
    | none =>
      rw [List.getLast?_eq_none_iff.mp hchars] at hlen
      cases hlen
    | some c => rfl

/-- How the loop of `SynchConsole::Read` ends. -/
theorem readLoop_eq (n : Nat) (input : List Byte) (loop : Int) (ch : Byte) {k : Kernel}
    (hk : k.input = input) :
    readLoop (loop + n) input loop ch k =
      if (line n input).ending = .waiting then .trap .waiting (k.taken loop (line n input))
      else .done (loop + (line n input).chars.length, (line n input).last ch)
        (k.taken loop (line n input)) := by
  induction input generalizing n loop ch k with
  | nil =>
    unfold readLoop
    cases n with
    | zero =>
      rw [if_neg (by simp), taken_zero hk]
      simp [line, Line.last]
      rfl
    | succ n =>
      rw [if_pos (by omega)]
      obtain ⟨m, _, out, files, list, b⟩ := k
      obtain rfl : _ = [] := hk
      simp [line, Kernel.taken, Program.trap]
  | cons c rest ih =>
    unfold readLoop
    cases n with
    | zero =>
      rw [if_neg (by simp), taken_zero hk]
      simp [line, Line.last]
      rfl
    | succ n =>
      rw [if_pos (by omega)]
      by_cases hc : c = eof
      · have hline : line (n + 1) (c :: rest) = line (n + 1) rest := by rw [line, if_pos hc]
        have hnext : ({ k with input := rest } : Kernel).taken loop (line (n + 1) rest) =
            k.taken loop (line (n + 1) rest) := rfl
        simp only [if_pos hc]
        refine (ih (n + 1) loop c (k := { k with input := rest }) rfl).trans ?_
        rw [hline, hnext]
        split
        · rfl
        · rename_i hending
          rw [last_line_succ hending c ch]
      simp only [if_neg hc]
      by_cases hend : c = newline ∨ c = controlA
      · have hline : (line (n + 1) (c :: rest)).chars = [] ∧ (line (n + 1) (c :: rest)).rest = rest ∧
            (line (n + 1) (c :: rest)).ending ≠ .waiting ∧
            (line (n + 1) (c :: rest)).last ch = c := by
          rw [line, if_neg hc]
          by_cases hn : c = newline
          · simp [Line.last, hn]
          · rw [if_neg hn, if_pos (hend.resolve_left hn)]
            simp [Line.last, hend.resolve_left hn]
        obtain ⟨hchars, hrest, hending, hlast⟩ := hline
        rw [if_neg hending, hlast, hchars]
        simp only [if_pos hend, Kernel.taken, hchars, hrest, Buffer.write_nil, List.length_nil,
          Nat.cast_zero, add_zero]
        rfl
      · obtain ⟨hn, ha⟩ := not_or.mp hend
        have hline : line (n + 1) (c :: rest) =
            { line n rest with chars := c :: (line n rest).chars } := by
          rw [line, if_neg hc, if_neg hn, if_neg ha]
        have hnext : ({ k with input := rest, buffer := k.buffer.write loop [c] } : Kernel).taken
            (loop + 1) (line n rest) = k.taken loop (line (n + 1) (c :: rest)) := by
          rw [hline]
          unfold Kernel.taken
          rw [Buffer.write_cons]
        have hlast : (line n rest).last c = (line (n + 1) (c :: rest)).last ch := by
          rw [hline]
          unfold Line.last
          cases (line n rest).ending <;> simp [List.getLast?_cons]
        simp only [if_neg hend]
        rw [show loop + ((n + 1 : Nat) : Int) = loop + 1 + (n : Int) by push_cast; ring]
        refine (ih n (loop + 1) c
          (k := { k with input := rest, buffer := k.buffer.write loop [c] }) rfl).trans ?_
        rw [hnext, hlast, hline]
        simp only [List.length_cons]
        push_cast
        rw [show loop + 1 + ((line n rest).chars.length : Int) =
          loop + ((line n rest).chars.length + 1) by ring]

theorem readLoop_of_le {numBytes loop : Int} (h : numBytes ≤ loop) (input : List Byte) (ch : Byte) :
    readLoop numBytes input loop ch = pure (loop, ch) := by
  cases input with
  | nil => exact if_neg (by omega)
  | cons c rest => exact if_neg (by omega)

/-- The state in which the loop of `SynchConsole::Read` starts. -/
def Kernel.zeroed (k : Kernel) (numBytes : Int) : Kernel :=
  { k with buffer := k.buffer.write 0 (List.replicate numBytes.toNat 0) }

/-- `SynchConsole::Read`. -/
theorem consoleRead_eq (numBytes : Int) (ch : Byte) (k : Kernel) :
    consoleRead numBytes ch k =
      if (line numBytes.toNat k.input).ending = .waiting then
        .trap .waiting ((k.zeroed numBytes).taken 0 (line numBytes.toNat k.input))
      else .done ((line numBytes.toNat k.input).result ch)
        ((k.zeroed numBytes).taken 0 (line numBytes.toNat k.input)) := by
  have hsame : readLoop numBytes k.input 0 ch = readLoop (0 + numBytes.toNat) k.input 0 ch := by
    rcases Int.le_total numBytes 0 with hle | hge
    · rw [readLoop_of_le hle, readLoop_of_le (by omega)]
    · rw [zero_add, Int.toNat_of_nonneg hge]
  have hloop := readLoop_eq numBytes.toNat k.input 0 ch (k := k.zeroed numBytes) rfl
  rw [← hsame] at hloop
  show (readLoop numBytes k.input 0 ch >>= fun r => pure (if r.2 = controlA then -1 else r.1))
    (k.zeroed numBytes) = _
  split at hloop
  · rename_i hending
    rw [if_pos hending, bind_trap hloop]
  · rename_i hending
    rw [if_neg hending, bind_done hloop, zero_add]
    rfl

/-- The result is a count, or -1 for control-A and when `ch` happened to be control-A and nothing
was to be read. -/
theorem result_cases {n : Nat} {input : List Byte} (h : (line n input).ending ≠ .waiting) (ch : Byte) :
    (((line n input).ending = .controlA ∨ n = 0 ∧ ch = controlA) ∧ (line n input).result ch = -1) ∨
      ((line n input).ending ≠ .controlA ∧ ¬ (n = 0 ∧ ch = controlA) ∧
        (line n input).result ch = (line n input).chars.length) := by
  obtain ⟨-, hfull, hchars⟩ := line_chars n input
  unfold Line.result Line.last
  cases hending : (line n input).ending with
  | waiting => exact absurd hending h
  | controlA => exact Or.inl ⟨Or.inl rfl, if_pos rfl⟩
  | newline =>
    refine Or.inr ⟨by simp, ?_, if_neg (show newline ≠ controlA by decide)⟩
    rintro ⟨rfl, -⟩
    rw [line] at hending
    cases hending
  | full =>
    have hlen := hfull.mp hending
    cases hlast : (line n input).chars.getLast? with
    | none =>
      rw [List.getLast?_eq_none_iff.mp hlast, List.length_nil] at hlen
      by_cases hch : ch = controlA
      · exact Or.inl ⟨Or.inr ⟨hlen.symm, hch⟩, if_pos hch⟩
      · exact Or.inr ⟨by simp, fun hn => hch hn.2, if_neg hch⟩
    | some c =>
      have hmem : c ∈ (line n input).chars := List.mem_of_getLast? hlast
      refine Or.inr ⟨by simp, ?_, if_neg (hchars c hmem).2.2⟩
      rintro ⟨rfl, -⟩
      rw [List.length_eq_zero_iff.mp hlen] at hmem
      cases hmem

/-! ### Characters for the console -/

/-- `SynchConsole::Write`. -/
theorem writeLoop_eq (n : Nat) (i : Int) (k : Kernel) :
    writeLoop n i k = .done ()
      { k with output := k.output ++ k.buffer.slice i n, buffer := k.buffer.read i n } := by
  induction n generalizing i k with
  | zero =>
    rw [Buffer.read_zero, show k.buffer.slice i 0 = [] from rfl, List.append_nil]
    rfl
  | succ n ih =>
    refine (ih (i + 1) { k with
      output := k.output ++ [k.buffer.bytes i], buffer := k.buffer.read i 1 }).trans ?_
    rw [← Buffer.read_succ k.buffer i n, Buffer.slice_succ, List.append_assoc]
    rfl

/-! ### Copying to the user program -/

/-- The bytes that `System2User` copies: a zero byte is the last one. -/
def copied (bytes : Int → Byte) : Nat → Nat → List Byte
  | 0, _ => []
  | n + 1, i => if bytes i = 0 then [0] else bytes i :: copied bytes n (i + 1)

/-- The user program sees the bytes `s` from the address `addr + i` on, and nothing else has
changed. -/
structure Copied (m : Machine) (addr : Word) (i : Nat) (s : List Byte) (m' : Machine) : Prop where
  byte : ∀ (j : Nat) (h : j < s.length), m'.userByte (addr + BitVec.ofNat 32 (i + j)) = some s[j]
  other : ∀ va, (∀ j < s.length, va ≠ addr + BitVec.ofNat 32 (i + j)) →
    m'.userByte va = m.userByte va

theorem length_copied (bytes : Int → Byte) (n i : Nat) : (copied bytes n i).length ≤ n := by
  induction n generalizing i with
  | zero => exact Nat.le_refl 0
  | succ n ih =>
    unfold copied
    split
    · exact Nat.succ_le_succ (Nat.zero_le n)
    · exact Nat.succ_le_succ (ih (i + 1))

section System2User

variable {k : Kernel} {addr : Word}

theorem ofNat_add_inj {a b : Nat} (ha : a < 2 ^ 32) (hb : b < 2 ^ 32)
    (h : addr + BitVec.ofNat 32 a = addr + BitVec.ofNat 32 b) : a = b := by
  have hval := congrArg BitVec.toNat (add_left_cancel h)
  rwa [BitVec.toNat_ofNat, BitVec.toNat_ofNat, Nat.mod_eq_of_lt ha, Nat.mod_eq_of_lt hb] at hval

theorem Copied.nil (m : Machine) (addr : Word) (i : Nat) : Copied m addr i [] m :=
  ⟨fun j h => absurd h (Nat.not_lt_zero j), fun _ _ => rfl⟩

theorem Copied.cons {m m' m'' : Machine} {i : Nat} {b : Byte} {s : List Byte}
    (hstored : Stored m (addr + BitVec.ofNat 32 i) b m') (h : Copied m' addr (i + 1) s m'')
    (hi : i + s.length < 2 ^ 32) : Copied m addr i (b :: s) m'' := by
  refine ⟨fun j hj => ?_, fun va hva => ?_⟩
  · cases j with
    | zero =>
      rw [Nat.add_zero, h.other, hstored.byte, List.getElem_cons_zero]
      intro j hj heq
      have := ofNat_add_inj (by omega) (by omega) heq
      omega
    | succ j =>
      rw [List.getElem_cons_succ, ← h.byte j, Nat.add_right_comm, Nat.add_assoc]
  · rw [h.other, hstored.other]
    · exact hva 0 (by simp)
    · intro j hj
      have hne := hva (j + 1) (by simpa using hj)
      rwa [← Nat.add_assoc, Nat.add_right_comm] at hne

theorem setWidth_signExtend (b : Byte) : (b.signExtend 32).setWidth 8 = b := by
  apply BitVec.eq_of_getLsbD_eq
  intro i hi
  rw [BitVec.getLsbD_setWidth, BitVec.getLsbD_signExtend]
  simp [hi, show i < 32 by omega]

theorem onMachine_done {α : Type} {p : Routine α} {a : α} {m : Machine}
    (h : p k.machine = .done a m) : onMachine p k = .done a { k with machine := m } := by
  unfold onMachine
  rw [h]

/-- A routine that halts the machine. -/
theorem onMachine_halts {α : Type} {p : Routine α} (h : Halts k.machine (p k.machine)) :
    ∃ e m, onMachine p k = .trap (.halted e) { k with machine := m } ∧
      ∀ va, m.userByte va = k.machine.userByte va := by
  unfold onMachine
  cases hp : p k.machine with
  | done a m =>
    rw [hp] at h
    exact h.elim
  | trap e m =>
    rw [hp] at h
    exact ⟨e, m, rfl, h⟩
  | fault f =>
    rw [hp] at h
    exact h.elim

/-- The loop of `System2User` copies the string, or it halts at an address that the program does
not have. -/
theorem system2UserLoop_cases (addr : Word) (hm : UserSpace k.machine) {n i : Nat}
    (hi : i + n ≤ 2 ^ 32) :
    (∃ m', system2UserLoop addr n i k =
        .done () { k with machine := m', buffer := k.buffer.read i (copied k.buffer.bytes n i).length } ∧
      SameSpace k.machine m' ∧ Copied k.machine addr i (copied k.buffer.bytes n i) m') ∨
    ∃ j e m', system2UserLoop addr n i k =
        .trap (.halted e) { k with machine := m', buffer := k.buffer.read i (j + 1) } ∧
      j < (copied k.buffer.bytes n i).length ∧
      k.machine.userByte (addr + BitVec.ofNat 32 (i + j)) = none ∧
      Copied k.machine addr i ((copied k.buffer.bytes n i).take j) m' := by
  induction n generalizing i k with
  | zero =>
    refine Or.inl ⟨k.machine, ?_, SameSpace.refl _, Copied.nil _ _ _⟩
    rw [copied, List.length_nil, Buffer.read_zero]
    rfl
  | succ n ih =>
    let k₁ : Kernel := { k with buffer := k.buffer.read i 1 }
    have hstep : system2UserLoop addr (n + 1) i k =
        (onMachine (writeMem (addr + BitVec.ofNat 32 i) 1 ((k.buffer.bytes i).signExtend 32)) >>=
          fun _ => if k.buffer.bytes i = 0 then pure () else system2UserLoop addr n (i + 1)) k₁ := rfl
    rw [hstep, copied]
    rcases hm.writeMem_byte (addr + BitVec.ofNat 32 i) ((k.buffer.bytes i).signExtend 32) with
      ⟨m₁, -, hwrite, hstored⟩ | ⟨hnone, hhalts⟩
    · rw [setWidth_signExtend] at hstored
      have hdone := onMachine_done (k := k₁) hwrite
      rw [bind_done hdone]
      by_cases hzero : k.buffer.bytes i = 0
      · rw [if_pos hzero, if_pos hzero]
        rw [hzero] at hstored
        refine Or.inl ⟨m₁, rfl, hstored.same, ?_⟩
        exact Copied.cons hstored (Copied.nil m₁ addr (i + 1)) (by simp; omega)
      · rw [if_neg hzero, if_neg hzero]
        have hlen := length_copied k.buffer.bytes n (i + 1)
        have hread : ∀ r : Nat, (k.buffer.read i 1).read (i + 1 : Nat) r = k.buffer.read i (r + 1) := by
          intro r
          rw [Nat.cast_succ]
          exact Buffer.read_succ _ _ _
        rcases ih (k := { k₁ with machine := m₁ }) (i := i + 1) (hm.congr hstored.same) (by omega) with
          ⟨m₂, hloop, hsame, hcopied⟩ | ⟨j, e, m₂, hloop, hj, hnone, hcopied⟩
        · refine Or.inl ⟨m₂, ?_, hstored.same.trans hsame, Copied.cons hstored hcopied ?_⟩
          · rw [hloop, List.length_cons, ← hread]
            rfl
          · show i + (copied k.buffer.bytes n (i + 1)).length < 2 ^ 32
            omega
        · have hj' : j < (copied k.buffer.bytes n (i + 1)).length := hj
          refine Or.inr ⟨j + 1, e, m₂, ?_, Nat.succ_lt_succ hj', ?_, ?_⟩
          · rw [hloop, ← hread]
          · rw [← Nat.add_assoc, Nat.add_right_comm, ← hstored.same.userByte_eq_none]
            exact hnone
          · rw [List.take_succ_cons]
            refine Copied.cons hstored hcopied ?_
            rw [List.length_take]
            omega
    · obtain ⟨e, m₁, htrap, hsame⟩ := onMachine_halts (k := k₁) hhalts
      rw [bind_trap htrap]
      refine Or.inr ⟨0, e, m₁, rfl, ?_, hnone, ?_⟩
      · split <;> simp
      · rw [List.take_zero]
        exact ⟨fun j h => absurd h (Nat.not_lt_zero j), fun va _ => hsame va⟩

end System2User

/-- The end of `SC_ReadString`, and of `SC_Read` for the console. -/
def deliver (addr : Word) (size : Int) : Call Unit := do
  put size [0]
  system2User addr (s32 (size + 1))
  returnValue size

/-- `SetRegister(2, v)`. -/
def Kernel.returned (k : Kernel) (v : Int) : Kernel :=
  { k with machine := k.machine.setRegister resultReg (BitVec.ofInt 32 v) }

section Deliver

variable {k : Kernel} {addr : Word}

theorem deliver_neg_one (addr : Word) (k : Kernel) :
    deliver addr (-1) k = .done () (({ k with buffer := k.buffer.write (-1) [0] } : Kernel).returned (-1)) := by
  unfold deliver
  rfl

/-- The copy of a string and the return value. -/
def sendString (addr : Word) (len v : Int) : Call Unit := do
  system2User addr (s32 (len + 1))
  returnValue v

theorem sendString_eq (addr : Word) (v : Int) (k : Kernel) {n : Nat} (hn : n + 1 < 2 ^ 31) :
    sendString addr n v k = (system2UserLoop addr (n + 1) 0 >>= fun _ => returnValue v) k := by
  have hsize : s32 ((n : Int) + 1) = (n + 1 : Nat) := by
    rw [s32_of_bounds (by omega) (by omega)]
    push_cast
    rfl
  unfold sendString system2User
  rw [hsize, if_neg (by omega), Int.toNat_natCast]

/-- The string is copied, or the machine halts. -/
theorem sendString_cases (addr : Word) (v : Int) (hm : UserSpace k.machine) {n : Nat}
    (hn : n + 1 < 2 ^ 31) :
    let s := copied k.buffer.bytes (n + 1) 0
    (∃ m', sendString addr n v k =
        .done () (({ k with machine := m', buffer := k.buffer.read 0 s.length } : Kernel).returned v) ∧
      SameSpace k.machine m' ∧ Copied k.machine addr 0 s m') ∨
    ∃ j e m', sendString addr n v k =
        .trap (.halted e) { k with machine := m', buffer := k.buffer.read 0 (j + 1) } ∧ j < s.length ∧
      k.machine.userByte (addr + BitVec.ofNat 32 j) = none ∧ Copied k.machine addr 0 (s.take j) m' := by
  intro s
  rw [sendString_eq addr v k hn]
  rcases system2UserLoop_cases addr (n := n + 1) (i := 0) hm (by omega) with
    ⟨m', hloop, hsame, hcopied⟩ | ⟨j, e, m', hloop, hj, hnone, hcopied⟩
  · rw [bind_done hloop]
    exact Or.inl ⟨m', rfl, hsame, hcopied⟩
  · rw [bind_trap hloop]
    rw [Nat.zero_add] at hnone
    exact Or.inr ⟨j, e, m', rfl, hj, hnone, hcopied⟩

theorem deliver_eq (addr : Word) (size : Int) (k : Kernel) :
    deliver addr size k = sendString addr size size { k with buffer := k.buffer.write size [0] } := by
  unfold deliver sendString
  rfl

end Deliver

/-! ### Copying from the user program -/

/-- The string of at most `n` characters at `addr + i`, if the user program has these addresses. -/
def userString (m : Machine) (addr : Word) : Nat → Nat → Option (List Byte)
  | 0, _ => some []
  | n + 1, i =>
    match m.userByte (addr + BitVec.ofNat 32 i) with
    | none => none
    | some b => if b = 0 then some [] else (userString m addr n (i + 1)).map fun s => b :: s

/-- A string that was not cut off is followed by a zero. -/
def terminated (n : Nat) (s : List Byte) : List Byte := if s.length < n then s ++ [0] else s

section User2System

variable {k : Kernel} {addr : Word}

theorem length_terminated {n : Nat} {s : List Byte} (h : s.length ≤ n) :
    (terminated n s).length ≤ n := by
  unfold terminated
  split
  · rw [List.length_append, List.length_singleton]
    omega
  · exact h

theorem terminated_cons (n : Nat) (b : Byte) (s : List Byte) :
    terminated (n + 1) (b :: s) = b :: terminated n s := by
  unfold terminated
  rw [List.length_cons]
  simp only [Nat.succ_lt_succ_iff, List.cons_append]
  split <;> rfl

theorem getD_terminated (n : Nat) (s : List Byte) (j : Nat) :
    (terminated n s).getD j 0 = s.getD j 0 := by
  unfold terminated
  split
  · rcases Nat.lt_trichotomy j s.length with hlt | rfl | hgt
    · exact List.getD_append _ _ _ _ hlt
    · simp
    · rw [List.getD_eq_default _ _ (by simp; omega), List.getD_eq_default _ _ (by omega)]
  · rfl

theorem userString_congr {m m' : Machine} (h : ∀ va, m'.userByte va = m.userByte va) (addr : Word)
    (n i : Nat) : userString m' addr n i = userString m addr n i := by
  induction n generalizing i with
  | zero => rfl
  | succ n ih =>
    unfold userString
    rw [h, ih]

theorem length_userString {m : Machine} {n i : Nat} {s : List Byte}
    (h : userString m addr n i = some s) : s.length ≤ n ∧ 0 ∉ s := by
  induction n generalizing i s with
  | zero =>
    cases h
    exact ⟨Nat.le_refl 0, List.not_mem_nil⟩
  | succ n ih =>
    unfold userString at h
    split at h
    · cases h
    · split at h
      · cases h
        exact ⟨Nat.zero_le _, List.not_mem_nil⟩
      · rename_i b _ hb
        obtain ⟨s', hs', rfl⟩ := Option.map_eq_some_iff.mp h
        obtain ⟨hlen, hmem⟩ := ih hs'
        refine ⟨Nat.succ_le_succ hlen, fun hzero => ?_⟩
        rcases List.mem_cons.mp hzero with heq | hzero
        · exact hb heq.symm
        · exact hmem hzero

theorem signExtend_eq_zero {b : Byte} : b.signExtend 32 = 0 ↔ b = 0 := by
  refine ⟨fun h => ?_, fun h => by rw [h]; rfl⟩
  rw [← setWidth_signExtend b, h]
  rfl

theorem user2SystemLoop_cases (addr : Word) (hm : UserSpace k.machine) (n i : Nat) :
    (∃ s m', userString k.machine addr n i = some s ∧ user2SystemLoop addr n i k =
        .done () { k with machine := m', buffer := k.buffer.write i (terminated n s) } ∧
      Touched k.machine m') ∨
    (userString k.machine addr n i = none ∧
      ∃ e k', user2SystemLoop addr n i k = .trap (.halted e) k') := by
  induction n generalizing i k with
  | zero =>
    refine Or.inl ⟨[], k.machine, rfl, ?_, Touched.refl _⟩
    rw [show terminated 0 [] = [] from rfl, Buffer.write_nil]
    rfl
  | succ n ih =>
    rw [user2SystemLoop, userString]
    rcases hm.readMem_byte (addr + BitVec.ofNat 32 i) with ⟨b, m₁, hb, hread, ht⟩ | ⟨hnone, hhalts⟩
    · rw [bind_done (onMachine_done hread), hb]
      simp only [signExtend_eq_zero, setWidth_signExtend]
      by_cases hzero : b = 0
      · simp only [if_pos hzero]
        refine Or.inl ⟨[], m₁, rfl, ?_, ht⟩
        rw [hzero]
        rfl
      · simp only [if_neg hzero]
        have hm₁ := hm.congr ht.sameSpace
        have hsame := userString_congr ht.userByte addr n (i + 1)
        rcases ih (k := { k with machine := m₁, buffer := k.buffer.write i [b] }) hm₁ (i + 1) with
          ⟨s, m₂, hs, hloop, ht'⟩ | ⟨hs, e, k', hloop⟩
        · refine Or.inl ⟨b :: s, m₂, ?_, ?_, ht.trans ht'⟩
          · rw [← hsame, hs]
            rfl
          · have hwrite : (k.buffer.write i [b]).write (i + 1 : Nat) (terminated n s) =
                k.buffer.write i (terminated (n + 1) (b :: s)) := by
              rw [terminated_cons, Nat.cast_succ]
              exact Buffer.write_cons _ _ _ _
            exact hloop.trans (by rw [← hwrite])
        · refine Or.inr ⟨?_, e, k', hloop⟩
          rw [← hsame, hs]
          rfl
    · obtain ⟨e, m₁, htrap, -⟩ := onMachine_halts hhalts
      rw [bind_trap htrap, hnone]
      exact Or.inr ⟨rfl, e, _, rfl⟩

/-- A buffer that holds a string of at most `limit` characters. -/
structure Holds (b : Buffer) (limit : Nat) (s : List Byte) : Prop where
  size : b.size = limit + 1
  bytes : ∀ j ≤ limit, b.bytes (j : Nat) = s.getD j 0
  inside : Inside b

/-- The buffer of `User2System` before its loop. -/
def clearedBuffer (limit : Nat) (heap : Int → Byte) : Buffer :=
  (Buffer.mk (limit + 1) heap []).write 0 (List.replicate (limit + 1) 0)

theorem user2System_eq (addr : Word) (limit : Nat) (heap : Int → Byte) (k : Kernel) :
    user2System addr limit heap k =
      user2SystemLoop addr limit 0 { k with buffer := clearedBuffer limit heap } := by
  unfold user2System newBuffer
  rw [if_neg (by omega)]
  rfl

/-- A string that was copied into the cleared buffer. -/
theorem holds_terminated {limit : Nat} (heap : Int → Byte) {s : List Byte} (hlen : s.length ≤ limit) :
    Holds ((clearedBuffer limit heap).write (0 : Nat) (terminated limit s)) limit s := by
  have hlen' := length_terminated hlen
  refine ⟨rfl, fun j hj => ?_, fun a ha => ?_⟩
  · rw [← getD_terminated limit s j]
    by_cases hmem : j < (terminated limit s).length
    · rw [Buffer.bytes_write_of_mem _ _ _ (by simp) (by simpa using hmem)]
      simp
    · rw [clearedBuffer, Buffer.bytes_write_of_not_mem _ _ _ (by simp; omega),
        Buffer.bytes_write_of_mem _ _ _ (by simp) (by simp; omega)]
      rw [List.getD_replicate 0 (by omega), List.getD_eq_default _ _ (Nat.le_of_not_lt hmem)]
  · rcases List.mem_append.mp ha with ha | ha
    · obtain ⟨-, h, h'⟩ := mem_accessesFrom.mp ha
      rw [List.length_replicate] at h'
      refine ⟨h, ?_⟩
      show a.index < limit + 1
      push_cast at h'
      omega
    · obtain ⟨-, h, h'⟩ := mem_accessesFrom.mp ha
      refine ⟨by simpa using h, ?_⟩
      show a.index < limit + 1
      push_cast at h'
      omega

/-- `User2System` copies the string, or it halts at an address that the program does not have. -/
theorem user2System_cases (addr : Word) (hm : UserSpace k.machine) (limit : Nat) (heap : Int → Byte) :
    (∃ s m' b, userString k.machine addr limit 0 = some s ∧
      user2System addr limit heap k = .done () { k with machine := m', buffer := b } ∧
      Touched k.machine m' ∧ Holds b limit s) ∨
    (userString k.machine addr limit 0 = none ∧
      ∃ e k', user2System addr limit heap k = .trap (.halted e) k') := by
  rw [user2System_eq]
  rcases user2SystemLoop_cases (k := { k with buffer := clearedBuffer limit heap }) addr hm limit 0 with
    ⟨s, m', hs, hloop, ht⟩ | ⟨hs, e, k', hloop⟩
  · obtain ⟨hlen, -⟩ := length_userString hs
    exact Or.inl ⟨s, m', _, hs, hloop, ht, holds_terminated heap hlen⟩
  · exact Or.inr ⟨hs, e, k', hloop⟩

end User2System

/-! ### A program that makes a call -/

/-- A program with one page, in frame 0, that has put three arguments into the registers. -/
def onePage (memory : Nat → Byte) (a b c : Word) : Machine where
  mainMemory := memory
  registers := fun r => if r = r4 then a else if r = r5 then b else if r = r6 then c else 0
  pageTable := some [⟨0, 0, true, false, false, false⟩]
  pageTableSize := 1

theorem userSpace_onePage (memory : Nat → Byte) (a b c : Word) :
    UserSpace (onePage memory a b c) := by
  refine ⟨?_, _, rfl, rfl, ?_, by decide⟩
  · show (0 : Word).toNat < 32
    decide
  · intro e he
    obtain rfl := List.mem_singleton.mp he
    exact ⟨rfl, rfl, by decide⟩

/-- The call of such a program while `input` is typed. -/
def calling (m : Machine) (input : List Byte) : Kernel where
  machine := m
  input := input
  output := []
  hostFiles := fun _ => []
  openFileList := fun _ => none
  buffer := ⟨0, fun _ => 0, []⟩

/-- The call of a program that has opened a file. -/
def callingWithFile (m : Machine) (input content : List Byte) : Kernel where
  machine := m
  input := input
  output := []
  hostFiles := fun _ => content
  openFileList := fun i => if i = 2 then some ⟨0, 0, 0⟩ else none
  buffer := ⟨0, fun _ => 0, []⟩

/-- Memory that happens to be zero. -/
def zeroed : Uninit where
  heap := fun _ => 0
  ch := 0
  size := 0
  pointer := 0

end Nachos.Syscalls
