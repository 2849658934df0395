import Nachos.Userprog.InputBuffers

/-!
# Two ways to read a line

`SC_Read` from the console and `SC_ReadString` are copies of each other, but in `SC_Read` the
declaration `int size = gSynchConsole->Read(buffer, size)` shadows the argument: the number of
characters to read is whatever the new variable holds.

`sameEffect_iff`: the two calls do the same exactly when that number is the argument, or it is not
too large for the buffer and the line ends before either of them is reached. `SynchConsole::Read`
begins with zeros for all the characters that it may read: with a larger number it writes behind the
buffer, whatever is typed.
-/

namespace Nachos.Syscalls

open Programs Program CInt Machine

/-! ### Statement -/

/-- The call made the access, and it was outside the allocation. -/
def Buffer.Outside (b : Buffer) (a : Access) : Prop :=
  a ∈ b.accesses ∧ ¬ (0 ≤ a.index ∧ a.index < b.size)

/-- The same user memory, the same input left, the same result, and the same accesses to memory that
does not belong to the buffer. -/
structure SameState (k k' : Kernel) : Prop where
  memory : ∀ va, k.machine.userByte va = k'.machine.userByte va
  input : k.input = k'.input
  result : k.machine.registers resultReg = k'.machine.registers resultReg
  outside : ∀ a, k.buffer.Outside a ↔ k'.buffer.Outside a

/-- Two calls end in the same way. -/
def SameEffect : Outcome Kernel Stop Abort Unit → Outcome Kernel Stop Abort Unit → Prop
  | .done _ k, .done _ k' => SameState k k'
  | .trap s k, .trap s' k' => s = s' ∧ SameState k k'
  | .fault f, .fault f' => f = f'
  | _, _ => False

/-- `SC_Read` happens to read as many characters as it should, or the line is shorter and the buffer
has room for the zeros. -/
def SameLength (k : Kernel) (u : Uninit) : Prop :=
  u.size.toInt = k.length ∨ u.size.toInt ≤ k.length + 1 ∧
    (line (min u.size.toInt k.length).toNat k.input).ending ≠ .full

/-! ### Lines of different length -/

/-- A line that ends is the same for every larger length. -/
theorem line_eq_of_le {m n : Nat} {input : List Byte} (h : (line m input).ending ≠ .full)
    (hmn : m ≤ n) : line n input = line m input := by
  induction input generalizing m n with
  | nil =>
    cases m with
    | zero => exact absurd rfl h
    | succ m =>
      cases n with
      | zero => exact absurd hmn (Nat.not_succ_le_zero m)
      | succ n => rfl
  | cons c rest ih =>
    cases m with
    | zero => exact absurd rfl h
    | succ m =>
      cases n with
      | zero => exact absurd hmn (Nat.not_succ_le_zero m)
      | succ n =>
        rw [line] at h
        rw [line, line]
        by_cases hc : c = eof
        · rw [if_pos hc] at h ⊢
          rw [if_pos hc]
          exact ih h hmn
        rw [if_neg hc] at h ⊢
        rw [if_neg hc]
        by_cases hn : c = newline
        · rw [if_pos hn, if_pos hn]
        rw [if_neg hn] at h ⊢
        rw [if_neg hn]
        by_cases ha : c = controlA
        · rw [if_pos ha, if_pos ha]
        rw [if_neg ha] at h ⊢
        rw [if_neg ha, ih h (Nat.le_of_succ_le_succ hmn)]

theorem length_rest_le (n : Nat) (input : List Byte) :
    (line n input).rest.length ≤ input.length := by
  induction input generalizing n with
  | nil => cases n <;> exact Nat.le_refl 0
  | cons c rest ih =>
    cases n with
    | zero => exact Nat.le_refl _
    | succ n =>
      rw [line]
      split
      · exact Nat.le_succ_of_le (ih (n + 1))
      split
      · exact Nat.le_succ rest.length
      split
      · exact Nat.le_succ rest.length
      · exact Nat.le_succ_of_le (ih n)

/-- Behind a full line a longer one waits, or it takes more of the input. -/
theorem rest_lt {m n : Nat} {input : List Byte} (h : (line m input).ending = .full) (hmn : m < n)
    (hwaiting : (line n input).ending ≠ .waiting) :
    (line n input).rest.length < (line m input).rest.length := by
  obtain ⟨n, rfl⟩ := Nat.exists_eq_succ_of_ne_zero (Nat.ne_zero_of_lt hmn)
  induction input generalizing m n with
  | nil => exact absurd rfl hwaiting
  | cons c rest ih =>
    rw [line] at hwaiting ⊢
    cases m with
    | zero =>
      show _ < rest.length + 1
      split
      · exact Nat.lt_succ_of_le (length_rest_le (n + 1) rest)
      split
      · exact Nat.lt_succ_self rest.length
      split
      · exact Nat.lt_succ_self rest.length
      · exact Nat.lt_succ_of_le (length_rest_le n rest)
    | succ m =>
      rw [line] at h ⊢
      by_cases hc : c = eof
      · rw [if_pos hc] at h hwaiting
        rw [if_pos hc, if_pos hc]
        exact ih h n hmn hwaiting
      rw [if_neg hc] at h hwaiting
      rw [if_neg hc, if_neg hc]
      by_cases hn : c = newline
      · rw [if_pos hn] at h
        cases h
      rw [if_neg hn] at h hwaiting
      rw [if_neg hn, if_neg hn]
      by_cases ha : c = controlA
      · rw [if_pos ha] at h
        cases h
      rw [if_neg ha] at h hwaiting
      rw [if_neg ha, if_neg ha]
      cases n with
      | zero => exact absurd hmn (by omega)
      | succ n => exact ih h n (Nat.lt_of_succ_lt_succ hmn) hwaiting

/-! ### Accesses outside the buffer -/

/-- Two buffers of one size with the same accesses outside. -/
structure SameOutside (b b' : Buffer) : Prop where
  size : b.size = b'.size
  outside : ∀ a, b.Outside a ↔ b'.Outside a

section Outside

variable {b b' : Buffer}

theorem Buffer.outside_write (i : Int) (bytes : List Byte) (a : Access) :
    (b.write i bytes).Outside a ↔ b.Outside a ∨
      a ∈ accessesFrom true i bytes.length ∧ ¬ (0 ≤ a.index ∧ a.index < b.size) := by
  unfold Buffer.Outside Buffer.write
  simp only [List.mem_append]
  exact or_and_right

theorem Buffer.outside_read (i : Int) (n : Nat) (a : Access) :
    (b.read i n).Outside a ↔ b.Outside a ∨
      a ∈ accessesFrom false i n ∧ ¬ (0 ≤ a.index ∧ a.index < b.size) := by
  unfold Buffer.Outside Buffer.read
  simp only [List.mem_append]
  exact or_and_right

theorem Inside.not_outside (h : Inside b) (a : Access) : ¬ b.Outside a :=
  fun hout => hout.2 (h a hout.1)

theorem SameOutside.of_inside (h : Inside b) (h' : Inside b') (hsize : b.size = b'.size) :
    SameOutside b b' :=
  ⟨hsize, fun a => iff_of_false (h.not_outside a) (h'.not_outside a)⟩

theorem SameOutside.write (h : SameOutside b b') (i : Int) (bytes : List Byte) :
    SameOutside (b.write i bytes) (b'.write i bytes) := by
  refine ⟨h.size, fun a => ?_⟩
  rw [Buffer.outside_write, Buffer.outside_write, h.outside a, h.size]

theorem SameOutside.read (h : SameOutside b b') (i : Int) (n : Nat) :
    SameOutside (b.read i n) (b'.read i n) := by
  refine ⟨h.size, fun a => ?_⟩
  rw [Buffer.outside_read, Buffer.outside_read, h.outside a, h.size]

end Outside

/-! ### What is delivered -/

/-- Two calls end alike, but for what the buffer of the kernel holds. -/
inductive Alike : Outcome Kernel Stop Abort Unit → Outcome Kernel Stop Abort Unit → Prop
  | done (k : Kernel) {b : Buffer} (h : SameOutside k.buffer b) :
    Alike (.done () k) (.done () { k with buffer := b })
  | trap (s : Stop) (k : Kernel) {b : Buffer} (h : SameOutside k.buffer b) :
    Alike (.trap s k) (.trap s { k with buffer := b })
  | fault (f : Abort) : Alike (.fault f) (.fault f)

section Deliver

variable {k : Kernel} {addr : Word}

/-- `System2User` depends on the bytes that it copies. -/
theorem system2UserLoop_congr (n i : Nat) {b b' : Buffer} {m : Machine} (hb : SameOutside b b')
    (h : ∀ j : Int, i ≤ j → j < i + n → b.bytes j = b'.bytes j) :
    Alike (system2UserLoop addr n i { k with machine := m, buffer := b })
      (system2UserLoop addr n i { k with machine := m, buffer := b' }) := by
  induction n generalizing i b b' m with
  | zero => exact Alike.done { k with machine := m, buffer := b } hb
  | succ n ih =>
    have hstep : ∀ c : Buffer, system2UserLoop addr (n + 1) i { k with machine := m, buffer := c } =
        (onMachine (writeMem (addr + BitVec.ofNat 32 i) 1 ((c.bytes i).signExtend 32)) >>=
          fun _ => if c.bytes i = 0 then pure () else system2UserLoop addr n (i + 1))
          { k with machine := m, buffer := c.read i 1 } := fun c => rfl
    rw [hstep, hstep, ← h i (Int.le_refl _) (by omega)]
    cases hwrite : writeMem (addr + BitVec.ofNat 32 i) 1 ((b.bytes i).signExtend 32) m with
    | done a m' =>
      rw [bind_done (onMachine_done hwrite), bind_done (onMachine_done hwrite)]
      split
      · exact Alike.done { k with machine := m', buffer := b.read i 1 } (hb.read i 1)
      · have hnext : ∀ j : Int, (i + 1 : Nat) ≤ j → j < (i + 1 : Nat) + n →
            (b.read i 1).bytes j = (b'.read i 1).bytes j := by
          intro j hj hj'
          push_cast at hj hj'
          exact h j (by omega) (by push_cast; omega)
        exact ih (i + 1) (hb.read i 1) hnext
    | trap e m' =>
      have htrap : ∀ c : Buffer, onMachine
          (writeMem (addr + BitVec.ofNat 32 i) 1 ((b.bytes i).signExtend 32))
          { k with machine := m, buffer := c } =
            .trap (.halted e) { k with machine := m', buffer := c } := by
        intro c
        unfold onMachine
        rw [hwrite]
      rw [bind_trap (htrap _), bind_trap (htrap _)]
      exact Alike.trap _ { k with machine := m', buffer := b.read i 1 } (hb.read i 1)
    | fault f =>
      have hfault : ∀ c : Buffer, onMachine
          (writeMem (addr + BitVec.ofNat 32 i) 1 ((b.bytes i).signExtend 32))
          { k with machine := m, buffer := c } = .fault (.machine f) := by
        intro c
        unfold onMachine
        rw [hwrite]
      rw [bind_fault (hfault _), bind_fault (hfault _)]
      exact Alike.fault _

theorem Alike.returned {p : Call Unit} {k k' : Kernel} (h : Alike (p k) (p k')) (v : Int) :
    Alike ((p >>= fun _ => returnValue v) k) ((p >>= fun _ => returnValue v) k') := by
  generalize hk : p k = o at h
  generalize hk' : p k' = o' at h
  cases h with
  | done k₁ hb =>
    rw [bind_done hk, bind_done hk']
    exact Alike.done (k₁.returned v) hb
  | trap s k₁ hb =>
    rw [bind_trap hk, bind_trap hk']
    exact Alike.trap s k₁ hb
  | fault f =>
    rw [bind_fault hk, bind_fault hk']
    exact Alike.fault f

theorem Alike.sameEffect {o o' : Outcome Kernel Stop Abort Unit} (h : Alike o o') :
    SameEffect o o' := by
  cases h with
  | done k hb => exact ⟨fun _ => rfl, rfl, rfl, hb.outside⟩
  | trap s k hb => exact ⟨rfl, fun _ => rfl, rfl, rfl, hb.outside⟩
  | fault f => rfl

/-- What is delivered depends on the characters of the string. -/
theorem deliver_congr (addr : Word) (k : Kernel) {n : Nat} (hn : n + 1 < 2 ^ 31) {b b' : Buffer}
    (hb : SameOutside b b') (h : ∀ j : Int, 0 ≤ j → j < n → b.bytes j = b'.bytes j) :
    Alike (deliver addr n { k with buffer := b }) (deliver addr n { k with buffer := b' }) := by
  rw [deliver_eq, deliver_eq, sendString_eq _ _ _ hn, sendString_eq _ _ _ hn]
  refine Alike.returned (system2UserLoop_congr (n + 1) 0 (hb.write n [0]) fun j hj hj' => ?_) n
  rw [Nat.cast_zero] at hj hj'
  by_cases hlast : j = n
  · rw [Buffer.bytes_write_of_mem _ _ _ (by omega) (by simp; omega),
      Buffer.bytes_write_of_mem _ _ _ (by omega) (by simp; omega)]
  · push_cast at hj'
    rw [Buffer.bytes_write_of_not_mem _ _ _ (by simp; omega),
      Buffer.bytes_write_of_not_mem _ _ _ (by simp; omega)]
    exact h j (by omega) (by omega)

/-- Delivering takes no input, and it does not wait; it adds one write and some reads to what was done
to the buffer. -/
theorem deliver_cases (addr : Word) (hm : UserSpace k.machine) (size : Int) :
    ∃ r, (∃ k', deliver addr size k = .done () k' ∧ k'.input = k.input ∧
        k'.buffer = (k.buffer.write size [0]).read 0 r) ∨
      ∃ e k', deliver addr size k = .trap (.halted e) k' ∧ k'.input = k.input ∧
        k'.buffer = (k.buffer.write size [0]).read 0 r := by
  let k₁ : Kernel := { k with buffer := k.buffer.write size [0] }
  have hstep : deliver addr size k =
      (system2User addr (s32 (size + 1)) >>= fun _ => returnValue size) k₁ := rfl
  rw [hstep]
  unfold system2User
  split
  · exact ⟨0, Or.inl ⟨k₁.returned size, rfl, rfl, (Buffer.read_zero _ _).symm⟩⟩
  · have hlt : s32 (size + 1) < 2 ^ 31 := Int.bmod_lt (by decide)
    rcases system2UserLoop_cases (k := k₁) addr (n := (s32 (size + 1)).toNat) (i := 0) hm (by omega) with
      ⟨m', hloop, -, -⟩ | ⟨j, e, m', hloop, -⟩
    · rw [bind_done hloop]
      exact ⟨_, Or.inl ⟨_, rfl, rfl, rfl⟩⟩
    · rw [bind_trap hloop]
      exact ⟨_, Or.inr ⟨e, _, rfl, rfl, rfl⟩⟩

end Deliver

/-! ### The calls -/

section Calls

variable {k : Kernel} {u u' : Uninit}

theorem scRead_console (h : k.machine.registers r6 = 0) : scRead u k = (do
    newBuffer (s32 (k.length + 1)) u.heap
    let n ← consoleRead u.size.toInt u.ch
    deliver (k.machine.registers r4) n) k := by
  have hfile : (k.machine.registers r6).toInt = 0 := by
    rw [h]
    rfl
  show (if (k.machine.registers r6).toInt = 0 then _ else _ : Call Unit) k = _
  rw [if_pos hfile]
  rfl

/-- The characters of the line are at the start of the buffer. -/
theorem bytes_filled (size : Int) (heap : Int → Byte) (numBytes : Int) (l : Line) {j : Int}
    (hj : 0 ≤ j) (hj' : j < l.chars.length) :
    (filled size heap numBytes l).bytes j = l.chars.getD j.toNat 0 := by
  unfold filled
  rw [Buffer.bytes_write_of_mem _ _ _ hj (by omega), Int.sub_zero]

/-- Two calls that make a buffer, read the same line and deliver it. -/
theorem alike_of_line_eq {addr : Word} {size : Int} (hsize : 0 ≤ size) {n n' : Int}
    (hline : line n.toNat k.input = line n'.toNat k.input) (hpos : 1 ≤ n.toNat)
    (hfit : n.toNat ≤ size) (hfit' : n'.toNat ≤ size) (hn : n'.toNat + 1 < 2 ^ 31) :
    Alike ((do newBuffer size u.heap; let r ← consoleRead n u.ch; deliver addr r) k)
      ((do newBuffer size u'.heap; let r ← consoleRead n' u'.ch; deliver addr r) k) := by
  rw [newBuffer_consoleRead hsize, newBuffer_consoleRead hsize]
  simp only
  obtain ⟨hlen, -, -⟩ := line_chars n'.toNat k.input
  have hinside := Inside.filled u.heap hfit k.input
  have hinside' := Inside.filled u'.heap hfit' k.input
  rw [← hline] at hlen hinside' ⊢
  have hb := SameOutside.of_inside hinside hinside' rfl
  let k₁ : Kernel := { k with input := (line n.toNat k.input).rest }
  by_cases hwaiting : (line n.toNat k.input).ending = .waiting
  · rw [if_pos hwaiting, if_pos hwaiting]
    exact Alike.trap _ { k₁ with buffer := _ } hb
  rw [if_neg hwaiting, if_neg hwaiting]
  have hresult := result_cases hwaiting u.ch
  have hresult' := result_cases hwaiting u'.ch
  rcases hresult with ⟨hends, hresult⟩ | ⟨hends, -, hresult⟩
  · rcases hresult' with ⟨-, hresult'⟩ | ⟨hends', -, -⟩
    · rw [hresult, hresult', deliver_neg_one, deliver_neg_one]
      exact Alike.done (({ k₁ with buffer := _ } : Kernel).returned (-1)) (hb.write (-1) [0])
    · exact absurd (hends.resolve_right (by omega)) hends'
  · rcases hresult' with ⟨hends', -⟩ | ⟨-, -, hresult'⟩
    · exact absurd (hends'.resolve_right (by omega)) hends
    · rw [hresult, hresult']
      have hbytes : ∀ j : Int, 0 ≤ j → j < (line n.toNat k.input).chars.length →
          (filled size u.heap n (line n.toNat k.input)).bytes j =
            (filled size u'.heap n' (line n.toNat k.input)).bytes j := by
        intro j hj hj'
        rw [bytes_filled _ _ _ _ hj hj', bytes_filled _ _ _ _ hj hj']
      exact deliver_congr addr k₁ (by omega) hb hbytes

/-- Two calls that make a buffer and read lines one of which goes on behind the other. -/
theorem not_sameEffect_of_lt {addr : Word} {size : Int} (hsize : 0 ≤ size) (hm : UserSpace k.machine)
    {n n' : Int} (hfull : (line n.toNat k.input).ending = .full) (hlt : n.toNat < n'.toNat) :
    let p := (do newBuffer size u.heap; let r ← consoleRead n u.ch; deliver addr r) k
    let p' := (do newBuffer size u'.heap; let r ← consoleRead n' u'.ch; deliver addr r) k
    ¬ SameEffect p p' ∧ ¬ SameEffect p' p := by
  intro p p'
  have hp : p = _ := newBuffer_consoleRead hsize u.heap n u.ch (deliver addr) k
  have hp' : p' = _ := newBuffer_consoleRead hsize u'.heap n' u'.ch (deliver addr) k
  simp only at hp hp'
  rw [if_neg (by rw [hfull]; simp)] at hp
  have hends := deliver_cases addr
    (k := { k with
      input := (line n.toNat k.input).rest, buffer := filled size u.heap n (line n.toNat k.input) })
    hm ((line n.toNat k.input).result u.ch)
  rw [← hp] at hends
  by_cases hwaiting : (line n'.toNat k.input).ending = .waiting
  · rw [if_pos hwaiting] at hp'
    rw [hp']
    rcases hends with ⟨r, ⟨k₁, hdone, -⟩ | ⟨e, k₁, htrap, -⟩⟩
    · rw [hdone]
      exact ⟨id, id⟩
    · rw [htrap]
      exact ⟨fun h => Stop.noConfusion h.1, fun h => Stop.noConfusion h.1⟩
  · rw [if_neg hwaiting] at hp'
    have hends' := deliver_cases addr
      (k := { k with
        input := (line n'.toNat k.input).rest, buffer := filled size u'.heap n' (line n'.toNat k.input) })
      hm ((line n'.toNat k.input).result u'.ch)
    rw [← hp'] at hends'
    have hne : (line n.toNat k.input).rest ≠ (line n'.toNat k.input).rest := by
      intro heq
      exact absurd (congrArg List.length heq) (rest_lt hfull hlt hwaiting).ne'
    rcases hends with ⟨r, ⟨k₁, hdone, hinput, -⟩ | ⟨e, k₁, htrap, hinput, -⟩⟩
    · rcases hends' with ⟨r', ⟨k₁', hdone', hinput', -⟩ | ⟨e', k₁', htrap', hinput', -⟩⟩
      · rw [hdone, hdone']
        exact ⟨fun h => hne (hinput.symm.trans (h.input.trans hinput')),
          fun h => hne (hinput.symm.trans (h.input.symm.trans hinput'))⟩
      · rw [hdone, htrap']
        exact ⟨id, id⟩
    · rcases hends' with ⟨r', ⟨k₁', hdone', hinput', -⟩ | ⟨e', k₁', htrap', hinput', -⟩⟩
      · rw [htrap, hdone']
        exact ⟨id, id⟩
      · rw [htrap, htrap']
        exact ⟨fun h => hne (hinput.symm.trans (h.2.input.trans hinput')),
          fun h => hne (hinput.symm.trans (h.2.input.symm.trans hinput'))⟩

/-- The buffer that a call leaves. -/
def Leaves (o : Outcome Kernel Stop Abort Unit) (b : Buffer) : Prop :=
  match o with
  | .done _ k => k.buffer = b
  | .trap _ k => k.buffer = b
  | .fault _ => False

theorem SameEffect.leaves {o o' : Outcome Kernel Stop Abort Unit} (h : SameEffect o o') {b b' : Buffer}
    (hb : Leaves o b) (hb' : Leaves o' b') (a : Access) : b.Outside a ↔ b'.Outside a := by
  cases o with
  | done _ k =>
    cases o' with
    | done _ k' =>
      cases hb
      cases hb'
      exact h.outside a
    | trap _ _ => exact h.elim
    | fault _ => exact h.elim
  | trap _ k =>
    cases o' with
    | done _ _ => exact h.elim
    | trap _ k' =>
      cases hb
      cases hb'
      exact h.2.outside a
    | fault _ => exact h.elim
  | fault _ => exact hb.elim

/-- What a call that reads a line into a new buffer has done to it: it waits, or it has put a zero
byte behind the line and has copied the string. -/
theorem leaves_line (addr : Word) (u : Uninit) {size : Int} (hsize : 0 ≤ size)
    (hm : UserSpace k.machine) (n : Int) :
    let l := line n.toNat k.input
    ∃ b, Leaves ((do newBuffer size u.heap; let r ← consoleRead n u.ch; deliver addr r) k) b ∧
      (b = filled size u.heap n l ∨ l.ending ≠ .waiting ∧
        ∃ r, b = ((filled size u.heap n l).write (l.result u.ch) [0]).read 0 r) := by
  intro l
  rw [newBuffer_consoleRead hsize]
  simp only
  by_cases hwaiting : l.ending = .waiting
  · rw [if_pos hwaiting]
    exact ⟨_, rfl, Or.inl rfl⟩
  · rw [if_neg hwaiting]
    rcases deliver_cases addr (k := { k with input := l.rest, buffer := filled size u.heap n l }) hm
      (l.result u.ch) with ⟨r, ⟨k₁, hdone, -, hb⟩ | ⟨e, k₁, htrap, -, hb⟩⟩
    · rw [hdone]
      exact ⟨_, rfl, Or.inr ⟨hwaiting, r, hb⟩⟩
    · rw [htrap]
      exact ⟨_, rfl, Or.inr ⟨hwaiting, r, hb⟩⟩

/-- One call writes zeros behind its buffer, the other one does not. -/
theorem not_sameEffect_of_zeros {addr : Word} {size : Int} (hsize : 0 ≤ size)
    (hm : UserSpace k.machine) {n n' : Int} (hout : size < n.toNat) (hin : n'.toNat < size) :
    ¬ SameEffect ((do newBuffer size u.heap; let r ← consoleRead n u.ch; deliver addr r) k)
      ((do newBuffer size u'.heap; let r ← consoleRead n' u'.ch; deliver addr r) k) := by
  obtain ⟨b, hleaves, hb⟩ := leaves_line addr u hsize hm n
  obtain ⟨b', hleaves', hb'⟩ := leaves_line addr u' hsize hm n'
  intro hsame
  -- the first byte behind the buffer
  have hbehind := hsame.leaves hleaves hleaves' ⟨true, size⟩
  have hzero : (filled size u.heap n (line n.toNat k.input)).Outside ⟨true, size⟩ := by
    unfold filled
    rw [Buffer.outside_write, Buffer.outside_write]
    refine Or.inl (Or.inr ⟨mem_accessesFrom.mpr ⟨rfl, hsize, ?_⟩, fun h => ?_⟩)
    swap
    · exact absurd h.2 (Int.lt_irrefl _)
    rw [List.length_replicate, Int.zero_add]
    exact hout
  have hoverrun : b.Outside ⟨true, size⟩ := by
    rcases hb with rfl | ⟨-, r, rfl⟩
    · exact hzero
    · rw [Buffer.outside_read, Buffer.outside_write]
      exact Or.inl (Or.inl hzero)
  have hinside : Inside (filled size u'.heap n' (line n'.toNat k.input)) :=
    Inside.filled u'.heap (by omega) k.input
  refine absurd (hbehind.mp hoverrun) ?_
  rcases hb' with rfl | ⟨hwaiting, r, rfl⟩
  · exact hinside.not_outside _
  · rw [Buffer.outside_read, Buffer.outside_write]
    rintro ((hfilled | ⟨hwrite, -⟩) | ⟨hread, -⟩)
    · exact hinside.not_outside _ hfilled
    · obtain ⟨-, hlow, hhigh⟩ := mem_accessesFrom.mp hwrite
      obtain ⟨hlen, -, -⟩ := line_chars n'.toNat k.input
      simp only [List.length_singleton, Nat.cast_one] at hlow hhigh
      rcases result_cases hwaiting u'.ch with ⟨-, hresult⟩ | ⟨-, -, hresult⟩
      · rw [hresult] at hhigh
        omega
      · rw [hresult] at hlow hhigh
        omega
    · exact Bool.noConfusion (mem_accessesFrom.mp hread).1

/-- Exactly when the two calls do the same, for a length of at least 1. -/
theorem sameEffect_iff (k : Kernel) (u u' : Uninit) (hm : UserSpace k.machine)
    (hfile : k.machine.registers r6 = 0) (hlength : 1 ≤ k.length) :
    SameEffect (scRead u k) (scReadString u' k) ↔ k.length = 2 ^ 31 - 1 ∨ SameLength k u := by
  obtain ⟨hlo, hhi⟩ := k.length_bounds
  rw [scRead_console hfile, scReadString_eq]
  by_cases hmax : k.length = 2 ^ 31 - 1
  · have hneg : s32 (k.length + 1) < 0 := by
      rw [hmax]
      decide
    rw [newBuffer_neg hneg, newBuffer_neg hneg]
    exact iff_of_true rfl (Or.inl hmax)
  have hsize : 0 ≤ s32 (k.length + 1) := (s32_succ_nonneg hlo hhi).mpr ⟨by omega, by omega⟩
  have hbuffer : s32 (k.length + 1) = k.length + 1 := s32_of_bounds (by omega) (by omega)
  rw [or_iff_right hmax]
  unfold SameLength
  by_cases hsame : u.size.toInt = k.length
  · refine iff_of_true (Alike.sameEffect ?_) (Or.inl hsame)
    rw [hsame]
    exact alike_of_line_eq hsize rfl (by omega) (by omega) (by omega) (by omega)
  rw [or_iff_right hsame]
  by_cases hroom : u.size.toInt ≤ k.length + 1
  swap
  · exact iff_of_false (not_sameEffect_of_zeros hsize hm (by omega) (by omega)) fun h => hroom h.1
  rw [and_iff_right hroom]
  by_cases hfull : (line (min u.size.toInt k.length).toNat k.input).ending = .full
  · refine iff_of_false ?_ (not_not.mpr hfull)
    rcases Int.lt_or_gt_of_ne hsame with hlt | hgt
    · rw [Int.min_eq_left (Int.le_of_lt hlt)] at hfull
      exact (not_sameEffect_of_lt hsize hm hfull (by omega)).1
    · rw [Int.min_eq_right (Int.le_of_lt hgt)] at hfull
      exact (not_sameEffect_of_lt hsize hm hfull (by omega)).2
  · refine iff_of_true (Alike.sameEffect ?_) hfull
    have hpos : 1 ≤ (min u.size.toInt k.length).toNat := by
      by_contra hzero
      rw [Nat.lt_one_iff.mp (Nat.not_le.mp hzero), line] at hfull
      exact hfull rfl
    have hline := line_eq_of_le hfull (n := u.size.toInt.toNat) (by omega)
    have hline' := line_eq_of_le hfull (n := k.length.toNat) (by omega)
    exact alike_of_line_eq hsize (hline.trans hline'.symm) (by omega) (by omega) (by omega) (by omega)

end Calls

/-- The variable happens to be 1: of the line `ab`, `SC_Read` takes one character. -/
theorem not_sameEffect_one :
    ¬ SameEffect (scRead { zeroed with size := 1 } (calling (onePage (fun _ => 0) 0 5 0) [97, 98, newline]))
      (scReadString zeroed (calling (onePage (fun _ => 0) 0 5 0) [97, 98, newline])) := by
  rw [scRead_console (by decide), scReadString_eq]
  exact (not_sameEffect_of_lt (by decide) (userSpace_onePage _ _ _ _) (n := 1) (by decide)
    (show (1 : Int).toNat < (5 : Int).toNat by decide)).1

/-- The variable happens to be 3: the line `a` is shorter. -/
theorem sameEffect_three :
    UserSpace (onePage (fun _ => 0) 0 5 0) ∧
      SameEffect (scRead { zeroed with size := 3 } (calling (onePage (fun _ => 0) 0 5 0) [97, newline]))
        (scReadString zeroed (calling (onePage (fun _ => 0) 0 5 0) [97, newline])) := by
  have hm := userSpace_onePage (fun _ => 0) 0 5 0
  rw [sameEffect_iff _ _ _ hm (by decide) (by decide)]
  refine ⟨hm, Or.inr (Or.inr ⟨?_, ?_⟩)⟩
  · decide
  · decide

end Nachos.Syscalls
