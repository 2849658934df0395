import Nachos.Userprog.ReadCalls

/-!
# Buffers of the user program

The calls for reading put a zero behind what they have read. When a file or a line has at least as
many bytes as the user program asked for, and no zero byte or end among them, this zero is written
behind the buffer of the user program.

`frameKept_iff`: the exact condition, for `SC_ReadString` and for `SC_Read` of a file.
-/

namespace Nachos.Syscalls

open Programs Program CInt Machine

/-! ### Statement -/

/-- The `n` virtual addresses from `addr` on. -/
def Within (addr : Word) (n : Nat) (va : Word) : Prop := ∃ j < n, va = addr + BitVec.ofNat 32 j

/-- No byte of user memory outside the buffer has changed. -/
def FrameKept (m : Machine) (addr : Word) (n : Nat) : Outcome Kernel Stop Abort Unit → Prop
  | .done _ k => ∀ va, ¬ Within addr n va → k.machine.userByte va = m.userByte va
  | .trap _ k => ∀ va, ¬ Within addr n va → k.machine.userByte va = m.userByte va
  | .fault _ => True

/-- The user program has the `n` bytes of the buffer and, behind them, a byte that is not zero. -/
def SpareByte (m : Machine) (addr : Word) (n : Nat) : Prop :=
  (∀ j < n, m.userByte (addr + BitVec.ofNat 32 j) ≠ none) ∧
    m.userByte (addr + BitVec.ofNat 32 n) ≠ none ∧ m.userByte (addr + BitVec.ofNat 32 n) ≠ some 0

/-- `ReadString` gets as many characters as fit, none of them zero. -/
def StringOverrun (k : Kernel) (u : Uninit) : Prop :=
  k.length < 2 ^ 31 - 1 ∧ ¬ (k.length = 0 ∧ u.ch = controlA) ∧
    (line k.length.toNat k.input).ending = .full ∧ 0 ∉ (line k.length.toNat k.input).chars ∧
    SpareByte k.machine (k.machine.registers r4) k.length.toNat

/-- The file has as many bytes as fit, none of them zero or equal to `EOF`. -/
def FileOverrun (k : Kernel) (f : OpenFile) : Prop :=
  k.length < 2 ^ 31 - 1 ∧ 0 ≤ f.currentOffset ∧ (k.nextBytes f).length = k.length.toNat ∧
    0 ∉ k.nextBytes f ∧ eof ∉ k.nextBytes f ∧
    SpareByte k.machine (k.machine.registers r4) k.length.toNat

/-! ### Strings in user memory -/

/-- A string is copied to the user program, or the machine halts at the first address that is not
there. -/
def Delivers (m : Machine) (addr : Word) (s : List Byte) (o : Outcome Kernel Stop Abort Unit) : Prop :=
  (∃ k, o = .done () k ∧ (∀ va, k.machine.userByte va = none ↔ m.userByte va = none) ∧
    Copied m addr 0 s k.machine) ∨
  ∃ j e k, o = .trap (.halted e) k ∧ j < s.length ∧ m.userByte (addr + BitVec.ofNat 32 j) = none ∧
    Copied m addr 0 (s.take j) k.machine

section Strings

variable {m m' : Machine} {addr : Word} {n : Nat} {l s : List Byte}
  {o : Outcome Kernel Stop Abort Unit}

/-- A string that fits into the buffer. -/
theorem Copied.kept (h : Copied m addr 0 s m') (hs : s.length ≤ n) {va : Word}
    (hva : ¬ Within addr n va) : m'.userByte va = m.userByte va := by
  refine h.other va fun j hj heq => hva ⟨j, by omega, ?_⟩
  rwa [Nat.zero_add] at heq

theorem not_within (hn : n < 2 ^ 32) : ¬ Within addr n (addr + BitVec.ofNat 32 n) := by
  rintro ⟨j, hj, heq⟩
  have := ofNat_add_inj (by omega) (by omega) heq
  omega

/-- Only the zero behind the string can be outside the buffer. -/
theorem Delivers.keeps_iff (h : Delivers m addr (l ++ [0]) o) (hl : l.length ≤ n)
    (hn : n < 2 ^ 32) : FrameKept m addr n o ↔ ¬ (l.length = n ∧ SpareByte m addr n) := by
  rcases h with ⟨k, rfl, hsame, hcopied⟩ | ⟨j, e, k, rfl, hj, hnone, hcopied⟩
  · by_cases hlen : l.length = n
    · have hlast : k.machine.userByte (addr + BitVec.ofNat 32 n) = some 0 := by
        have hbyte := hcopied.byte n (by simp [hlen])
        rwa [Nat.zero_add, List.getElem_concat_length hlen.symm] at hbyte
      constructor
      · rintro hkept ⟨-, -, -, hne⟩
        rw [← hkept _ (not_within hn)] at hne
        exact hne hlast
      · intro hspare va hva
        have hmapped : ∀ j ≤ n, m.userByte (addr + BitVec.ofNat 32 j) ≠ none := by
          intro j hj
          have hbyte := hcopied.byte j (by simp; omega)
          rw [Nat.zero_add] at hbyte
          rw [ne_eq, ← hsame, hbyte]
          exact Option.some_ne_none _
        by_cases hva' : va = addr + BitVec.ofNat 32 n
        · -- the byte behind the buffer was zero before
          rw [hva', hlast]
          by_contra hne
          exact hspare ⟨hlen, fun j hj => hmapped j hj.le, hmapped n le_rfl, fun h => hne h.symm⟩
        · refine hcopied.other va fun j hj heq => ?_
          rw [Nat.zero_add] at heq
          rw [List.length_append, List.length_singleton] at hj
          rcases Nat.lt_or_eq_of_le (show j ≤ n by omega) with hlt | rfl
          · exact hva ⟨j, hlt, heq⟩
          · exact hva' heq
    · refine iff_of_true (fun va hva => hcopied.kept ?_ hva) fun h => hlen h.1
      rw [List.length_append, List.length_singleton]
      omega
  · have hj' : j ≤ n := by
      rw [List.length_append, List.length_singleton] at hj
      omega
    refine iff_of_true (fun va hva => hcopied.kept ?_ hva) ?_
    · exact (List.length_take_le _ _).trans hj'
    · rintro ⟨-, hbuffer, hbyte, -⟩
      rcases Nat.lt_or_eq_of_le hj' with hlt | rfl
      · exact hbuffer j hlt hnone
      · exact hbyte hnone

theorem sendString_delivers {k : Kernel} (addr : Word) (v : Int) (hm : UserSpace k.machine) {n : Nat}
    (hn : n + 1 < 2 ^ 31) (hs : copied k.buffer.bytes (n + 1) 0 = s) :
    Delivers k.machine addr s (sendString addr n v k) := by
  subst hs
  rcases sendString_cases addr v hm hn with ⟨m', hdone, hsame, hcopied⟩ | ⟨j, e, m', htrap, hj, hnone, hcopied⟩
  · exact Or.inl ⟨_, hdone, fun va => hsame.userByte_eq_none, hcopied.byte, hcopied.other⟩
  · exact Or.inr ⟨j, e, _, htrap, hj, hnone, hcopied⟩

end Strings

/-! ### The calls -/

section Calls

variable {k : Kernel} {u : Uninit} {f : OpenFile}

/-- The characters of a line up to a zero one. -/
theorem HoldsFrom.string {bytes : Int → Byte} {l : List Byte} (h : HoldsFrom bytes 0 l) :
    HoldsFrom bytes 0 (l.takeWhile (· ≠ 0)) := by
  have hpre : l.takeWhile (· ≠ 0) <+: l := List.takeWhile_prefix _
  constructor
  · intro j hj
    rw [h.1 j (Nat.lt_of_lt_of_le hj hpre.length_le)]
    exact (hpre.getElem hj).symm
  · rcases Nat.lt_or_eq_of_le hpre.length_le with hlt | heq
    · rw [h.1 _ hlt]
      simpa using not_getElem_length_takeWhile hlt
    · rw [heq]
      exact h.2

theorem takeWhile_ne_zero (l : List Byte) : (l.takeWhile (· ≠ 0)).length = l.length ↔ 0 ∉ l := by
  have hpre : l.takeWhile (· ≠ 0) <+: l := List.takeWhile_prefix _
  constructor
  · intro hlen hzero
    rw [← hpre.eq_of_length hlen] at hzero
    simpa using List.mem_takeWhile_imp hzero
  · intro hzero
    refine congrArg List.length (List.takeWhile_eq_self_iff.mpr fun c hc => ?_)
    rw [decide_eq_true_eq]
    rintro rfl
    exact hzero hc

theorem frameKept_scReadString (hm : UserSpace k.machine) (hn : 0 ≤ k.length) :
    FrameKept k.machine (k.machine.registers r4) k.length.toNat (scReadString u k) ↔
      ¬ StringOverrun k u := by
  obtain ⟨hlo, hhi⟩ := k.length_bounds
  unfold StringOverrun
  rw [scReadString_eq]
  by_cases hmax : k.length < 2 ^ 31 - 1
  · have hsize : 0 ≤ s32 (k.length + 1) := (s32_succ_nonneg hlo hhi).mpr ⟨by omega, hmax⟩
    rw [newBuffer_consoleRead hsize]
    simp only
    obtain ⟨hlen, hfull, -⟩ := line_chars k.length.toNat k.input
    by_cases hwaiting : (line k.length.toNat k.input).ending = .waiting
    · rw [if_pos hwaiting]
      refine iff_of_true (fun _ _ => rfl) ?_
      rintro ⟨-, -, hends, -⟩
      rw [hwaiting] at hends
      cases hends
    rw [if_neg hwaiting]
    rcases result_cases hwaiting u.ch with ⟨hends, hresult⟩ | ⟨hends, hch, hresult⟩
    · rw [hresult, deliver_neg_one]
      refine iff_of_true (fun _ _ => rfl) ?_
      rintro ⟨-, hch, hfull', -⟩
      rcases hends with hends | ⟨hzero, hch'⟩
      · rw [hfull'] at hends
        cases hends
      · exact hch ⟨by omega, hch'⟩
    · rw [hresult, deliver_eq]
      let l := line k.length.toNat k.input
      have hlen : l.chars.length ≤ k.length.toNat := hlen
      let k₁ : Kernel := { k with
        input := l.rest
        buffer := (filled (s32 (k.length + 1)) u.heap k.length l).write l.chars.length [0] }
      have hs : copied k₁.buffer.bytes (l.chars.length + 1) 0 = l.chars.takeWhile (· ≠ 0) ++ [0] := by
        have hholds : HoldsFrom k₁.buffer.bytes 0 l.chars := holdsFrom_write _ _
        refine copied_eq hholds.string (fun hzero => ?_) ?_
        · simpa using List.mem_takeWhile_imp hzero
        · exact Nat.lt_succ_of_le (List.takeWhile_prefix _).length_le
      have hdelivers := sendString_delivers (k := k₁) (k.machine.registers r4) l.chars.length hm
        (n := l.chars.length) (show l.chars.length + 1 < 2 ^ 31 by omega) hs
      have hle : (l.chars.takeWhile (· ≠ 0)).length ≤ l.chars.length :=
        (List.takeWhile_prefix _).length_le
      refine (hdelivers.keeps_iff (n := k.length.toNat) (hle.trans hlen) (by omega)).trans ?_
      refine not_congr ⟨?_, ?_⟩
      · rintro ⟨hall, hspare⟩
        have hlen' : l.chars.length = k.length.toNat := by omega
        exact ⟨hmax, fun h => hch ⟨by omega, h.2⟩, hfull.mpr hlen',
          (takeWhile_ne_zero _).mp (hall.trans hlen'.symm), hspare⟩
      · rintro ⟨-, -, hends, hzero, hspare⟩
        exact ⟨((takeWhile_ne_zero _).mpr hzero).trans (hfull.mp hends), hspare⟩
  · rw [newBuffer_neg]
    · exact iff_of_true trivial fun h => hmax h.1
    · exact Int.not_le.mp fun h => hmax ((s32_succ_nonneg hlo hhi).mp h).2

theorem length_chunk_eq (bytes : List Byte) :
    (chunk bytes).length = bytes.length ↔ 0 ∉ bytes ∧ eof ∉ bytes := by
  have hpre : chunk bytes <+: bytes := List.takeWhile_prefix _
  constructor
  · intro hlen
    have heq := hpre.eq_of_length hlen
    rw [← heq]
    exact ⟨not_mem_chunk (Or.inl rfl) bytes, not_mem_chunk (Or.inr rfl) bytes⟩
  · rintro ⟨hzero, heof⟩
    refine congrArg List.length (List.takeWhile_eq_self_iff.mpr fun c hc => ?_)
    rw [decide_eq_true_eq]
    exact ⟨fun h => hzero (h ▸ hc), fun h => heof (h ▸ hc)⟩

theorem frameKept_scRead (hm : UserSpace k.machine) (hf : ReadsFile k f) (hn : 0 ≤ k.length) :
    FrameKept k.machine (k.machine.registers r4) k.length.toNat (scRead u k) ↔ ¬ FileOverrun k f := by
  obtain ⟨hlo, hhi⟩ := k.length_bounds
  unfold FileOverrun
  by_cases hmax : k.length < 2 ^ 31 - 1
  · by_cases hoffset : 0 ≤ f.currentOffset
    · have hlen := length_nextBytes k f
      have hdelivers : Delivers k.machine (k.machine.registers r4) (chunk (k.nextBytes f) ++ [0])
          (scRead u k) := by
        rcases scRead_cases (u := u) hm hf hoffset hn hmax with
          ⟨m', b, hdone, hsame, hcopied⟩ | ⟨j, e, m', b, htrap, hj, hnone, hcopied⟩
        · exact Or.inl ⟨_, hdone, fun va => hsame.userByte_eq_none, hcopied.byte, hcopied.other⟩
        · exact Or.inr ⟨j, e, _, htrap, hj, hnone, hcopied⟩
      have hle := length_chunk_le (k.nextBytes f)
      refine (hdelivers.keeps_iff (n := k.length.toNat) (hle.trans hlen) (by omega)).trans ?_
      refine not_congr ⟨?_, ?_⟩
      · rintro ⟨hall, hspare⟩
        have hlen' : (k.nextBytes f).length = k.length.toNat := by omega
        obtain ⟨hzero, heof⟩ := (length_chunk_eq _).mp (hall.trans hlen'.symm)
        exact ⟨hmax, hoffset, hlen', hzero, heof, hspare⟩
      · rintro ⟨-, -, hlen', hzero, heof, hspare⟩
        exact ⟨((length_chunk_eq _).mpr ⟨hzero, heof⟩).trans hlen', hspare⟩
    · obtain ⟨a, hfault⟩ := scRead_neg (u := u) hf (Int.not_le.mp hoffset)
      rw [hfault]
      exact iff_of_true trivial fun h => hoffset h.2.1
  · rw [scRead_file hf, newBuffer_neg]
    · exact iff_of_true trivial fun h => hmax h.1
    · exact Int.not_le.mp fun h => hmax ((s32_succ_nonneg hlo hhi).mp h).2

/-- Exactly when the calls for reading stay inside the buffer of the user program. -/
theorem frameKept_iff (k : Kernel) (u : Uninit) (hm : UserSpace k.machine) (hn : 0 ≤ k.length) :
    (FrameKept k.machine (k.machine.registers r4) k.length.toNat (scReadString u k) ↔
      ¬ StringOverrun k u) ∧
    ∀ f, ReadsFile k f →
      (FrameKept k.machine (k.machine.registers r4) k.length.toNat (scRead u k) ↔ ¬ FileOverrun k f) :=
  ⟨frameKept_scReadString hm hn, fun _ hf => frameKept_scRead hm hf hn⟩

end Calls

/-- Memory whose byte behind a buffer of 2 bytes at address 0 is 7. -/
def sevenBehind (a : Nat) : Byte := if a = 2 then 7 else 0

/-- The line `ab` is as long as the buffer: the byte behind it becomes zero. -/
theorem not_frameKept_ab :
    ¬ FrameKept (onePage sevenBehind 0 2 0) 0 2
      (scReadString zeroed (calling (onePage sevenBehind 0 2 0) [97, 98, newline])) := by
  have hm : UserSpace (onePage sevenBehind 0 2 0) := userSpace_onePage _ _ _ _
  have hkept := frameKept_scReadString (k := calling (onePage sevenBehind 0 2 0) [97, 98, newline])
    (u := zeroed) hm (by decide)
  refine fun h => hkept.mp h ⟨by decide, by decide, by decide, by decide, ?_⟩
  unfold SpareByte
  decide

/-- A line and a file of one byte are shorter than the buffer. -/
theorem frameKept_a :
    let k := callingWithFile (onePage sevenBehind 0 2 2) [97, newline] [97]
    UserSpace k.machine ∧ ReadsFile k ⟨0, 0, 0⟩ ∧
      FrameKept k.machine (k.machine.registers r4) k.length.toNat (scReadString zeroed k) ∧
      FrameKept k.machine (k.machine.registers r4) k.length.toNat (scRead zeroed k) := by
  intro k
  have hm : UserSpace k.machine := userSpace_onePage _ _ _ _
  have hf : ReadsFile k ⟨0, 0, 0⟩ := ⟨by decide, by decide, rfl⟩
  obtain ⟨hstring, hfile⟩ := frameKept_iff k zeroed hm (by decide)
  rw [hstring, hfile _ hf]
  refine ⟨hm, hf, ?_, ?_⟩
  · rintro ⟨-, -, hends, -⟩
    exact absurd hends (by decide)
  · rintro ⟨-, -, hlen, -⟩
    exact absurd hlen (by decide)

end Nachos.Syscalls
