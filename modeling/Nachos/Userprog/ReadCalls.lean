import Mathlib.Data.List.TakeWhile
import Nachos.Userprog.InputBuffers

/-!
# What the calls for reading deliver

`SC_Read` from a file reads as many bytes as the file still has, looks for a zero byte or one that
equals `EOF`, and copies the bytes in front of it with a zero behind them (`scRead_cases`).
`SC_ReadString` does so with a line from the console (`scReadString_cases`).
-/

namespace Nachos.Syscalls

open Programs Program CInt Machine

/-! ### Strings in a buffer -/

/-- A buffer with the bytes of a list from the index `i` on, and a zero behind them. -/
def HoldsFrom (bytes : Int → Byte) (i : Nat) (l : List Byte) : Prop :=
  (∀ (j : Nat) (h : j < l.length), bytes (i + j : Nat) = l[j]) ∧ bytes (i + l.length : Nat) = 0

theorem HoldsFrom.tail {bytes : Int → Byte} {i : Nat} {c : Byte} {l : List Byte}
    (h : HoldsFrom bytes i (c :: l)) : HoldsFrom bytes (i + 1) l := by
  constructor
  · intro j hj
    have hbyte := h.1 (j + 1) (Nat.succ_lt_succ hj)
    rwa [show i + (j + 1) = i + 1 + j by omega, List.getElem_cons_succ] at hbyte
  · have hzero := h.2
    rwa [List.length_cons, show i + (l.length + 1) = i + 1 + l.length by omega] at hzero

/-- `System2User` copies a string up to its end. -/
theorem copied_eq {bytes : Int → Byte} {i n : Nat} {l : List Byte} (h : HoldsFrom bytes i l)
    (hzero : 0 ∉ l) (hn : l.length < n) : copied bytes n i = l ++ [0] := by
  obtain ⟨n, rfl⟩ := Nat.exists_eq_succ_of_ne_zero (Nat.ne_zero_of_lt hn)
  induction l generalizing i n with
  | nil =>
    have hend : bytes i = 0 := h.2
    rw [copied, if_pos hend, List.nil_append]
  | cons c l ih =>
    have hc : bytes i = c := h.1 0 (Nat.succ_pos _)
    obtain ⟨hne, hmem⟩ := List.ne_and_not_mem_of_not_mem_cons hzero
    obtain ⟨n, rfl⟩ := Nat.exists_eq_succ_of_ne_zero (n := n) (by simp at hn; omega)
    rw [copied, hc, if_neg (Ne.symm hne), List.cons_append]
    exact congrArg (c :: ·) (ih h.tail hmem n (Nat.lt_of_succ_lt_succ hn))

/-- What follows the longest prefix with a property does not have it. -/
theorem not_getElem_length_takeWhile {α : Type} {p : α → Bool} {l : List α}
    (h : (l.takeWhile p).length < l.length) : ¬ p (l[(l.takeWhile p).length]) := by
  induction l with
  | nil => cases h
  | cons a l ih =>
    by_cases ha : p a
    · simp only [List.takeWhile_cons_of_pos ha, List.length_cons, List.getElem_cons_succ] at h ⊢
      exact ih (Nat.lt_of_succ_lt_succ h)
    · simp only [List.takeWhile_cons_of_neg ha, List.length_nil, List.getElem_cons_zero]
      exact ha

/-! ### The end of a string or of a file -/

/-- The bytes in front of the first one that `SC_Read` takes for the end. -/
def chunk (bytes : List Byte) : List Byte := bytes.takeWhile fun c => c ≠ 0 ∧ c ≠ eof

/-- What `SC_Read` returns for bytes from the index `i` on. -/
def endOf (i : Int) (bytes : List Byte) : Int :=
  match bytes[(chunk bytes).length]? with
  | none => i + bytes.length
  | some c => if c = eof then -2 else i + (chunk bytes).length + 1

theorem chunk_cons_of_end {c : Byte} (h : c = 0 ∨ c = eof) (rest : List Byte) : chunk (c :: rest) = [] := by
  refine List.takeWhile_cons_of_neg ?_
  rw [decide_eq_true_eq, ← not_or, not_not]
  exact h

theorem chunk_cons {c : Byte} (h : ¬ (c = 0 ∨ c = eof)) (rest : List Byte) :
    chunk (c :: rest) = c :: chunk rest := by
  refine List.takeWhile_cons_of_pos ?_
  rw [decide_eq_true_eq, ← not_or]
  exact h

theorem not_mem_chunk {c : Byte} (h : c = 0 ∨ c = eof) (bytes : List Byte) : c ∉ chunk bytes := by
  intro hc
  have hne := List.mem_takeWhile_imp hc
  rw [decide_eq_true_eq, ← not_or] at hne
  exact hne h

theorem length_chunk_le (bytes : List Byte) : (chunk bytes).length ≤ bytes.length :=
  (List.takeWhile_prefix _).length_le

theorem endOf_cons {c : Byte} (h : ¬ (c = 0 ∨ c = eof)) (i : Int) (rest : List Byte) :
    endOf i (c :: rest) = endOf (i + 1) rest := by
  unfold endOf
  rw [chunk_cons h, List.length_cons, List.getElem?_cons_succ, List.length_cons]
  cases rest[(chunk rest).length]? with
  | none =>
    show i + ((rest.length + 1 : Nat) : Int) = i + 1 + rest.length
    push_cast
    ring
  | some d =>
    show (if d = eof then -2 else i + (((chunk rest).length + 1 : Nat) : Int) + 1) = _
    rw [show i + (((chunk rest).length + 1 : Nat) : Int) + 1 = i + 1 + (chunk rest).length + 1 by
      push_cast; ring]

/-- The loop that looks for the end. -/
theorem endLoop_eq {rest : List Byte} {i : Nat} {k : Kernel} (h : HoldsFrom k.buffer.bytes i rest) :
    ∃ (len : Nat) (isEOF : Bool) (b : Buffer),
      endLoop (i + rest.length : Nat) rest.length i k = .done ((len : Int), isEOF) { k with buffer := b } ∧
      (∀ j, b.bytes j = if j = (i + (chunk rest).length : Nat) then 0 else k.buffer.bytes j) ∧
      i + (chunk rest).length ≤ len ∧ len ≤ i + rest.length ∧
      (if isEOF then -2 else (len : Int)) = endOf i rest := by
  induction rest generalizing i k with
  | nil =>
    refine ⟨i, false, k.buffer, rfl, fun j => ?_, Nat.le_refl i, Nat.le_refl i, ?_⟩
    · split
      · rename_i hj
        rw [hj]
        exact h.2
      · rfl
    · exact (Int.add_zero _).symm
  | cons c rest ih =>
    have hc : k.buffer.bytes i = c := h.1 0 (Nat.succ_pos _)
    have hget : get i k = .done c { k with buffer := k.buffer.read i 1 } := by
      rw [← hc]
      rfl
    rw [List.length_cons, endLoop, bind_done hget]
    by_cases hzero : c = 0
    · rw [if_pos hzero]
      refine ⟨i + 1, false, k.buffer.read i 1, by push_cast; rfl, fun j => ?_, ?_, by omega, ?_⟩
      · rw [chunk_cons_of_end (Or.inl hzero)]
        split
        · rename_i hj
          rw [hj]
          exact hc.trans hzero
        · rfl
      · rw [chunk_cons_of_end (Or.inl hzero)]
        exact Nat.le_succ i
      · unfold endOf
        rw [chunk_cons_of_end (Or.inl hzero)]
        show ((i + 1 : Nat) : Int) = if c = eof then -2 else (i : Int) + (0 : Nat) + 1
        rw [if_neg (by rw [hzero]; decide)]
        push_cast
        ring
    rw [if_neg hzero]
    by_cases heof : c = eof
    · rw [if_pos heof]
      refine ⟨i + 1, true, (k.buffer.read i 1).write i [0], by push_cast; rfl, fun j => ?_, ?_,
        by omega, ?_⟩
      · rw [chunk_cons_of_end (Or.inr heof)]
        by_cases hj : j = i
        · rw [Buffer.bytes_write_of_mem _ _ _ (by omega) (by simp; omega), hj]
          simp
        · rw [Buffer.bytes_write_of_not_mem _ _ _ (by simp; omega), if_neg (by simpa using hj)]
          rfl
      · rw [chunk_cons_of_end (Or.inr heof)]
        exact Nat.le_succ i
      · unfold endOf
        rw [chunk_cons_of_end (Or.inr heof)]
        exact (if_pos heof).symm
    · have hne : ¬ (c = 0 ∨ c = eof) := not_or.mpr ⟨hzero, heof⟩
      rw [if_neg heof]
      obtain ⟨len, isEOF, b, hloop, hbytes, hlo, hhi, hend⟩ :=
        ih (i := i + 1) (k := { k with buffer := k.buffer.read i 1 }) h.tail
      rw [chunk_cons hne, endOf_cons hne, List.length_cons,
        show i + ((chunk rest).length + 1) = i + 1 + (chunk rest).length by omega,
        show i + (rest.length + 1) = i + 1 + rest.length by omega]
      exact ⟨len, isEOF, b, hloop, hbytes, hlo, hhi, hend.trans (by push_cast; rfl)⟩

/-! ### `SC_Read` of a file -/

section Read

variable {k : Kernel} {u : Uninit} {f : OpenFile}

/-- The argument `id`. -/
def Kernel.fID (k : Kernel) : Int := (k.machine.registers r6).toInt

/-- The argument `id` is one of an open file. -/
structure ReadsFile (k : Kernel) (f : OpenFile) : Prop where
  lower : 2 ≤ k.fID
  upper : k.fID ≤ 9
  isOpen : k.openFileList k.fID.toNat = some f

/-- The bytes that the file still has for the call. -/
def Kernel.nextBytes (k : Kernel) (f : OpenFile) : List Byte :=
  hostRead (k.hostFiles f.file) f.currentOffset.toNat k.length.toNat

theorem length_nextBytes (k : Kernel) (f : OpenFile) : (k.nextBytes f).length ≤ k.length.toNat :=
  List.length_take_le _ _

theorem scRead_file (hf : ReadsFile k f) : scRead u k = (do
    newBuffer (s32 (k.length + 1)) u.heap
    let len ← fileRead k.fID f k.length
    put len [0]
    let r ← endLoop len len.toNat 0
    sendString (k.machine.registers r4) r.1 (if r.2 then -2 else r.1)) k := by
  show (if k.fID = 0 then _ else if k.fID < 2 ∨ k.fID > 9 then _ else _ : Call Unit) k = _
  have hlower := hf.lower
  have hupper := hf.upper
  rw [if_neg (by omega), if_neg (by omega)]
  exact bind_done (openFile_of_some hf.isOpen)

/-- `Lseek` fails its ASSERT for a negative offset, unless the buffer cannot be made. -/
theorem scRead_neg (hf : ReadsFile k f) (hoffset : f.currentOffset < 0) :
    ∃ a, scRead u k = .fault a := by
  rw [scRead_file hf]
  by_cases hsize : s32 (k.length + 1) < 0
  · exact ⟨_, newBuffer_neg hsize _ _ _⟩
  · have hnew : newBuffer (s32 (k.length + 1)) u.heap k =
        .done () { k with buffer := ⟨s32 (k.length + 1), u.heap, []⟩ } := by
      unfold newBuffer
      rw [if_neg hsize]
      rfl
    refine ⟨.machine .assertion, ?_⟩
    rw [bind_done hnew]
    refine bind_fault ?_
    unfold fileRead lseek
    rw [if_pos hoffset]
    rfl

/-- A string and a zero behind it. -/
theorem holdsFrom_write (b : Buffer) (bytes : List Byte) :
    HoldsFrom ((b.write 0 bytes).write bytes.length [0]).bytes 0 bytes := by
  constructor
  · intro j hj
    rw [Nat.zero_add, Buffer.bytes_write_of_not_mem _ _ _ (by omega),
      Buffer.bytes_write_of_mem _ _ _ (by omega) (by omega)]
    simp [hj]
  · rw [Nat.zero_add, Buffer.bytes_write_of_mem _ _ _ (Int.le_refl _) (by simp), Int.sub_self]
    rfl

/-- The bytes in front of an end, when the end has been made a zero. -/
theorem HoldsFrom.chunk {bytes bytes' : Int → Byte} {l : List Byte} (h : HoldsFrom bytes 0 l)
    (h' : ∀ j, bytes' j = if j = (0 + (chunk l).length : Nat) then 0 else bytes j) :
    HoldsFrom bytes' 0 (chunk l) := by
  have hpre : Syscalls.chunk l <+: l := List.takeWhile_prefix _
  constructor
  · intro j hj
    rw [h', if_neg (by omega), h.1 j (Nat.lt_of_lt_of_le hj hpre.length_le)]
    exact (hpre.getElem hj).symm
  · rw [h', if_pos rfl]

/-- `SC_Read` of a file delivers the bytes in front of the first end, or the machine halts. -/
theorem scRead_cases (hm : UserSpace k.machine) (hf : ReadsFile k f) (hoffset : 0 ≤ f.currentOffset)
    (hlen : 0 ≤ k.length) (hmax : k.length < 2 ^ 31 - 1) :
    let addr := k.machine.registers r4
    let s := chunk (k.nextBytes f) ++ [0]
    let k₁ := advance k.fID f (k.nextBytes f).length k
    (∃ m' b, scRead u k =
        .done () (({ k₁ with machine := m', buffer := b } : Kernel).returned (endOf 0 (k.nextBytes f))) ∧
      SameSpace k.machine m' ∧ Copied k.machine addr 0 s m') ∨
    ∃ j e m' b, scRead u k = .trap (.halted e) { k₁ with machine := m', buffer := b } ∧ j < s.length ∧
      k.machine.userByte (addr + BitVec.ofNat 32 j) = none ∧ Copied k.machine addr 0 (s.take j) m' := by
  intro addr s k₁
  have hbytes := length_nextBytes k f
  have hs32 : ¬ s32 (k.length + 1) < 0 := by
    rw [s32_of_bounds (by omega) (by omega)]
    omega
  have hnew : newBuffer (s32 (k.length + 1)) u.heap k =
      .done () { k with buffer := ⟨s32 (k.length + 1), u.heap, []⟩ } := by
    unfold newBuffer
    rw [if_neg hs32]
    rfl
  have hread : ∀ b : Buffer, fileRead k.fID f k.length { k with buffer := b } =
      .done (k.nextBytes f).length { k₁ with buffer := b.write 0 (k.nextBytes f) } := by
    intro b
    unfold fileRead lseek
    rw [if_neg (Int.not_lt.mpr hoffset), if_neg (Int.not_lt.mpr hlen)]
    rfl
  let b := ((Buffer.mk (s32 (k.length + 1)) u.heap []).write 0 (k.nextBytes f)).write
    (k.nextBytes f).length [0]
  have hholds : HoldsFrom b.bytes 0 (k.nextBytes f) := holdsFrom_write _ _
  obtain ⟨len, isEOF, b', hloop, hbytes', hlo, hhi, hend⟩ :=
    endLoop_eq (k := { k₁ with buffer := b }) hholds
  rw [Nat.zero_add] at hloop hlo hhi
  have hcall : scRead u k = sendString addr len (endOf 0 (k.nextBytes f)) { k₁ with buffer := b' } := by
    rw [scRead_file hf, bind_done hnew, bind_done (hread _)]
    refine (bind_done hloop).trans ?_
    simp only
    rw [hend]
    rfl
  have hcopied : copied b'.bytes (len + 1) 0 = s :=
    copied_eq (hholds.chunk hbytes') (not_mem_chunk (Or.inl rfl) _) (Nat.lt_succ_of_le hlo)
  rw [hcall]
  rcases sendString_cases addr (endOf 0 (k.nextBytes f)) (k := { k₁ with buffer := b' }) hm (n := len)
    (by omega) with ⟨m', hdone, hsame, hcopy⟩ | ⟨j, e, m', htrap, hj, hnone, hcopy⟩
  · rw [hcopied] at hcopy
    exact Or.inl ⟨m', _, hdone, hsame, hcopy⟩
  · rw [hcopied] at hj hcopy
    exact Or.inr ⟨j, e, m', _, htrap, hj, hnone, hcopy⟩

end Read

end Nachos.Syscalls
