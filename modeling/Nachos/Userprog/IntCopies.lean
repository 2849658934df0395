import Nachos.Userprog.StringCopies

/-!
# Integers from the kernel to the user program

`System2UserInt` (exception.cc) copies an array of `int`s as `System2User` copies a string: its next
address is one byte behind the last one. The second address is never aligned, so the second write
raises an exception, whose handler halts the machine.

`arrives_iff`: which arrays arrive; `halts_of_two`: what becomes of the others.
-/

namespace Nachos.Machine

open Bytes Programs Program

/-- The address is mapped to a frame of main memory, and the program may write there. -/
def WritableFrame (m : Machine) (va : Word) : Prop :=
  ∃ e, m.validEntry va = some e ∧ e.readOnly = false ∧ e.physicalPage.toNat < numPhysPages

/-- The user program loads the word `v` from the address. -/
def WordAt (m : Machine) (va v : Word) : Prop := ∃ m', readMem va 4 m = .done v m'

section Words

variable {m m' : Machine} {va v : Word}

theorem DistinctFrames.writableFrame (hm : DistinctFrames m) (h : WritableAt m va) :
    WritableFrame m va := by
  obtain ⟨e, he, hwritable⟩ := h
  exact ⟨e, he, hwritable, hm.frame va e he⟩

/-- `WriteMem` of a word. -/
theorem WritableFrame.writeMem_word (h : WritableFrame m va) (ha : Aligned va 4) (v : Word) :
    ∃ m', writeMem va 4 v m = .done () m' ∧ SameSpace m m' ∧ WordAt m' va v := by
  have hsize : 4 = 1 ∨ 4 = 2 ∨ 4 = 4 := by omega
  obtain ⟨e, he, hwritable, hframe⟩ := h
  have hwriting : (e.readOnly && true) = false := by rw [hwritable, Bool.false_and]
  have hreading : (e.readOnly && false) = false := Bool.and_false _
  obtain ⟨m₁, htr, ht⟩ := translate_of_validEntry hsize ha he hwriting hframe
  generalize hpa : e.physicalPage.toNat * pageSize + va.toNat % pageSize = pa at htr
  let m' : Machine := { m₁ with mainMemory := store m₁.mainMemory pa 4 v }
  have hsame : SameSpace m m' := ⟨ht.mapping, ht.size, ht.registers⟩
  have he' : m'.validEntry va = some e := (hsame.validEntry va).trans he
  obtain ⟨m₂, htr', ht'⟩ := translate_of_validEntry hsize ha he' hreading hframe
  rw [hpa] at htr'
  refine ⟨m', ?_, hsame, m₂, ?_⟩
  · unfold writeMem
    rw [bind_done htr]
    rfl
  · have hload : Bytes.load m₂.mainMemory pa 4 = v := by
      rw [ht'.memory]
      exact load_store m₁.mainMemory pa (Nat.le_refl 32) v
    unfold readMem
    rw [bind_done htr']
    exact congrArg (fun w => Outcome.done w m₂) hload

theorem writeMem_misaligned (hna : ¬ Aligned va 4) (v : Word) :
    writeMem va 4 v m = raiseException .addressError va m := by
  have htr : translate va 4 true m = .done (.error .addressError) m :=
    if_pos ((misaligned_iff (Or.inr (Or.inr rfl))).mpr hna)
  unfold writeMem
  rw [bind_done htr]

theorem raiseException_bind {α β : Type} (e : ExceptionType) (a : Word) (f : α → Routine β) :
    raiseException e a >>= f = raiseException e a := by
  unfold raiseException
  rw [bind_bind]
  refine congrArg _ (funext fun _ => ?_)
  rw [bind_bind]
  rfl

/-- One of two neighbouring addresses is not that of a word. -/
theorem Aligned.not_next (ha : Aligned va 4) : ¬ Aligned (va + 1) 4 := by
  have hlt := va.isLt
  unfold Aligned at *
  rw [BitVec.toNat_add, show (1 : Word).toNat = 1 from rfl]
  omega

end Words

end Nachos.Machine

namespace Nachos.Syscalls.IntCopies

open Programs Program CInt Machine

/-- The loop of `System2UserInt`, for `n` more integers from index `i` on. -/
def system2UserIntFrom (virtAddr : Word) (buffer : List Word) : Nat → Nat → Routine Int
  | 0, i => pure i
  | n + 1, i =>
    match buffer[i]? with
    | none => fault .outOfBounds
    | some v => do
      writeMem (virtAddr + BitVec.ofNat 32 i) 4 v
      system2UserIntFrom virtAddr buffer n (i + 1)

/-- `System2UserInt`. -/
def system2UserInt (virtAddr : Word) (len : Int) (buffer : List Word) : Routine Int :=
  if len < 0 then pure (-1)
  else if len = 0 then pure len
  else system2UserIntFrom virtAddr buffer len.toNat 0

/-- The destination of `len` integers: an aligned address, and a range that is mapped and
writable. -/
structure Destination (m : Machine) (addr : Word) (len : Nat) : Prop where
  aligned : Aligned addr 4
  writable : ∀ j < 4 * len, WritableFrame m (addr + BitVec.ofNat 32 j)

theorem Destination.first {m : Machine} {addr : Word} {len : Nat} (h : Destination m addr len)
    (hlen : 1 ≤ len) : WritableFrame m addr := by
  have hwritable := h.writable 0 (by omega)
  rw [BitVec.add_zero] at hwritable
  exact hwritable

/-- The call raises no exception and returns the length, and the user program has the array. -/
def Arrives (m : Machine) (addr : Word) (buffer : List Word) : Prop :=
  ∃ m', system2UserInt addr buffer.length buffer m = .done (buffer.length : Int) m' ∧
    ∀ (k : Nat) (h : k < buffer.length), WordAt m' (addr + BitVec.ofNat 32 (4 * k)) buffer[k]

section Calls

variable {m m' : Machine} {addr : Word} {buffer : List Word}

theorem system2UserInt_cons (v : Word) :
    system2UserInt addr (v :: buffer).length (v :: buffer) =
      writeMem addr 4 v >>= fun _ => system2UserIntFrom addr (v :: buffer) buffer.length 1 := by
  have hfirst : addr + BitVec.ofNat 32 0 = addr := BitVec.add_zero addr
  unfold system2UserInt
  rw [List.length_cons, if_neg (by omega), if_neg (by omega), Int.toNat_natCast]
  show (writeMem (addr + BitVec.ofNat 32 0) 4 v >>= fun _ => _) = _
  rw [hfirst]

/-- The second round raises an exception. -/
theorem system2UserIntFrom_one (ha : Aligned addr 4) (v w : Word) (n : Nat) :
    system2UserIntFrom addr (v :: w :: buffer) (n + 1) 1 m =
      (raiseException .addressError (addr + 1) : Routine Int) m := by
  have hwrite : writeMem (addr + 1) 4 w m =
      (raiseException .addressError (addr + 1) : Routine Unit) m := writeMem_misaligned ha.not_next w
  have hbind := congrFun (raiseException_bind .addressError (addr + 1) fun _ : Unit =>
    system2UserIntFrom addr (v :: w :: buffer) n 2) m
  refine Eq.trans ?_ hbind
  show Program.bind _ _ m = Program.bind _ _ m
  unfold Program.bind
  rw [← hwrite]
  rfl

/-- Whatever the address is, a call with more than one integer does not return. -/
theorem not_done_of_two {r : Int} (hlen : 2 ≤ buffer.length) :
    system2UserInt addr buffer.length buffer m ≠ .done r m' := by
  intro hdone
  rcases buffer with _ | ⟨v, _ | ⟨w, buffer⟩⟩
  · exact absurd hlen (by simp)
  · exact absurd hlen (by simp)
  · rw [system2UserInt_cons] at hdone
    obtain ⟨_, t, hwrite, hrest⟩ := bind_eq_done hdone
    by_cases ha : Aligned addr 4
    · rw [List.length_cons, system2UserIntFrom_one ha] at hrest
      exact raiseException_not_done _ _ _ _ _ hrest
    · rw [writeMem_misaligned ha] at hwrite
      exact raiseException_not_done _ _ _ _ _ hwrite

/-- The first of several integers is written. Then the exception for the address behind it halts the
machine. -/
theorem halts_of_two (hdest : Destination m addr buffer.length) (hload : LoadOK m.registers)
    (hlen : 2 ≤ buffer.length) :
    ∃ m₁ m', SameSpace m m₁ ∧ WordAt m₁ addr buffer[0] ∧
      system2UserInt addr buffer.length buffer m = .trap .addressError m' ∧
      m'.mainMemory = m₁.mainMemory ∧ m'.registers badVAddrReg = addr + 1 ∧
      ∀ sysCall, returned (exceptionHandler sysCall) (system2UserInt addr buffer.length buffer m) =
        .halted := by
  rcases buffer with _ | ⟨v, _ | ⟨w, buffer⟩⟩
  · exact absurd hlen (by simp)
  · exact absurd hlen (by simp)
  · obtain ⟨m₁, hwrite, hsame, hword⟩ := (hdest.first (by simp)).writeMem_word hdest.aligned v
    have hpending : (m₁.registers loadReg).toNat < 32 := by
      rw [hsame.registers]
      exact hload
    have hbound : (m₁.registers loadReg).toNat < 40 := by omega
    have hcall : system2UserInt addr (v :: w :: buffer).length (v :: w :: buffer) m =
        .trap .addressError (cleared ((m₁.setRegister badVAddrReg (addr + 1)).setRegister
          ⟨(m₁.registers loadReg).toNat, hbound⟩ (m₁.registers loadValueReg))) := by
      rw [system2UserInt_cons, bind_done hwrite, List.length_cons,
        system2UserIntFrom_one hdest.aligned, raiseException_eq hbound]
    have hne : badVAddrReg ≠ ⟨(m₁.registers loadReg).toNat, hbound⟩ := by
      intro heq
      have hval : 39 = (m₁.registers loadReg).toNat := congrArg Fin.val heq
      omega
    refine ⟨m₁, _, hsame, hword, hcall, rfl, ?_, fun sysCall => ?_⟩
    · simp only [cleared, setRegister, Function.update_apply, if_neg hne]
      rfl
    · rw [hcall]
      rfl

/-- `System2UserInt` sends an array of one integer and no other one. -/
theorem arrives_iff (hdest : Destination m addr buffer.length) (hlen : 1 ≤ buffer.length) :
    Arrives m addr buffer ↔ buffer.length = 1 := by
  constructor
  · rintro ⟨m', hdone, -⟩
    by_contra hne
    exact not_done_of_two (by omega) hdone
  · intro hone
    obtain ⟨m', hwrite, -, hword⟩ := (hdest.first hlen).writeMem_word hdest.aligned buffer[0]
    obtain ⟨v, rfl⟩ := List.length_eq_one_iff.mp hone
    refine ⟨m', ?_, fun k hk => ?_⟩
    · rw [system2UserInt_cons]
      exact bind_done hwrite
    · obtain rfl : k = 0 := by simpa using hk
      rw [Nat.mul_zero, BitVec.add_zero]
      exact hword

end Calls

theorem destination_twoPages {len : Nat} (hlen : len ≤ 2) : Destination (twoPages false) 8 len := by
  have hentry : ∀ j < 8, (twoPages false).validEntry (8 + BitVec.ofNat 32 j) =
      some ⟨0, 3, true, false, false, false⟩ := by decide
  have ha : Aligned 8 4 := by
    unfold Aligned
    decide
  refine ⟨ha, fun j hj => ?_⟩
  exact (distinctFrames_twoPages false).writableFrame ⟨_, hentry j (by omega), rfl⟩

/-- One integer for an address in the middle of a page. -/
theorem arrives_iff_one : Arrives (twoPages false) 8 [0x11223344] ↔ [(0x11223344 : Word)].length = 1 :=
  arrives_iff (destination_twoPages (by decide)) (Nat.le_refl 1)

/-- Two integers do not arrive. -/
theorem not_arrives : Destination (twoPages false) 8 2 ∧ ¬ Arrives (twoPages false) 8 [1, 2] := by
  have hlen : 2 ≤ [(1 : Word), 2].length := Nat.le_refl 2
  refine ⟨destination_twoPages (Nat.le_refl 2), ?_⟩
  rintro ⟨m', hdone, -⟩
  exact not_done_of_two hlen hdone

end Nachos.Syscalls.IntCopies
