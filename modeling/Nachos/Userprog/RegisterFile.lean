import Nachos.Machine.Exceptions
import Nachos.Userprog.Isolation

/-!
# The register file

`OneInstruction` stores into register 0 as into any other register, and the pending load of
`DelayedLoad` goes to the register whose number is in `LoadReg`. Nothing but `DelayedLoad` puts
register 0 back to 0; it runs behind each instruction, in `RaiseException` and on each interrupt.

The threads of the kernel share one register file. A thread that has set its member `space` saves it
when it leaves the processor and restores it when it comes back; before that its `userRegisters` are
not initialised.

`registers_kept`: in every state register 0 is 0 and `LoadReg` is the number of a general register,
so that `DelayedLoad` never hits a program counter or a load register.

`simulates`: the steps of `Multiprogram` are runs of this system, so its registers are kept as well
(`registers_kept_multiprogram`).
-/

namespace Nachos

namespace Machine

open Programs Program

/-- Register 0 is 0, and the pending load is one of a general register. -/
structure Kept (registers : Reg → Word) : Prop where
  zero : registers 0 = 0
  load : LoadOK registers

/-- The indirect store of `DelayedLoad` goes to a general register. -/
def HitsGeneral (m : Machine) : Prop :=
  ∃ r : Reg, r.val < 32 ∧ finishLoad m = .done () (m.setRegister r (m.registers loadValueReg))

/-- The calls of `DelayedLoad` from this state hit general registers. -/
structure LoadsGeneral (m : Machine) : Prop where
  /-- Behind the switch of `OneInstruction`. -/
  instruction : ∀ w effect m₁ m₂, readMem (m.registers pcReg) 4 m = .done w m₁ →
    execute (decode w) (m₁.registers nextPCReg + 4) m₁ = .done effect m₂ → HitsGeneral m₂
  /-- An instruction raises its exception with the registers that it started with. -/
  exception : ∀ e m', oneInstruction m = .trap e m' → ∃ a m₁, m₁.registers = m.registers ∧
    (raiseException e a : Routine Unit) m₁ = .trap e m' ∧ HitsGeneral (m₁.setRegister badVAddrReg a)
  /-- `RaiseException` on behalf of the kernel. -/
  raise : ∀ badVAddr, HitsGeneral (m.setRegister badVAddrReg badVAddr)
  interrupt : HitsGeneral m

section Registers

variable {m m' : Machine}

theorem LoadOK.hitsGeneral (h : LoadOK m.registers) : HitsGeneral m := by
  have hlt : (m.registers loadReg).toNat < 40 := Nat.lt_trans h (by decide)
  exact ⟨⟨(m.registers loadReg).toNat, hlt⟩, h, dif_pos hlt⟩

/-- The number in `LoadReg`, as the `int` that `DelayedLoad` indexes with. -/
theorem LoadOK.toInt_bounds {registers : Reg → Word} (h : LoadOK registers) :
    0 ≤ (registers loadReg).toInt ∧ (registers loadReg).toInt ≤ 31 := by
  unfold LoadOK at h
  rw [BitVec.toInt_eq_toNat_cond, if_pos (by omega)]
  omega

theorem registers_setRegister (m : Machine) (r : Reg) (v : Word) :
    (m.setRegister r v).registers r = v := Function.update_self _ _ _

theorem registers_setRegister_of_ne (m : Machine) {r r' : Reg} (h : r' ≠ r) (v : Word) :
    (m.setRegister r v).registers r' = m.registers r' := Function.update_of_ne h _ _

/-- Only a store into `LoadReg` itself concerns the pending load's number. -/
theorem LoadOK.setRegister (h : LoadOK m.registers) {r : Reg} (hr : r ≠ loadReg) (v : Word) :
    LoadOK (m.setRegister r v).registers := by
  unfold LoadOK
  rw [registers_setRegister_of_ne m hr.symm]
  exact h

theorem kept_setRegister (h : Kept m.registers) {r : Reg} (hzero : r ≠ 0) (hload : r ≠ loadReg)
    (v : Word) : Kept (m.setRegister r v).registers where
  zero := (registers_setRegister_of_ne m hzero.symm v).trans h.zero
  load := h.load.setRegister hload v

theorem kept_initRegisters (numPages : Nat) : Kept (initRegisters numPages) := by
  refine ⟨?_, loadOK_initRegisters numPages⟩
  unfold initRegisters
  simp [stackReg, pcReg, nextPCReg]

/-- The stores of `DelayedLoad` behind the indirect one. -/
theorem kept_stores (nextReg : Fin 32) (v : Word) (m : Machine) :
    Kept (((m.setRegister loadReg (BitVec.ofNat 32 nextReg)).setRegister loadValueReg v).setRegister
      0 0).registers := by
  refine ⟨registers_setRegister _ _ _, ?_⟩
  have hset : LoadOK (m.setRegister loadReg (BitVec.ofNat 32 nextReg)).registers := by
    unfold LoadOK
    rw [registers_setRegister, BitVec.toNat_ofNat]
    omega
  exact (hset.setRegister (by decide) v).setRegister (by decide) 0

/-- Whether a routine returns or raises an exception, it leaves the invariant behind. -/
def Restores {α : Type} (out : Outcome Machine ExceptionType Fault α) : Prop :=
  out.Satisfies (fun _ m => Kept m.registers) (fun _ m => Kept m.registers) (fun _ => True)

/-- `DelayedLoad` establishes the invariant, whatever the registers were before. -/
theorem restores_delayedLoad (nextReg : Fin 32) (v : Word) (m : Machine) :
    Restores (delayedLoad nextReg v m) := by
  by_cases hload : (m.registers loadReg).toNat < 40
  · rw [delayedLoad, bind_done (dif_pos hload)]
    exact kept_stores nextReg v _
  · rw [delayedLoad, bind_fault (dif_neg hload)]
    trivial

theorem restores_raiseException {α : Type} (e : ExceptionType) (a : Word) (m : Machine) :
    Restores ((raiseException e a : Routine α) m) := by
  by_cases hload : (m.registers loadReg).toNat < 40
  · rw [raiseException_eq hload]
    exact kept_stores 0 0 _
  · rw [raiseException_fault hload]
    trivial

theorem kept_commit {effect : Effect} (h : commit effect m = .done () m') : Kept m'.registers := by
  obtain ⟨⟨⟩, m₁, hload, h⟩ := bind_eq_done h
  have hkept := restores_delayedLoad effect.nextLoadReg effect.nextLoadValue m
  rw [hload] at hkept
  change Kept m₁.registers at hkept
  cases h
  have hprev := kept_setRegister hkept (r := prevPCReg) (by decide) (by decide)
    (m₁.registers pcReg)
  have hpc := kept_setRegister hprev (r := pcReg) (by decide) (by decide)
    ((m₁.setRegister prevPCReg (m₁.registers pcReg)).registers nextPCReg)
  exact kept_setRegister hpc (by decide) (by decide) effect.pcAfter

/-! ### Instructions -/

/-- An exception on behalf of an instruction that has changed no register before. -/
def Raised (m₀ : Machine) (e : ExceptionType) (m' : Machine) : Prop :=
  ∃ a m₁, m₁.registers = m₀.registers ∧ (raiseException e a : Routine Unit) m₁ = .trap e m'

theorem Raised.kept {m₀ : Machine} {e : ExceptionType} (h : Raised m₀ e m') :
    Kept m'.registers := by
  obtain ⟨a, m₁, -, hraise⟩ := h
  have hkept := restores_raiseException (α := Unit) e a m₁
  rw [hraise] at hkept
  exact hkept

theorem raised_raiseException {α : Type} {m₀ m₁ : Machine} (h : m₁.registers = m₀.registers)
    {Q : α → Machine → Prop} (e : ExceptionType) (a : Word) :
    ((raiseException e a : Routine α) m₁).Satisfies Q (Raised m₀) (fun _ => True) := by
  by_cases hload : (m₁.registers loadReg).toNat < 40
  · rw [raiseException_eq hload]
    exact ⟨a, m₁, h, raiseException_eq hload e a⟩
  · rw [raiseException_fault hload]
    trivial

theorem refusals_raised (m₀ : Machine) : Refusals m₀ (Raised m₀) (fun _ => True) := by
  refine ⟨fun Q e a m₁ hm => raised_raiseException hm.registers e a, ?_, trivial⟩
  · intro va size writing _ m₁ hm
    rcases translate_cases va size writing m₁ with ⟨f, h, -⟩ | ⟨e, h⟩ | ⟨pa, m₂, h, htr⟩
    · rw [h]
      trivial
    · rw [h]
      exact hm
    · rw [h]
      exact hm.trans htr.touched

/-- The accesses of the kernel to user memory, of any size. -/
theorem accesses_readMem (a : Word) (size : Nat) (m : Machine) :
    (readMem a size m).Satisfies (fun _ m' => m'.registers = m.registers) (Raised m)
      (fun _ => True) := by
  rcases translate_cases a size false m with ⟨f, h, -⟩ | ⟨e, h⟩ | ⟨pa, m₁, h, htr⟩
  · rw [readMem, bind_fault h]
    trivial
  · rw [readMem, bind_done h]
    exact raised_raiseException rfl e a
  · rw [readMem, bind_done h]
    simp only
    split
    · exact htr.touched.registers
    · exact htr.touched.registers
    · exact htr.touched.registers
    · trivial

theorem accesses_writeMem (a : Word) (size : Nat) (v : Word) (m : Machine) :
    (writeMem a size v m).Satisfies (fun _ m' => m'.registers = m.registers) (Raised m)
      (fun _ => True) := by
  rcases translate_cases a size true m with ⟨f, h, -⟩ | ⟨e, h⟩ | ⟨pa, m₁, h, htr⟩
  · rw [writeMem, bind_fault h]
    trivial
  · rw [writeMem, bind_done h]
    exact raised_raiseException rfl e a
  · rw [writeMem, bind_done h]
    simp only
    split
    · exact htr.touched.registers
    · trivial

theorem raised_of_oneInstruction {e : ExceptionType} (h : oneInstruction m = .trap e m') :
    Raised m e m' := by
  have hout := (refusals_raised m).oneInstruction fun w _ =>
    ⟨fun _ _ _ => trivial, fun _ _ => trivial, fun _ => trivial⟩
  rw [h] at hout
  exact hout

/-- An instruction that completes ends with `DelayedLoad` and the program counters. -/
theorem commit_of_done (h : oneInstruction m = .done () m') :
    ∃ effect m₁, commit effect m₁ = .done () m' := by
  obtain ⟨pc, m₁, -, h⟩ := bind_eq_done h
  obtain ⟨w, m₂, -, h⟩ := bind_eq_done h
  obtain ⟨nextPC, m₃, -, h⟩ := bind_eq_done h
  obtain ⟨effect, m₄, -, h⟩ := bind_eq_done h
  exact ⟨effect, m₄, h⟩

theorem restores_oneInstruction (m : Machine) : Restores (oneInstruction m) := by
  cases hout : oneInstruction m with
  | done _ m' =>
    obtain ⟨effect, m₁, hcommit⟩ := commit_of_done hout
    exact kept_commit hcommit
  | trap e m' => exact (raised_of_oneInstruction hout).kept
  | fault f => trivial

theorem restores_writeRegister (h : Kept m.registers) {r : Reg} (hzero : r ≠ 0)
    (hload : r ≠ loadReg) (v : Word) : Restores (writeRegister r v m) :=
  kept_setRegister h hzero hload v

/-- The switch leaves the number of the pending load alone. -/
theorem LoadOK.execute (h : LoadOK m.registers) {a : Word} {w : Word} {effect : Effect}
    {instr : Instruction} {pcAfter : Word} {m₁ m₂ : Machine}
    (hread : readMem a 4 m = .done w m₁) (hexecute : execute instr pcAfter m₁ = .done effect m₂) :
    LoadOK m₂.registers := by
  have hread' := confined_readMem a 4 m
  rw [hread] at hread'
  have hexecute' := confined_execute instr pcAfter m₁
  rw [hexecute] at hexecute'
  exact Confined.load hexecute' (Confined.load hread' h)

theorem LoadOK.loadsGeneral (h : LoadOK m.registers) : LoadsGeneral m where
  instruction := by
    intro w effect m₁ m₂ hread hexecute
    exact (h.execute hread hexecute).hitsGeneral
  exception := by
    intro e m' htrap
    obtain ⟨a, m₁, hregisters, hraise⟩ := raised_of_oneInstruction htrap
    have hload : LoadOK m₁.registers := by
      rw [hregisters]
      exact h
    exact ⟨a, m₁, hregisters, hraise, (hload.setRegister (by decide) a).hitsGeneral⟩
  raise := fun badVAddr => (h.setRegister (by decide) badVAddr).hitsGeneral
  interrupt := h.hitsGeneral

end Registers

end Machine

namespace RegisterFile

open Runs Programs Machine
open Multiprogram (ThreadId handlerRegs)

/-- Whether the member `space` of a thread is set, and whether it has been to `InitRegisters`. -/
inductive Phase
  | kernel
  | spaceSet
  | user
deriving DecidableEq

structure Thread where
  phase : Phase
  userRegisters : Reg → Word

structure State where
  machine : Machine
  currentThread : ThreadId
  threads : ThreadId → Thread

inductive Label
  /-- Whatever the kernel does to memory and to the page table. -/
  | memory (mainMemory : Nat → Byte) (pageTable : Option (List TranslationEntry))
      (pageTableSize : Nat)
  /-- `currentThread->space = space`, in `StartProcess` and `MyStartProcess`. -/
  | setSpace
  | initRegisters (numPages : Nat)
  | oneInstruction
  | raiseException (which : ExceptionType) (badVAddr : Word)
  /-- `DelayedLoad(0, 0)` of `CheckIfDue`, whichever thread is running. -/
  | delayedLoad
  | writeRegister (r : Reg) (value : Word)
  | run (nextThread : ThreadId)

namespace State

variable (s : State)

def phase : Phase := (s.threads s.currentThread).phase

def setPhase (phase : Phase) : State :=
  { s with
    threads := Function.update s.threads s.currentThread
      { s.threads s.currentThread with phase := phase } }

/-- A routine of the machine returns, or enters `ExceptionHandler`. -/
def after {α : Type} : Outcome Machine ExceptionType Fault α → Option State
  | .done _ m => some { s with machine := m }
  | .trap _ m => some { s with machine := m }
  | .fault _ => none

/-- `SaveUserState`, when the member `space` is set. -/
def saveUserState : State :=
  if s.phase = .kernel then s
  else
    { s with
      threads := Function.update s.threads s.currentThread
        { s.threads s.currentThread with userRegisters := s.machine.registers } }

/-- `RestoreUserState`, when the member `space` is set. -/
def restoreUserState : State :=
  if s.phase = .kernel then s
  else
    { s with
      machine := { s.machine with registers := (s.threads s.currentThread).userRegisters } }

/-- `Scheduler::Run`. -/
def switchTo (nextThread : ThreadId) : State :=
  restoreUserState { s.saveUserState with currentThread := nextThread }

end State

def step (s : State) : Label → Option State
  | .memory mainMemory pageTable pageTableSize =>
    some { s with
      machine := { mainMemory, registers := s.machine.registers, pageTable, pageTableSize } }
  | .setSpace => if s.phase = .kernel then some (s.setPhase .spaceSet) else none
  | .initRegisters numPages =>
    if s.phase = .spaceSet then
      some { s.setPhase .user with
        machine := { s.machine with registers := Nachos.initRegisters numPages } }
    else none
  | .oneInstruction =>
    if s.phase = .user then s.after (Machine.oneInstruction s.machine) else none
  | .raiseException which badVAddr =>
    s.after ((Machine.raiseException which badVAddr : Routine Unit) s.machine)
  | .delayedLoad => s.after (Machine.delayedLoad noReg 0 s.machine)
  | .writeRegister r value =>
    if handlerRegs.contains r then s.after (Machine.writeRegister r value s.machine) else none
  | .run nextThread => some (s.switchTo nextThread)

/-- `Machine::Machine`, with the threads that there will ever be. -/
def boot (userRegisters : ThreadId → Reg → Word) (pageTableSize : Nat) : State where
  machine :=
    { mainMemory := fun _ => 0
      registers := fun _ => 0
      pageTable := none
      pageTableSize := pageTableSize }
  currentThread := 0
  threads := fun t => { phase := .kernel, userRegisters := userRegisters t }

/-! ### The invariant -/

/-- The registers of the machine and those saved for the other threads. -/
structure Invariant (s : State) : Prop where
  registers : Kept s.machine.registers
  saved : ∀ t, t ≠ s.currentThread → (s.threads t).phase ≠ .kernel →
    Kept (s.threads t).userRegisters

namespace Invariant

variable {s s' : State}

/-- A step of the current thread that changes its own record at most. -/
theorem of_current (h : Invariant s) (hcurrent : s'.currentThread = s.currentThread)
    (hothers : ∀ t, t ≠ s.currentThread → s'.threads t = s.threads t)
    (hregisters : Kept s'.machine.registers) : Invariant s' := by
  refine ⟨hregisters, fun t ht hphase => ?_⟩
  rw [hcurrent] at ht
  rw [hothers t ht] at hphase ⊢
  exact h.saved t ht hphase

theorem setPhase (h : Invariant s) (phase : Phase) : Invariant (s.setPhase phase) :=
  h.of_current rfl (fun _ ht => Function.update_of_ne ht _ _) h.registers

/-- A routine of the machine. -/
theorem after (h : Invariant s) {α : Type} {out : Outcome Machine ExceptionType Fault α}
    (hout : Restores out) (hs : s.after out = some s') : Invariant s' := by
  cases out with
  | done a m =>
    cases hs
    exact h.of_current rfl (fun _ _ => rfl) hout
  | trap e m =>
    cases hs
    exact h.of_current rfl (fun _ _ => rfl) hout
  | fault f => cases hs

/-- Behind `SaveUserState` the record of the current thread is kept as well. -/
theorem saveUserState (h : Invariant s) (t : ThreadId)
    (ht : (s.saveUserState.threads t).phase ≠ .kernel) :
    Kept (s.saveUserState.threads t).userRegisters := by
  unfold State.saveUserState at ht ⊢
  by_cases hkernel : s.phase = .kernel
  · rw [if_pos hkernel] at ht ⊢
    apply h.saved t _ ht
    rintro rfl
    exact ht hkernel
  · rw [if_neg hkernel] at ht ⊢
    by_cases hcurrent : t = s.currentThread
    · subst hcurrent
      simp only [Function.update_self]
      exact h.registers
    · simp only [Function.update_of_ne hcurrent] at ht ⊢
      exact h.saved t hcurrent ht

theorem switchTo (h : Invariant s) (nextThread : ThreadId) : Invariant (s.switchTo nextThread) := by
  have hsaved := h.saveUserState
  have hmachine : s.saveUserState.machine = s.machine := by
    unfold State.saveUserState
    split <;> rfl
  unfold State.switchTo State.restoreUserState
  split
  · refine ⟨?_, fun t _ ht => hsaved t ht⟩
    rw [hmachine]
    exact h.registers
  · rename_i hnext
    exact ⟨hsaved nextThread hnext, fun t _ ht => hsaved t ht⟩

/-- One step, whichever it is. -/
theorem step (h : Invariant s) {l : Label} (hs : RegisterFile.step s l = some s') :
    Invariant s' := by
  cases l with
  | memory mainMemory pageTable pageTableSize =>
    cases hs
    exact h.of_current rfl (fun _ _ => rfl) h.registers
  | setSpace =>
    obtain ⟨-, hs⟩ := Option.ite_none_right_eq_some.mp hs
    cases hs
    exact h.setPhase .spaceSet
  | initRegisters numPages =>
    obtain ⟨-, hs⟩ := Option.ite_none_right_eq_some.mp hs
    cases hs
    have huser := h.setPhase .user
    exact huser.of_current rfl (fun _ _ => rfl) (kept_initRegisters numPages)
  | oneInstruction =>
    obtain ⟨-, hs⟩ := Option.ite_none_right_eq_some.mp hs
    exact h.after (restores_oneInstruction s.machine) hs
  | raiseException which badVAddr =>
    exact h.after (restores_raiseException which badVAddr s.machine) hs
  | delayedLoad => exact h.after (restores_delayedLoad noReg 0 s.machine) hs
  | writeRegister r value =>
    obtain ⟨hr, hs⟩ := Option.ite_none_right_eq_some.mp hs
    -- the handlers write result and program counters only
    have hne : ∀ r', handlerRegs.contains r' → r' ≠ 0 ∧ r' ≠ loadReg := by decide
    obtain ⟨hzero, hload⟩ := hne r hr
    exact h.after (restores_writeRegister h.registers hzero hload value) hs
  | run nextThread =>
    cases hs
    exact h.switchTo nextThread

end Invariant

theorem invariant_boot (userRegisters : ThreadId → Reg → Word) (pageTableSize : Nat) :
    Invariant (boot userRegisters pageTableSize) := by
  refine ⟨⟨rfl, ?_⟩, fun t _ ht => absurd rfl ht⟩
  show (0 : Word).toNat < 32
  decide

theorem allStates_invariant (userRegisters : ThreadId → Reg → Word) (pageTableSize : Nat)
    (ls : List Label) : AllStates step Invariant (boot userRegisters pageTableSize) ls :=
  allStates_of_invariant (fun _ _ _ h hs => h.step hs)
    (invariant_boot userRegisters pageTableSize) ls

/-- Register 0 is 0, `LoadReg` holds the number of a general register, and so the indirect store of
`DelayedLoad` goes to a general register. -/
theorem registers_kept (userRegisters : ThreadId → Reg → Word) (pageTableSize : Nat)
    (ls : List Label) :
    AllStates step
      (fun s => s.machine.registers 0 = 0 ∧
        (0 ≤ (s.machine.registers loadReg).toInt ∧ (s.machine.registers loadReg).toInt ≤ 31) ∧
        LoadsGeneral s.machine)
      (boot userRegisters pageTableSize) ls := by
  refine (allStates_invariant userRegisters pageTableSize ls).mono fun s h => ?_
  refine ⟨h.registers.zero, ?_, ?_⟩
  · exact h.registers.load.toInt_bounds
  · exact h.registers.load.loadsGeneral

/-! ### Several processes -/

/-- A thread of `Multiprogram`. Inside a constructor of `AddrSpace` the member `space` is not set
yet. -/
def ofThread (thread : Multiprogram.Thread) : Thread where
  phase :=
    match thread.phase with
    | .user => .user
    | _ => .kernel
  userRegisters := thread.userRegisters

/-- The machine and its users among the processes. -/
def ofMultiprogram (s : Multiprogram.State) : State where
  machine := s.machine
  currentThread := s.currentThread
  threads := fun t => ofThread (s.threads t)

theorem ofThread_update {threads : ThreadId → Multiprogram.Thread} {t : ThreadId}
    {thread : Multiprogram.Thread} (h : ofThread thread = ofThread (threads t)) :
    (fun u => ofThread (Function.update threads t thread u)) = fun u => ofThread (threads u) := by
  ext1 u
  by_cases hu : u = t
  · rw [hu, Function.update_self, h]
  · rw [Function.update_of_ne hu]

/-- The registers and the threads of `x` are those of the processes. -/
structure Shows (x : State) (s : Multiprogram.State) : Prop where
  registers : x.machine.registers = s.registers
  current : x.currentThread = s.currentThread
  threads : x.threads = (ofMultiprogram s).threads

section Steps

variable {s s' : Multiprogram.State} {x : State}

theorem shows_ofMultiprogram : Shows (ofMultiprogram s) s := ⟨rfl, rfl, rfl⟩

theorem Shows.thread (h : Shows x s) :
    x.threads x.currentThread = ofThread (s.threads s.currentThread) := by
  rw [h.threads, h.current]
  rfl

theorem Shows.phase_of_user (h : Shows x s) (huser : s.phase s.currentThread = .user) :
    x.phase = .user := by
  have hphase : (s.threads s.currentThread).phase = .user := huser
  unfold State.phase
  rw [h.thread, ofThread, hphase]

theorem Shows.phase_of_ne (h : Shows x s) (huser : s.phase s.currentThread ≠ .user) :
    x.phase = .kernel := by
  unfold State.phase
  rw [h.thread, ofThread]
  cases hphase : (s.threads s.currentThread).phase with
  | kernel => rfl
  | loading pending executable => rfl
  | user => exact absurd hphase huser

/-- Memory and page table are one step away. -/
theorem Shows.reaches (h : Shows x s') (ls : List Label)
    (hrun : run step (ofMultiprogram s) ls = some x) :
    ∃ ls, run step (ofMultiprogram s) ls = some (ofMultiprogram s') := by
  obtain ⟨machine, currentThread, threads⟩ := x
  obtain ⟨hregisters, hcurrent, hthreads⟩ := h
  simp only at hregisters hcurrent hthreads
  subst hcurrent hthreads
  refine ⟨ls ++ [.memory s'.machine.mainMemory s'.machine.pageTable s'.machine.pageTableSize], ?_⟩
  rw [run_append hrun]
  unfold run step
  rw [hregisters]
  rfl

/-! ### What a step leaves alone -/

theorem ofThread_loading {thread : Multiprogram.Thread} (h : thread.phase ≠ .user)
    (pending : List Copy) (executable : List Byte) (space : AddrSpace) :
    ofThread { thread with phase := .loading pending executable, space := space } =
      ofThread thread := by
  obtain ⟨phase, space', userRegisters⟩ := thread
  cases phase with
  | kernel => rfl
  | loading pending' executable' => rfl
  | user => exact absurd rfl h

section Loading

variable (huser : s.phase s.currentThread ≠ .user)
include huser

theorem shows_startProcess (content : List Byte) :
    Shows (ofMultiprogram s) (s.startProcess content) := by
  unfold Multiprogram.State.startProcess
  simp only
  split
  · exact ⟨rfl, rfl, rfl⟩
  split
  · exact ⟨rfl, rfl, rfl⟩
  split
  · exact ⟨rfl, rfl, (ofThread_update (ofThread_loading huser _ _ _)).symm⟩
  · exact ⟨rfl, rfl, rfl⟩

theorem shows_myStartProcess (content : List Byte) (isNull : Bool) :
    Shows (ofMultiprogram s) (s.myStartProcess content isNull) := by
  unfold Multiprogram.State.myStartProcess
  simp only
  split
  · exact ⟨rfl, rfl, rfl⟩
  split
  · exact ⟨rfl, rfl, (ofThread_update (ofThread_loading huser _ _ _)).symm⟩
  split
  · exact ⟨rfl, rfl, (ofThread_update (ofThread_loading huser _ _ _)).symm⟩
  · exact ⟨rfl, rfl, (ofThread_update (ofThread_loading huser _ _ _)).symm⟩

theorem shows_copy (c : Copy) (pending : List Copy) (executable : List Byte) :
    Shows (ofMultiprogram s) (s.copy c pending executable) := by
  unfold Multiprogram.State.copy
  simp only
  split
  · exact ⟨rfl, rfl, rfl⟩
  split
  · exact ⟨rfl, rfl, rfl⟩
  split
  · exact ⟨rfl, rfl, rfl⟩
  · exact ⟨rfl, rfl, (ofThread_update (ofThread_loading huser _ _ _)).symm⟩

end Loading

/-! ### Routines of the machine -/

/-- What a routine does to the machine is seen here but for memory and page table. -/
theorem shows_setMachine (m : Machine) :
    Shows { ofMultiprogram s with machine := m } (s.setMachine m) := by
  refine ⟨rfl, rfl, ?_⟩
  unfold ofMultiprogram Multiprogram.State.setMachine
  cases s.pageTable with
  | none => rfl
  | some t =>
    have hsame :
        ofThread { s.threads t with space := { s.space t with pageTable := m.pageTable } } =
          ofThread (s.threads t) := rfl
    exact (ofThread_update hsame).symm

theorem shows_stop (f : Fault) : Shows (ofMultiprogram s) (s.stop f) := ⟨rfl, rfl, rfl⟩

/-- The machine comes to `m` while the current thread is running. -/
def Reaches (s : Multiprogram.State) (m : Machine) : Prop :=
  ∃ ls, run step (ofMultiprogram s) ls = some { ofMultiprogram s with machine := m }

/-- A routine that the system here can follow. -/
theorem reaches_runRoutine {α : Type} {p : Routine α}
    (hp : (p s.machine).Satisfies (fun _ => Reaches s) (fun _ => Reaches s) (fun _ => True)) :
    ∃ ls, run step (ofMultiprogram s) ls = some (ofMultiprogram (s.runRoutine p)) := by
  unfold Multiprogram.State.runRoutine
  cases hout : p s.machine with
  | done a m =>
    rw [hout] at hp
    obtain ⟨ls, hrun⟩ := hp
    exact (shows_setMachine m).reaches _ hrun
  | trap e m =>
    rw [hout] at hp
    obtain ⟨ls, hrun⟩ := hp
    exact (shows_setMachine m).reaches _ hrun
  | fault f => exact (shows_stop f).reaches [] rfl

/-- A routine that is one of the steps here. -/
theorem satisfies_after {α : Type} {out : Outcome Machine ExceptionType Fault α} {l : Label}
    (hl : step (ofMultiprogram s) l = (ofMultiprogram s).after out) :
    out.Satisfies (fun _ => Reaches s) (fun _ => Reaches s) (fun _ => True) := by
  cases out with
  | done a m =>
    refine ⟨[l], ?_⟩
    unfold run
    rw [hl]
    rfl
  | trap e m =>
    refine ⟨[l], ?_⟩
    unfold run
    rw [hl]
    rfl
  | fault f => trivial

theorem step_memory {m : Machine} (h : m.registers = x.machine.registers) :
    step x (.memory m.mainMemory m.pageTable m.pageTableSize) = some { x with machine := m } := by
  unfold step
  rw [← h]

/-- An exception that a memory access of the kernel raises. -/
theorem reaches_of_raised {e : ExceptionType} {m : Machine} (h : Raised s.machine e m) :
    Reaches s m := by
  obtain ⟨a, m₁, hregisters, hraise⟩ := h
  refine ⟨[.memory m₁.mainMemory m₁.pageTable m₁.pageTableSize, .raiseException e a], ?_⟩
  have hstep : step { ofMultiprogram s with machine := m₁ } (.raiseException e a) =
      some { ofMultiprogram s with machine := m } := by
    show State.after _ ((raiseException e a : Routine Unit) m₁) = _
    rw [hraise]
    rfl
  unfold run
  rw [step_memory hregisters, Option.bind_some]
  unfold run
  rw [hstep]
  rfl

theorem reaches_of_registers {m : Machine} (h : m.registers = s.machine.registers) :
    Reaches s m := by
  refine ⟨[.memory m.mainMemory m.pageTable m.pageTableSize], ?_⟩
  unfold run
  rw [step_memory h]
  rfl

theorem shows_registers (m : Machine) :
    Shows { ofMultiprogram s with machine := m } { s with registers := m.registers } :=
  ⟨rfl, rfl, rfl⟩

theorem reaches_interrupt :
    ∃ ls, run step (ofMultiprogram s) ls = some (ofMultiprogram s.finishDelayedLoad) := by
  have hstep : step (ofMultiprogram s) .delayedLoad =
      (ofMultiprogram s).after (delayedLoad noReg 0 s.machine) := rfl
  have hp := satisfies_after hstep
  unfold Multiprogram.State.finishDelayedLoad
  cases hout : delayedLoad noReg 0 s.machine with
  | done a m =>
    rw [hout] at hp
    obtain ⟨ls, hrun⟩ := hp
    exact (shows_registers m).reaches _ hrun
  | trap e m =>
    rw [hout] at hp
    obtain ⟨ls, hrun⟩ := hp
    exact (shows_registers m).reaches _ hrun
  | fault f => exact (shows_stop f).reaches [] rfl

/-! ### Context switches -/

theorem Shows.saveUserState (h : Shows x s) : Shows x.saveUserState s.saveUserState := by
  by_cases huser : s.phase s.currentThread = .user
  · have hphase := h.phase_of_user huser
    unfold State.saveUserState Multiprogram.State.saveUserState
    rw [if_neg (by rw [hphase]; decide), huser]
    refine ⟨h.registers, h.current, ?_⟩
    simp only [Multiprogram.State.setThread, ofMultiprogram]
    ext1 t
    rw [h.current]
    by_cases ht : t = s.currentThread
    · rw [ht, Function.update_self, Function.update_self, ← h.current, h.thread, h.registers,
        h.current]
      rfl
    · rw [Function.update_of_ne ht, Function.update_of_ne ht, h.threads]
      rfl
  · have hphase := h.phase_of_ne huser
    unfold State.saveUserState Multiprogram.State.saveUserState
    rw [if_pos hphase]
    split
    · rename_i hphase'
      exact absurd hphase' huser
    · exact h

theorem Shows.restoreUserState (h : Shows x s) : Shows x.restoreUserState s.restoreUserState := by
  by_cases huser : s.phase s.currentThread = .user
  · have hphase := h.phase_of_user huser
    unfold State.restoreUserState Multiprogram.State.restoreUserState
    rw [if_neg (by rw [hphase]; decide), huser]
    refine ⟨?_, h.current, h.threads⟩
    rw [h.thread]
    rfl
  · have hphase := h.phase_of_ne huser
    unfold State.restoreUserState Multiprogram.State.restoreUserState
    rw [if_pos hphase]
    split
    · rename_i hphase'
      exact absurd hphase' huser
    · exact h

theorem Shows.switchTo (h : Shows x s) (nextThread : ThreadId) :
    Shows (x.switchTo nextThread) (s.switchTo nextThread) := by
  obtain ⟨hregisters, -, hthreads⟩ := h.saveUserState
  have hnext : Shows { x.saveUserState with currentThread := nextThread }
      { s.saveUserState with currentThread := nextThread } := ⟨hregisters, rfl, hthreads⟩
  exact hnext.restoreUserState

/-- An access of the kernel to user memory. -/
theorem satisfies_of_accesses {α : Type} {out : Outcome Machine ExceptionType Fault α}
    (hout : out.Satisfies (fun _ m => m.registers = s.machine.registers) (Raised s.machine)
      (fun _ => True)) :
    out.Satisfies (fun _ => Reaches s) (fun _ => Reaches s) (fun _ => True) := by
  cases out with
  | done a m => exact reaches_of_registers hout
  | trap e m => exact reaches_of_raised hout
  | fault f => trivial

theorem reaches_startRunning (huser : s.phase s.currentThread ≠ .user) :
    ∃ ls, run step (ofMultiprogram s) ls = some (ofMultiprogram s.startRunning) := by
  have hphase : (ofMultiprogram s).phase = .kernel := shows_ofMultiprogram.phase_of_ne huser
  let spaceSet := (ofMultiprogram s).setPhase .spaceSet
  have hspaceSet : spaceSet.phase = .spaceSet := by
    simp only [spaceSet, State.phase, State.setPhase, Function.update_self]
  let running : State :=
    { spaceSet.setPhase .user with
      machine :=
        { spaceSet.machine with
          registers := Nachos.initRegisters (s.space s.currentThread).numPages } }
  have hrun : run step (ofMultiprogram s)
      [.setSpace, .initRegisters (s.space s.currentThread).numPages] = some running := by
    unfold run
    rw [step, if_pos hphase, Option.bind_some]
    unfold run
    rw [step, if_pos hspaceSet]
    rfl
  have hshows : Shows running s.startRunning := by
    refine ⟨rfl, rfl, ?_⟩
    simp only [running, spaceSet, State.setPhase, ofMultiprogram, Multiprogram.State.startRunning,
      Function.update_idem, Function.update_self]
    ext1 t
    by_cases ht : t = s.currentThread
    · rw [ht, Function.update_self, Function.update_self]
      rfl
    · rw [Function.update_of_ne ht, Function.update_of_ne ht]
  exact hshows.reaches _ hrun

end Steps

/-- A step of the processes, as the register file sees it. -/
theorem simulates : Simulates Multiprogram.step step ofMultiprogram := by
  intro s l s' hs
  unfold Multiprogram.step at hs
  split at hs
  · cases hs
  cases l with
  | startProcess file =>
    simp only [Multiprogram.perform] at hs
    split at hs
    · rename_i hphase
      split at hs
      · cases hs
        exact (shows_startProcess (by rw [hphase]; simp) file.content).reaches [] rfl
      · cases hs
    · cases hs
  | myStartProcess file isNull =>
    simp only [Multiprogram.perform] at hs
    split at hs
    · rename_i hphase
      cases hs
      exact (shows_myStartProcess (by rw [hphase]; simp) file.content isNull).reaches [] rfl
    · cases hs
  | copy =>
    simp only [Multiprogram.perform] at hs
    split at hs
    · rename_i hphase
      cases hs
      exact (shows_copy (by rw [hphase]; simp) _ _ _).reaches [] rfl
    · cases hs
  | startRunning =>
    simp only [Multiprogram.perform] at hs
    split at hs
    · rename_i hphase
      cases hs
      exact reaches_startRunning (by rw [hphase]; simp)
    · cases hs
  | oneInstruction =>
    simp only [Multiprogram.perform] at hs
    split at hs
    · rename_i hphase
      cases hs
      have huser := shows_ofMultiprogram.phase_of_user hphase
      exact reaches_runRoutine (satisfies_after (l := .oneInstruction) (if_pos huser))
    · cases hs
  | interrupt =>
    cases hs
    exact reaches_interrupt
  | readMem addr size =>
    simp only [Multiprogram.perform] at hs
    split at hs
    · cases hs
      exact reaches_runRoutine (satisfies_of_accesses (accesses_readMem addr size s.machine))
    · cases hs
  | writeMem addr size value =>
    simp only [Multiprogram.perform] at hs
    split at hs
    · cases hs
      exact reaches_runRoutine (satisfies_of_accesses (accesses_writeMem addr size value s.machine))
    · cases hs
  | writeRegister r value =>
    simp only [Multiprogram.perform] at hs
    split at hs
    · split at hs
      · rename_i hr
        cases hs
        have hcontains : handlerRegs.contains r := List.contains_iff_mem.mpr hr
        exact reaches_runRoutine (satisfies_after (l := .writeRegister r value) (if_pos hcontains))
      · cases hs
    · cases hs
  | run nextThread =>
    cases hs
    exact (shows_ofMultiprogram.switchTo nextThread).reaches [.run nextThread] rfl

/-- The registers of the processes. -/
theorem registers_kept_multiprogram (userRegisters : ThreadId → Reg → Word) (pageTableSize : Nat)
    (ls : List Multiprogram.Label) :
    AllStates Multiprogram.step (fun s => Kept s.registers)
      (Multiprogram.boot userRegisters pageTableSize) ls := by
  have hview : ofMultiprogram (Multiprogram.boot userRegisters pageTableSize) =
      boot userRegisters pageTableSize := rfl
  refine simulates.allStates (P := fun x => Kept x.machine.registers) (fun ls' => ?_) ls
  rw [hview]
  exact (allStates_invariant userRegisters pageTableSize ls').mono fun x h => h.registers

end RegisterFile

end Nachos
