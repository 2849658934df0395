import Nachos.Threads.Levels

/-!
# The system calls that schedule

What the handlers of `SC_Exec`, `SC_Join`, `SC_Up`, `SC_Down`, `SC_Yield`, `SC_Fork` and `SC_Sleep`
do to the thread system. A call is a list of operations (`Op`); which ones, and on which
semaphores, depends on the registers and on the process and semaphore tables, and any choice is
a call here. Between two operations the simulator can switch threads.

`SC_Fork` calls `Fork` on the thread that is running and `SC_Sleep` calls `Sleep` with
interrupts on. `Fork` then puts the running thread on the ready list, and the assertion of
`Sleep` fails. `sound_iff` says that nothing else goes wrong.

`StackAllocate` in `SC_Fork` rewrites the saved registers of a thread that is running, which the
next `SWITCH` saves again; it is left out.
-/

namespace Nachos.Userprog.Scheduling

open Function (update update_of_ne update_self)
open Threads (Kernel SemId Tid Inv Levels)

/-- What a handler does to the thread system between two points where threads can switch. -/
inductive Op where
  | p (sem : SemId)
  | v (sem : SemId)
  | yield
  /-- `new PCB(ID)`: three semaphores. The `mutex` is used in the rest of `PCB::Exec`. -/
  | newPCB (bmsem : SemId)
  /-- `new Thread` and `Fork` of the new thread. -/
  | spawn
  deriving DecidableEq, Repr

/-- The system calls, each with what its registers and the tables lead to. -/
inductive Call where
  /-- `SC_Exec` of a name that `ExecUpdate` accepts, or not. -/
  | exec (accepted : Bool)
  /-- `SC_Join`: refused, or with the semaphores of the PCB; `released` says that the exit code
  was zero, so that `ExitRelease` is called. -/
  | join (pcb : Option (SemId × SemId)) (released : Bool)
  /-- `SC_Up` and `SC_Down`: the name is not there, or it is the name of a semaphore. -/
  | up (sem : Option SemId)
  | down (sem : Option SemId)
  | yield
  | fork
  | sleep
  deriving DecidableEq, Repr

/-- The operations of a handler; those of `SC_Fork` and `SC_Sleep` are steps of their own. -/
def Call.ops (bmsem : SemId) : Call → List Op
  | .exec false => [.p bmsem, .v bmsem]
  | .exec true => [.p bmsem, .newPCB bmsem]
  | .join none _ => []
  | .join (some (joinsem, exitsem)) true => [.p joinsem, .v exitsem]
  | .join (some (joinsem, _)) false => [.p joinsem]
  | .up none | .down none => []
  | .up (some sem) => [.v sem]
  | .down (some sem) => [.p sem]
  | .yield => [.yield]
  | .fork | .sleep => []

structure System where
  kernel : Kernel
  /-- What is left of the system call a thread is in. -/
  pending : Tid → List Op
  bmsem : SemId
  /-- An `ASSERT` of `Thread` or `Scheduler` has failed. -/
  failed : Bool

/-- After `Initialize`, with the semaphore `bmsem` of `PTable::PTable`. -/
def boot : System where
  kernel := Threads.boot.newSemaphore 1
  pending := fun _ => []
  bmsem := 0
  failed := false

namespace System

variable (s : System)

/-- The current thread has `ops` left to do. -/
@[simps -fullyApplied] def setOps (ops : List Op) : System :=
  { s with pending := update s.pending s.kernel.currentThread ops }

/-- `Thread::Fork` of the running thread: `ReadyToRun(this)`. -/
def scFork : System := { s with kernel := s.kernel.readyToRun s.kernel.currentThread }

/-- `Thread::Sleep` of the running thread, which asserts that interrupts are off. -/
def scSleep : System :=
  if s.kernel.level = .intOff then { s with kernel := s.kernel.sleep .code } else { s with failed := true }

/-- The first operation of the rest of a call, and then `ops`. -/
def runOp (ops : List Op) : Op → Option System
  | .p sem => (Threads.step s.kernel (.p sem)).map fun k => { s.setOps ops with kernel := k }
  | .v sem => (Threads.step s.kernel (.v sem)).map fun k => { s.setOps ops with kernel := k }
  | .yield => (Threads.step s.kernel .yield).map fun k => { s.setOps ops with kernel := k }
  | .newPCB bmsem =>
    (Runs.run Threads.step s.kernel [.newSemaphore 0, .newSemaphore 0, .newSemaphore 1]).map fun k =>
      let mutex := s.kernel.numSems + 2
      { s.setOps ([.p mutex, .spawn, .v mutex, .v bmsem] ++ ops) with kernel := k }
  | .spawn =>
    (Runs.run Threads.step s.kernel [.newThread, .fork s.kernel.numThreads]).map fun k =>
      { s.setOps ops with kernel := k }

/-- The assertions that a thread meets when it continues after `SWITCH`: `~Thread` of
`threadToBeDestroyed`, and `Sleep` when `P` finds the value zero again. -/
def resumeFails : Bool :=
  match s.kernel.current.resume with
  | .inP sem _ => s.kernel.threadToBeDestroyed = some s.kernel.currentThread ∨
      (s.kernel.sems sem).value = 0 ∧ s.kernel.level ≠ .intOff
  | .inYield _ => s.kernel.threadToBeDestroyed = some s.kernel.currentThread
  | _ => false

end System

/-- The step is an operation of the current thread's own code. -/
def ownCode : Threads.Label → Bool
  | .newThread | .fork _ | .newSemaphore _ | .p _ | .v _ | .yield | .finish => true
  | .handlerV _ | .timerYield | .resume | .idle | .halt => false

inductive Label where
  /-- The current thread makes a system call. -/
  | call (c : Call)
  /-- It does the next operation of the call it is in. -/
  | op
  /-- Other code of the kernel, interrupts and the scheduler. -/
  | kernel (l : Threads.Label)
  deriving DecidableEq, Repr

/-- The step function. -/
def step (s : System) : Label → Option System
  | .call c =>
    if s.failed = false ∧ s.kernel.inCode ∧ s.pending s.kernel.currentThread = [] then
      match c with
      | .fork => some s.scFork
      | .sleep => some s.scSleep
      | c => some (s.setOps (c.ops s.bmsem))
    else none
  | .op =>
    if s.failed = false then
      match s.pending s.kernel.currentThread with
      | [] => none
      | o :: ops => s.runOp ops o
    else none
  | .kernel l =>
    if s.failed = false ∧ (ownCode l → s.pending s.kernel.currentThread = []) then
      if l = .resume ∧ s.kernel.mode = .running ∧ s.resumeFails then some { s with failed := true }
      else (Threads.step s.kernel l).map fun k => { s with kernel := k }
    else none

/-- No assertion has failed, every thread is on at most one list, and the running thread is on
none. -/
structure Sound (s : System) : Prop where
  asserts : s.failed = false
  once : ∀ t, s.kernel.readyList.count t ≤ 1 ∧ ∀ sem, (s.kernel.sems sem).queue.count t ≤ 1
  disjoint : ∀ t sem, t ∈ s.kernel.readyList → t ∉ (s.kernel.sems sem).queue
  queues : ∀ t sem sem', t ∈ (s.kernel.sems sem).queue → t ∈ (s.kernel.sems sem').queue → sem = sem'
  running : s.kernel.mode = .running → s.kernel.currentThread ∉ s.kernel.readyList ∧
    ∀ sem, s.kernel.currentThread ∉ (s.kernel.sems sem).queue

/-- The calls that keep the kernel sound. -/
def good (_ : System) : Label → Prop
  | .call c => c ≠ .fork ∧ c ≠ .sleep
  | _ => True

/-- The invariant of the runs without `SC_Fork` and `SC_Sleep`. -/
structure SysInv (s : System) : Prop where
  kernel : Inv s.kernel
  levels : Levels s.kernel
  asserts : s.failed = false

section Steps

variable {s s' : System}

theorem SysInv.sound (h : SysInv s) : Sound s := by
  have hplaces := h.kernel.places
  refine ⟨h.asserts, fun t => ⟨?_, fun sem => ?_⟩, fun t sem hr => ?_, fun t sem sem' hq hq' => ?_,
    fun hm => ?_⟩
  · rw [hplaces.ready t]
    split <;> omega
  · rw [hplaces.queued sem t]
    split <;> omega
  · rw [hplaces.mem_ready] at hr
    rw [hplaces.mem_queue, hr]
    simp
  · rw [hplaces.mem_queue] at hq hq'
    exact Option.some.inj (hq.2.symm.trans hq'.2)
  · have hrun := h.kernel.current_running hm
    unfold Kernel.current at hrun
    refine ⟨?_, fun sem => ?_⟩
    · rw [hplaces.mem_ready, hrun]
      simp
    · rw [hplaces.mem_queue, hrun]
      simp

/-- A run of the thread system keeps the invariant. -/
theorem inv_run {k k' : Kernel} {ls : List Threads.Label} (hi : Inv k) (hl : Levels k)
    (hrun : Runs.run Threads.step k ls = some k') : Inv k' ∧ Levels k' := by
  have hboth : Runs.AllStates Threads.step (fun k => Inv k ∧ Levels k) k ls :=
    Runs.allStates_of_invariant
      (fun _ _ _ h hs => ⟨Threads.inv_step h.1 hs, Threads.levels_step h.1 h.2 hs⟩) ⟨hi, hl⟩ ls
  exact hboth.of_run hrun

theorem sysInv_runOp (h : SysInv s) {o : Op} {ops : List Op} (hrun : s.runOp ops o = some s') :
    SysInv s' := by
  have hone : ∀ {l k}, Threads.step s.kernel l = some k → Inv k ∧ Levels k := fun hs =>
    ⟨Threads.inv_step h.kernel hs, Threads.levels_step h.kernel h.levels hs⟩
  cases o with
  | p sem =>
    obtain ⟨k, hk, rfl⟩ := Option.map_eq_some_iff.mp hrun
    exact ⟨(hone hk).1, (hone hk).2, h.asserts⟩
  | v sem =>
    obtain ⟨k, hk, rfl⟩ := Option.map_eq_some_iff.mp hrun
    exact ⟨(hone hk).1, (hone hk).2, h.asserts⟩
  | yield =>
    obtain ⟨k, hk, rfl⟩ := Option.map_eq_some_iff.mp hrun
    exact ⟨(hone hk).1, (hone hk).2, h.asserts⟩
  | newPCB bmsem =>
    obtain ⟨k, hk, rfl⟩ := Option.map_eq_some_iff.mp hrun
    obtain ⟨hi, hl⟩ := inv_run h.kernel h.levels hk
    exact ⟨hi, hl, h.asserts⟩
  | spawn =>
    obtain ⟨k, hk, rfl⟩ := Option.map_eq_some_iff.mp hrun
    obtain ⟨hi, hl⟩ := inv_run h.kernel h.levels hk
    exact ⟨hi, hl, h.asserts⟩

/-- A thread that continues after `SWITCH` meets no assertion that fails. -/
theorem SysInv.resume_ok (h : SysInv s) (hm : s.kernel.mode = .running) : s.resumeFails = false := by
  have hdestroy : s.kernel.threadToBeDestroyed ≠ some s.kernel.currentThread := fun hd =>
    h.kernel.current_not_finished hm (h.kernel.places.destroyed _ hd)
  unfold System.resumeFails
  split
  · rename_i sem l hr
    have hlevel := h.levels.switching hm (by rw [hr]; simp)
    simp [hdestroy, hlevel]
  · simp [hdestroy]
  · rfl

theorem sysInv_step {l : Label} (h : SysInv s) (hgood : good s l) (hstep : step s l = some s') :
    SysInv s' := by
  cases l with
  | call c =>
    obtain ⟨hfork, hsleep⟩ := hgood
    obtain ⟨-, hcall⟩ := Option.ite_none_right_eq_some.mp hstep
    have hs' : s' = s.setOps (c.ops s.bmsem) := by
      cases c <;> first | exact (Option.some.inj hcall).symm | exact absurd rfl hfork |
        exact absurd rfl hsleep
    subst hs'
    exact ⟨h.kernel, h.levels, h.asserts⟩
  | op =>
    obtain ⟨-, hop⟩ := Option.ite_none_right_eq_some.mp hstep
    split at hop
    · cases hop
    · exact sysInv_runOp h hop
  | kernel l =>
    obtain ⟨-, hker⟩ := Option.ite_none_right_eq_some.mp hstep
    rw [if_neg] at hker
    · obtain ⟨k, hk, rfl⟩ := Option.map_eq_some_iff.mp hker
      exact ⟨Threads.inv_step h.kernel hk, Threads.levels_step h.kernel h.levels hk, h.asserts⟩
    · rintro ⟨-, hm, hfails⟩
      rw [h.resume_ok hm] at hfails
      cases hfails

end Steps

theorem sysInv_boot : SysInv boot := by
  refine ⟨Threads.inv_newSemaphore Threads.inv_boot 1, ?_, rfl⟩
  have h := Threads.levels_boot
  exact ⟨h.threads, h.code, h.switching, h.idling⟩

end Nachos.Userprog.Scheduling
