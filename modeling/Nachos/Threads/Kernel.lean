import Mathlib.Algebra.Order.Ring.Int
import Mathlib.Logic.Function.Basic
import Mathlib.Tactic.Simps.Basic
import Nachos.Lib.Runs

/-!
# Threads, the scheduler and semaphores

The thread system of `threads/thread.cc`, `threads/scheduler.cc` and `threads/synch.cc`
as one transition system. A `Kernel` is the state between two points at which the simulator
can switch threads; a `Label` is what happens next: an operation of the running thread's
own code, an interrupt handler, or the continuation of a thread that was just dispatched.

`Semaphore::P` and `Thread::Yield` give up the CPU in the middle of their body, so a
`Thread` records where it continues (`Resume`). `Scheduler::Run` ends in `SWITCH`, after
which the dispatched thread either continues inside `P` or `Yield`, deleting
`threadToBeDestroyed` first, or starts at `ThreadRoot`, which deletes nothing.

`Interrupt::OneTick` runs when interrupts are turned on again and after each user
instruction. Its handlers and its `Yield` are labels of their own (`handlerV`,
`timerYield`), enabled whenever interrupts are on. Handlers only call `Semaphore::V`:
every handler of the simulator's devices does just that or sets `yieldOnReturn`.
-/

namespace Nachos.Threads

open Function (update)

/-- Thread objects, numbered in the order of their creation. -/
abbrev Tid := Nat

/-- Semaphore objects, numbered in the order of their creation. -/
abbrev SemId := Nat

/-- `ThreadStatus` of `thread.h`. -/
inductive ThreadStatus where
  | justCreated | running | ready | blocked
  deriving DecidableEq, Repr

/-- `IntStatus` of `interrupt.h`. -/
inductive IntStatus where
  | intOff | intOn
  deriving DecidableEq, Repr

/-- The point at which a thread continues when it has the CPU. -/
inductive Resume where
  /-- In its own code, outside the scheduler. -/
  | code
  /-- At `ThreadRoot`: forked, or not even that, and never dispatched. -/
  | root
  /-- In the loop of `Semaphore::P`, after `Sleep`; `oldLevel` is the local of `P`. -/
  | inP (s : SemId) (oldLevel : IntStatus)
  /-- In `Thread::Yield`, after `Run`. -/
  | inYield (oldLevel : IntStatus)
  /-- In `Thread::Finish`, after `Sleep`, which is not reached. -/
  | inFinish
  deriving DecidableEq, Repr

/-- The semaphore in whose `P` a thread is. -/
def Resume.waitsOn : Resume → Option SemId
  | .inP s _ => some s
  | _ => none

structure Thread where
  status : ThreadStatus := .justCreated
  resume : Resume := .root
  deleted : Bool := false
  deriving DecidableEq, Repr

/-- Signed 32-bit wrap-around. -/
def wrap32 (n : Int) : Int := (n + 2 ^ 31) % 2 ^ 32 - 2 ^ 31

theorem wrap32_of_range {n : Int} (hlo : -2 ^ 31 ≤ n) (hhi : n < 2 ^ 31) : wrap32 n = n := by
  unfold wrap32
  omega

/-- A semaphore, with the history that the conservation law speaks of: the initial value
and the numbers of completed `P` and `V`. -/
structure Semaphore where
  value : Int := 0
  queue : List Tid := []
  init : Int := 0
  completedP : Nat := 0
  completedV : Nat := 0
  deriving DecidableEq, Repr

/-- `queue->Append(currentThread)` in `P`. -/
@[simps] def Semaphore.enqueue (sem : Semaphore) (t : Tid) : Semaphore :=
  { sem with queue := sem.queue ++ [t] }

/-- `value--` in `P`. -/
@[simps] def Semaphore.take (sem : Semaphore) : Semaphore :=
  { sem with value := wrap32 (sem.value - 1), completedP := sem.completedP + 1 }

/-- `V`: the first waiting thread, if any, leaves the queue, and `value++`. -/
@[simps] def Semaphore.give (sem : Semaphore) : Semaphore :=
  { sem with
    queue := sem.queue.tail
    value := wrap32 (sem.value + 1)
    completedV := sem.completedV + 1 }

/-- `new Semaphore`. -/
@[simps] def Semaphore.new (initialValue : Int) : Semaphore :=
  { value := initialValue, init := initialValue }

/-- Whether some thread's own code runs, the current thread idles in `Sleep`, or the
simulator has stopped in `Halt` or in an `ASSERT`. -/
inductive Mode where
  | running | idling | stopped
  deriving DecidableEq, Repr

structure Kernel where
  threads : Tid → Thread
  numThreads : Nat
  currentThread : Tid
  threadToBeDestroyed : Option Tid
  readyList : List Tid
  sems : SemId → Semaphore
  numSems : Nat
  level : IntStatus
  mode : Mode
  /-- History: the threads put on the ready list, in order. -/
  put : List Tid
  /-- History: the threads dispatched by `Run`, in order. -/
  dispatched : List Tid

/-- After `Initialize`: the thread "main" runs with interrupts on. -/
def boot : Kernel where
  threads := update (fun _ => {}) 0 { status := .running, resume := .code }
  numThreads := 1
  currentThread := 0
  threadToBeDestroyed := none
  readyList := []
  sems := fun _ => {}
  numSems := 0
  level := .intOn
  mode := .running
  put := []
  dispatched := []

namespace Kernel

/-- The current thread's control block. -/
def current (k : Kernel) : Thread := k.threads k.currentThread

/-- The thread's own code runs: it is neither idle nor in the middle of `P` or `Yield`. -/
def inCode (k : Kernel) : Bool := k.mode = .running ∧ k.current.resume = .code

def setThread (k : Kernel) (t : Tid) (th : Thread) : Kernel :=
  { k with threads := update k.threads t th }

def setSem (k : Kernel) (s : SemId) (sem : Semaphore) : Kernel :=
  { k with sems := update k.sems s sem }

/-- `Scheduler::ReadyToRun`. -/
def readyToRun (k : Kernel) (t : Tid) : Kernel :=
  { k.setThread t { k.threads t with status := .ready } with
    readyList := k.readyList ++ [t]
    put := k.put ++ [t] }

/-- `Scheduler::Run` up to `SWITCH`: `next` is the current thread. -/
def run (k : Kernel) (next : Tid) : Kernel :=
  { k.setThread next { k.threads next with status := .running } with
    currentThread := next
    mode := .running
    dispatched := k.dispatched ++ [next] }

/-- One test of the loop in `Thread::Sleep`: `FindNextToRun`, then `Run` of the thread
found or `Idle`. -/
def dispatch (k : Kernel) : Kernel :=
  match k.readyList with
  | [] => { k with mode := .idling }
  | next :: rest => { k with readyList := rest }.run next

/-- `Thread::Sleep`; the thread will continue at `r`. -/
def sleep (k : Kernel) (r : Resume) : Kernel :=
  (k.setThread k.currentThread { k.current with status := .blocked, resume := r }).dispatch

/-- The code of `Scheduler::Run` after `SWITCH`: delete `threadToBeDestroyed`, whose
destructor asserts that it is not the current thread. -/
def reap (k : Kernel) : Kernel :=
  match k.threadToBeDestroyed with
  | none => k
  | some t =>
    if t = k.currentThread then { k with mode := .stopped }
    else { k.setThread t { k.threads t with deleted := true } with threadToBeDestroyed := none }

/-- The thread continues in its own code with the given interrupt level. -/
def continueAt (k : Kernel) (l : IntStatus) : Kernel :=
  { k.setThread k.currentThread { k.current with resume := .code } with level := l }

/-- One test of `while (value == 0)` in `Semaphore::P`, with interrupts off. -/
def testP (k : Kernel) (s : SemId) (oldLevel : IntStatus) : Kernel :=
  if (k.sems s).value = 0 then
    (k.setSem s ((k.sems s).enqueue k.currentThread)).sleep (.inP s oldLevel)
  else
    (k.setSem s (k.sems s).take).continueAt oldLevel

/-- `Semaphore::P`. -/
def P (k : Kernel) (s : SemId) : Kernel := { k with level := .intOff }.testP s k.level

/-- `Semaphore::V`, which leaves the interrupt level as it found it. -/
def V (k : Kernel) (s : SemId) : Kernel :=
  let k' := k.setSem s (k.sems s).give
  match (k.sems s).queue with
  | [] => k'
  | t :: _ => k'.readyToRun t

theorem V_of_nil {k : Kernel} {s : SemId} (hq : (k.sems s).queue = []) :
    k.V s = k.setSem s (k.sems s).give := by
  simp only [V, hq]

theorem V_of_cons {k : Kernel} {s : SemId} {t : Tid} {rest : List Tid}
    (hq : (k.sems s).queue = t :: rest) : k.V s = (k.setSem s (k.sems s).give).readyToRun t := by
  simp only [V, hq]

/-- `Thread::Fork` after `new Thread`: `StackAllocate` makes the thread start at
`ThreadRoot`. -/
def fork (k : Kernel) (t : Tid) : Kernel :=
  (k.setThread t { k.threads t with resume := .root }).readyToRun t

/-- `Thread::Yield`. -/
def yield (k : Kernel) : Kernel :=
  match k.readyList with
  | [] => k
  | next :: rest =>
    let k' := { k with level := .intOff, readyList := rest }
    ((k'.setThread k.currentThread { k.current with resume := .inYield k.level }).readyToRun
      k.currentThread).run next

/-- `Thread::Finish`. -/
def finish (k : Kernel) : Kernel :=
  { k with level := .intOff, threadToBeDestroyed := some k.currentThread }.sleep .inFinish

/-- `new Thread`. -/
def newThread (k : Kernel) : Kernel :=
  { k.setThread k.numThreads {} with numThreads := k.numThreads + 1 }

/-- `new Semaphore`. -/
def newSemaphore (k : Kernel) (initialValue : Int) : Kernel :=
  { k.setSem k.numSems (.new initialValue) with numSems := k.numSems + 1 }

/-- What a dispatched thread does first. -/
def resume (k : Kernel) : Option Kernel :=
  match k.current.resume with
  | .root => some (k.continueAt .intOn)
  | .inP s oldLevel =>
    match k.reap.mode with
    | .running => some (k.reap.testP s oldLevel)
    | _ => some k.reap
  | .inYield oldLevel =>
    match k.reap.mode with
    | .running => some (k.reap.continueAt oldLevel)
    | _ => some k.reap
  | .code | .inFinish => none

end Kernel

/-- One step of the thread system. -/
inductive Label where
  /-- `new Thread` in the current thread's code. -/
  | newThread
  /-- `Fork` of a thread that was created and not forked yet. -/
  | fork (t : Tid)
  | newSemaphore (initialValue : Int)
  | p (s : SemId)
  | v (s : SemId)
  | yield
  | finish
  /-- An interrupt handler calls `V`, from `OneTick` or while the CPU idles. -/
  | handlerV (s : SemId)
  /-- `OneTick` yields because the timer asked for it. -/
  | timerYield
  /-- The thread dispatched last continues after `SWITCH`. -/
  | resume
  /-- The loop of `Sleep` looks at the ready list again. -/
  | idle
  /-- `Idle` finds no pending interrupt and halts. -/
  | halt
  deriving DecidableEq, Repr

open Kernel in
/-- The step function. -/
def step (k : Kernel) : Label → Option Kernel
  | .newThread => if k.inCode then some k.newThread else none
  | .fork t =>
    if k.inCode ∧ t < k.numThreads ∧ (k.threads t).status = .justCreated then some (k.fork t)
    else none
  | .newSemaphore v => if k.inCode then some (k.newSemaphore v) else none
  | .p s => if k.inCode ∧ s < k.numSems then some (k.P s) else none
  | .v s => if k.inCode ∧ s < k.numSems then some (k.V s) else none
  | .yield => if k.inCode then some k.yield else none
  | .finish => if k.inCode then some k.finish else none
  | .handlerV s =>
    if s < k.numSems ∧ (k.mode = .idling ∨ k.inCode ∧ k.level = .intOn) then some (k.V s) else none
  | .timerYield => if k.inCode ∧ k.level = .intOn then some k.yield else none
  | .resume => if k.mode = .running then k.resume else none
  | .idle => if k.mode = .idling then some k.dispatch else none
  | .halt => if k.mode = .idling ∧ k.readyList = [] then some { k with mode := .stopped } else none

end Nachos.Threads
