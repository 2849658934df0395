import Nachos.Threads.Kernel
import Nachos.Userprog.Frames

/-!
# Processes: `PTable`, `PCB` and the process system calls

The process table of `userprog/table.cc` and `userprog/pcb.cc`, with the handlers of
`SC_Exec`, `SC_Join` and `SC_Exit` in `userprog/exception.cc`, as a transition system of
threads. The simulator switches threads only where interrupts are turned on again, which in
this code is at the end of every `P`, `V` and `Fork`. A step runs one thread from one such
point to the next; which thread runs is free, so that every scheduling order is a run.
`Point` says where in the code a thread is. What `AddrSpace::AddrSpace(char *)` does under
`addrLock` is one step: no other thread sees or takes frames meanwhile.

PCB objects live on a heap and are never reused: `delete` only marks them. An access to a
deleted PCB, through `pcb[pID]` or through the `this` of a member function that is still
running, has no defined behaviour and stops the machine (`Stop.undefined`).

`exited`, `own`, `children`, `exitLog`, `joinLog` and `released` are history: they record
what happened and no step depends on them.
-/

namespace Nachos.Userprog

open Function (update)
open Threads (Tid Semaphore)

/-- PCB objects, numbered in the order of their construction. -/
abbrev PcbId := Nat

/-- `PCB` of `pcb.h`, without its three semaphores: these are the objects `joinsem c`,
`exitsem c` and `mutex c` of `SemRef`. -/
structure PCB where
  exitcode : Int
  thread : Option Tid
  pid : Nat
  numwait : Nat
  parentID : Nat
  joinStatus : Int
  /-- The destructor has run. -/
  deleted : Bool
  deriving DecidableEq, Repr

/-- `PCB::PCB`, run by a thread whose process ID is `caller`. -/
def PCB.new (id caller : Nat) : PCB where
  exitcode := 0
  thread := none
  pid := id
  numwait := 0
  parentID := if id ≠ 0 then caller else 0
  joinStatus := -1
  deleted := false

/-- The semaphores of the process table and of its PCBs. -/
inductive SemRef where
  | bmsem
  | joinsem (c : PcbId)
  | exitsem (c : PcbId)
  | mutex (c : PcbId)
  deriving DecidableEq, Repr

/-- The PCB that a semaphore belongs to. -/
def SemRef.owner : SemRef → Option PcbId
  | .bmsem => none
  | .joinsem c | .exitsem c | .mutex c => some c

/-- The semaphores that `PTable::PTable` and `PCB::PCB` create. -/
def SemRef.new : SemRef → Semaphore
  | .bmsem => .new 1
  | .joinsem _ => .new 0
  | .exitsem _ => .new 0
  | .mutex _ => .new 1

/-- Where a thread is in the code. Points named after a `P` are inside the loop of that `P`;
`c` is the object whose member function runs, and `child` is history. -/
inductive Point where
  /-- The thread "main", before `StartProcess`. -/
  | startProcess
  /-- Forked by `PCB::Exec`, before `MyStartProcess`. -/
  | myStartProcess
  /-- About to run user code. -/
  | user
  /-- `ExecUpdate`: in `bmsem->P()`. -/
  | execP (filename : String)
  /-- `ExecUpdate`: after `bmsem->P()`. -/
  | execBody (filename : String)
  /-- `PCB::Exec`: in `mutex->P()`. -/
  | execMutexP (c : PcbId) (id : Nat) (filename : String)
  /-- `PCB::Exec`: after `mutex->P()`. -/
  | execFork (c : PcbId) (id : Nat) (filename : String)
  /-- `PCB::Exec`: after `Fork`. -/
  | execMutexV (c : PcbId) (id : Nat)
  /-- `ExecUpdate`: at the last `bmsem->V()`, about to return `result`. -/
  | execV (result : Int) (child : Option PcbId)
  /-- `JoinUpdate`: in `joinsem->P()` of `JoinWait`. -/
  | joinP (c : PcbId) (pID : Nat) (child : Option PcbId)
  /-- `JoinUpdate`: after `JoinWait`. -/
  | joinRead (c : PcbId) (pID : Nat) (child : Option PcbId)
  /-- `ExitUpdate`: after `JoinRelease`. -/
  | exitWait (pID : Nat) (ec : Int)
  /-- `ExitUpdate`: in `exitsem->P()` of `ExitWait`. -/
  | exitP (c : PcbId) (pID : Nat) (ec : Int)
  /-- `ExitUpdate`: after `ExitWait`. -/
  | exitRemove (pID : Nat) (ec : Int)
  deriving DecidableEq, Repr

structure Thread where
  name : String := ""
  processID : Nat := 0
  point : Point := .user
  /-- Asleep in the queue of a semaphore. -/
  blocked : Bool := false
  /-- `numPages` of the thread's address space; zero before it is loaded. -/
  numPages : Nat := 0
  /-- History: the PCB whose `Exec` created the thread. -/
  own : PcbId := 0
  /-- History: `ExitUpdate` has returned to the thread after `Remove`. -/
  exited : Bool := false
  /-- History: the child that a process ID obtained from `SC_Exec` stands for, until the
  thread joins it. -/
  children : Nat → Option PcbId := fun _ => none

/-- Why the machine has stopped. -/
inductive Stop where
  | halted | aborted | undefined
  deriving DecidableEq, Repr

/-- History: `SC_Join` of a child obtained from `SC_Exec` has returned `result`. -/
structure JoinReturn where
  parent : Tid
  child : PcbId
  result : Int
  deriving DecidableEq, Repr

/-- History: `ExitUpdate(ec)` has been executed; `joined` says that `JoinStatus` was not `-1`. -/
structure ExitRecord where
  ec : Int
  joined : Bool
  deriving DecidableEq, Repr

structure State where
  bm : BitMap
  pcb : Nat → Option PcbId
  /-- The semaphores; those of a PCB exist from its construction on. -/
  sems : SemRef → Semaphore
  heap : PcbId → PCB
  numPcbs : Nat
  threads : Tid → Thread
  numThreads : Nat
  /-- `gPhysPageBitMap`. -/
  physPages : BitMap
  stopped : Option Stop
  exitLog : PcbId → Option ExitRecord
  joinLog : List JoinReturn
  /-- The PCBs whose joiner has returned from `JoinUpdate` after `JoinWait`. -/
  released : List PcbId

/-- `MAXPROCESS`. -/
def maxProcess : Nat := 10

/-- After `PTable(10)` in `Initialize`: the thread "main" is about to run `StartProcess`. -/
def boot : State where
  bm := (BitMap.new maxProcess).mark 0
  pcb := update (fun _ => none) 0 (some 0)
  sems := SemRef.new
  heap := fun _ => PCB.new 0 0
  numPcbs := 1
  threads := update (fun _ => {}) 0 { name := "main", point := .startProcess }
  numThreads := 1
  physPages := BitMap.new numPhysPages
  stopped := none
  exitLog := fun _ => none
  joinLog := []
  released := []

namespace State

variable (s : State)

@[simps -fullyApplied] def stop (why : Stop) : State := { s with stopped := some why }

@[simps -fullyApplied] def setThread (t : Tid) (th : Thread) : State := { s with threads := update s.threads t th }

@[simps -fullyApplied] def setPCB (c : PcbId) (p : PCB) : State := { s with heap := update s.heap c p }

@[simps -fullyApplied] def setSem (r : SemRef) (v : Semaphore) : State := { s with sems := update s.sems r v }

/-- The thread goes on to `pt`. -/
def goto (t : Tid) (pt : Point) : State := s.setThread t { s.threads t with point := pt }

/-- One test of the loop in `Semaphore::P`: sleep at `waiting`, or take the unit and go on to
`next`. -/
def p (t : Tid) (r : SemRef) (waiting next : Point) : State :=
  if (s.sems r).value = 0 then
    (s.setSem r ((s.sems r).enqueue t)).setThread t
      { s.threads t with point := waiting, blocked := true }
  else (s.setSem r (s.sems r).take).goto t next

/-- `Semaphore::V`: the first waiting thread can run again. -/
def v (r : SemRef) : State :=
  match (s.sems r).queue with
  | [] => s.setSem r (s.sems r).give
  | t :: _ =>
    (s.setSem r (s.sems r).give).setThread t { s.threads t with blocked := false }

/-- `PTable::IsExist`. -/
def isExist (pID : Nat) : Bool := pID ≤ 9 ∧ s.bm.test pID

/-- `delete pcb[pID]`; deleting an object twice is undefined. -/
def delete (pID : Nat) : State :=
  match s.pcb pID with
  | none => s
  | some c =>
    if (s.heap c).deleted then s.stop .undefined else s.setPCB c { s.heap c with deleted := true }

/-- `PTable::Remove`. -/
def remove (pID : Nat) : State :=
  if pID > 9 then s
  else if s.bm.test pID then { s with bm := s.bm.clear pID }.delete pID
  else s

/-! ### `PTable::ExecUpdate` -/

/-- `ExecUpdate` up to the end of `bmsem->P()`. -/
def execUpdate (t : Tid) (filename : String) : State :=
  s.p t .bmsem (.execP filename) (.execBody filename)

/-- `pcb[ID] = new PCB(ID); bm->Mark(ID);` after `FindFreeSlot` gave `id` and the bitmap `bm`. -/
@[simps -fullyApplied] def newPCB (t : Tid) (id : Nat) (bm : BitMap) : State :=
  { s with
    bm := bm.mark id
    pcb := update s.pcb id (some s.numPcbs)
    sems := fun r => if r.owner = some s.numPcbs then r.new else s.sems r
    heap := update s.heap s.numPcbs (PCB.new id (s.threads t).processID)
    numPcbs := s.numPcbs + 1 }

/-- `ExecUpdate` after `bmsem->P()`, up to the end of `mutex->P()` in `PCB::Exec`. `file` is what
`fileSystem->Open(filename)` finds. -/
def execBody (t : Tid) (filename : String) (file : Option NoffHeader) : State :=
  match file with
  | none => s.goto t (.execV (-1) none)
  | some _ =>
    if filename = (s.threads t).name then s.goto t (.execV (-1) none)
    else
      match s.bm.findFreeSlot with
      | (none, _) => s.goto t (.execV (-1) none)
      | (some id, bm) =>
        (s.newPCB t id bm).p t (.mutex s.numPcbs) (.execMutexP s.numPcbs id filename)
          (.execFork s.numPcbs id filename)

/-- `thread = new Thread(filename); thread->SetProcessID(pID); thread->Fork(MyStartProcess, pID);`
for the PCB `c`. -/
@[simps -fullyApplied] def fork (c : PcbId) (pID : Nat) (filename : String) : State :=
  { s with
    heap := update s.heap c { s.heap c with thread := some s.numThreads }
    threads := update s.threads s.numThreads
      { name := filename, processID := pID, point := .myStartProcess, own := c }
    numThreads := s.numThreads + 1 }

/-- `PCB::Exec` after `mutex->P()`, up to the end of `Fork`. -/
def execFork (t : Tid) (c : PcbId) (id : Nat) (filename : String) : State :=
  if (s.heap c).deleted then s.stop .undefined
  else (s.fork c id filename).goto t (.execMutexV c id)

/-- `PCB::Exec` after `Fork`: `mutex->V()`. -/
def execMutexV (t : Tid) (c : PcbId) (id : Nat) : State :=
  if (s.heap c).deleted then s.stop .undefined
  else (s.v (.mutex c)).goto t (.execV id (some c))

/-- `SC_Exec` returns to user code. -/
def execReturn (t : Tid) (result : Int) (child : Option PcbId) : State :=
  s.setThread t { s.threads t with
    point := .user
    children := match child with
      | none => (s.threads t).children
      | some c => update (s.threads t).children result.toNat (some c) }

/-! ### `PTable::JoinUpdate` -/

/-- `SC_Join` returns to user code; `child` is the child it was called for. -/
def joinReturn (t : Tid) (child : Option PcbId) (result : Int) : State :=
  { s.goto t .user with
    joinLog := match child with
      | none => s.joinLog
      | some c => ⟨t, c, result⟩ :: s.joinLog }

/-- `PCB::JoinWait`, up to the end of `joinsem->P()`. -/
def joinWait (t : Tid) (c : PcbId) (pID : Nat) (child : Option PcbId) : State :=
  (s.setPCB c { s.heap c with
      joinStatus := (s.heap c).parentID, numwait := (s.heap c).numwait + 1 }).p t
    (.joinsem c) (.joinP c pID child) (.joinRead c pID child)

/-- `JoinUpdate` up to the end of `joinsem->P()` in `JoinWait`. -/
def joinUpdate (t : Tid) (pID : Int) (child : Option PcbId) : State :=
  if pID ≤ 0 ∨ pID > 9 then s.joinReturn t child (-1)
  else
    match s.pcb pID.toNat with
    | none => s.joinReturn t child (-1)
    | some c =>
      if (s.heap c).deleted then s.stop .undefined
      else if (s.threads t).processID ≠ (s.heap c).parentID then s.joinReturn t child (-1)
      else s.joinWait t c pID.toNat child

/-- `JoinUpdate` after `JoinWait`. -/
def joinRead (t : Tid) (c : PcbId) (pID : Nat) (child : Option PcbId) : State :=
  match s.pcb pID with
  | none => s.stop .undefined
  | some c' =>
    if (s.heap c').deleted then s.stop .undefined
    else if (s.heap c').exitcode ≠ 0 then
      { s.joinReturn t child (-1) with released := c :: s.released }
    else { (s.v (.exitsem c')).joinReturn t child 0 with released := c :: s.released }

/-- History: the child of thread `t` that `pID` stands for. -/
def childOf (t : Tid) (pID : Int) : Option PcbId :=
  if 0 ≤ pID then (s.threads t).children pID.toNat else none

/-- History: thread `t` joins the child that `pID` stands for. -/
def forget (t : Tid) (pID : Int) : State :=
  if 0 ≤ pID then
    s.setThread t { s.threads t with
      children := update (s.threads t).children pID.toNat none }
  else s

/-- The handler of `SC_Join`. -/
def scJoin (t : Tid) (pID : Int) : State :=
  if pID < 0 ∨ pID > 9 then (s.forget t pID).joinReturn t (s.childOf t pID) (-1)
  else if s.isExist pID.toNat then (s.forget t pID).joinUpdate t pID (s.childOf t pID)
  else (s.forget t pID).joinReturn t (s.childOf t pID) (-1)

/-! ### `PTable::ExitUpdate` -/

/-- `ExitUpdate` removes the slot and returns; the handler of `SC_Exit` then returns to user
code. -/
def exitReturn (t : Tid) (pID : Nat) : State :=
  let s' := s.remove pID
  s'.setThread t { s'.threads t with point := .user, exited := true }

/-- `PCB::SetExitCode` in `ExitUpdate`. -/
@[simps -fullyApplied] def setExitCode (t : Tid) (c : PcbId) (ec : Int) : State :=
  { s with
    heap := update s.heap c { s.heap c with exitcode := ec }
    exitLog := update s.exitLog (s.threads t).own
      (some ⟨ec, decide ((s.heap c).joinStatus ≠ -1)⟩) }

/-- `PCB::JoinRelease`. -/
def joinRelease (c : PcbId) : State :=
  (s.setPCB c { s.heap c with numwait := (s.heap c).numwait - 1 }).v (.joinsem c)

/-- `ExitUpdate` up to the end of `JoinRelease`, or to its return. -/
def exitUpdate (t : Tid) (ec : Int) : State :=
  let pID := (s.threads t).processID
  if s.isExist pID then
    if pID = 0 then s.stop .halted
    else
      match s.pcb pID with
      | none => s.stop .undefined
      | some c =>
        if (s.heap c).deleted then s.stop .undefined
        else if (s.heap c).joinStatus ≠ -1 then
          ((s.setExitCode t c ec).joinRelease c).goto t (.exitWait pID ec)
        else (s.setExitCode t c ec).exitReturn t pID
  else s.goto t .user

/-- `ExitUpdate` after `JoinRelease`, up to the end of `exitsem->P()` in `ExitWait`. -/
def exitWait (t : Tid) (pID : Nat) (ec : Int) : State :=
  match s.pcb pID with
  | none => s.stop .undefined
  | some c =>
    if (s.heap c).deleted then s.stop .undefined
    else s.p t (.exitsem c) (.exitP c pID ec) (.exitRemove pID ec)

/-! ### Starting a program -/

/-- The frames that `AddrSpace::AddrSpace(OpenFile *)` takes for "main". -/
def startProcess (t : Tid) (file : Option NoffHeader) : State :=
  match file with
  | none => s.stop .halted
  | some h =>
    if h.noffMagic ≠ noffMagic ∨ h.numPages > numPhysPages then s.stop .aborted
    else
      match allocFrames s.physPages h.numPages with
      | (none, pages) =>
        { s.setThread t { s.threads t with point := .user, numPages := 0 } with physPages := pages }
      | (some _, pages) =>
        { s.setThread t { s.threads t with point := .user, numPages := h.numPages } with
          physPages := pages }

/-- The frames that `AddrSpace::AddrSpace(char *)` takes in `MyStartProcess`. When the file
cannot be opened, `numPages` is used without having been set. -/
def myStartProcess (t : Tid) (file : Option NoffHeader) : State :=
  let pID := (s.threads t).processID
  match s.pcb pID with
  | none => s.stop .undefined
  | some c =>
    if ¬ s.isExist pID ∨ (s.heap c).deleted ∨ (s.heap c).thread = none then s.stop .undefined
    else
      match file with
      | none => s.stop .undefined
      | some h =>
        if h.noffMagic ≠ noffMagic then s.stop .aborted
        else if h.numPages > s.physPages.numClear then
          s.setThread t { s.threads t with point := .user, numPages := 0 }
        else
          match allocFrames s.physPages h.numPages with
          | (none, pages) =>
            { s.setThread t { s.threads t with point := .user, numPages := 0 } with
              physPages := pages }
          | (some _, pages) =>
            { s.setThread t { s.threads t with point := .user, numPages := h.numPages } with
              physPages := pages }

/-- A thread inside the kernel runs on to the next point. A `P` is tested again; its object
must still exist. -/
def resume (t : Tid) (file : Option NoffHeader) : State :=
  match (s.threads t).point with
  | .user => s
  | .startProcess => s.startProcess t file
  | .myStartProcess => s.myStartProcess t file
  | .execP filename => s.execUpdate t filename
  | .execBody filename => s.execBody t filename file
  | .execMutexP c id filename =>
    if (s.heap c).deleted then s.stop .undefined
    else s.p t (.mutex c) (.execMutexP c id filename) (.execFork c id filename)
  | .execFork c id filename => s.execFork t c id filename
  | .execMutexV c id => s.execMutexV t c id
  | .execV result child => (s.v .bmsem).execReturn t result child
  | .joinP c pID child =>
    if (s.heap c).deleted then s.stop .undefined
    else s.p t (.joinsem c) (.joinP c pID child) (.joinRead c pID child)
  | .joinRead c pID child => s.joinRead t c pID child
  | .exitWait pID ec => s.exitWait t pID ec
  | .exitP c pID ec =>
    if (s.heap c).deleted then s.stop .undefined
    else s.p t (.exitsem c) (.exitP c pID ec) (.exitRemove pID ec)
  | .exitRemove pID _ => s.exitReturn t pID

/-- The thread can be given the CPU. -/
def runnable (t : Tid) : Bool :=
  s.stopped = none ∧ t < s.numThreads ∧ (s.threads t).blocked = false

end State

/-- What a thread in user mode does next. -/
inductive Call where
  /-- A user instruction, or a system call that does not concern processes. -/
  | other
  | halt
  | exec (filename : String)
  | join (pID : Int)
  | exit (ec : Int)
  deriving DecidableEq, Repr

/-- Whether the call is `SC_Exec`, `SC_Join` or `SC_Exit`. -/
def Call.isProcess : Call → Bool
  | .other | .halt => false
  | .exec _ | .join _ | .exit _ => true

/-- The handler of a call, up to the first point where threads can switch. -/
def State.call (s : State) (t : Tid) : Call → State
  | .other => s
  | .halt => s.stop .halted
  | .exec filename => s.execUpdate t filename
  | .join pID => s.scJoin t pID
  | .exit ec => s.exitUpdate t ec

inductive Label where
  /-- Thread `t` is in user mode and makes a call. -/
  | call (t : Tid) (c : Call)
  /-- Thread `t` is in the kernel and runs on; `file` is the file an `Open` would find now. -/
  | resume (t : Tid) (file : Option NoffHeader)
  deriving DecidableEq, Repr

/-- The step function of the system calls. -/
def step (s : State) : Label → Option State
  | .call t c => if s.runnable t ∧ (s.threads t).point = .user then some (s.call t c) else none
  | .resume t file =>
    if s.runnable t ∧ (s.threads t).point ≠ .user then some (s.resume t file) else none

/-- Besides the system calls, direct calls of `PTable::JoinUpdate` and `PTable::Remove` by a
thread. -/
inductive TableLabel where
  | sys (l : Label)
  | joinUpdate (t : Tid) (pID : Int)
  | remove (t : Tid) (pID : Int)
  deriving DecidableEq, Repr

/-- The step function of the calls of `PTable`. -/
def tableStep (s : State) : TableLabel → Option State
  | .sys l => step s l
  | .joinUpdate t pID =>
    if s.runnable t ∧ (s.threads t).point = .user then some (s.joinUpdate t pID none) else none
  | .remove t pID =>
    if s.runnable t ∧ (s.threads t).point = .user then
      some (if pID < 0 then s else s.remove pID.toNat)
    else none

end Nachos.Userprog
