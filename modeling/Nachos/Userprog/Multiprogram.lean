import Nachos.Lib.Runs
import Nachos.Machine.Instructions
import Nachos.Userprog.AddrSpace

/-!
# Several processes on one machine

The threads of the kernel share one machine: its registers, its main memory and its page table
pointer. A thread starts in the kernel, builds an address space (`StartProcess` of progtest.cc
for the first program, `MyStartProcess` of pcb.cc for the others), and then runs user
instructions. `Scheduler::Run` saves and restores the user registers and sets the page table
pointer.

A constructor of `AddrSpace` is not one step: after it has its frames other threads may run
before each of its `ReadAt`s. The kernel's part of a system call is seen here as the reads and
writes of user memory and of registers that its handlers make, in any order.
-/

namespace Nachos.Multiprogram

open Programs Machine

abbrev ThreadId := Nat

/-- A NOFF file with a whole header that the loaders can place. -/
structure NoffFile where
  content : List Byte
  complete : noffHeaderSize ≤ content.length
  magic : (readHeader content).noffMagic = noffMagic
  wellFormed : (readHeader content).WellFormed

/-- Where a thread is: it has no address space, it is inside a constructor of `AddrSpace`
with some `ReadAt`s of the executable left, or its member `space` is set. -/
inductive Phase
  | kernel
  | loading (pending : List Copy) (executable : List Byte)
  | user

structure Thread where
  phase : Phase
  space : AddrSpace
  userRegisters : Reg → Word

structure State where
  mainMemory : Nat → Byte
  registers : Reg → Word
  /-- `machine->pageTable` points to the page table of this thread's address space. -/
  pageTable : Option ThreadId
  pageTableSize : Nat
  physPageBitMap : BitMap
  currentThread : ThreadId
  threads : ThreadId → Thread
  stopped : Option Fault

namespace State

variable (s : State)

def phase (t : ThreadId) : Phase := (s.threads t).phase

def space (t : ThreadId) : AddrSpace := (s.threads t).space

/-- The machine as the current thread sees it. -/
def machine : Machine where
  mainMemory := s.mainMemory
  registers := s.registers
  pageTable := s.pageTable.bind fun t => (s.space t).pageTable
  pageTableSize := s.pageTableSize

def setThread (t : ThreadId) (thread : Thread) : State :=
  { s with threads := Function.update s.threads t thread }

def stop (f : Fault) : State := { s with stopped := some f }

/-- Store what a routine has done to the machine: the page table it changed is the one that
the pointer points to. -/
def setMachine (m : Machine) : State :=
  { s with
    mainMemory := m.mainMemory
    registers := m.registers
    threads :=
      match s.pageTable with
      | none => s.threads
      | some t =>
        Function.update s.threads t
          { s.threads t with space := { s.space t with pageTable := m.pageTable } } }

/-- A routine of the machine on behalf of the current thread. -/
def runRoutine {α : Type} (p : Routine α) : State :=
  match p s.machine with
  | .done _ m => s.setMachine m
  | .trap _ m => s.setMachine m
  | .fault f => s.stop f

/-- The delayed load that an interrupt finishes, whichever thread is running. It touches
registers only. -/
def finishDelayedLoad : State :=
  match delayedLoad noReg 0 s.machine with
  | .done _ m => { s with registers := m.registers }
  | .trap _ m => { s with registers := m.registers }
  | .fault f => s.stop f

/-- `AddrSpace(OpenFile*)` up to its first `ReadAt` of a segment. -/
def startProcess (content : List Byte) : State :=
  let h := readHeader content
  if h.noffMagic ≠ noffMagic then s.stop .assertion
  else if numPhysPages < h.numPages then s.stop .assertion
  else
    match allocFrames s.physPageBitMap h.numPages with
    | (some frames, bitmap) =>
      { s with
        physPageBitMap := bitmap
        mainMemory := fun a => if a < h.numPages * pageSize then 0 else s.mainMemory a
        threads := Function.update s.threads s.currentThread
          { s.threads s.currentThread with
            phase := .loading h.physicalCopies content
            space := { pageTable := some (newTable frames), numPages := h.numPages } } }
    -- the caller then deletes the executable a second time
    | (none, bitmap) => { s with physPageBitMap := bitmap, stopped := some .outOfBounds }

/-- `AddrSpace(char*)` up to the release of `addrLock`. When there are not enough frames the
member `pageTable` is not set; `isNull` says whether it happens to be NULL. -/
def myStartProcess (content : List Byte) (isNull : Bool) : State :=
  let h := readHeader content
  let current := s.threads s.currentThread
  if h.noffMagic ≠ noffMagic then s.stop .assertion
  else if s.physPageBitMap.numClear < h.numPages then
    s.setThread s.currentThread
      { current with
        phase := .loading [] content
        space := { pageTable := if isNull then none else some [], numPages := 0 } }
  else
    match buildPages h.numPages s.physPageBitMap s.mainMemory with
    | (some frames, bitmap, memory) =>
      { s with
        physPageBitMap := bitmap
        mainMemory := memory
        threads := Function.update s.threads s.currentThread
          { current with
            phase := .loading h.pageCopies content
            space := { pageTable := some (newTable frames), numPages := h.numPages } } }
    | (none, bitmap, memory) =>
      { s with
        physPageBitMap := bitmap
        mainMemory := memory
        threads := Function.update s.threads s.currentThread
          { current with
            phase := .loading [] content
            space := { pageTable := some [], numPages := 0 } } }

/-- The next `ReadAt` of the constructor that the current thread is in. -/
def copy (c : Copy) (pending : List Copy) (executable : List Byte) : State :=
  let current := s.threads s.currentThread
  match current.space.pageTable.bind fun table => c.target.resolve (framesOf table) with
  | none => s.stop .outOfBounds
  | some into =>
    match readAt executable c.numBytes c.position with
    | none => s.stop .assertion
    | some bytes =>
      match writeMemory s.mainMemory into bytes with
      | .error fault => s.stop fault
      | .ok memory =>
        { s with
          mainMemory := memory
          threads := Function.update s.threads s.currentThread
            { current with phase := .loading pending executable } }

/-- The constructor returns; `InitRegisters` and `RestoreState` follow, and then
`Machine::Run`. -/
def startRunning : State :=
  let current := s.threads s.currentThread
  { s with
    registers := initRegisters current.space.numPages
    pageTable := some s.currentThread
    pageTableSize := current.space.numPages
    threads := Function.update s.threads s.currentThread { current with phase := .user } }

/-- `SaveUserState` of a thread whose member `space` is set. -/
def saveUserState : State :=
  match s.phase s.currentThread with
  | .user =>
    s.setThread s.currentThread { s.threads s.currentThread with userRegisters := s.registers }
  | _ => s

/-- `RestoreUserState` and `AddrSpace::RestoreState` of a thread whose member `space` is
set. -/
def restoreUserState : State :=
  match s.phase s.currentThread with
  | .user =>
    { s with
      registers := (s.threads s.currentThread).userRegisters
      pageTable := some s.currentThread
      pageTableSize := (s.space s.currentThread).numPages }
  | _ => s

/-- `Scheduler::Run`. -/
def switchTo (nextThread : ThreadId) : State :=
  restoreUserState { s.saveUserState with currentThread := nextThread }

end State

/-- The registers that the handlers of system calls write: r2 and, in `IncPCReg`, the program
counters. -/
def handlerRegs : List Reg := [resultReg, prevPCReg, pcReg, nextPCReg]

inductive Label
  | startProcess (file : NoffFile)
  | myStartProcess (file : NoffFile) (isNull : Bool)
  | copy
  | startRunning
  | oneInstruction
  | interrupt
  | readMem (addr : Word) (size : Nat)
  | writeMem (addr : Word) (size : Nat) (value : Word)
  | writeRegister (r : Reg) (value : Word)
  | run (nextThread : ThreadId)

/-- What the current thread, or an interrupt, does next. The first program is loaded on a
clear bitmap. -/
def perform (s : State) : Label → Option State
  | .startProcess file =>
    match s.phase s.currentThread with
    | .kernel =>
      if s.physPageBitMap = BitMap.new numPhysPages then some (s.startProcess file.content)
      else none
    | _ => none
  | .myStartProcess file isNull =>
    match s.phase s.currentThread with
    | .kernel => some (s.myStartProcess file.content isNull)
    | _ => none
  | .copy =>
    match s.phase s.currentThread with
    | .loading (c :: pending) executable => some (s.copy c pending executable)
    | _ => none
  | .startRunning =>
    match s.phase s.currentThread with
    | .loading [] _ => some s.startRunning
    | _ => none
  | .oneInstruction =>
    match s.phase s.currentThread with
    | .user => some (s.runRoutine oneInstruction)
    | _ => none
  | .interrupt => some s.finishDelayedLoad
  | .readMem addr size =>
    match s.phase s.currentThread with
    | .user => some (s.runRoutine (readMem addr size))
    | _ => none
  | .writeMem addr size value =>
    match s.phase s.currentThread with
    | .user => some (s.runRoutine (writeMem addr size value))
    | _ => none
  | .writeRegister r value =>
    match s.phase s.currentThread with
    | .user => if r ∈ handlerRegs then some (s.runRoutine (writeRegister r value)) else none
    | _ => none
  | .run nextThread => some (s.switchTo nextThread)

def step (s : State) (l : Label) : Option State :=
  if s.stopped.isSome then none else perform s l

/-- Before any program is loaded. `Thread::Thread` does not set `userRegisters`, nor
`Machine::Machine` the member `pageTableSize`. -/
def boot (userRegisters : ThreadId → Reg → Word) (pageTableSize : Nat) : State where
  mainMemory := fun _ => 0
  registers := fun _ => 0
  pageTable := none
  pageTableSize := pageTableSize
  physPageBitMap := BitMap.new numPhysPages
  currentThread := 0
  threads := fun t =>
    { phase := .kernel
      space := { pageTable := none, numPages := 0 }
      userRegisters := userRegisters t }
  stopped := none

end Nachos.Multiprogram
