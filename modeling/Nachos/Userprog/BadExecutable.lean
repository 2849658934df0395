import Nachos.Userprog.ExecSlots
import Nachos.Userprog.Isolation
import Nachos.Userprog.Loader

/-!
# Executing a file that cannot be loaded

`SC_Exec` of a file that exists, followed through `ExecUpdate`, `PCB::Exec`, `MyStartProcess`,
`AddrSpace(char*)`, `InitRegisters`, `RestoreState` and the first instruction of the new thread.
`ExecUpdate` reports success before the file is looked at. The constructor then asserts the magic
number, or leaves an address space of no pages behind when there are too few frames; `space` is not
NULL, so `MyStartProcess` goes on, the first fetch fails, and `ExceptionHandler` halts the machine.

So the file harms nobody exactly when `ExecUpdate` refuses it for another reason: it has the name
of the calling thread, or there is no free slot (`harmless_iff`).
-/

namespace Nachos.Userprog

open Function (update update_of_ne update_self update_apply)
open Threads (Tid)
open State

/-- The tables and threads of the kernel, and the machine that the threads run on. -/
structure System where
  kernel : State
  machine : Multiprogram.State

/-- The thread runs on inside `ExecUpdate`, up to its last `bmsem->V()`. -/
def State.toReturn (t : Tid) : Nat → State → State
  | 0, s => s
  | n + 1, s =>
    match (s.threads t).point with
    | .execV _ _ => s
    | _ => State.toReturn t n (s.resume t none)

namespace System

variable (y : System)

/-- The handler of `SC_Exec` after `bmsem->P()`, to its end: the result is in `r2`. -/
def scExec (file : NoffHeader) : System :=
  let t := y.machine.currentThread
  let s := State.toReturn t 2 (y.kernel.resume t (some file))
  { kernel := s.resume t none
    machine := y.machine.runRoutine (Machine.writeRegister resultReg
      (BitVec.ofInt 32 ((execResult s (.resume t none)).getD 0))) }

/-- `MyStartProcess` of the thread `u`, up to `machine->Run()`. -/
def myStartProcess (u : Tid) (executable : List Byte) (isNull : Bool) : System :=
  let kernel := y.kernel.resume u (some (readHeader executable))
  let machine := y.machine.switchTo u
  match addrSpace executable isNull machine.physPageBitMap machine.mainMemory with
  | .error f => { kernel := kernel, machine := machine.stop f }
  | .ok (space, bitmap, memory) =>
    { kernel := kernel
      machine := Multiprogram.State.startRunning { machine with
        physPageBitMap := bitmap
        mainMemory := memory
        threads := update machine.threads u { machine.threads u with space := space } } }

/-- The first instruction of `machine->Run()`. `ExceptionHandler` halts on every exception that is
not a system call. -/
def firstInstruction : System :=
  if y.kernel.stopped ≠ none ∨ y.machine.stopped ≠ none then y
  else
    match Machine.oneInstruction y.machine.machine with
    | .done _ m => { y with machine := y.machine.setMachine m }
    | .trap .syscall m => { y with machine := y.machine.setMachine m }
    | .trap _ m => { kernel := y.kernel.stop .halted, machine := y.machine.setMachine m }
    | .fault f => { kernel := y.kernel.stop .aborted, machine := y.machine.stop f }

/-- `SC_Exec`, and the start of the new thread if there is one. -/
def attempt (executable : List Byte) (isNull : Bool) : System :=
  let y' := y.scExec (readHeader executable)
  if y'.kernel.numThreads = y.kernel.numThreads then y'
  else (y'.myStartProcess y.kernel.numThreads executable isNull).firstInstruction

/-- The current thread is in `ExecUpdate(filename)` and holds `bmsem`. -/
structure InExec (filename : String) : Prop where
  kernelRuns : y.kernel.stopped = none
  machineRuns : y.machine.stopped = none
  caller : y.machine.currentThread < y.kernel.numThreads
  awake : (y.kernel.threads y.machine.currentThread).blocked = false
  point : (y.kernel.threads y.machine.currentThread).point = .execBody filename
  slots : y.kernel.bm.numBits = maxProcess
  frames : y.machine.physPageBitMap = y.kernel.physPages

/-- The file is no NOFF file, or it needs more frames than are clear. A file is a NOFF file here
when its magic number is that of one: where its segments lie is not looked at, and a program that
can be loaded may still have segments outside of the file or of its frames
(`ownFramesOnly_iff`). -/
def Bad (executable : List Byte) : Prop :=
  (readHeader executable).noffMagic ≠ noffMagic ∨
    y.kernel.physPages.numClear < (readHeader executable).numPages

/-- `ExecUpdate` finds the name of the calling thread, or no free slot. -/
def Refused (filename : String) : Prop :=
  filename = (y.kernel.threads y.machine.currentThread).name ∨
    ∀ i, i < maxProcess → y.kernel.bm.test i = true

/-- `y'` comes from `y` by an attempt to execute a file that has harmed nobody. The process that
it may have created has the number of the next thread of `y`. -/
structure Harmless (y' : System) : Prop where
  /-- The machine has neither aborted nor halted. -/
  running : y'.kernel.stopped = none ∧ y'.machine.stopped = none
  /-- The attempt has ended with an error or with the process terminated. -/
  ended : y'.machine.registers resultReg = -1 ∨
    (y'.kernel.threads y.kernel.numThreads).exited = true
  memory : ∀ u, u < y.kernel.numThreads → ∀ va,
    Multiprogram.visible y'.machine u va = Multiprogram.visible y.machine u va
  /-- The caller gets its result in `r2`. -/
  registers : ∀ u, u < y.kernel.numThreads → ∀ r, u ≠ y.machine.currentThread ∨ r ≠ resultReg →
    Multiprogram.seenRegisters y'.machine u r = Multiprogram.seenRegisters y.machine u r
  table : ∀ i, y.kernel.bm.test i = true → y'.kernel.bm.test i = true ∧
    y'.kernel.pcb i = y.kernel.pcb i ∧
    ∀ c, y.kernel.pcb i = some c → y'.kernel.heap c = y.kernel.heap c
  canRun : ∀ u, y.kernel.runnable u = true → y'.kernel.runnable u = true

/-! ## The calls that are refused -/

variable {y} {filename : String} {executable : List Byte} {isNull : Bool}

/-- What `ExecUpdate` does when it finds the name of the caller or no free slot. -/
theorem InExec.execBody_refused (h : y.InExec filename) (hrefused : y.Refused filename)
    (file : NoffHeader) :
    y.kernel.resume y.machine.currentThread (some file) =
      y.kernel.goto y.machine.currentThread (.execV (-1) none) := by
  simp only [State.resume, h.point, State.execBody]
  split_ifs with hname
  · rfl
  · rcases y.kernel.bm.find_cases with ⟨id, hid, hfree, -⟩ | ⟨-, hfind⟩
    · have hall := hrefused.resolve_left hname id (by rw [← h.slots]; exact hid)
      rw [hfree] at hall
      cases hall
    · rw [BitMap.findFreeSlot_eq_find, hfind]

/-- `WriteRegister` changes one register and nothing else. -/
theorem runRoutine_writeRegister (m : Multiprogram.State) (r : Reg) (v : Word) :
    m.runRoutine (Machine.writeRegister r v) = { m with registers := update m.registers r v } := by
  cases m with
  | mk mainMemory registers pageTable pageTableSize physPageBitMap currentThread threads stopped =>
    cases pageTable with
    | none => rfl
    | some t =>
      simp only [Multiprogram.State.runRoutine, Machine.writeRegister, Programs.Program.modify,
        Multiprogram.State.setMachine, Multiprogram.State.machine, Machine.setRegister]
      congr
      -- the page table that is stored back is the one that was there
      exact Function.update_eq_self t threads

theorem InExec.scExec_refused (h : y.InExec filename) (hrefused : y.Refused filename)
    (file : NoffHeader) : y.scExec file =
      { kernel := ((y.kernel.goto y.machine.currentThread (.execV (-1) none)).v .bmsem).execReturn
          y.machine.currentThread (-1) none
        machine := { y.machine with registers := update y.machine.registers resultReg (-1) } } := by
  have hpoint : ((y.kernel.goto y.machine.currentThread (.execV (-1) none)).threads
      y.machine.currentThread).point = .execV (-1) none := by simp [State.goto]
  simp only [scExec, h.execBody_refused hrefused file, State.toReturn, hpoint, execResult]
  simp only [State.resume, hpoint, Option.getD_some, runRoutine_writeRegister]
  rfl

/-- A call that is refused changes `r2` of the caller and wakes at most one thread. -/
theorem InExec.harmless_refused (h : y.InExec filename) (hrefused : y.Refused filename) :
    y.Harmless (y.attempt executable isNull) := by
  have hexec := h.scExec_refused hrefused (readHeader executable)
  have hsame : y.attempt executable isNull = y.scExec (readHeader executable) := by
    refine if_pos ?_
    rw [hexec]
    simp [execReturn, State.goto]
  rw [hsame, hexec]
  refine ⟨⟨?_, h.machineRuns⟩, .inl ?_, fun u _ va => rfl, fun u _ r hr => ?_, fun i hi => ?_,
    fun u hu => ?_⟩
  · simp [execReturn, State.goto, h.kernelRuns]
  · simp
  · unfold Multiprogram.seenRegisters
    simp only
    split_ifs with hut
    · rw [update_of_ne (hr.resolve_left (not_not.mpr hut))]
    · rfl
  · simp [execReturn, State.goto, hi]
  · simp only [runnable, decide_eq_true_eq] at hu ⊢
    refine ⟨by simp [execReturn, State.goto, h.kernelRuns], ?_, ?_⟩
    · simpa [execReturn, State.goto] using hu.2.1
    · simp only [execReturn, setThread_threads, update_apply]
      split_ifs with hut
      · rw [v_threads]
        simp [State.goto, h.awake]
      · rw [v_threads]
        simp [State.goto, hut, hu.2.2]

/-! ## The calls that create a process -/

/-- `SC_Exec` has made a thread that is about to run `MyStartProcess`. -/
structure Created (s s' : State) : Prop where
  numThreads : s'.numThreads = s.numThreads + 1
  point : (s'.threads s.numThreads).point = .myStartProcess
  exists_pcb : ∃ c, s'.pcb (s'.threads s.numThreads).processID = some c ∧
    s'.isExist (s'.threads s.numThreads).processID = true ∧
    (s'.heap c).deleted = false ∧ (s'.heap c).thread ≠ none
  physPages : s'.physPages = s.physPages
  stopped : s'.stopped = s.stopped

/-- `PCB::Exec` after `mutex->P()`, with nobody in between. -/
def execTail (s : State) (t : Tid) (c : PcbId) (id : Nat) (filename : String) : State :=
  (((s.fork c id filename).goto t (.execMutexV c id)).v (.mutex c)).goto t (.execV id (some c))

theorem toReturn_execFork {s : State} {t : Tid} {c : PcbId} {id : Nat} {filename : String}
    (hpoint : (s.threads t).point = .execFork c id filename)
    (halive : (s.heap c).deleted = false) : State.toReturn t 2 s = execTail s t c id filename := by
  have hfork : s.resume t none = (s.fork c id filename).goto t (.execMutexV c id) := by
    simp [State.resume, hpoint, execFork, halive]
  have hafter : (((s.fork c id filename).goto t (.execMutexV c id)).threads t).point =
      .execMutexV c id := by simp [State.goto]
  have hmutex : ((s.fork c id filename).goto t (.execMutexV c id)).resume t none =
      execTail s t c id filename := by
    simp only [State.resume, hafter, execMutexV]
    exact if_neg (by simp [State.goto, halive])
  simp only [State.toReturn, hpoint, hfork, hafter, hmutex]

theorem created_execTail {s : State} {t : Tid} (ht : t < s.numThreads) {c : PcbId} {id : Nat}
    (filename : String) (hocc : Occupied s id c) :
    Created s ((execTail s t c id filename).resume t none) := by
  have hne : s.numThreads ≠ t := Nat.ne_of_gt ht
  have hresume : (execTail s t c id filename).resume t none =
      ((execTail s t c id filename).v .bmsem).execReturn t id (some c) := by
    simp [State.resume, execTail, State.goto]
  rw [hresume]
  refine ⟨?_, ?_, ⟨c, ?_, ?_, ?_, ?_⟩, ?_, ?_⟩
  · simp [execTail, execReturn, State.goto]
  · simp [execTail, execReturn, State.goto, v_threads, hne]
  · simp [execTail, execReturn, State.goto, v_threads, hne, hocc.pcb]
  · simp [execTail, execReturn, State.goto, v_threads, hne, isExist, hocc.range, hocc.bit]
  · simp [execTail, execReturn, State.goto, hocc.alive]
  · simp [execTail, execReturn, State.goto]
  · simp [execTail, execReturn, State.goto]
  · simp [execTail, execReturn, State.goto]

/-- What `ExecUpdate` does up to `mutex->P()` when it accepts the name. -/
theorem execBody_accepted {s : State} {t : Tid} {filename : String}
    (hpoint : (s.threads t).point = .execBody filename) (hname : filename ≠ (s.threads t).name)
    {id : Nat} (hfind : s.bm.find = (some id, s.bm.mark id)) (file : NoffHeader) :
    s.resume t (some file) = (s.newPCB t id (s.bm.mark id)).take t (.mutex s.numPcbs)
      (.execFork s.numPcbs id filename) := by
  have hfresh : ((s.newPCB t id (s.bm.mark id)).sems (.mutex s.numPcbs)).value = 1 := by
    simp [SemRef.owner, SemRef.new]
  simp only [State.resume, hpoint, State.execBody, if_neg hname, BitMap.findFreeSlot_eq_find, hfind]
  rw [p_eq, hfresh, if_neg (by decide)]

theorem InExec.created (h : y.InExec filename) (hnot : ¬ y.Refused filename) (file : NoffHeader) :
    Created y.kernel (y.scExec file).kernel := by
  obtain ⟨hname, hfree⟩ := not_or.mp hnot
  rcases y.kernel.bm.find_cases with ⟨id, hid, hclear, hfind⟩ | ⟨hall, -⟩
  · have hbody := execBody_accepted h.point hname hfind file
    generalize hs : y.kernel.resume y.machine.currentThread (some file) = s at hbody
    have hnew : NewSlot y.kernel s id
        (y.kernel.threads y.machine.currentThread).processID := by
      rw [hbody]
      exact ⟨hid, hclear, rfl, rfl, rfl, rfl⟩
    have hocc := hnew.occupied h.slots
    have hpoint : (s.threads y.machine.currentThread).point =
        .execFork y.kernel.numPcbs id filename := by
      rw [hbody, take_threads, update_self]
    have hnum : s.numThreads = y.kernel.numThreads := by
      rw [hbody]
      rfl
    have hcreated := created_execTail (t := y.machine.currentThread) (by rw [hnum]; exact h.caller)
      filename hocc
    simp only [scExec, hs, toReturn_execFork hpoint hocc.alive]
    refine ⟨hcreated.numThreads.trans (by rw [hnum]), hnum ▸ hcreated.point,
      hnum ▸ hcreated.exists_pcb, hcreated.physPages.trans ?_, hcreated.stopped.trans ?_⟩
    · rw [hbody]
      rfl
    · rw [hbody]
      rfl
  · exact absurd (fun i hi => hall i (by rw [h.slots]; exact hi)) hfree

/-- The first step of the new thread, on a file that cannot be loaded. -/
theorem Created.resume_bad {s s' : State} (h : Created s s') {file : NoffHeader}
    (hbad : file.noffMagic ≠ noffMagic ∨ s.physPages.numClear < file.numPages) :
    (s'.resume s.numThreads (some file)).stopped =
      if file.noffMagic ≠ noffMagic then some .aborted else s.stopped := by
  obtain ⟨c, hpcb, hexist, halive, hthread⟩ := h.exists_pcb
  simp only [State.resume, h.point, State.myStartProcess, hpcb, hexist, halive, hthread]
  rw [if_neg (by simp)]
  split_ifs with hmagic hfew
  · rfl
  · exact h.stopped
  · rw [h.physPages] at hfew
    exact absurd (hbad.resolve_left hmagic) hfew

/-- `RaiseException` enters `ExceptionHandler`. -/
theorem raiseException_trap {α : Type} {m : Machine} (hload : Machine.LoadOK m.registers)
    (e : ExceptionType) (badVAddr : Word) :
    ∃ m', (Machine.raiseException e badVAddr : Routine α) m = .trap e m' := by
  have hload' : Machine.LoadOK (m.setRegister badVAddrReg badVAddr).registers := by
    show (update m.registers badVAddrReg badVAddr loadReg).toNat < 32
    rw [update_of_ne (by decide)]
    exact hload
  obtain ⟨m', hm', -⟩ := Multiprogram.delayedLoad_done hload'
  refine ⟨m', ?_⟩
  show Programs.Program.bind (Machine.delayedLoad 0 0) _ (m.setRegister badVAddrReg badVAddr) = _
  unfold Programs.Program.bind
  rw [show Machine.delayedLoad 0 0 (m.setRegister badVAddrReg badVAddr) = .done () m' from hm']
  rfl

/-- With no pages `ReadMem` fails, also when the page table is the NULL pointer. -/
theorem readMem_noPages {m : Machine} (hload : Machine.LoadOK m.registers)
    (hsize : m.pageTableSize = 0) :
    Machine.readMem 0 4 m = .fault .assertion ∨
      ∃ m', Machine.readMem 0 4 m = .trap .addressError m' := by
  show Programs.Program.bind (Machine.translate 0 4 false) _ m = _ ∨
    ∃ m', Programs.Program.bind (Machine.translate 0 4 false) _ m = _
  unfold Programs.Program.bind
  cases htable : m.pageTable with
  | none =>
    have htranslate : Machine.translate 0 4 false m = .fault .assertion := by
      unfold Machine.translate
      rw [if_neg (by decide), htable]
    rw [htranslate]
    exact .inl rfl
  | some table =>
    have htranslate : Machine.translate 0 4 false m = .done (.error .addressError) m := by
      unfold Machine.translate
      rw [if_neg (by decide), htable]
      exact if_pos (by rw [hsize]; exact Nat.zero_le _)
    rw [htranslate]
    exact .inr (raiseException_trap hload .addressError 0)

/-- With no pages the first fetch fails. -/
theorem oneInstruction_noPages {m : Machine} (hpc : m.registers pcReg = 0)
    (hload : Machine.LoadOK m.registers) (hsize : m.pageTableSize = 0) :
    Machine.oneInstruction m = .fault .assertion ∨
      ∃ m', Machine.oneInstruction m = .trap .addressError m' := by
  have hread : Machine.readRegister pcReg m = .done 0 m := by
    rw [← hpc]
    rfl
  rw [Machine.oneInstruction, Programs.bind_done hread]
  rcases readMem_noPages hload hsize with hfault | ⟨m', htrap⟩
  · exact .inl (Programs.bind_fault hfault)
  · exact .inr ⟨m', Programs.bind_trap htrap⟩

/-- A thread whose address space has no pages halts the machine. -/
theorem firstInstruction_noPages {y : System} (hruns : y.machine.stopped = none)
    (hregisters : y.machine.registers = initRegisters 0)
    (hsize : y.machine.pageTableSize = 0) : y.firstInstruction.kernel.stopped ≠ none := by
  have hpc : y.machine.machine.registers pcReg = 0 := by
    show y.machine.registers pcReg = 0
    rw [hregisters]
    decide
  have hload : Machine.LoadOK y.machine.machine.registers := by
    show Machine.LoadOK y.machine.registers
    rw [hregisters]
    exact loadOK_initRegisters 0
  unfold firstInstruction
  by_cases hstopped : y.kernel.stopped = none
  · rw [if_neg (by simp [hstopped, hruns])]
    rcases oneInstruction_noPages hpc hload hsize with hfault | ⟨m', htrap⟩
    · rw [hfault]
      simp [State.stop]
    · rw [htrap]
      simp [State.stop]
  · rw [if_pos (.inl hstopped)]
    exact hstopped

/-- The machine stops once the new thread has been started on a file that cannot be loaded. -/
theorem Created.stopped_bad {y y' : System} (h : Created y.kernel y'.kernel)
    (hruns : y'.machine.stopped = none)
    (hframes : y'.machine.physPageBitMap = y.kernel.physPages) (hbad : y.Bad executable)
    (isNull : Bool) :
    ((y'.myStartProcess y.kernel.numThreads executable isNull).firstInstruction).kernel.stopped ≠
      none := by
  have hresume := h.resume_bad hbad
  have hswitch := Multiprogram.switched_switchTo y'.machine y.kernel.numThreads
  by_cases hmagic : (readHeader executable).noffMagic ≠ noffMagic
  · -- the assertion in the constructor
    rw [if_pos hmagic] at hresume
    have hstart : (y'.myStartProcess y.kernel.numThreads executable isNull).kernel.stopped =
        some .aborted := by
      simp only [System.myStartProcess]
      split
      · exact hresume
      · exact hresume
    unfold System.firstInstruction
    rw [if_pos (.inl (by rw [hstart]; simp)), hstart]
    simp
  · -- the constructor returns early, and its caller does not notice
    have hfew := hbad.resolve_left hmagic
    have hspace : addrSpace executable isNull
        (y'.machine.switchTo y.kernel.numThreads).physPageBitMap
        (y'.machine.switchTo y.kernel.numThreads).mainMemory =
        .ok ({ pageTable := if isNull then none else some [], numPages := 0 },
          (y'.machine.switchTo y.kernel.numThreads).physPageBitMap,
          (y'.machine.switchTo y.kernel.numThreads).mainMemory) := by
      simp only [addrSpace]
      rw [if_neg hmagic, if_pos (by rw [hswitch.bitmap, hframes]; exact hfew)]
    have hcurrent : ∀ threads : Tid → Multiprogram.Thread, ∀ thread : Multiprogram.Thread,
        update threads y.kernel.numThreads thread
          (y'.machine.switchTo y.kernel.numThreads).currentThread = thread := by
      intro threads thread
      rw [hswitch.current, update_self]
    apply firstInstruction_noPages
    · simp only [System.myStartProcess, hspace, Multiprogram.State.startRunning]
      rw [hswitch.stopped, hruns]
    · simp only [System.myStartProcess, hspace, Multiprogram.State.startRunning, hcurrent]
    · simp only [System.myStartProcess, hspace, Multiprogram.State.startRunning, hcurrent]

/-- A file that cannot be loaded harms nobody exactly when `ExecUpdate` does not try to load it. -/
theorem harmless_iff (y : System) (filename : String) (executable : List Byte) (isNull : Bool)
    (h : y.InExec filename) (hbad : y.Bad executable) :
    y.Harmless (y.attempt executable isNull) ↔ y.Refused filename := by
  refine ⟨fun hharmless => ?_, h.harmless_refused⟩
  by_contra hnot
  have hcreated := h.created hnot (readHeader executable)
  have hattempt : y.attempt executable isNull =
      ((y.scExec (readHeader executable)).myStartProcess y.kernel.numThreads executable
        isNull).firstInstruction := by
    refine if_neg ?_
    rw [hcreated.numThreads]
    exact Nat.succ_ne_self _
  have hmachine : (y.scExec (readHeader executable)).machine.stopped = none ∧
      (y.scExec (readHeader executable)).machine.physPageBitMap = y.kernel.physPages := by
    simp only [scExec, runRoutine_writeRegister]
    exact ⟨h.machineRuns, h.frames⟩
  have hstopped := hcreated.stopped_bad hmachine.1 hmachine.2 hbad isNull
  rw [← hattempt] at hstopped
  exact hstopped hharmless.running.1

/-- "main" is in user code and has called `SC_Exec`. -/
def calling (filename : String) : System where
  kernel := (Runs.run step boot [.resume 0 (some (readHeader Multiprogram.callProgram.content)),
    .call 0 (.exec filename)]).getD boot
  machine := (Runs.run Multiprogram.step (Multiprogram.boot (fun _ _ => 0) 0)
    [.startProcess Multiprogram.callProgram, .copy, .startRunning, .oneInstruction]).getD
    (Multiprogram.boot (fun _ _ => 0) 0)

/-- A file of letters. -/
def textFile : List Byte := List.replicate 48 0x61

theorem harmless_calling_main :
    (calling "main").InExec "main" ∧ (calling "main").Bad textFile ∧
      (calling "main").Harmless ((calling "main").attempt textFile true) := by
  have hexec : (calling "main").InExec "main" :=
    ⟨by decide +kernel, by decide +kernel, by decide +kernel, by decide +kernel,
      by decide +kernel, by decide +kernel, by decide +kernel⟩
  have hbad : (calling "main").Bad textFile := .inl (by decide)
  exact ⟨hexec, hbad, (harmless_iff _ _ _ _ hexec hbad).mpr (.inl (by decide +kernel))⟩

/-- A NOFF header of 128 pages of code. -/
def largeFile : List Byte :=
  [0xad, 0xdf, 0xba, 0, 0, 0, 0, 0, 40, 0, 0, 0, 0, 0, 1, 0] ++ List.replicate 24 0

/-- Any program can stop the machine with a file that is there: the first one aborts it, the second
one halts it. -/
theorem not_harmless_calling_child :
    (calling "child").InExec "child" ∧
      ((calling "child").Bad textFile ∧
        ¬ (calling "child").Harmless ((calling "child").attempt textFile true)) ∧
      ((calling "child").Bad largeFile ∧
        ¬ (calling "child").Harmless ((calling "child").attempt largeFile false)) := by
  have hruns : (calling "child").InExec "child" :=
    ⟨by decide +kernel, by decide +kernel, by decide +kernel, by decide +kernel,
      by decide +kernel, by decide +kernel, by decide +kernel⟩
  refine ⟨hruns, ⟨.inl (by decide), fun h => ?_⟩, ⟨.inr (by decide +kernel), fun h => ?_⟩⟩
  · have hstopped : ((calling "child").attempt textFile true).kernel.stopped = some .aborted := by
      decide +kernel
    have hrunning := h.running.1
    rw [hstopped] at hrunning
    cases hrunning
  · have hstopped : ((calling "child").attempt largeFile false).kernel.stopped = some .halted := by
      decide +kernel
    have hrunning := h.running.1
    rw [hstopped] at hrunning
    cases hrunning

end System

end Nachos.Userprog
