import Nachos.Userprog.Alternation
import Nachos.Userprog.SemTable

/-!
# `Ping.c` and `Pong.c` over the semaphore table and the console

Two processes run the loops of `test/Ping.c` and `test/Pong.c` on the system of `SemTable`, with
any number of other threads around them. A character goes through `SynchConsole::Write` of
`threads/synchcons.cc`, with one byte, and `Console::PutChar` of `machine/console.cc`; the
console interrupt calls `Console::WriteDone`, whose handler is `synchWriteAvail->V()`. Other
threads may do anything that touches neither the two names nor the console's semaphores.

The scheduler may switch threads wherever interrupts are on. `abs` forgets it: every step of
this system is a step of `Alternation` or none (`turnsInv_step`), which makes the output a
prefix of `ABABAB…` in every run (`alternates`).
-/

namespace Nachos.Userprog.Alternation

open Function (update update_of_ne update_self)
open Threads (Kernel SemId Tid View)
open Bytes (Str)
open SemTable (SysInv STable ownCode semOf)

/-- The string "First". -/
def nameFirst : Str := ⟨[0x46, 0x69, 0x72, 0x73, 0x74], by decide⟩

/-- The string "Second". -/
def nameSecond : Str := ⟨[0x53, 0x65, 0x63, 0x6f, 0x6e, 0x64], by decide⟩

/-- The argument of `Down` in the loop of a process. -/
def Side.downName : Side → Str
  | .ping => nameFirst
  | .pong => nameSecond

/-- The argument of `Up` in the loop of a process. -/
def Side.upName : Side → Str
  | .ping => nameSecond
  | .pong => nameFirst

/-- A process in its loop. -/
structure Process where
  thread : Tid
  point : Point
  left : Nat
  printed : Nat

structure System where
  sems : SemTable.System
  proc : Side → Process
  putBusy : Bool
  output : List Char
  aborted : Bool
  wLineBlock : SemId
  synchWriteAvail : SemId

namespace System

variable (s : System)

/-- The process runs on: the semaphores are now `sems` and the process is at `pt`. -/
def goto (x : Side) (sems : SemTable.System) (pt : Point) : System :=
  { s with sems := sems, proc := update s.proc x { s.proc x with point := pt } }

/-- The end of the loop's body. -/
def nextTurn (x : Side) (sems : SemTable.System) : System :=
  { s with
    sems := sems
    proc := update s.proc x { s.proc x with point := .down, left := (s.proc x).left - 1 } }

/-- The next piece of the code of process `x`. The results of `Down` and `Up` are not looked at:
where a name is missing the loop just goes on. -/
def act (x : Side) : Option System :=
  match (s.proc x).point with
  | .down =>
    if (s.proc x).left = 0 then none
    else (SemTable.step s.sems (.down x.downName)).map fun sems =>
      s.goto x sems (if s.sems.table.lookup x.downName = none then .print else .inDown)
  | .inDown => (SemTable.step s.sems .ret).map fun sems => s.goto x sems .print
  | .print => (SemTable.step s.sems (.kernel (.p s.wLineBlock))).map fun sems => s.goto x sems .inLock
  | .inLock =>
    if s.putBusy then some { s with aborted := true }
    else (SemTable.step s.sems (.kernel (.p s.synchWriteAvail))).map fun sems =>
      { s with putBusy := true, output := s.output ++ [x.char] }.goto x sems .inWait
  | .inWait => (SemTable.step s.sems (.kernel (.v s.wLineBlock))).map fun sems => s.goto x sems .unlocked
  | .unlocked =>
    some { s with
      proc := update s.proc x { s.proc x with point := .up, printed := (s.proc x).printed + 1 } }
  | .up =>
    (SemTable.step s.sems (.up x.upName)).map fun sems =>
      if s.sems.table.lookup x.upName = none then s.nextTurn x sems else s.goto x sems .inUp
  | .inUp => (SemTable.step s.sems .ret).map fun sems => s.nextTurn x sems

/-- The process has left its loop. -/
def done (x : Side) : Bool := (s.proc x).point = .down ∧ (s.proc x).left = 0

/-- The current thread is not in one of the loops. -/
def outside : Bool :=
  (s.sems.kernel.currentThread = (s.proc .ping).thread → s.done .ping) ∧
    (s.sems.kernel.currentThread = (s.proc .pong).thread → s.done .pong)

/-- What the rest of the system may do: nothing to the two names and the console's semaphores. -/
def allows : SemTable.Label → Bool
  | .createSemaphore _ _ | .ret => s.outside
  | .up name | .down name => s.outside ∧ name ≠ nameFirst ∧ name ≠ nameSecond
  | .kernel l =>
    (ownCode l → s.outside) ∧ semOf l ≠ some s.wLineBlock ∧ semOf l ≠ some s.synchWriteAvail

end System

inductive Label where
  /-- The current thread is the process's and runs the next piece of its loop. -/
  | act (x : Side)
  /-- The console interrupt. -/
  | writeDone
  /-- Any step of another thread, of the scheduler or of another interrupt. -/
  | other (l : SemTable.Label)

/-- The step function. -/
def step (s : System) : Label → Option System
  | .act x =>
    if s.aborted = false ∧ s.sems.kernel.inCode ∧
        s.sems.kernel.currentThread = (s.proc x).thread then s.act x
    else none
  | .writeDone =>
    if s.aborted = false ∧ s.putBusy then
      (SemTable.step s.sems (.kernel (.handlerV s.synchWriteAvail))).map fun sems =>
        { s with sems := sems, putBusy := false }
    else none
  | .other l =>
    if s.aborted = false ∧ s.allows l then
      (SemTable.step s.sems l).map fun sems => { s with sems := sems }
    else none

/-! ## The abstraction -/

/-- The abstract process, with the semaphores that the references stand for. -/
def absProc (ref : Ref → SemId) (v : View) (x : Side) (p : Process) : Proc where
  point := p.point
  waiting := match p.point.awaits x with
    | some r => v.waits p.thread = some (ref r)
    | none => false
  left := p.left
  printed := p.printed

/-- The abstract state. -/
def abs (ref : Ref → SemId) (s : System) : Turns where
  value r := (s.sems.kernel.view.sems (ref r)).value
  proc x := absProc ref s.sems.kernel.view x (s.proc x)
  putBusy := s.putBusy
  output := s.output
  aborted := s.aborted

/-- What ties the system to its abstraction. -/
structure Rel (ref : Ref → SemId) (s : System) : Prop where
  inv : SysInv s.sems
  first : ∃ i, s.sems.table.At i ⟨nameFirst, ref .first⟩
  second : ∃ i, s.sems.table.At i ⟨nameSecond, ref .second⟩
  line : ref .wLineBlock = s.wLineBlock
  avail : ref .synchWriteAvail = s.synchWriteAvail
  distinct : ref .wLineBlock ≠ ref .synchWriteAvail
  created : ref .wLineBlock < s.sems.kernel.numSems ∧ ref .synchWriteAvail < s.sems.kernel.numSems
  unowned : s.sems.table.owns (ref .wLineBlock) = false ∧
    s.sems.table.owns (ref .synchWriteAvail) = false
  threads : (s.proc .ping).thread ≠ (s.proc .pong).thread
  /-- Only the two processes are in a `P` of these semaphores, each where its loop says. -/
  waiters : ∀ t r, s.sems.kernel.view.waits t = some (ref r) →
    ∃ x, t = (s.proc x).thread ∧ (s.proc x).point.awaits x = some r

/-- A step that leaves the four semaphores and the threads in their `P`s alone. -/
structure Foreign (ref : Ref → SemId) (v v' : View) : Prop where
  sems : ∀ r, v'.sems (ref r) = v.sems (ref r)
  waits : ∀ t r, v'.waits t = some (ref r) ↔ v.waits t = some (ref r)

section Abstraction

variable {ref : Ref → SemId} {s u : System} {x : Side}

theorem Rel.owns (h : Rel ref s) (r : Ref) : s.sems.table.owns (ref r) = true ↔
    r = .first ∨ r = .second := by
  obtain ⟨i, hfirst⟩ := h.first
  obtain ⟨j, hsecond⟩ := h.second
  cases r with
  | first => simpa using SemTable.owns_iff.mpr ⟨i, _, hfirst, rfl⟩
  | second => simpa using SemTable.owns_iff.mpr ⟨j, _, hsecond, rfl⟩
  | wLineBlock => simpa using h.unowned.1
  | synchWriteAvail => simpa using h.unowned.2

theorem Rel.first_ne_second (h : Rel ref s) : ref .first ≠ ref .second := by
  intro heq
  obtain ⟨i, hfirst⟩ := h.first
  obtain ⟨j, hsecond⟩ := h.second
  obtain rfl := h.inv.table.sems hfirst hsecond heq
  have hentry := hfirst.2.symm.trans hsecond.2
  simp only [Option.some.injEq, SemTable.Entry.mk.injEq] at hentry
  exact absurd hentry.1 (by decide)

theorem Rel.injective (h : Rel ref s) : Function.Injective ref := by
  intro r r' heq
  have hiff : (r = .first ∨ r = .second) ↔ (r' = .first ∨ r' = .second) := by
    rw [← h.owns r, ← h.owns r', heq]
  have hne := h.first_ne_second
  have hne' := h.distinct
  cases r <;> cases r' <;> simp_all

theorem Rel.created_ref (h : Rel ref s) (r : Ref) : ref r < s.sems.kernel.numSems := by
  cases r with
  | first => exact h.first.elim fun i hat => h.inv.table.created hat
  | second => exact h.second.elim fun i hat => h.inv.table.created hat
  | wLineBlock => exact h.created.1
  | synchWriteAvail => exact h.created.2

/-- The relation after a step of the semaphores, except for who waits. -/
theorem Rel.next (h : Rel ref s) {l : SemTable.Label}
    (hstep : SemTable.step s.sems l = some u.sems) (hline : u.wLineBlock = s.wLineBlock)
    (havail : u.synchWriteAvail = s.synchWriteAvail)
    (hthread : ∀ x, (u.proc x).thread = (s.proc x).thread)
    (hwaiters : ∀ t r, u.sems.kernel.view.waits t = some (ref r) →
      ∃ x, t = (s.proc x).thread ∧ (u.proc x).point.awaits x = some r) : Rel ref u := by
  have hle := SemTable.numSems_le_step h.inv hstep
  refine ⟨SemTable.sysInv_step h.inv hstep, ?_, ?_, by rw [hline, h.line], by rw [havail, h.avail],
    h.distinct, ?_, ?_, ?_, ?_⟩
  · exact h.first.imp fun i hat => SemTable.at_step h.inv hstep hat
  · exact h.second.imp fun i hat => SemTable.at_step h.inv hstep hat
  · exact ⟨Nat.lt_of_lt_of_le h.created.1 hle, Nat.lt_of_lt_of_le h.created.2 hle⟩
  · exact ⟨SemTable.unowned_step h.inv hstep h.created.1 h.unowned.1,
      SemTable.unowned_step h.inv hstep h.created.2 h.unowned.2⟩
  · rw [hthread, hthread]
    exact h.threads
  · intro t r hw
    obtain ⟨x, rfl, hx⟩ := hwaiters t r hw
    exact ⟨x, (hthread x).symm, hx⟩

/-- The relation when only the processes change. -/
theorem Rel.procs (h : Rel ref s) {proc : Side → Process}
    (hthread : ∀ x, (proc x).thread = (s.proc x).thread)
    (hwaiters : ∀ t r, s.sems.kernel.view.waits t = some (ref r) →
      ∃ x, t = (s.proc x).thread ∧ (proc x).point.awaits x = some r) :
    Rel ref { s with proc := proc } := by
  refine ⟨h.inv, h.first, h.second, h.line, h.avail, h.distinct, h.created, h.unowned, ?_, ?_⟩
  · show (proc .ping).thread ≠ (proc .pong).thread
    rw [hthread, hthread]
    exact h.threads
  · intro t r hw
    obtain ⟨x, rfl, hx⟩ := hwaiters t r hw
    exact ⟨x, (hthread x).symm, hx⟩

theorem Rel.thread_ne (h : Rel ref s) {x y : Side} (hxy : y ≠ x) :
    (s.proc y).thread ≠ (s.proc x).thread := by
  cases x <;> cases y
  · exact absurd rfl hxy
  · exact h.threads.symm
  · exact h.threads
  · exact absurd rfl hxy

/-- A foreign step is not seen. -/
theorem abs_foreign (hproc : u.proc = s.proc) (hbusy : u.putBusy = s.putBusy)
    (hout : u.output = s.output) (hrun : u.aborted = s.aborted)
    (hview : Foreign ref s.sems.kernel.view u.sems.kernel.view) : abs ref u = abs ref s := by
  apply Turns.ext
  · ext1 r
    simp only [abs, hview.sems]
  · ext1 y
    apply Proc.ext
    · simp only [abs, absProc, hproc]
    · simp only [abs, absProc, hproc, hview.waits]
    · simp only [abs, absProc, hproc]
    · simp only [abs, absProc, hproc]
  · exact hbusy
  · exact hout
  · exact hrun

/-- The abstract process after the process `x` has moved to `pt` and left or entered a `P`. -/
theorem absProc_update (h : Rel ref s) {w : Option SemId} {p : Process} {q : Proc}
    (hp : p.thread = (s.proc x).thread) {v : View}
    (hwaits : v.waits = update s.sems.kernel.view.waits (s.proc x).thread w)
    (hq : absProc ref v x p = q) :
    (fun y => absProc ref v y (update s.proc x p y)) = update (abs ref s).proc x q := by
  ext1 y
  by_cases hy : y = x
  · subst hy
    rw [update_self, update_self, hq]
  · rw [update_of_ne hy, update_of_ne hy]
    have hne := h.thread_ne hy
    simp only [absProc, abs, hwaits, update_of_ne hne]

/-- The values of the four semaphores after one of them has changed. -/
theorem abs_value_update (h : Rel ref s) {r : Ref} {v : View} {sem : Threads.Semaphore}
    (hsems : v.sems = update s.sems.kernel.view.sems (ref r) sem) :
    (fun r' => (v.sems (ref r')).value) = update (abs ref s).value r sem.value := by
  ext1 r'
  by_cases hr : r' = r
  · subst hr
    rw [hsems, update_self, update_self]
  · rw [hsems, update_of_ne hr, update_of_ne fun heq => hr (h.injective heq)]
    rfl

/-- A test of `value` by the process `x` in the `P` at `pt`. -/
theorem abs_test (h : Rel ref s) (hinv : TurnsInv (abs ref s)) {r : Ref} {pt : Point}
    (hcur : s.sems.kernel.currentThread = (s.proc x).thread) (hr : pt.awaits x = some r)
    (hview : u.sems.kernel.view = s.sems.kernel.view.apply (s.sems.kernel.testEffect (ref r)))
    (hproc : u.proc = update s.proc x { s.proc x with point := pt }) :
    abs ref u = Turns.test { abs ref s with
      putBusy := u.putBusy, output := u.output, aborted := u.aborted } x r pt := by
  have hzero : (s.sems.kernel.sems (ref r)).value = (abs ref s).value r := rfl
  unfold Kernel.testEffect at hview
  unfold Turns.test
  rw [hcur, hzero] at hview
  split at hview
  · rename_i hvalue
    rw [if_pos hvalue]
    apply Turns.ext
    · show (fun r' => (u.sems.kernel.view.sems (ref r')).value) = _
      rw [hview]
      rfl
    · show (fun y => absProc ref u.sems.kernel.view y (u.proc y)) = _
      rw [hproc, hview]
      refine absProc_update h (p := { s.proc x with point := pt }) rfl (View.block_waits _ _ _) ?_
      simp [absProc, hr, View.apply, abs]
    · rfl
    · rfl
    · rfl
  · rename_i hvalue
    rw [if_neg hvalue]
    have hle := hinv.value_le r
    have hnonneg := hinv.nonneg r
    have hwrap := Threads.wrap32_of_range (n := (abs ref s).value r - 1) (by omega) (by omega)
    apply Turns.ext
    · show (fun r' => (u.sems.kernel.view.sems (ref r')).value) = _
      rw [hview]
      refine (abs_value_update h (View.take_sems _ _ _)).trans ?_
      congr 1
    · show (fun y => absProc ref u.sems.kernel.view y (u.proc y)) = _
      rw [hproc, hview]
      refine absProc_update h (p := { s.proc x with point := pt }) rfl (View.take_waits _ _ _) ?_
      simp [absProc, hr, View.apply, abs]
    · rfl
    · rfl
    · rfl

/-- A `V` by the process `x`, after which it is at `pt`. -/
theorem abs_give (h : Rel ref s) (hinv : TurnsInv (abs ref s)) {r : Ref} {pt : Point}
    (hr : pt.awaits x = none) (hw : ((abs ref s).proc x).waiting = false)
    (hview : u.sems.kernel.view = s.sems.kernel.view.give (ref r))
    (hproc : u.proc = update s.proc x { s.proc x with point := pt }) (hbusy : u.putBusy = s.putBusy)
    (hout : u.output = s.output) (hrun : u.aborted = s.aborted) :
    abs ref u = (abs ref s).give x r pt := by
  have hle := hinv.value_le r
  have hnonneg := hinv.nonneg r
  have hwrap := Threads.wrap32_of_range (n := (abs ref s).value r + 1) (by omega) (by omega)
  apply Turns.ext
  · show (fun r' => (u.sems.kernel.view.sems (ref r')).value) = _
    rw [hview]
    refine (abs_value_update h (View.give_sems _ _)).trans ?_
    congr 1
  · show (fun y => absProc ref u.sems.kernel.view y (u.proc y)) = _
    rw [hproc, hview]
    refine absProc_update h (p := { s.proc x with point := pt }) rfl
      (w := s.sems.kernel.view.waits (s.proc x).thread) (Function.update_eq_self _ _).symm ?_
    apply Proc.ext
    · rfl
    · rw [hw]
      simp [absProc, hr]
    · rfl
    · rfl
  · exact hbusy
  · exact hout
  · exact hrun

end Abstraction

/-! ## Steps of the rest of the system -/

section Foreign

variable {ref : Ref → SemId} {v : View}

theorem Foreign.refl : Foreign ref v v := ⟨fun _ => rfl, fun _ _ => Iff.rfl⟩

theorem foreign_create (h : ∀ r, ref r < v.numSems) (init : Int) : Foreign ref v (v.create init) :=
  ⟨fun r => update_of_ne (Nat.ne_of_lt (h r)) _ _, fun _ _ => Iff.rfl⟩

theorem foreign_give {sem : SemId} (h : ∀ r, ref r ≠ sem) : Foreign ref v (v.give sem) :=
  ⟨fun r => update_of_ne (h r) _ _, fun _ _ => Iff.rfl⟩

/-- A thread that is in no `P` of the four semaphores enters or leaves another one. -/
theorem foreign_waits {t : Tid} {w : Option SemId} (hw : ∀ r, w ≠ some (ref r))
    (ht : ∀ r, v.waits t ≠ some (ref r)) (u : Tid) (r : Ref) :
    update v.waits t w u = some (ref r) ↔ v.waits u = some (ref r) := by
  by_cases hu : u = t
  · subst hu
    rw [update_self]
    exact iff_of_false (hw r) (ht r)
  · rw [update_of_ne hu]

/-- A test of the value of another semaphore. -/
theorem foreign_test {k : Kernel} {sem : SemId} (h : ∀ r, ref r ≠ sem)
    (ht : ∀ r, k.view.waits k.currentThread ≠ some (ref r)) :
    Foreign ref k.view (k.view.apply (k.testEffect sem)) := by
  unfold Kernel.testEffect
  split
  · refine ⟨fun _ => rfl, foreign_waits (fun r heq => h r ?_) ht⟩
    exact (Option.some.inj heq).symm
  · exact ⟨fun r => update_of_ne (h r) _ _, foreign_waits (fun r => by simp) ht⟩

end Foreign

section Steps

variable {ref : Ref → SemId} {s u : System} {x : Side}

/-- What is kept by every step. -/
structure Good (ref : Ref → SemId) (s : System) : Prop where
  rel : Rel ref s
  turns : TurnsInv (abs ref s)

theorem Good.foreign (h : Good ref s) {l : SemTable.Label} {sems : SemTable.System}
    (hstep : SemTable.step s.sems l = some sems)
    (hview : Foreign ref s.sems.kernel.view sems.kernel.view) : Good ref { s with sems := sems } := by
  refine ⟨h.rel.next hstep rfl rfl (fun _ => rfl) fun t r hw => ?_, ?_⟩
  · exact h.rel.waiters t r ((hview.waits t r).mp hw)
  · rw [abs_foreign (s := s) (u := { s with sems := sems }) rfl rfl rfl rfl hview]
    exact h.turns

/-- Who is in a `P` after a test of `value` by the current thread. -/
theorem waits_of_test (h : Rel ref s) {r r' : Ref} {v : View} {t : Tid}
    (hview : v = s.sems.kernel.view.apply (s.sems.kernel.testEffect (ref r)))
    (ht : v.waits t = some (ref r')) :
    (t = s.sems.kernel.currentThread ∧ r' = r) ∨
      (t ≠ s.sems.kernel.currentThread ∧ s.sems.kernel.view.waits t = some (ref r')) := by
  rcases Threads.waits_of_testEffect hview ht with ⟨hcur, hr⟩ | hother
  · exact Or.inl ⟨hcur, h.injective hr⟩
  · exact Or.inr hother

/-- A process that waits tests the value again. -/
theorem Good.retest (h : Good ref s) {r : Ref} {l : SemTable.Label} {sems : SemTable.System}
    (hstep : SemTable.step s.sems l = some sems)
    (hw : s.sems.kernel.view.waits s.sems.kernel.currentThread = some (ref r))
    (hview : sems.kernel.view = s.sems.kernel.view.apply (s.sems.kernel.testEffect (ref r))) :
    Good ref { s with sems := sems } := by
  obtain ⟨x, hcur, hr⟩ := h.rel.waiters _ _ hw
  have habs := abs_test (u := { s with sems := sems }) h.rel h.turns hcur hr hview
    (Function.update_eq_self _ _).symm
  have hwaiting : ((abs ref s).proc x).waiting = true := by
    rw [hcur] at hw
    simp [abs, absProc, hr, hw]
  refine ⟨h.rel.next hstep rfl rfl (fun _ => rfl) fun t r' ht => ?_, ?_⟩
  · rcases waits_of_test h.rel hview ht with ⟨rfl, rfl⟩ | ⟨-, hold⟩
    · exact ⟨x, hcur, hr⟩
    · exact h.rel.waiters t r' hold
  · rw [habs]
    exact h.turns.retest hwaiting hr

/-- The current thread, running code of its own, is in no `P`. -/
theorem not_waits_of_inCode (hc : s.sems.kernel.inCode = true) (r : Ref) :
    s.sems.kernel.view.waits s.sems.kernel.currentThread ≠ some (ref r) := by
  show s.sems.kernel.current.resume.waitsOn ≠ some (ref r)
  rw [(Threads.inCode_iff.mp hc).2]
  simp [Threads.Resume.waitsOn]

/-- A name other than the two finds another semaphore. -/
theorem Rel.lookup_ne (h : Rel ref s) {name : Str} {e : SemTable.Entry}
    (hl : s.sems.table.lookup name = some e) (hname : name ≠ nameFirst ∧ name ≠ nameSecond) (r : Ref) :
    ref r ≠ e.sem := by
  intro heq
  obtain ⟨i, hat, rfl⟩ := SemTable.lookup_some hl
  have hown := SemTable.lookup_owns hl
  rw [← heq, h.owns] at hown
  rcases hown with rfl | rfl
  · obtain ⟨j, hfirst⟩ := h.first
    obtain rfl := h.inv.table.sems hat hfirst heq.symm
    exact hname.1 (by rw [Option.some.inj (hat.2.symm.trans hfirst.2)])
  · obtain ⟨j, hsecond⟩ := h.second
    obtain rfl := h.inv.table.sems hat hsecond heq.symm
    exact hname.2 (by rw [Option.some.inj (hat.2.symm.trans hsecond.2)])

/-- A semaphore outside the table that is not one of the console's. -/
theorem Rel.ref_ne (h : Rel ref s) {sem : SemId} (hsem : s.sems.table.owns sem = false)
    (hline : sem ≠ s.wLineBlock) (havail : sem ≠ s.synchWriteAvail) (r : Ref) : ref r ≠ sem := by
  rintro rfl
  cases r with
  | first => simp [(h.owns .first).mpr (Or.inl rfl)] at hsem
  | second => simp [(h.owns .second).mpr (Or.inr rfl)] at hsem
  | wLineBlock => exact hline h.line
  | synchWriteAvail => exact havail h.avail

/-- Steps of the thread system by other threads, and the steps of the scheduler. -/
theorem Good.kernel (h : Good ref s) {l : Threads.Label} {k : Kernel}
    (hstep : SemTable.step s.sems (.kernel l) = some { s.sems with kernel := k })
    (hk : Threads.step s.sems.kernel l = some k)
    (hsem : ∀ sem, semOf l = some sem → ∀ r, ref r ≠ sem) :
    Good ref { s with sems := { s.sems with kernel := k } } := by
  have hview := Threads.view_step h.rel.inv.kernel h.rel.inv.unforked hk
  have hcreated := h.rel.created_ref
  cases l with
  | newThread =>
    refine h.foreign hstep ?_
    rw [show k.view = _ from hview]
    exact ⟨fun _ => rfl, fun _ _ => Iff.rfl⟩
  | newSemaphore v =>
    refine h.foreign hstep ?_
    rw [show k.view = _ from hview]
    exact foreign_create hcreated v
  | p sem =>
    obtain ⟨⟨hc, -⟩, -⟩ := Option.ite_some_none_eq_some.mp hk
    refine h.foreign hstep ?_
    rw [show k.view = _ from hview]
    exact foreign_test (hsem sem rfl) fun r => not_waits_of_inCode hc r
  | v sem =>
    refine h.foreign hstep ?_
    rw [show k.view = _ from hview]
    exact foreign_give (hsem sem rfl)
  | handlerV sem =>
    refine h.foreign hstep ?_
    rw [show k.view = _ from hview]
    exact foreign_give (hsem sem rfl)
  | resume =>
    cases hw : s.sems.kernel.current.resume.waitsOn with
    | none =>
      refine h.foreign hstep ?_
      simp only [Kernel.effect, hw] at hview
      rw [show k.view = _ from hview]
      exact Foreign.refl
    | some sem =>
      simp only [Kernel.effect, hw] at hview
      have hwaits : s.sems.kernel.view.waits s.sems.kernel.currentThread = some sem := hw
      by_cases hr : ∃ r, ref r = sem
      · obtain ⟨r, rfl⟩ := hr
        exact h.retest hstep hwaits hview
      · refine h.foreign hstep ?_
        rw [show k.view = _ from hview]
        refine foreign_test (fun r heq => hr ⟨r, heq⟩) fun r heq => hr ⟨r, ?_⟩
        rw [hwaits] at heq
        exact (Option.some.inj heq).symm
  | _ =>
    refine h.foreign hstep ?_
    rw [show k.view = _ from hview]
    exact Foreign.refl

/-- Every step of the rest of the system. -/
theorem Good.other (h : Good ref s) {l : SemTable.Label} {sems : SemTable.System}
    (ha : s.allows l = true) (hstep : SemTable.step s.sems l = some sems) :
    Good ref { s with sems := sems } := by
  have hcreated := h.rel.created_ref
  rcases SemTable.step_cases h.rel.inv hstep with
    ⟨name, semval, rfl, -, ⟨-, rfl⟩ | ⟨id, -, -, -, -, rfl⟩⟩ |
    ⟨name, -, -, rfl⟩ | ⟨name, e, rfl, -, hl, rfl⟩ | ⟨name, e, rfl, hc, hl, rfl⟩ |
    ⟨c, rfl, -, -, rfl⟩ | ⟨l', k, rfl, hallow, hk, rfl⟩
  · exact h.foreign hstep Foreign.refl
  · refine h.foreign hstep ?_
    show Foreign ref s.sems.kernel.view (s.sems.kernel.newSemaphore semval.toInt).view
    rw [Threads.view_newSemaphore]
    exact foreign_create hcreated _
  · exact h.foreign hstep Foreign.refl
  · have hname : name ≠ nameFirst ∧ name ≠ nameSecond := by
      simp only [System.allows, decide_eq_true_eq] at ha
      exact ha.2
    refine h.foreign hstep ?_
    simp only [SemTable.System.signal, hl]
    rw [Threads.view_V]
    exact foreign_give fun r => h.rel.lookup_ne hl hname r
  · have hname : name ≠ nameFirst ∧ name ≠ nameSecond := by
      simp only [System.allows, decide_eq_true_eq] at ha
      exact ha.2
    refine h.foreign hstep ?_
    simp only [SemTable.System.wait, hl]
    rw [Threads.view_P]
    exact foreign_test (fun r => h.rel.lookup_ne hl hname r) fun r =>
      not_waits_of_inCode (SemTable.idleCode_iff.mp hc).2.1 r
  · exact h.foreign hstep Foreign.refl
  · refine h.kernel hstep hk fun sem hsem r => ?_
    simp only [System.allows, decide_eq_true_eq] at ha
    refine h.rel.ref_ne ((SemTable.allows_iff.mp hallow).2.1 sem hsem) ?_ ?_ r
    · exact fun heq => ha.2.1 (by rw [hsem, heq])
    · exact fun heq => ha.2.2 (by rw [hsem, heq])

/-! ## Steps of the two processes -/

/-- Who waits after the process `x`, which runs, has moved to another point. -/
theorem Rel.waiters_update (h : Rel ref s) (hcur : s.sems.kernel.currentThread = (s.proc x).thread)
    (hc : s.sems.kernel.inCode = true) (p : Process) {t : Tid} {r : Ref}
    (hw : s.sems.kernel.view.waits t = some (ref r)) :
    ∃ y, t = (s.proc y).thread ∧ (update s.proc x p y).point.awaits y = some r := by
  obtain ⟨y, rfl, hy⟩ := h.waiters t r hw
  have hyx : y ≠ x := by
    rintro rfl
    rw [← hcur] at hw
    exact not_waits_of_inCode hc r hw
  exact ⟨y, rfl, by rwa [update_of_ne hyx]⟩

theorem thread_update {p : Process} (hp : p.thread = (s.proc x).thread) (y : Side) :
    (update s.proc x p y).thread = (s.proc y).thread := by
  by_cases hy : y = x
  · subst hy
    rwa [update_self]
  · rw [update_of_ne hy]

/-- The process `x` calls `P` on `ref r` and is then at `pt`. -/
theorem Good.test (h : Good ref s) {r : Ref} {pt : Point} {l : SemTable.Label}
    (hcur : s.sems.kernel.currentThread = (s.proc x).thread) (hc : s.sems.kernel.inCode = true)
    (hr : pt.awaits x = some r) (hstep : SemTable.step s.sems l = some u.sems)
    (hline : u.wLineBlock = s.wLineBlock) (havail : u.synchWriteAvail = s.synchWriteAvail)
    (hview : u.sems.kernel.view = s.sems.kernel.view.apply (s.sems.kernel.testEffect (ref r)))
    (hproc : u.proc = update s.proc x { s.proc x with point := pt })
    (hturns : TurnsInv (Turns.test { abs ref s with
      putBusy := u.putBusy, output := u.output, aborted := u.aborted } x r pt)) :
    Good ref u := by
  refine ⟨h.rel.next hstep hline havail (fun y => ?_) fun t r' ht => ?_, ?_⟩
  · rw [hproc]
    exact thread_update (p := { s.proc x with point := pt }) rfl y
  · rw [hproc]
    rcases waits_of_test h.rel hview ht with ⟨rfl, rfl⟩ | ⟨-, hold⟩
    · exact ⟨x, hcur, by rwa [update_self]⟩
    · exact h.rel.waiters_update hcur hc _ hold
  · rw [abs_test h.rel h.turns hcur hr hview hproc]
    exact hturns

/-- The process `x` calls `V` on `ref r` and is then at `pt`. -/
theorem Good.give (h : Good ref s) {r : Ref} {pt : Point} {l : SemTable.Label}
    {sems : SemTable.System} (hcur : s.sems.kernel.currentThread = (s.proc x).thread)
    (hc : s.sems.kernel.inCode = true) (hr : pt.awaits x = none)
    (hw : ((abs ref s).proc x).waiting = false) (hstep : SemTable.step s.sems l = some sems)
    (hview : sems.kernel.view = s.sems.kernel.view.give (ref r))
    (hturns : TurnsInv ((abs ref s).give x r pt)) : Good ref (s.goto x sems pt) := by
  refine ⟨h.rel.next hstep rfl rfl (thread_update rfl) fun t r' ht => ?_, ?_⟩
  · rw [show (s.goto x sems pt).sems.kernel.view = _ from hview] at ht
    exact h.rel.waiters_update hcur hc _ ht
  · rw [abs_give (u := s.goto x sems pt) h.rel h.turns hr hw hview rfl rfl rfl rfl]
    exact hturns

/-- The process `x` goes on to `p` while the semaphores stay as they are. -/
theorem abs_goOn (h : Rel ref s) {p : Process} (hp : p.thread = (s.proc x).thread)
    (hr : p.point.awaits x = none) (hview : u.sems.kernel.view = s.sems.kernel.view)
    (hproc : u.proc = update s.proc x p) (hbusy : u.putBusy = s.putBusy)
    (hout : u.output = s.output) (hrun : u.aborted = s.aborted) :
    abs ref u = (abs ref s).setProc x ⟨p.point, false, p.left, p.printed⟩ := by
  apply Turns.ext
  · show (fun r' => (u.sems.kernel.view.sems (ref r')).value) = _
    rw [hview]
    rfl
  · show (fun y => absProc ref u.sems.kernel.view y (u.proc y)) = _
    rw [hproc, hview]
    refine absProc_update h hp (w := s.sems.kernel.view.waits (s.proc x).thread)
      (Function.update_eq_self _ _).symm ?_
    simp [absProc, hr]
  · exact hbusy
  · exact hout
  · exact hrun

theorem view_of_ret {sems sems' : SemTable.System} (hstep : SemTable.step sems .ret = some sems') :
    sems'.kernel.view = sems.kernel.view := by
  obtain ⟨-, hmap⟩ := Option.ite_none_right_eq_some.mp hstep
  obtain ⟨c, -, rfl⟩ := Option.map_eq_some_iff.mp hmap
  rfl

/-- The process `x` goes on to `p` when its system call returns. -/
theorem Good.goOn (h : Good ref s) (hcur : s.sems.kernel.currentThread = (s.proc x).thread)
    (hc : s.sems.kernel.inCode = true) (hw : ((abs ref s).proc x).waiting = false)
    {p : Process} (hp : p.thread = (s.proc x).thread) (hr : p.point.awaits x = none)
    {sems : SemTable.System} (hstep : SemTable.step s.sems .ret = some sems)
    (hturns : TurnsInv ((abs ref s).setProc x
      ⟨p.point, ((abs ref s).proc x).waiting, p.left, p.printed⟩)) :
    Good ref { s with sems := sems, proc := update s.proc x p } := by
  have hview := view_of_ret hstep
  refine ⟨h.rel.next hstep rfl rfl (thread_update hp) fun t r ht => ?_, ?_⟩
  · have hold : s.sems.kernel.view.waits t = some (ref r) := by
      rw [← hview]
      exact ht
    exact h.rel.waiters_update hcur hc p hold
  · rw [hw] at hturns
    rw [abs_goOn (u := { s with sems := sems, proc := update s.proc x p }) h.rel hp hr hview rfl rfl
      rfl rfl]
    exact hturns

theorem Rel.lookup_down (h : Rel ref s) (x : Side) :
    ∃ e, s.sems.table.lookup x.downName = some e ∧ e.sem = ref x.takes := by
  cases x with
  | ping =>
    obtain ⟨i, hat⟩ := h.first
    exact ⟨_, h.inv.table.lookup_eq hat, rfl⟩
  | pong =>
    obtain ⟨i, hat⟩ := h.second
    exact ⟨_, h.inv.table.lookup_eq hat, rfl⟩

theorem Rel.lookup_up (h : Rel ref s) (x : Side) :
    ∃ e, s.sems.table.lookup x.upName = some e ∧ e.sem = ref x.gives := by
  cases x with
  | ping =>
    obtain ⟨i, hat⟩ := h.second
    exact ⟨_, h.inv.table.lookup_eq hat, rfl⟩
  | pong =>
    obtain ⟨i, hat⟩ := h.first
    exact ⟨_, h.inv.table.lookup_eq hat, rfl⟩

/-- The kernel after a step of `SemTable` that is a step of the thread system. -/
theorem kernel_of_step {sems sems' : SemTable.System} {l : Threads.Label} (h : SysInv sems)
    (hstep : SemTable.step sems (.kernel l) = some sems') :
    sems'.kernel.view = sems.kernel.view.apply (sems.kernel.effect l) := by
  obtain ⟨-, hmap⟩ := Option.ite_none_right_eq_some.mp hstep
  obtain ⟨k, hk, rfl⟩ := Option.map_eq_some_iff.mp hmap
  exact Threads.view_step h.kernel h.unforked hk

theorem view_of_down {sems sems' : SemTable.System} {name : Str} {e : SemTable.Entry}
    (hl : sems.table.lookup name = some e) (hstep : SemTable.step sems (.down name) = some sems') :
    sems'.kernel.view = sems.kernel.view.apply (sems.kernel.testEffect e.sem) := by
  obtain ⟨-, rfl⟩ := Option.ite_some_none_eq_some.mp hstep
  simp only [SemTable.System.wait, hl, SemTable.System.afterCall]
  exact Threads.view_P e.sem

theorem view_of_up {sems sems' : SemTable.System} {name : Str} {e : SemTable.Entry}
    (hl : sems.table.lookup name = some e) (hstep : SemTable.step sems (.up name) = some sems') :
    sems'.kernel.view = sems.kernel.view.give e.sem := by
  obtain ⟨-, rfl⟩ := Option.ite_some_none_eq_some.mp hstep
  simp only [SemTable.System.signal, hl, SemTable.System.afterCall]
  exact Threads.view_V e.sem

/-- Every step of a process in its loop. -/
theorem Good.act (h : Good ref s) (hcur : s.sems.kernel.currentThread = (s.proc x).thread)
    (hc : s.sems.kernel.inCode = true) (hact : s.act x = some u) : Good ref u := by
  have hwait : ((abs ref s).proc x).waiting = false := by
    have hnot : ∀ r, s.sems.kernel.view.waits s.sems.kernel.currentThread ≠ some (ref r) :=
      not_waits_of_inCode hc
    rw [hcur] at hnot
    simp only [abs, absProc]
    split
    · simpa using hnot _
    · rfl
  have hturns := h.turns.act hwait
  have hpoint : ((abs ref s).proc x).point = (s.proc x).point := rfl
  unfold Turns.act at hturns
  rw [hpoint] at hturns
  unfold System.act at hact
  cases hp : (s.proc x).point with
  | down =>
    simp only [hp] at hact hturns
    obtain ⟨-, hmap⟩ := Option.ite_none_left_eq_some.mp hact
    obtain ⟨sems, hstep, rfl⟩ := Option.map_eq_some_iff.mp hmap
    obtain ⟨e, hl, he⟩ := h.rel.lookup_down x
    have hview := view_of_down hl hstep
    rw [he] at hview
    simp only [hl, reduceCtorEq, if_false]
    exact h.test hcur hc rfl hstep rfl rfl hview rfl hturns
  | inDown =>
    simp only [hp] at hact hturns
    obtain ⟨sems, hstep, rfl⟩ := Option.map_eq_some_iff.mp hact
    exact h.goOn hcur hc hwait (p := { s.proc x with point := .print }) rfl rfl hstep hturns
  | print =>
    simp only [hp] at hact hturns
    obtain ⟨sems, hstep, rfl⟩ := Option.map_eq_some_iff.mp hact
    have hview := kernel_of_step h.rel.inv hstep
    rw [← h.rel.line] at hview
    exact h.test hcur hc rfl hstep rfl rfl hview rfl hturns
  | inLock =>
    simp only [hp] at hact hturns
    cases hbusy : s.putBusy with
    | true =>
      rw [show (abs ref s).putBusy = true from hbusy] at hturns
      exact absurd hturns.running (by simp)
    | false =>
      rw [show (abs ref s).putBusy = false from hbusy] at hturns
      simp only [hbusy] at hact hturns
      obtain ⟨sems, hstep, rfl⟩ := Option.map_eq_some_iff.mp hact
      have hview := kernel_of_step h.rel.inv hstep
      rw [← h.rel.avail] at hview
      exact h.test hcur hc rfl hstep rfl rfl hview rfl hturns
  | inWait =>
    simp only [hp] at hact hturns
    obtain ⟨sems, hstep, rfl⟩ := Option.map_eq_some_iff.mp hact
    have hview := kernel_of_step h.rel.inv hstep
    rw [← h.rel.line] at hview
    exact h.give hcur hc rfl hwait hstep hview hturns
  | unlocked =>
    simp only [hp] at hact hturns
    let p : Process := { s.proc x with point := .up, printed := (s.proc x).printed + 1 }
    have hu : u = { s with proc := update s.proc x p } := (Option.some.inj hact).symm
    have habs := abs_goOn (u := { s with proc := update s.proc x p }) (p := p) h.rel rfl rfl rfl rfl
      rfl rfl rfl
    rw [hu]
    refine ⟨h.rel.procs (thread_update rfl) fun t r ht => h.rel.waiters_update hcur hc p ht, ?_⟩
    rw [habs, ← hwait]
    exact hturns
  | up =>
    simp only [hp] at hact hturns
    obtain ⟨sems, hstep, rfl⟩ := Option.map_eq_some_iff.mp hact
    obtain ⟨e, hl, he⟩ := h.rel.lookup_up x
    have hview := view_of_up hl hstep
    rw [he] at hview
    simp only [hl, reduceCtorEq, if_false]
    exact h.give hcur hc rfl hwait hstep hview hturns
  | inUp =>
    simp only [hp] at hact hturns
    obtain ⟨sems, hstep, rfl⟩ := Option.map_eq_some_iff.mp hact
    exact h.goOn hcur hc hwait (p := { s.proc x with point := .down, left := (s.proc x).left - 1 })
      rfl rfl hstep hturns

/-- The console interrupt. -/
theorem Good.writeDone (h : Good ref s) (hbusy : s.putBusy = true) {sems : SemTable.System}
    (hstep : SemTable.step s.sems (.kernel (.handlerV s.synchWriteAvail)) = some sems) :
    Good ref { s with sems := sems, putBusy := false } := by
  have hview := kernel_of_step h.rel.inv hstep
  rw [← h.rel.avail] at hview
  have hle := h.turns.value_le .synchWriteAvail
  have hnonneg := h.turns.nonneg .synchWriteAvail
  have hwrap := Threads.wrap32_of_range (n := (abs ref s).value .synchWriteAvail + 1) (by omega)
    (by omega)
  have habs : abs ref { s with sems := sems, putBusy := false } = (abs ref s).writeDone := by
    apply Turns.ext
    · show (fun r' => (sems.kernel.view.sems (ref r')).value) = _
      rw [hview]
      refine (abs_value_update h.rel (View.give_sems _ _)).trans ?_
      congr 1
    · show (fun y => absProc ref sems.kernel.view y (s.proc y)) = _
      rw [hview]
      rfl
    · rfl
    · rfl
    · rfl
  refine ⟨h.rel.next hstep rfl rfl (fun _ => rfl) fun t r ht => h.rel.waiters t r ?_, ?_⟩
  · rw [show System.sems { s with sems := sems, putBusy := false } = sems from rfl, hview] at ht
    exact ht
  · rw [habs]
    exact h.turns.writeDone hbusy

theorem good_step {l : Label} (h : Good ref s) (hstep : step s l = some u) : Good ref u := by
  cases l with
  | act x =>
    obtain ⟨⟨-, hc, hcur⟩, hact⟩ := Option.ite_none_right_eq_some.mp hstep
    exact h.act hcur hc hact
  | writeDone =>
    obtain ⟨⟨-, hbusy⟩, hmap⟩ := Option.ite_none_right_eq_some.mp hstep
    obtain ⟨sems, hsems, rfl⟩ := Option.map_eq_some_iff.mp hmap
    exact h.writeDone hbusy hsems
  | other l =>
    obtain ⟨⟨-, ha⟩, hmap⟩ := Option.ite_none_right_eq_some.mp hstep
    obtain ⟨sems, hsems, rfl⟩ := Option.map_eq_some_iff.mp hmap
    exact h.other ha hsems

end Steps

/-! ## Runs -/

/-- The two processes are about to enter their loops: "First" has the value one and "Second" the
value zero, nobody prints and nothing has been printed. How often each goes round its loop is
free, and so is everything else in the system. -/
structure Start (s : System) : Prop where
  inv : SysInv s.sems
  first : ∃ i e, s.sems.table.At i e ∧ e.name = nameFirst ∧ (s.sems.kernel.sems e.sem).value = 1 ∧
    ∀ t, s.sems.kernel.view.waits t ≠ some e.sem
  second : ∃ i e, s.sems.table.At i e ∧ e.name = nameSecond ∧ (s.sems.kernel.sems e.sem).value = 0 ∧
    ∀ t, s.sems.kernel.view.waits t ≠ some e.sem
  line : (s.sems.kernel.sems s.wLineBlock).value = 1 ∧ s.wLineBlock < s.sems.kernel.numSems ∧
    s.sems.table.owns s.wLineBlock = false ∧ ∀ t, s.sems.kernel.view.waits t ≠ some s.wLineBlock
  avail : (s.sems.kernel.sems s.synchWriteAvail).value = 0 ∧
    s.synchWriteAvail < s.sems.kernel.numSems ∧ s.sems.table.owns s.synchWriteAvail = false ∧
    ∀ t, s.sems.kernel.view.waits t ≠ some s.synchWriteAvail
  threads : (s.proc .ping).thread ≠ (s.proc .pong).thread
  points : ∀ x, (s.proc x).point = .down ∧ (s.proc x).printed = 0
  console : s.putBusy = false ∧ s.output = [] ∧ s.aborted = false

/-- The semaphore objects when the two of the table are `f` and `g`. -/
def refs (s : System) (f g : SemId) : Ref → SemId
  | .first => f
  | .second => g
  | .wLineBlock => s.wLineBlock
  | .synchWriteAvail => s.synchWriteAvail

theorem Start.good {s : System} (h : Start s) : ∃ ref, Good ref s := by
  obtain ⟨i, ⟨name, f⟩, hfirst, rfl, hf, hfw⟩ := h.first
  obtain ⟨j, ⟨name, g⟩, hsecond, rfl, hg, hgw⟩ := h.second
  obtain ⟨hl, hlt, hlo, hlw⟩ := h.line
  obtain ⟨ha, hat, hao, haw⟩ := h.avail
  obtain ⟨hbusy, hout, hrun⟩ := h.console
  let ref := refs s f g
  have hshare : ∀ x, ((abs ref s).proc x).share = ⟨0, 0, 0, 0, 0⟩ := by
    intro x
    unfold Proc.share
    rw [show ((abs ref s).proc x).point = .down from (h.points x).1]
    rfl
  refine ⟨ref, ⟨h.inv, ⟨i, hfirst⟩, ⟨j, hsecond⟩, rfl, rfl, ?_, ⟨hlt, hat⟩, ⟨hlo, hao⟩, h.threads, ?_⟩, ?_⟩
  · intro heq
    rw [show s.wLineBlock = s.synchWriteAvail from heq, ha] at hl
    cases hl
  · intro t r hw
    cases r with
    | first => exact absurd hw (hfw t)
    | second => exact absurd hw (hgw t)
    | wLineBlock => exact absurd hw (hlw t)
    | synchWriteAvail => exact absurd hw (haw t)
  · have hfirst' : (abs ref s).value .first = 1 := hf
    have hsecond' : (abs ref s).value .second = 0 := hg
    have hline' : (abs ref s).value .wLineBlock = 1 := hl
    have havail' : (abs ref s).value .synchWriteAvail = 0 := ha
    have hout' : (abs ref s).output = [] := hout
    refine ⟨?_, ?_, ?_, ?_, ?_, ?_, ?_, hrun⟩
    · intro r
      cases r <;> simp [hfirst', hsecond', hline', havail']
    · simp [hfirst', hsecond', hshare]
    · simp [hline', hshare]
    · simp [havail', hshare, show (abs ref s).putBusy = false from hbusy]
    · rw [hout']
      rfl
    · simp [hout', hsecond', hshare, Side.odd]
    · intro x
      rw [hout', hshare, show ((abs ref s).proc x).printed = 0 from (h.points x).2]
      rfl

/-- The output is the beginning of `ABABAB…`; the console's assertion has not failed; and the
characters of each process are those of its print calls that have returned, and of the one it is
in once that has put its character. -/
structure Alternating (s : System) : Prop where
  output : s.output = alternation s.output.length
  running : s.aborted = false
  printed : ∀ x, s.output.count x.char = (s.proc x).printed +
    if (s.proc x).point = .inWait ∨ (s.proc x).point = .unlocked then 1 else 0

theorem share_wrote (pt : Point) (w : Bool) :
    (share pt w).wrote = if pt = .inWait ∨ pt = .unlocked then 1 else 0 := by
  cases pt <;> cases w <;> decide

theorem Good.alternating {ref : Ref → SemId} {s : System} (h : Good ref s) : Alternating s := by
  refine ⟨h.turns.output, h.turns.running, fun x => ?_⟩
  have hprinted := h.turns.printed x
  unfold Proc.share at hprinted
  rw [share_wrote] at hprinted
  exact hprinted

/-- Whatever the numbers of turns and whatever the interleaving of the two processes, the other
threads and the interrupts, the output is at every moment a beginning of `ABABAB…` with no
character lost and none written twice. -/
theorem alternates {s : System} (h : Start s) (ls : List Label) :
    Runs.AllStates step Alternating s ls := by
  obtain ⟨ref, hgood⟩ := h.good
  exact (Runs.allStates_of_invariant (fun _ _ _ h hs => good_step h hs) hgood ls).mono
    fun _ h => h.alternating

/-- The console's semaphores, and `test/PingPong.c`: the two names, and a thread for each program. -/
def startRun : List SemTable.Label :=
  [.kernel (.newSemaphore 0), .kernel (.newSemaphore 0), .kernel (.newSemaphore 1),
    .kernel (.newSemaphore 1), .createSemaphore nameFirst 1, .createSemaphore nameSecond 0,
    .kernel .newThread, .kernel (.fork 1), .kernel .newThread, .kernel (.fork 2)]

/-- The system that `startRun` leads to. -/
def startSems : SemTable.System := (Runs.run SemTable.step SemTable.boot startRun).getD SemTable.boot

/-- `Ping` with `n` turns and `Pong` with `m`, started by `PingPong.c`. -/
def pingPong (n m : Nat) : System where
  sems := startSems
  proc
    | .ping => ⟨1, .down, n, 0⟩
    | .pong => ⟨2, .down, m, 0⟩
  putBusy := false
  output := []
  aborted := false
  wLineBlock := 3
  synchWriteAvail := 1

theorem sysInv_startSems : SysInv startSems := by
  have hsome : (Runs.run SemTable.step SemTable.boot startRun).isSome = true := by decide
  obtain ⟨sems, hrun⟩ := Option.isSome_iff_exists.mp hsome
  have hinv := (SemTable.sysInv_throughout startRun).of_run hrun
  unfold startSems
  rwa [hrun]

theorem startSems_entries : startSems.table.semTab 0 = some ⟨nameFirst, 4⟩ ∧
    startSems.table.semTab 1 = some ⟨nameSecond, 5⟩ ∧ startSems.table.owns 3 = false ∧
    startSems.table.owns 1 = false := by decide

theorem startSems_values : startSems.kernel.numSems = 6 ∧ (startSems.kernel.sems 4).value = 1 ∧
    (startSems.kernel.sems 5).value = 0 ∧ (startSems.kernel.sems 3).value = 1 ∧
    (startSems.kernel.sems 1).value = 0 := by decide

theorem startSems_waits (t : Tid) : startSems.kernel.view.waits t = none := by
  by_cases ht : t < 3
  · have hsmall : ∀ t < 3, startSems.kernel.view.waits t = none := by decide
    exact hsmall t ht
  · have hunused := sysInv_startSems.kernel.places.unused t (Nat.not_lt.mp ht)
    show (startSems.kernel.threads t).resume.waitsOn = none
    rw [hunused]
    rfl

theorem start_pingPong (n m : Nat) : Start (pingPong n m) := by
  obtain ⟨hfirst, hsecond, hline, havail⟩ := startSems_entries
  obtain ⟨hnum, hf, hg, hl, ha⟩ := startSems_values
  have hwaits : ∀ t sem, startSems.kernel.view.waits t ≠ some sem := by
    intro t sem
    rw [startSems_waits]
    simp
  have hlt : ∀ sem < 6, sem < startSems.kernel.numSems := fun sem hsem => by rwa [hnum]
  exact {
    inv := sysInv_startSems
    first := ⟨0, _, ⟨by decide, hfirst⟩, rfl, hf, fun t => hwaits t _⟩
    second := ⟨1, _, ⟨by decide, hsecond⟩, rfl, hg, fun t => hwaits t _⟩
    line := ⟨hl, hlt 3 (by decide), hline, fun t => hwaits t _⟩
    avail := ⟨ha, hlt 1 (by decide), havail, fun t => hwaits t _⟩
    threads := by simp [pingPong]
    points := fun x => by cases x <;> exact ⟨rfl, rfl⟩
    console := ⟨rfl, rfl, rfl⟩ }

/-- `Ping` prints its character and sleeps; `Pong` waits for its turn; the console interrupt comes
while the main thread runs; `Ping` gives the token on and waits, and `Pong` prints. -/
def demoRun : List Label :=
  let sched (l : Threads.Label) : Label := .other (.kernel l)
  [sched .yield, sched .resume, .act .ping, .act .ping, .act .ping, .act .ping, sched .resume,
    .act .pong, sched .resume, .writeDone, sched .timerYield, sched .resume, .act .ping, .act .ping,
    .act .ping, .act .ping, .act .ping, sched .resume, sched .timerYield, sched .resume, .act .pong,
    .act .pong, .act .pong]

/-- `demoRun` with three turns of `Ping` and two of `Pong`. -/
theorem alternates_demoRun :
    Runs.AllStates step Alternating (pingPong 3 2) demoRun ∧
      (Runs.run step (pingPong 3 2) demoRun).map System.output = some ['A', 'B'] :=
  ⟨alternates (start_pingPong 3 2) demoRun, by decide +kernel⟩

end Nachos.Userprog.Alternation
