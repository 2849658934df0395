import Mathlib.Data.Fintype.Basic
import Nachos.Threads.Effects
import Nachos.Userprog.SemTable

/-!
# Threads that share a device

A driver such as `SynchDisk` or `SynchConsole` is code that many threads run, over a device and
a few semaphores; the device's interrupt handlers call `V`. A `Client` is such code, cut where
the scheduler can switch threads: at the ends of `P` and `V`, which turn interrupts on again.

`step` runs any number of threads through a client, on the thread system of `Threads.Kernel`
and with everything else the threads and the scheduler do in between. `astep` forgets the
scheduler: there a thread that waits may test the value of its semaphore at any time.
`sim_step`: every step of the first system is a step of the second or none, so that an invariant
of the second holds of the code (`allStates_of_shared`).
-/

namespace Nachos.Devices

open Function (update update_of_ne update_self)
open Threads (Kernel SemId Tid View wrap32)
open Userprog.SemTable (semOf ownCode)

/-- The call at the end of a piece of code. -/
inductive Op (R : Type)
  | none
  | p (r : R)
  | v (r : R)

/-- The semaphore that a thread waits for after the call. -/
def Op.awaits {R : Type} : Op R → Option R
  | .p r => some r
  | _ => .none

/-- A piece of code: what it does to the device, its call, and the point where the thread is
then. -/
structure Move (R Pt δ : Type) where
  device : δ
  op : Op R
  point : Pt

/-- Code that threads run over a device of type `δ` and the semaphores `R`. `A` are the
arguments of its routines, and `ι` are the interrupts. -/
structure Client (R Pt δ A ι : Type) where
  /-- The thread is not in a routine of the client. -/
  outside : Pt → Bool
  /-- The semaphore in whose `P` a thread at the point is. -/
  awaits : Pt → Option R
  /-- An ASSERT has failed. -/
  stopped : δ → Bool
  /-- The next piece of code of a thread. -/
  next : A → Tid → Pt → δ → Option (Move R Pt δ)
  /-- What is recorded when a thread gets a unit. -/
  taken : R → Tid → Pt → δ → δ
  /-- An interrupt handler, and the semaphore whose `V` it calls. -/
  irq : ι → δ → Option (δ × Option R)
  awaits_next : ∀ a t pt d m, next a t pt d = some m → awaits m.point = m.op.awaits

variable {R Pt δ A ι : Type}

/-! ## The code on the thread system -/

structure System (Pt δ : Type) where
  kernel : Kernel
  point : Tid → Pt
  device : δ

inductive Label (A ι : Type)
  /-- The current thread runs its next piece of the client's code. -/
  | act (a : A)
  | irq (i : ι)
  /-- Any other step of a thread or of the scheduler. -/
  | other (l : Threads.Label)

namespace System

variable [Fintype R] (C : Client R Pt δ A ι) (ref : R → SemId) (s : System Pt δ)

/-- The current thread. -/
def cur : Tid := s.kernel.currentThread

/-- A piece of code of the current thread. -/
def perform (m : Move R Pt δ) : Option (System Pt δ) :=
  match m.op with
  | .none => some { s with point := update s.point s.cur m.point, device := m.device }
  | .p r =>
    (Threads.step s.kernel (.p (ref r))).map fun k =>
      { kernel := k
        point := update s.point s.cur m.point
        device := if (s.kernel.sems (ref r)).value = 0 then m.device
          else C.taken r s.cur m.point m.device }
  | .v r =>
    (Threads.step s.kernel (.v (ref r))).map fun k =>
      { kernel := k, point := update s.point s.cur m.point, device := m.device }

/-- Interrupt handlers run from `OneTick` or while the CPU idles. -/
def interruptible : Bool :=
  s.kernel.mode = .idling ∨ s.kernel.inCode ∧ s.kernel.level = .intOn

def interrupt (d : δ) : Option R → Option (System Pt δ)
  | none => if s.interruptible then some { s with device := d } else none
  | some r => (Threads.step s.kernel (.handlerV (ref r))).map fun k =>
    { s with kernel := k, device := d }

/-- Code outside the client does not use its semaphores. -/
def allows (l : Threads.Label) : Bool :=
  (ownCode l → C.outside (s.point s.cur)) ∧ ∀ r, semOf l ≠ some (ref r)

/-- The dispatched thread continues; if it is in a `P` of the client it may get a unit. -/
def resumeDevice : δ :=
  match C.awaits (s.point s.cur) with
  | none => s.device
  | some r =>
    if s.kernel.current.resume.waitsOn = some (ref r) ∧ (s.kernel.sems (ref r)).value ≠ 0 then
      C.taken r s.cur (s.point s.cur) s.device
    else s.device

end System

/-- The step function. -/
def step [Fintype R] (C : Client R Pt δ A ι) (ref : R → SemId) (s : System Pt δ) :
    Label A ι → Option (System Pt δ)
  | .act a =>
    if C.stopped s.device = false ∧ s.kernel.inCode then
      (C.next a s.cur (s.point s.cur) s.device).bind (s.perform C ref)
    else none
  | .irq i =>
    if C.stopped s.device = false then
      (C.irq i s.device).bind fun r => s.interrupt ref r.1 r.2
    else none
  | .other l =>
    if C.stopped s.device = false ∧ s.allows C ref l then
      (Threads.step s.kernel l).map fun k =>
        { s with kernel := k, device := if l = .resume then s.resumeDevice C ref else s.device }
    else none

/-! ## Without the scheduler -/

/-- The values of the semaphores, and where the threads are. -/
@[ext] structure Shared (R Pt δ : Type) where
  value : R → Int
  /-- The thread is in a `P` and has no unit yet. -/
  waiting : Tid → Bool
  point : Tid → Pt
  device : δ

inductive SharedLabel (A ι : Type)
  | act (t : Tid) (a : A)
  /-- A thread that waits tests the value again. -/
  | retest (t : Tid)
  | irq (i : ι)

namespace Shared

variable [DecidableEq R] (C : Client R Pt δ A ι) (a : Shared R Pt δ)

/-- One test of the value in `P`. -/
def test (t : Tid) (r : R) : Shared R Pt δ :=
  if a.value r = 0 then { a with waiting := update a.waiting t true }
  else
    { a with
      value := update a.value r (wrap32 (a.value r - 1))
      waiting := update a.waiting t false
      device := C.taken r t (a.point t) a.device }

def give (r : R) : Shared R Pt δ :=
  { a with value := update a.value r (wrap32 (a.value r + 1)) }

/-- The thread is at another point, and the device has changed. -/
def goto (t : Tid) (pt : Pt) (d : δ) : Shared R Pt δ :=
  { a with point := update a.point t pt, device := d }

def move (t : Tid) (m : Move R Pt δ) : Shared R Pt δ :=
  match m.op with
  | .none => a.goto t m.point m.device
  | .p r => (a.goto t m.point m.device).test C t r
  | .v r => (a.goto t m.point m.device).give r

def interrupt (d : δ) : Option R → Shared R Pt δ
  | none => { a with device := d }
  | some r => { a with device := d }.give r

end Shared

def astep [DecidableEq R] (C : Client R Pt δ A ι) (a : Shared R Pt δ) :
    SharedLabel A ι → Option (Shared R Pt δ)
  | .act t x =>
    if C.stopped a.device = false ∧ a.waiting t = false then
      (C.next x t (a.point t) a.device).map (a.move C t)
    else none
  | .retest t =>
    if C.stopped a.device = false ∧ a.waiting t = true then
      (C.awaits (a.point t)).map (a.test C t)
    else none
  | .irq i =>
    if C.stopped a.device = false then
      (C.irq i a.device).map fun r => a.interrupt r.1 r.2
    else none

/-! ## The simulation -/

section Simulation

variable {C : Client R Pt δ A ι} {ref : R → SemId} {s u : System Pt δ}

/-- What ties the semaphores of the client to those of the kernel. -/
structure Rel (C : Client R Pt δ A ι) (ref : R → SemId) (s : System Pt δ) : Prop where
  inv : Threads.Inv s.kernel
  unforked : Threads.Unforked s.kernel
  injective : Function.Injective ref
  created : ∀ r, ref r < s.kernel.numSems
  waiters : ∀ t r, s.kernel.view.waits t = some (ref r) → C.awaits (s.point t) = some r

/-- A step that leaves the client's semaphores and the threads in their `P`s alone. -/
structure Foreign (ref : R → SemId) (v v' : View) : Prop where
  sems : ∀ r, v'.sems (ref r) = v.sems (ref r)
  waits : ∀ t r, v'.waits t = some (ref r) ↔ v.waits t = some (ref r)

theorem Foreign.refl (v : View) : Foreign ref v v := ⟨fun _ => rfl, fun _ _ => Iff.rfl⟩

theorem foreign_create {v : View} (h : ∀ r, ref r < v.numSems) (init : Int) :
    Foreign ref v (v.create init) :=
  ⟨fun r => update_of_ne (Nat.ne_of_lt (h r)) _ _, fun _ _ => Iff.rfl⟩

theorem foreign_give {v : View} {sem : SemId} (h : ∀ r, ref r ≠ sem) : Foreign ref v (v.give sem) :=
  ⟨fun r => update_of_ne (h r) _ _, fun _ _ => Iff.rfl⟩

/-- A thread that is in no `P` of the client tests another semaphore. -/
theorem foreign_test {k : Kernel} {sem : SemId} (h : ∀ r, ref r ≠ sem)
    (ht : ∀ r, k.view.waits k.currentThread ≠ some (ref r)) :
    Foreign ref k.view (k.view.apply (k.testEffect sem)) := by
  have hwaits : ∀ w, (∀ r, w ≠ some (ref r)) → ∀ t r,
      update k.view.waits k.currentThread w t = some (ref r) ↔ k.view.waits t = some (ref r) := by
    intro w hw t r
    by_cases hcur : t = k.currentThread
    · subst hcur
      rw [update_self]
      exact iff_of_false (hw r) (ht r)
    · rw [update_of_ne hcur]
  unfold Kernel.testEffect
  split
  · exact ⟨fun _ => rfl, hwaits _ fun r heq => h r (Option.some.inj heq).symm⟩
  · exact ⟨fun r => update_of_ne (h r) _ _, hwaits _ fun r => by simp⟩

/-- Code outside a `P` is in no `P` of the client. -/
theorem not_waits_of_inCode {k : Kernel} (hc : k.inCode = true) (r : R) :
    k.view.waits k.currentThread ≠ some (ref r) := by
  show k.current.resume.waitsOn ≠ some (ref r)
  rw [(Threads.inCode_iff.mp hc).2]
  simp [Threads.Resume.waitsOn]

theorem numSems_le_step {k k' : Kernel} {l : Threads.Label} (hi : Threads.Inv k)
    (hu : Threads.Unforked k) (h : Threads.step k l = some k') : k.numSems ≤ k'.numSems := by
  have hview := congrArg View.numSems (Threads.view_step hi hu h)
  have hle : k.view.numSems ≤ (k.view.apply (k.effect l)).numSems := by
    cases k.effect l with
    | create init => exact Nat.le_succ _
    | _ => exact Nat.le_refl _
  show k.view.numSems ≤ k'.view.numSems
  rw [hview]
  exact hle

/-- The relation after a step of the kernel, except for who waits. -/
theorem Rel.next (h : Rel C ref s) {l : Threads.Label}
    (hk : Threads.step s.kernel l = some u.kernel)
    (hwaiters : ∀ t r, u.kernel.view.waits t = some (ref r) → C.awaits (u.point t) = some r) :
    Rel C ref u :=
  ⟨Threads.inv_step h.inv hk, Threads.unforked_step h.inv h.unforked hk, h.injective,
    fun r => Nat.lt_of_lt_of_le (h.created r) (numSems_le_step h.inv h.unforked hk), hwaiters⟩

/-- Who is in a `P` after a test by the current thread. -/
theorem waits_of_test (hinj : Function.Injective ref) {k : Kernel} {v : View} {r r' : R} {t : Tid}
    (hview : v = k.view.apply (k.testEffect (ref r))) (ht : v.waits t = some (ref r')) :
    (t = k.currentThread ∧ r' = r) ∨
      (t ≠ k.currentThread ∧ k.view.waits t = some (ref r')) := by
  rcases Threads.waits_of_testEffect hview ht with ⟨hcur, hr⟩ | hother
  · exact Or.inl ⟨hcur, hinj hr⟩
  · exact Or.inr hother

/-- The current thread, at another point, is not in a `P` of the client. -/
theorem Rel.waiters_update (h : Rel C ref s) (hc : s.kernel.inCode = true) (pt : Pt) {t : Tid}
    {r : R} (hw : s.kernel.view.waits t = some (ref r)) :
    C.awaits (update s.point s.cur pt t) = some r := by
  have ht : t ≠ s.cur := by
    rintro rfl
    exact not_waits_of_inCode hc r hw
  rw [update_of_ne ht]
  exact h.waiters t r hw

/-- The rest of the system does nothing to the client's semaphores. -/
theorem foreign_other (h : Rel C ref s) {l : Threads.Label} {k : Kernel}
    (hallows : ∀ r, semOf l ≠ some (ref r))
    (hretest : ¬ (l = .resume ∧ ∃ r, s.kernel.view.waits s.cur = some (ref r)))
    (hk : Threads.step s.kernel l = some k) : Foreign ref s.kernel.view k.view := by
  have hview := Threads.view_step h.inv h.unforked hk
  cases l with
  | newThread =>
    rw [hview]
    exact ⟨fun _ => rfl, fun _ _ => Iff.rfl⟩
  | newSemaphore v =>
    rw [hview]
    exact foreign_create h.created v
  | p sem =>
    obtain ⟨⟨hc, -⟩, -⟩ := Option.ite_some_none_eq_some.mp hk
    rw [hview]
    exact foreign_test (fun r heq => hallows r (congrArg some heq.symm)) (not_waits_of_inCode hc)
  | v sem =>
    rw [hview]
    exact foreign_give fun r heq => hallows r (congrArg some heq.symm)
  | handlerV sem =>
    rw [hview]
    exact foreign_give fun r heq => hallows r (congrArg some heq.symm)
  | resume =>
    rw [hview]
    have hnot : ∀ r, s.kernel.view.waits s.kernel.currentThread ≠ some (ref r) :=
      fun r hr => hretest ⟨rfl, r, hr⟩
    cases hw : s.kernel.current.resume.waitsOn with
    | none =>
      simp only [Kernel.effect, hw]
      exact Foreign.refl _
    | some sem =>
      simp only [Kernel.effect, hw]
      exact foreign_test (fun r heq => hnot r (hw.trans (congrArg some heq.symm))) hnot
  | _ =>
    rw [hview]
    exact Foreign.refl _

theorem resumeDevice_of_not_waits (hnot : ∀ r, s.kernel.view.waits s.cur ≠ some (ref r)) :
    s.resumeDevice C ref = s.device := by
  unfold System.resumeDevice
  split
  · rfl
  · exact if_neg fun hcond => hnot _ hcond.1

variable [Fintype R]

/-- The state without the scheduler. -/
def abs (ref : R → SemId) (s : System Pt δ) : Shared R Pt δ where
  value r := (s.kernel.view.sems (ref r)).value
  waiting t := decide (∃ r, s.kernel.view.waits t = some (ref r))
  point := s.point
  device := s.device

theorem abs_foreign (hpoint : u.point = s.point) (hdevice : u.device = s.device)
    (hview : Foreign ref s.kernel.view u.kernel.view) : abs ref u = abs ref s := by
  apply Shared.ext
  · ext1 r
    exact congrArg Threads.Semaphore.value (hview.sems r)
  · ext1 t
    exact decide_eq_decide.mpr (exists_congr fun r => hview.waits t r)
  · exact hpoint
  · exact hdevice

theorem waiting_of_inCode (hc : s.kernel.inCode = true) : (abs ref s).waiting s.cur = false := by
  refine decide_eq_false ?_
  rintro ⟨r, hr⟩
  exact not_waits_of_inCode hc r hr

variable [DecidableEq R]

/-- One of the client's semaphores changes. -/
theorem values_update (hinj : Function.Injective ref) (r : R) {sem : Threads.Semaphore} {x : Int}
    (hx : sem.value = x) :
    (fun r' => (update s.kernel.view.sems (ref r) sem (ref r')).value) =
      update (abs ref s).value r x := by
  ext1 r'
  by_cases hr : r' = r
  · subst hr
    rw [update_self, update_self, hx]
  · rw [update_of_ne (hinj.ne hr), update_of_ne hr]
    rfl

/-- The current thread is in the `P` of `r` and tests the value. -/
theorem abs_test (hinj : Function.Injective ref) {r : R} {d : δ}
    (hview : u.kernel.view = s.kernel.view.apply (s.kernel.testEffect (ref r)))
    (hdevice : u.device = if (s.kernel.sems (ref r)).value = 0 then d
      else C.taken r s.cur (u.point s.cur) d) :
    abs ref u = Shared.test C { abs ref s with point := u.point, device := d } s.cur r := by
  have hwaits : ∀ (w : Option SemId) (b : Bool), decide (∃ r', w = some (ref r')) = b →
      (fun t => decide (∃ r', update s.kernel.view.waits s.cur w t = some (ref r'))) =
        update (abs ref s).waiting s.cur b := by
    intro w b hb
    ext1 t
    by_cases ht : t = s.cur
    · subst ht
      simp only [update_self]
      exact hb
    · simp only [update_of_ne ht]
      rfl
  unfold Shared.test
  unfold Kernel.testEffect at hview
  by_cases hzero : (s.kernel.sems (ref r)).value = 0
  · rw [if_pos hzero] at hview hdevice
    rw [if_pos (show (abs ref s).value r = 0 from hzero)]
    apply Shared.ext
    · ext1 r'
      show (u.kernel.view.sems (ref r')).value = _
      rw [hview]
      rfl
    · show (fun t => decide (∃ r', u.kernel.view.waits t = some (ref r'))) = _
      rw [hview]
      exact hwaits (some (ref r)) true (decide_eq_true ⟨r, rfl⟩)
    · rfl
    · exact hdevice
  · rw [if_neg hzero] at hview hdevice
    rw [if_neg (show ¬ (abs ref s).value r = 0 from hzero)]
    apply Shared.ext
    · show (fun r' => (u.kernel.view.sems (ref r')).value) = _
      rw [hview]
      exact values_update hinj r rfl
    · show (fun t => decide (∃ r', u.kernel.view.waits t = some (ref r'))) = _
      rw [hview]
      exact hwaits none false (by simp)
    · rfl
    · exact hdevice

theorem abs_give (hinj : Function.Injective ref) {r : R}
    (hview : u.kernel.view = s.kernel.view.give (ref r)) :
    abs ref u = Shared.give { abs ref s with point := u.point, device := u.device } r := by
  apply Shared.ext
  · show (fun r' => (u.kernel.view.sems (ref r')).value) = _
    rw [hview]
    exact values_update hinj r rfl
  · show (fun t => decide (∃ r', u.kernel.view.waits t = some (ref r'))) = _
    rw [hview]
    rfl
  · rfl
  · rfl

/-- The abstract step of a step. -/
def sharedLabel (ref : R → SemId) (s : System Pt δ) : Label A ι → Option (SharedLabel A ι)
  | .act a => some (.act s.cur a)
  | .irq i => some (.irq i)
  | .other l =>
    if l = .resume ∧ ∃ r, s.kernel.view.waits s.cur = some (ref r) then some (.retest s.cur)
    else none

/-- The abstract state takes the step, if there is one. -/
def Follows (C : Client R Pt δ A ι) (a a' : Shared R Pt δ) : Option (SharedLabel A ι) → Prop
  | none => a' = a
  | some l => astep C a l = some a'

/-- A thread in the client. -/
theorem sim_act (h : Rel C ref s) {a : A} (hs : step C ref s (.act a) = some u) :
    Rel C ref u ∧ astep C (abs ref s) (.act s.cur a) = some (abs ref u) := by
  obtain ⟨⟨hrun, hc⟩, hs⟩ := Option.ite_none_right_eq_some.mp hs
  obtain ⟨m, hm, hs⟩ := Option.bind_eq_some_iff.mp hs
  have hawaits := C.awaits_next _ _ _ _ _ hm
  have habs : astep C (abs ref s) (.act s.cur a) = some ((abs ref s).move C s.cur m) := by
    refine Option.ite_none_right_eq_some.mpr ⟨⟨hrun, waiting_of_inCode hc⟩, ?_⟩
    exact Option.map_eq_some_iff.mpr ⟨m, hm, rfl⟩
  rw [habs, Option.some.injEq]
  obtain ⟨device, op, point⟩ := m
  unfold System.perform at hs
  cases op with
  | none =>
    cases hs
    refine ⟨⟨h.inv, h.unforked, h.injective, h.created, fun t r hw => ?_⟩, rfl⟩
    exact h.waiters_update hc point hw
  | p r =>
    obtain ⟨k, hk, rfl⟩ := Option.map_eq_some_iff.mp hs
    have hview := Threads.view_step h.inv h.unforked hk
    refine ⟨h.next hk fun t r' hw => ?_, ?_⟩
    · rcases waits_of_test h.injective hview hw with ⟨rfl, rfl⟩ | ⟨-, hold⟩
      · exact (congrArg C.awaits (update_self ..)).trans hawaits
      · exact h.waiters_update hc point hold
    · symm
      refine abs_test h.injective hview ?_
      show (if _ then _ else _) = if _ then _ else C.taken r s.cur (update s.point s.cur point s.cur) _
      rw [update_self]
  | v r =>
    obtain ⟨k, hk, rfl⟩ := Option.map_eq_some_iff.mp hs
    have hview := Threads.view_step h.inv h.unforked hk
    refine ⟨h.next hk fun t r' hw => ?_, ?_⟩
    · rw [hview] at hw
      exact h.waiters_update hc point hw
    · symm
      exact abs_give h.injective hview

theorem sim_irq (h : Rel C ref s) {i : ι} (hs : step C ref s (.irq i) = some u) :
    Rel C ref u ∧ astep C (abs ref s) (.irq i) = some (abs ref u) := by
  obtain ⟨hrun, hs⟩ := Option.ite_none_right_eq_some.mp hs
  obtain ⟨⟨d, r⟩, hd, hs⟩ := Option.bind_eq_some_iff.mp hs
  have habs : astep C (abs ref s) (.irq i) = some ((abs ref s).interrupt d r) := by
    refine Option.ite_none_right_eq_some.mpr ⟨hrun, ?_⟩
    exact Option.map_eq_some_iff.mpr ⟨(d, r), hd, rfl⟩
  rw [habs, Option.some.injEq]
  cases r with
  | none =>
    obtain ⟨-, rfl⟩ := Option.ite_some_none_eq_some.mp hs
    exact ⟨⟨h.inv, h.unforked, h.injective, h.created, h.waiters⟩, rfl⟩
  | some r =>
    obtain ⟨k, hk, rfl⟩ := Option.map_eq_some_iff.mp hs
    have hview := Threads.view_step h.inv h.unforked hk
    refine ⟨h.next hk fun t r' hw => ?_, ?_⟩
    · rw [hview] at hw
      exact h.waiters t r' hw
    · symm
      exact abs_give h.injective hview

/-- A thread that waits in the client is dispatched and tests the value again. -/
theorem sim_retest (h : Rel C ref s) {r : R} {k : Kernel}
    (hrun : C.stopped s.device = false) (hw : s.kernel.view.waits s.cur = some (ref r))
    (hk : Threads.step s.kernel .resume = some k)
    (hu : u = { s with kernel := k, device := s.resumeDevice C ref }) :
    Rel C ref u ∧ astep C (abs ref s) (.retest s.cur) = some (abs ref u) := by
  subst hu
  have hawaits := h.waiters _ _ hw
  have hwaitsOn : s.kernel.current.resume.waitsOn = some (ref r) := hw
  have hview : k.view = s.kernel.view.apply (s.kernel.testEffect (ref r)) := by
    rw [Threads.view_step h.inv h.unforked hk]
    simp only [Kernel.effect, hwaitsOn]
  have hdevice : s.resumeDevice C ref =
      if (s.kernel.sems (ref r)).value = 0 then s.device
      else C.taken r s.cur (s.point s.cur) s.device := by
    simp only [System.resumeDevice, hawaits, hwaitsOn, true_and, ite_not]
  refine ⟨h.next hk fun t r' ht => ?_, ?_⟩
  · rcases waits_of_test h.injective hview ht with ⟨rfl, rfl⟩ | ⟨-, hold⟩
    · exact hawaits
    · exact h.waiters t r' hold
  · have hwaiting : (abs ref s).waiting s.cur = true := decide_eq_true ⟨r, hw⟩
    refine Option.ite_none_right_eq_some.mpr ⟨⟨hrun, hwaiting⟩, ?_⟩
    refine Option.map_eq_some_iff.mpr ⟨r, hawaits, ?_⟩
    exact (abs_test (u := { s with kernel := k, device := s.resumeDevice C ref }) h.injective hview
      hdevice).symm

/-- Every step is the step `sharedLabel` gives, or none. -/
theorem sim_step (h : Rel C ref s) {l : Label A ι} (hs : step C ref s l = some u) :
    Rel C ref u ∧ Follows C (abs ref s) (abs ref u) (sharedLabel ref s l) := by
  cases l with
  | act a => exact sim_act h hs
  | irq i => exact sim_irq h hs
  | other l =>
    obtain ⟨⟨hrun, hallows⟩, hs⟩ := Option.ite_none_right_eq_some.mp hs
    obtain ⟨k, hk, rfl⟩ := Option.map_eq_some_iff.mp hs
    by_cases hretest : l = .resume ∧ ∃ r, s.kernel.view.waits s.cur = some (ref r)
    · have hlabel : sharedLabel ref s (.other l : Label A ι) = some (.retest s.cur) :=
        if_pos hretest
      rw [hlabel]
      obtain ⟨rfl, r, hw⟩ := hretest
      exact sim_retest h hrun hw hk (by rw [if_pos rfl])
    · have hforeign := foreign_other h (of_decide_eq_true hallows).2 hretest hk
      have hdevice : (if l = .resume then s.resumeDevice C ref else s.device) = s.device := by
        split
        · rename_i hl
          exact resumeDevice_of_not_waits fun r hr => hretest ⟨hl, r, hr⟩
        · rfl
      have hlabel : sharedLabel ref s (.other l : Label A ι) = none := if_neg hretest
      rw [hdevice, hlabel]
      refine ⟨h.next hk fun t r hw => h.waiters t r ((hforeign.waits t r).mp hw), ?_⟩
      exact abs_foreign rfl rfl hforeign

end Simulation

/-! ## The start -/

/-- A thread that the kernel has not created is in no `P`. -/
theorem waits_of_unused {k : Kernel} (h : Threads.Inv k) {t : Tid} (ht : k.numThreads ≤ t) :
    k.view.waits t = none := by
  show (k.threads t).resume.waitsOn = none
  rw [h.places.unused t ht]
  rfl

/-- The kernel after the thread "main" has done some steps. -/
def kernelAfter (ls : List Threads.Label) : Kernel :=
  (Runs.run Threads.step Threads.boot ls).getD Threads.boot

theorem run_kernelAfter {ls : List Threads.Label}
    (h : (Runs.run Threads.step Threads.boot ls).isSome = true) :
    Runs.run Threads.step Threads.boot ls = some (kernelAfter ls) := by
  obtain ⟨k, hk⟩ := Option.isSome_iff_exists.mp h
  unfold kernelAfter
  rw [hk]
  rfl

/-- The client has just been constructed, at any time after the kernel has started: its semaphores
have their initial values, and no thread is in it. -/
structure Start (C : Client R Pt δ A ι) (ref : R → SemId) (init : R → Int) (s : System Pt δ) :
    Prop where
  reachable : ∃ ls, Runs.run Threads.step Threads.boot ls = some s.kernel
  injective : Function.Injective ref
  created : ∀ r, ref r < s.kernel.numSems
  value : ∀ r, (s.kernel.sems (ref r)).value = init r
  waits : ∀ t < s.kernel.numThreads, ∀ r, s.kernel.view.waits t ≠ some (ref r)
  outside : ∀ t, C.outside (s.point t) = true

section Start

variable {C : Client R Pt δ A ι} {ref : R → SemId} {init : R → Int} {s : System Pt δ}

theorem Start.inv (h : Start C ref init s) : Threads.Inv s.kernel ∧ Threads.Unforked s.kernel := by
  obtain ⟨ls, hrun⟩ := h.reachable
  refine (Runs.allStates_of_invariant
    (J := fun k => Threads.Inv k ∧ Threads.Unforked k) ?_
    ⟨Threads.inv_boot, Threads.unforked_boot⟩ ls).of_run hrun
  rintro k l k' ⟨hi, hu⟩ hk
  exact ⟨Threads.inv_step hi hk, Threads.unforked_step hi hu hk⟩

theorem Start.nobody (h : Start C ref init s) (t : Tid) (r : R) :
    s.kernel.view.waits t ≠ some (ref r) := by
  by_cases ht : t < s.kernel.numThreads
  · exact h.waits t ht r
  · rw [waits_of_unused h.inv.1 (Nat.not_lt.mp ht)]
    simp

theorem Start.rel (h : Start C ref init s) : Rel C ref s :=
  ⟨h.inv.1, h.inv.2, h.injective, h.created, fun t r hw => absurd hw (h.nobody t r)⟩

theorem Start.waiting [Fintype R] (h : Start C ref init s) (t : Tid) :
    (abs ref s).waiting t = false := by
  refine decide_eq_false ?_
  rintro ⟨r, hr⟩
  exact h.nobody t r hr

end Start

/-- A step keeps what the abstract step, if there is one, keeps. -/
theorem keep_step [DecidableEq R] [Fintype R] {C : Client R Pt δ A ι} {ref : R → SemId}
    {J : Shared R Pt δ → Prop} {s u : System Pt δ} {l : Label A ι} (hrel : Rel C ref s)
    (hJ : J (abs ref s))
    (hkeep : ∀ l' a', sharedLabel ref s l = some l' → astep C (abs ref s) l' = some a' → J a')
    (hs : step C ref s l = some u) : Rel C ref u ∧ J (abs ref u) := by
  obtain ⟨hrel', hfollows⟩ := sim_step hrel hs
  refine ⟨hrel', ?_⟩
  cases hl : sharedLabel ref s l with
  | none =>
    rw [hl] at hfollows
    rw [show abs ref u = abs ref s from hfollows]
    exact hJ
  | some l' =>
    rw [hl] at hfollows
    exact hkeep l' _ hl hfollows

/-- An invariant without the scheduler holds in every run. -/
theorem allStates_of_shared [DecidableEq R] [Fintype R] {C : Client R Pt δ A ι} {ref : R → SemId}
    {J : Shared R Pt δ → Prop} (hkeep : ∀ a l a', J a → astep C a l = some a' → J a')
    {s : System Pt δ} (hrel : Rel C ref s) (hJ : J (abs ref s)) (ls : List (Label A ι)) :
    Runs.AllStates (step C ref) (fun s => Rel C ref s ∧ J (abs ref s)) s ls := by
  refine Runs.allStates_of_invariant ?_ ⟨hrel, hJ⟩ ls
  rintro s l u ⟨hrel, hJ⟩ hs
  exact keep_step hrel hJ (fun l' a' _ ha => hkeep _ l' a' hJ ha) hs

/-- An invariant of the good steps without the scheduler holds in every run whose steps are good. -/
theorem allStates_of_good [DecidableEq R] [Fintype R] {C : Client R Pt δ A ι} {ref : R → SemId}
    {J : Shared R Pt δ → Prop} {good : Shared R Pt δ → SharedLabel A ι → Prop}
    {cond : System Pt δ → Label A ι → Prop}
    (hkeep : ∀ a l a', J a → good a l → astep C a l = some a' → J a')
    (hgood : ∀ s l l', Rel C ref s → cond s l → sharedLabel ref s l = some l' →
      good (abs ref s) l')
    {s : System Pt δ} (hrel : Rel C ref s) (hJ : J (abs ref s)) {ls : List (Label A ι)}
    (hcond : Runs.AllSteps (step C ref) cond s ls) :
    Runs.AllStates (step C ref) (fun s => Rel C ref s ∧ J (abs ref s)) s ls := by
  refine Runs.allStates_of_allSteps ?_ ⟨hrel, hJ⟩ hcond
  rintro s l u ⟨hrel, hJ⟩ hcond hs
  exact keep_step hrel hJ
    (fun l' a' hl ha => hkeep _ l' a' hJ (hgood s l l' hrel hcond hl) ha) hs

end Nachos.Devices
