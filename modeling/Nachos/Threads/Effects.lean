import Nachos.Threads.Scheduling

/-!
# What the semaphores see of a step

The programs above the thread system care about the values of semaphores and about which
threads are inside a `P`, not about queues, statuses and the ready list. `Kernel.view` keeps
just that, and on it every step is one of six effects: none, a new thread, a new semaphore, a
thread that enters or stays in a `P` because the value is zero, a thread that takes a unit, and
a `V`. `view_step` says which one a step has.
-/

namespace Nachos.Threads

open Function (update update_of_ne update_self)
open Kernel

/-- A semaphore without its queue. -/
@[simps] def Semaphore.bare (sem : Semaphore) : Semaphore := { sem with queue := [] }

/-- What a semaphore has besides its queue. -/
theorem Semaphore.bare_eq_bare {a b : Semaphore} :
    a.bare = b.bare ↔ a.value = b.value ∧ a.init = b.init ∧ a.completedP = b.completedP ∧
      a.completedV = b.completedV := by
  obtain ⟨value, queue, init, completedP, completedV⟩ := a
  obtain ⟨value', queue', init', completedP', completedV'⟩ := b
  simp [Semaphore.bare]

/-- The part of the kernel that the users of semaphores see. -/
@[ext] structure View where
  numThreads : Nat
  numSems : Nat
  sems : SemId → Semaphore
  /-- The semaphore in whose `P` a thread is. -/
  waits : Tid → Option SemId

def Kernel.view (k : Kernel) : View where
  numThreads := k.numThreads
  numSems := k.numSems
  sems s := (k.sems s).bare
  waits t := (k.threads t).resume.waitsOn

/-- What a step does to a `View`. -/
inductive Effect where
  | quiet
  | spawn
  | create (initialValue : Int)
  | block (t : Tid) (s : SemId)
  | take (t : Tid) (s : SemId)
  | give (s : SemId)
  deriving DecidableEq, Repr

@[simps -fullyApplied] def View.spawn (v : View) : View := { v with numThreads := v.numThreads + 1 }

@[simps -fullyApplied] def View.create (v : View) (initialValue : Int) : View :=
  { v with
    numSems := v.numSems + 1
    sems := update v.sems v.numSems (.new initialValue) }

@[simps -fullyApplied] def View.block (v : View) (t : Tid) (s : SemId) : View :=
  { v with waits := update v.waits t (some s) }

@[simps -fullyApplied] def View.take (v : View) (t : Tid) (s : SemId) : View :=
  { v with
    sems := update v.sems s (v.sems s).take
    waits := update v.waits t none }

@[simps -fullyApplied] def View.give (v : View) (s : SemId) : View :=
  { v with sems := update v.sems s (v.sems s).give }

def View.apply (v : View) : Effect → View
  | .quiet => v
  | .spawn => v.spawn
  | .create initialValue => v.create initialValue
  | .block t s => v.block t s
  | .take t s => v.take t s
  | .give s => v.give s

/-- The effect of one test of `value` in `P` by the current thread. -/
def Kernel.testEffect (k : Kernel) (s : SemId) : Effect :=
  if (k.sems s).value = 0 then .block k.currentThread s else .take k.currentThread s

/-- The effect of a step. -/
def Kernel.effect (k : Kernel) : Label → Effect
  | .newThread => .spawn
  | .newSemaphore initialValue => .create initialValue
  | .p s => k.testEffect s
  | .v s | .handlerV s => .give s
  | .resume =>
    match k.current.resume.waitsOn with
    | some s => k.testEffect s
    | none => .quiet
  | _ => .quiet

/-! ## The operations -/

section Operations

variable {k : Kernel}

theorem waits_setThread (t : Tid) (th : Thread) :
    (k.setThread t th).view.waits = update k.view.waits t th.resume.waitsOn := by
  ext1 u
  by_cases hu : u = t
  · subst hu
    simp [Kernel.view, setThread]
  · simp [Kernel.view, setThread, hu]

/-- Rewriting a control block without touching the `P` its thread is in. -/
theorem view_setThread {t : Tid} {th : Thread}
    (hw : th.resume.waitsOn = (k.threads t).resume.waitsOn) : (k.setThread t th).view = k.view := by
  apply View.ext
  · rfl
  · rfl
  · rfl
  · rw [waits_setThread, hw]
    exact Function.update_eq_self t k.view.waits

theorem view_run (next : Tid) : (k.run next).view = k.view := by
  show (k.setThread next { k.threads next with status := .running }).view = k.view
  exact view_setThread rfl

theorem view_dispatch : k.dispatch.view = k.view := by
  unfold dispatch
  split
  · rfl
  · exact view_run _

theorem view_readyToRun (t : Tid) : (k.readyToRun t).view = k.view := by
  show (k.setThread t { k.threads t with status := .ready }).view = k.view
  exact view_setThread rfl

theorem view_sleep (r : Resume) :
    (k.sleep r).view = { k.view with waits := update k.view.waits k.currentThread r.waitsOn } := by
  unfold sleep
  rw [view_dispatch]
  apply View.ext
  · rfl
  · rfl
  · rfl
  · exact waits_setThread _ _

theorem view_continueAt (l : IntStatus) :
    (k.continueAt l).view = { k.view with waits := update k.view.waits k.currentThread none } := by
  apply View.ext
  · rfl
  · rfl
  · rfl
  · exact waits_setThread k.currentThread { k.current with resume := .code }

theorem view_setSem (s : SemId) (sem : Semaphore) :
    (k.setSem s sem).view = { k.view with sems := update k.view.sems s sem.bare } := by
  apply View.ext
  · rfl
  · rfl
  · ext1 s'
    by_cases hs : s' = s
    · subst hs
      simp [Kernel.view, setSem]
    · simp [Kernel.view, setSem, hs]
  · rfl

theorem view_testP (s : SemId) (l : IntStatus) :
    (k.testP s l).view = k.view.apply (k.testEffect s) := by
  unfold testP testEffect
  split
  · have hsame : update k.view.sems s ((k.sems s).enqueue k.currentThread).bare = k.view.sems :=
      Function.update_eq_self s k.view.sems
    rw [view_sleep, view_setSem, hsame]
    rfl
  · rw [view_continueAt, view_setSem]
    rfl

theorem view_P (s : SemId) : (k.P s).view = k.view.apply (k.testEffect s) :=
  view_testP (k := { k with level := .intOff }) s k.level

/-- Who is in a `P` after a test of `value` by the current thread. -/
theorem waits_of_testEffect {v : View} {s s' : SemId} {t : Tid}
    (hview : v = k.view.apply (k.testEffect s)) (ht : v.waits t = some s') :
    (t = k.currentThread ∧ s' = s) ∨ (t ≠ k.currentThread ∧ k.view.waits t = some s') := by
  rw [hview] at ht
  unfold Kernel.testEffect at ht
  by_cases htc : t = k.currentThread
  · subst htc
    refine Or.inl ⟨rfl, ?_⟩
    split at ht
    · simpa [View.apply] using ht.symm
    · simp [View.apply] at ht
  · refine Or.inr ⟨htc, ?_⟩
    split at ht
    · simpa [View.apply, htc] using ht
    · simpa [View.apply, htc] using ht

theorem view_V (s : SemId) : (k.V s).view = k.view.give s := by
  have hset : (k.setSem s (k.sems s).give).view = k.view.give s := view_setSem s _
  cases hq : (k.sems s).queue with
  | nil => rw [V_of_nil hq, hset]
  | cons t rest => rw [V_of_cons hq, view_readyToRun, hset]

theorem view_reap : k.reap.view = k.view := by
  unfold reap
  split
  · rfl
  · rename_i t _
    split
    · rfl
    · show (k.setThread t { k.threads t with deleted := true }).view = k.view
      exact view_setThread rfl

theorem view_newSemaphore (v : Int) : (k.newSemaphore v).view = k.view.create v := by
  have hsems := congrArg View.sems (view_setSem (k := k) k.numSems (Semaphore.new v))
  apply View.ext
  · rfl
  · rfl
  · exact hsems
  · rfl

theorem view_yield (hc : k.current.resume = .code) : k.yield.view = k.view := by
  cases hlist : k.readyList with
  | nil => simp only [yield, hlist]
  | cons next rest =>
    unfold yield
    rw [hlist]
    simp only
    rw [view_run, view_readyToRun]
    refine view_setThread (k := { k with level := .intOff, readyList := rest }) ?_
    show none = k.current.resume.waitsOn
    rw [hc]
    rfl

theorem view_finish (hc : k.current.resume = .code) : k.finish.view = k.view := by
  unfold finish
  rw [view_sleep]
  apply View.ext
  · rfl
  · rfl
  · rfl
  · have hnone : k.view.waits k.currentThread = none := by
      show k.current.resume.waitsOn = none
      rw [hc]
      rfl
    exact Function.update_eq_iff.mpr ⟨hnone.symm, fun _ _ => rfl⟩

end Operations

/-! ## Threads that have not been forked -/

/-- A thread that was created and not forked yet is as `new Thread` has left it. -/
def Unforked (k : Kernel) : Prop :=
  ∀ t, (k.threads t).status = .justCreated → k.threads t = {}

section Unforked

variable {k : Kernel}

/-- A control block that leaves `JUST_CREATED` keeps the other threads as they are. -/
theorem Unforked.setThread (h : Unforked k) {t : Tid} {th : Thread}
    (hs : th.status ≠ .justCreated) : Unforked (k.setThread t th) := by
  intro u hu
  by_cases hut : u = t
  · subst hut
    simp only [Kernel.setThread, update_self] at hu
    exact absurd hu hs
  · simp only [Kernel.setThread, update_of_ne hut] at hu ⊢
    exact h u hu

theorem Unforked.dispatch (h : Unforked k) : Unforked k.dispatch := by
  unfold Kernel.dispatch
  split
  · exact h
  · rename_i next rest _
    show Unforked (k.setThread next { k.threads next with status := .running })
    exact h.setThread (by simp)

theorem Unforked.sleep (h : Unforked k) (r : Resume) : Unforked (k.sleep r) :=
  (h.setThread (by simp)).dispatch

theorem Unforked.continueAt (h : Unforked k) (hr : k.current.status = .running) (l : IntStatus) :
    Unforked (k.continueAt l) := by
  show Unforked (k.setThread k.currentThread { k.current with resume := .code })
  exact h.setThread (by simp [hr])

theorem Unforked.testP (h : Unforked k) (hr : k.current.status = .running) (s : SemId)
    (l : IntStatus) : Unforked (k.testP s l) := by
  unfold Kernel.testP
  split
  · exact Unforked.sleep (k := k.setSem s _) h _
  · exact Unforked.continueAt (k := k.setSem s _) h hr l

theorem Unforked.V (h : Unforked k) (s : SemId) : Unforked (k.V s) := by
  cases hq : (k.sems s).queue with
  | nil =>
    rw [V_of_nil hq]
    exact h
  | cons t rest =>
    rw [V_of_cons hq]
    show Unforked (k.setThread t { k.threads t with status := .ready })
    exact h.setThread (by simp)

theorem Unforked.yield (h : Unforked k) (hr : k.current.status = .running) : Unforked k.yield := by
  cases hlist : k.readyList with
  | nil => simpa only [Kernel.yield, hlist] using h
  | cons next rest =>
    unfold Kernel.yield
    rw [hlist]
    simp only
    -- the current thread, put on the ready list, then the next one, dispatched
    refine Unforked.setThread (Unforked.setThread ?_ (by simp)) (by simp)
    exact Unforked.setThread (k := { k with level := .intOff, readyList := rest }) h (by simp [hr])

theorem Unforked.fork (h : Unforked k) (t : Tid) : Unforked (k.fork t) := by
  refine Unforked.setThread ?_ (by simp)
  intro u hu
  by_cases hut : u = t
  · subst hut
    simp only [Kernel.setThread, update_self] at hu ⊢
    rw [h u hu]
  · simp only [Kernel.setThread, update_of_ne hut] at hu ⊢
    exact h u hu

theorem Unforked.newThread (h : Unforked k) : Unforked k.newThread := by
  intro u hu
  by_cases hut : u = k.numThreads
  · subst hut
    simp [Kernel.newThread, Kernel.setThread]
  · simp only [Kernel.newThread, Kernel.setThread, update_of_ne hut] at hu ⊢
    exact h u hu

/-- The thread that is deleted has finished, so it is not `JUST_CREATED`. -/
theorem Unforked.reap (h : Unforked k) (hi : Inv k) : Unforked k.reap := by
  unfold Kernel.reap
  split
  · exact h
  · rename_i t ht
    split
    · exact h
    · intro u hu
      by_cases hut : u = t
      · subst hut
        simp only [Kernel.setThread, update_self] at hu
        have hfinished := hi.places.destroyed u ht
        rw [h u hu] at hfinished
        cases hfinished
      · simp only [Kernel.setThread, update_of_ne hut] at hu ⊢
        exact h u hu

theorem Unforked.resume (h : Unforked k) (hi : Inv k) (hm : k.mode = .running) {k' : Kernel}
    (hstep : k.resume = some k') : Unforked k' := by
  have hmode := reap_mode hi hm
  have hrun := (inv_reap hi hm).current_running hmode
  unfold Kernel.resume at hstep
  split at hstep
  · cases hstep
    exact h.continueAt (hi.current_running hm) .intOn
  · rename_i s l _
    rw [hmode] at hstep
    cases hstep
    exact (h.reap hi).testP hrun s l
  · rename_i l _
    rw [hmode] at hstep
    cases hstep
    exact (h.reap hi).continueAt hrun l
  · cases hstep
  · cases hstep

theorem unforked_step {k' : Kernel} {l : Label} (hi : Inv k) (h : Unforked k)
    (hstep : step k l = some k') : Unforked k' := by
  cases l with
  | newThread =>
    obtain ⟨-, rfl⟩ := Option.ite_some_none_eq_some.mp hstep
    exact h.newThread
  | fork t =>
    obtain ⟨-, rfl⟩ := Option.ite_some_none_eq_some.mp hstep
    exact h.fork t
  | newSemaphore v =>
    obtain ⟨-, rfl⟩ := Option.ite_some_none_eq_some.mp hstep
    exact h
  | p s =>
    obtain ⟨⟨hc, -⟩, rfl⟩ := Option.ite_some_none_eq_some.mp hstep
    exact Unforked.testP (k := { k with level := .intOff }) h
      (hi.current_running (inCode_iff.mp hc).1) s k.level
  | v s =>
    obtain ⟨-, rfl⟩ := Option.ite_some_none_eq_some.mp hstep
    exact h.V s
  | yield =>
    obtain ⟨hc, rfl⟩ := Option.ite_some_none_eq_some.mp hstep
    exact h.yield (hi.current_running (inCode_iff.mp hc).1)
  | finish =>
    obtain ⟨-, rfl⟩ := Option.ite_some_none_eq_some.mp hstep
    exact Unforked.sleep (k := { k with level := .intOff, threadToBeDestroyed := _ }) h _
  | handlerV s =>
    obtain ⟨-, rfl⟩ := Option.ite_some_none_eq_some.mp hstep
    exact h.V s
  | timerYield =>
    obtain ⟨⟨hc, -⟩, rfl⟩ := Option.ite_some_none_eq_some.mp hstep
    exact h.yield (hi.current_running (inCode_iff.mp hc).1)
  | resume =>
    obtain ⟨hm, hr⟩ := Option.ite_none_right_eq_some.mp hstep
    exact h.resume hi hm hr
  | idle =>
    obtain ⟨-, rfl⟩ := Option.ite_some_none_eq_some.mp hstep
    exact h.dispatch
  | halt =>
    obtain ⟨-, rfl⟩ := Option.ite_some_none_eq_some.mp hstep
    exact h

theorem unforked_boot : Unforked boot := by
  intro t
  by_cases ht : t = 0
  · subst ht
    simp [boot]
  · simp [boot, ht]

/-- `Fork` makes a thread live: it was there, and nothing has deleted it. -/
theorem Unforked.live_fork (h : Unforked k) {t : Tid} {k' : Kernel}
    (hstep : step k (.fork t) = some k') : k'.Live t := by
  obtain ⟨⟨-, ht, hnew⟩, rfl⟩ := Option.ite_some_none_eq_some.mp hstep
  refine ⟨ht, ?_, ?_⟩
  · simp [Kernel.fork, readyToRun, Kernel.setThread]
  · simp [Kernel.fork, readyToRun, Kernel.setThread, h t hnew]

/-- What holds of the threads in every state of a run. -/
theorem inv_unforked_throughout (ls : List Label) :
    Runs.AllStates step (fun k => Inv k ∧ Unforked k) boot ls :=
  Runs.allStates_of_invariant
    (fun _ _ _ h hs => ⟨inv_step h.1 hs, unforked_step h.1 h.2 hs⟩) ⟨inv_boot, unforked_boot⟩ ls

/-- In every run each thread is live from its `Fork` on. -/
theorem live_forked (ls : List Label) :
    Runs.AllSteps step (fun k l => ∀ t k', l = .fork t → step k l = some k' → k'.Live t) boot ls :=
  (inv_unforked_throughout ls).allSteps fun _ _ h _ _ hl hs => h.2.live_fork (hl ▸ hs)

end Unforked

/-! ## The effect of a step -/

section Steps

variable {k : Kernel}

theorem view_fork (h : Unforked k) {t : Tid} (hnew : (k.threads t).status = .justCreated) :
    (k.fork t).view = k.view := by
  unfold Kernel.fork
  rw [view_readyToRun]
  refine view_setThread ?_
  rw [h t hnew]

theorem view_newThread (hi : Inv k) : k.newThread.view = k.view.spawn := by
  have hview : (k.setThread k.numThreads {}).view = k.view := by
    refine view_setThread ?_
    rw [hi.places.unused k.numThreads (Nat.le_refl _)]
  have hwaits := congrArg View.waits hview
  apply View.ext
  · rfl
  · rfl
  · rfl
  · exact hwaits

theorem view_resume (hi : Inv k) (hm : k.mode = .running) {k' : Kernel}
    (hstep : k.resume = some k') : k'.view = k.view.apply (k.effect .resume) := by
  have hmode := reap_mode hi hm
  have hcur : k.reap.currentThread = k.currentThread := by
    unfold reap
    split
    · rfl
    · split <;> rfl
  have hwaits : k.view.waits k.currentThread = k.current.resume.waitsOn := rfl
  have hleave : k.current.resume.waitsOn = none →
      { k.view with waits := update k.view.waits k.currentThread none } = k.view := by
    intro hnone
    rw [← hnone, ← hwaits, Function.update_eq_self]
  unfold Kernel.resume at hstep
  unfold effect
  split at hstep
  · rename_i hr
    cases hstep
    rw [view_continueAt, hleave (by rw [hr]; rfl), hr]
    rfl
  · rename_i s l hr
    rw [hmode] at hstep
    cases hstep
    have hsems : k.reap.sems = k.sems := by
      unfold reap
      split
      · rfl
      · split <;> rfl
    have htest : k.reap.testEffect s = k.testEffect s := by
      unfold testEffect
      rw [hsems, hcur]
    rw [view_testP, view_reap, htest, hr]
    rfl
  · rename_i l hr
    rw [hmode] at hstep
    cases hstep
    rw [view_continueAt, view_reap, hcur, hleave (by rw [hr]; rfl), hr]
    rfl
  · cases hstep
  · cases hstep

/-- Every step of the thread system is, for the users of semaphores, its effect. -/
theorem view_step {k' : Kernel} {l : Label} (hi : Inv k) (hu : Unforked k)
    (hstep : step k l = some k') : k'.view = k.view.apply (k.effect l) := by
  cases l with
  | newThread =>
    obtain ⟨-, rfl⟩ := Option.ite_some_none_eq_some.mp hstep
    exact view_newThread hi
  | fork t =>
    obtain ⟨⟨-, -, hnew⟩, rfl⟩ := Option.ite_some_none_eq_some.mp hstep
    exact view_fork hu hnew
  | newSemaphore v =>
    obtain ⟨-, rfl⟩ := Option.ite_some_none_eq_some.mp hstep
    exact view_newSemaphore v
  | p s =>
    obtain ⟨-, rfl⟩ := Option.ite_some_none_eq_some.mp hstep
    exact view_P s
  | v s =>
    obtain ⟨-, rfl⟩ := Option.ite_some_none_eq_some.mp hstep
    exact view_V s
  | yield =>
    obtain ⟨hc, rfl⟩ := Option.ite_some_none_eq_some.mp hstep
    exact view_yield (inCode_iff.mp hc).2
  | finish =>
    obtain ⟨hc, rfl⟩ := Option.ite_some_none_eq_some.mp hstep
    exact view_finish (inCode_iff.mp hc).2
  | handlerV s =>
    obtain ⟨-, rfl⟩ := Option.ite_some_none_eq_some.mp hstep
    exact view_V s
  | timerYield =>
    obtain ⟨⟨hc, -⟩, rfl⟩ := Option.ite_some_none_eq_some.mp hstep
    exact view_yield (inCode_iff.mp hc).2
  | resume =>
    obtain ⟨hm, hr⟩ := Option.ite_none_right_eq_some.mp hstep
    exact view_resume hi hm hr
  | idle =>
    obtain ⟨-, rfl⟩ := Option.ite_some_none_eq_some.mp hstep
    exact view_dispatch
  | halt =>
    obtain ⟨-, rfl⟩ := Option.ite_some_none_eq_some.mp hstep
    rfl

end Steps

end Nachos.Threads
