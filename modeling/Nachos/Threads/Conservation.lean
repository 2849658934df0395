import Nachos.Lib.Sums
import Nachos.Threads.Effects

/-!
# Conservation of semaphores

`V` puts a waiting thread on the ready list and increments `value`; the woken thread tests
`value` again when it runs, and another thread may have taken the unit by then. What holds
in every state is therefore a bound: while somebody is queued, `value` is at most the number
of threads that have been woken and have not tested `value` again (`Conserved.bound`). It is
kept by a `P` that steals the unit, since `value` then drops, and by a woken thread's test,
since `value` and the number of woken threads drop together or `value` is zero.

The numbers in the law are those of the run: `completed_eq` counts its `V`s, and the tests of `value`
with which a thread leaves a `P`.
-/

namespace Nachos.Threads

open Function (update update_of_ne)
open Kernel

/-- One for a thread that `V` on `s` has put on the ready list and that has not tested the
value of `s` again. -/
def wokenBy (s : SemId) (th : Thread) : Nat :=
  if th.resume.waitsOn = some s ∧ (th.status = .ready ∨ th.status = .running) then 1 else 0

/-- The number of threads on their way to test the value of `s` again. -/
def Kernel.woken (k : Kernel) (s : SemId) : Nat := Sums.total (wokenBy s) k.threads k.numThreads

/-- The conservation law of one semaphore. -/
structure Conserved (k : Kernel) (s : SemId) : Prop where
  value : (k.sems s).value = (k.sems s).init + (k.sems s).completedV - (k.sems s).completedP
  nonneg : 0 ≤ (k.sems s).value
  bound : (k.sems s).queue ≠ [] → (k.sems s).value ≤ k.woken s

/-- The law for every semaphore that was created with a non-negative value and whose `V`s have
not overflowed it. -/
def AllConserved (k : Kernel) : Prop :=
  ∀ s < k.numSems, 0 ≤ (k.sems s).init →
    (k.sems s).init + (k.sems s).completedV < 2 ^ 31 → Conserved k s

/-! ## Woken threads -/

section Woken

variable {k : Kernel} {s : SemId}

theorem woken_setThread {t : Tid} (ht : t < k.numThreads) (th : Thread) :
    (k.setThread t th).woken s + wokenBy s (k.threads t) = k.woken s + wokenBy s th :=
  Sums.total_update ht th

/-- Rewriting the control block of a thread that was not woken loses no woken thread. -/
theorem woken_le_setThread {t : Tid} (ht : t < k.numThreads) (h0 : wokenBy s (k.threads t) = 0)
    (th : Thread) : k.woken s ≤ (k.setThread t th).woken s := by
  have := woken_setThread (s := s) ht th
  omega

theorem wokenBy_le_one (th : Thread) : wokenBy s th ≤ 1 := by
  unfold wokenBy
  split <;> omega

theorem wokenBy_of_waitsOn {th : Thread} (h : th.resume.waitsOn ≠ some s) : wokenBy s th = 0 :=
  if_neg fun hc => h hc.1

/-- Dispatching does not change who has been woken. -/
theorem woken_dispatch (h : Parked k) : k.dispatch.woken s = k.woken s := by
  unfold dispatch
  split
  · rfl
  · rename_i next rest hlist
    have hready : (k.threads next).status = .ready := h.places.mem_ready.mp (by simp [hlist])
    have hlt : next < k.numThreads := h.places.lt_of_status (by rw [hready]; simp)
    have hset := woken_setThread (s := s) hlt { k.threads next with status := .running }
    have hsame : wokenBy s { k.threads next with status := .running } =
        wokenBy s (k.threads next) := by
      simp [wokenBy, hready]
    rw [hsame] at hset
    exact Nat.add_right_cancel hset

theorem dispatch_sems : k.dispatch.sems = k.sems := by
  unfold dispatch
  split <;> rfl

theorem dispatch_numSems : k.dispatch.numSems = k.numSems := by
  unfold dispatch
  split <;> rfl

end Woken

/-! ## Transferring the law -/

section Transfer

variable {k k' : Kernel} {s : SemId}

/-- The law survives a step that leaves the semaphore alone and the number of its woken threads
no smaller. -/
theorem Conserved.of_same (h : Conserved k s) (hsem : k'.sems s = k.sems s)
    (hwoken : k.woken s ≤ k'.woken s) : Conserved k' s := by
  refine ⟨by rw [hsem]; exact h.value, by rw [hsem]; exact h.nonneg, ?_⟩
  rw [hsem]
  intro hq
  have := h.bound hq
  omega

/-- As `Conserved.of_same`, for all semaphores. -/
theorem AllConserved.of_same (h : AllConserved k) (hsems : k'.sems = k.sems)
    (hnum : k'.numSems = k.numSems) (hwoken : ∀ s, k.woken s ≤ k'.woken s) : AllConserved k' := by
  intro s hs hinit hover
  rw [hnum] at hs
  rw [hsems] at hinit hover
  exact (h s hs hinit hover).of_same (by rw [hsems]) (hwoken s)

end Transfer

/-! ## The operations -/

section Operations

variable {k : Kernel}

/-- One test of `value` by a thread that is not waiting on another semaphore. -/
theorem conserved_testP (hi : Inv k) (hm : k.mode = .running) (h : AllConserved k) {s : SemId}
    (hs : s < k.numSems)
    (hcur : k.current.resume.waitsOn = none ∨ k.current.resume.waitsOn = some s) (l : IntStatus) :
    AllConserved (k.testP s l) := by
  have hlt := hi.current_lt hm
  have hother : ∀ s', s' ≠ s → wokenBy s' k.current = 0 := by
    intro s' hne
    apply wokenBy_of_waitsOn
    rcases hcur with hc | hc <;> rw [hc]
    · simp
    · simpa using fun he => hne he.symm
  have hle := wokenBy_le_one (s := s) k.current
  unfold testP
  split
  · rename_i hzero
    -- the thread goes to sleep; the value it saw is zero, so the bound is trivial for `s`
    have hparked := parked_sleepP hi hm hs l
    intro s' hs' hinit hover
    simp only [sleep] at hs' hinit hover ⊢
    refine Conserved.of_same ?_ (congrFun dispatch_sems s') (Nat.le_of_eq (woken_dispatch hparked).symm)
    by_cases hss : s' = s
    · subst hss
      rw [dispatch_sems] at hinit hover
      have hold := h s' hs (by simpa [setThread, setSem] using hinit)
        (by simpa [setThread, setSem] using hover)
      refine ⟨?_, ?_, ?_⟩
      · simpa [setThread, setSem] using hold.value
      · simpa [setThread, setSem] using hold.nonneg
      · intro _
        simp [setThread, setSem, hzero]
    · rw [dispatch_sems] at hinit hover
      rw [dispatch_numSems] at hs'
      have hold := h s' hs' (by simpa [setThread, setSem, hss] using hinit)
        (by simpa [setThread, setSem, hss] using hover)
      exact hold.of_same (by simp [setThread, setSem, hss])
        (woken_le_setThread (k := k.setSem s _) hlt (hother s' hss) _)
  · rename_i hne
    intro s' hs' hinit hover
    by_cases hss : s' = s
    · subst hss
      have hold := h s' hs (by simpa [continueAt, setThread, setSem] using hinit)
        (by simpa [continueAt, setThread, setSem] using hover)
      have hover' : (k.sems s').init + (k.sems s').completedV < 2 ^ 31 := by
        simpa [continueAt, setThread, setSem] using hover
      have hv := hold.value
      have hn := hold.nonneg
      have hwrap : wrap32 ((k.sems s').value - 1) = (k.sems s').value - 1 :=
        wrap32_of_range (by omega) (by omega)
      refine ⟨?_, ?_, ?_⟩
      · simp only [continueAt, setThread, setSem, Function.update_self, Semaphore.take, hwrap]
        omega
      · simp only [continueAt, setThread, setSem, Function.update_self, Semaphore.take, hwrap]
        omega
      · simp only [continueAt, setThread, setSem, Function.update_self, Semaphore.take, hwrap]
        intro hq
        have hb := hold.bound hq
        have hw : (k.setThread k.currentThread { k.current with resume := .code }).woken s' +
            wokenBy s' k.current = k.woken s' + 0 := woken_setThread hlt _
        change _ ≤ (((k.setThread k.currentThread { k.current with resume := .code }).woken s' : Nat)
          : Int)
        omega
    · have hold := h s' hs' (by simpa [continueAt, setThread, setSem, hss] using hinit)
        (by simpa [continueAt, setThread, setSem, hss] using hover)
      exact hold.of_same (by simp [continueAt, setThread, setSem, hss])
        (woken_le_setThread hlt (hother s' hss) { k.current with resume := .code })

theorem conserved_V (hi : Inv k) (h : AllConserved k) {s : SemId} : AllConserved (k.V s) := by
  cases hqueue : (k.sems s).queue with
  | nil =>
    rw [V_of_nil hqueue]
    intro s' hs' hinit hover
    by_cases hss : s' = s
    · subst hss
      simp only [setSem, Function.update_self, Semaphore.give] at hinit hover
      have hold := h s' hs' hinit (by omega)
      have hv := hold.value
      have hn := hold.nonneg
      have hwrap : wrap32 ((k.sems s').value + 1) = (k.sems s').value + 1 :=
        wrap32_of_range (by omega) (by omega)
      refine ⟨?_, ?_, ?_⟩
      · simp only [setSem, Function.update_self, Semaphore.give, hwrap]
        omega
      · simp only [setSem, Function.update_self, Semaphore.give, hwrap]
        omega
      · simp [setSem, hqueue]
    · have hold := h s' hs' (by simpa [setSem, hss] using hinit) (by simpa [setSem, hss] using hover)
      exact hold.of_same (by simp [setSem, hss]) (Nat.le_refl _)
  | cons t rest =>
    rw [V_of_cons hqueue]
    intro s' hs' hinit hover
    have hwait := hi.places.mem_queue.mp (show t ∈ (k.sems s).queue by simp [hqueue])
    have hlt : t < k.numThreads := hi.places.lt_of_status (by rw [hwait.1]; simp)
    have hsleep : ∀ s'', wokenBy s'' (k.threads t) = 0 := by
      intro s''
      simp [wokenBy, hwait.1]
    by_cases hss : s' = s
    · subst hss
      simp only [readyToRun, setThread, setSem, Function.update_self, Semaphore.give] at hinit hover
      have hold := h s' hs' hinit (by omega)
      have hv := hold.value
      have hn := hold.nonneg
      have hwrap : wrap32 ((k.sems s').value + 1) = (k.sems s').value + 1 :=
        wrap32_of_range (by omega) (by omega)
      have hw : (k.setThread t { k.threads t with status := .ready }).woken s' +
          wokenBy s' (k.threads t) = k.woken s' + 1 := by
        rw [woken_setThread hlt]
        simp [wokenBy, hwait.2]
      rw [hsleep s'] at hw
      have hb := hold.bound (by simp [hqueue])
      refine ⟨?_, ?_, ?_⟩
      · simp only [readyToRun, setThread, setSem, Function.update_self, Semaphore.give, hwrap]
        omega
      · simp only [readyToRun, setThread, setSem, Function.update_self, Semaphore.give, hwrap]
        omega
      · intro _
        simp only [readyToRun, setThread, setSem, Function.update_self, Semaphore.give, hwrap]
        change _ ≤ (((k.setThread t { k.threads t with status := .ready }).woken s' : Nat) : Int)
        omega
    · have hold := h s' hs' (by simpa [readyToRun, setThread, setSem, hss] using hinit)
        (by simpa [readyToRun, setThread, setSem, hss] using hover)
      exact hold.of_same (by simp [readyToRun, setThread, setSem, hss])
        (woken_le_setThread hlt (hsleep s') { k.threads t with status := .ready })

/-- Parking a thread that waits on nothing and dispatching another one. -/
theorem conserved_dispatch {k' : Kernel} (h : AllConserved k) (hp : Parked k')
    (hsems : k'.sems = k.sems) (hnum : k'.numSems = k.numSems)
    (hwoken : ∀ s, k.woken s ≤ k'.woken s) : AllConserved k'.dispatch := by
  refine h.of_same (dispatch_sems.trans hsems) (dispatch_numSems.trans hnum) fun s => ?_
  rw [woken_dispatch hp]
  exact hwoken s

theorem wokenBy_of_code (hc : k.current.resume = .code) (s : SemId) :
    wokenBy s (k.threads k.currentThread) = 0 := by
  apply wokenBy_of_waitsOn
  unfold current at hc
  rw [hc]
  simp [Resume.waitsOn]

theorem conserved_finish (hi : Inv k) (hm : k.mode = .running) (hc : k.current.resume = .code)
    (h : AllConserved k) : AllConserved k.finish :=
  conserved_dispatch h (parked_finish hi hm) rfl rfl fun s =>
    woken_le_setThread (hi.current_lt hm) (wokenBy_of_code hc s)
      { k.current with status := .blocked, resume := .inFinish }

theorem conserved_yield (hi : Inv k) (hm : k.mode = .running) (hc : k.current.resume = .code)
    (h : AllConserved k) : AllConserved k.yield := by
  cases hlist : k.readyList with
  | nil =>
    rw [yield, hlist]
    exact h
  | cons next rest =>
    rw [yield_eq hlist]
    refine conserved_dispatch h (parked_yield hi hm) rfl rfl fun s => ?_
    have := woken_le_setThread (hi.current_lt hm) (wokenBy_of_code hc s)
      { k.current with resume := .inYield k.level, status := .ready }
    simpa [woken, readyToRun, setThread] using this

theorem conserved_fork (h : AllConserved k) {t : Tid} (ht : t < k.numThreads)
    (hnew : (k.threads t).status = .justCreated) : AllConserved (k.fork t) := by
  refine h.of_same rfl rfl fun s => ?_
  have := woken_le_setThread ht (s := s) (by simp [wokenBy, hnew])
    { k.threads t with resume := .root, status := .ready }
  simpa [woken, fork, readyToRun, setThread] using this

theorem conserved_newThread (h : AllConserved k) : AllConserved k.newThread := by
  refine h.of_same rfl rfl fun s => ?_
  change _ ≤ Sums.total (wokenBy s) (update k.threads k.numThreads {}) (k.numThreads + 1)
  rw [Sums.total_push]
  exact Nat.le_add_right _ _

theorem conserved_newSemaphore (h : AllConserved k) (v : Int) :
    AllConserved (k.newSemaphore v) := by
  intro s hs hinit hover
  by_cases hss : s = k.numSems
  · subst hss
    have hinit' : 0 ≤ v := by simpa [newSemaphore, setSem] using hinit
    refine ⟨?_, ?_, ?_⟩
    · simp [newSemaphore, setSem]
    · simpa [newSemaphore, setSem] using hinit'
    · simp [newSemaphore, setSem]
  · have hlt : s < k.numSems := Nat.lt_of_le_of_ne (Nat.le_of_lt_succ hs) hss
    have hold := h s hlt (by simpa [newSemaphore, setSem, hss] using hinit)
      (by simpa [newSemaphore, setSem, hss] using hover)
    exact hold.of_same (by simp [newSemaphore, setSem, hss]) (Nat.le_refl _)

theorem conserved_reap (hi : Inv k) (hm : k.mode = .running) (h : AllConserved k) :
    AllConserved k.reap := by
  unfold reap
  split
  · exact h
  · rename_i t ht
    have hfin := hi.places.destroyed t ht
    have hb := hi.places.finished t hfin
    rw [if_neg (by rintro rfl; exact hi.current_not_finished hm hfin)]
    exact h.of_same rfl rfl fun s =>
      woken_le_setThread (hi.places.lt_of_status (by rw [hb]; simp)) (by simp [wokenBy, hb])
        { k.threads t with deleted := true }

theorem reap_current_resume (hi : Inv k) (hm : k.mode = .running) :
    k.reap.current.resume = k.current.resume := by
  unfold reap
  split
  · rfl
  · rename_i t ht
    have hne : k.currentThread ≠ t := by
      rintro rfl
      exact hi.current_not_finished hm (hi.places.destroyed _ ht)
    rw [if_neg (Ne.symm hne)]
    simp [current, setThread, hne]

theorem conserved_continueAt (hi : Inv k) (hm : k.mode = .running)
    (hw : k.current.resume.waitsOn = none) (h : AllConserved k) (l : IntStatus) :
    AllConserved (k.continueAt l) := by
  refine h.of_same rfl rfl fun s => ?_
  refine woken_le_setThread (hi.current_lt hm) ?_ { k.current with resume := .code }
  apply wokenBy_of_waitsOn
  unfold current at hw
  rw [hw]
  simp

theorem conserved_resume (hi : Inv k) (hm : k.mode = .running) (h : AllConserved k) {k' : Kernel}
    (hstep : k.resume = some k') : AllConserved k' := by
  have hreap := inv_reap hi hm
  have hmode := reap_mode hi hm
  have hcons := conserved_reap hi hm h
  have hres := reap_current_resume hi hm
  unfold Kernel.resume at hstep
  split at hstep
  · rename_i hr
    cases hstep
    exact conserved_continueAt hi hm (by rw [hr]; rfl) h .intOn
  · rename_i s l hr
    rw [hmode] at hstep
    cases hstep
    have hs : s < k.numSems := hi.places.waits k.currentThread s (by
      unfold current at hr
      rw [hr]
      rfl)
    refine conserved_testP hreap hmode hcons (by rwa [reap_numSems]) (Or.inr ?_) l
    rw [hres, hr]
    rfl
  · rename_i l hr
    rw [hmode] at hstep
    cases hstep
    exact conserved_continueAt hreap hmode (by rw [hres, hr]; rfl) hcons l
  · cases hstep
  · cases hstep

end Operations

/-! ## Runs -/

theorem conserved_step {k k' : Kernel} {l : Label} (hi : Inv k) (h : AllConserved k)
    (hstep : step k l = some k') : AllConserved k' := by
  cases l with
  | newThread =>
    obtain ⟨-, rfl⟩ := Option.ite_some_none_eq_some.mp hstep
    exact conserved_newThread h
  | fork t =>
    obtain ⟨⟨-, ht, hnew⟩, rfl⟩ := Option.ite_some_none_eq_some.mp hstep
    exact conserved_fork h ht hnew
  | newSemaphore v =>
    obtain ⟨-, rfl⟩ := Option.ite_some_none_eq_some.mp hstep
    exact conserved_newSemaphore h v
  | p s =>
    obtain ⟨⟨hc, hs⟩, rfl⟩ := Option.ite_some_none_eq_some.mp hstep
    obtain ⟨hm, hcode⟩ := inCode_iff.mp hc
    refine conserved_testP (inv_level hi .intOff) hm (h.of_same rfl rfl fun _ => Nat.le_refl _) hs
      (Or.inl ?_) k.level
    unfold current at hcode ⊢
    rw [hcode]
    rfl
  | v s =>
    obtain ⟨-, rfl⟩ := Option.ite_some_none_eq_some.mp hstep
    exact conserved_V hi h
  | yield =>
    obtain ⟨hc, rfl⟩ := Option.ite_some_none_eq_some.mp hstep
    exact conserved_yield hi (inCode_iff.mp hc).1 (inCode_iff.mp hc).2 h
  | finish =>
    obtain ⟨hc, rfl⟩ := Option.ite_some_none_eq_some.mp hstep
    exact conserved_finish hi (inCode_iff.mp hc).1 (inCode_iff.mp hc).2 h
  | handlerV s =>
    obtain ⟨-, rfl⟩ := Option.ite_some_none_eq_some.mp hstep
    exact conserved_V hi h
  | timerYield =>
    obtain ⟨⟨hc, -⟩, rfl⟩ := Option.ite_some_none_eq_some.mp hstep
    exact conserved_yield hi (inCode_iff.mp hc).1 (inCode_iff.mp hc).2 h
  | resume =>
    obtain ⟨hm, hr⟩ := Option.ite_none_right_eq_some.mp hstep
    exact conserved_resume hi hm h hr
  | idle =>
    obtain ⟨hm, rfl⟩ := Option.ite_some_none_eq_some.mp hstep
    exact conserved_dispatch h (hi.parked_of_idling hm) rfl rfl fun _ => Nat.le_refl _
  | halt =>
    obtain ⟨-, rfl⟩ := Option.ite_some_none_eq_some.mp hstep
    exact h.of_same rfl rfl fun _ => Nat.le_refl _

/-- In every state of every run, each semaphore created with a non-negative value and not
overflowed by its `V`s has the value `init + V - P ≥ 0`, and while a thread waits on it the
value is at most the number of threads already woken to take it. -/
theorem conserved_throughout (ls : List Label) : Runs.AllStates step AllConserved boot ls := by
  have hboth : Runs.AllStates step (fun k => Inv k ∧ AllConserved k) boot ls :=
    Runs.allStates_of_invariant (fun k l k' h hs => ⟨inv_step h.1 hs, conserved_step h.1 h.2 hs⟩)
      ⟨inv_boot, fun s hs => absurd hs (Nat.not_lt_zero s)⟩ ls
  exact hboth.mono fun _ h => h.2

/-! ## What the law counts -/

/-- The step is a `V` of the semaphore, by a thread or by a handler. -/
def GivesUnit (s : SemId) (l : Label) : Prop := l = .v s ∨ l = .handlerV s

/-- The step completes a `P` of the semaphore: its effect is that the current thread takes a unit. -/
def TakesUnit (s : SemId) (k : Kernel) (l : Label) : Prop := k.effect l = .take k.currentThread s

instance (s : SemId) (l : Label) : Decidable (GivesUnit s l) := inferInstanceAs (Decidable (_ ∨ _))

instance (s : SemId) (k : Kernel) (l : Label) : Decidable (TakesUnit s k l) :=
  inferInstanceAs (Decidable (_ = _))

section Counts

variable {k k' : Kernel} {l : Label}

theorem testEffect_take {t : Tid} {s s' : SemId} (h : k.testEffect s' = .take t s) :
    t = k.currentThread ∧ s' = s := by
  unfold testEffect at h
  split at h
  · cases h
  · obtain ⟨ht, hs⟩ := Effect.take.inj h
    exact ⟨ht.symm, hs⟩

theorem testEffect_ne_give (k : Kernel) (s s' : SemId) : k.testEffect s' ≠ .give s := by
  unfold testEffect
  split
  · exact Effect.noConfusion
  · exact Effect.noConfusion

/-- Only semaphores that exist are used. -/
theorem uses_lt (hi : Inv k) (hstep : step k l = some k') {s : SemId}
    (h : TakesUnit s k l ∨ GivesUnit s l) : s < k.numSems := by
  rcases h with htake | rfl | rfl
  · unfold TakesUnit effect at htake
    split at htake <;> try cases htake
    · rename_i s'
      obtain ⟨⟨-, hs⟩, -⟩ := Option.ite_some_none_eq_some.mp hstep
      exact (testEffect_take htake).2 ▸ hs
    · split at htake
      · rename_i s' hwaits
        exact (testEffect_take htake).2 ▸ hi.places.waits _ s' hwaits
      · cases htake
  · obtain ⟨⟨-, hs⟩, -⟩ := Option.ite_some_none_eq_some.mp hstep
    exact hs
  · obtain ⟨⟨hs, -⟩, -⟩ := Option.ite_some_none_eq_some.mp hstep
    exact hs

theorem effect_take {t : Tid} {s : SemId} (h : k.effect l = .take t s) : t = k.currentThread := by
  unfold effect at h
  split at h <;> try cases h
  · exact (testEffect_take h).1
  · split at h
    · exact (testEffect_take h).1
    · cases h

theorem effect_give_iff {s : SemId} : k.effect l = .give s ↔ GivesUnit s l := by
  unfold GivesUnit effect
  cases l with
  | p s' => simpa using testEffect_ne_give k s s'
  | resume =>
    simp only [reduceCtorEq, or_self, iff_false]
    split
    · exact testEffect_ne_give k s _
    · simp
  | _ => simp

/-- A semaphore that does not exist yet has no history. -/
def NoHistory (k : Kernel) : Prop :=
  ∀ s, k.numSems ≤ s → (k.sems s).completedV = 0 ∧ (k.sems s).completedP = 0

/-- What an effect of the current thread adds to the history of a semaphore. -/
theorem completed_apply (hn : NoHistory k) (e : Effect)
    (hself : ∀ t s, e = .take t s → t = k.currentThread) (s : SemId) :
    ((k.view.apply e).sems s).completedV = (k.sems s).completedV + (if e = .give s then 1 else 0) ∧
      ((k.view.apply e).sems s).completedP =
        (k.sems s).completedP + (if e = .take k.currentThread s then 1 else 0) := by
  cases e with
  | quiet => exact ⟨rfl, rfl⟩
  | spawn => exact ⟨rfl, rfl⟩
  | block t s' => exact ⟨rfl, rfl⟩
  | create initialValue =>
    by_cases hs : s = k.numSems
    · subst hs
      obtain ⟨hV0, hP0⟩ := hn k.numSems (Nat.le_refl _)
      rw [hV0, hP0]
      simp [View.apply, Kernel.view]
    · simp [View.apply, Kernel.view, hs]
  | take t s' =>
    obtain rfl := hself t s' rfl
    by_cases hs : s = s'
    · subst hs
      simp [View.apply, Kernel.view]
    · simp [View.apply, Kernel.view, hs, Ne.symm hs]
  | give s' =>
    by_cases hs : s = s'
    · subst hs
      simp [View.apply, Kernel.view]
    · simp [View.apply, Kernel.view, hs, Ne.symm hs]

/-- What a step adds to the history of a semaphore. -/
theorem completed_step (hi : Inv k) (hu : Unforked k) (hn : NoHistory k)
    (hstep : step k l = some k') (s : SemId) :
    (k'.sems s).completedV = (k.sems s).completedV + (if GivesUnit s l then 1 else 0) ∧
      (k'.sems s).completedP = (k.sems s).completedP + (if TakesUnit s k l then 1 else 0) := by
  obtain ⟨hV, hP⟩ := completed_apply hn (k.effect l) (fun _ _ => effect_take) s
  rw [← view_step hi hu hstep] at hV hP
  refine ⟨hV.trans ?_, hP.trans ?_⟩
  · simp only [effect_give_iff]
  · rfl

theorem numSems_le_step (hi : Inv k) (hu : Unforked k) (hstep : step k l = some k') :
    k.numSems ≤ k'.numSems := by
  have hview : k'.numSems = (k.view.apply (k.effect l)).numSems :=
    congrArg View.numSems (view_step hi hu hstep)
  rw [hview]
  cases k.effect l with
  | create initialValue => exact Nat.le_succ _
  | _ => exact Nat.le_refl _

theorem noHistory_step (hi : Inv k) (hu : Unforked k) (hn : NoHistory k)
    (hstep : step k l = some k') : NoHistory k' := by
  intro s hs
  have hold : k.numSems ≤ s := Nat.le_trans (numSems_le_step hi hu hstep) hs
  obtain ⟨hV, hP⟩ := completed_step hi hu hn hstep s
  obtain ⟨hV0, hP0⟩ := hn s hold
  have hgives : ¬ GivesUnit s l := fun h => absurd (uses_lt hi hstep (Or.inr h)) (Nat.not_lt.mpr hold)
  have htakes : ¬ TakesUnit s k l := fun h => absurd (uses_lt hi hstep (Or.inl h)) (Nat.not_lt.mpr hold)
  rw [if_neg hgives] at hV
  rw [if_neg htakes] at hP
  exact ⟨hV.trans hV0, hP.trans hP0⟩

/-- At the end of a run, the history of a semaphore has the numbers of its `V`s and of its completed
`P`s in the run. -/
theorem completed_eq {ls : List Label} {k : Kernel} (hrun : Runs.run step boot ls = some k)
    (s : SemId) :
    (k.sems s).completedV = Runs.numSteps step (fun _ l => GivesUnit s l) boot ls ∧
      (k.sems s).completedP = Runs.numSteps step (TakesUnit s) boot ls := by
  have h0 : Inv boot ∧ Unforked boot ∧ NoHistory boot :=
    ⟨inv_boot, unforked_boot, fun _ _ => ⟨rfl, rfl⟩⟩
  have hkeep : ∀ k l k', Inv k ∧ Unforked k ∧ NoHistory k → step k l = some k' →
      Inv k' ∧ Unforked k' ∧ NoHistory k' := fun _ _ _ h hs =>
    ⟨inv_step h.1 hs, unforked_step h.1 h.2.1 hs, noHistory_step h.1 h.2.1 h.2.2 hs⟩
  have hV := Runs.numSteps_eq (f := fun k => (k.sems s).completedV) hkeep
    (fun _ _ _ h hs => (completed_step h.1 h.2.1 h.2.2 hs s).1) h0 hrun
  have hP := Runs.numSteps_eq (f := fun k => (k.sems s).completedP) hkeep
    (fun _ _ _ h hs => (completed_step h.1 h.2.1 h.2.2 hs s).2) h0 hrun
  exact ⟨hV.trans (Nat.zero_add _), hP.trans (Nat.zero_add _)⟩

end Counts

end Nachos.Threads
