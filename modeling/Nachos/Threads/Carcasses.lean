import Nachos.Threads.Scheduling

/-!
# Threads that have finished

`Thread::Finish` stores the thread in `threadToBeDestroyed` and sleeps. It is deleted by the thread
that runs next, in the code of `Scheduler::Run` after `SWITCH`. A thread that runs for the first time
does not come back from `SWITCH`: it starts at `ThreadRoot`, which deletes nothing. If such a thread
finishes as well, the variable is overwritten, and the thread that was in it is never deleted.

No finished thread is lost exactly in the runs in which `Finish` is called only when
`threadToBeDestroyed` is empty (`noneForgotten_iff`).
-/

namespace Nachos.Threads

open Function (update update_of_ne update_self)
open Kernel

/-- The thread has called `Finish` and has not been deleted. -/
def Kernel.Carcass (k : Kernel) (t : Tid) : Prop :=
  (k.threads t).resume = .inFinish ∧ (k.threads t).deleted = false

/-- The thread that the current thread deletes as it comes back from `SWITCH`. -/
def Kernel.deletes (k : Kernel) : Option Tid :=
  match k.mode, k.current.resume with
  | .running, .inP _ _ => k.threadToBeDestroyed
  | .running, .inYield _ => k.threadToBeDestroyed
  | _, _ => none

/-- No finished thread is lost. -/
structure NoneForgotten (k : Kernel) : Prop where
  stored : ∀ t, k.Carcass t → k.threadToBeDestroyed = some t
  /-- The thread that is deleted does not run and is on no list. -/
  deletes : ∀ t, k.deletes = some t →
    t ≠ k.currentThread ∧ t ∉ k.readyList ∧ ∀ s, t ∉ (k.sems s).queue
  atMostOne : ∀ t u, k.Carcass t → k.Carcass u → t = u

/-- `Finish` finds `threadToBeDestroyed` empty. -/
def FindsEmpty (k : Kernel) (l : Label) : Prop := l = .finish → k.threadToBeDestroyed = none

instance (k : Kernel) (l : Label) : Decidable (FindsEmpty k l) :=
  inferInstanceAs (Decidable (l = .finish → k.threadToBeDestroyed = none))

/-- The invariant of the runs in which `Finish` finds the variable empty. -/
structure CarcassInv (k : Kernel) : Prop where
  inv : Inv k
  stored : ∀ t, k.Carcass t → k.threadToBeDestroyed = some t
  alive : ∀ t, k.threadToBeDestroyed = some t → (k.threads t).deleted = false
  dead : ∀ t, (k.threads t).deleted = true → (k.threads t).resume = .inFinish

theorem CarcassInv.noneForgotten {k : Kernel} (h : CarcassInv k) : NoneForgotten k := by
  refine ⟨h.stored, fun t ht => ?_, fun t u ht hu => ?_⟩
  · obtain ⟨hmode, hslot⟩ : k.mode = .running ∧ k.threadToBeDestroyed = some t := by
      unfold Kernel.deletes at ht
      split at ht
      next hmode _ => exact ⟨hmode, ht⟩
      next hmode _ => exact ⟨hmode, ht⟩
      next => cases ht
    have hfinished := h.inv.places.destroyed t hslot
    have hblocked := h.inv.places.finished t hfinished
    refine ⟨?_, ?_, fun s => ?_⟩
    · rintro rfl
      exact h.inv.current_not_finished hmode hfinished
    · rw [h.inv.places.mem_ready, hblocked]
      simp
    · rw [h.inv.places.mem_queue, hfinished]
      simp [Resume.waitsOn]
  · exact Option.some.inj ((h.stored t ht).symm.trans (h.stored u hu))

/-! ## Steps that neither finish nor delete a thread -/

/-- The same threads have finished, the same have been deleted, and the same one is stored. -/
structure SameCarcasses (k k' : Kernel) : Prop where
  stored : k'.threadToBeDestroyed = k.threadToBeDestroyed
  finished : ∀ t, (k'.threads t).resume = .inFinish ↔ (k.threads t).resume = .inFinish
  deleted : ∀ t, (k'.threads t).deleted = (k.threads t).deleted

namespace SameCarcasses

variable {k k' k'' : Kernel}

theorem refl (k : Kernel) : SameCarcasses k k := ⟨rfl, fun _ => Iff.rfl, fun _ => rfl⟩

theorem trans (h : SameCarcasses k k') (h' : SameCarcasses k' k'') : SameCarcasses k k'' :=
  ⟨h'.stored.trans h.stored, fun t => (h'.finished t).trans (h.finished t),
    fun t => (h'.deleted t).trans (h.deleted t)⟩

/-- One control block changes. -/
theorem of_update {t : Tid} {th : Thread} (hthreads : k'.threads = update k.threads t th)
    (hstored : k'.threadToBeDestroyed = k.threadToBeDestroyed)
    (hfinished : th.resume = .inFinish ↔ (k.threads t).resume = .inFinish)
    (hdeleted : th.deleted = (k.threads t).deleted) : SameCarcasses k k' := by
  refine ⟨hstored, fun u => ?_, fun u => ?_⟩ <;> rw [hthreads]
  · by_cases hu : u = t
    · subst hu
      rw [update_self]
      exact hfinished
    · rw [update_of_ne hu]
  · by_cases hu : u = t
    · subst hu
      rw [update_self]
      exact hdeleted
    · rw [update_of_ne hu]

theorem readyToRun (k : Kernel) (t : Tid) : SameCarcasses k (k.readyToRun t) :=
  of_update rfl rfl Iff.rfl rfl

theorem dispatch (k : Kernel) : SameCarcasses k k.dispatch := by
  unfold Kernel.dispatch
  split
  · exact ⟨rfl, fun _ => Iff.rfl, fun _ => rfl⟩
  · exact of_update rfl rfl Iff.rfl rfl

theorem V (k : Kernel) (s : SemId) : SameCarcasses k (k.V s) := by
  unfold Kernel.V
  split
  · exact ⟨rfl, fun _ => Iff.rfl, fun _ => rfl⟩
  · exact of_update rfl rfl Iff.rfl rfl

section Current

variable (h : Inv k) (hm : k.mode = .running)

include h hm

/-- The current thread goes on elsewhere than in `Finish`. -/
theorem of_current (status : ThreadStatus) (r : Resume) (hr : r ≠ .inFinish)
    (hthreads : k'.threads = update k.threads k.currentThread
      { k.current with status := status, resume := r })
    (hstored : k'.threadToBeDestroyed = k.threadToBeDestroyed) : SameCarcasses k k' :=
  of_update hthreads hstored (iff_of_false hr (h.current_not_finished hm)) rfl

theorem continueAt (l : IntStatus) : SameCarcasses k (k.continueAt l) :=
  of_current h hm _ .code (by simp) rfl rfl

theorem testP (s : SemId) (l : IntStatus) : SameCarcasses k (k.testP s l) := by
  unfold Kernel.testP
  split
  · have hsleep : SameCarcasses k ((k.setSem s ((k.sems s).enqueue k.currentThread)).setThread
        k.currentThread { k.current with status := .blocked, resume := .inP s l }) :=
      of_current h hm _ (.inP s l) (by simp) rfl rfl
    exact hsleep.trans (dispatch _)
  · exact of_current h hm _ .code (by simp) rfl rfl

theorem yield : SameCarcasses k k.yield := by
  cases hlist : k.readyList with
  | nil =>
    rw [Kernel.yield, hlist]
    exact refl k
  | cons next rest =>
    rw [yield_eq hlist]
    have hparked : SameCarcasses k ({ k with level := .intOff }.setThread k.currentThread
        { k.current with resume := .inYield k.level }) :=
      of_current h hm _ (.inYield k.level) (by simp) rfl rfl
    exact (hparked.trans (readyToRun _ _)).trans (dispatch _)

end Current

end SameCarcasses

theorem CarcassInv.of_same {k k' : Kernel} (h : CarcassInv k) (hsame : SameCarcasses k k')
    (h' : Inv k') : CarcassInv k' := by
  refine ⟨h', fun t ht => ?_, fun t ht => ?_, fun t ht => ?_⟩
  · rw [hsame.stored]
    exact h.stored t ⟨(hsame.finished t).mp ht.1, (hsame.deleted t).symm.trans ht.2⟩
  · rw [hsame.deleted]
    exact h.alive t (hsame.stored.symm.trans ht)
  · exact (hsame.finished t).mpr (h.dead t ((hsame.deleted t).symm.trans ht))

/-! ## Runs -/

/-- Deleting the stored thread leaves no other. -/
theorem CarcassInv.reap {k : Kernel} (h : CarcassInv k) (hm : k.mode = .running) :
    CarcassInv k.reap := by
  have hinv := inv_reap h.inv hm
  cases hslot : k.threadToBeDestroyed with
  | none =>
    have hsame : k.reap = k := by rw [Kernel.reap, hslot]
    rw [hsame]
    exact h
  | some d =>
    have hne : d ≠ k.currentThread := by
      rintro rfl
      exact h.inv.current_not_finished hm (h.inv.places.destroyed _ hslot)
    have hreap : k.reap = { k.setThread d { k.threads d with deleted := true } with
        threadToBeDestroyed := none } := by
      simp only [Kernel.reap, hslot, if_neg hne]
    refine ⟨hinv, fun t ht => ?_, fun t ht => ?_, fun t ht => ?_⟩
    · rw [hreap] at ht
      obtain ⟨hfinished, hdeleted⟩ := ht
      by_cases htd : t = d
      · subst htd
        simp [setThread] at hdeleted
      · simp only [setThread, update_of_ne htd] at hfinished hdeleted
        have hstored := h.stored t ⟨hfinished, hdeleted⟩
        rw [hslot] at hstored
        exact absurd (Option.some.inj hstored).symm htd
    · rw [hreap] at ht
      cases ht
    · rw [hreap] at ht ⊢
      by_cases htd : t = d
      · subst htd
        simpa [setThread] using h.inv.places.destroyed t hslot
      · simp only [setThread, update_of_ne htd] at ht ⊢
        exact h.dead t ht

theorem CarcassInv.resume {k k' : Kernel} (h : CarcassInv k) (hm : k.mode = .running)
    (hstep : k.resume = some k') (h' : Inv k') : CarcassInv k' := by
  have hreap := h.reap hm
  have hmode := reap_mode h.inv hm
  unfold Kernel.resume at hstep
  split at hstep
  next =>
    cases hstep
    exact h.of_same (.continueAt h.inv hm .intOn) h'
  next s l _ =>
    rw [hmode] at hstep
    cases hstep
    exact hreap.of_same (.testP hreap.inv hmode s l) h'
  next l _ =>
    rw [hmode] at hstep
    cases hstep
    exact hreap.of_same (.continueAt hreap.inv hmode l) h'
  next => cases hstep
  next => cases hstep

/-- The threads after `Finish`. -/
theorem finish_threads (k : Kernel) (t : Tid) :
    k.finish.threadToBeDestroyed = some k.currentThread ∧
      (k.finish.threads t).deleted = (k.threads t).deleted ∧
      ((k.finish.threads t).resume = .inFinish ↔
        t = k.currentThread ∨ (k.threads t).resume = .inFinish) := by
  have hsame := SameCarcasses.dispatch
    ({ k with level := .intOff, threadToBeDestroyed := some k.currentThread }.setThread
      k.currentThread { k.current with status := .blocked, resume := .inFinish })
  refine ⟨hsame.stored, (hsame.deleted t).trans ?_, (hsame.finished t).trans ?_⟩
  · by_cases ht : t = k.currentThread
    · subst ht
      simp [setThread, current]
    · simp [setThread, ht]
  · by_cases ht : t = k.currentThread
    · subst ht
      simp [setThread]
    · simp [setThread, ht]

theorem CarcassInv.finish {k : Kernel} (h : CarcassInv k) (hm : k.mode = .running)
    (hempty : k.threadToBeDestroyed = none) (h' : Inv k.finish) : CarcassInv k.finish := by
  have hcurrent : k.current.deleted = false :=
    Bool.eq_false_iff.mpr fun hdeleted => h.inv.current_not_finished hm (h.dead _ hdeleted)
  refine ⟨h', fun t ht => ?_, fun t ht => ?_, fun t ht => ?_⟩
  · obtain ⟨hstored, hdeleted, hfinished⟩ := finish_threads k t
    rcases hfinished.mp ht.1 with rfl | hold
    · exact hstored
    · have hcarcass := h.stored t ⟨hold, hdeleted.symm.trans ht.2⟩
      rw [hempty] at hcarcass
      cases hcarcass
  · obtain ⟨hstored, hdeleted, -⟩ := finish_threads k t
    obtain rfl := Option.some.inj (hstored.symm.trans ht)
    exact hdeleted.trans hcurrent
  · obtain ⟨-, hdeleted, hfinished⟩ := finish_threads k t
    exact hfinished.mpr (.inr (h.dead t (hdeleted.symm.trans ht)))

theorem CarcassInv.step {k k' : Kernel} {l : Label} (h : CarcassInv k) (hgood : FindsEmpty k l)
    (hstep : Threads.step k l = some k') : CarcassInv k' := by
  have h' := inv_step h.inv hstep
  cases l with
  | newThread =>
    obtain ⟨-, rfl⟩ := Option.ite_some_none_eq_some.mp hstep
    have hfresh := h.inv.places.unused k.numThreads (Nat.le_refl _)
    exact h.of_same (.of_update rfl rfl (by rw [hfresh]) (by rw [hfresh])) h'
  | fork t =>
    obtain ⟨⟨-, -, hnew⟩, rfl⟩ := Option.ite_some_none_eq_some.mp hstep
    have hnot : (k.threads t).resume ≠ .inFinish := by
      intro hfinished
      rw [h.inv.places.finished t hfinished] at hnew
      cases hnew
    have hroot : SameCarcasses k (k.setThread t { k.threads t with resume := .root }) :=
      .of_update rfl rfl (iff_of_false (by simp) hnot) rfl
    exact h.of_same (hroot.trans (.readyToRun _ _)) h'
  | newSemaphore v =>
    obtain ⟨-, rfl⟩ := Option.ite_some_none_eq_some.mp hstep
    exact h.of_same ⟨rfl, fun _ => Iff.rfl, fun _ => rfl⟩ h'
  | p s =>
    obtain ⟨⟨hc, -⟩, rfl⟩ := Option.ite_some_none_eq_some.mp hstep
    have hlevel : SameCarcasses k { k with level := .intOff } := ⟨rfl, fun _ => Iff.rfl, fun _ => rfl⟩
    exact h.of_same (hlevel.trans (.testP (inv_level h.inv .intOff) (inCode_iff.mp hc).1 s k.level)) h'
  | v s =>
    obtain ⟨-, rfl⟩ := Option.ite_some_none_eq_some.mp hstep
    exact h.of_same (.V k s) h'
  | yield =>
    obtain ⟨hc, rfl⟩ := Option.ite_some_none_eq_some.mp hstep
    exact h.of_same (.yield h.inv (inCode_iff.mp hc).1) h'
  | finish =>
    obtain ⟨hc, rfl⟩ := Option.ite_some_none_eq_some.mp hstep
    exact h.finish (inCode_iff.mp hc).1 (hgood rfl) h'
  | handlerV s =>
    obtain ⟨-, rfl⟩ := Option.ite_some_none_eq_some.mp hstep
    exact h.of_same (.V k s) h'
  | timerYield =>
    obtain ⟨⟨hc, -⟩, rfl⟩ := Option.ite_some_none_eq_some.mp hstep
    exact h.of_same (.yield h.inv (inCode_iff.mp hc).1) h'
  | resume =>
    obtain ⟨hm, hr⟩ := Option.ite_none_right_eq_some.mp hstep
    exact h.resume hm hr h'
  | idle =>
    obtain ⟨-, rfl⟩ := Option.ite_some_none_eq_some.mp hstep
    exact h.of_same (.dispatch k) h'
  | halt =>
    obtain ⟨-, rfl⟩ := Option.ite_some_none_eq_some.mp hstep
    exact h.of_same ⟨rfl, fun _ => Iff.rfl, fun _ => rfl⟩ h'

/-- `Finish` overwrites a thread that is still stored, which is then lost. -/
theorem CarcassInv.forgets {k k' : Kernel} {l : Label} (h : CarcassInv k) (hbad : ¬ FindsEmpty k l)
    (hstep : Threads.step k l = some k') : ¬ NoneForgotten k' := by
  obtain ⟨rfl, hslot⟩ := Classical.not_imp.mp hbad
  obtain ⟨d, hd⟩ := Option.ne_none_iff_exists'.mp hslot
  obtain ⟨hc, rfl⟩ := Option.ite_some_none_eq_some.mp hstep
  have hold := h.inv.places.destroyed d hd
  have hne : d ≠ k.currentThread := by
    rintro rfl
    exact h.inv.current_not_finished (inCode_iff.mp hc).1 hold
  obtain ⟨hstored, hdeleted, hfinished⟩ := finish_threads k d
  intro hnone
  have hlost := hnone.stored d ⟨hfinished.mpr (.inr hold), hdeleted.trans (h.alive d hd)⟩
  exact hne (Option.some.inj (hlost.symm.trans hstored))

theorem CarcassInv.boot : CarcassInv Threads.boot := by
  have hnone : ∀ t, (Threads.boot.threads t).resume ≠ .inFinish ∧
      (Threads.boot.threads t).deleted = false := by
    intro t
    by_cases ht : t = 0
    · subst ht
      decide
    · simp [Threads.boot, ht]
  refine ⟨inv_boot, fun t ht => absurd ht.1 (hnone t).1, fun t _ => (hnone t).2, fun t ht => ?_⟩
  rw [(hnone t).2] at ht
  cases ht

/-- In a run no finished thread is lost exactly when every `Finish` finds `threadToBeDestroyed`
empty. -/
theorem noneForgotten_iff (ls : List Label) :
    Runs.AllStates step NoneForgotten boot ls ↔ Runs.AllSteps step FindsEmpty boot ls :=
  Runs.allStates_iff_allSteps (fun _ h => h.noneForgotten)
    (fun _ _ _ h hgood hstep => h.step hgood hstep)
    (fun _ _ _ h hbad hstep => h.forgets hbad hstep) CarcassInv.boot ls

/-- Two threads are forked and finish one after the other, before "main" runs again. -/
def finishRun : List Label :=
  [.newThread, .fork 1, .newThread, .fork 2, .yield, .resume, .finish, .resume, .finish]

theorem not_noneForgotten_finishRun : ¬ Runs.AllStates step NoneForgotten boot finishRun := by
  intro h
  have hrun : (Runs.run step boot finishRun).map
      (fun k => ((k.threads 1).resume, (k.threads 1).deleted, k.threadToBeDestroyed)) =
      some (.inFinish, false, some 2) := by decide
  obtain ⟨k, hk, hstate⟩ := Option.map_eq_some_iff.mp hrun
  obtain ⟨hfinished, hdeleted, hslot⟩ : (k.threads 1).resume = .inFinish ∧
      (k.threads 1).deleted = false ∧ k.threadToBeDestroyed = some 2 := by simpa using hstate
  have hlost := (h.of_run hk).stored 1 ⟨hfinished, hdeleted⟩
  rw [hslot] at hlost
  cases hlost

end Nachos.Threads
