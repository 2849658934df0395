import Nachos.Threads.Scheduling

/-!
# The interrupt level

A thread's own code runs with interrupts on; from the moment a thread gives up the CPU until
the next one is back in its own code they are off. `Thread::Sleep` asserts just that when a
woken thread finds the value of its semaphore zero again. The invariant also says where a thread
that is not running continues: in `ThreadRoot`, `P`, `Yield` or `Finish`, never in its own code.
-/

namespace Nachos.Threads

open Function (update update_of_ne update_self)
open Kernel

/-- The interrupt level that `P` or `Yield` will restore. -/
def Resume.saved : Resume → IntStatus
  | .inP _ oldLevel | .inYield oldLevel => oldLevel
  | .code | .root | .inFinish => .intOn

/-- The control block of a thread, by whether it runs. -/
structure OffCpu (th : Thread) : Prop where
  saved : th.resume.saved = .intOn
  code : th.status ≠ .running → th.resume ≠ .code

structure Levels (k : Kernel) : Prop where
  threads : ∀ t, OffCpu (k.threads t)
  code : k.mode = .running → k.current.resume = .code → k.level = .intOn
  switching : k.mode = .running → k.current.resume ≠ .code → k.level = .intOff
  idling : k.mode = .idling → k.level = .intOff

section Operations

variable {k : Kernel}

theorem offCpu_update (h : ∀ t, OffCpu (k.threads t)) {t : Tid} {th : Thread} (hth : OffCpu th)
    (u : Tid) : OffCpu (update k.threads t th u) := by
  by_cases hu : u = t
  · subst hu
    rwa [update_self]
  · rw [update_of_ne hu]
    exact h u

/-- Dispatching with interrupts off. -/
theorem levels_dispatch (hp : Parked k) (h : ∀ t, OffCpu (k.threads t)) (hl : k.level = .intOff) :
    Levels k.dispatch := by
  unfold dispatch
  split
  · rename_i hlist
    exact ⟨h, fun hm => (by cases hm), fun hm => (by cases hm), fun _ => hl⟩
  · rename_i next rest hlist
    have hready : (k.threads next).status = .ready := hp.places.mem_ready.mp (by simp [hlist])
    have hcode : (k.threads next).resume ≠ .code := (h next).code (by rw [hready]; simp)
    have hcur : ({ k with readyList := rest }.run next).current.resume = (k.threads next).resume := by
      simp [current, Kernel.run, setThread]
    refine ⟨fun t => ?_, fun _ hr => ?_, fun _ _ => hl, fun hm => ?_⟩
    · refine offCpu_update h ?_ t
      exact ⟨(h next).saved, fun hr => absurd rfl hr⟩
    · rw [hcur] at hr
      exact absurd hr hcode
    · cases hm

theorem levels_sleep {r : Resume} (hp : Parked (k.setThread k.currentThread
      { k.current with status := .blocked, resume := r })) (h : ∀ t, OffCpu (k.threads t))
    (hl : k.level = .intOff) (hs : r.saved = .intOn) (hc : r ≠ .code) : Levels (k.sleep r) :=
  levels_dispatch hp (offCpu_update h ⟨hs, fun _ => hc⟩) hl

theorem levels_continueAt (hi : Inv k) (hm : k.mode = .running) (h : ∀ t, OffCpu (k.threads t)) :
    Levels (k.continueAt .intOn) := by
  have hcur : (k.continueAt .intOn).current.resume = .code := by
    simp [current, continueAt, setThread]
  have hmode : (k.continueAt .intOn).mode = .running := hm
  refine ⟨offCpu_update h ⟨rfl, fun hr => ?_⟩, fun _ _ => rfl, fun _ hr => absurd hcur hr, fun hi => ?_⟩
  · exact absurd (hi.current_running hm) hr
  · rw [hmode] at hi
    cases hi

theorem levels_testP (hi : Inv k) (hm : k.mode = .running) {s : SemId} (hs : s < k.numSems)
    (h : ∀ t, OffCpu (k.threads t)) (hl : k.level = .intOff) : Levels (k.testP s .intOn) := by
  unfold testP
  split
  · exact levels_sleep (k := k.setSem s _) (parked_sleepP hi hm hs .intOn) h hl rfl (by simp)
  · have hq : (k.sems s).take.queue = (k.sems s).queue := rfl
    exact levels_continueAt (k := k.setSem s _) (inv_setSem hi hq) hm h

theorem levels_yield (hi : Inv k) (hm : k.mode = .running) (hc : k.current.resume = .code)
    (h : Levels k) : Levels k.yield := by
  have hlevel := h.code hm hc
  cases hlist : k.readyList with
  | nil => simpa only [Kernel.yield, hlist] using h
  | cons next rest =>
    rw [yield_eq hlist]
    refine levels_dispatch (parked_yield hi hm) (fun t => ?_) rfl
    refine offCpu_update (k := { k with level := .intOff }.setThread k.currentThread
      { k.current with resume := .inYield k.level }) (fun u => ?_) ?_ t
    · refine offCpu_update h.threads ⟨?_, fun _ => by simp⟩ u
      exact hlevel
    · refine ⟨?_, fun _ => ?_⟩
      · simpa [setThread, Resume.saved] using hlevel
      · simp [setThread]

/-- `V` changes no thread's place in the code. -/
theorem V_resume (s : SemId) (t : Tid) : ((k.V s).threads t).resume = (k.threads t).resume := by
  cases hq : (k.sems s).queue with
  | nil =>
    rw [V_of_nil hq]
    rfl
  | cons u rest =>
    rw [V_of_cons hq]
    by_cases htu : t = u
    · subst htu
      simp [readyToRun, setThread, setSem]
    · simp [readyToRun, setThread, setSem, htu]

theorem V_same (s : SemId) : (k.V s).currentThread = k.currentThread ∧ (k.V s).mode = k.mode ∧
    (k.V s).level = k.level := by
  cases hq : (k.sems s).queue with
  | nil =>
    rw [V_of_nil hq]
    exact ⟨rfl, rfl, rfl⟩
  | cons u rest =>
    rw [V_of_cons hq]
    exact ⟨rfl, rfl, rfl⟩

theorem levels_V (hi : Inv k) (h : Levels k) (s : SemId) : Levels (k.V s) := by
  obtain ⟨hcur, hmode, hlevel⟩ := V_same (k := k) s
  have hresume : (k.V s).current.resume = k.current.resume := by
    unfold current
    rw [hcur]
    exact V_resume s _
  refine ⟨fun t => ?_, ?_, ?_, ?_⟩
  · refine ⟨by rw [V_resume]; exact (h.threads t).saved, fun hrun => ?_⟩
    rw [V_resume]
    -- a running thread would be running after `V` too
    refine (h.threads t).code fun hr => hrun ?_
    rw [(inv_V hi).running t, hcur, hmode]
    exact (hi.running t).mp hr
  · rw [hmode, hresume, hlevel]
    exact h.code
  · rw [hmode, hresume, hlevel]
    exact h.switching
  · rw [hmode, hlevel]
    exact h.idling

theorem levels_fork (hi : Inv k) (hc : k.inCode = true) (h : Levels k) {t : Tid}
    (hnew : (k.threads t).status = .justCreated) : Levels (k.fork t) := by
  obtain ⟨hm, hcode⟩ := inCode_iff.mp hc
  have hne : k.currentThread ≠ t := by
    rintro rfl
    have hrun := hi.current_running hm
    unfold current at hrun
    rw [hrun] at hnew
    cases hnew
  have hcur : (k.fork t).current = k.current := by
    simp [Kernel.fork, readyToRun, setThread, current, hne]
  refine ⟨fun u => ?_, fun _ _ => h.code hm hcode, fun _ hr => ?_, fun hidle => ?_⟩
  · refine offCpu_update (k := k.setThread t { k.threads t with resume := .root }) (fun v => ?_) ?_ u
    · exact offCpu_update h.threads ⟨rfl, fun _ => by simp⟩ v
    · exact ⟨by simp [setThread, Resume.saved], fun _ => by simp [setThread]⟩
  · rw [hcur] at hr
    exact absurd hcode hr
  · rw [show (k.fork t).mode = k.mode from rfl, hm] at hidle
    cases hidle

theorem levels_newThread (hi : Inv k) (hc : k.inCode = true) (h : Levels k) : Levels k.newThread := by
  obtain ⟨hm, hcode⟩ := inCode_iff.mp hc
  have hsame : k.newThread.threads = k.threads := by
    show update k.threads k.numThreads {} = k.threads
    rw [← hi.places.unused k.numThreads (Nat.le_refl _), Function.update_eq_self]
  have hcur : k.newThread.current = k.current := by
    unfold current
    rw [hsame]
    rfl
  refine ⟨by rw [hsame]; exact h.threads, fun _ _ => h.code hm hcode, fun _ hr => ?_, fun hidle => ?_⟩
  · rw [hcur] at hr
    exact absurd hcode hr
  · rw [show k.newThread.mode = k.mode from rfl, hm] at hidle
    cases hidle

theorem offCpu_reap (h : ∀ t, OffCpu (k.threads t)) (t : Tid) : OffCpu (k.reap.threads t) := by
  unfold reap
  split
  · exact h t
  · rename_i u _
    split
    · exact h t
    · refine offCpu_update h ?_ t
      exact ⟨(h u).saved, (h u).code⟩

theorem reap_level : k.reap.level = k.level := by
  unfold reap
  split
  · rfl
  · split <;> rfl

theorem levels_resume (hi : Inv k) (hm : k.mode = .running) (h : Levels k) {k' : Kernel}
    (hstep : k.resume = some k') : Levels k' := by
  have hreap := inv_reap hi hm
  have hmode := reap_mode hi hm
  have hoff := offCpu_reap h.threads
  have hsaved := (h.threads k.currentThread).saved
  change k.current.resume.saved = .intOn at hsaved
  unfold Kernel.resume at hstep
  split at hstep
  · cases hstep
    exact levels_continueAt hi hm h.threads
  · rename_i s l hr
    rw [hmode] at hstep
    cases hstep
    rw [hr] at hsaved
    obtain rfl : l = .intOn := hsaved
    have hs : s < k.numSems := hi.places.waits k.currentThread s (by
      unfold current at hr
      rw [hr]
      rfl)
    refine levels_testP hreap hmode (by rwa [reap_numSems]) hoff ?_
    rw [reap_level]
    exact h.switching hm (by rw [hr]; simp)
  · rename_i l hr
    rw [hmode] at hstep
    cases hstep
    rw [hr] at hsaved
    obtain rfl : l = .intOn := hsaved
    exact levels_continueAt hreap hmode hoff
  · cases hstep
  · cases hstep

end Operations

/-! ## Runs -/

theorem levels_boot : Levels boot := by
  refine ⟨fun t => ?_, fun _ _ => rfl, fun _ hr => absurd rfl hr, fun hm => ?_⟩
  · by_cases ht : t = 0
    · subst ht
      exact ⟨rfl, fun hr => absurd rfl hr⟩
    · have hth : boot.threads t = {} := by simp [boot, ht]
      rw [hth]
      exact ⟨rfl, fun _ => by simp⟩
  · cases hm

theorem levels_step {k k' : Kernel} {l : Label} (hi : Inv k) (h : Levels k)
    (hstep : step k l = some k') : Levels k' := by
  cases l with
  | newThread =>
    obtain ⟨hc, rfl⟩ := Option.ite_some_none_eq_some.mp hstep
    exact levels_newThread hi hc h
  | fork t =>
    obtain ⟨⟨hc, -, hnew⟩, rfl⟩ := Option.ite_some_none_eq_some.mp hstep
    exact levels_fork hi hc h hnew
  | newSemaphore v =>
    obtain ⟨-, rfl⟩ := Option.ite_some_none_eq_some.mp hstep
    exact ⟨h.threads, h.code, h.switching, h.idling⟩
  | p s =>
    obtain ⟨⟨hc, hs⟩, rfl⟩ := Option.ite_some_none_eq_some.mp hstep
    obtain ⟨hm, hcode⟩ := inCode_iff.mp hc
    unfold Kernel.P
    rw [h.code hm hcode]
    exact levels_testP (inv_level hi .intOff) hm hs h.threads rfl
  | v s =>
    obtain ⟨-, rfl⟩ := Option.ite_some_none_eq_some.mp hstep
    exact levels_V hi h s
  | yield =>
    obtain ⟨hc, rfl⟩ := Option.ite_some_none_eq_some.mp hstep
    exact levels_yield hi (inCode_iff.mp hc).1 (inCode_iff.mp hc).2 h
  | finish =>
    obtain ⟨hc, rfl⟩ := Option.ite_some_none_eq_some.mp hstep
    exact levels_sleep (parked_finish hi (inCode_iff.mp hc).1) h.threads rfl rfl (by simp)
  | handlerV s =>
    obtain ⟨-, rfl⟩ := Option.ite_some_none_eq_some.mp hstep
    exact levels_V hi h s
  | timerYield =>
    obtain ⟨⟨hc, -⟩, rfl⟩ := Option.ite_some_none_eq_some.mp hstep
    exact levels_yield hi (inCode_iff.mp hc).1 (inCode_iff.mp hc).2 h
  | resume =>
    obtain ⟨hm, hr⟩ := Option.ite_none_right_eq_some.mp hstep
    exact levels_resume hi hm h hr
  | idle =>
    obtain ⟨hm, rfl⟩ := Option.ite_some_none_eq_some.mp hstep
    exact levels_dispatch (hi.parked_of_idling hm) h.threads (h.idling hm)
  | halt =>
    obtain ⟨-, rfl⟩ := Option.ite_some_none_eq_some.mp hstep
    exact ⟨h.threads, fun hm => (by cases hm), fun hm => (by cases hm), fun hm => (by cases hm)⟩

end Nachos.Threads
