import Nachos.Threads.Kernel

/-!
# The scheduling invariant

Which lists a thread is on is determined by its control block: it is on the ready list,
once, when its status is `READY`, and on the queue of the semaphore it waits on, once, when
its status is `BLOCKED` (`Places`). Exactly one thread is `RUNNING` while some thread's own
code runs, namely `currentThread`, and none while the CPU idles (`Inv`).

Every operation that gives up the CPU first parks the current thread, so that no thread is
`RUNNING` (`Parked`), and then dispatches the head of the ready list (`inv_dispatch`).
-/

namespace Nachos.Threads

open Function (update update_of_ne)
open Kernel

/-- The lists a thread is on agree with its control block, and the ready list is what has
been put on it and not been dispatched yet. -/
structure Places (k : Kernel) : Prop where
  ready : ∀ t, k.readyList.count t = if (k.threads t).status = .ready then 1 else 0
  queued : ∀ s t, (k.sems s).queue.count t =
    if (k.threads t).status = .blocked ∧ (k.threads t).resume.waitsOn = some s then 1 else 0
  waits : ∀ t s, (k.threads t).resume.waitsOn = some s → s < k.numSems
  blocked : ∀ t, (k.threads t).status = .blocked →
    (∃ s, (k.threads t).resume.waitsOn = some s) ∨ (k.threads t).resume = .inFinish
  finished : ∀ t, (k.threads t).resume = .inFinish → (k.threads t).status = .blocked
  destroyed : ∀ t, k.threadToBeDestroyed = some t → (k.threads t).resume = .inFinish
  unused : ∀ t, k.numThreads ≤ t → k.threads t = {}
  fifo : k.put = k.dispatched ++ k.readyList

/-- `Places`, and the running thread is the current one. -/
structure Inv (k : Kernel) : Prop where
  places : Places k
  running : ∀ t, (k.threads t).status = .running ↔ t = k.currentThread ∧ k.mode = .running

/-- `Places`, and the current thread has given up the CPU. -/
structure Parked (k : Kernel) : Prop where
  places : Places k
  idle : ∀ t, (k.threads t).status ≠ .running

theorem Inv.current_lt {k : Kernel} (h : Inv k) (hm : k.mode = .running) :
    k.currentThread < k.numThreads := by
  by_contra hge
  have hrun := (h.running k.currentThread).mpr ⟨rfl, hm⟩
  rw [h.places.unused _ (Nat.not_lt.mp hge)] at hrun
  cases hrun

theorem Inv.current_running {k : Kernel} (h : Inv k) (hm : k.mode = .running) :
    k.current.status = .running := (h.running _).mpr ⟨rfl, hm⟩

theorem Places.lt_of_status {k : Kernel} (h : Places k) {t : Tid}
    (ht : (k.threads t).status ≠ .justCreated) : t < k.numThreads := by
  by_contra hge
  rw [h.unused t (Nat.not_lt.mp hge)] at ht
  exact ht rfl

theorem inCode_iff {k : Kernel} :
    k.inCode = true ↔ k.mode = .running ∧ k.current.resume = .code := by
  simp [Kernel.inCode]

/-! ## Changing one control block -/

/-- `Places` is kept when one control block changes and the lists follow it. -/
theorem Places.change {k k' : Kernel} (h : Places k) {t : Tid} (th : Thread)
    (hthreads : k'.threads = update k.threads t th)
    (hready : k'.readyList.count t = if th.status = .ready then 1 else 0)
    (hreadyOther : ∀ u, u ≠ t → k'.readyList.count u = k.readyList.count u)
    (hqueue : ∀ s, (k'.sems s).queue.count t =
      if th.status = .blocked ∧ th.resume.waitsOn = some s then 1 else 0)
    (hqueueOther : ∀ s u, u ≠ t → (k'.sems s).queue.count u = (k.sems s).queue.count u)
    (hwaits : ∀ s, th.resume.waitsOn = some s → s < k'.numSems)
    (hblocked : th.status = .blocked →
      (∃ s, th.resume.waitsOn = some s) ∨ th.resume = .inFinish)
    (hfinished : th.resume = .inFinish → th.status = .blocked)
    (hsems : k.numSems ≤ k'.numSems) (hlt : t < k'.numThreads)
    (hnum : k.numThreads ≤ k'.numThreads)
    (hdestroyed : ∀ u, k'.threadToBeDestroyed = some u →
      (if u = t then th.resume = .inFinish else k.threadToBeDestroyed = some u))
    (hfifo : k'.put = k'.dispatched ++ k'.readyList) : Places k' := by
  refine ⟨?_, ?_, ?_, ?_, ?_, ?_, ?_, hfifo⟩ <;> rw [hthreads]
  · intro u
    by_cases hu : u = t
    · subst hu
      simpa using hready
    · rw [update_of_ne hu, hreadyOther u hu, h.ready u]
  · intro s u
    by_cases hu : u = t
    · subst hu
      simpa using hqueue s
    · rw [update_of_ne hu, hqueueOther s u hu, h.queued s u]
  · intro u s
    by_cases hu : u = t
    · subst hu
      simpa using hwaits s
    · rw [update_of_ne hu]
      intro hw
      exact Nat.lt_of_lt_of_le (h.waits u s hw) hsems
  · intro u
    by_cases hu : u = t
    · subst hu
      simpa using hblocked
    · rw [update_of_ne hu]
      exact h.blocked u
  · intro u
    by_cases hu : u = t
    · subst hu
      simpa using hfinished
    · rw [update_of_ne hu]
      exact h.finished u
  · intro u hd
    have := hdestroyed u hd
    by_cases hu : u = t
    · subst hu
      simpa using this
    · rw [if_neg hu] at this
      rw [update_of_ne hu]
      exact h.destroyed u this
  · intro u hu
    have hne : u ≠ t := by
      rintro rfl
      exact absurd hlt (Nat.not_lt.mpr hu)
    rw [update_of_ne hne]
    exact h.unused u (Nat.le_trans hnum hu)

/-- A thread that is neither `READY` nor `BLOCKED` is on no list. -/
theorem Places.unlisted {k : Kernel} (h : Places k) {t : Tid}
    (hr : (k.threads t).status ≠ .ready) (hb : (k.threads t).status ≠ .blocked) :
    k.readyList.count t = 0 ∧ ∀ s, (k.sems s).queue.count t = 0 :=
  ⟨by rw [h.ready t, if_neg hr], fun s => by rw [h.queued s t, if_neg (fun hc => hb hc.1)]⟩

/-! ## Dispatching -/

/-- Dispatching the head of the ready list of a parked kernel, or idling when there is none. -/
theorem inv_dispatch {k : Kernel} (h : Parked k) : Inv k.dispatch := by
  obtain ⟨hp, hidle⟩ := h
  unfold dispatch
  split
  · refine ⟨⟨hp.ready, hp.queued, hp.waits, hp.blocked, hp.finished, hp.destroyed, hp.unused, hp.fifo⟩, ?_⟩
    intro t
    simpa using hidle t
  · rename_i next rest hlist
    have hcount := hp.ready next
    have hnext : (k.threads next).status = .ready := by
      by_contra hne
      simp [hlist, hne] at hcount
    have hfin : (k.threads next).resume ≠ .inFinish := by
      intro hf
      have := hp.finished next hf
      rw [hnext] at this
      cases this
    refine ⟨hp.change (t := next) _ rfl ?_ ?_ ?_ ?_ (hp.waits next) ?_ ?_ (Nat.le_refl _) ?_
      (Nat.le_refl _) ?_ ?_, ?_⟩
    · simpa [Kernel.run, setThread, hlist, hnext] using hcount
    · intro u hu
      simp [Kernel.run, setThread, hlist, List.count_cons_of_ne (Ne.symm hu)]
    · intro s
      have := hp.queued s next
      simpa [Kernel.run, setThread, hnext] using this
    · intro s u _
      rfl
    · intro hb
      cases hb
    · intro hf
      exact absurd hf hfin
    · exact hp.lt_of_status (by rw [hnext]; simp)
    · intro u hu
      have hd := hp.destroyed u hu
      split
      · rename_i he
        subst he
        exact hd
      · exact hu
    · have := hp.fifo
      rw [hlist] at this
      simp [Kernel.run, setThread, this]
    · intro t
      by_cases ht : t = next
      · subst ht
        simp [Kernel.run, setThread]
      · simp [Kernel.run, setThread, ht, hidle t]

/-! ## The operations -/

section Operations

variable {k : Kernel}

/-- The running thread is on no list. -/
theorem Inv.current_unlisted (h : Inv k) (hm : k.mode = .running) :
    k.readyList.count k.currentThread = 0 ∧ ∀ s, (k.sems s).queue.count k.currentThread = 0 := by
  have hrun := h.current_running hm
  unfold current at hrun
  exact h.places.unlisted (by rw [hrun]; simp) (by rw [hrun]; simp)

theorem Inv.current_not_finished (h : Inv k) (hm : k.mode = .running) :
    k.current.resume ≠ .inFinish := by
  intro hf
  have hb := h.places.finished _ hf
  have hrun := h.current_running hm
  unfold current at hrun
  rw [hrun] at hb
  cases hb

/-- Parking the running thread: its control block becomes `READY` or `BLOCKED`, and the lists
follow. -/
theorem Inv.park {k' : Kernel} (h : Inv k) (th : Thread)
    (hstatus : th.status ≠ .running)
    (hthreads : k'.threads = update k.threads k.currentThread th) (hp : Places k') : Parked k' := by
  refine ⟨hp, fun u => ?_⟩
  rw [hthreads]
  by_cases hu : u = k.currentThread
  · subst hu
    simpa using hstatus
  · rw [update_of_ne hu]
    intro hrun
    exact hu ((h.running u).mp hrun).1

/-- The current thread waits in the queue of `s`. -/
theorem parked_sleepP (h : Inv k) (hm : k.mode = .running) {s : SemId} (hs : s < k.numSems)
    (l : IntStatus) :
    Parked ((k.setSem s ((k.sems s).enqueue k.currentThread)).setThread k.currentThread
      { k.current with status := .blocked, resume := .inP s l }) := by
  obtain ⟨hr0, hq0⟩ := h.current_unlisted hm
  refine h.park { k.current with status := .blocked, resume := .inP s l }
    (by simp) rfl ?_
  refine h.places.change (t := k.currentThread) _ rfl ?_ ?_ ?_ ?_ ?_ ?_ ?_ (Nat.le_refl _)
    (h.current_lt hm) (Nat.le_refl _) ?_ h.places.fifo
  · simpa [setThread, setSem] using hr0
  · intro u _
    rfl
  · intro s'
    by_cases hss : s' = s
    · subst hss
      simp [setThread, setSem, Resume.waitsOn, List.count_append, hq0]
    · simpa [setThread, setSem, hss, Resume.waitsOn, Ne.symm hss] using hq0 s'
  · intro s' u hu
    by_cases hss : s' = s
    · subst hss
      simp [setThread, setSem, List.count_append, Ne.symm hu]
    · simp [setThread, setSem, hss]
  · intro s' hw
    cases hw
    exact hs
  · intro _
    exact Or.inl ⟨s, rfl⟩
  · intro hf
    cases hf
  · intro u hu
    have hd := h.places.destroyed u hu
    split
    · rename_i he
      subst he
      exact absurd hd (h.current_not_finished hm)
    · exact hu

/-- The current thread has finished. -/
theorem parked_finish (h : Inv k) (hm : k.mode = .running) :
    Parked ({ k with level := .intOff, threadToBeDestroyed := some k.currentThread }.setThread
      k.currentThread { k.current with status := .blocked, resume := .inFinish }) := by
  obtain ⟨hr0, hq0⟩ := h.current_unlisted hm
  refine h.park { k.current with status := .blocked, resume := .inFinish }
    (by simp) rfl ?_
  refine h.places.change (t := k.currentThread) _ rfl ?_ (fun _ _ => rfl) ?_ (fun _ _ _ => rfl)
    (fun _ hw => by cases hw) ?_ ?_ (Nat.le_refl _) (h.current_lt hm) (Nat.le_refl _) ?_
    h.places.fifo
  · simpa [setThread] using hr0
  · intro s
    simpa [setThread, Resume.waitsOn] using hq0 s
  · intro _
    exact Or.inr rfl
  · intro _
    rfl
  · intro u hu
    have he : u = k.currentThread := by simpa [setThread] using hu.symm
    rw [if_pos he]

/-- A control block of the running thread that still says `RUNNING` changes nothing else. -/
theorem inv_current (h : Inv k) (hm : k.mode = .running) {k' : Kernel} (th : Thread)
    (hthreads : k'.threads = update k.threads k.currentThread th)
    (hstatus : th.status = .running) (hresume : th.resume = .code)
    (hcur : k'.currentThread = k.currentThread) (hmode : k'.mode = .running)
    (hlists : k'.readyList = k.readyList ∧ k'.put = k.put ∧ k'.dispatched = k.dispatched)
    (hsems : ∀ s, (k'.sems s).queue = (k.sems s).queue) (hnum : k'.numSems = k.numSems)
    (hthr : k'.numThreads = k.numThreads)
    (hd : k'.threadToBeDestroyed = k.threadToBeDestroyed) : Inv k' := by
  obtain ⟨hr0, hq0⟩ := h.current_unlisted hm
  obtain ⟨hl, hput, hdisp⟩ := hlists
  refine ⟨h.places.change (t := k.currentThread) _ hthreads ?_ ?_ ?_ ?_ ?_ ?_ ?_ (by omega) ?_
    (by omega) ?_ ?_, ?_⟩
  · simpa [hl, hstatus] using hr0
  · intro u _
    rw [hl]
  · intro s
    simpa [hsems, hstatus] using hq0 s
  · intro s u _
    rw [hsems]
  · intro s hw
    rw [hresume] at hw
    cases hw
  · intro hb
    rw [hstatus] at hb
    cases hb
  · intro hf
    rw [hresume] at hf
    cases hf
  · rw [hthr]
    exact h.current_lt hm
  · intro u hu
    rw [hd] at hu
    have hfin := h.places.destroyed u hu
    split
    · rename_i he
      subst he
      exact absurd hfin (h.current_not_finished hm)
    · exact hu
  · rw [hput, hdisp, hl, h.places.fifo]
  · intro u
    rw [hthreads, hcur, hmode]
    by_cases hu : u = k.currentThread
    · subst hu
      simpa using hstatus
    · rw [update_of_ne hu]
      have := h.running u
      simp [this, hu]

theorem inv_continueAt (h : Inv k) (hm : k.mode = .running) (l : IntStatus) :
    Inv (k.continueAt l) :=
  inv_current h hm { k.current with resume := .code } rfl (h.current_running hm) rfl
    rfl hm ⟨rfl, rfl, rfl⟩ (fun _ => rfl) rfl rfl rfl

/-- Writing a semaphore without touching its queue. -/
theorem inv_setSem (h : Inv k) {s : SemId} {sem : Semaphore} (hq : sem.queue = (k.sems s).queue) :
    Inv (k.setSem s sem) := by
  refine ⟨⟨h.places.ready, ?_, h.places.waits, h.places.blocked, h.places.finished, h.places.destroyed,
    h.places.unused, h.places.fifo⟩, h.running⟩
  intro s' t
  have hqueue : ((k.setSem s sem).sems s').queue = (k.sems s').queue := by
    by_cases hs : s' = s
    · subst hs
      simp [setSem, hq]
    · simp [setSem, hs]
  rw [hqueue]
  exact h.places.queued s' t

theorem inv_level (h : Inv k) (l : IntStatus) : Inv { k with level := l } :=
  ⟨⟨h.places.ready, h.places.queued, h.places.waits, h.places.blocked, h.places.finished, h.places.destroyed,
    h.places.unused, h.places.fifo⟩, h.running⟩

theorem inv_testP (h : Inv k) (hm : k.mode = .running) {s : SemId} (hs : s < k.numSems)
    (l : IntStatus) : Inv (k.testP s l) := by
  unfold testP
  split
  · exact inv_dispatch (parked_sleepP h hm hs l)
  · apply inv_continueAt
    · exact inv_setSem h rfl
    · exact hm

theorem inv_P (h : Inv k) (hm : k.mode = .running) {s : SemId} (hs : s < k.numSems) :
    Inv (k.P s) := inv_testP (inv_level h .intOff) hm hs k.level

/-- `V` moves the head of the queue to the ready list; the running thread, if any, stays. -/
theorem inv_V (h : Inv k) {s : SemId} : Inv (k.V s) := by
  cases hqueue : (k.sems s).queue with
  | nil =>
    rw [V_of_nil hqueue]
    exact inv_setSem h (by simp [hqueue])
  | cons t rest =>
    rw [V_of_cons hqueue]
    have hcount := h.places.queued s t
    rw [hqueue] at hcount
    have hwait : (k.threads t).status = .blocked ∧ (k.threads t).resume.waitsOn = some s := by
      by_contra hne
      rw [if_neg hne] at hcount
      simp at hcount
    rw [if_pos hwait] at hcount
    have hfin : (k.threads t).resume ≠ .inFinish := by
      intro hf
      have := hwait.2
      rw [hf] at this
      cases this
    have hready := h.places.ready t
    rw [hwait.1] at hready
    refine ⟨h.places.change (t := t) _ rfl ?_ ?_ ?_ ?_ (h.places.waits t) ?_ ?_ (Nat.le_refl _) ?_
      (Nat.le_refl _) ?_ ?_, ?_⟩
    · simpa [readyToRun, setThread, setSem, List.count_append] using hready
    · intro u hu
      simp [readyToRun, setThread, setSem, List.count_append, Ne.symm hu]
    · intro s'
      by_cases hss : s' = s
      · subst hss
        simpa [readyToRun, setThread, setSem, hqueue] using hcount
      · have hne : (k.sems s').queue.count t = 0 := by
          rw [h.places.queued s' t, hwait.2, if_neg]
          rintro ⟨-, he⟩
          exact hss (Option.some.inj he).symm
        simpa [readyToRun, setThread, setSem, hss] using hne
    · intro s' u hu
      by_cases hss : s' = s
      · subst hss
        simp [readyToRun, setThread, setSem, hqueue, List.count_cons_of_ne (Ne.symm hu)]
      · simp [readyToRun, setThread, setSem, hss]
    · intro hb
      cases hb
    · intro hf
      exact absurd hf hfin
    · exact h.places.lt_of_status (by rw [hwait.1]; simp)
    · intro u hu
      have hd := h.places.destroyed u hu
      split
      · rename_i he
        subst he
        exact hd
      · exact hu
    · simp [readyToRun, setThread, setSem, h.places.fifo]
    · intro u
      by_cases hu : u = t
      · subst hu
        have hold := h.running u
        rw [hwait.1] at hold
        simpa [readyToRun, setThread, setSem] using hold
      · simpa [readyToRun, setThread, setSem, hu] using h.running u

/-- Putting a thread that is on no list on the ready list. -/
theorem places_ready (h : Places k) {t : Tid} (ht : t < k.numThreads) (r : Resume)
    (hr : r ≠ .inFinish) (hw : r.waitsOn = none) (hn : (k.threads t).resume ≠ .inFinish)
    (hun : k.readyList.count t = 0 ∧ ∀ s, (k.sems s).queue.count t = 0) :
    Places ((k.setThread t { k.threads t with resume := r }).readyToRun t) := by
  refine h.change (t := t) { k.threads t with resume := r, status := .ready } ?_ ?_ ?_ ?_
    (fun _ _ _ => rfl) ?_ ?_ ?_ (Nat.le_refl _) ht (Nat.le_refl _) ?_ ?_
  · simp [readyToRun, setThread]
  · simpa [readyToRun, setThread, List.count_append] using hun.1
  · intro u hu
    simp [readyToRun, setThread, List.count_append, Ne.symm hu]
  · intro s
    simpa [readyToRun, setThread] using hun.2 s
  · intro s hs
    rw [hw] at hs
    cases hs
  · intro hb
    cases hb
  · intro hf
    exact absurd hf hr
  · intro u hu
    have hd := h.destroyed u hu
    split
    · rename_i he
      subst he
      exact absurd hd hn
    · exact hu
  · simp [readyToRun, setThread, h.fifo]

theorem inv_fork (h : Inv k) {t : Tid} (ht : t < k.numThreads)
    (hnew : (k.threads t).status = .justCreated) : Inv (k.fork t) := by
  have hfin : (k.threads t).resume ≠ .inFinish := by
    intro hf
    have := h.places.finished t hf
    rw [hnew] at this
    cases this
  refine ⟨places_ready h.places ht .root (by simp) rfl hfin
    (h.places.unlisted (by rw [hnew]; simp) (by rw [hnew]; simp)), fun u => ?_⟩
  by_cases hu : u = t
  · subst hu
    have hold := h.running u
    rw [hnew] at hold
    simpa [fork, readyToRun, setThread] using hold
  · simpa [fork, readyToRun, setThread, hu] using h.running u

/-- A yield with a thread to switch to is: put the current thread on the ready list, then
dispatch. -/
theorem yield_eq {next : Tid} {rest : List Tid} (hlist : k.readyList = next :: rest) :
    k.yield = (({ k with level := .intOff }.setThread k.currentThread
      { k.current with resume := .inYield k.level }).readyToRun k.currentThread).dispatch := by
  simp only [yield, hlist, dispatch, readyToRun, setThread, List.cons_append]

/-- The current thread is on the ready list, in the middle of `Yield`. -/
theorem parked_yield (h : Inv k) (hm : k.mode = .running) :
    Parked (({ k with level := .intOff }.setThread k.currentThread
      { k.current with resume := .inYield k.level }).readyToRun k.currentThread) := by
  refine h.park { k.current with resume := .inYield k.level, status := .ready }
    (by simp) ?_ ?_
  · simp [readyToRun, setThread]
  · exact places_ready (inv_level h .intOff).places (h.current_lt hm) (.inYield k.level) (by simp)
      rfl (h.current_not_finished hm) (h.current_unlisted hm)

theorem inv_yield (h : Inv k) (hm : k.mode = .running) : Inv k.yield := by
  cases hlist : k.readyList with
  | nil =>
    rw [yield, hlist]
    exact h
  | cons next rest =>
    rw [yield_eq hlist]
    exact inv_dispatch (parked_yield h hm)

theorem inv_newThread (h : Inv k) : Inv k.newThread := by
  have hfresh := h.places.unused k.numThreads (Nat.le_refl _)
  have hsame : update k.threads k.numThreads {} = k.threads := by
    rw [← hfresh, Function.update_eq_self]
  have hplaces : Places k.newThread := by
    refine ⟨?_, ?_, ?_, ?_, ?_, ?_, ?_, h.places.fifo⟩ <;>
      simp only [newThread, setThread, hsame]
    · exact h.places.ready
    · exact h.places.queued
    · exact h.places.waits
    · exact h.places.blocked
    · exact h.places.finished
    · exact h.places.destroyed
    · intro t ht
      exact h.places.unused t (Nat.le_of_succ_le ht)
  refine ⟨hplaces, ?_⟩
  simp only [newThread, setThread, hsame]
  exact h.running

theorem inv_newSemaphore (h : Inv k) (v : Int) : Inv (k.newSemaphore v) := by
  -- nobody can be waiting on a semaphore that does not exist yet
  have hnone : ∀ t, (k.sems k.numSems).queue.count t = 0 := by
    intro t
    rw [h.places.queued, if_neg]
    rintro ⟨-, hw⟩
    exact absurd (h.places.waits t _ hw) (Nat.lt_irrefl _)
  refine ⟨⟨h.places.ready, ?_, ?_, h.places.blocked, h.places.finished, h.places.destroyed,
    h.places.unused, h.places.fifo⟩, h.running⟩
  · intro s t
    have hqueue : ((k.newSemaphore v).sems s).queue.count t = (k.sems s).queue.count t := by
      by_cases hs : s = k.numSems
      · subst hs
        simp [newSemaphore, setSem, hnone t]
      · simp [newSemaphore, setSem, hs]
    rw [hqueue]
    exact h.places.queued s t
  · intro t s hw
    exact Nat.lt_succ_of_lt (h.places.waits t s hw)

/-- The destructor's assertion holds: the thread to be destroyed is not the current one. -/
theorem reap_mode (h : Inv k) (hm : k.mode = .running) : k.reap.mode = .running := by
  unfold reap
  split
  · exact hm
  · rename_i t ht
    rw [if_neg]
    · exact hm
    · rintro rfl
      exact h.current_not_finished hm (h.places.destroyed _ ht)

theorem inv_reap (h : Inv k) (hm : k.mode = .running) : Inv k.reap := by
  have hmode := reap_mode h hm
  unfold reap at hmode ⊢
  split
  · exact h
  · rename_i t ht
    have hfin := h.places.destroyed t ht
    have hne : t ≠ k.currentThread := by
      rintro rfl
      exact h.current_not_finished hm hfin
    have hb := h.places.finished t hfin
    rw [if_neg hne]
    have hq := fun s => h.places.queued s t
    have hr := h.places.ready t
    refine ⟨h.places.change (t := t) _ rfl ?_ (fun _ _ => rfl) ?_ (fun _ _ _ => rfl)
      (h.places.waits t) ?_ ?_ (Nat.le_refl _) ?_ (Nat.le_refl _) ?_ h.places.fifo, fun u => ?_⟩
    · simpa [setThread] using hr
    · intro s
      simpa [setThread] using hq s
    · exact h.places.blocked t
    · exact h.places.finished t
    · exact h.places.lt_of_status (by rw [hb]; simp)
    · intro u hu
      cases hu
    · by_cases hu : u = t
      · subst hu
        simpa [setThread] using h.running u
      · simpa [setThread, hu] using h.running u

theorem reap_numSems : k.reap.numSems = k.numSems := by
  unfold reap
  split
  · rfl
  · split <;> rfl

theorem inv_resume (h : Inv k) (hm : k.mode = .running) {k' : Kernel}
    (hstep : k.resume = some k') : Inv k' := by
  have hreap := inv_reap h hm
  have hmode := reap_mode h hm
  unfold Kernel.resume at hstep
  split at hstep
  · cases hstep
    exact inv_continueAt h hm .intOn
  · rename_i s l hr
    rw [hmode] at hstep
    cases hstep
    have hs : s < k.numSems := h.places.waits k.currentThread s (by
      unfold current at hr
      rw [hr]
      rfl)
    exact inv_testP hreap hmode (by rwa [reap_numSems]) l
  · rename_i l hr
    rw [hmode] at hstep
    cases hstep
    exact inv_continueAt hreap hmode l
  · cases hstep
  · cases hstep

theorem Inv.parked_of_idling (h : Inv k) (hm : k.mode = .idling) : Parked k := by
  refine ⟨h.places, fun t hrun => ?_⟩
  have := ((h.running t).mp hrun).2
  rw [hm] at this
  cases this

end Operations

/-! ## Runs -/

theorem inv_boot : Inv boot := by
  refine ⟨⟨?_, ?_, ?_, ?_, ?_, ?_, ?_, rfl⟩, ?_⟩
  · intro t
    by_cases ht : t = 0
    · subst ht
      rfl
    · simp [boot, ht]
  · intro s t
    by_cases ht : t = 0
    · subst ht
      rfl
    · simp [boot, ht]
  · intro t s
    by_cases ht : t = 0
    · subst ht
      intro hw
      cases hw
    · simp [boot, ht, Resume.waitsOn]
  · intro t
    by_cases ht : t = 0
    · subst ht
      intro hb
      cases hb
    · simp [boot, ht]
  · intro t
    by_cases ht : t = 0
    · subst ht
      intro hf
      cases hf
    · simp [boot, ht]
  · intro t ht
    cases ht
  · intro t ht
    have : t ≠ 0 := by
      rintro rfl
      exact absurd ht (by decide)
    simp [boot, this]
  · intro t
    by_cases ht : t = 0
    · subst ht
      simp [boot]
    · simp [boot, ht]

theorem inv_step {k k' : Kernel} {l : Label} (h : Inv k) (hstep : step k l = some k') :
    Inv k' := by
  cases l with
  | newThread =>
    obtain ⟨-, rfl⟩ := Option.ite_some_none_eq_some.mp hstep
    exact inv_newThread h
  | fork t =>
    obtain ⟨⟨-, ht, hnew⟩, rfl⟩ := Option.ite_some_none_eq_some.mp hstep
    exact inv_fork h ht hnew
  | newSemaphore v =>
    obtain ⟨-, rfl⟩ := Option.ite_some_none_eq_some.mp hstep
    exact inv_newSemaphore h v
  | p s =>
    obtain ⟨⟨hc, hs⟩, rfl⟩ := Option.ite_some_none_eq_some.mp hstep
    exact inv_P h (inCode_iff.mp hc).1 hs
  | v s =>
    obtain ⟨-, rfl⟩ := Option.ite_some_none_eq_some.mp hstep
    exact inv_V h
  | yield =>
    obtain ⟨hc, rfl⟩ := Option.ite_some_none_eq_some.mp hstep
    exact inv_yield h (inCode_iff.mp hc).1
  | finish =>
    obtain ⟨hc, rfl⟩ := Option.ite_some_none_eq_some.mp hstep
    exact inv_dispatch (parked_finish h (inCode_iff.mp hc).1)
  | handlerV s =>
    obtain ⟨-, rfl⟩ := Option.ite_some_none_eq_some.mp hstep
    exact inv_V h
  | timerYield =>
    obtain ⟨⟨hc, -⟩, rfl⟩ := Option.ite_some_none_eq_some.mp hstep
    exact inv_yield h (inCode_iff.mp hc).1
  | resume =>
    obtain ⟨hm, hr⟩ := Option.ite_none_right_eq_some.mp hstep
    exact inv_resume h hm hr
  | idle =>
    obtain ⟨hm, rfl⟩ := Option.ite_some_none_eq_some.mp hstep
    exact inv_dispatch (h.parked_of_idling hm)
  | halt =>
    obtain ⟨⟨hm, -⟩, rfl⟩ := Option.ite_some_none_eq_some.mp hstep
    have hidle := (h.parked_of_idling hm).idle
    refine ⟨⟨h.places.ready, h.places.queued, h.places.waits, h.places.blocked, h.places.finished,
      h.places.destroyed, h.places.unused, h.places.fifo⟩, fun t => ?_⟩
    simpa using hidle t

/-- A thread that has been forked and not been deleted. -/
def Kernel.Live (k : Kernel) (t : Tid) : Prop :=
  t < k.numThreads ∧ (k.threads t).status ≠ .justCreated ∧ (k.threads t).deleted = false

/-- What the scheduler guarantees whenever some thread's own code runs. -/
structure Scheduled (k : Kernel) : Prop where
  /-- The current thread is `RUNNING` and on no list. -/
  current : (k.threads k.currentThread).status = .running ∧ k.currentThread ∉ k.readyList ∧
    ∀ s, k.currentThread ∉ (k.sems s).queue
  /-- Every other live thread is `READY` and on the ready list once, or `BLOCKED` and on one
  semaphore queue once, or finished. -/
  others : ∀ t, k.Live t → t ≠ k.currentThread →
    ((k.threads t).status = .ready ∧ k.readyList.count t = 1 ∧ ∀ s, t ∉ (k.sems s).queue) ∨
    ((k.threads t).status = .blocked ∧ t ∉ k.readyList ∧
      ((∃ s < k.numSems, (k.sems s).queue.count t = 1 ∧ ∀ s', s' ≠ s → t ∉ (k.sems s').queue) ∨
        ((k.threads t).resume = .inFinish ∧ ∀ s, t ∉ (k.sems s).queue)))
  /-- No thread is on both kinds of list. -/
  disjoint : ∀ t s, t ∈ k.readyList → t ∉ (k.sems s).queue
  /-- Threads are dispatched in the order in which they were put on the ready list. -/
  fifo : k.put = k.dispatched ++ k.readyList

theorem Places.mem_ready {k : Kernel} (h : Places k) {t : Tid} :
    t ∈ k.readyList ↔ (k.threads t).status = .ready := by
  rw [← List.count_pos_iff, h.ready t]
  split <;> simp_all

theorem Places.mem_queue {k : Kernel} (h : Places k) {s : SemId} {t : Tid} :
    t ∈ (k.sems s).queue ↔
      (k.threads t).status = .blocked ∧ (k.threads t).resume.waitsOn = some s := by
  rw [← List.count_pos_iff, h.queued s t]
  split <;> simp_all

theorem Inv.scheduled {k : Kernel} (h : Inv k) (hm : k.mode = .running) : Scheduled k := by
  have hrun := h.current_running hm
  unfold Kernel.current at hrun
  refine ⟨⟨hrun, ?_, ?_⟩, ?_, ?_, h.places.fifo⟩
  · rw [h.places.mem_ready, hrun]
    simp
  · intro s
    rw [h.places.mem_queue, hrun]
    simp
  · rintro t ⟨-, hforked, -⟩ hne
    cases hs : (k.threads t).status with
    | justCreated => exact absurd hs hforked
    | running => exact absurd ((h.running t).mp hs).1 hne
    | ready =>
      refine Or.inl ⟨rfl, by rw [h.places.ready t, if_pos hs], fun s => ?_⟩
      rw [h.places.mem_queue, hs]
      simp
    | blocked =>
      refine Or.inr ⟨rfl, by rw [h.places.mem_ready, hs]; simp, ?_⟩
      rcases h.places.blocked t hs with ⟨s, hw⟩ | hf
      · refine Or.inl ⟨s, h.places.waits t s hw, by rw [h.places.queued, if_pos ⟨hs, hw⟩], ?_⟩
        intro s' hne'
        rw [h.places.mem_queue, hw]
        rintro ⟨-, he⟩
        exact hne' (Option.some.inj he).symm
      · refine Or.inr ⟨hf, fun s => ?_⟩
        rw [h.places.mem_queue, hf]
        simp [Resume.waitsOn]
  · intro t s hr
    rw [h.places.mem_ready] at hr
    rw [h.places.mem_queue, hr]
    simp

/-- In every run of the thread system, at every point where some thread's own code runs, the
current thread is `RUNNING` and on no list, every other live thread is on exactly the list its
status says, and threads have been dispatched in first-in first-out order. -/
theorem scheduled_throughout (ls : List Label) :
    Runs.AllStates step (fun k => k.mode = .running → Scheduled k) boot ls :=
  (Runs.allStates_of_invariant (fun _ _ _ h hs => inv_step h hs) inv_boot ls).mono
    fun _ h hm => h.scheduled hm

end Nachos.Threads
