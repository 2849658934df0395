import Nachos.Lib.Sums
import Nachos.Userprog.Ownership

/-!
# Page frames of live processes

Loading a program marks one frame of `gPhysPageBitMap` per page. No code clears them again:
`~AddrSpace` deletes the page table only and is not called at exit. The marked frames are those
of the processes that have not exited exactly as long as no process with a loaded address space
completes its exit (`noLeak_iff`).
-/

namespace Nachos.Userprog

open Function (update update_of_ne update_self update_apply)
open Threads (Tid Semaphore)
open State

/-- `numPages`, for a thread that has not exited. -/
def Thread.livePages (th : Thread) : Nat := if th.exited then 0 else th.numPages

/-- The pages of all processes that have not exited. -/
def livePages (s : State) : Nat := Sums.total Thread.livePages s.threads s.numThreads

/-- The marked frames are those of the live processes, so that a program is loaded whenever it
fits in beside them. -/
def NoLeak (s : State) : Prop :=
  s.physPages.numMarked = livePages s ∧
    ∀ h : NoffHeader, livePages s + h.numPages ≤ numPhysPages →
      h.numPages ≤ s.physPages.numClear ∧
        ∃ fs pages, allocFrames s.physPages h.numPages = (some fs, pages)

/-- The step completes an `SC_Exit`. -/
def completesExit (s : State) (l : Label) : Bool :=
  (removing s l).isSome || (s.threads l.thread).point.atRemove

/-! ## What a step does to the pages -/

/-- The step neither loads a program nor forks. -/
structure SamePages (s s' : State) : Prop where
  physPages : s'.physPages = s.physPages
  numPages : ∀ t, (s'.threads t).numPages = (s.threads t).numPages

variable {s s' s'' : State} {t : Tid}

theorem SamePages.of_eq (hphys : s'.physPages = s.physPages) (hthreads : s'.threads = s.threads) :
    SamePages s s' := ⟨hphys, fun t => by rw [hthreads]⟩

theorem SamePages.of_update {th : Thread} (hphys : s'.physPages = s.physPages)
    (hthreads : s'.threads = update s.threads t th) (hpages : th.numPages = (s.threads t).numPages) :
    SamePages s s' := ⟨hphys, fun u => by rw [hthreads, field_update Thread.numPages hpages]⟩

theorem SamePages.trans (h : SamePages s s') (h' : SamePages s' s'') : SamePages s s'' :=
  ⟨h'.physPages.trans h.physPages, fun t => (h'.numPages t).trans (h.numPages t)⟩

theorem SamePages.p (s : State) (t : Tid) (r : SemRef) (w n : Point) :
    SamePages s (s.p t r w n) :=
  .of_update (p_physPages s t r w n) (p_threads s t r w n) rfl

theorem SamePages.v (s : State) (r : SemRef) : SamePages s (s.v r) :=
  ⟨v_physPages s r, fun t => by rw [v_threads]⟩

theorem SamePages.goto (s : State) (t : Tid) (pt : Point) : SamePages s (s.goto t pt) :=
  .of_update (by rfl) (by rfl) (by rfl)

theorem SamePages.forget (s : State) (t : Tid) (pID : Int) : SamePages s (s.forget t pID) := by
  unfold State.forget
  split
  · exact .of_update (by rfl) (by rfl) (by rfl)
  · exact .of_eq rfl rfl

theorem SamePages.exitReturn (s : State) (t : Tid) (pID : Nat) :
    SamePages s (s.exitReturn t pID) := by
  refine .of_update ?_ (exitReturn_threads s t pID) rfl
  simp [State.exitReturn]

theorem trans_pages {l : Label} (h : Trans s l s') :
    SamePages s s' ∨
    (∃ n pages, ((s.threads l.thread).point = .startProcess ∨
        (s.threads l.thread).point = .myStartProcess) ∧
      ((n = 0 ∧ pages = s.physPages) ∨ (∃ fs, Allocated s.physPages fs pages ∧ fs.length = n) ∨
        (n = 0 ∧ (s.threads l.thread).point = .startProcess ∧
          s.physPages.numClear < numPhysPages)) ∧
      s' = { s.setThread l.thread { s.threads l.thread with point := .user, numPages := n } with
        physPages := pages }) ∨
    (∃ c id filename, (s.threads l.thread).point = .execFork c id filename ∧
      s' = (s.fork c id filename).goto l.thread (.execMutexV c id)) := by
  cases h with
  | other => exact .inl (.of_eq rfl rfl)
  | stop why => exact .inl (.of_eq rfl rfl)
  | load hpt hframes => exact .inr (.inl ⟨_, _, hpt, hframes, rfl⟩)
  | exec hpt => exact .inl (.p _ _ _ _ _)
  | execP hpt => exact .inl (.p _ _ _ _ _)
  | execFail hpt => exact .inl (.goto _ _ _)
  | execNew hpt hid hfree => exact .inl (.of_update (by rfl) (by rfl) (by rfl))
  | mutexP hpt => exact .inl (.p _ _ _ _ _)
  | fork hpt halive => exact .inr (.inr ⟨_, _, _, hpt, rfl⟩)
  | mutexV hpt halive => exact .inl ((SamePages.v s _).trans (.goto _ _ _))
  | execV hpt =>
    exact .inl ((SamePages.v s .bmsem).trans (.of_update (by rfl) (by rfl) (by rfl)))
  | @joinFail t pID hpt hfail =>
    exact .inl ((SamePages.forget s t pID).trans (.of_update (by rfl) (by rfl) (by rfl)))
  | @joinStop t pID why => exact .inl ((SamePages.forget s t pID).trans (.of_eq rfl rfl))
  | @joinWait t pID c hpt hrange hbit hpcb halive hparent =>
    have hset : ∀ x, SamePages (s.forget t pID) ((s.forget t pID).setPCB c x) :=
      fun _ => .of_eq rfl rfl
    exact .inl ((SamePages.forget s t pID).trans ((hset _).trans (.p _ _ _ _ _)))
  | joinP hpt => exact .inl (.p _ _ _ _ _)
  | joinError hpt hpcb halive hec => exact .inl (.of_update (by rfl) (by rfl) (by rfl))
  | @joinOk t file c c' pID child hpt hpcb halive hec =>
    exact .inl ((SamePages.v s (.exitsem c')).trans (.of_update (by rfl) (by rfl) (by rfl)))
  | exitGone hpt hgone => exact .inl (.goto _ _ _)
  | exitAlone hpt hpID hbit hmain hpcb halive hjoin =>
    exact .inl ((SamePages.of_eq (by rfl) (by rfl)).trans (.exitReturn _ _ _))
  | @exitJoined t ec c hpt hpID hbit hmain hpcb halive hjoin =>
    have hset : ∀ x, SamePages s ((s.setExitCode t c ec).setPCB c x) := fun _ => .of_eq rfl rfl
    exact .inl (((hset _).trans (.v _ _)).trans (.goto _ _ _))
  | exitWait hpt hpcb halive => exact .inl (.p _ _ _ _ _)
  | exitP hpt => exact .inl (.p _ _ _ _ _)
  | exitRemove hpt => exact .inl (.exitReturn _ _ _)

/-! ## The invariant -/

/-- As long as no process with an address space has exited. -/
structure FrameInv (s : State) : Prop where
  numBits : s.physPages.numBits = numPhysPages
  marked : s.physPages.numMarked = livePages s
  exited : ∀ t, t < s.numThreads → (s.threads t).exited = true →
    (s.threads t).numPages = 0 ∧ (s.threads t).point.starting = false
  starting : ∀ t, t < s.numThreads → (s.threads t).point.starting = true →
    (s.threads t).numPages = 0
  main : ∀ t, t < s.numThreads → (s.threads t).point = .startProcess →
    s.numThreads = 1 ∧ s.physPages.numMarked = 0

theorem FrameInv.noLeak (hs : FrameInv s) : NoLeak s := by
  refine ⟨hs.marked, fun h hfits => ?_⟩
  have hcount := s.physPages.numMarked_add_numClear
  rw [hs.marked, hs.numBits] at hcount
  have hle : h.numPages ≤ s.physPages.numClear := by omega
  exact ⟨hle, allocFrames_of_le hle⟩

theorem FrameInv.boot : FrameInv boot := by
  refine ⟨rfl, ?_, ?_, ?_, ?_⟩
  · simp [livePages, Userprog.boot, Sums.total_succ, Sums.total_zero, BitMap.numMarked_new,
      Thread.livePages]
  all_goals
    intro t _
    by_cases h : t = 0 <;> simp [Userprog.boot, h, BitMap.numMarked_new, Point.starting]

theorem livePages_eq (hpages : (s'.threads t).numPages = (s.threads t).numPages)
    (hexited : (s'.threads t).exited = (s.threads t).exited) :
    (s'.threads t).livePages = (s.threads t).livePages := by
  rw [Thread.livePages, Thread.livePages, hpages, hexited]

theorem FrameInv.moves (hs : FrameInv s) {pt : Point} (hmoves : Moves s s' t pt)
    (hpages : SamePages s s') (hpt : pt.starting = false ∨ pt = (s.threads t).point) :
    FrameInv s' := by
  -- a thread that is about to load was so before
  have hstart : ∀ u, (s'.threads u).point.starting = true →
      (s'.threads u).point = (s.threads u).point := by
    intro u hu
    rw [hmoves.point] at hu ⊢
    split_ifs at hu ⊢ with heq
    · rcases hpt with hnot | hsame
      · rw [hnot] at hu
        cases hu
      · rw [hsame, heq]
    · rfl
  have hlive : livePages s' = livePages s := by
    rw [livePages, livePages, hmoves.numThreads]
    exact Sums.total_congr fun u _ => livePages_eq (hpages.numPages u) (hmoves.exited u)
  refine ⟨by rw [hpages.physPages, hs.numBits], by rw [hpages.physPages, hlive, hs.marked],
    ?_, ?_, ?_⟩
  · intro u hu hexited
    rw [hmoves.numThreads] at hu
    rw [hmoves.exited] at hexited
    obtain ⟨hnone, hloaded⟩ := hs.exited u hu hexited
    rw [hpages.numPages]
    refine ⟨hnone, ?_⟩
    cases hcase : (s'.threads u).point.starting with
    | false => rfl
    | true =>
      rw [hstart u hcase, hloaded] at hcase
      cases hcase
  · intro u hu hcase
    rw [hmoves.numThreads] at hu
    rw [hpages.numPages]
    rw [hstart u hcase] at hcase
    exact hs.starting u hu hcase
  · intro u hu hcase
    rw [hmoves.numThreads] at hu
    rw [hmoves.numThreads, hpages.physPages]
    rw [hstart u (by rw [hcase]; rfl)] at hcase
    exact hs.main u hu hcase

/-- While "main" is about to load its program, there is no other thread. -/
theorem FrameInv.main_unique (hs : FrameInv s) (ht : t < s.numThreads) {u : Tid}
    (hu : u < s.numThreads) (hmain : (s.threads u).point = .startProcess) : u = t := by
  have hone := (hs.main u hu hmain).1
  rw [hone] at hu ht
  rw [Nat.lt_one_iff.mp hu, Nat.lt_one_iff.mp ht]

theorem FrameInv.load (hs : FrameInv s) (ht : t < s.numThreads) {n : Nat} {pages : BitMap}
    (hpt : (s.threads t).point = .startProcess ∨ (s.threads t).point = .myStartProcess)
    (hframes : (n = 0 ∧ pages = s.physPages) ∨
      (∃ fs, Allocated s.physPages fs pages ∧ fs.length = n) ∨
      (n = 0 ∧ (s.threads t).point = .startProcess ∧ s.physPages.numClear < numPhysPages)) :
    FrameInv { s.setThread t { s.threads t with point := .user, numPages := n } with
      physPages := pages } := by
  have hstart : (s.threads t).point.starting = true := by
    rcases hpt with h | h <;> rw [h] <;> rfl
  have hlive : (s.threads t).exited = false := by
    cases hexited : (s.threads t).exited with
    | false => rfl
    | true => exact absurd (hs.exited t ht hexited).2 (by simp [hstart])
  have hbefore : (s.threads t).livePages = 0 := by
    rw [Thread.livePages, hlive]
    exact hs.starting t ht hstart
  have htaken : pages.numBits = s.physPages.numBits ∧
      pages.numMarked = s.physPages.numMarked + n := by
    rcases hframes with ⟨rfl, rfl⟩ | ⟨fs, halloc, rfl⟩ | ⟨rfl, hmain, hfew⟩
    · exact ⟨rfl, rfl⟩
    · exact ⟨halloc.numBits, halloc.marked⟩
    · have hcount := s.physPages.numMarked_add_numClear
      rw [(hs.main t ht hmain).2, hs.numBits] at hcount
      omega
  refine ⟨htaken.1.trans hs.numBits, ?_, ?_, ?_, ?_⟩
  · have hsum := Sums.total_update (f := Thread.livePages) (g := s.threads) ht
      { s.threads t with point := .user, numPages := n }
    have hafter : Thread.livePages { s.threads t with point := .user, numPages := n } = n := by
      simp [Thread.livePages, hlive]
    rw [hbefore, hafter] at hsum
    change pages.numMarked = Sums.total Thread.livePages (update s.threads t _) s.numThreads
    rw [htaken.2, hs.marked, livePages]
    omega
  · intro u hu hexited
    by_cases hut : u = t
    · subst hut
      simp [hlive] at hexited
    · simp only [setThread_threads, update_of_ne hut] at hexited ⊢
      exact hs.exited u hu hexited
  · intro u hu hcase
    by_cases hut : u = t
    · subst hut
      simp [Point.starting] at hcase
    · simp only [setThread_threads, update_of_ne hut] at hcase ⊢
      exact hs.starting u hu hcase
  · intro u hu hcase
    by_cases hut : u = t
    · subst hut
      simp at hcase
    · simp only [setThread_threads, update_of_ne hut] at hcase
      exact absurd (hs.main_unique ht hu hcase) hut

theorem FrameInv.fork (hs : FrameInv s) (ht : t < s.numThreads) (c : PcbId) (id : Nat)
    (filename : String) :
    FrameInv ((s.fork c id filename).goto t (.execMutexV c id)) := by
  have hnew := fork_new ht c id filename
  have hold := fun u (hu : u < s.numThreads) => fork_old ht c id filename hu
  set s' := (s.fork c id filename).goto t (.execMutexV c id)
  have hcases : ∀ u, u < s'.numThreads → u < s.numThreads ∨ u = s.numThreads :=
    fun u hu => Nat.lt_succ_iff_lt_or_eq.mp hu
  refine ⟨hs.numBits, ?_, ?_, ?_, ?_⟩
  · have hsum : livePages s' = Sums.total Thread.livePages s'.threads s.numThreads +
        (s'.threads s.numThreads).livePages := Sums.total_succ _ _ _
    have hsame : Sums.total Thread.livePages s'.threads s.numThreads = livePages s := by
      refine Sums.total_congr fun u hu => ?_
      rw [hold u hu]
      split_ifs with heq
      · rw [heq]
        rfl
      · rfl
    rw [hsum, hsame, hnew]
    exact hs.marked
  · intro u hu hexited
    rcases hcases u hu with hlt | rfl
    · rw [hold u hlt] at hexited ⊢
      split_ifs at hexited ⊢
      · exact ⟨(hs.exited t ht hexited).1, rfl⟩
      · exact hs.exited u hlt hexited
    · rw [hnew] at hexited
      cases hexited
  · intro u hu hstart
    rcases hcases u hu with hlt | rfl
    · rw [hold u hlt] at hstart ⊢
      split_ifs at hstart ⊢
      · cases hstart
      · exact hs.starting u hlt hstart
    · rw [hnew]
  · intro u hu hmain
    rcases hcases u hu with hlt | rfl
    · rw [hold u hlt] at hmain
      split_ifs at hmain with heq
      exact absurd (hs.main_unique ht hlt hmain) heq
    · rw [hnew] at hmain
      cases hmain

theorem livePages_exitReturn (ht : t < s.numThreads) (pID : Nat) :
    livePages (s.exitReturn t pID) + (s.threads t).livePages = livePages s := by
  have hsum := Sums.total_update (f := Thread.livePages) (g := s.threads) ht
    { s.threads t with point := .user, exited := true }
  rw [← exitReturn_threads s t pID] at hsum
  have hnum : (s.exitReturn t pID).numThreads = s.numThreads := by simp [State.exitReturn]
  rw [livePages, livePages, hnum]
  exact hsum

theorem FrameInv.exitReturn (hs : FrameInv s) (ht : t < s.numThreads) (pID : Nat)
    (hpages : (s.threads t).numPages = 0) : FrameInv (s.exitReturn t pID) := by
  have hphys : (s.exitReturn t pID).physPages = s.physPages := by simp [State.exitReturn]
  have hnum : (s.exitReturn t pID).numThreads = s.numThreads := by simp [State.exitReturn]
  refine ⟨by rw [hphys, hs.numBits], ?_, ?_, ?_, ?_⟩
  · have hsum := livePages_exitReturn ht pID
    have hzero : (s.threads t).livePages = 0 := by simp [Thread.livePages, hpages]
    rw [hphys, hs.marked]
    omega
  all_goals
    intro u hu
    rw [hnum] at hu
    rw [exitReturn_threads]
    by_cases hut : u = t
  · subst hut
    simp [hpages, Point.starting]
  · rw [update_of_ne hut]
    exact hs.exited u hu
  · subst hut
    simp [Point.starting]
  · rw [update_of_ne hut]
    exact hs.starting u hu
  · subst hut
    simp
  · rw [update_of_ne hut, hnum, hphys]
    exact hs.main u hu

theorem FrameInv.setExitCode (hs : FrameInv s) (t : Tid) (c : PcbId) (ec : Int) :
    FrameInv (s.setExitCode t c ec) :=
  hs.moves (t := 0) (.of_eq (by rfl) (by rfl) 0) (.of_eq rfl rfl) (.inr rfl)

theorem FrameInv.step (hs : FrameInv s) {l : Label}
    (hgood : completesExit s l = true → (s.threads l.thread).numPages = 0)
    (h : step s l = some s') : FrameInv s' := by
  obtain ⟨hrun, htrans⟩ := step_trans h
  have ht := lt_of_runnable hrun
  rcases trans_pages htrans with hsame | ⟨n, pages, hpt, hframes, rfl⟩ | ⟨c, id, filename, -, rfl⟩
  · rcases trans_shape htrans with ⟨-, pt, hmoves, hpt⟩ | ⟨id, filename, -, hmoves⟩ |
      ⟨c, id, filename, -, rfl⟩ | ⟨c, ec, hpt, hmain, hrem, hpcb, rfl⟩ | ⟨pID, ec, hpt, hrem, rfl⟩
    · exact hs.moves hmoves hsame hpt.starting
    · exact hs.moves hmoves hsame (.inl rfl)
    · exact hs.fork ht c id filename
    · exact (hs.setExitCode _ c ec).exitReturn ht _ (hgood (by simp [completesExit, hrem]))
    · exact hs.exitReturn ht pID (hgood (by simp [completesExit, hpt, Point.atRemove]))
  · exact hs.load ht hpt hframes
  · exact hs.fork ht c id filename

/-- A step that completes an exit ends in the return from `ExitUpdate`. -/
theorem step_completesExit {l : Label} (h : step s l = some s')
    (hcompletes : completesExit s l = true) :
    ∃ (u : State) (pID : Nat), s' = u.exitReturn l.thread pID ∧ u.threads = s.threads ∧
      u.numThreads = s.numThreads ∧ u.physPages = s.physPages := by
  rcases Option.eq_none_or_eq_some (removing s l) with hnone | ⟨i, hi⟩
  · simp only [completesExit, hnone, Option.isSome_none, Bool.false_or] at hcompletes
    cases l with
    | call t c =>
      simp only [step] at h
      split_ifs at h with hrun
      simp [Label.thread, hrun.2, Point.atRemove] at hcompletes
    | resume t file =>
      simp only [step] at h
      split_ifs at h
      obtain rfl := Option.some.inj h
      simp only [Label.thread] at hcompletes
      cases hpt : (s.threads t).point with
      | exitRemove pID ec =>
        exact ⟨s, pID, by simp [State.resume, hpt, Label.thread], rfl, rfl, rfl⟩
      | _ =>
        rw [hpt] at hcompletes
        cases hcompletes
  · obtain ⟨-, -, ⟨-, rfl⟩ | ⟨-, -, c, ec, -, -, -, rfl⟩⟩ := step_removing h hi
    · exact ⟨s, i, rfl, rfl, rfl, rfl⟩
    · exact ⟨_, i, rfl, rfl, rfl, rfl⟩

/-- A completed exit leaves the frames of the process marked. -/
theorem FrameInv.not_noLeak (hs : FrameInv s) {l : Label}
    (hbad : ¬ (completesExit s l = true → (s.threads l.thread).numPages = 0))
    (h : Userprog.step s l = some s') : ¬ NoLeak s' := by
  obtain ⟨hcompletes, hpages⟩ := Classical.not_imp.mp hbad
  have ht := lt_of_runnable (step_trans h).1
  have hlive : (s.threads l.thread).livePages = (s.threads l.thread).numPages := by
    cases hexited : (s.threads l.thread).exited with
    | false => simp [Thread.livePages, hexited]
    | true => exact absurd (hs.exited _ ht hexited).1 hpages
  obtain ⟨u, pID, rfl, hthreads, hnum, hphys⟩ := step_completesExit h hcompletes
  have hsum := livePages_exitReturn (s := u) (t := l.thread) (by rw [hnum]; exact ht) pID
  have hbefore : livePages u = livePages s := by rw [livePages, livePages, hthreads, hnum]
  have hafter : (u.exitReturn l.thread pID).physPages = s.physPages := by
    simp [State.exitReturn, hphys]
  rw [hthreads, hlive, hbefore] at hsum
  rintro ⟨hmarked, -⟩
  rw [hafter, hs.marked] at hmarked
  omega

/-- In every run, the marked frames are in every state those of the processes that have not
exited exactly when no process that has an address space completes its `SC_Exit`. -/
theorem noLeak_iff (ls : List Label) :
    Runs.AllStates step NoLeak boot ls ↔
      Runs.AllSteps step
        (fun s l => completesExit s l = true → (s.threads l.thread).numPages = 0) boot ls :=
  Runs.allStates_iff_allSteps (fun _ hs => hs.noLeak) (fun _ _ _ hs hgood h => hs.step hgood h)
    (fun _ _ _ hs hbad h => hs.not_noLeak hbad h) FrameInv.boot ls

/-- The two frames of the child of `exitRun` stay marked. -/
theorem not_noLeak_exitRun : ¬ Runs.AllStates step NoLeak boot exitRun := by
  intro h
  have hrun : (Runs.run step boot exitRun).map (fun s => (s.physPages.numMarked,
      s.numThreads, (s.threads 0).livePages, (s.threads 1).livePages)) = some (4, 2, 2, 0) := by
    decide +kernel
  obtain ⟨s, hs, heval⟩ := Option.map_eq_some_iff.mp hrun
  simp only [Prod.mk.injEq] at heval
  obtain ⟨hmarked, hnum, hmain, hchild⟩ := heval
  have hleak := (h.of_run hs).1
  rw [livePages, hnum, Sums.total_succ, Sums.total_succ, Sums.total_zero, hmain, hchild,
    hmarked] at hleak
  omega

end Nachos.Userprog
