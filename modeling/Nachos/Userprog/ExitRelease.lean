import Nachos.Userprog.JoinExit

/-!
# Whether a completed join frees the child

`ExitRelease` is called by a joiner that has read exit code zero. `Parked` says that the blocked
threads are those in the queues of the semaphores they wait on; with the count of units it
follows that the child of a completed join is past `ExitWait`, or can pass it, exactly when its
exit code is zero (`freed_iff`). With another exit code `JoinUpdate` returns early and nothing is
ever put into `exitsem`.
-/

namespace Nachos.Userprog

open Function (update update_of_ne update_self update_apply)
open Threads (Tid Semaphore)
open State

/-- `exitsem` of the child has been given its unit, and the child is not blocked: it has exited,
is about to remove its slot, or will pass `ExitWait` when it runs next. -/
def Freed (s : State) (c : PcbId) : Prop :=
  (s.sems (.exitsem c)).completedV = 1 ∧
    ∀ t, t < s.numThreads → (s.threads t).own = c →
      (s.threads t).exited = true ∨ (s.threads t).point.atRemove = true ∨
        ((s.threads t).point.exiting ≠ none ∧ (s.threads t).blocked = false ∧
          0 < (s.sems (.exitsem c)).value)

/-- The semaphore in whose `P` a thread is. -/
def Point.waitsOn : Point → Option SemRef
  | .execP _ => some .bmsem
  | .execMutexP c _ _ => some (.mutex c)
  | .joinP c _ _ => some (.joinsem c)
  | .exitP c _ _ => some (.exitsem c)
  | _ => none

/-- The blocked threads are those in the queues. -/
structure Parked (s : State) : Prop where
  nodup : ∀ r, (s.sems r).queue.Nodup
  waits : ∀ r, ∀ u ∈ (s.sems r).queue, u < s.numThreads ∧
    (s.threads u).point.waitsOn = some r ∧ (s.threads u).blocked = true
  queued : ∀ u, u < s.numThreads → (s.threads u).blocked = true →
    ∃ r, (s.threads u).point.waitsOn = some r ∧ u ∈ (s.sems r).queue

/-- Once a unit has been put into `exitsem`, nobody sleeps there. -/
def Drained (s : State) : Prop :=
  ∀ c, 0 < (s.sems (.exitsem c)).completedV → (s.sems (.exitsem c)).queue = []

variable {s s' : State} {t u : Tid}

/-! ## Queues -/

/-- A step that leaves the queues alone and changes only threads that run. -/
theorem Parked.same (hs : Parked s) (hnum : s'.numThreads = s.numThreads)
    (hqueue : ∀ r, (s'.sems r).queue = (s.sems r).queue)
    (hthreads : ∀ u, (s'.threads u).blocked = (s.threads u).blocked ∧
      ((s.threads u).blocked = true → (s'.threads u).point = (s.threads u).point)) :
    Parked s' := by
  refine ⟨fun r => ?_, fun r u hu => ?_, fun u hu hblocked => ?_⟩
  · rw [hqueue]
    exact hs.nodup r
  · rw [hqueue] at hu
    obtain ⟨hlt, hwaits, hblocked⟩ := hs.waits r u hu
    rw [hnum, (hthreads u).1, (hthreads u).2 hblocked]
    exact ⟨hlt, hwaits, hblocked⟩
  · rw [hnum] at hu
    rw [(hthreads u).1] at hblocked
    obtain ⟨r, hwaits, hmem⟩ := hs.queued u hu hblocked
    refine ⟨r, ?_, ?_⟩
    · rw [(hthreads u).2 hblocked]
      exact hwaits
    · rw [hqueue]
      exact hmem

theorem Parked.of_update (hs : Parked s) (hrun : (s.threads t).blocked = false) {th : Thread}
    (hnum : s'.numThreads = s.numThreads) (hqueue : ∀ r, (s'.sems r).queue = (s.sems r).queue)
    (hthreads : s'.threads = update s.threads t th) (hth : th.blocked = false) : Parked s' := by
  refine hs.same hnum hqueue fun u => ?_
  rw [hthreads, update_apply]
  split_ifs with hut
  · rw [hut, hrun, hth]
    exact ⟨rfl, fun h => by cases h⟩
  · exact ⟨rfl, fun _ => rfl⟩

theorem Parked.not_mem (hs : Parked s) (hrun : (s.threads t).blocked = false) (r : SemRef) :
    t ∉ (s.sems r).queue := by
  intro hmem
  have hblocked := (hs.waits r t hmem).2.2
  rw [hrun] at hblocked
  cases hblocked

theorem Parked.p (hs : Parked s) (ht : t < s.numThreads) (hrun : (s.threads t).blocked = false)
    {r : SemRef} {w n : Point} (hw : w.waitsOn = some r) : Parked (s.p t r w n) := by
  by_cases hzero : (s.sems r).value = 0
  · have hsems := p_sems s t r w n
    have hthreads := p_threads s t r w n
    rw [if_pos hzero] at hsems hthreads
    rw [if_pos hzero] at hthreads
    have hother : ∀ u, u ≠ t → (s.p t r w n).threads u = s.threads u := fun u hut => by
      rw [hthreads, update_of_ne hut]
    have hself : ((s.p t r w n).threads t).point = w ∧ ((s.p t r w n).threads t).blocked = true := by
      rw [hthreads, update_self]
      exact ⟨rfl, rfl⟩
    have hnum : (s.p t r w n).numThreads = s.numThreads := p_numThreads ..
    refine ⟨fun r' => ?_, fun r' u hu => ?_, fun u hu hblocked => ?_⟩
    · rw [hsems, update_apply]
      split_ifs with hr
      · rw [Threads.Semaphore.enqueue_queue]
        refine List.Nodup.append (hs.nodup r) (List.nodup_singleton t) ?_
        simpa using hs.not_mem hrun r
      · exact hs.nodup r'
    · rw [hnum]
      rw [hsems, update_apply] at hu
      split_ifs at hu with hr
      · rw [Threads.Semaphore.enqueue_queue, List.mem_append, List.mem_singleton] at hu
        subst hr
        rcases hu with hu | rfl
        · have hne : u ≠ t := fun h => hs.not_mem hrun r' (h ▸ hu)
          rw [hother u hne]
          exact hs.waits r' u hu
        · rw [hself.1, hself.2]
          exact ⟨ht, hw, rfl⟩
      · have hne : u ≠ t := fun h => hs.not_mem hrun r' (h ▸ hu)
        rw [hother u hne]
        exact hs.waits r' u hu
    · rw [hnum] at hu
      by_cases hut : u = t
      · subst hut
        refine ⟨r, by rw [hself.1, hw], ?_⟩
        rw [hsems, update_self, Threads.Semaphore.enqueue_queue]
        simp
      · rw [hother u hut] at hblocked ⊢
        obtain ⟨r', hwaits, hmem⟩ := hs.queued u hu hblocked
        refine ⟨r', hwaits, ?_⟩
        rw [hsems, update_apply]
        split_ifs with hr
        · rw [Threads.Semaphore.enqueue_queue]
          exact List.mem_append_left _ (hr ▸ hmem)
        · exact hmem
  · have hsems := p_sems s t r w n
    have hthreads := p_threads s t r w n
    rw [if_neg hzero] at hsems
    refine hs.of_update hrun (p_numThreads ..) (fun r' => ?_) hthreads ?_
    · rw [hsems, update_apply]
      split_ifs with hr
      · rw [hr]
        rfl
      · rfl
    · simp [hzero, hrun]

theorem Parked.v (hs : Parked s) (r : SemRef) : Parked (s.v r) := by
  have hthreads := v_threads s r
  have hqueue : ∀ r', ((s.v r).sems r').queue =
      if r' = r then (s.sems r).queue.tail else (s.sems r').queue := by
    intro r'
    rw [v_sems, update_apply]
    split_ifs <;> rfl
  -- the thread that is woken leaves the only queue it is in
  have hhead : ∀ r' u, u ∈ ((s.v r).sems r').queue → (s.sems r).queue.head? ≠ some u := by
    intro r' u hu hsome
    have hmem : u ∈ (s.sems r).queue := List.mem_of_mem_head? hsome
    rw [hqueue] at hu
    split_ifs at hu with hr
    · obtain ⟨l, hl⟩ : ∃ l, (s.sems r).queue = u :: l := by
        cases hq : (s.sems r).queue with
        | nil => rw [hq] at hsome; cases hsome
        | cons v l =>
          rw [hq] at hsome
          cases hsome
          exact ⟨l, rfl⟩
      have hnodup := hs.nodup r
      rw [hl] at hu hnodup
      exact (List.nodup_cons.mp hnodup).1 hu
    · have h1 := (hs.waits r' u hu).2.1
      rw [(hs.waits r u hmem).2.1] at h1
      exact hr (Option.some.inj h1).symm
  refine ⟨fun r' => ?_, fun r' u hu => ?_, fun u hu hblocked => ?_⟩
  · rw [hqueue]
    split_ifs
    · exact (hs.nodup r).tail
    · exact hs.nodup r'
  · have hnot := hhead r' u hu
    have hmem : u ∈ (s.sems r').queue := by
      rw [hqueue] at hu
      split_ifs at hu with hr
      · exact hr ▸ List.mem_of_mem_tail hu
      · exact hu
    rw [hthreads, v_numThreads]
    simp only [if_neg hnot]
    exact hs.waits r' u hmem
  · rw [v_numThreads] at hu
    rw [hthreads] at hblocked ⊢
    simp only at hblocked ⊢
    split_ifs at hblocked with hsome
    obtain ⟨r', hwaits, hmem⟩ := hs.queued u hu hblocked
    refine ⟨r', hwaits, ?_⟩
    rw [hqueue]
    split_ifs with hr
    · subst hr
      cases hq : (s.sems r').queue with
      | nil => rw [hq] at hmem; cases hmem
      | cons v l =>
        rw [hq] at hmem hsome
        rcases List.mem_cons.mp hmem with rfl | hmem
        · exact absurd rfl hsome
        · exact hmem
    · exact hmem

/-- Nobody waits on a semaphore of a PCB that is not constructed yet. -/
def WaitsConstructed (s : State) : Prop :=
  ∀ t, t < s.numThreads → ∀ r, (s.threads t).point.waitsOn = some r →
    ∀ c, r.owner = some c → c < s.numPcbs

theorem JoinInv.waitsConstructed (hs : JoinInv s) : WaitsConstructed s := by
  intro t ht r hwaits c hr
  cases hpt : (s.threads t).point <;> rw [hpt] at hwaits <;> cases hwaits <;> cases hr
  next id filename =>
    exact (hs.owned.forking t ht c id (by rw [hpt]; rfl)).1.constructed
  next pID child => exact (hs.handshake.joining t ht c pID child (by rw [hpt]; rfl)).1
  next pID ec =>
    rw [hs.handshake.exitWaiting t ht c (by rw [hpt]; rfl)]
    exact hs.owned.constructed t ht

theorem Parked.newPCB (hs : Parked s) (hcons : WaitsConstructed s) (t : Tid) (id : Nat) (bm : BitMap) :
    Parked (s.newPCB t id bm) := by
  have hqueue : ∀ r, ((s.newPCB t id bm).sems r).queue = (s.sems r).queue := by
    intro r
    simp only [newPCB_sems]
    split_ifs with hr
    · -- the queues of the new semaphores were empty
      have hempty : (s.sems r).queue = [] := by
        rw [List.eq_nil_iff_forall_not_mem]
        intro u hu
        obtain ⟨hlt, hwaits, -⟩ := hs.waits r u hu
        exact absurd (hcons u hlt r hwaits _ hr) (Nat.lt_irrefl _)
      rw [hempty]
      cases r <;> rfl
    · rfl
  exact hs.same rfl hqueue fun u => ⟨rfl, fun _ => rfl⟩

theorem Parked.fork (hs : Parked s) (ht : t < s.numThreads) (hrun : (s.threads t).blocked = false)
    (c : PcbId) (id : Nat) (filename : String) :
    Parked ((s.fork c id filename).goto t (.execMutexV c id)) := by
  have hnew := fork_new ht c id filename
  have hold := fun u (hu : u < s.numThreads) => fork_old ht c id filename hu
  set s' := (s.fork c id filename).goto t (.execMutexV c id)
  have hsame : ∀ u, u < s.numThreads → (s.threads u).blocked = true → s'.threads u = s.threads u := by
    intro u hu hblocked
    rw [hold u hu, if_neg]
    rintro rfl
    rw [hrun] at hblocked
    cases hblocked
  refine ⟨hs.nodup, fun r u hu => ?_, fun u hu hblocked => ?_⟩
  · obtain ⟨hlt, hwaits, hblocked⟩ := hs.waits r u hu
    rw [hsame u hlt hblocked]
    exact ⟨Nat.lt_succ_of_lt hlt, hwaits, hblocked⟩
  · rcases Nat.lt_succ_iff_lt_or_eq.mp hu with hlt | rfl
    · have hbefore : (s.threads u).blocked = true := by
        rw [hold u hlt] at hblocked
        split_ifs at hblocked with hut
        · rw [hut]
          exact hblocked
        · exact hblocked
      rw [hsame u hlt hbefore]
      exact hs.queued u hlt hbefore
    · rw [hnew] at hblocked
      cases hblocked

theorem Parked.setPCB (hs : Parked s) (c : PcbId) (x : PCB) : Parked (s.setPCB c x) :=
  hs.same rfl (fun _ => rfl) fun _ => ⟨rfl, fun _ => rfl⟩

theorem Parked.setExitCode (hs : Parked s) (t : Tid) (c : PcbId) (ec : Int) :
    Parked (s.setExitCode t c ec) :=
  hs.same rfl (fun _ => rfl) fun _ => ⟨rfl, fun _ => rfl⟩

theorem Parked.forget (hs : Parked s) (hrun : (s.threads t).blocked = false) (pID : Int) :
    Parked (s.forget t pID) := by
  unfold State.forget
  split
  · exact hs.of_update hrun rfl (fun _ => rfl) rfl hrun
  · exact hs

theorem forget_blocked (hrun : (s.threads t).blocked = false) (pID : Int) :
    ((s.forget t pID).threads t).blocked = false := by
  unfold State.forget
  split
  · simpa using hrun
  · exact hrun

theorem Parked.exitReturn (hs : Parked s) (hrun : (s.threads t).blocked = false) (pID : Nat) :
    Parked (s.exitReturn t pID) := by
  refine hs.of_update hrun ?_ (fun r => ?_) (exitReturn_threads s t pID) hrun <;>
    simp [State.exitReturn]

theorem Parked.goto (hs : Parked s) (hrun : (s.threads t).blocked = false) (pt : Point) :
    Parked (s.goto t pt) := hs.of_update hrun rfl (fun _ => rfl) rfl hrun

/-- After a `V` the thread that calls it still runs. -/
theorem v_blocked (hrun : (s.threads t).blocked = false) (r : SemRef) :
    ((s.v r).threads t).blocked = false := by
  rw [v_threads]
  simp [hrun]

theorem Parked.step (hs : Parked s) (hcons : WaitsConstructed s) {l : Label} (h : step s l = some s') :
    Parked s' := by
  obtain ⟨hrun, htrans⟩ := step_trans h
  have ht := lt_of_runnable hrun
  have hlive : (s.threads l.thread).blocked = false := by
    simp only [runnable, decide_eq_true_eq] at hrun
    exact hrun.2.2
  cases htrans with
  | other => exact hs
  | stop why => exact hs.same rfl (fun _ => rfl) fun _ => ⟨rfl, fun _ => rfl⟩
  | load hpt hframes => exact hs.of_update hlive rfl (fun _ => rfl) rfl hlive
  | exec hpt => exact hs.p ht hlive rfl
  | execP hpt => exact hs.p ht hlive rfl
  | execFail hpt => exact hs.goto hlive _
  | @execNew t file filename id hpt hid hfree =>
    refine (hs.newPCB hcons t id (s.bm.mark id)).of_update hlive rfl
      (fun r => ?_) rfl hlive
    simp only [take_sems, update_apply]
    split_ifs with hr
    · rw [hr]
      rfl
    · rfl
  | mutexP hpt => exact hs.p ht hlive rfl
  | fork hpt halive => exact hs.fork ht hlive _ _ _
  | mutexV hpt halive => exact (hs.v _).goto (v_blocked hlive _) _
  | execV hpt =>
    exact (hs.v .bmsem).of_update (v_blocked hlive _) rfl (fun _ => rfl) rfl (v_blocked hlive _)
  | @joinFail t pID hpt hfail =>
    have hrun' := forget_blocked (s := s) (t := t) hlive pID
    exact (hs.forget hlive pID).of_update hrun' rfl (fun _ => rfl) rfl hrun'
  | @joinStop t pID why =>
    exact (hs.forget hlive pID).same rfl (fun _ => rfl) fun _ => ⟨rfl, fun _ => rfl⟩
  | @joinWait t pID c hpt hrange hbit hpcb halive hparent =>
    have hrun' := forget_blocked (s := s) (t := t) hlive pID
    exact ((hs.forget hlive pID).setPCB c _).p ((Moves.forget s t pID).numThreads.symm ▸ ht) hrun' rfl
  | joinP hpt => exact hs.p ht hlive rfl
  | joinError hpt hpcb halive hec => exact hs.of_update hlive rfl (fun _ => rfl) rfl hlive
  | joinOk hpt hpcb halive hec =>
    exact (hs.v (.exitsem _)).of_update (v_blocked hlive _) rfl (fun _ => rfl) rfl
      (v_blocked hlive _)
  | exitGone hpt hgone => exact hs.goto hlive _
  | @exitAlone t ec c hpt hpID hbit hmain hpcb halive hjoin =>
    exact (hs.setExitCode t c ec).exitReturn hlive _
  | @exitJoined t ec c hpt hpID hbit hmain hpcb halive hjoin =>
    exact (((hs.setExitCode t c ec).setPCB c _).v (.joinsem c)).goto
      (v_blocked (s := (s.setExitCode t c ec).setPCB c _) hlive _) _
  | exitWait hpt hpcb halive => exact hs.p ht hlive rfl
  | exitP hpt => exact hs.p ht hlive rfl
  | exitRemove hpt => exact hs.exitReturn hlive _

/-! ## The queue of `exitsem` -/

/-- At most the process itself sleeps in its `exitsem`. -/
theorem Parked.exit_queue (hs : Parked s) (hinv : JoinInv s) {c : PcbId} {u u' : Tid}
    (hu : u ∈ (s.sems (.exitsem c)).queue) (hu' : u' ∈ (s.sems (.exitsem c)).queue) : u = u' := by
  have hown : ∀ v, v ∈ (s.sems (.exitsem c)).queue → v < s.numThreads ∧ (s.threads v).own = c := by
    intro v hv
    obtain ⟨hlt, hwaits, -⟩ := hs.waits _ v hv
    refine ⟨hlt, ?_⟩
    cases hpt : (s.threads v).point <;> rw [hpt] at hwaits <;> cases hwaits
    exact (hinv.handshake.exitWaiting v hlt c (by rw [hpt]; rfl)).symm
  exact hinv.owned.own_inj u u' (hown u hu).1 (hown u' hu').1 ((hown u hu).2.trans (hown u' hu').2.symm)

theorem Parked.exit_tail (hs : Parked s) (hinv : JoinInv s) (c : PcbId) :
    (s.sems (.exitsem c)).queue.tail = [] := by
  cases hq : (s.sems (.exitsem c)).queue with
  | nil => rfl
  | cons u l =>
    cases l with
    | nil => rfl
    | cons u' l =>
      have hmem : u ∈ (s.sems (.exitsem c)).queue ∧ u' ∈ (s.sems (.exitsem c)).queue := by
        rw [hq]
        simp
      have heq := hs.exit_queue hinv hmem.1 hmem.2
      have hnodup := hs.nodup (.exitsem c)
      rw [hq, heq] at hnodup
      simp at hnodup

theorem Drained.same (hs : Drained s) (hsems : ∀ c, s'.sems (.exitsem c) = s.sems (.exitsem c)) :
    Drained s' := fun c hpos => by
  rw [hsems] at hpos ⊢
  exact hs c hpos

theorem Drained.p (hs : Drained s) {r : SemRef} (hr : ∀ c, r ≠ .exitsem c) {w n : Point} :
    Drained (s.p t r w n) :=
  hs.same fun c => by rw [p_sems, update_of_ne (hr c).symm]

/-- The process only goes to sleep in `ExitWait` while nothing has been put into `exitsem`. -/
theorem Drained.exitP (hs : Drained s) (hinv : JoinInv s) (ht : t < s.numThreads)
    (hlive : (s.threads t).exited = false) (hremove : (s.threads t).point.atRemove = false)
    {w n : Point} : Drained (s.p t (.exitsem (s.threads t).own) w n) := by
  intro c hpos
  rw [p_sems, update_apply] at hpos ⊢
  split_ifs at hpos ⊢ with hc hzero
  · have hunit := hinv.handshake.exitUnit t ht
    have hnot : passed s t = false := by simp [passed, hlive, hremove]
    rw [hnot, hzero] at hunit
    rw [Threads.Semaphore.enqueue_completedV] at hpos
    simp at hunit
    omega
  · obtain rfl : c = (s.threads t).own := by simpa using hc
    exact hs _ hpos
  · exact hs c hpos

theorem Drained.v (hs : Drained s) (hparked : Parked s) (hinv : JoinInv s) (r : SemRef) :
    Drained (s.v r) := by
  intro c hpos
  rw [v_sems, update_apply] at hpos ⊢
  split_ifs at hpos ⊢ with hc
  · rw [← hc, Threads.Semaphore.give_queue]
    exact hparked.exit_tail hinv c
  · exact hs c hpos

theorem Drained.step (hs : Drained s) (hparked : Parked s) (hinv : JoinInv s) {l : Label}
    (hlate : lateCall s l = false) (h : step s l = some s') : Drained s' := by
  obtain ⟨hrun, htrans⟩ := step_trans h
  have ht := lt_of_runnable hrun
  rcases hinv.owned.live_of_step hlate h with hlive | rfl | rfl
  rotate_left
  · exact hs
  · exact hs
  cases htrans with
  | other => exact hs
  | stop why => exact hs
  | load hpt hframes => exact hs
  | exec hpt => exact hs.p (by simp)
  | execP hpt => exact hs.p (by simp)
  | execFail hpt => exact hs
  | @execNew t file filename id hpt hid hfree =>
    intro c hpos
    simp only [take_sems, newPCB_sems, SemRef.owner, Option.some.injEq, update_apply, reduceCtorEq,
      if_false] at hpos ⊢
    split_ifs at hpos ⊢
    · rfl
    · exact hs c hpos
  | mutexP hpt => exact hs.p (by simp)
  | fork hpt halive => exact hs
  | mutexV hpt halive => exact hs.v hparked hinv _
  | execV hpt => exact hs.v hparked hinv .bmsem
  | @joinFail t pID hpt hfail =>
    refine hs.same fun c => ?_
    simp only [State.joinReturn, State.goto, setThread_sems]
    rw [forget_sems]
  | @joinStop t pID why => exact hs.same fun c => by rw [stop_sems, forget_sems]
  | @joinWait t pID c hpt hrange hbit hpcb halive hparent =>
    refine Drained.p (s := (s.forget t pID).setPCB c _) (hs.same fun c' => ?_) (by simp)
    rw [setPCB_sems, forget_sems]
  | joinP hpt => exact hs.p (by simp)
  | joinError hpt hpcb halive hec => exact hs
  | joinOk hpt hpcb halive hec => exact hs.v hparked hinv (.exitsem _)
  | exitGone hpt hgone => exact hs
  | exitAlone hpt hpID hbit hmain hpcb halive hjoin =>
    exact hs.same fun c => by simp [State.exitReturn]
  | @exitJoined t ec c hpt hpID hbit hmain hpcb halive hjoin =>
    exact hs.same fun c' => by simp [State.goto, joinRelease]
  | @exitWait t file pID ec c hpt hpcb halive =>
    have hocc := hinv.owned.live t ht hlive
    obtain ⟨rfl, -⟩ := hinv.owned.exiting t ht pID ec (by rw [hpt]; rfl)
    obtain rfl : (s.threads t).own = c := Option.some.inj (hocc.pcb.symm.trans hpcb)
    exact hs.exitP (t := t) hinv ht hlive (by rw [hpt]; rfl)
  | @exitP t file c pID ec hpt =>
    obtain rfl := hinv.handshake.exitWaiting t ht c (by rw [hpt]; rfl)
    exact hs.exitP (t := t) hinv ht hlive (by rw [hpt]; rfl)
  | exitRemove hpt => exact hs.same fun c => by simp [State.exitReturn]

/-! ## The child of a completed join -/

structure ReleaseInv (s : State) : Prop where
  join : JoinInv s
  parked : Parked s
  drained : Drained s

theorem ReleaseInv.boot : ReleaseInv boot := by
  refine ⟨JoinInv.boot, ⟨?_, ?_, ?_⟩, ?_⟩
  · intro r
    cases r <;> exact List.nodup_nil
  · intro r u hu
    cases r <;> cases hu
  · intro u hu
    obtain rfl := Nat.lt_one_iff.mp hu
    intro h
    cases h
  · intro c hpos
    rfl

theorem ReleaseInv.step (hs : ReleaseInv s) {l : Label} (hlate : lateCall s l = false)
    (h : step s l = some s') : ReleaseInv s' :=
  ⟨hs.join.step hlate h, hs.parked.step hs.join.waitsConstructed h, hs.drained.step hs.parked hs.join hlate h⟩

/-- A process whose `exitsem` has its unit is not blocked. -/
theorem ReleaseInv.not_blocked (hs : ReleaseInv s) (ht : t < s.numThreads)
    (hexiting : (s.threads t).point.exiting ≠ none)
    (hv : 0 < (s.sems (.exitsem (s.threads t).own)).completedV) : (s.threads t).blocked = false := by
  cases hblocked : (s.threads t).blocked with
  | false => rfl
  | true =>
    obtain ⟨r, hwaits, hmem⟩ := hs.parked.queued t ht hblocked
    cases hpt : (s.threads t).point <;> rw [hpt] at hwaits hexiting <;> cases hwaits <;>
      first | exact absurd rfl hexiting | skip
    next c pID ec =>
      obtain rfl := hs.join.handshake.exitWaiting t ht c (by rw [hpt]; rfl)
      rw [hs.drained _ hv] at hmem
      cases hmem

theorem ReleaseInv.freed_of_mem (hs : ReleaseInv s) {c : PcbId} (hc : c ∈ s.released) :
    ∃ ec, s.exitLog c = some ⟨ec, true⟩ ∧ (Freed s c ↔ ec = 0) := by
  have hunit := hs.join.handshake.joinUnit c
  have hnonneg := hs.join.handshake.joinValue c
  have hpos := List.count_pos_iff.mpr hc
  have hjoined : ExitRecord.isJoined (s.exitLog c) = true := by
    by_contra hnot
    rw [if_neg hnot] at hunit
    omega
  rw [if_pos hjoined] at hunit
  have hcount : s.released.count c = 1 := by omega
  have hv := hs.join.handshake.exitV c
  obtain ⟨⟨ec, joined⟩, hlog⟩ : ∃ e, s.exitLog c = some e := by
    cases hlog : s.exitLog c with
    | none => rw [hlog] at hjoined; cases hjoined
    | some e => exact ⟨e, rfl⟩
  obtain rfl : joined = true := by
    rw [hlog] at hjoined
    exact hjoined
  refine ⟨ec, hlog, ?_⟩
  rw [hlog, hcount] at hv
  by_cases hzero : ec = 0
  · subst hzero
    rw [if_pos rfl] at hv
    refine ⟨fun _ => rfl, fun _ => ⟨hv, fun t ht hown => ?_⟩⟩
    subst hown
    have hexit := hs.join.handshake.exitUnit t ht
    have hrunning := hs.join.handshake.running t ht
    rw [hlog] at hrunning
    cases hexited : (s.threads t).exited with
    | true => exact .inl rfl
    | false =>
      refine .inr ?_
      have hexiting : (s.threads t).point.exiting ≠ none := fun hnone => by
        have := hrunning.mpr ⟨hexited, hnone⟩
        cases this
      cases hremove : (s.threads t).point.atRemove with
      | true => exact .inl rfl
      | false =>
        have hnot : passed s t = false := by simp [passed, hexited, hremove]
        refine .inr ⟨hexiting, hs.not_blocked ht hexiting (by omega), ?_⟩
        rw [hnot, hv] at hexit
        simp at hexit
        omega
  · rw [if_neg (by simpa using hzero)] at hv
    refine ⟨fun hfreed => ?_, fun h => absurd h hzero⟩
    have := hfreed.1
    omega

theorem releaseInv_throughout {ls : List Label}
    (hlate : Runs.AllSteps step (fun s l => lateCall s l = false) boot ls) :
    Runs.AllStates step ReleaseInv boot ls :=
  Runs.allStates_of_allSteps (fun _ _ _ hs hgood h => hs.step hgood h) ReleaseInv.boot hlate

/-- In every run in which threads that have exited make no more process calls: when a join has
returned after the exit of its child, the child has been freed exactly when it called
`SC_Exit(0)`. -/
theorem freed_iff (ls : List Label)
    (hlate : Runs.AllSteps step (fun s l => lateCall s l = false) boot ls) :
    Runs.AllStates step
      (fun s => ∀ c ∈ s.released, ∃ ec, s.exitLog c = some ⟨ec, true⟩ ∧ (Freed s c ↔ ec = 0))
      boot ls := by
  refine (releaseInv_throughout hlate).mono ?_
  intro s hs c hc
  exact hs.freed_of_mem hc

/-- "main" executes a program, joins it and waits; the program exits with code one; "main" goes on. -/
def failedExitRun : List Label :=
  .resume 0 (some emptyProgram) :: execLabels "child" ++
    [.call 0 (.join 1), .resume 1 (some emptyProgram), .call 1 (.exit 1), .resume 1 none,
      .resume 0 none, .resume 0 none]

theorem freed_iff_failedExitRun :
    Runs.AllSteps step (fun s l => lateCall s l = false) boot failedExitRun ∧
      Runs.AllStates step
        (fun s => ∀ c ∈ s.released, ∃ ec, s.exitLog c = some ⟨ec, true⟩ ∧ (Freed s c ↔ ec = 0))
        boot failedExitRun := by
  have hlate : Runs.AllSteps step (fun s l => lateCall s l = false) boot failedExitRun := by
    decide +kernel
  exact ⟨hlate, freed_iff failedExitRun hlate⟩

/-- The child of `failedExitRun` is blocked in `ExitWait` after the join has returned. -/
theorem not_freed_failedExitRun :
    ¬ Runs.AllStates step (fun s => ∀ c ∈ s.released, Freed s c) boot failedExitRun := by
  intro h
  have hrun : (Runs.run step boot failedExitRun).map
      (fun s => (s.released, (s.sems (.exitsem 1)).completedV, (s.threads 1).blocked)) =
      some ([1], 0, true) := by decide +kernel
  obtain ⟨s, hs, heval⟩ := Option.map_eq_some_iff.mp hrun
  simp only [Prod.mk.injEq] at heval
  obtain ⟨hreleased, hv, -⟩ := heval
  have hfreed := (h.of_run hs 1 (by rw [hreleased]; simp)).1
  omega

end Nachos.Userprog
