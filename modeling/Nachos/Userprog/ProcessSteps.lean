import Nachos.Userprog.Process

/-!
# The steps of the process system, case by case

`V` changes one semaphore and wakes at most one thread; a test of `P` changes one semaphore and
moves one thread. The field lemmas say so once, for use by `simp`. `Trans` lists the outcomes of
a step with the tests of the source that lead to them, and `step_trans` says that there are no
others: an invariant of the system is a case analysis of `Trans`.
-/

namespace Nachos.Userprog

open Function (update update_of_ne update_self update_apply)
open Threads (Tid Semaphore)

namespace State

variable (s : State) (t t' : Tid) (c : PcbId) (r : SemRef) (w n : Point)

/-! ## `P` -/

/-- The outcome of a test of `P` that finds no unit. -/
@[simps! -fullyApplied] def sleep : State :=
  (s.setSem r ((s.sems r).enqueue t)).setThread t { s.threads t with point := w, blocked := true }

/-- The outcome of a test of `P` that finds a unit. -/
@[simps! -fullyApplied] def take : State :=
  (s.setSem r (s.sems r).take).setThread t { s.threads t with point := n }

theorem p_eq : s.p t r w n = if (s.sems r).value = 0 then s.sleep t r w else s.take t r n := rfl

@[simp] theorem p_bm : (s.p t r w n).bm = s.bm := by rw [p_eq]; split <;> rfl
@[simp] theorem p_pcb : (s.p t r w n).pcb = s.pcb := by rw [p_eq]; split <;> rfl
@[simp] theorem p_heap : (s.p t r w n).heap = s.heap := by rw [p_eq]; split <;> rfl
@[simp] theorem p_numPcbs : (s.p t r w n).numPcbs = s.numPcbs := by rw [p_eq]; split <;> rfl
@[simp] theorem p_numThreads : (s.p t r w n).numThreads = s.numThreads := by
  rw [p_eq]; split <;> rfl
@[simp] theorem p_physPages : (s.p t r w n).physPages = s.physPages := by rw [p_eq]; split <;> rfl
@[simp] theorem p_stopped : (s.p t r w n).stopped = s.stopped := by rw [p_eq]; split <;> rfl
@[simp] theorem p_exitLog : (s.p t r w n).exitLog = s.exitLog := by rw [p_eq]; split <;> rfl
@[simp] theorem p_joinLog : (s.p t r w n).joinLog = s.joinLog := by rw [p_eq]; split <;> rfl
@[simp] theorem p_released : (s.p t r w n).released = s.released := by rw [p_eq]; split <;> rfl

/-- `P` changes the semaphore it is called on and no other. -/
theorem p_sems : (s.p t r w n).sems = update s.sems r
    (if (s.sems r).value = 0 then (s.sems r).enqueue t else (s.sems r).take) := by
  rw [p_eq]
  split_ifs <;> rfl

/-- `P` moves the thread that calls it and no other. -/
theorem p_threads : (s.p t r w n).threads = update s.threads t
    { s.threads t with
      point := if (s.sems r).value = 0 then w else n
      blocked := if (s.sems r).value = 0 then true else (s.threads t).blocked } := by
  rw [p_eq]
  split <;> rfl

/-! ## `V` -/

/-- `V` makes the first thread of the queue runnable. -/
theorem v_threads : (s.v r).threads = fun t' => { s.threads t' with
    blocked := if (s.sems r).queue.head? = some t' then false else (s.threads t').blocked } := by
  unfold v
  split
  next hq =>
    funext t'
    simp [hq, setSem]
  next u us hq =>
    funext t'
    by_cases ht : t' = u
    · subst ht
      simp [hq]
    · have hne : ¬ u = t' := fun h => ht h.symm
      simp [hq, update_of_ne ht, hne]

@[simp] theorem v_sems : (s.v r).sems = update s.sems r (s.sems r).give := by
  unfold v; split <;> rfl
@[simp] theorem v_bm : (s.v r).bm = s.bm := by unfold v; split <;> rfl
@[simp] theorem v_pcb : (s.v r).pcb = s.pcb := by unfold v; split <;> rfl
@[simp] theorem v_heap : (s.v r).heap = s.heap := by unfold v; split <;> rfl
@[simp] theorem v_numPcbs : (s.v r).numPcbs = s.numPcbs := by unfold v; split <;> rfl
@[simp] theorem v_numThreads : (s.v r).numThreads = s.numThreads := by unfold v; split <;> rfl
@[simp] theorem v_physPages : (s.v r).physPages = s.physPages := by unfold v; split <;> rfl
@[simp] theorem v_stopped : (s.v r).stopped = s.stopped := by unfold v; split <;> rfl
@[simp] theorem v_exitLog : (s.v r).exitLog = s.exitLog := by unfold v; split <;> rfl
@[simp] theorem v_joinLog : (s.v r).joinLog = s.joinLog := by unfold v; split <;> rfl
@[simp] theorem v_released : (s.v r).released = s.released := by unfold v; split <;> rfl

/-! ## `Remove` -/

@[simp] theorem remove_pcb (pID : Nat) : (s.remove pID).pcb = s.pcb := by
  unfold remove delete; split_ifs <;> first | rfl | split <;> (try split) <;> rfl
@[simp] theorem remove_sems (pID : Nat) : (s.remove pID).sems = s.sems := by
  unfold remove delete; split_ifs <;> first | rfl | split <;> (try split) <;> rfl
@[simp] theorem remove_numPcbs (pID : Nat) : (s.remove pID).numPcbs = s.numPcbs := by
  unfold remove delete; split_ifs <;> first | rfl | split <;> (try split) <;> rfl
@[simp] theorem remove_threads (pID : Nat) : (s.remove pID).threads = s.threads := by
  unfold remove delete; split_ifs <;> first | rfl | split <;> (try split) <;> rfl
@[simp] theorem remove_numThreads (pID : Nat) : (s.remove pID).numThreads = s.numThreads := by
  unfold remove delete; split_ifs <;> first | rfl | split <;> (try split) <;> rfl
@[simp] theorem remove_physPages (pID : Nat) : (s.remove pID).physPages = s.physPages := by
  unfold remove delete; split_ifs <;> first | rfl | split <;> (try split) <;> rfl

/-- Once its bit is found set, a slot is cleared. -/
theorem remove_bm {pID : Nat} (hpID : pID ≤ 9) (hbit : s.bm.test pID = true) :
    (s.remove pID).bm = s.bm.clear pID := by
  unfold remove delete
  rw [if_neg (by omega), if_pos hbit]
  split
  · rfl
  · split <;> rfl

/-- A slot whose bit is clear is left alone. -/
theorem remove_of_clear {pID : Nat} (h : ¬ (pID ≤ 9 ∧ s.bm.test pID = true)) :
    s.remove pID = s := by
  unfold remove
  split_ifs with h9 hbit
  · rfl
  · exact absurd ⟨by omega, hbit⟩ h
  · rfl

/-- `Remove` of a live process. -/
theorem remove_alive {pID : Nat} {c : PcbId} (hpID : pID ≤ 9) (hbit : s.bm.test pID = true)
    (hpcb : s.pcb pID = some c) (halive : (s.heap c).deleted = false) :
    s.remove pID = { s with
      bm := s.bm.clear pID, heap := update s.heap c { s.heap c with deleted := true } } := by
  unfold remove delete
  rw [if_neg (by omega), if_pos hbit]
  simp [hpcb, halive, setPCB]

/-! ## `isExist` -/

theorem isExist_iff (pID : Nat) : s.isExist pID = true ↔ pID ≤ 9 ∧ s.bm.test pID = true := by
  simp [isExist]

end State

/-! ## The outcomes of a step -/

open State

/-- The outcomes of the steps. The constructors follow the order of the model; where a test of
the source decides, the constructor carries it. -/
inductive Trans (s : State) : Label → State → Prop
  | other {t : Tid} : Trans s (.call t .other) s
  | stop {l : Label} (why : Stop) : Trans s l (s.stop why)
  | load {t : Tid} {file : Option NoffHeader} {n : Nat} {pages : BitMap}
      (hpt : (s.threads t).point = .startProcess ∨ (s.threads t).point = .myStartProcess)
      (hframes : (n = 0 ∧ pages = s.physPages) ∨
        (∃ fs, Allocated s.physPages fs pages ∧ fs.length = n) ∨
        -- only "main" tries to take frames without having counted them
        (n = 0 ∧ (s.threads t).point = .startProcess ∧ s.physPages.numClear < numPhysPages)) :
      Trans s (.resume t file)
        { s.setThread t { s.threads t with point := .user, numPages := n } with physPages := pages }
  | exec {t : Tid} {filename : String} (hpt : (s.threads t).point = .user) :
      Trans s (.call t (.exec filename)) (s.p t .bmsem (.execP filename) (.execBody filename))
  | execP {t : Tid} {file : Option NoffHeader} {filename : String}
      (hpt : (s.threads t).point = .execP filename) :
      Trans s (.resume t file) (s.p t .bmsem (.execP filename) (.execBody filename))
  | execFail {t : Tid} {file : Option NoffHeader} {filename : String}
      (hpt : (s.threads t).point = .execBody filename) :
      Trans s (.resume t file) (s.goto t (.execV (-1) none))
  | execNew {t : Tid} {file : Option NoffHeader} {filename : String} {id : Nat}
      (hpt : (s.threads t).point = .execBody filename)
      (hid : id < s.bm.numBits) (hfree : s.bm.test id = false) :
      Trans s (.resume t file) ((s.newPCB t id (s.bm.mark id)).take t (.mutex s.numPcbs)
        (.execFork s.numPcbs id filename))
  | mutexP {t : Tid} {file : Option NoffHeader} {c : PcbId} {id : Nat} {filename : String}
      (hpt : (s.threads t).point = .execMutexP c id filename) :
      Trans s (.resume t file)
        (s.p t (.mutex c) (.execMutexP c id filename) (.execFork c id filename))
  | fork {t : Tid} {file : Option NoffHeader} {c : PcbId} {id : Nat} {filename : String}
      (hpt : (s.threads t).point = .execFork c id filename) (halive : (s.heap c).deleted = false) :
      Trans s (.resume t file) ((s.fork c id filename).goto t (.execMutexV c id))
  | mutexV {t : Tid} {file : Option NoffHeader} {c : PcbId} {id : Nat}
      (hpt : (s.threads t).point = .execMutexV c id) (halive : (s.heap c).deleted = false) :
      Trans s (.resume t file) ((s.v (.mutex c)).goto t (.execV id (some c)))
  | execV {t : Tid} {file : Option NoffHeader} {result : Int} {child : Option PcbId}
      (hpt : (s.threads t).point = .execV result child) :
      Trans s (.resume t file) ((s.v .bmsem).execReturn t result child)
  | joinFail {t : Tid} {pID : Int} (hpt : (s.threads t).point = .user)
      (hfail : ¬ (0 < pID ∧ pID ≤ 9 ∧ s.bm.test pID.toNat = true) ∨ s.pcb pID.toNat = none ∨
        ∃ c, s.pcb pID.toNat = some c ∧ (s.threads t).processID ≠ (s.heap c).parentID) :
      Trans s (.call t (.join pID)) ((s.forget t pID).joinReturn t (s.childOf t pID) (-1))
  | joinStop {t : Tid} {pID : Int} (why : Stop) :
      Trans s (.call t (.join pID)) ((s.forget t pID).stop why)
  | joinWait {t : Tid} {pID : Int} {c : PcbId} (hpt : (s.threads t).point = .user)
      (hrange : 0 < pID ∧ pID ≤ 9) (hbit : s.bm.test pID.toNat = true)
      (hpcb : s.pcb pID.toNat = some c) (halive : (s.heap c).deleted = false)
      (hparent : (s.threads t).processID = (s.heap c).parentID) :
      Trans s (.call t (.join pID))
        ((s.forget t pID).joinWait t c pID.toNat (s.childOf t pID))
  | joinP {t : Tid} {file : Option NoffHeader} {c : PcbId} {pID : Nat} {child : Option PcbId}
      (hpt : (s.threads t).point = .joinP c pID child) :
      Trans s (.resume t file)
        (s.p t (.joinsem c) (.joinP c pID child) (.joinRead c pID child))
  | joinError {t : Tid} {file : Option NoffHeader} {c c' : PcbId} {pID : Nat}
      {child : Option PcbId}
      (hpt : (s.threads t).point = .joinRead c pID child) (hpcb : s.pcb pID = some c')
      (halive : (s.heap c').deleted = false) (hec : (s.heap c').exitcode ≠ 0) :
      Trans s (.resume t file) { s.joinReturn t child (-1) with released := c :: s.released }
  | joinOk {t : Tid} {file : Option NoffHeader} {c c' : PcbId} {pID : Nat} {child : Option PcbId}
      (hpt : (s.threads t).point = .joinRead c pID child) (hpcb : s.pcb pID = some c')
      (halive : (s.heap c').deleted = false) (hec : (s.heap c').exitcode = 0) :
      Trans s (.resume t file)
        { (s.v (.exitsem c')).joinReturn t child 0 with released := c :: s.released }
  | exitGone {t : Tid} {ec : Int} (hpt : (s.threads t).point = .user)
      (hgone : ¬ ((s.threads t).processID ≤ 9 ∧ s.bm.test (s.threads t).processID = true)) :
      Trans s (.call t (.exit ec)) (s.goto t .user)
  | exitAlone {t : Tid} {ec : Int} {c : PcbId} (hpt : (s.threads t).point = .user)
      (hpID : (s.threads t).processID ≤ 9) (hbit : s.bm.test (s.threads t).processID = true)
      (hmain : (s.threads t).processID ≠ 0) (hpcb : s.pcb (s.threads t).processID = some c)
      (halive : (s.heap c).deleted = false) (hjoin : (s.heap c).joinStatus = -1) :
      Trans s (.call t (.exit ec)) ((s.setExitCode t c ec).exitReturn t (s.threads t).processID)
  | exitJoined {t : Tid} {ec : Int} {c : PcbId} (hpt : (s.threads t).point = .user)
      (hpID : (s.threads t).processID ≤ 9) (hbit : s.bm.test (s.threads t).processID = true)
      (hmain : (s.threads t).processID ≠ 0) (hpcb : s.pcb (s.threads t).processID = some c)
      (halive : (s.heap c).deleted = false) (hjoin : (s.heap c).joinStatus ≠ -1) :
      Trans s (.call t (.exit ec)) (((s.setExitCode t c ec).joinRelease c).goto t
        (.exitWait (s.threads t).processID ec))
  | exitWait {t : Tid} {file : Option NoffHeader} {pID : Nat} {ec : Int} {c : PcbId}
      (hpt : (s.threads t).point = .exitWait pID ec)
      (hpcb : s.pcb pID = some c) (halive : (s.heap c).deleted = false) :
      Trans s (.resume t file) (s.p t (.exitsem c) (.exitP c pID ec) (.exitRemove pID ec))
  | exitP {t : Tid} {file : Option NoffHeader} {c : PcbId} {pID : Nat} {ec : Int}
      (hpt : (s.threads t).point = .exitP c pID ec) :
      Trans s (.resume t file) (s.p t (.exitsem c) (.exitP c pID ec) (.exitRemove pID ec))
  | exitRemove {t : Tid} {file : Option NoffHeader} {pID : Nat} {ec : Int}
      (hpt : (s.threads t).point = .exitRemove pID ec) :
      Trans s (.resume t file) (s.exitReturn t pID)

variable {s s' : State} {t : Tid} {file : Option NoffHeader}

theorem trans_startProcess (hpt : (s.threads t).point = .startProcess) :
    Trans s (.resume t file) (s.startProcess t file) := by
  unfold State.startProcess
  split
  next => exact .stop _
  next h =>
    split_ifs with hbad
    · exact .stop _
    · split
      next pages hnone =>
        have hfew : s.physPages.numClear < numPhysPages := by
          by_contra hmany
          obtain ⟨fs, b', hsome⟩ := allocFrames_of_le (b := s.physPages) (n := h.numPages) (by omega)
          simp [hnone] at hsome
        exact .load (.inl hpt) (.inr (.inr ⟨rfl, hpt, hfew⟩))
      next fs pages hsome => exact .load (.inl hpt) (.inr (.inl ⟨fs, allocFrames_some hsome⟩))

theorem trans_myStartProcess (hpt : (s.threads t).point = .myStartProcess) :
    Trans s (.resume t file) (s.myStartProcess t file) := by
  unfold State.myStartProcess
  dsimp only
  split
  next => exact .stop _
  next c hpcb =>
    split_ifs
    · exact .stop _
    · split
      next => exact .stop _
      next h =>
        split_ifs with hmagic hfew
        · exact .stop _
        · exact .load (.inr hpt) (.inl ⟨rfl, rfl⟩)
        · obtain ⟨fs, pages, hsome⟩ := allocFrames_of_le (Nat.not_lt.mp hfew)
          rw [hsome]
          exact .load (.inr hpt) (.inr (.inl ⟨fs, allocFrames_some hsome⟩))

theorem trans_execBody {filename : String} (hpt : (s.threads t).point = .execBody filename) :
    Trans s (.resume t file) (s.execBody t filename file) := by
  unfold State.execBody
  split
  next => exact .execFail hpt
  next =>
    split_ifs
    · exact .execFail hpt
    · rcases s.bm.find_cases with ⟨id, hid, hfree, hfind⟩ | ⟨-, hfind⟩
      · rw [BitMap.findFreeSlot_eq_find, hfind]
        have hfresh : ((s.newPCB t id (s.bm.mark id)).sems (.mutex s.numPcbs)).value = 1 := by
          simp [SemRef.owner, SemRef.new]
        dsimp only
        rw [p_eq, hfresh, if_neg (by decide)]
        exact .execNew hpt hid hfree
      · rw [BitMap.findFreeSlot_eq_find, hfind]
        exact .execFail hpt

/-- What a call of `JoinUpdate` does in a state `u`. -/
theorem joinUpdate_cases (u : State) (t : Tid) (pID : Int) (child : Option PcbId) :
    u.joinUpdate t pID child = u.stop .undefined ∨
    u.joinUpdate t pID child = u.joinReturn t child (-1) ∧
      (¬ (0 < pID ∧ pID ≤ 9) ∨ u.pcb pID.toNat = none ∨
        ∃ c, u.pcb pID.toNat = some c ∧ (u.threads t).processID ≠ (u.heap c).parentID) ∨
    ∃ c, u.joinUpdate t pID child = u.joinWait t c pID.toNat child ∧ (0 < pID ∧ pID ≤ 9) ∧
      u.pcb pID.toNat = some c ∧ (u.heap c).deleted = false ∧
      (u.threads t).processID = (u.heap c).parentID := by
  unfold State.joinUpdate
  split_ifs with hrange
  · exact .inr (.inl ⟨rfl, .inl (by omega)⟩)
  · split
    next hnone => exact .inr (.inl ⟨rfl, .inr (.inl hnone)⟩)
    next c hpcb =>
      split_ifs with hdel hparent
      · exact .inl rfl
      · exact .inr (.inl ⟨rfl, .inr (.inr ⟨c, hpcb, hparent⟩)⟩)
      · exact .inr (.inr ⟨c, rfl, by omega, hpcb, by simpa using hdel, not_not.mp hparent⟩)

@[simp] theorem forget_bm (pID : Int) : (s.forget t pID).bm = s.bm := by
  unfold forget; split <;> rfl
@[simp] theorem forget_pcb (pID : Int) : (s.forget t pID).pcb = s.pcb := by
  unfold forget; split <;> rfl
@[simp] theorem forget_heap (pID : Int) : (s.forget t pID).heap = s.heap := by
  unfold forget; split <;> rfl
theorem forget_sems (pID : Int) : (s.forget t pID).sems = s.sems := by
  unfold forget; split <;> rfl
@[simp] theorem forget_processID (pID : Int) (t' : Tid) :
    ((s.forget t pID).threads t').processID = (s.threads t').processID := by
  unfold forget
  split
  · simp only [setThread_threads, update_apply]
    split_ifs with h
    · rw [h]
    · rfl
  · rfl

theorem trans_scJoin {pID : Int} (hpt : (s.threads t).point = .user) :
    Trans s (.call t (.join pID)) (s.scJoin t pID) := by
  unfold State.scJoin
  split_ifs with hrange hexist
  · exact .joinFail hpt (.inl (by omega))
  · rw [isExist_iff] at hexist
    rcases joinUpdate_cases (s.forget t pID) t pID (s.childOf t pID) with
      heq | ⟨heq, hfail⟩ | ⟨c, heq, hpos, hpcb, halive, hparent⟩
    · rw [heq]
      exact .joinStop _
    · rw [heq]
      simp only [forget_pcb, forget_heap, forget_processID] at hfail
      refine .joinFail hpt (hfail.imp_left fun hneg hall => hneg ⟨hall.1, hall.2.1⟩)
    · rw [heq]
      simp only [forget_pcb, forget_heap, forget_processID] at hpcb halive hparent
      exact .joinWait hpt hpos hexist.2 hpcb halive hparent
  · refine .joinFail hpt (.inl fun hall => hexist ?_)
    rw [isExist_iff]
    exact ⟨by omega, hall.2.2⟩

theorem trans_joinRead {c : PcbId} {pID : Nat} {child : Option PcbId}
    (hpt : (s.threads t).point = .joinRead c pID child) :
    Trans s (.resume t file) (s.joinRead t c pID child) := by
  unfold State.joinRead
  split
  next => exact .stop _
  next c' hpcb =>
    split_ifs with hdel hec
    · exact .stop _
    · exact .joinError hpt hpcb (by simpa using hdel) hec
    · exact .joinOk hpt hpcb (by simpa using hdel) (not_not.mp hec)

theorem trans_exitUpdate {ec : Int} (hpt : (s.threads t).point = .user) :
    Trans s (.call t (.exit ec)) (s.exitUpdate t ec) := by
  unfold State.exitUpdate
  dsimp only
  split_ifs with hexist hmain
  · exact .stop _
  · rw [isExist_iff] at hexist
    split
    next => exact .stop _
    next c hpcb =>
      split_ifs with hdel hjoin
      · exact .stop _
      · exact .exitJoined hpt hexist.1 hexist.2 hmain hpcb (by simpa using hdel) hjoin
      · exact .exitAlone hpt hexist.1 hexist.2 hmain hpcb (by simpa using hdel) (not_not.mp hjoin)
  · rw [isExist_iff] at hexist
    exact .exitGone hpt hexist

theorem trans_exitWait {pID : Nat} {ec : Int} (hpt : (s.threads t).point = .exitWait pID ec) :
    Trans s (.resume t file) (s.exitWait t pID ec) := by
  unfold State.exitWait
  split
  next => exact .stop _
  next c hpcb =>
    split_ifs with hdel
    · exact .stop _
    · exact .exitWait hpt hpcb (by simpa using hdel)

theorem trans_call {c : Call} (hpt : (s.threads t).point = .user) :
    Trans s (.call t c) (s.call t c) := by
  cases c with
  | other => exact .other
  | halt => exact .stop _
  | exec filename => exact .exec hpt
  | join pID => exact trans_scJoin hpt
  | exit ec => exact trans_exitUpdate hpt

theorem trans_resume (hpt : (s.threads t).point ≠ .user) :
    Trans s (.resume t file) (s.resume t file) := by
  unfold State.resume
  split
  next h => exact absurd h hpt
  next h => exact trans_startProcess h
  next h => exact trans_myStartProcess h
  next h => exact .execP h
  next h => exact trans_execBody h
  next h =>
    split_ifs
    · exact .stop _
    · exact .mutexP h
  next h =>
    unfold State.execFork
    split_ifs with hdel
    · exact .stop _
    · exact .fork h (by simpa using hdel)
  next h =>
    unfold State.execMutexV
    split_ifs with hdel
    · exact .stop _
    · exact .mutexV h (by simpa using hdel)
  next h => exact .execV h
  next h =>
    split_ifs
    · exact .stop _
    · exact .joinP h
  next h => exact trans_joinRead h
  next h => exact trans_exitWait h
  next h =>
    split_ifs
    · exact .stop _
    · exact .exitP h
  next h => exact .exitRemove h

/-- The thread that takes a step. -/
def Label.thread : Label → Tid
  | .call t _ => t
  | .resume t _ => t

/-- Every step has one of the outcomes of `Trans`, and a thread that is runnable takes it. -/
theorem step_trans {l : Label} (h : step s l = some s') :
    s.runnable l.thread = true ∧ Trans s l s' := by
  cases l with
  | call t c =>
    simp only [step] at h
    split_ifs at h with hrun
    cases h
    exact ⟨hrun.1, trans_call hrun.2⟩
  | resume t file =>
    simp only [step] at h
    split_ifs at h with hrun
    cases h
    exact ⟨hrun.1, trans_resume hrun.2⟩

end Nachos.Userprog
