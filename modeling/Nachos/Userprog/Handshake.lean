import Nachos.Lib.Sums
import Nachos.Userprog.Ownership

/-!
# The handshake of `JoinUpdate` and `ExitUpdate`

The exit of a joined process puts one unit into `joinsem`; the joiner takes it, reads the exit
code and, when the code is zero, puts one unit into `exitsem`, which lets the process pass
`ExitWait`. `Handshake` counts both units: the unit of `joinsem` is in the semaphore, with a
joiner that reads the exit code, or with one that has returned; the unit of `exitsem` is in the
semaphore or with the process that has passed. From this follows that a joiner reads the exit
code of the process it joined (`Handshake.reader`).
-/

namespace Nachos.Userprog

open Function (update update_of_ne update_self update_apply)
open Threads (Tid Semaphore)
open State

/-! ## The invariant -/

/-- The PCB whose exit code a joiner is about to read. -/
def Point.reading : Point → Option PcbId
  | .joinRead c _ _ => some c
  | _ => none

/-- The PCB, the process ID and the child of a `JoinUpdate` that has called `JoinWait`. -/
def Point.joining : Point → Option (PcbId × Nat × Option PcbId)
  | .joinP c pID child => some (c, pID, child)
  | .joinRead c pID child => some (c, pID, child)
  | _ => none

/-- The PCB in whose `ExitWait` a thread sleeps. -/
def Point.exitWaiting : Point → Option PcbId
  | .exitP c _ _ => some c
  | _ => none

def Thread.reads (c : PcbId) (th : Thread) : Nat := if th.point.reading = some c then 1 else 0

/-- The number of joiners about to read the exit code of `c`. -/
def readers (s : State) (c : PcbId) : Nat := Sums.total (Thread.reads c) s.threads s.numThreads

/-- An exit that found the process joined. -/
def ExitRecord.isJoined : Option ExitRecord → Bool
  | some e => e.joined
  | none => false

/-- The thread has passed `ExitWait`. -/
def passed (s : State) (t : Tid) : Bool :=
  (s.threads t).point.atRemove ||
    (s.threads t).exited && ExitRecord.isJoined (s.exitLog (s.threads t).own)

structure Handshake (s : State) : Prop where
  joinUnit : ∀ c, (s.sems (.joinsem c)).value + readers s c + s.released.count c =
    if ExitRecord.isJoined (s.exitLog c) then 1 else 0
  joinValue : ∀ c, 0 ≤ (s.sems (.joinsem c)).value
  exitV : ∀ c, (s.sems (.exitsem c)).completedV =
    if s.exitLog c = some ⟨0, true⟩ then s.released.count c else 0
  exitUnit : ∀ t, t < s.numThreads → (s.sems (.exitsem (s.threads t).own)).value +
    (if passed s t then 1 else 0) = (s.sems (.exitsem (s.threads t).own)).completedV
  exitValue : ∀ c, 0 ≤ (s.sems (.exitsem c)).value
  unowned : ∀ c, (∀ t, t < s.numThreads → (s.threads t).own ≠ c) →
    s.exitLog c = none ∧ (s.sems (.exitsem c)).value = 0
  running : ∀ t, t < s.numThreads → (s.exitLog (s.threads t).own = none ↔
    (s.threads t).exited = false ∧ (s.threads t).point.exiting = none)
  exiting : ∀ t, t < s.numThreads → ∀ pID ec, (s.threads t).point.exiting = some (pID, ec) →
    s.exitLog (s.threads t).own = some ⟨ec, true⟩ ∧ (s.heap (s.threads t).own).exitcode = ec
  exitWaiting : ∀ t, t < s.numThreads → ∀ c, (s.threads t).point.exitWaiting = some c →
    c = (s.threads t).own
  joining : ∀ t, t < s.numThreads → ∀ c pID child,
    (s.threads t).point.joining = some (c, pID, child) →
    c < s.numPcbs ∧ (s.heap c).pid = pID ∧ (s.heap c).joinStatus ≠ -1 ∧
      (child = none ∨ child = some c)

/-! ## Consequences -/

variable {s s' : State} {t : Tid} {pt : Point}

theorem readers_pos (ht : t < s.numThreads) {c : PcbId}
    (hread : (s.threads t).point.reading = some c) : 0 < readers s c := by
  have hsum := Sums.total_update (f := Thread.reads c) (g := s.threads) ht {}
  have hone : (s.threads t).reads c = 1 := by simp [Thread.reads, hread]
  have hzero : Thread.reads c {} = 0 := rfl
  rw [hone, hzero] at hsum
  unfold readers
  omega

/-- The PCB whose unit of `joinsem` is out has a thread, which waits in `ExitUpdate`. -/
theorem Handshake.owner (hs : Handshake s) {c : PcbId}
    (hjoined : ExitRecord.isJoined (s.exitLog c) = true) :
    ∃ t, t < s.numThreads ∧ (s.threads t).own = c := by
  by_contra hnone
  have hun := (hs.unowned c fun t ht heq => hnone ⟨t, ht, heq⟩).1
  rw [hun] at hjoined
  cases hjoined

/-- A unit of `joinsem` that no joiner has returned with keeps the process in `ExitUpdate`. -/
theorem Handshake.not_passed (hs : Handshake s) (ht : t < s.numThreads)
    (hcount : s.released.count (s.threads t).own = 0) : passed s t = false := by
  have hunit := hs.exitUnit t ht
  have hv := hs.exitV (s.threads t).own
  have hnonneg := hs.exitValue (s.threads t).own
  rw [hcount, ite_self] at hv
  rw [hv] at hunit
  cases hpassed : passed s t with
  | false => rfl
  | true =>
    rw [hpassed, if_pos rfl] at hunit
    omega

/-- As long as the unit of `joinsem` has not come back, the process waits in `ExitUpdate` and
its PCB is in its slot. -/
theorem Handshake.waiting (hs : Handshake s) (howned : Owned s) {c : PcbId}
    (hjoined : ExitRecord.isJoined (s.exitLog c) = true) (hcount : s.released.count c = 0) :
    ∃ t ec, t < s.numThreads ∧ (s.threads t).own = c ∧ (s.threads t).exited = false ∧
      s.exitLog c = some ⟨ec, true⟩ ∧ (s.heap c).exitcode = ec ∧
      Occupied s (s.threads t).processID c := by
  obtain ⟨t, ht, rfl⟩ := hs.owner hjoined
  have hpassed := hs.not_passed ht hcount
  have hlive : (s.threads t).exited = false := by
    cases hexited : (s.threads t).exited with
    | false => rfl
    | true => simp [passed, hexited, hjoined] at hpassed
  have hexiting : (s.threads t).point.exiting ≠ none := by
    intro hnone
    rw [(hs.running t ht).mpr ⟨hlive, hnone⟩] at hjoined
    cases hjoined
  obtain ⟨⟨pID, ec⟩, hpoint⟩ := Option.ne_none_iff_exists'.mp hexiting
  obtain ⟨hlog, hcode⟩ := hs.exiting t ht pID ec hpoint
  exact ⟨t, ec, ht, rfl, hlive, hlog, hcode, howned.live t ht hlive⟩

/-- What a joiner finds: the PCB it joined is still in its slot, with the exit code of the
process. -/
theorem Handshake.reader (hs : Handshake s) (howned : Owned s) (ht : t < s.numThreads) {c : PcbId}
    {pID : Nat} {child : Option PcbId} (hpt : (s.threads t).point = .joinRead c pID child) :
    readers s c = 1 ∧ s.released.count c = 0 ∧ (s.sems (.joinsem c)).value = 0 ∧
      Occupied s pID c ∧ ∃ ec, s.exitLog c = some ⟨ec, true⟩ ∧ (s.heap c).exitcode = ec := by
  have hpos := readers_pos ht (c := c) (by rw [hpt]; rfl)
  have hunit := hs.joinUnit c
  have hnonneg := hs.joinValue c
  have hjoined : ExitRecord.isJoined (s.exitLog c) = true := by
    by_contra hnot
    rw [if_neg hnot] at hunit
    omega
  rw [if_pos hjoined] at hunit
  have hcount : s.released.count c = 0 := by omega
  obtain ⟨u, ec, hu, -, -, hlog, hcode, hocc⟩ := hs.waiting howned hjoined hcount
  have hpid := (hs.joining t ht c pID child (by rw [hpt]; rfl)).2.1
  refine ⟨by omega, hcount, by omega, ?_, ec, hlog, hcode⟩
  rw [hocc.pid] at hpid
  exact hpid ▸ hocc

/-! ## Threads that a step leaves alone -/

/-- What the invariant says of one thread and the records of the PCBs it deals with. -/
structure Tracked (s : State) (t : Tid) : Prop where
  running : s.exitLog (s.threads t).own = none ↔
    (s.threads t).exited = false ∧ (s.threads t).point.exiting = none
  exiting : ∀ pID ec, (s.threads t).point.exiting = some (pID, ec) →
    s.exitLog (s.threads t).own = some ⟨ec, true⟩ ∧ (s.heap (s.threads t).own).exitcode = ec
  exitWaiting : ∀ c, (s.threads t).point.exitWaiting = some c → c = (s.threads t).own
  joining : ∀ c pID child, (s.threads t).point.joining = some (c, pID, child) →
    c < s.numPcbs ∧ (s.heap c).pid = pID ∧ (s.heap c).joinStatus ≠ -1 ∧
      (child = none ∨ child = some c)

theorem Handshake.tracked (hs : Handshake s) (ht : t < s.numThreads) : Tracked s t :=
  ⟨hs.running t ht, hs.exiting t ht, hs.exitWaiting t ht, hs.joining t ht⟩

/-- The units of the semaphores, as the exit records have them. -/
structure Units (s : State) : Prop where
  joinUnit : ∀ c, (s.sems (.joinsem c)).value + readers s c + s.released.count c =
    if ExitRecord.isJoined (s.exitLog c) then 1 else 0
  joinValue : ∀ c, 0 ≤ (s.sems (.joinsem c)).value
  exitV : ∀ c, (s.sems (.exitsem c)).completedV =
    if s.exitLog c = some ⟨0, true⟩ then s.released.count c else 0
  exitUnit : ∀ t, t < s.numThreads → (s.sems (.exitsem (s.threads t).own)).value +
    (if passed s t then 1 else 0) = (s.sems (.exitsem (s.threads t).own)).completedV
  exitValue : ∀ c, 0 ≤ (s.sems (.exitsem c)).value
  unowned : ∀ c, (∀ t, t < s.numThreads → (s.threads t).own ≠ c) →
    s.exitLog c = none ∧ (s.sems (.exitsem c)).value = 0

/-- The invariant is about the units and about each thread. -/
theorem Units.handshake (h : Units s) (htracked : ∀ u, u < s.numThreads → Tracked s u) :
    Handshake s where
  joinUnit := h.joinUnit
  joinValue := h.joinValue
  exitV := h.exitV
  exitUnit := h.exitUnit
  exitValue := h.exitValue
  unowned := h.unowned
  running := fun u hu => (htracked u hu).running
  exiting := fun u hu => (htracked u hu).exiting
  exitWaiting := fun u hu => (htracked u hu).exitWaiting
  joining := fun u hu => (htracked u hu).joining

/-- What the invariant speaks of is the same at both points. -/
structure Point.Alike (pt pt' : Point) : Prop where
  reading : pt'.reading = pt.reading
  joining : pt'.joining = pt.joining
  exiting : pt'.exiting = pt.exiting
  exitWaiting : pt'.exitWaiting = pt.exitWaiting
  atRemove : pt'.atRemove = pt.atRemove

theorem Point.Alike.refl (pt : Point) : Point.Alike pt pt := ⟨rfl, rfl, rfl, rfl, rfl⟩

/-- A PCB that a joiner waits for stays as the joiner knows it. -/
def KeepsPcbs (s s' : State) : Prop :=
  ∀ c, c < s.numPcbs → c < s'.numPcbs ∧ (s'.heap c).pid = (s.heap c).pid ∧
    ((s.heap c).joinStatus ≠ -1 → (s'.heap c).joinStatus ≠ -1)

theorem KeepsPcbs.of_eq (hnum : s'.numPcbs = s.numPcbs)
    (hpid : ∀ c, (s'.heap c).pid = (s.heap c).pid)
    (hstatus : ∀ c, (s'.heap c).joinStatus = (s.heap c).joinStatus) : KeepsPcbs s s' := by
  intro c hc
  refine ⟨hnum.symm ▸ hc, hpid c, fun h => ?_⟩
  rw [hstatus]
  exact h

theorem KeepsPcbs.of_heap_eq (hnum : s'.numPcbs = s.numPcbs) (hheap : s'.heap = s.heap) :
    KeepsPcbs s s' := .of_eq hnum (fun c => by rw [hheap]) (fun c => by rw [hheap])

theorem KeepsPcbs.joining (hpcbs : KeepsPcbs s s') {c : PcbId} {pID : Nat} {child : Option PcbId}
    (h : c < s.numPcbs ∧ (s.heap c).pid = pID ∧ (s.heap c).joinStatus ≠ -1 ∧
      (child = none ∨ child = some c)) :
    c < s'.numPcbs ∧ (s'.heap c).pid = pID ∧ (s'.heap c).joinStatus ≠ -1 ∧
      (child = none ∨ child = some c) := by
  obtain ⟨hlt, hpid, hstatus, hchild⟩ := h
  obtain ⟨hlt', hpid', hstatus'⟩ := hpcbs c hlt
  exact ⟨hlt', hpid'.trans hpid, hstatus' hstatus, hchild⟩

/-- A thread whose record and point a step leaves as they are. -/
theorem Tracked.congr (h : Tracked s t) (halike : Point.Alike (s.threads t).point (s'.threads t).point)
    (hown : (s'.threads t).own = (s.threads t).own)
    (hexited : (s'.threads t).exited = (s.threads t).exited)
    (hlog : s'.exitLog (s.threads t).own = s.exitLog (s.threads t).own)
    (hcode : (s'.heap (s.threads t).own).exitcode = (s.heap (s.threads t).own).exitcode)
    (hpcbs : KeepsPcbs s s') : Tracked s' t := by
  refine ⟨?_, ?_, ?_, ?_⟩
  · rw [hown, hlog, hexited, halike.exiting]
    exact h.running
  · intro pID ec hexiting
    rw [halike.exiting] at hexiting
    rw [hown, hlog, hcode]
    exact h.exiting pID ec hexiting
  · intro c hwait
    rw [halike.exitWaiting] at hwait
    rw [hown]
    exact h.exitWaiting c hwait
  · intro c pID child hjoin
    rw [halike.joining] at hjoin
    exact hpcbs.joining (h.joining c pID child hjoin)

/-- A step that moves the thread `t` and keeps the heap and the exit records: only the point of
`t` is new. -/
theorem Handshake.tracked_moves (hs : Handshake s) (hmoves : Moves s s' t pt)
    (ht : t < s.numThreads) (hlog : s'.exitLog = s.exitLog) (hheap : s'.heap = s.heap)
    (hnum : s'.numPcbs = s.numPcbs) (hexiting : pt.exiting = (s.threads t).point.exiting)
    (hwait : ∀ c, pt.exitWaiting = some c → c = (s.threads t).own)
    (hjoin : ∀ c pID child, pt.joining = some (c, pID, child) →
      c < s.numPcbs ∧ (s.heap c).pid = pID ∧ (s.heap c).joinStatus ≠ -1 ∧
        (child = none ∨ child = some c)) {u : Tid} (hu : u < s'.numThreads) : Tracked s' u := by
  have hpcbs : KeepsPcbs s s' := .of_heap_eq hnum hheap
  rw [hmoves.numThreads] at hu
  by_cases hut : u = t
  · subst hut
    have hpoint : (s'.threads u).point = pt := by rw [hmoves.point, if_pos rfl]
    refine ⟨?_, ?_, ?_, ?_⟩
    · rw [hlog, hmoves.own, hmoves.exited, hpoint, hexiting]
      exact hs.running u ht
    · intro pID ec h
      rw [hpoint, hexiting] at h
      rw [hlog, hmoves.own, hheap]
      exact hs.exiting u ht pID ec h
    · intro c h
      rw [hpoint] at h
      rw [hmoves.own]
      exact hwait c h
    · intro c pID child h
      rw [hpoint] at h
      exact hpcbs.joining (hjoin c pID child h)
  · have hpoint : (s'.threads u).point = (s.threads u).point := by rw [hmoves.point, if_neg hut]
    exact (hs.tracked hu).congr (by rw [hpoint]; exact .refl _) (hmoves.own u) (hmoves.exited u)
      (by rw [hlog]) (by rw [hheap]) hpcbs

theorem passed_moves (hmoves : Moves s s' t pt) (hlog : s'.exitLog = s.exitLog)
    (hat : pt.atRemove = (s.threads t).point.atRemove) (u : Tid) : passed s' u = passed s u := by
  rw [passed, passed, hmoves.exited, hmoves.own, hmoves.point, hlog]
  split_ifs with heq
  · rw [heq, hat]
  · rfl

/-! ## Steps outside the handshake -/

theorem readers_moves (hmoves : Moves s s' t pt) (ht : t < s.numThreads) (c : PcbId) :
    readers s' c + (s.threads t).reads c =
      readers s c + if pt.reading = some c then 1 else 0 := by
  have hsum := Sums.total_update (f := Thread.reads c) (g := s.threads) ht
    { s.threads t with point := pt }
  have hsame : readers s' c = Sums.total (Thread.reads c)
      (update s.threads t { s.threads t with point := pt }) s.numThreads := by
    rw [readers, hmoves.numThreads]
    refine Sums.total_congr fun u _ => ?_
    rw [Thread.reads, Thread.reads, hmoves.point, update_apply]
    split_ifs <;> rfl
  rw [hsame]
  exact hsum

/-- A thread at the point is outside the handshake. -/
def Point.calm : Point → Bool
  | .joinP _ _ _ => false
  | .joinRead _ _ _ => false
  | .exitWait _ _ => false
  | .exitP _ _ _ => false
  | .exitRemove _ _ => false
  | _ => true

theorem Point.Alike.of_calm {pt' : Point} (h : pt.calm = true) (h' : pt'.calm = true) :
    Point.Alike pt pt' := by
  cases pt <;> cases h <;> cases pt' <;> cases h' <;> exact ⟨rfl, rfl, rfl, rfl, rfl⟩

/-- The step of `t` to `pt` touches neither the units nor the records of the handshake. -/
structure SameHandshake (s s' : State) (t : Tid) (pt : Point) : Prop where
  moves : Moves s s' t pt
  alike : Point.Alike (s.threads t).point pt
  numPcbs : s.numPcbs ≤ s'.numPcbs
  pid : ∀ c, c < s.numPcbs → (s'.heap c).pid = (s.heap c).pid
  exitcode : ∀ c, c < s.numPcbs → (s'.heap c).exitcode = (s.heap c).exitcode
  joinStatus : ∀ c, c < s.numPcbs → (s.heap c).joinStatus ≠ -1 → (s'.heap c).joinStatus ≠ -1
  joinValue : ∀ c, (s'.sems (.joinsem c)).value = (s.sems (.joinsem c)).value
  exitValue : ∀ c, (s'.sems (.exitsem c)).value = (s.sems (.exitsem c)).value
  exitV : ∀ c, (s'.sems (.exitsem c)).completedV = (s.sems (.exitsem c)).completedV
  exitLog : s'.exitLog = s.exitLog
  released : s'.released = s.released

theorem SameHandshake.point (h : SameHandshake s s' t pt) (u : Tid) :
    Point.Alike (s.threads u).point (s'.threads u).point := by
  rw [h.moves.point]
  split_ifs with heq
  · rw [heq]
    exact h.alike
  · exact .refl _

theorem SameHandshake.passed (h : SameHandshake s s' t pt) (u : Tid) :
    Userprog.passed s' u = Userprog.passed s u := passed_moves h.moves h.exitLog h.alike.atRemove u

theorem SameHandshake.readers (h : SameHandshake s s' t pt) (c : PcbId) :
    Userprog.readers s' c = Userprog.readers s c := by
  rw [Userprog.readers, Userprog.readers, h.moves.numThreads]
  refine Sums.total_congr fun u _ => ?_
  rw [Thread.reads, Thread.reads, (h.point u).reading]

theorem Handshake.same (hs : Handshake s) (howned : Owned s) (h : SameHandshake s s' t pt) :
    Handshake s' := by
  have hnum := h.moves.numThreads
  have htracked : ∀ u, u < s'.numThreads → Tracked s' u := by
    intro u hu
    rw [hnum] at hu
    exact (hs.tracked hu).congr (h.point u) (h.moves.own u) (h.moves.exited u) (by rw [h.exitLog])
      (h.exitcode _ (howned.constructed u hu)) fun c hc =>
        ⟨Nat.lt_of_lt_of_le hc h.numPcbs, h.pid c hc, h.joinStatus c hc⟩
  refine Units.handshake ⟨?_, ?_, ?_, ?_, ?_, ?_⟩ htracked
  · intro c
    rw [h.joinValue, h.readers, h.released, h.exitLog]
    exact hs.joinUnit c
  · intro c
    rw [h.joinValue]
    exact hs.joinValue c
  · intro c
    rw [h.exitV, h.released, h.exitLog]
    exact hs.exitV c
  · intro u hu
    rw [h.moves.own, h.exitValue, h.exitV, h.passed]
    exact hs.exitUnit u (hnum ▸ hu)
  · intro c
    rw [h.exitValue]
    exact hs.exitValue c
  · intro c hc
    rw [h.exitLog, h.exitValue]
    refine hs.unowned c fun u hu heq => hc u (hnum.symm ▸ hu) ?_
    rw [h.moves.own, heq]

/-- A step that changes semaphores other than `joinsem` and `exitsem`. -/
theorem SameHandshake.of_sems (hmoves : Moves s s' t pt)
    (halike : Point.Alike (s.threads t).point pt) (hnum : s'.numPcbs = s.numPcbs)
    (hheap : s'.heap = s.heap) (hjoin : ∀ c, s'.sems (.joinsem c) = s.sems (.joinsem c))
    (hexit : ∀ c, s'.sems (.exitsem c) = s.sems (.exitsem c)) (hlog : s'.exitLog = s.exitLog)
    (hreleased : s'.released = s.released) : SameHandshake s s' t pt := by
  refine ⟨hmoves, halike, hnum.ge, ?_, ?_, ?_, ?_, ?_, ?_, hlog, hreleased⟩
  · intro c _
    rw [hheap]
  · intro c _
    rw [hheap]
  · intro c _ h
    rw [hheap]
    exact h
  · intro c
    rw [hjoin]
  · intro c
    rw [hexit]
  · intro c
    rw [hexit]

/-- A `P` on another semaphore. -/
theorem SameHandshake.p {r : SemRef} {w n : Point} (hr : ∀ c, r ≠ .joinsem c ∧ r ≠ .exitsem c)
    (hcalm : (s.threads t).point.calm = true) (hw : w.calm = true) (hn : n.calm = true) :
    SameHandshake s (s.p t r w n) t (if (s.sems r).value = 0 then w else n) := by
  refine .of_sems (Moves.p s t r w n) ?_ (by simp) (by simp) ?_ ?_ (by simp) (by simp)
  · split_ifs
    · exact .of_calm hcalm hw
    · exact .of_calm hcalm hn
  · intro c
    rw [p_sems, update_of_ne (hr c).1.symm]
  · intro c
    rw [p_sems, update_of_ne (hr c).2.symm]

/-- A `V` on another semaphore. -/
theorem SameHandshake.v {r : SemRef} (hr : ∀ c, r ≠ .joinsem c ∧ r ≠ .exitsem c) (t : Tid) :
    SameHandshake s (s.v r) t (s.threads t).point := by
  refine .of_sems (Moves.v s r t) (.refl _) (by simp) (by simp) ?_ ?_ (by simp) (by simp)
  · intro c
    rw [v_sems, update_of_ne (hr c).1.symm]
  · intro c
    rw [v_sems, update_of_ne (hr c).2.symm]

/-- A step that moves a thread and changes nothing else of the handshake. -/
theorem SameHandshake.of_moves (hmoves : Moves s s' t pt)
    (halike : Point.Alike (s.threads t).point pt) (hnum : s'.numPcbs = s.numPcbs)
    (hheap : s'.heap = s.heap) (hsems : s'.sems = s.sems) (hlog : s'.exitLog = s.exitLog)
    (hreleased : s'.released = s.released) : SameHandshake s s' t pt :=
  .of_sems hmoves halike hnum hheap (fun c => by rw [hsems]) (fun c => by rw [hsems]) hlog hreleased

/-- Nothing has happened to a PCB that is not constructed yet. -/
theorem Handshake.fresh (hs : Handshake s) (howned : Owned s) {c : PcbId} (hc : s.numPcbs ≤ c) :
    s.exitLog c = none ∧ (s.sems (.joinsem c)).value = 0 ∧ (s.sems (.exitsem c)).value = 0 ∧
      (s.sems (.exitsem c)).completedV = 0 := by
  obtain ⟨hlog, hexit⟩ := hs.unowned c fun t ht heq =>
    absurd (heq ▸ howned.constructed t ht) (Nat.not_lt.mpr hc)
  have hunit := hs.joinUnit c
  have hnonneg := hs.joinValue c
  have hv := hs.exitV c
  rw [hlog] at hunit hv
  refine ⟨hlog, ?_, hexit, ?_⟩
  · simp only [ExitRecord.isJoined, Bool.false_eq_true, if_false] at hunit
    omega
  · simpa using hv

theorem SameHandshake.newPCB (hs : Handshake s) (howned : Owned s) {id : Nat} {bm : BitMap}
    {filename : String} (hcalm : (s.threads t).point.calm = true) :
    SameHandshake s ((s.newPCB t id bm).take t (.mutex s.numPcbs)
      (.execFork s.numPcbs id filename)) t (.execFork s.numPcbs id filename) := by
  obtain ⟨-, hjoin, hexit, hv⟩ := hs.fresh howned (le_refl s.numPcbs)
  have hold : ∀ c, c < s.numPcbs → ((s.newPCB t id bm).take t (.mutex s.numPcbs)
      (.execFork s.numPcbs id filename)).heap c = s.heap c := by
    intro c hc
    simp only [take_heap, newPCB_heap]
    exact update_of_ne (Nat.ne_of_lt hc) _ _
  refine ⟨.of_update (by rfl) (by rfl) (by rfl) (by rfl) (by rfl) (by rfl), .of_calm hcalm rfl,
    Nat.le_succ _, fun c hc => by rw [hold c hc], fun c hc => by rw [hold c hc],
    fun c hc h => by rw [hold c hc]; exact h, ?_, ?_, ?_, rfl, rfl⟩
  all_goals
    intro c
    simp only [take_sems, newPCB_sems, SemRef.owner, Option.some.injEq, update_apply, reduceCtorEq,
      if_false]
    split_ifs with heq
  · rw [heq, hjoin]
    rfl
  · rfl
  · rw [heq, hexit]
    rfl
  · rfl
  · rw [heq, hv]
    rfl
  · rfl

theorem Handshake.fork (hs : Handshake s) (howned : Owned s) (ht : t < s.numThreads) {c : PcbId}
    {id : Nat} {filename : String} (hpt : (s.threads t).point = .execFork c id filename) :
    Handshake ((s.fork c id filename).goto t (.execMutexV c id)) := by
  obtain ⟨hocc, hnone⟩ := howned.forking t ht c id (by rw [hpt]; rfl)
  obtain ⟨hlog, hvalue⟩ := hs.unowned c hnone
  have hnew := fork_new ht c id filename
  have hold := fun u (hu : u < s.numThreads) => fork_old ht c id filename hu
  have hheap : ∀ c', (((s.fork c id filename).goto t (.execMutexV c id)).heap c').pid =
        (s.heap c').pid ∧
      (((s.fork c id filename).goto t (.execMutexV c id)).heap c').exitcode =
        (s.heap c').exitcode ∧
      (((s.fork c id filename).goto t (.execMutexV c id)).heap c').joinStatus =
        (s.heap c').joinStatus := fun c' =>
    ⟨field_update PCB.pid (by rfl) c', field_update PCB.exitcode (by rfl) c',
      field_update PCB.joinStatus (by rfl) c'⟩
  set s' := (s.fork c id filename).goto t (.execMutexV c id)
  have hcases : ∀ u, u < s'.numThreads → u < s.numThreads ∨ u = s.numThreads :=
    fun u hu => Nat.lt_succ_iff_lt_or_eq.mp hu
  -- the thread that forks stays outside the handshake, the new one is
  have halike : ∀ u, u < s.numThreads → Point.Alike (s.threads u).point (s'.threads u).point ∧
      (s'.threads u).own = (s.threads u).own ∧ (s'.threads u).exited = (s.threads u).exited := by
    intro u hu
    rw [hold u hu]
    split_ifs with heq
    · subst heq
      exact ⟨.of_calm (by rw [hpt]; rfl) rfl, rfl, rfl⟩
    · exact ⟨.refl _, rfl, rfl⟩
  have hpassed : ∀ u, u < s.numThreads → passed s' u = passed s u := by
    intro u hu
    obtain ⟨hpoint, hown, hexited⟩ := halike u hu
    rw [passed, passed, hpoint.atRemove, hown, hexited]
    rfl
  have htracked : ∀ u, u < s'.numThreads → Tracked s' u := by
    intro u hu
    rcases hcases u hu with hlt | rfl
    · obtain ⟨hpoint, hown, hexited⟩ := halike u hlt
      exact (hs.tracked hlt).congr hpoint hown hexited rfl (hheap _).2.1
        (.of_eq rfl (fun c' => (hheap c').1) (fun c' => (hheap c').2.2))
    · refine ⟨?_, ?_, ?_, ?_⟩ <;> rw [hnew]
      · exact ⟨fun _ => ⟨rfl, rfl⟩, fun _ => hlog⟩
      all_goals
        intros
        contradiction
  refine Units.handshake ⟨?_, hs.joinValue, hs.exitV, ?_, hs.exitValue, ?_⟩ htracked
  · intro c'
    have hreaders : readers s' c' = readers s c' := by
      have hsum : readers s' c' = Sums.total (Thread.reads c') s'.threads s.numThreads +
          (s'.threads s.numThreads).reads c' := Sums.total_succ _ _ _
      have hsame : Sums.total (Thread.reads c') s'.threads s.numThreads = readers s c' := by
        refine Sums.total_congr fun u hu => ?_
        rw [Thread.reads, Thread.reads, (halike u hu).1.reading]
      rw [hsum, hsame, hnew]
      rfl
    rw [hreaders]
    exact hs.joinUnit c'
  · intro u hu
    rcases hcases u hu with hlt | rfl
    · rw [(halike u hlt).2.1, hpassed u hlt]
      exact hs.exitUnit u hlt
    · have hv := hs.exitV c
      rw [hlog] at hv
      have hfree : passed s' s.numThreads = false := by
        rw [passed, hnew]
        rfl
      rw [hfree, hnew]
      change (s.sems (.exitsem c)).value + _ = ((s.sems (.exitsem c)).completedV : Int)
      rw [hvalue, hv]
      simp
  · intro c' hc'
    refine hs.unowned c' fun u hu heq => hc' u (Nat.lt_succ_of_lt hu) ?_
    rw [(halike u hu).2.1, heq]

/-! ## The joiner -/

theorem take_value {sem : Semaphore} (h : sem.value = 1) : sem.take.value = 0 := by
  rw [Threads.Semaphore.take_value, h]
  rfl

theorem give_value {sem : Semaphore} (h : sem.value = 0) : sem.give.value = 1 := by
  rw [Threads.Semaphore.give_value, h]
  rfl

/-- There is at most one unit in `joinsem`. -/
theorem Handshake.joinValue_eq_one (hs : Handshake s) {c : PcbId}
    (hzero : (s.sems (.joinsem c)).value ≠ 0) : (s.sems (.joinsem c)).value = 1 := by
  have hunit := hs.joinUnit c
  have hnonneg := hs.joinValue c
  split_ifs at hunit <;> omega

/-- A test of `joinsem->P()`: the joiner sleeps, or takes the unit of the exit. -/
theorem Handshake.joinP (hs : Handshake s) (ht : t < s.numThreads) {c : PcbId} {pID : Nat}
    {child : Option PcbId}
    (hpt : (s.threads t).point.calm = true ∨ (s.threads t).point = .joinP c pID child)
    (hlt : c < s.numPcbs) (hpid : (s.heap c).pid = pID) (hstatus : (s.heap c).joinStatus ≠ -1)
    (hchild : child = none ∨ child = some c) :
    Handshake (s.p t (.joinsem c) (.joinP c pID child) (.joinRead c pID child)) := by
  have hmoves := Moves.p s t (.joinsem c) (.joinP c pID child) (.joinRead c pID child)
  have hsems := p_sems s t (.joinsem c) (.joinP c pID child) (.joinRead c pID child)
  have hreaders := readers_moves hmoves ht
  set pt' := if (s.sems (.joinsem c)).value = 0 then Point.joinP c pID child
    else .joinRead c pID child with hpt'
  set s' := s.p t (.joinsem c) (.joinP c pID child) (.joinRead c pID child)
  -- neither the old nor the new point is one of `ExitUpdate`
  have hold : (s.threads t).point.reading = none ∧ (s.threads t).point.exiting = none ∧
      (s.threads t).point.exitWaiting = none ∧ (s.threads t).point.atRemove = false := by
    rcases hpt with hcalm | heq
    · have halike : Point.Alike (.user) (s.threads t).point := .of_calm rfl hcalm
      exact ⟨halike.reading, halike.exiting, halike.exitWaiting, halike.atRemove⟩
    · rw [heq]
      exact ⟨rfl, rfl, rfl, rfl⟩
  have hnew : pt'.exiting = none ∧ pt'.exitWaiting = none ∧ pt'.atRemove = false ∧
      pt'.joining = some (c, pID, child) := by
    rw [hpt']
    split_ifs <;> exact ⟨rfl, rfl, rfl, rfl⟩
  have hexitsem : ∀ c', s'.sems (.exitsem c') = s.sems (.exitsem c') := fun c' => by
    rw [hsems, update_of_ne (by simp)]
  have hlog : s'.exitLog = s.exitLog := p_exitLog _ _ _ _ _
  have hrel : s'.released = s.released := p_released _ _ _ _ _
  have hheap : s'.heap = s.heap := p_heap _ _ _ _ _
  have hnum : s'.numThreads = s.numThreads := hmoves.numThreads
  have hpassed := passed_moves hmoves hlog (hnew.2.2.1.trans hold.2.2.2.symm)
  have htracked : ∀ u, u < s'.numThreads → Tracked s' u := by
    refine fun u hu => hs.tracked_moves hmoves ht hlog hheap (p_numPcbs _ _ _ _ _)
      (hnew.1.trans hold.2.1.symm) ?_ ?_ hu
    · intro c' hwait
      rw [hnew.2.1] at hwait
      cases hwait
    · intro c' pID' child' hjoin
      rw [hnew.2.2.2] at hjoin
      cases hjoin
      exact ⟨hlt, hpid, hstatus, hchild⟩
  refine Units.handshake ⟨?_, ?_, ?_, ?_, ?_, ?_⟩ htracked
  · intro c'
    have hcount := hreaders c'
    rw [Thread.reads, hold.1, if_neg (by simp)] at hcount
    have hunit := hs.joinUnit c'
    rw [hlog, hrel, hsems]
    by_cases hcc : c' = c
    · subst hcc
      rw [update_self]
      by_cases hzero : (s.sems (.joinsem c')).value = 0
      · rw [hpt', if_pos hzero] at hcount
        rw [if_pos hzero, Threads.Semaphore.enqueue_value]
        simp only [Point.reading, reduceCtorEq, if_false] at hcount
        rw [← hunit]
        omega
      · have hone := hs.joinValue_eq_one hzero
        rw [hpt', if_neg hzero] at hcount
        rw [if_neg hzero, take_value hone]
        simp only [Point.reading, if_true] at hcount
        omega
    · rw [update_of_ne (by simpa using hcc)]
      have hnot : pt'.reading ≠ some c' := by
        have hcc' : ¬ c = c' := fun h => hcc h.symm
        rw [hpt']
        split_ifs <;> simp [Point.reading, hcc']
      rw [if_neg hnot] at hcount
      rw [← hunit]
      omega
  · intro c'
    rw [hsems, update_apply]
    split_ifs with heq hzero
    · rw [Threads.Semaphore.enqueue_value]
      exact hzero.ge
    · rw [take_value (hs.joinValue_eq_one hzero)]
    · exact hs.joinValue c'
  · intro c'
    rw [hexitsem, hlog, hrel]
    exact hs.exitV c'
  · intro u hu
    rw [hmoves.own, hexitsem, hpassed]
    exact hs.exitUnit u (hnum ▸ hu)
  · intro c'
    rw [hexitsem]
    exact hs.exitValue c'
  · intro c' hc'
    rw [hexitsem, hlog]
    refine hs.unowned c' fun u hu heq => hc' u (hnum.symm ▸ hu) ?_
    rw [hmoves.own, heq]

/-- The joiner returns with the unit of `joinsem`; `sems'` are the semaphores after an
`ExitRelease` for exit code zero. -/
theorem Handshake.joinReturn (hs : Handshake s) (howned : Owned s) (ht : t < s.numThreads)
    {c : PcbId} {pID : Nat} {child : Option PcbId}
    (hpt : (s.threads t).point = .joinRead c pID child) {ec : Int}
    (hec : s.exitLog c = some ⟨ec, true⟩) (hmoves : Moves s s' t .user)
    (hsems : s'.sems = if ec = 0 then update s.sems (.exitsem c) (s.sems (.exitsem c)).give
      else s.sems)
    (hheap : s'.heap = s.heap) (hnumPcbs : s'.numPcbs = s.numPcbs) (hlog : s'.exitLog = s.exitLog)
    (hrel : s'.released = c :: s.released) : Handshake s' := by
  obtain ⟨hone, hcount, hjoin, -⟩ := hs.reader howned ht hpt
  have hreaders := readers_moves hmoves ht
  have hnum := hmoves.numThreads
  have hjoinsem : ∀ c', s'.sems (.joinsem c') = s.sems (.joinsem c') := by
    intro c'
    rw [hsems]
    split_ifs
    · rw [update_of_ne (by simp)]
    · rfl
  have hother : ∀ c', c' ≠ c → s'.sems (.exitsem c') = s.sems (.exitsem c') := by
    intro c' hne
    rw [hsems]
    split_ifs
    · rw [update_of_ne (by simpa using hne)]
    · rfl
  have hv := hs.exitV c
  rw [hcount, ite_self] at hv
  have hpassed := passed_moves hmoves hlog (by rw [hpt]; rfl)
  have htracked : ∀ u, u < s'.numThreads → Tracked s' u := by
    refine fun u hu => hs.tracked_moves hmoves ht hlog hheap hnumPcbs (by rw [hpt]; rfl) ?_ ?_ hu
    · intro c' hwait
      cases hwait
    · intro c' pID' child' hjoining
      cases hjoining
  -- the process that is released has not passed `ExitWait`
  have hvalue : (s.sems (.exitsem c)).value = 0 := by
    obtain ⟨u, hu, rfl⟩ := hs.owner (c := c) (by rw [hec]; rfl)
    have hunit := hs.exitUnit u hu
    rw [hs.not_passed hu hcount, hv] at hunit
    simpa using hunit
  refine Units.handshake ⟨?_, ?_, ?_, ?_, ?_, ?_⟩ htracked
  · intro c'
    have hcount' := hreaders c'
    have hunit := hs.joinUnit c'
    rw [hjoinsem, hlog, hrel, ← hunit]
    simp only [Point.reading, reduceCtorEq, if_false] at hcount'
    by_cases hcc : c' = c
    · subst hcc
      have hreads : (s.threads t).reads c' = 1 := by simp [Thread.reads, hpt, Point.reading]
      rw [List.count_cons_self]
      omega
    · have hcc' : ¬ c = c' := fun h => hcc h.symm
      have hreads : (s.threads t).reads c' = 0 := by simp [Thread.reads, hpt, Point.reading, hcc']
      rw [List.count_cons_of_ne hcc']
      omega
  · intro c'
    rw [hjoinsem]
    exact hs.joinValue c'
  · intro c'
    rw [hlog, hrel]
    by_cases hcc : c' = c
    · subst hcc
      rw [hsems, hec, List.count_cons_self, hcount]
      by_cases hzero : ec = 0
      · rw [if_pos hzero, update_self, Threads.Semaphore.give_completedV, hv, hzero, if_pos rfl]
      · rw [if_neg hzero, hv, if_neg (by simpa using hzero)]
    · rw [hother c' hcc, List.count_cons_of_ne fun h => hcc h.symm]
      exact hs.exitV c'
  · intro u hu
    rw [hmoves.own, hpassed]
    by_cases hcc : (s.threads u).own = c
    · have hunit := hs.exitUnit u (hnum ▸ hu)
      have hnot : passed s u = false := hs.not_passed (hnum ▸ hu) (by rw [hcc, hcount])
      rw [hcc, hnot, hsems]
      by_cases hzero : ec = 0
      · rw [if_pos hzero, update_self, give_value hvalue, Threads.Semaphore.give_completedV, hv]
        rfl
      · rw [if_neg hzero, hvalue, hv]
        rfl
    · rw [hother _ hcc]
      exact hs.exitUnit u (hnum ▸ hu)
  · intro c'
    by_cases hcc : c' = c
    · subst hcc
      rw [hsems]
      split_ifs
      · rw [update_self, give_value hvalue]
        exact Int.one_nonneg
      · exact hs.exitValue c'
    · rw [hother c' hcc]
      exact hs.exitValue c'
  · intro c' hc'
    have hun := hs.unowned c' fun u hu heq => hc' u (hnum.symm ▸ hu) (by rw [hmoves.own, heq])
    have hcc : c' ≠ c := by
      rintro rfl
      rw [hun.1] at hec
      cases hec
    rw [hother c' hcc, hlog]
    exact hun

/-! ## The process that exits -/

/-- What `ExitUpdate` does up to its `ExitWait`, or to its return when nobody has joined. -/
structure ExitStart (s s' : State) (t : Tid) (ec : Int) (joined : Bool) : Prop where
  numThreads : s'.numThreads = s.numThreads
  own : ∀ u, (s'.threads u).own = (s.threads u).own
  other : ∀ u, u ≠ t → (s'.threads u).point = (s.threads u).point ∧
    (s'.threads u).exited = (s.threads u).exited
  point : (s'.threads t).point =
    if joined then .exitWait (s.threads t).processID ec else .user
  exited : (s'.threads t).exited = !joined
  exitLog : s'.exitLog = update s.exitLog (s.threads t).own (some ⟨ec, joined⟩)
  joinValue : ∀ c, c ≠ (s.threads t).own →
    (s'.sems (.joinsem c)).value = (s.sems (.joinsem c)).value
  joinOwn : (s.sems (.joinsem (s.threads t).own)).value = 0 →
    (s'.sems (.joinsem (s.threads t).own)).value = if joined then 1 else 0
  exitsem : ∀ c, s'.sems (.exitsem c) = s.sems (.exitsem c)
  released : s'.released = s.released
  numPcbs : s'.numPcbs = s.numPcbs
  pid : ∀ c, (s'.heap c).pid = (s.heap c).pid
  joinStatus : ∀ c, (s'.heap c).joinStatus = (s.heap c).joinStatus
  exitcode : ∀ c, (s'.heap c).exitcode = if c = (s.threads t).own then ec else (s.heap c).exitcode

theorem Handshake.exitStart (hs : Handshake s) (howned : Owned s) (ht : t < s.numThreads)
    (hlive : (s.threads t).exited = false) (hcalm : (s.threads t).point.calm = true) {ec : Int}
    {joined : Bool} (h : ExitStart s s' t ec joined) : Handshake s' := by
  have halike : Point.Alike .user (s.threads t).point := .of_calm rfl hcalm
  have hlog : s.exitLog (s.threads t).own = none :=
    (hs.running t ht).mpr ⟨hlive, halike.exiting⟩
  have hmine : ∀ u, u < s.numThreads → u ≠ t → (s.threads u).own ≠ (s.threads t).own :=
    fun u hu hne heq => hne (howned.own_inj u t hu ht heq)
  have hunit := hs.joinUnit (s.threads t).own
  have hv := hs.exitV (s.threads t).own
  have hnonneg := hs.joinValue (s.threads t).own
  rw [hlog] at hunit hv
  simp only [ExitRecord.isJoined, Bool.false_eq_true, if_false, reduceCtorEq] at hunit hv
  have hvalue : (s.sems (.joinsem (s.threads t).own)).value = 0 := by omega
  have hreaders : ∀ c, readers s' c = readers s c := by
    intro c
    rw [readers, readers, h.numThreads]
    refine Sums.total_congr fun u _ => ?_
    by_cases hut : u = t
    · subst hut
      rw [Thread.reads, Thread.reads, h.point, halike.reading]
      split_ifs <;> simp_all [Point.reading]
    · rw [Thread.reads, Thread.reads, (h.other u hut).1]
  have hnot : passed s t = false := by
    rw [passed, hlive, halike.atRemove]
    rfl
  have hnot' : passed s' t = false := by
    rw [passed, h.point, h.exited, h.own, h.exitLog, update_self]
    cases joined <;> rfl
  have htracked : ∀ u, u < s'.numThreads → Tracked s' u := by
    intro u hu
    rw [h.numThreads] at hu
    by_cases hut : u = t
    · subst hut
      refine ⟨?_, ?_, ?_, ?_⟩
      · rw [h.exitLog, h.own, update_self, h.exited, h.point]
        cases joined <;> simp [Point.exiting]
      · intro pID ec' hexiting
        rw [h.point] at hexiting
        rw [h.exitLog, h.own, h.exitcode, update_self, if_pos rfl]
        cases joined <;> cases hexiting
        exact ⟨rfl, rfl⟩
      · intro c hwait
        rw [h.point] at hwait
        cases joined <;> cases hwait
      · intro c pID child hjoining
        rw [h.point] at hjoining
        cases joined <;> cases hjoining
    · have hne := hmine u hu hut
      exact (hs.tracked hu).congr (by rw [(h.other u hut).1]; exact .refl _) (h.own u)
        (h.other u hut).2 (by rw [h.exitLog, update_of_ne hne]) (by rw [h.exitcode, if_neg hne])
        (.of_eq h.numPcbs h.pid h.joinStatus)
  refine Units.handshake ⟨?_, ?_, ?_, ?_, ?_, ?_⟩ htracked
  · intro c
    rw [hreaders, h.released, h.exitLog]
    by_cases hc : c = (s.threads t).own
    · have hzero : readers s (s.threads t).own = 0 ∧ s.released.count (s.threads t).own = 0 := by
        omega
      rw [hc, update_self, h.joinOwn hvalue, hzero.1, hzero.2]
      cases joined <;> rfl
    · rw [update_of_ne hc, h.joinValue c hc]
      exact hs.joinUnit c
  · intro c
    by_cases hc : c = (s.threads t).own
    · rw [hc, h.joinOwn hvalue]
      split_ifs <;> omega
    · rw [h.joinValue c hc]
      exact hs.joinValue c
  · intro c
    rw [h.exitsem, h.released, h.exitLog]
    by_cases hc : c = (s.threads t).own
    · have hcount : s.released.count (s.threads t).own = 0 := by omega
      rw [hc, update_self, hcount, hv, ite_self]
    · rw [update_of_ne hc]
      exact hs.exitV c
  · intro u hu
    rw [h.numThreads] at hu
    rw [h.own, h.exitsem]
    by_cases hut : u = t
    · subst hut
      rw [hnot', ← hnot]
      exact hs.exitUnit u hu
    · have hsame : passed s' u = passed s u := by
        rw [passed, passed, h.own, (h.other u hut).1, (h.other u hut).2, h.exitLog,
          update_of_ne (hmine u hu hut)]
      rw [hsame]
      exact hs.exitUnit u hu
  · intro c
    rw [h.exitsem]
    exact hs.exitValue c
  · intro c hc
    have hne : c ≠ (s.threads t).own := fun heq =>
      hc t (h.numThreads.symm ▸ ht) (by rw [h.own, heq])
    rw [h.exitLog, update_of_ne hne, h.exitsem]
    exact hs.unowned c fun u hu heq => hc u (h.numThreads.symm ▸ hu) (by rw [h.own, heq])

/-- A test of `exitsem->P()`: the process sleeps, or takes the unit of its joiner. -/
theorem Handshake.exitP (hs : Handshake s) (howned : Owned s) (ht : t < s.numThreads)
    (hlive : (s.threads t).exited = false) {pID : Nat} {ec : Int}
    (hpt : (s.threads t).point = .exitWait pID ec ∨
      (s.threads t).point = .exitP (s.threads t).own pID ec) :
    Handshake (s.p t (.exitsem (s.threads t).own) (.exitP (s.threads t).own pID ec)
      (.exitRemove pID ec)) := by
  set c := (s.threads t).own with hown
  have hmoves := Moves.p s t (.exitsem c) (.exitP c pID ec) (.exitRemove pID ec)
  have hsems := p_sems s t (.exitsem c) (.exitP c pID ec) (.exitRemove pID ec)
  have hreaders := readers_moves hmoves ht
  set pt' := if (s.sems (.exitsem c)).value = 0 then Point.exitP c pID ec
    else .exitRemove pID ec with hpt'
  set s' := s.p t (.exitsem c) (.exitP c pID ec) (.exitRemove pID ec)
  have hold : (s.threads t).point.reading = none ∧ (s.threads t).point.joining = none ∧
      (s.threads t).point.exiting = some (pID, ec) ∧ (s.threads t).point.atRemove = false := by
    rcases hpt with heq | heq <;> rw [heq] <;> exact ⟨rfl, rfl, rfl, rfl⟩
  have hnew : pt'.reading = none ∧ pt'.joining = none ∧ pt'.exiting = some (pID, ec) ∧
      (pt'.exitWaiting = none ∨ pt'.exitWaiting = some c) := by
    rw [hpt']
    split_ifs
    · exact ⟨rfl, rfl, rfl, .inr rfl⟩
    · exact ⟨rfl, rfl, rfl, .inl rfl⟩
  have hjoinsem : ∀ c', s'.sems (.joinsem c') = s.sems (.joinsem c') := fun c' => by
    rw [hsems, update_of_ne (by simp)]
  have hother : ∀ c', c' ≠ c → s'.sems (.exitsem c') = s.sems (.exitsem c') := fun c' hne => by
    rw [hsems, update_of_ne (by simpa using hne)]
  have hv' : (s'.sems (.exitsem c)).completedV = (s.sems (.exitsem c)).completedV := by
    rw [hsems, update_self]
    split_ifs <;> rfl
  have hlog : s'.exitLog = s.exitLog := p_exitLog _ _ _ _ _
  have hrel : s'.released = s.released := p_released _ _ _ _ _
  have hheap : s'.heap = s.heap := p_heap _ _ _ _ _
  have hnum : s'.numThreads = s.numThreads := hmoves.numThreads
  have hnot : passed s t = false := by simp [passed, hlive, hold.2.2.2]
  have hunit := hs.exitUnit t ht
  rw [hnot, ← hown] at hunit
  -- at most one unit was ever put into `exitsem`
  have hone : (s.sems (.exitsem c)).value ≠ 0 → (s.sems (.exitsem c)).value = 1 := by
    intro hzero
    have hv := hs.exitV c
    have hjoin := hs.joinUnit c
    have hnonneg := hs.joinValue c
    simp only [Bool.false_eq_true, if_false, add_zero] at hunit
    split_ifs at hv hjoin <;> omega
  have htracked : ∀ u, u < s'.numThreads → Tracked s' u := by
    refine fun u hu => hs.tracked_moves hmoves ht hlog hheap (p_numPcbs _ _ _ _ _)
      (hnew.2.2.1.trans hold.2.2.1.symm) ?_ ?_ hu
    · intro c' hwait
      rcases hnew.2.2.2 with hnone | hsome
      · rw [hnone] at hwait
        cases hwait
      · rw [hsome] at hwait
        cases hwait
        exact hown
    · intro c' pID' child' hjoining
      rw [hnew.2.1] at hjoining
      cases hjoining
  refine Units.handshake ⟨?_, ?_, ?_, ?_, ?_, ?_⟩ htracked
  · intro c'
    have hcount := hreaders c'
    rw [Thread.reads, hold.1, hnew.1] at hcount
    rw [hjoinsem, hlog, hrel, ← hs.joinUnit c']
    omega
  · intro c'
    rw [hjoinsem]
    exact hs.joinValue c'
  · intro c'
    rw [hlog, hrel]
    by_cases hcc : c' = c
    · rw [hcc, hv']
      exact hs.exitV c
    · rw [hother c' hcc]
      exact hs.exitV c'
  · intro u hu
    rw [hmoves.own]
    by_cases hut : u = t
    · subst hut
      rw [← hown, hv', hsems, update_self]
      by_cases hzero : (s.sems (.exitsem c)).value = 0
      · have hstill : passed s' u = false := by
          simp [passed, hmoves.point, hpt', hzero, Point.atRemove, hmoves.exited, hlive]
        rw [hstill, if_pos hzero, Threads.Semaphore.enqueue_value]
        exact hunit
      · have hthrough : passed s' u = true := by
          simp [passed, hmoves.point, hpt', hzero, Point.atRemove]
        rw [hthrough, if_neg hzero, take_value (hone hzero), ← hunit, hone hzero]
        rfl
    · have hne : (s.threads u).own ≠ c := fun heq =>
        hut (howned.own_inj u t (hnum ▸ hu) ht heq)
      have hsame : passed s' u = passed s u := by
        rw [passed, passed, hmoves.exited, hmoves.own, hmoves.point, if_neg hut, hlog]
      rw [hother _ hne, hsame]
      exact hs.exitUnit u (hnum ▸ hu)
  · intro c'
    by_cases hcc : c' = c
    · rw [hcc, hsems, update_self]
      split_ifs with hzero
      · rw [Threads.Semaphore.enqueue_value]
        exact hzero.ge
      · rw [take_value (hone hzero)]
    · rw [hother c' hcc]
      exact hs.exitValue c'
  · intro c' hc'
    have hcc : c' ≠ c := fun heq => hc' t (hnum.symm ▸ ht) (by rw [hmoves.own, heq])
    rw [hother c' hcc, hlog]
    exact hs.unowned c' fun u hu heq => hc' u (hnum.symm ▸ hu) (by rw [hmoves.own, heq])

/-- `Remove` and the return from `ExitUpdate` after `ExitWait`. -/
theorem Handshake.exitRemove (hs : Handshake s) (howned : Owned s) (ht : t < s.numThreads)
    (hlive : (s.threads t).exited = false) {pID : Nat} {ec : Int}
    (hpt : (s.threads t).point = .exitRemove pID ec) :
    Handshake (s.exitReturn t (s.threads t).processID) := by
  have heq := (howned.live t ht hlive).exitReturn t
  have hrecord := (hs.exiting t ht pID ec (by rw [hpt]; rfl)).1
  set s' := s.exitReturn t (s.threads t).processID
  have hthread : s'.threads t = { s.threads t with point := .user, exited := true } := by
    rw [heq]
    exact update_self ..
  have hother : ∀ u, u ≠ t → s'.threads u = s.threads u := fun u hne => by
    rw [heq]
    exact update_of_ne hne ..
  have hnum : s'.numThreads = s.numThreads := by rw [heq]
  have hnumPcbs : s'.numPcbs = s.numPcbs := by rw [heq]
  have hsems : s'.sems = s.sems := by rw [heq]
  have hlog : s'.exitLog = s.exitLog := by rw [heq]
  have hrel : s'.released = s.released := by rw [heq]
  have hheap : ∀ c, (s'.heap c).pid = (s.heap c).pid ∧
      (s'.heap c).exitcode = (s.heap c).exitcode ∧
      (s'.heap c).joinStatus = (s.heap c).joinStatus := by
    intro c
    rw [heq]
    exact ⟨field_update PCB.pid (by rfl) c, field_update PCB.exitcode (by rfl) c,
      field_update PCB.joinStatus (by rfl) c⟩
  have hown : ∀ u, (s'.threads u).own = (s.threads u).own := by
    intro u
    by_cases hut : u = t
    · rw [hut, hthread]
    · rw [hother u hut]
  have htracked : ∀ u, u < s'.numThreads → Tracked s' u := by
    intro u hu
    rw [hnum] at hu
    by_cases hut : u = t
    · subst hut
      refine ⟨?_, ?_, ?_, ?_⟩
      · rw [hlog, hown, hthread, hrecord]
        simp
      all_goals
        rw [hthread]
        intros
        contradiction
    · exact (hs.tracked hu).congr (by rw [hother u hut]; exact .refl _) (hown u)
        (by rw [hother u hut]) (by rw [hlog]) (hheap _).2.1
        (.of_eq hnumPcbs (fun c => (hheap c).1) (fun c => (hheap c).2.2))
  refine Units.handshake ⟨?_, ?_, ?_, ?_, ?_, ?_⟩ htracked
  · intro c
    have hreaders : readers s' c = readers s c := by
      rw [readers, readers, hnum]
      refine Sums.total_congr fun u _ => ?_
      by_cases hut : u = t
      · rw [hut, hthread, Thread.reads, Thread.reads, hpt]
        rfl
      · rw [hother u hut]
    rw [hreaders, hsems, hlog, hrel]
    exact hs.joinUnit c
  · intro c
    rw [hsems]
    exact hs.joinValue c
  · intro c
    rw [hsems, hlog, hrel]
    exact hs.exitV c
  · intro u hu
    rw [hown, hsems]
    have hsame : passed s' u = passed s u := by
      by_cases hut : u = t
      · rw [hut, passed, passed, hthread, hlog, hrecord, hpt]
        rfl
      · rw [passed, passed, hother u hut, hlog]
    rw [hsame]
    exact hs.exitUnit u (hnum ▸ hu)
  · intro c
    rw [hsems]
    exact hs.exitValue c
  · intro c hc
    rw [hlog, hsems]
    exact hs.unowned c fun u hu h => hc u (hnum.symm ▸ hu) (by rw [hown, h])

theorem ExitStart.alone {c : PcbId} (hocc : Occupied s (s.threads t).processID c)
    (hown : (s.threads t).own = c) (ec : Int) (hjoin : (s.heap c).joinStatus = -1) :
    ExitStart s ((s.setExitCode t c ec).exitReturn t (s.threads t).processID) t ec false := by
  have hocc' : Occupied (s.setExitCode t c ec) (s.threads t).processID c :=
    hocc.sameTable (.of_update rfl rfl rfl rfl rfl rfl rfl)
  have heq := hocc'.exitReturn t
  set s' := (s.setExitCode t c ec).exitReturn t (s.threads t).processID
  have hthreads : s'.threads =
      update s.threads t { s.threads t with point := .user, exited := true } := by rw [heq]; rfl
  have hheap : s'.heap = update s.heap c { s.heap c with exitcode := ec, deleted := true } := by
    rw [heq]
    simp
  refine ⟨by rw [heq]; rfl, ?_, ?_, ?_, ?_, ?_, ?_, ?_, ?_, by rw [heq]; rfl, by rw [heq]; rfl,
    ?_, ?_, ?_⟩
  · rw [hthreads]
    exact field_update Thread.own (by rfl)
  · intro u hut
    rw [hthreads, update_of_ne hut]
    exact ⟨rfl, rfl⟩
  · rw [hthreads, update_self]
    rfl
  · rw [hthreads, update_self]
    rfl
  · rw [heq]
    simp [hown, hjoin]
  · intro c' _
    rw [heq]
    rfl
  · intro hvalue
    rw [heq]
    exact hvalue
  · intro c'
    rw [heq]
    rfl
  · rw [hheap]
    exact field_update PCB.pid (by rfl)
  · rw [hheap]
    exact field_update PCB.joinStatus (by rfl)
  · intro c'
    rw [hheap, hown, update_apply]
    split_ifs <;> rfl

theorem ExitStart.joined {c : PcbId} (hown : (s.threads t).own = c)
    (hlive : (s.threads t).exited = false) (ec : Int) (hjoin : (s.heap c).joinStatus ≠ -1) :
    ExitStart s (((s.setExitCode t c ec).joinRelease c).goto t
      (.exitWait (s.threads t).processID ec)) t ec true := by
  have hmoves := (Moves.joinRelease s t t c ec).trans (.goto _ t (.exitWait (s.threads t).processID ec))
  have hheap := joinRelease_setExitCode_heap s t c ec
  have hsems : (((s.setExitCode t c ec).joinRelease c).goto t
      (.exitWait (s.threads t).processID ec)).sems =
      update s.sems (.joinsem c) (s.sems (.joinsem c)).give := by
    simp [State.goto, joinRelease]
  refine ⟨hmoves.numThreads, hmoves.own, ?_, ?_, ?_, ?_, ?_, ?_, ?_, ?_, ?_, ?_, ?_, ?_⟩
  · intro u hut
    rw [hmoves.point, if_neg hut, hmoves.exited]
    exact ⟨rfl, rfl⟩
  · rw [hmoves.point, if_pos rfl, if_pos rfl]
  · rw [hmoves.exited, hlive]
    rfl
  · simp [State.goto, joinRelease, hown, hjoin]
  · intro c' hne
    rw [hsems, update_of_ne (by simpa [hown] using hne)]
  · intro hvalue
    rw [hown] at hvalue ⊢
    rw [hsems, update_self, give_value hvalue]
    rfl
  · intro c'
    rw [hsems, update_of_ne (by simp)]
  · simp [State.goto, joinRelease]
  · simp [State.goto, joinRelease]
  · change ∀ c', (((s.setExitCode t c ec).joinRelease c).heap c').pid = _
    rw [hheap]
    exact field_update PCB.pid (by rfl)
  · change ∀ c', (((s.setExitCode t c ec).joinRelease c).heap c').joinStatus = _
    rw [hheap]
    exact field_update PCB.joinStatus (by rfl)
  · intro c'
    change (((s.setExitCode t c ec).joinRelease c).heap c').exitcode = _
    rw [hheap, hown, update_apply]
    split_ifs <;> rfl

/-! ## Every step -/

theorem Handshake.boot : Handshake boot := by
  have hreaders : ∀ c, readers Userprog.boot c = 0 := fun c => by
    simp [readers, Userprog.boot, Sums.total_succ, Sums.total_zero, Thread.reads, Point.reading]
  refine ⟨?_, ?_, ?_, ?_, ?_, ?_, ?_, ?_, ?_, ?_⟩
  · intro c
    rw [hreaders]
    rfl
  · exact fun c => le_refl _
  · exact fun c => rfl
  · intro t ht
    obtain rfl := Nat.lt_one_iff.mp ht
    rfl
  · exact fun c => le_refl _
  · exact fun c _ => ⟨rfl, rfl⟩
  · intro t ht
    obtain rfl := Nat.lt_one_iff.mp ht
    exact ⟨fun _ => ⟨rfl, rfl⟩, fun _ => rfl⟩
  all_goals
    intro t ht
    obtain rfl := Nat.lt_one_iff.mp ht
    intros
    contradiction

theorem Handshake.stop (hs : Handshake s) (howned : Owned s) (why : Stop) :
    Handshake (s.stop why) :=
  hs.same howned (t := 0) (.of_moves (.of_eq (by rfl) (by rfl) 0) (.refl _) rfl rfl rfl rfl rfl)

theorem SameHandshake.forget (s : State) (t : Tid) (pID : Int) :
    SameHandshake s (s.forget t pID) t (s.threads t).point := by
  refine .of_moves (.forget s t pID) (.refl _) ?_ (by simp) (forget_sems pID) ?_ ?_ <;>
    (unfold State.forget; split <;> rfl)

/-- A call of `JoinWait` up to its `P`. -/
theorem Handshake.joinWait (hs : Handshake s) (howned : Owned s) (ht : t < s.numThreads)
    (hcalm : (s.threads t).point.calm = true) {c : PcbId} {pID : Nat} {child : Option PcbId}
    (hocc : Occupied s pID c) (hchild : child = none ∨ child = some c) :
    Handshake (s.joinWait t c pID child) := by
  have hset : SameHandshake s (s.setPCB c { s.heap c with
      joinStatus := (s.heap c).parentID, numwait := (s.heap c).numwait + 1 }) t
      (s.threads t).point := by
    refine ⟨.of_eq (by rfl) (by rfl) t, .refl _, le_refl _, fun c' _ => ?_, fun c' _ => ?_,
      fun c' _ h => ?_, fun _ => rfl, fun _ => rfl, fun _ => rfl, rfl, rfl⟩
    · exact field_update PCB.pid (by rfl) c'
    · exact field_update PCB.exitcode (by rfl) c'
    · simp only [setPCB_heap, update_apply]
      split_ifs
      · simp only [ne_eq]
        omega
      · exact h
  refine (hs.same howned hset).joinP ht (.inl hcalm) hocc.constructed ?_ ?_ hchild
  · simp [hocc.pid]
  · simp only [setPCB_heap, update_self, ne_eq]
    omega

/-- What `SC_Join` has to know: the child that the caller's process ID stands for, if any, is the
one that `JoinUpdate` finds. -/
def JoinsOwnChild (s : State) (l : Label) : Prop :=
  ∀ t pID c, l = .call t (.join pID) → 0 < pID ∧ pID ≤ 9 → Occupied s pID.toNat c →
    (s.threads t).processID = (s.heap c).parentID → (s.threads t).exited = false →
    s.childOf t pID = none ∨ s.childOf t pID = some c

theorem Handshake.step (hs : Handshake s) (howned : Owned s) {l : Label}
    (hlate : lateCall s l = false) (hchild : JoinsOwnChild s l) (h : step s l = some s') :
    Handshake s' := by
  obtain ⟨hrun, htrans⟩ := step_trans h
  have ht := lt_of_runnable hrun
  rcases howned.live_of_step hlate h with hlive | rfl | rfl
  rotate_left
  · exact hs
  · exact hs.stop howned _
  cases htrans with
  | other => exact hs
  | stop why => exact hs.stop howned why
  | @load t file n pages hpt hframes =>
    have hcalm : (s.threads t).point.calm = true := by
      rcases hpt with heq | heq <;> rw [heq] <;> rfl
    have hmoves : Moves s { s.setThread t { s.threads t with point := .user, numPages := n }
        with physPages := pages } t .user := .of_update rfl rfl rfl rfl rfl rfl
    exact hs.same howned (.of_moves hmoves (.of_calm hcalm rfl) rfl rfl rfl rfl rfl)
  | exec hpt => exact hs.same howned (.p (by simp) (by rw [hpt]; rfl) rfl rfl)
  | execP hpt => exact hs.same howned (.p (by simp) (by rw [hpt]; rfl) rfl rfl)
  | execFail hpt =>
    exact hs.same howned (.of_moves (.goto s _ _) (.of_calm (by rw [hpt]; rfl) rfl)
      rfl rfl rfl rfl rfl)
  | execNew hpt hid hfree =>
    exact hs.same howned (.newPCB hs howned (by rw [hpt]; rfl))
  | mutexP hpt => exact hs.same howned (.p (by simp) (by rw [hpt]; rfl) rfl rfl)
  | fork hpt halive => exact hs.fork howned ht hpt
  | @mutexV t file c id hpt halive =>
    have hv : SameHandshake s (s.v (.mutex c)) t (s.threads t).point := .v (by simp) t
    refine (hs.same howned hv).same (howned.quiet (.of_eq (by simp) (by simp) (by simp) (by simp))
      hv.moves (.same s t) (.inr rfl)) (.of_moves (.goto _ t _) (.of_calm ?_ rfl) rfl rfl rfl rfl rfl)
    rw [hv.moves.point, if_pos rfl, hpt]
    rfl
  | @execV t file result child hpt =>
    have hv : SameHandshake s (s.v .bmsem) t (s.threads t).point := .v (by simp) t
    have hmoves : Moves (s.v .bmsem) ((s.v .bmsem).execReturn t result child) t .user :=
      .of_update rfl rfl rfl rfl rfl rfl
    refine (hs.same howned hv).same (howned.quiet (.of_eq (by simp) (by simp) (by simp) (by simp))
      hv.moves (.same s t) (.inr rfl)) (.of_moves hmoves (.of_calm ?_ rfl) rfl rfl rfl rfl rfl)
    rw [hv.moves.point, if_pos rfl, hpt]
    rfl
  | @joinFail t pID hpt hfail =>
    have hforget := SameHandshake.forget s t pID
    have hmoves : Moves (s.forget t pID)
        ((s.forget t pID).joinReturn t (s.childOf t pID) (-1)) t .user :=
      .of_update rfl rfl rfl rfl rfl rfl
    refine (hs.same howned hforget).same (howned.quiet (.forget s t pID) hforget.moves (.same s t)
      (.inr rfl)) (.of_moves hmoves (.of_calm ?_ rfl) rfl rfl rfl rfl rfl)
    rw [hforget.moves.point, if_pos rfl, hpt]
    rfl
  | @joinStop t pID why =>
    have hforget := SameHandshake.forget s t pID
    exact (hs.same howned hforget).stop (howned.quiet (.forget s t pID) hforget.moves (.same s t)
      (.inr rfl)) why
  | @joinWait t pID c hpt hrange hbit hpcb halive hparent =>
    have hforget := SameHandshake.forget s t pID
    have howned' := howned.quiet (.forget s t pID) hforget.moves (.same s t) (.inr rfl)
    obtain ⟨c', hocc⟩ := howned.slots pID.toNat (by rw [maxProcess]; omega) hbit
    obtain rfl : c' = c := Option.some.inj (hocc.pcb.symm.trans hpcb)
    refine (hs.same howned hforget).joinWait howned' (hforget.moves.numThreads.symm ▸ ht) ?_
      (hocc.sameTable (.forget s t pID)) (hchild t pID c' rfl hrange hocc hparent hlive)
    rw [hforget.moves.point, if_pos rfl, hpt]
    rfl
  | @joinP t file c pID child hpt =>
    obtain ⟨hlt, hpid, hstatus, hown⟩ := hs.joining t ht c pID child (by rw [hpt]; rfl)
    exact hs.joinP ht (.inr hpt) hlt hpid hstatus hown
  | @joinError t file c c' pID child hpt hpcb halive hec =>
    obtain ⟨-, -, -, hocc, ec, hlog, hcode⟩ := hs.reader howned ht hpt
    obtain rfl : c = c' := Option.some.inj (hocc.pcb.symm.trans hpcb)
    refine hs.joinReturn howned ht hpt hlog ?_ ?_ rfl rfl rfl rfl
    · exact .of_update (by rfl) (by rfl) (by rfl) (by rfl) (by rfl) (by rfl)
    · rw [if_neg (hcode ▸ hec)]
      rfl
  | @joinOk t file c c' pID child hpt hpcb halive hec =>
    obtain ⟨-, -, -, hocc, ec, hlog, hcode⟩ := hs.reader howned ht hpt
    obtain rfl : c = c' := Option.some.inj (hocc.pcb.symm.trans hpcb)
    refine hs.joinReturn howned ht hpt hlog ?_ ?_ ?_ ?_ ?_ ?_
    · refine (Moves.v s (.exitsem c) t).trans ?_
      exact .of_update (by rfl) (by rfl) (by rfl) (by rfl) (by rfl) (by rfl)
    · rw [if_pos (hcode ▸ hec)]
      simp [State.joinReturn, State.goto]
    · simp [State.joinReturn, State.goto]
    · simp [State.joinReturn, State.goto]
    · simp [State.joinReturn, State.goto]
    · rfl
  | exitGone hpt hgone =>
    exact hs.same howned (.of_moves (.goto s _ _) (.of_calm (by rw [hpt]; rfl) rfl)
      rfl rfl rfl rfl rfl)
  | @exitAlone t ec c hpt hpID hbit hmain hpcb halive hjoin =>
    have hocc := howned.live t ht hlive
    have hown : (s.threads t).own = c := Option.some.inj (hocc.pcb.symm.trans hpcb)
    exact hs.exitStart (t := t) howned ht hlive (by rw [hpt]; rfl)
      (.alone (hown ▸ hocc) hown ec hjoin)
  | @exitJoined t ec c hpt hpID hbit hmain hpcb halive hjoin =>
    have hocc := howned.live t ht hlive
    have hown : (s.threads t).own = c := Option.some.inj (hocc.pcb.symm.trans hpcb)
    exact hs.exitStart (t := t) howned ht hlive (by rw [hpt]; rfl) (.joined hown hlive ec hjoin)
  | @exitWait t file pID ec c hpt hpcb halive =>
    have hocc := howned.live t ht hlive
    obtain ⟨rfl, -⟩ := howned.exiting t ht pID ec (by rw [hpt]; rfl)
    obtain rfl : (s.threads t).own = c := Option.some.inj (hocc.pcb.symm.trans hpcb)
    exact hs.exitP howned ht hlive (.inl hpt)
  | @exitP t file c pID ec hpt =>
    obtain rfl := hs.exitWaiting t ht c (by rw [hpt]; rfl)
    exact hs.exitP howned ht hlive (.inr hpt)
  | @exitRemove t file pID ec hpt =>
    obtain ⟨rfl, -⟩ := howned.exiting t ht pID ec (by rw [hpt]; rfl)
    exact hs.exitRemove howned ht hlive hpt

end Nachos.Userprog
