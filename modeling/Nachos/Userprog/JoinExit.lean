import Nachos.Userprog.Handshake

/-!
# Joins and their children

A thread obtains a process ID from `SC_Exec` and later calls `SC_Join` with it. Meanwhile the
child may have exited, and its slot may have been taken by another process. `ChildOk` says what
the process ID can mean: the child is in its slot and has not been joined, or it has exited
unjoined and the slot, if taken, belongs to a child of another process. It follows that the
result of `SC_Join` is the one of the child's exit unless the child had already exited with code
zero (`join_reports_iff`): such an exit leaves nothing behind that `SC_Join` could report.
-/

namespace Nachos.Userprog

open Function (update update_of_ne update_self update_apply)
open Threads (Tid Semaphore)
open State

/-- `SC_Join` has reported the exit of its child: the child has called `SC_Exit(ec)`, and the
result is `0` when `ec` is zero and `-1` otherwise. -/
def Reports (s : State) (r : JoinReturn) : Prop :=
  ∃ e, s.exitLog r.child = some e ∧ (r.result = 0 ↔ e.ec = 0) ∧ (e.ec ≠ 0 → r.result = -1)

/-- What `SC_Join` returns for the record of an exit. -/
def ExitRecord.joinResult (e : ExitRecord) : Int := if e.joined ∧ e.ec = 0 then 0 else -1

def Recorded (s : State) (r : JoinReturn) : Prop :=
  ∃ e, s.exitLog r.child = some e ∧ r.result = e.joinResult

theorem Recorded.reports_iff {s : State} {r : JoinReturn} (h : Recorded s r) :
    Reports s r ↔ s.exitLog r.child ≠ some ⟨0, false⟩ := by
  obtain ⟨⟨ec, joined⟩, hlog, hresult⟩ := h
  rw [Reports, hlog, hresult]
  by_cases hec : ec = 0 <;> cases joined <;> simp [ExitRecord.joinResult, hec]

/-- The PCB and the process ID that an `ExecUpdate` in progress will return. -/
def Point.execing : Point → Option (PcbId × Nat)
  | .execMutexP c id _ => some (c, id)
  | .execFork c id _ => some (c, id)
  | .execMutexV c id => some (c, id)
  | .execV result (some c) => some (c, result.toNat)
  | _ => none

/-- The child has called `SC_Exit` before anybody joined it. -/
def ExitedAlone (s : State) (c : PcbId) : Prop := ∃ ec, s.exitLog c = some ⟨ec, false⟩

/-- What the process ID `p` of its child `c` means to thread `t`. -/
def ChildOk (s : State) (t : Tid) (p : Nat) (c : PcbId) : Prop :=
  0 < p ∧
    ((Occupied s p c ∧ (s.heap c).parentID = (s.threads t).processID ∧
        (s.heap c).joinStatus = -1 ∧ s.exitLog c = none) ∨
      (ExitedAlone s c ∧ ∀ c', Occupied s p c' → (s.heap c').parentID ≠ (s.threads t).processID))

structure Children (s : State) : Prop where
  main : 0 < s.numThreads ∧ (s.threads 0).processID = 0 ∧ (s.threads 0).exited = false
  execing : ∀ t, t < s.numThreads → ∀ c id, (s.threads t).point.execing = some (c, id) →
    ChildOk s t id c
  children : ∀ t, t < s.numThreads → (s.threads t).exited = false → ∀ p c,
    (s.threads t).children p = some c →
    ChildOk s t p c ∨ (ExitedAlone s c ∧ ∃ c', (s.threads t).point.execing = some (c', p))
  recorded : ∀ r ∈ s.joinLog, Recorded s r

variable {s s' : State} {t u : Tid} {pt : Point} {i : Nat} {c : PcbId}

/-! ## Steps that change no process -/

/-- Two live threads with one process ID are one. -/
theorem Owned.pid_inj (hs : Owned s) (ht : t < s.numThreads) (hu : u < s.numThreads)
    (hlive : (s.threads t).exited = false) (hlive' : (s.threads u).exited = false)
    (heq : (s.threads t).processID = (s.threads u).processID) : t = u :=
  hs.own_inj t u ht hu ((hs.live t ht hlive).unique (heq ▸ hs.live u hu hlive'))

theorem SameTable.symm (h : SameTable s s') : SameTable s' s :=
  ⟨h.bm.symm, h.pcb.symm, h.numPcbs.symm, fun c => (h.deleted c).symm, fun c => (h.pid c).symm,
    fun c => (h.parentID c).symm⟩

theorem Recorded.of_log {r : JoinReturn} (h : Recorded s r)
    (hlog : ∀ c e, s.exitLog c = some e → s'.exitLog c = some e) : Recorded s' r := by
  obtain ⟨e, he, hresult⟩ := h
  exact ⟨e, hlog _ e he, hresult⟩

/-- A step that leaves the slots, the joins and the exits alone. -/
theorem ChildOk.same (h : ChildOk s t i c) (htable : SameTable s s')
    (hstatus : Occupied s i c → (s.heap c).parentID = (s.threads t).processID →
      (s'.heap c).joinStatus = (s.heap c).joinStatus) (hlog : s'.exitLog = s.exitLog)
    (hpid : (s'.threads t).processID = (s.threads t).processID) : ChildOk s' t i c := by
  refine ⟨h.1, ?_⟩
  rw [ExitedAlone, hlog, hpid]
  rcases h.2 with ⟨hocc, hparent, hjoin, hnone⟩ | ⟨halone, hother⟩
  · refine .inl ⟨hocc.sameTable htable, ?_, ?_, hnone⟩
    · rw [htable.parentID, hparent]
    · rw [hstatus hocc hparent, hjoin]
  · refine .inr ⟨halone, fun c' hocc => ?_⟩
    rw [htable.parentID]
    exact hother c' (hocc.sameTable htable.symm)

/-- The step leaves the slots, the joins and the exits alone. -/
structure SameChildren (s s' : State) (t : Tid) (pt : Point) : Prop where
  moves : Moves s s' t pt
  table : SameTable s s'
  joinStatus : ∀ c, (s'.heap c).joinStatus = (s.heap c).joinStatus
  exitLog : s'.exitLog = s.exitLog
  joinLog : s'.joinLog = s.joinLog
  other : ∀ u, u ≠ t → (s'.threads u).children = (s.threads u).children

theorem Children.same (hs : Children s) (h : SameChildren s s' t pt)
    (hexec : ∀ c id, pt.execing = some (c, id) → (s.threads t).point.execing = some (c, id))
    (hchildren : ∀ p c, (s'.threads t).children p = some c →
      (s.threads t).children p = some c ∧ pt.execing = (s.threads t).point.execing ∨
      (t < s.numThreads → ChildOk s t p c)) : Children s' := by
  have hnum := h.moves.numThreads
  have hok : ∀ {u p c}, ChildOk s u p c → ChildOk s' u p c := fun hc =>
    hc.same h.table (fun _ _ => h.joinStatus _) h.exitLog (h.moves.processID _)
  refine ⟨?_, ?_, ?_, ?_⟩
  · rw [hnum, h.moves.processID, h.moves.exited]
    exact hs.main
  · intro u hu c id hpoint
    rw [hnum] at hu
    rw [h.moves.point] at hpoint
    split_ifs at hpoint with heq
    · subst heq
      exact hok (hs.execing u hu c id (hexec c id hpoint))
    · exact hok (hs.execing u hu c id hpoint)
  · intro u hu hlive p c hchild
    rw [hnum] at hu
    rw [h.moves.exited] at hlive
    rw [h.moves.point, ExitedAlone, h.exitLog]
    by_cases hut : u = t
    · subst hut
      rw [if_pos rfl]
      rcases hchildren p c hchild with ⟨hold, hsame⟩ | hnew
      · rw [hsame]
        exact (hs.children u hu hlive p c hold).imp_left hok
      · exact .inl (hok (hnew hu))
    · rw [if_neg hut]
      rw [h.other u hut] at hchild
      exact (hs.children u hu hlive p c hchild).imp_left hok
  · intro r hr
    rw [h.joinLog] at hr
    exact (hs.recorded r hr).of_log fun c e he => by rw [h.exitLog, he]

/-- `Children.same` for a step that keeps all children and goes on with the same `Exec`. -/
theorem Children.keep (hs : Children s) (h : SameChildren s s' t pt)
    (hexec : pt.execing = (s.threads t).point.execing)
    (hchildren : (s'.threads t).children = (s.threads t).children) : Children s' := by
  refine hs.same h (fun c id hpoint => hexec ▸ hpoint) fun p c hchild => .inl ⟨?_, hexec⟩
  rw [← hchildren]
  exact hchild

theorem SameChildren.of_update {th : Thread} (hnum : s'.numThreads = s.numThreads)
    (hthreads : s'.threads = update s.threads t th) (hown : th.own = (s.threads t).own)
    (hpid : th.processID = (s.threads t).processID) (hexited : th.exited = (s.threads t).exited)
    (hbm : s'.bm = s.bm) (hpcb : s'.pcb = s.pcb) (hnumPcbs : s'.numPcbs = s.numPcbs)
    (hheap : s'.heap = s.heap) (hexitLog : s'.exitLog = s.exitLog)
    (hjoinLog : s'.joinLog = s.joinLog) (hpt : th.point = pt) : SameChildren s s' t pt := by
  refine ⟨.of_update hnum hthreads hown hpid hexited hpt, .of_eq hbm hpcb hnumPcbs hheap,
    fun c => by rw [hheap], hexitLog, hjoinLog, fun u hut => ?_⟩
  rw [hthreads, update_of_ne hut]

theorem Children.goto (hs : Children s) (hexec : pt.execing = (s.threads t).point.execing) :
    Children (s.goto t pt) := by
  have hsame : SameChildren s (s.goto t pt) t pt :=
    .of_update rfl rfl rfl rfl rfl rfl rfl rfl rfl rfl rfl rfl
  refine hs.keep hsame hexec ?_
  rw [State.goto, setThread_threads, update_self]

theorem Children.p (hs : Children s) {r : SemRef} {w n : Point}
    (hw : w.execing = (s.threads t).point.execing) (hn : n.execing = (s.threads t).point.execing) :
    Children (s.p t r w n) := by
  refine hs.keep (t := t) (.of_update (p_numThreads s t r w n) (p_threads s t r w n) rfl rfl rfl
    (p_bm s t r w n) (p_pcb s t r w n) (p_numPcbs s t r w n) (p_heap s t r w n)
    (p_exitLog s t r w n) (p_joinLog s t r w n) rfl) ?_ ?_
  · split_ifs
    · exact hw
    · exact hn
  · rw [p_threads, update_self]

theorem Children.v (hs : Children s) (r : SemRef) : Children (s.v r) := by
  refine hs.keep (t := 0) ⟨.v s r 0, .of_eq (by simp) (by simp) (by simp) (by simp), ?_, by simp,
    by simp, ?_⟩ rfl ?_
  · intro c
    rw [v_heap]
  · intro u _
    rw [v_threads]
  · rw [v_threads]

theorem Children.stop (hs : Children s) (why : Stop) : Children (s.stop why) :=
  hs.keep (t := 0) ⟨.of_eq (by rfl) (by rfl) 0, .of_eq rfl rfl rfl rfl, fun _ => rfl, rfl, rfl,
    fun _ _ => rfl⟩ rfl rfl

theorem Children.released (hs : Children s) (cs : List PcbId) :
    Children { s with released := cs } :=
  hs.keep (t := 0) ⟨.of_eq (by rfl) (by rfl) 0, .of_eq rfl rfl rfl rfl, fun _ => rfl, rfl, rfl,
    fun _ _ => rfl⟩ rfl rfl

theorem forget_children (s : State) (t : Tid) (pID : Int) {p : Nat} {c : PcbId}
    (h : ((s.forget t pID).threads t).children p = some c) :
    (s.threads t).children p = some c ∧ (0 ≤ pID → p ≠ pID.toNat) := by
  unfold State.forget at h
  split_ifs at h with hpos
  · simp only [setThread_threads, update_self, update_apply] at h
    split_ifs at h with heq
    exact ⟨h, fun _ => heq⟩
  · exact ⟨h, fun hle => absurd hle hpos⟩

theorem SameChildren.forget (s : State) (t : Tid) (pID : Int) :
    SameChildren s (s.forget t pID) t (s.threads t).point := by
  refine ⟨.forget s t pID, .forget s t pID, fun c => by rw [forget_heap], ?_, ?_, ?_⟩ <;>
    unfold State.forget <;> split
  · rfl
  · rfl
  · rfl
  · rfl
  · exact fun u hut => by rw [setThread_threads, update_of_ne hut]
  · exact fun _ _ => rfl

theorem Children.forget (hs : Children s) (t : Tid) (pID : Int) : Children (s.forget t pID) :=
  hs.same (SameChildren.forget s t pID) (fun _ _ h => h)
    fun _ _ hchild => .inl ⟨(forget_children s t pID hchild).1, rfl⟩

/-- `SC_Join` returns, with a result that the record of the child's exit explains. -/
theorem Children.joinReturn (hs : Children s) (hexec : (s.threads t).point.execing = none)
    {child : Option PcbId} {result : Int}
    (hrecord : ∀ c, child = some c → Recorded s ⟨t, c, result⟩) :
    Children (s.joinReturn t child result) := by
  have hgoto : Children (s.goto t .user) := hs.goto hexec.symm
  have hlog : ∀ {r}, Recorded s r → Recorded (s.joinReturn t child result) r :=
    fun hr => hr.of_log fun _ _ he => he
  refine ⟨hgoto.main, ?_, ?_, ?_⟩
  · intro u hu c id hpoint
    exact (hgoto.execing u hu c id hpoint).same (.of_eq rfl rfl rfl rfl) (fun _ _ => rfl) rfl rfl
  · intro u hu hlive p c hchild
    exact (hgoto.children u hu hlive p c hchild).imp_left fun hok =>
      hok.same (.of_eq rfl rfl rfl rfl) (fun _ _ => rfl) rfl rfl
  · intro r hr
    simp only [State.joinReturn] at hr
    cases child with
    | none => exact hlog (hs.recorded r hr)
    | some c =>
      rcases List.mem_cons.mp hr with rfl | hr
      · exact hlog (hrecord c rfl)
      · exact hlog (hs.recorded r hr)

/-! ## `SC_Exec` -/

/-- `SC_Exec` returns the process ID of its child. -/
theorem Children.execReturn (hs : Children s) (hlive : (s.threads t).exited = false)
    {result : Int} {child : Option PcbId} (hpt : (s.threads t).point = .execV result child) :
    Children (s.execReturn t result child) := by
  have hsame : SameChildren s (s.execReturn t result child) t .user :=
    .of_update rfl rfl rfl rfl rfl rfl rfl rfl rfl rfl rfl rfl
  refine hs.same hsame (fun _ _ h => by cases h) ?_
  intro p c hchild
  simp only [State.execReturn, setThread_threads, update_self] at hchild
  cases child with
  | none => exact .inl ⟨hchild, by rw [hpt]; rfl⟩
  | some c' =>
    refine .inr fun ht => ?_
    simp only [update_apply] at hchild
    split_ifs at hchild with heq
    · obtain rfl := Option.some.inj hchild
      exact hs.execing t ht c' p (by rw [hpt, heq]; rfl)
    · rcases hs.children t ht hlive p c hchild with hok | ⟨-, c'', hexec⟩
      · exact hok
      · rw [hpt] at hexec
        cases hexec
        exact absurd rfl heq

/-- `ExecUpdate` puts a new child into a free slot. -/
theorem Children.newSlot (hs : Children s) (howned : Owned s) (hshake : Handshake s)
    (ht : t < s.numThreads) (hlive : (s.threads t).exited = false)
    (hexec : (s.threads t).point.execing = none) {id : Nat} {filename : String}
    (hnew : NewSlot s s' id (s.threads t).processID)
    (hmoves : Moves s s' t (.execFork s.numPcbs id filename))
    (hchildren : ∀ u, (s'.threads u).children = (s.threads u).children)
    (hlog : s'.exitLog = s.exitLog) (hjoinLog : s'.joinLog = s.joinLog) : Children s' := by
  have hnum := hmoves.numThreads
  have hmain := howned.live 0 hs.main.1 hs.main.2.2
  rw [hs.main.2.1] at hmain
  have hid : 0 < id := by
    refine Nat.pos_of_ne_zero fun hzero => ?_
    have hfree := hnew.free
    rw [hzero, hmain.bit] at hfree
    cases hfree
  have hheap : ∀ c, c < s.numPcbs → s'.heap c = s.heap c := fun c hc => by
    rw [hnew.heap, update_of_ne (Nat.ne_of_lt hc)]
  -- the children of other threads see at most that a slot is taken by a stranger
  have hok : ∀ {u p c}, ChildOk s u p c → p ≠ id ∨ (s.threads u).processID ≠ (s.threads t).processID →
      ChildOk s' u p c := by
    intro u p c hchild hdiff
    refine ⟨hchild.1, ?_⟩
    rw [ExitedAlone, hlog, hmoves.processID]
    rcases hchild.2 with ⟨hocc, hparent, hjoin, hnone⟩ | ⟨halone, hother⟩
    · refine .inl ⟨hocc.newSlot hnew, ?_, ?_, hnone⟩
      · rw [hheap c hocc.constructed, hparent]
      · rw [hheap c hocc.constructed, hjoin]
    · refine .inr ⟨halone, fun c' hocc => ?_⟩
      by_cases hp : p = id
      · subst hp
        obtain rfl := hocc.unique (hnew.occupied howned.numBits)
        rw [hnew.heap, update_self, PCB.new, if_pos hid.ne']
        exact fun heq => hdiff.resolve_left (not_not.mpr rfl) heq.symm
      · obtain ⟨c'', hocc''⟩ := howned.slots p (by rw [maxProcess]; have := hocc.range; omega)
          (by have := hocc.bit; rw [hnew.test] at this; simpa [hp] using this)
        obtain rfl := (hocc''.newSlot hnew).unique hocc
        rw [hheap _ hocc''.constructed]
        exact hother _ hocc''
  refine ⟨?_, ?_, ?_, ?_⟩
  · rw [hnum, hmoves.processID, hmoves.exited]
    exact hs.main
  · intro u hu c id' hpoint
    rw [hnum] at hu
    rw [hmoves.point] at hpoint
    split_ifs at hpoint with hut
    · cases hpoint
      refine ⟨hid, .inl ⟨hnew.occupied howned.numBits, ?_, ?_, ?_⟩⟩
      · rw [hut, hnew.heap, update_self, hmoves.processID, PCB.new, if_pos hid.ne']
      · rw [hnew.heap, update_self]
        rfl
      · rw [hlog]
        exact (hshake.fresh howned (le_refl _)).1
    · have hlive' : (s.threads u).exited = false := by
        cases hexited : (s.threads u).exited with
        | false => rfl
        | true =>
          rw [howned.exited u hu hexited] at hpoint
          cases hpoint
      exact hok (hs.execing u hu c id' hpoint)
        (.inr fun heq => hut (howned.pid_inj hu ht hlive' hlive heq))
  · intro u hu hlive' p c hchild
    rw [hnum] at hu
    rw [hmoves.exited] at hlive'
    rw [hchildren] at hchild
    rw [hmoves.point, ExitedAlone, hlog]
    by_cases hut : u = t
    · subst hut
      rw [if_pos rfl]
      rcases hs.children u hu hlive' p c hchild with hchildOk | ⟨-, c', hexec'⟩
      · by_cases hp : p = id
        · subst hp
          rcases hchildOk.2 with ⟨hocc, -⟩ | ⟨halone, -⟩
          · have hbit := hocc.bit
            rw [hnew.free] at hbit
            cases hbit
          · exact .inr ⟨halone, s.numPcbs, rfl⟩
        · exact .inl (hok hchildOk (.inl hp))
      · rw [hexec] at hexec'
        cases hexec'
    · rw [if_neg hut]
      exact (hs.children u hu hlive' p c hchild).imp_left fun hchildOk =>
        hok hchildOk (.inr fun heq => hut (howned.pid_inj hu ht hlive' hlive heq))
  · intro r hr
    rw [hjoinLog] at hr
    exact (hs.recorded r hr).of_log fun c e he => by rw [hlog, he]

theorem Children.fork (hs : Children s) (ht : t < s.numThreads) {id : Nat} {filename : String}
    (hpt : (s.threads t).point = .execFork c id filename) :
    Children ((s.fork c id filename).goto t (.execMutexV c id)) := by
  have hnew := fork_new ht c id filename
  have hold := fun u (hu : u < s.numThreads) => fork_old ht c id filename hu
  have htable : SameTable s ((s.fork c id filename).goto t (.execMutexV c id)) :=
    .of_update rfl rfl rfl rfl rfl rfl rfl
  have hstatus : ∀ c', (((s.fork c id filename).goto t (.execMutexV c id)).heap c').joinStatus =
      (s.heap c').joinStatus := field_update PCB.joinStatus (by rfl)
  set s' := (s.fork c id filename).goto t (.execMutexV c id)
  have hcases : ∀ u, u < s'.numThreads → u < s.numThreads ∨ u = s.numThreads :=
    fun u hu => Nat.lt_succ_iff_lt_or_eq.mp hu
  have hsame : ∀ u, u < s.numThreads → (s'.threads u).processID = (s.threads u).processID ∧
      (s'.threads u).exited = (s.threads u).exited ∧
      (s'.threads u).children = (s.threads u).children ∧
      (s'.threads u).point.execing = (s.threads u).point.execing := by
    intro u hu
    rw [hold u hu]
    split_ifs with hut
    · subst hut
      exact ⟨rfl, rfl, rfl, by rw [hpt]; rfl⟩
    · exact ⟨rfl, rfl, rfl, rfl⟩
  have hok : ∀ {u p c'}, u < s.numThreads → ChildOk s u p c' → ChildOk s' u p c' :=
    fun hu hchild => hchild.same htable (fun _ _ => hstatus _) rfl (hsame _ hu).1
  refine ⟨?_, ?_, ?_, ?_⟩
  · obtain ⟨hpos, hpid, hlive⟩ := hs.main
    exact ⟨Nat.lt_succ_of_lt hpos, (hsame 0 hpos).1.trans hpid, (hsame 0 hpos).2.1.trans hlive⟩
  · intro u hu c' id' hpoint
    rcases hcases u hu with hlt | rfl
    · rw [(hsame u hlt).2.2.2] at hpoint
      exact hok hlt (hs.execing u hlt c' id' hpoint)
    · rw [hnew] at hpoint
      cases hpoint
  · intro u hu hlive p c' hchild
    rcases hcases u hu with hlt | rfl
    · obtain ⟨-, hexited, hchildren, hexec⟩ := hsame u hlt
      rw [hexited] at hlive
      rw [hchildren] at hchild
      rw [hexec]
      exact (hs.children u hlt hlive p c' hchild).imp_left (hok hlt)
    · rw [hnew] at hchild
      cases hchild
  · exact fun r hr => (hs.recorded r hr).of_log fun _ _ he => he

/-! ## `SC_Join` -/

/-- `JoinWait` marks the child as joined; the caller no longer counts it among its children. -/
theorem Children.setJoined (hs : Children s) (howned : Owned s) (ht : t < s.numThreads)
    (hlive : (s.threads t).exited = false) (hexec : (s.threads t).point.execing = none)
    (hocc : Occupied s i c) (hparent : (s.threads t).processID = (s.heap c).parentID)
    (hforgot : (s.threads t).children i ≠ some c) :
    Children (s.setPCB c { s.heap c with
      joinStatus := (s.heap c).parentID, numwait := (s.heap c).numwait + 1 }) := by
  set s' := s.setPCB c { s.heap c with
    joinStatus := (s.heap c).parentID, numwait := (s.heap c).numwait + 1 }
  have htable : SameTable s s' := .of_update rfl rfl rfl rfl rfl rfl rfl
  have hok : ∀ {u p c'}, u < s.numThreads → (s.threads u).exited = false → ChildOk s u p c' →
      (u = t → p = i → c' ≠ c) → ChildOk s' u p c' := by
    intro u p c' hu hlive' hchild hnot
    refine hchild.same htable (fun hocc' hparent' => ?_) rfl rfl
    have hne : c' ≠ c := by
      rintro rfl
      have hut : u = t := howned.pid_inj hu ht hlive' hlive (hparent'.symm.trans hparent.symm)
      exact hnot hut (hocc'.pid.symm.trans hocc.pid) rfl
    exact congrArg PCB.joinStatus (update_of_ne hne ..)
  refine ⟨hs.main, ?_, ?_, fun r hr => (hs.recorded r hr).of_log fun _ _ he => he⟩
  · intro u hu c' id hpoint
    have hlive' : (s.threads u).exited = false := by
      cases hexited : (s.threads u).exited with
      | false => rfl
      | true =>
        have huser := howned.exited u hu hexited
        rw [show (s'.threads u).point = (s.threads u).point from rfl, huser] at hpoint
        cases hpoint
    refine hok hu hlive' (hs.execing u hu c' id hpoint) fun hut _ => ?_
    subst hut
    rw [show (s'.threads u).point = (s.threads u).point from rfl, hexec] at hpoint
    cases hpoint
  · intro u hu hlive' p c' hchild
    refine (hs.children u hu hlive' p c' hchild).imp_left fun hchildOk => ?_
    refine hok hu hlive' hchildOk fun hut hp heq => hforgot ?_
    rw [← hut, ← hp, ← heq]
    exact hchild

theorem childOf_some {pID : Int} (h : s.childOf t pID = some c) :
    0 ≤ pID ∧ (s.threads t).children pID.toNat = some c := by
  unfold State.childOf at h
  split_ifs at h with hpos
  exact ⟨hpos, h⟩

/-- The child that a process ID stands for at a call of `SC_Join`. -/
theorem Children.childOk (hs : Children s) (ht : t < s.numThreads)
    (hlive : (s.threads t).exited = false) (hpt : (s.threads t).point = .user) {pID : Int}
    (hchild : s.childOf t pID = some c) : ChildOk s t pID.toNat c := by
  rcases hs.children t ht hlive _ c (childOf_some hchild).2 with hok | ⟨-, c', hexec⟩
  · exact hok
  · rw [hpt] at hexec
    cases hexec

/-- `SC_Join` only fails for a child that has exited alone. -/
theorem Children.joinFail (hs : Children s) (ht : t < s.numThreads)
    (hlive : (s.threads t).exited = false) (hpt : (s.threads t).point = .user) {pID : Int}
    (hfail : ¬ (0 < pID ∧ pID ≤ 9 ∧ s.bm.test pID.toNat = true) ∨ s.pcb pID.toNat = none ∨
      ∃ c, s.pcb pID.toNat = some c ∧ (s.threads t).processID ≠ (s.heap c).parentID)
    (hchild : s.childOf t pID = some c) : Recorded s ⟨t, c, -1⟩ := by
  have hok := hs.childOk ht hlive hpt hchild
  rcases hok.2 with ⟨hocc, hparent, -, -⟩ | ⟨⟨ec, hlog⟩, -⟩
  · exfalso
    have hrange := hocc.range
    have hpos := hok.1
    rcases hfail with hnot | hnone | ⟨c', hpcb, hne⟩
    · exact hnot ⟨by omega, by omega, hocc.bit⟩
    · rw [hocc.pcb] at hnone
      cases hnone
    · rw [hocc.pcb] at hpcb
      obtain rfl := Option.some.inj hpcb
      exact hne hparent.symm
  · exact ⟨⟨ec, false⟩, hlog, rfl⟩

theorem Children.joinsOwnChild (hs : Children s) {l : Label} (h : step s l = some s') :
    JoinsOwnChild s l := by
  rintro t pID c rfl hrange hocc hparent hlive
  have ht := lt_of_runnable (step_trans h).1
  have hpt : (s.threads t).point = .user := by
    simp only [Userprog.step] at h
    split_ifs at h with hrun
    exact hrun.2
  cases hchild : s.childOf t pID with
  | none => exact .inl rfl
  | some c' =>
    refine .inr (congrArg some ?_)
    rcases (hs.childOk ht hlive hpt hchild).2 with ⟨hocc', -⟩ | ⟨-, hother⟩
    · exact hocc'.unique hocc
    · exact absurd hparent.symm (hother c hocc)

/-! ## `SC_Exit` -/

/-- What an exit of the process with PCB `c` does to the meaning of process IDs. -/
structure Exits (s s' : State) (t : Tid) (c : PcbId) : Prop where
  occupied : ∀ i c', Occupied s' i c' → Occupied s i c'
  keep : ∀ i c', c' ≠ c → Occupied s i c' → Occupied s' i c'
  parentID : ∀ c', (s'.heap c').parentID = (s.heap c').parentID
  joinStatus : ∀ c', (s'.heap c').joinStatus = (s.heap c').joinStatus
  exitLog : ∀ c', c' ≠ c → s'.exitLog c' = s.exitLog c'
  record : ∀ e, s.exitLog c = some e → s'.exitLog c = some e
  alone : s.exitLog c = none → (s.heap c).joinStatus = -1 →
    ExitedAlone s' c ∧ ∀ i, ¬ Occupied s' i c
  joinLog : s'.joinLog = s.joinLog
  numThreads : s'.numThreads = s.numThreads
  processID : ∀ u, (s'.threads u).processID = (s.threads u).processID
  other : ∀ u, u ≠ t → (s'.threads u).exited = (s.threads u).exited ∧
    (s'.threads u).children = (s.threads u).children ∧ (s'.threads u).point = (s.threads u).point
  children : (s'.threads t).children = (s.threads t).children
  execing : (s'.threads t).point.execing = none
  live : (s'.threads t).exited = false → (s.threads t).exited = false

theorem ChildOk.exits {c₀ : PcbId} (h : ChildOk s u i c) (hexit : Exits s s' t c₀) :
    ChildOk s' u i c := by
  refine ⟨h.1, ?_⟩
  rw [hexit.processID]
  rcases h.2 with ⟨hocc, hparent, hjoin, hnone⟩ | ⟨⟨ec, hlog⟩, hother⟩
  · by_cases hc : c = c₀
    · subst hc
      obtain ⟨halone, hgone⟩ := hexit.alone hnone hjoin
      refine .inr ⟨halone, fun c' hocc' => absurd hocc' ?_⟩
      rw [(hexit.occupied i c' hocc').unique hocc]
      exact hgone i
    · refine .inl ⟨hexit.keep i c hc hocc, ?_, ?_, ?_⟩
      · rw [hexit.parentID, hparent]
      · rw [hexit.joinStatus, hjoin]
      · rw [hexit.exitLog c hc, hnone]
  · refine .inr ⟨⟨ec, ?_⟩, fun c' hocc' => ?_⟩
    · by_cases hc : c = c₀
      · subst hc
        exact hexit.record _ hlog
      · rw [hexit.exitLog c hc, hlog]
    · rw [hexit.parentID]
      exact hother c' (hexit.occupied i c' hocc')

theorem Children.exits (hs : Children s) (hmain : (s.threads t).processID ≠ 0)
    (hexec : (s.threads t).point.execing = none) (h : Exits s s' t c) : Children s' := by
  have hlog : ∀ c' e, s.exitLog c' = some e → s'.exitLog c' = some e := by
    intro c' e he
    by_cases hc : c' = c
    · subst hc
      exact h.record e he
    · rw [h.exitLog c' hc, he]
  refine ⟨?_, ?_, ?_, ?_⟩
  · have hzero : 0 ≠ t := by
      rintro rfl
      exact hmain hs.main.2.1
    rw [h.numThreads, h.processID, (h.other 0 hzero).1]
    exact hs.main
  · intro u hu c' id hpoint
    rw [h.numThreads] at hu
    by_cases hut : u = t
    · rw [hut, h.execing] at hpoint
      cases hpoint
    · rw [(h.other u hut).2.2] at hpoint
      exact (hs.execing u hu c' id hpoint).exits h
  · intro u hu hlive p c' hchild
    rw [h.numThreads] at hu
    have hold : (s.threads u).children p = some c' ∧ (s.threads u).exited = false ∧
        (s'.threads u).point.execing = (s.threads u).point.execing := by
      by_cases hut : u = t
      · subst hut
        rw [h.children] at hchild
        exact ⟨hchild, h.live hlive, by rw [h.execing, hexec]⟩
      · obtain ⟨hexited, hchildren, hpoint⟩ := h.other u hut
        rw [hexited] at hlive
        rw [hchildren] at hchild
        exact ⟨hchild, hlive, by rw [hpoint]⟩
    obtain ⟨hchild', hlive', hsame⟩ := hold
    rw [hsame]
    refine (hs.children u hu hlive' p c' hchild').imp (fun hok => hok.exits h) ?_
    rintro ⟨⟨ec, he⟩, hexecing⟩
    exact ⟨⟨ec, hlog c' _ he⟩, hexecing⟩
  · intro r hr
    rw [h.joinLog] at hr
    exact (hs.recorded r hr).of_log hlog

theorem Occupied.of_exitReturn {pID : Nat} {c' : PcbId} (hocc : Occupied s pID c)
    (hbits : s.bm.numBits = maxProcess) (h : Occupied (s.exitReturn t pID) i c') :
    Occupied s i c' ∧ c' ≠ c := by
  have hrange : pID < s.bm.numBits := by
    rw [hbits]
    exact Nat.lt_succ_of_le hocc.range
  obtain ⟨hi, hbit, hpcb, hconstructed, halive, hpid⟩ := h
  rw [hocc.exitReturn t] at hbit hpcb hconstructed halive hpid
  have hne : c' ≠ c := by
    rintro rfl
    simp at halive
  simp only [BitMap.test_clear s.bm hrange, Bool.and_eq_true] at hbit
  simp only [update_of_ne hne] at halive hpid
  exact ⟨⟨hi, hbit.2, hpcb, hconstructed, halive, hpid⟩, hne⟩

/-- The return from `ExitUpdate`; `w` is the state before `Remove`. -/
theorem Exits.exitReturn {w : State} {pID : Nat} (htable : SameTable s w)
    (hbits : s.bm.numBits = maxProcess) (hocc : Occupied s pID c)
    (hthreads : w.threads = s.threads) (hnum : w.numThreads = s.numThreads)
    (hstatus : ∀ c', (w.heap c').joinStatus = (s.heap c').joinStatus)
    (hlog : ∀ c', c' ≠ c → w.exitLog c' = s.exitLog c')
    (hrecord : ∀ e, s.exitLog c = some e → w.exitLog c = some e)
    (halone : s.exitLog c = none → ExitedAlone w c) (hjoinLog : w.joinLog = s.joinLog) :
    Exits s (w.exitReturn t pID) t c := by
  have hoccw : Occupied w pID c := hocc.sameTable htable
  have hbitsw : w.bm.numBits = maxProcess := by rw [htable.bm, hbits]
  have heq := hoccw.exitReturn t
  have hthread : ∀ u, (w.exitReturn t pID).threads u =
      if u = t then { s.threads t with point := .user, exited := true } else s.threads u := by
    intro u
    rw [exitReturn_threads, hthreads, update_apply]
  refine ⟨?_, ?_, ?_, ?_, ?_, ?_, ?_, ?_, ?_, ?_, ?_, ?_, ?_, ?_⟩
  · exact fun i c' h => ((hoccw.of_exitReturn hbitsw h).1).sameTable htable.symm
  · exact fun i c' hne h => hoccw.remove hbitsw (h.sameTable htable) hne t
  · intro c'
    rw [heq, ← htable.parentID]
    exact field_update PCB.parentID (by rfl) c'
  · intro c'
    rw [heq, ← hstatus]
    exact field_update PCB.joinStatus (by rfl) c'
  · intro c' hne
    rw [heq]
    exact hlog c' hne
  · intro e he
    rw [heq]
    exact hrecord e he
  · intro hnone _
    refine ⟨?_, fun i h => (hoccw.of_exitReturn hbitsw h).2 rfl⟩
    rw [heq]
    exact halone hnone
  · rw [heq]
    exact hjoinLog
  · rw [heq]
    exact hnum
  · intro u
    rw [hthread]
    split_ifs with hut
    · rw [hut]
    · rfl
  · intro u hut
    rw [hthread, if_neg hut]
    exact ⟨rfl, rfl, rfl⟩
  · rw [hthread, if_pos rfl]
  · rw [hthread, if_pos rfl]
    rfl
  · intro h
    rw [hthread, if_pos rfl] at h
    cases h

theorem Exits.joined (ec : Int) (hown : (s.threads t).own = c) (hnone : s.exitLog c = none)
    (hjoin : (s.heap c).joinStatus ≠ -1) :
    Exits s (((s.setExitCode t c ec).joinRelease c).goto t
      (.exitWait (s.threads t).processID ec)) t c := by
  have hmoves := (Moves.joinRelease s t t c ec).trans (.goto _ t (.exitWait (s.threads t).processID ec))
  have hheap := joinRelease_setExitCode_heap s t c ec
  have htable : SameTable s (((s.setExitCode t c ec).joinRelease c).goto t
      (.exitWait (s.threads t).processID ec)) := by
    refine .of_update ?_ ?_ ?_ hheap rfl rfl rfl <;> simp [State.goto, joinRelease]
  have hchildren : ∀ u, ((((s.setExitCode t c ec).joinRelease c).goto t
      (.exitWait (s.threads t).processID ec)).threads u).children = (s.threads u).children := by
    intro u
    simp only [State.goto, joinRelease, setThread_threads]
    rw [field_update Thread.children (by rfl), v_threads]
    rfl
  refine ⟨fun i c' h => h.sameTable htable.symm, fun i c' _ h => h.sameTable htable,
    htable.parentID, ?_, ?_, ?_, ?_, ?_, hmoves.numThreads, hmoves.processID, ?_, hchildren t, ?_, ?_⟩
  · change ∀ c', (((s.setExitCode t c ec).joinRelease c).heap c').joinStatus = _
    rw [hheap]
    exact field_update PCB.joinStatus (by rfl)
  · intro c' hne
    simp [State.goto, joinRelease, hown, hne]
  · intro e he
    rw [hnone] at he
    cases he
  · exact fun _ h => absurd h hjoin
  · simp [State.goto, joinRelease]
  · intro u hut
    rw [hmoves.exited, hmoves.point, if_neg hut, hchildren]
    exact ⟨rfl, rfl, rfl⟩
  · rw [hmoves.point, if_pos rfl]
    rfl
  · rw [hmoves.exited]
    exact id

/-! ## Every step -/

/-- A joiner that reads the exit code for a child reads it from the PCB of the child. -/
theorem Handshake.child_eq (hs : Handshake s) (ht : t < s.numThreads) {pID : Nat}
    {child : Option PcbId} {c' : PcbId} (hpt : (s.threads t).point = .joinRead c pID child)
    (hchild : child = some c') : c' = c := by
  rcases (hs.joining t ht c pID child (by rw [hpt]; rfl)).2.2.2 with hnone | hsome
  · rw [hnone] at hchild
    cases hchild
  · exact Option.some.inj (hchild.symm.trans hsome)

theorem Children.boot : Children boot := by
  refine ⟨⟨by decide, rfl, rfl⟩, ?_, ?_, ?_⟩
  · intro t ht
    obtain rfl := Nat.lt_one_iff.mp ht
    intro c id h
    cases h
  · intro t ht
    obtain rfl := Nat.lt_one_iff.mp ht
    intro _ p c h
    cases h
  · intro r hr
    cases hr

theorem Children.step (hs : Children s) (howned : Owned s) (hshake : Handshake s) {l : Label}
    (hlate : lateCall s l = false) (h : step s l = some s') : Children s' := by
  obtain ⟨hrun, htrans⟩ := step_trans h
  have ht := lt_of_runnable hrun
  rcases howned.live_of_step hlate h with hlive | rfl | rfl
  rotate_left
  · exact hs
  · exact hs.stop _
  cases htrans with
  | other => exact hs
  | stop why => exact hs.stop why
  | @load t file n pages hpt hframes =>
    have hsame : SameChildren s { s.setThread t { s.threads t with point := .user, numPages := n }
        with physPages := pages } t .user :=
      .of_update rfl rfl rfl rfl rfl rfl rfl rfl rfl rfl rfl rfl
    refine hs.keep hsame ?_ ?_
    · rcases hpt with heq | heq <;> rw [heq] <;> rfl
    · simp
  | exec hpt => exact hs.p (by rw [hpt]; rfl) (by rw [hpt]; rfl)
  | execP hpt => exact hs.p (by rw [hpt]) (by rw [hpt]; rfl)
  | execFail hpt => exact hs.goto (by rw [hpt]; rfl)
  | @execNew t file filename id hpt hid hfree =>
    refine hs.newSlot (t := t) howned hshake ht hlive (by rw [hpt]; rfl)
      ⟨hid, hfree, rfl, rfl, rfl, rfl⟩
      (.of_update (by rfl) (by rfl) (by rfl) (by rfl) (by rfl) (by rfl)) ?_ rfl rfl
    intro u
    exact field_update Thread.children (by rfl) u
  | mutexP hpt => exact hs.p (by rw [hpt]) (by rw [hpt]; rfl)
  | fork hpt halive => exact hs.fork ht hpt
  | @mutexV t file c id hpt halive =>
    refine (hs.v (.mutex c)).goto ?_
    rw [v_threads, hpt]
    rfl
  | @execV t file result child hpt =>
    exact (hs.v .bmsem).execReturn (by rw [v_threads]; exact hlive) (by rw [v_threads]; exact hpt)
  | @joinFail t pID hpt hfail =>
    have hforget := SameChildren.forget s t pID
    refine (hs.forget t pID).joinReturn ?_ fun c hchild => ?_
    · rw [hforget.moves.point, if_pos rfl, hpt]
      rfl
    · exact (hs.joinFail ht hlive hpt hfail hchild).of_log fun c' e he => by
        rw [hforget.exitLog, he]
  | @joinStop t pID why => exact (hs.forget t pID).stop why
  | @joinWait t pID c hpt hrange hbit hpcb halive hparent =>
    have hforget := SameChildren.forget s t pID
    have howned' := howned.quiet hforget.table hforget.moves (.same s t) (.inr rfl)
    obtain ⟨c', hocc⟩ := howned.slots pID.toNat (by rw [maxProcess]; omega) hbit
    obtain rfl : c' = c := Option.some.inj (hocc.pcb.symm.trans hpcb)
    have hpoint : ((s.forget t pID).threads t).point = .user := by
      rw [hforget.moves.point, if_pos rfl, hpt]
    have hjoined := (hs.forget t pID).setJoined howned' (hforget.moves.numThreads.symm ▸ ht)
      (by rw [hforget.moves.exited]; exact hlive) (by rw [hpoint]; rfl)
      (hocc.sameTable hforget.table)
      (by rw [hforget.moves.processID, forget_heap, hparent])
      (fun h => (forget_children s t pID h).2 (by omega) rfl)
    refine hjoined.p ?_ ?_ <;> (rw [setPCB_threads, hpoint]; rfl)
  | joinP hpt => exact hs.p (by rw [hpt]) (by rw [hpt]; rfl)
  | @joinError t file c c' pID child hpt hpcb halive hec =>
    obtain ⟨-, -, -, hocc, ec, hlog, hcode⟩ := hshake.reader howned ht hpt
    obtain rfl : c = c' := Option.some.inj (hocc.pcb.symm.trans hpcb)
    refine ((hs.joinReturn (by rw [hpt]; rfl) fun c' hchild => ?_).released _)
    obtain rfl := hshake.child_eq ht hpt hchild
    exact ⟨⟨ec, true⟩, hlog, by simp [ExitRecord.joinResult, hcode ▸ hec]⟩
  | @joinOk t file c c' pID child hpt hpcb halive hec =>
    obtain ⟨-, -, -, hocc, ec, hlog, hcode⟩ := hshake.reader howned ht hpt
    obtain rfl : c = c' := Option.some.inj (hocc.pcb.symm.trans hpcb)
    refine (((hs.v (.exitsem c)).joinReturn ?_ fun c' hchild => ?_).released _)
    · rw [v_threads]
      simp only [hpt]
      rfl
    · obtain rfl := hshake.child_eq ht hpt hchild
      exact ⟨⟨ec, true⟩, by rw [v_exitLog, hlog], by simp [ExitRecord.joinResult, hcode ▸ hec]⟩
  | exitGone hpt hgone => exact hs.goto (by rw [hpt])
  | @exitAlone t ec c hpt hpID hbit hmain hpcb halive hjoin =>
    have hocc := howned.live t ht hlive
    obtain rfl : (s.threads t).own = c := Option.some.inj (hocc.pcb.symm.trans hpcb)
    have hnone := (hshake.running t ht).mpr ⟨hlive, by rw [hpt]; rfl⟩
    refine hs.exits hmain (by rw [hpt]; rfl) (.exitReturn (.of_update rfl rfl rfl rfl rfl rfl rfl)
      howned.numBits hocc rfl rfl ?_ ?_ ?_ ?_ rfl)
    · exact field_update PCB.joinStatus (by rfl)
    · exact fun c' hne => by rw [setExitCode_exitLog, update_of_ne hne]
    · intro e he
      rw [hnone] at he
      cases he
    · exact fun _ => ⟨ec, by rw [setExitCode_exitLog, update_self]; simp [hjoin]⟩
  | @exitJoined t ec c hpt hpID hbit hmain hpcb halive hjoin =>
    have hocc := howned.live t ht hlive
    obtain rfl : (s.threads t).own = c := Option.some.inj (hocc.pcb.symm.trans hpcb)
    have hnone := (hshake.running t ht).mpr ⟨hlive, by rw [hpt]; rfl⟩
    exact hs.exits hmain (by rw [hpt]; rfl) (.joined ec rfl hnone hjoin)
  | exitWait hpt hpcb halive => exact hs.p (by rw [hpt]; rfl) (by rw [hpt]; rfl)
  | exitP hpt => exact hs.p (by rw [hpt]) (by rw [hpt]; rfl)
  | @exitRemove t file pID ec hpt =>
    obtain ⟨rfl, hmain⟩ := howned.exiting t ht pID ec (by rw [hpt]; rfl)
    have hocc := howned.live t ht hlive
    have hrecord := (hshake.exiting t ht _ ec (by rw [hpt]; rfl)).1
    refine hs.exits hmain (by rw [hpt]; rfl) (.exitReturn (.of_eq rfl rfl rfl rfl) howned.numBits
      hocc rfl rfl (fun _ => rfl) (fun _ _ => rfl) (fun _ he => he) ?_ rfl)
    intro hnone
    rw [hrecord] at hnone
    cases hnone

/-- The invariants of a run without late calls. -/
structure JoinInv (s : State) : Prop where
  owned : Owned s
  handshake : Handshake s
  children : Children s

theorem JoinInv.boot : JoinInv boot := ⟨Owned.boot, Handshake.boot, Children.boot⟩

theorem JoinInv.step (hs : JoinInv s) {l : Label} (hlate : lateCall s l = false)
    (h : step s l = some s') : JoinInv s' :=
  ⟨hs.owned.step hlate h,
    hs.handshake.step hs.owned hlate (hs.children.joinsOwnChild h) h,
    hs.children.step hs.owned hs.handshake hlate h⟩

theorem joinInv_throughout {ls : List Label}
    (hlate : Runs.AllSteps step (fun s l => lateCall s l = false) boot ls) :
    Runs.AllStates step JoinInv boot ls :=
  Runs.allStates_of_allSteps (fun _ _ _ hs hgood h => hs.step hgood h) JoinInv.boot hlate

/-- In every run in which threads that have exited make no more process calls, and for every
`SC_Join` of a child obtained from `SC_Exec` that has returned: it has reported the exit of the
child exactly when the child had not called `SC_Exit(0)` before the join. -/
theorem join_reports_iff (ls : List Label)
    (hlate : Runs.AllSteps step (fun s l => lateCall s l = false) boot ls) :
    Runs.AllStates step
      (fun s => ∀ r ∈ s.joinLog, Reports s r ↔ s.exitLog r.child ≠ some ⟨0, false⟩) boot ls :=
  (joinInv_throughout hlate).mono fun _ hs r hr => (hs.children.recorded r hr).reports_iff

/-- "main" executes a program, which exits with code zero, and joins it afterwards. -/
def lateJoinRun : List Label := exitRun ++ [.call 0 (.join 1)]

theorem join_reports_iff_lateJoinRun :
    Runs.AllSteps step (fun s l => lateCall s l = false) boot lateJoinRun ∧
      Runs.AllStates step
        (fun s => ∀ r ∈ s.joinLog, Reports s r ↔ s.exitLog r.child ≠ some ⟨0, false⟩)
        boot lateJoinRun := by
  have hlate : Runs.AllSteps step (fun s l => lateCall s l = false) boot lateJoinRun := by
    decide +kernel
  exact ⟨hlate, join_reports_iff lateJoinRun hlate⟩

/-- The join of `lateJoinRun` returns `-1` for an exit with code zero. -/
theorem not_reports_lateJoinRun :
    ¬ Runs.AllStates step (fun s => ∀ r ∈ s.joinLog, Reports s r) boot lateJoinRun := by
  intro h
  have hrun : (Runs.run step boot lateJoinRun).map (fun s => (s.joinLog, s.exitLog 1)) =
      some ([⟨0, 1, -1⟩], some ⟨0, false⟩) := by decide +kernel
  obtain ⟨s, hs, heval⟩ := Option.map_eq_some_iff.mp hrun
  obtain ⟨hjoinLog, hexitLog⟩ := Prod.mk.inj heval
  obtain ⟨e, he, hzero, -⟩ := h.of_run hs ⟨0, 1, -1⟩ (by rw [hjoinLog]; simp)
  rw [hexitLog] at he
  obtain rfl := Option.some.inj he
  simp at hzero

end Nachos.Userprog
