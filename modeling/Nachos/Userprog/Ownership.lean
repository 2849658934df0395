import Nachos.Userprog.SlotTable

/-!
# Threads and their slots

Every thread of a process owns the slot of its process ID: the bit is set and `pcb[pID]` is the
PCB whose `Exec` created the thread. `Owned` states this for every thread that has not exited,
with what is needed to keep it; it is kept by every step that is not a process call of a thread
that has exited (`Owned.step`).

`SC_Exit` ends with `IncPCReg` and a return to user code, so a thread does survive its own exit.
A thread about to run user code owns its slot throughout a run exactly as long as no exit gets as
far as `Remove` (`userOwned_iff`).
-/

namespace Nachos.Userprog

open Function (update update_of_ne update_self update_apply)
open Threads (Tid Semaphore)
open State

/-- Every thread that is about to run user code owns the slot of its process ID. -/
def UserOwned (s : State) : Prop :=
  ∀ t, s.runnable t = true → (s.threads t).point = .user →
    s.bm.test (s.threads t).processID = true ∧
      s.pcb (s.threads t).processID = some (s.threads t).own

/-- A thread that has exited calls `SC_Exec`, `SC_Join` or `SC_Exit`. -/
def lateCall (s : State) : Label → Bool
  | .call t c => (s.threads t).exited && c.isProcess
  | .resume _ _ => false

/-- The PCB and the slot that `PCB::Exec` is about to fork a thread for. -/
def Point.forking : Point → Option (PcbId × Nat)
  | .execMutexP c id _ => some (c, id)
  | .execFork c id _ => some (c, id)
  | _ => none

/-- The process ID and the exit code of an `ExitUpdate` that waits for the joiner. -/
def Point.exiting : Point → Option (Nat × Int)
  | .exitWait pID ec => some (pID, ec)
  | .exitP _ pID ec => some (pID, ec)
  | .exitRemove pID ec => some (pID, ec)
  | _ => none

/-- `ExitUpdate` is at its last `Remove`. -/
def Point.atRemove : Point → Bool
  | .exitRemove _ _ => true
  | _ => false

/-- The thread has no address space yet. -/
def Point.starting : Point → Bool
  | .startProcess => true
  | .myStartProcess => true
  | _ => false

/-- The slot `i` is occupied by the live PCB `c`. -/
structure Occupied (s : State) (i : Nat) (c : PcbId) : Prop where
  range : i ≤ 9
  bit : s.bm.test i = true
  pcb : s.pcb i = some c
  constructed : c < s.numPcbs
  alive : (s.heap c).deleted = false
  pid : (s.heap c).pid = i

structure Owned (s : State) : Prop where
  numBits : s.bm.numBits = maxProcess
  slots : ∀ i, i < maxProcess → s.bm.test i = true → ∃ c, Occupied s i c
  live : ∀ t, t < s.numThreads → (s.threads t).exited = false →
    Occupied s (s.threads t).processID (s.threads t).own
  constructed : ∀ t, t < s.numThreads → (s.threads t).own < s.numPcbs
  own_inj : ∀ t t', t < s.numThreads → t' < s.numThreads →
    (s.threads t).own = (s.threads t').own → t = t'
  exited : ∀ t, t < s.numThreads → (s.threads t).exited = true → (s.threads t).point = .user
  exiting : ∀ t, t < s.numThreads → ∀ pID ec, (s.threads t).point.exiting = some (pID, ec) →
    pID = (s.threads t).processID ∧ pID ≠ 0
  forking : ∀ t, t < s.numThreads → ∀ c id, (s.threads t).point.forking = some (c, id) →
    Occupied s id c ∧ ∀ t', t' < s.numThreads → (s.threads t').own ≠ c
  forking_inj : ∀ t t', t < s.numThreads → t' < s.numThreads → ∀ c id id',
    (s.threads t).point.forking = some (c, id) → (s.threads t').point.forking = some (c, id') → t = t'

/-! ## What a step does to the threads -/

/-- The step moves the thread `t` to `pt`; no thread changes its process. -/
structure Moves (s s' : State) (t : Tid) (pt : Point) : Prop where
  numThreads : s'.numThreads = s.numThreads
  own : ∀ t', (s'.threads t').own = (s.threads t').own
  processID : ∀ t', (s'.threads t').processID = (s.threads t').processID
  exited : ∀ t', (s'.threads t').exited = (s.threads t').exited
  point : ∀ t', (s'.threads t').point = if t' = t then pt else (s.threads t').point

variable {s s' s'' : State} {t : Tid} {pt pt' : Point}

theorem Moves.of_update {th : Thread} (hnum : s'.numThreads = s.numThreads)
    (hthreads : s'.threads = update s.threads t th) (hown : th.own = (s.threads t).own)
    (hpid : th.processID = (s.threads t).processID) (hexited : th.exited = (s.threads t).exited)
    (hpoint : th.point = pt) : Moves s s' t pt := by
  refine ⟨hnum, fun t' => ?_, fun t' => ?_, fun t' => ?_, fun t' => ?_⟩ <;>
    rw [hthreads, update_apply] <;> split_ifs with h
  · rw [h, hown]
  · rfl
  · rw [h, hpid]
  · rfl
  · rw [h, hexited]
  · rfl
  · exact hpoint
  · rfl

theorem Moves.of_eq (hnum : s'.numThreads = s.numThreads) (hthreads : s'.threads = s.threads)
    (t : Tid) : Moves s s' t (s.threads t).point := by
  have hself : s'.threads = update s.threads t (s.threads t) := by
    rw [hthreads, Function.update_eq_self]
  exact .of_update hnum hself rfl rfl rfl rfl

theorem Moves.trans (h : Moves s s' t pt) (h' : Moves s' s'' t pt') : Moves s s'' t pt' := by
  refine ⟨h'.numThreads.trans h.numThreads, fun u => (h'.own u).trans (h.own u),
    fun u => (h'.processID u).trans (h.processID u), fun u => (h'.exited u).trans (h.exited u),
    fun u => ?_⟩
  rw [h'.point, h.point]
  split_ifs <;> rfl

theorem Moves.goto (s : State) (t : Tid) (pt : Point) : Moves s (s.goto t pt) t pt :=
  .of_update (by rfl) (by rfl) (by rfl) (by rfl) (by rfl) (by rfl)

theorem Moves.p (s : State) (t : Tid) (r : SemRef) (w n : Point) :
    Moves s (s.p t r w n) t (if (s.sems r).value = 0 then w else n) :=
  .of_update (p_numThreads s t r w n) (p_threads s t r w n) rfl rfl rfl rfl

theorem Moves.v (s : State) (r : SemRef) (t : Tid) :
    Moves s (s.v r) t (s.threads t).point := by
  refine ⟨v_numThreads s r, ?_, ?_, ?_, ?_⟩ <;> intro t' <;> rw [v_threads]
  split_ifs with h
  · rw [h]
  · rfl

theorem Moves.forget (s : State) (t : Tid) (pID : Int) :
    Moves s (s.forget t pID) t (s.threads t).point := by
  unfold State.forget
  split
  · exact .of_update (by rfl) (by rfl) (by rfl) (by rfl) (by rfl) (by rfl)
  · exact .of_eq rfl rfl t

theorem Moves.joinWait (s : State) (t : Tid) (c : PcbId) (pID : Nat) (child : Option PcbId) :
    Moves s (s.joinWait t c pID child) t
      (if (s.sems (.joinsem c)).value = 0 then .joinP c pID child else .joinRead c pID child) :=
  (Moves.of_eq (by rfl) (by rfl) t).trans (Moves.p _ _ _ _ _)

theorem Moves.joinRelease (s : State) (t t' : Tid) (c : PcbId) (ec : Int) :
    Moves s ((s.setExitCode t c ec).joinRelease c) t' (s.threads t').point :=
  .trans (.of_eq (by rfl) (by rfl) t') (Moves.v ((s.setExitCode t c ec).setPCB c _) _ _)

/-- The points that a step can move a thread to without touching a slot. -/
structure Point.Follows (s : State) (t : Tid) (pt : Point) : Prop where
  forking : pt.forking = none ∨ pt.forking = (s.threads t).point.forking
  exiting : pt.exiting = none ∨ pt.exiting = (s.threads t).point.exiting ∨
    ∃ ec, pt.exiting = some ((s.threads t).processID, ec) ∧ (s.threads t).processID ≠ 0
  starting : pt.starting = false ∨ pt = (s.threads t).point

theorem Point.Follows.plain (hfork : pt.forking = none) (hexit : pt.exiting = none)
    (hstart : pt.starting = false) : Point.Follows s t pt := ⟨.inl hfork, .inl hexit, .inl hstart⟩

theorem Point.Follows.same (s : State) (t : Tid) : Point.Follows s t (s.threads t).point :=
  ⟨.inr rfl, .inr (.inl rfl), .inr rfl⟩

theorem Point.Follows.ite {w n : Point} (hw : Point.Follows s t w) (hn : Point.Follows s t n)
    (b : Prop) [Decidable b] : Point.Follows s t (if b then w else n) := by
  split_ifs
  · exact hw
  · exact hn

/-- A step that neither creates nor removes a process. -/
def Quiet (s s' : State) (t : Tid) : Prop :=
  SameTable s s' ∧ ∃ pt, Moves s s' t pt ∧ Point.Follows s t pt

theorem Quiet.of_p {r : SemRef} {w n : Point} (hw : Point.Follows s t w)
    (hn : Point.Follows s t n) : Quiet s (s.p t r w n) t :=
  ⟨.of_eq (by simp) (by simp) (by simp) (by simp), _, Moves.p s t r w n, hw.ite hn _⟩

/-- The steps by what they do to slots and threads: most are quiet; the others construct a PCB,
fork its thread, or return from `ExitUpdate`. -/
theorem trans_shape {l : Label} (h : Trans s l s') :
    Quiet s s' l.thread ∨
    (∃ id filename, NewSlot s s' id (s.threads l.thread).processID ∧
      Moves s s' l.thread (.execFork s.numPcbs id filename)) ∨
    (∃ c id filename, (s.threads l.thread).point = .execFork c id filename ∧
      s' = (s.fork c id filename).goto l.thread (.execMutexV c id)) ∨
    (∃ c ec, (s.threads l.thread).point = .user ∧ (s.threads l.thread).processID ≠ 0 ∧
      removing s l = some (s.threads l.thread).processID ∧
      s.pcb (s.threads l.thread).processID = some c ∧
      s' = (s.setExitCode l.thread c ec).exitReturn l.thread (s.threads l.thread).processID) ∨
    (∃ pID ec, (s.threads l.thread).point = .exitRemove pID ec ∧
      removing s l = (if s.isExist pID then some pID else none) ∧
      s' = s.exitReturn l.thread pID) := by
  cases h with
  | other => exact .inl ⟨.of_eq rfl rfl rfl rfl, _, .of_eq (by rfl) (by rfl) _, .same s _⟩
  | stop why => exact .inl ⟨.of_eq rfl rfl rfl rfl, _, .of_eq (by rfl) (by rfl) _, .same s _⟩
  | load hpt hframes =>
    exact .inl ⟨.of_eq rfl rfl rfl rfl, .user, .of_update (by rfl) (by rfl) (by rfl) (by rfl) (by rfl) (by rfl), .plain rfl rfl rfl⟩
  | exec hpt => exact .inl (.of_p (.plain rfl rfl rfl) (.plain rfl rfl rfl))
  | execP hpt => exact .inl (.of_p (.plain rfl rfl rfl) (.plain rfl rfl rfl))
  | execFail hpt =>
    exact .inl ⟨.of_eq rfl rfl rfl rfl, _, .goto s _ _, .plain rfl rfl rfl⟩
  | execNew hpt hid hfree =>
    exact .inr (.inl ⟨_, _, ⟨hid, hfree, rfl, rfl, rfl, rfl⟩, .of_update (by rfl) (by rfl) (by rfl) (by rfl) (by rfl) (by rfl)⟩)
  | mutexP hpt =>
    have hsame : (s.threads _).point.forking = some _ := congrArg Point.forking hpt
    exact .inl (.of_p ⟨.inr hsame.symm, .inl rfl, .inl rfl⟩ ⟨.inr hsame.symm, .inl rfl, .inl rfl⟩)
  | fork hpt halive => exact .inr (.inr (.inl ⟨_, _, _, hpt, rfl⟩))
  | mutexV hpt halive =>
    exact .inl ⟨.of_eq (by simp [State.goto]) (by simp [State.goto]) (by simp [State.goto])
      (by simp [State.goto]), _, (Moves.v s _ _).trans (.goto _ _ _), .plain rfl rfl rfl⟩
  | execV hpt =>
    refine .inl ⟨.of_eq (by simp [execReturn]) (by simp [execReturn]) (by simp [execReturn])
      (by simp [execReturn]), .user, (Moves.v s .bmsem _).trans ?_, .plain rfl rfl rfl⟩
    exact .of_update (by rfl) (by rfl) (by rfl) (by rfl) (by rfl) (by rfl)
  | @joinFail t pID hpt hfail =>
    refine .inl ⟨(SameTable.forget s _ _).trans (.of_eq rfl rfl rfl rfl), .user,
      (Moves.forget s t pID).trans ?_, .plain rfl rfl rfl⟩
    exact .of_update (by rfl) (by rfl) (by rfl) (by rfl) (by rfl) (by rfl)
  | @joinStop t pID why =>
    refine .inl ⟨(SameTable.forget s _ _).trans (.of_eq rfl rfl rfl rfl), _, ?_, .same s _⟩
    have hforget := Moves.forget s t pID
    exact ⟨hforget.numThreads, hforget.own, hforget.processID, hforget.exited, hforget.point⟩
  | joinWait hpt hrange hbit hpcb halive hparent =>
    refine .inl ⟨(SameTable.forget s _ _).trans (SameTable.joinWait _ _ _ _ _), _,
      (Moves.forget s _ _).trans (.joinWait _ _ _ _ _), ?_⟩
    exact .ite (.plain rfl rfl rfl) (.plain rfl rfl rfl) _
  | joinP hpt => exact .inl (.of_p (.plain rfl rfl rfl) (.plain rfl rfl rfl))
  | joinError hpt hpcb halive hec =>
    exact .inl ⟨.of_eq rfl rfl rfl rfl, .user, .of_update (by rfl) (by rfl) (by rfl) (by rfl) (by rfl) (by rfl), .plain rfl rfl rfl⟩
  | @joinOk t file c c' pID child hpt hpcb halive hec =>
    refine .inl ⟨.of_eq (by simp [joinReturn, State.goto]) (by simp [joinReturn, State.goto])
      (by simp [joinReturn, State.goto]) (by simp [joinReturn, State.goto]), .user,
      (Moves.v s (.exitsem c') _).trans ?_, .plain rfl rfl rfl⟩
    exact .of_update (by rfl) (by rfl) (by rfl) (by rfl) (by rfl) (by rfl)
  | exitGone hpt hgone =>
    exact .inl ⟨.of_eq rfl rfl rfl rfl, _, .goto s _ _, .plain rfl rfl rfl⟩
  | exitAlone hpt hpID hbit hmain hpcb halive hjoin =>
    refine .inr (.inr (.inr (.inl ⟨_, _, hpt, hmain, ?_, hpcb, rfl⟩)))
    simp [removing, hpcb, isExist_iff, hpID, hbit, hmain, halive, hjoin, Label.thread]
  | exitJoined hpt hpID hbit hmain hpcb halive hjoin =>
    refine .inl ⟨.of_update ?_ ?_ ?_ (joinRelease_setExitCode_heap s _ _ _) rfl rfl rfl, _,
      (Moves.joinRelease s _ _ _ _).trans (.goto _ _ _), ?_⟩
    · simp [State.goto, joinRelease]
    · simp [State.goto, joinRelease]
    · simp [State.goto, joinRelease]
    · exact ⟨.inl rfl, .inr (.inr ⟨_, rfl, hmain⟩), .inl rfl⟩
  | exitWait hpt hpcb halive =>
    have hsame : (s.threads _).point.exiting = some _ := congrArg Point.exiting hpt
    exact .inl (.of_p ⟨.inl rfl, .inr (.inl hsame.symm), .inl rfl⟩
      ⟨.inl rfl, .inr (.inl hsame.symm), .inl rfl⟩)
  | exitP hpt =>
    have hsame : (s.threads _).point.exiting = some _ := congrArg Point.exiting hpt
    exact .inl (.of_p ⟨.inl rfl, .inr (.inl hsame.symm), .inl rfl⟩
      ⟨.inl rfl, .inr (.inl hsame.symm), .inl rfl⟩)
  | exitRemove hpt =>
    refine .inr (.inr (.inr (.inr ⟨_, _, hpt, ?_, rfl⟩)))
    simp [removing, hpt]

/-! ## The invariant -/

theorem Occupied.sameTable {i : Nat} {c : PcbId} (hocc : Occupied s i c) (h : SameTable s s') :
    Occupied s' i c := by
  refine ⟨hocc.range, ?_, ?_, ?_, ?_, ?_⟩
  · rw [h.bm, hocc.bit]
  · rw [h.pcb, hocc.pcb]
  · rw [h.numPcbs]
    exact hocc.constructed
  · rw [h.deleted, hocc.alive]
  · rw [h.pid, hocc.pid]

theorem NewSlot.test {id caller : Nat} (h : NewSlot s s' id caller) (i : Nat) :
    s'.bm.test i = (decide (i = id) || s.bm.test i) := by
  rw [h.bm, BitMap.test_mark _ (by rw [BitMap.numBits_mark]; exact h.range),
    BitMap.test_mark _ h.range, ← Bool.or_assoc, Bool.or_self]

theorem Occupied.newSlot {i id caller : Nat} {c : PcbId} (hocc : Occupied s i c)
    (h : NewSlot s s' id caller) : Occupied s' i c := by
  have hne : i ≠ id := by
    rintro rfl
    exact absurd hocc.bit (by simp [h.free])
  have hold : c ≠ s.numPcbs := Nat.ne_of_lt hocc.constructed
  refine ⟨hocc.range, ?_, ?_, ?_, ?_, ?_⟩
  · rw [h.test, hocc.bit, Bool.or_true]
  · rw [h.pcb, update_of_ne hne, hocc.pcb]
  · rw [h.numPcbs]
    exact Nat.lt_succ_of_lt hocc.constructed
  · rw [h.heap, update_of_ne hold, hocc.alive]
  · rw [h.heap, update_of_ne hold, hocc.pid]

theorem NewSlot.occupied {id caller : Nat} (h : NewSlot s s' id caller)
    (hbits : s.bm.numBits = maxProcess) : Occupied s' id s.numPcbs := by
  have hrange := h.range
  rw [hbits, maxProcess] at hrange
  refine ⟨by omega, ?_, ?_, ?_, ?_, ?_⟩
  · rw [h.test]
    simp
  · rw [h.pcb, update_self]
  · rw [h.numPcbs]
    exact Nat.lt_succ_self _
  · rw [h.heap, update_self]
    rfl
  · rw [h.heap, update_self]
    rfl

/-- Two PCBs that occupy one slot are one, and one PCB occupies one slot. -/
theorem Occupied.unique {i : Nat} {c c' : PcbId} (h : Occupied s i c) (h' : Occupied s i c') :
    c = c' := Option.some.inj (h.pcb.symm.trans h'.pcb)

theorem Owned.boot : Owned boot := by
  have hslot : Occupied Userprog.boot 0 0 := by
    refine ⟨by decide, by decide, rfl, by decide, rfl, rfl⟩
  refine ⟨rfl, ?_, ?_, ?_, ?_, ?_, ?_, ?_, ?_⟩
  · intro i hi hbit
    rw [Userprog.boot, BitMap.test_mark _ (by decide : 0 < (BitMap.new maxProcess).numBits)] at hbit
    simp at hbit
    exact ⟨0, hbit ▸ hslot⟩
  · exact fun t ht _ => Nat.lt_one_iff.mp ht ▸ hslot
  · exact fun t ht => Nat.lt_one_iff.mp ht ▸ hslot.constructed
  · exact fun t t' ht ht' _ => (Nat.lt_one_iff.mp ht).trans (Nat.lt_one_iff.mp ht').symm
  all_goals
    intro t
    by_cases ht : t = 0 <;> simp [Userprog.boot, ht, Point.exiting, Point.forking]

theorem Owned.quiet (hs : Owned s) (htable : SameTable s s') (hmoves : Moves s s' t pt)
    (hpt : Point.Follows s t pt)
    (hlive : (s.threads t).exited = false ∨ pt = (s.threads t).point) : Owned s' := by
  -- a point of interest in `s'` was one in `s`, or is the new point of `t`
  have hforking : ∀ t' c id, (s'.threads t').point.forking = some (c, id) →
      (s.threads t').point.forking = some (c, id) := by
    intro t' c id h
    rw [hmoves.point] at h
    split_ifs at h with heq
    · subst heq
      rcases hpt.forking with hnone | hsame
      · rw [hnone] at h
        cases h
      · rw [← hsame]
        exact h
    · exact h
  refine ⟨by rw [htable.bm, hs.numBits], ?_, ?_, ?_, ?_, ?_, ?_, ?_, ?_⟩
  · intro i hi hbit
    rw [htable.bm] at hbit
    obtain ⟨c, hocc⟩ := hs.slots i hi hbit
    exact ⟨c, hocc.sameTable htable⟩
  · intro t' ht' hexited
    rw [hmoves.numThreads] at ht'
    rw [hmoves.exited] at hexited
    rw [hmoves.processID, hmoves.own]
    exact (hs.live t' ht' hexited).sameTable htable
  · intro t' ht'
    rw [hmoves.numThreads] at ht'
    rw [hmoves.own, htable.numPcbs]
    exact hs.constructed t' ht'
  · intro t' t'' ht' ht'' heq
    rw [hmoves.numThreads] at ht' ht''
    rw [hmoves.own, hmoves.own] at heq
    exact hs.own_inj t' t'' ht' ht'' heq
  · intro t' ht' hexited
    rw [hmoves.numThreads] at ht'
    rw [hmoves.exited] at hexited
    rw [hmoves.point]
    split_ifs with heq
    · subst heq
      rcases hlive with hlive | hsame
      · rw [hlive] at hexited
        cases hexited
      · rw [hsame]
        exact hs.exited t' ht' hexited
    · exact hs.exited t' ht' hexited
  · intro t' ht' pID ec h
    rw [hmoves.numThreads] at ht'
    rw [hmoves.processID]
    rw [hmoves.point] at h
    split_ifs at h with heq
    · subst heq
      rcases hpt.exiting with hnone | hsame | ⟨ec', hnew, hmain⟩
      · rw [hnone] at h
        cases h
      · rw [hsame] at h
        exact hs.exiting t' ht' pID ec h
      · rw [hnew] at h
        cases h
        exact ⟨rfl, hmain⟩
    · exact hs.exiting t' ht' pID ec h
  · intro t' ht' c id h
    rw [hmoves.numThreads] at ht'
    obtain ⟨hocc, hnew⟩ := hs.forking t' ht' c id (hforking t' c id h)
    refine ⟨hocc.sameTable htable, fun u hu => ?_⟩
    rw [hmoves.numThreads] at hu
    rw [hmoves.own]
    exact hnew u hu
  · intro t' t'' ht' ht'' c id id' h h'
    rw [hmoves.numThreads] at ht' ht''
    exact hs.forking_inj t' t'' ht' ht'' c id id' (hforking t' c id h) (hforking t'' c id' h')

theorem Owned.newSlot (hs : Owned s) {id caller : Nat} {filename : String}
    (hnew : NewSlot s s' id caller) (hmoves : Moves s s' t (.execFork s.numPcbs id filename))
    (hlive : (s.threads t).exited = false) : Owned s' := by
  have hforking : ∀ t' c id', (s'.threads t').point.forking = some (c, id') →
      t' = t ∧ c = s.numPcbs ∧ id' = id ∨
        t' ≠ t ∧ (s.threads t').point.forking = some (c, id') := by
    intro t' c id' h
    rw [hmoves.point] at h
    split_ifs at h with heq
    · obtain ⟨rfl, rfl⟩ := Prod.mk.inj (Option.some.inj h)
      exact .inl ⟨heq, rfl, rfl⟩
    · exact .inr ⟨heq, h⟩
  refine ⟨by rw [hnew.bm, BitMap.numBits_mark, BitMap.numBits_mark, hs.numBits],
    ?_, ?_, ?_, ?_, ?_, ?_, ?_, ?_⟩
  · intro i hi hbit
    by_cases heq : i = id
    · exact ⟨s.numPcbs, heq ▸ hnew.occupied hs.numBits⟩
    · rw [hnew.test] at hbit
      obtain ⟨c, hocc⟩ := hs.slots i hi (by simpa [heq] using hbit)
      exact ⟨c, hocc.newSlot hnew⟩
  · intro t' ht' hexited
    rw [hmoves.numThreads] at ht'
    rw [hmoves.exited] at hexited
    rw [hmoves.processID, hmoves.own]
    exact (hs.live t' ht' hexited).newSlot hnew
  · intro t' ht'
    rw [hmoves.numThreads] at ht'
    rw [hmoves.own, hnew.numPcbs]
    exact Nat.lt_succ_of_lt (hs.constructed t' ht')
  · intro t' t'' ht' ht'' heq
    rw [hmoves.numThreads] at ht' ht''
    rw [hmoves.own, hmoves.own] at heq
    exact hs.own_inj t' t'' ht' ht'' heq
  · intro t' ht' hexited
    rw [hmoves.numThreads] at ht'
    rw [hmoves.exited] at hexited
    have hne : t' ≠ t := by
      rintro rfl
      rw [hlive] at hexited
      cases hexited
    rw [hmoves.point, if_neg hne]
    exact hs.exited t' ht' hexited
  · intro t' ht' pID ec h
    rw [hmoves.numThreads] at ht'
    rw [hmoves.processID]
    rw [hmoves.point] at h
    split_ifs at h with heq
    · cases h
    · exact hs.exiting t' ht' pID ec h
  · intro t' ht' c id' h
    rw [hmoves.numThreads] at ht'
    rcases hforking t' c id' h with ⟨-, rfl, rfl⟩ | ⟨-, hold⟩
    · refine ⟨hnew.occupied hs.numBits, fun u hu => ?_⟩
      rw [hmoves.numThreads] at hu
      rw [hmoves.own]
      exact Nat.ne_of_lt (hs.constructed u hu)
    · obtain ⟨hocc, hnone⟩ := hs.forking t' ht' c id' hold
      refine ⟨hocc.newSlot hnew, fun u hu => ?_⟩
      rw [hmoves.numThreads] at hu
      rw [hmoves.own]
      exact hnone u hu
  · intro t' t'' ht' ht'' c id' id'' h h'
    rw [hmoves.numThreads] at ht' ht''
    rcases hforking t' c id' h with ⟨rfl, rfl, -⟩ | ⟨-, hold⟩ <;>
      rcases hforking t'' _ id'' h' with ⟨rfl, heq, -⟩ | ⟨-, hold'⟩
    · rfl
    · exact absurd (hs.forking t'' ht'' _ _ hold').1.constructed (Nat.lt_irrefl _)
    · exact absurd (heq ▸ (hs.forking t' ht' _ _ hold).1.constructed) (Nat.lt_irrefl _)
    · exact hs.forking_inj t' t'' ht' ht'' c id' id'' hold hold'

/-- The thread that `Fork` makes. -/
theorem fork_new (ht : t < s.numThreads) (c : PcbId) (id : Nat) (filename : String) :
    ((s.fork c id filename).goto t (.execMutexV c id)).threads s.numThreads =
      { name := filename, processID := id, point := .myStartProcess, own := c } := by
  rw [State.goto, setThread_threads, update_of_ne (Nat.ne_of_gt ht), fork_threads, update_self]

/-- Of the other threads, only the one that calls `Fork` has moved. -/
theorem fork_old (ht : t < s.numThreads) (c : PcbId) (id : Nat) (filename : String) {u : Tid}
    (hu : u < s.numThreads) :
    ((s.fork c id filename).goto t (.execMutexV c id)).threads u =
      if u = t then { s.threads t with point := .execMutexV c id } else s.threads u := by
  have hu' : u ≠ s.numThreads := Nat.ne_of_lt hu
  have ht' : t ≠ s.numThreads := Nat.ne_of_lt ht
  by_cases heq : u = t
  · subst heq
    simp [State.goto, hu']
  · simp [State.goto, heq, hu']

theorem Owned.fork (hs : Owned s) (ht : t < s.numThreads) {c : PcbId} {id : Nat}
    {filename : String} (hpt : (s.threads t).point = .execFork c id filename)
    (hlive : (s.threads t).exited = false) :
    Owned ((s.fork c id filename).goto t (.execMutexV c id)) := by
  obtain ⟨hocc, hnone⟩ := hs.forking t ht c id (by rw [hpt]; rfl)
  have htable : SameTable s ((s.fork c id filename).goto t (.execMutexV c id)) :=
    .of_update rfl rfl rfl rfl rfl rfl rfl
  set s' := (s.fork c id filename).goto t (.execMutexV c id) with hs'
  have hnew := fork_new ht c id filename
  have hold := fun u (hu : u < s.numThreads) => fork_old ht c id filename hu
  rw [← hs'] at hnew
  simp only [← hs'] at hold
  have hown : ∀ u, u < s.numThreads → (s'.threads u).own = (s.threads u).own := by
    intro u hu
    rw [hold u hu]
    split_ifs with heq
    · rw [heq]
    · rfl
  have hpid : ∀ u, u < s.numThreads → (s'.threads u).processID = (s.threads u).processID := by
    intro u hu
    rw [hold u hu]
    split_ifs with heq
    · rw [heq]
    · rfl
  have hcases : ∀ u, u < s'.numThreads → u < s.numThreads ∨ u = s.numThreads := by
    intro u hu
    exact Nat.lt_succ_iff_lt_or_eq.mp hu
  have hforking : ∀ u, u < s'.numThreads → ∀ c' id', (s'.threads u).point.forking = some (c', id') →
      u < s.numThreads ∧ u ≠ t ∧ (s.threads u).point.forking = some (c', id') := by
    intro u hu c' id' h
    rcases hcases u hu with hlt | rfl
    · rw [hold u hlt] at h
      split_ifs at h with heq
      · cases h
      · exact ⟨hlt, heq, h⟩
    · rw [hnew] at h
      cases h
  refine ⟨hs.numBits, ?_, ?_, ?_, ?_, ?_, ?_, ?_, ?_⟩
  · intro i hi hbit
    obtain ⟨c', hocc'⟩ := hs.slots i hi hbit
    exact ⟨c', hocc'.sameTable htable⟩
  · intro u hu hexited
    rcases hcases u hu with hlt | rfl
    · rw [hpid u hlt, hown u hlt]
      refine (hs.live u hlt ?_).sameTable htable
      rw [hold u hlt] at hexited
      split_ifs at hexited with heq
      · rw [heq, hlive]
      · exact hexited
    · rw [hnew]
      exact hocc.sameTable htable
  · intro u hu
    rcases hcases u hu with hlt | rfl
    · rw [hown u hlt]
      exact hs.constructed u hlt
    · rw [hnew]
      exact hocc.constructed
  · intro u u' hu hu' heq
    rcases hcases u hu with hlt | rfl <;> rcases hcases u' hu' with hlt' | rfl
    · rw [hown u hlt, hown u' hlt'] at heq
      exact hs.own_inj u u' hlt hlt' heq
    · rw [hown u hlt, hnew] at heq
      exact absurd heq (hnone u hlt)
    · rw [hown u' hlt', hnew] at heq
      exact absurd heq.symm (hnone u' hlt')
    · rfl
  · intro u hu hexited
    rcases hcases u hu with hlt | rfl
    · rw [hold u hlt] at hexited ⊢
      split_ifs at hexited ⊢ with heq
      · rw [hlive] at hexited
        cases hexited
      · exact hs.exited u hlt hexited
    · rw [hnew] at hexited
      cases hexited
  · intro u hu pID ec h
    rcases hcases u hu with hlt | rfl
    · rw [hpid u hlt]
      rw [hold u hlt] at h
      split_ifs at h with heq
      · cases h
      · exact hs.exiting u hlt pID ec h
    · rw [hnew] at h
      cases h
  · intro u hu c' id' h
    obtain ⟨hlt, hut, hold'⟩ := hforking u hu c' id' h
    obtain ⟨hocc', hnone'⟩ := hs.forking u hlt c' id' hold'
    refine ⟨hocc'.sameTable htable, fun u' hu' => ?_⟩
    rcases hcases u' hu' with hlt' | rfl
    · rw [hown u' hlt']
      exact hnone' u' hlt'
    · rw [hnew]
      rintro rfl
      exact hut (hs.forking_inj u t hlt ht _ _ _ hold' (by rw [hpt]; rfl))
  · intro u u' hu hu' c' id' id'' h h'
    obtain ⟨hlt, -, hold'⟩ := hforking u hu c' id' h
    obtain ⟨hlt', -, hold''⟩ := hforking u' hu' c' id'' h'
    exact hs.forking_inj u u' hlt hlt' c' id' id'' hold' hold''

/-- The threads after the return from `ExitUpdate`. -/
theorem exitReturn_threads (s : State) (t : Tid) (pID : Nat) :
    (s.exitReturn t pID).threads =
      update s.threads t { s.threads t with point := .user, exited := true } := by
  simp [State.exitReturn]

/-- The return from `ExitUpdate` of a thread that owns its slot. -/
theorem Occupied.exitReturn {pID : Nat} {c : PcbId} (hocc : Occupied s pID c) (t : Tid) :
    s.exitReturn t pID = { s with
      bm := s.bm.clear pID
      heap := update s.heap c { s.heap c with deleted := true }
      threads := update s.threads t { s.threads t with point := .user, exited := true } } := by
  rw [State.exitReturn, remove_alive s hocc.range hocc.bit hocc.pcb hocc.alive]
  rfl

/-- Only the slot that is removed changes hands. -/
theorem Occupied.remove {pID i : Nat} {c c' : PcbId} (hocc : Occupied s pID c)
    (hbits : s.bm.numBits = maxProcess) (h : Occupied s i c') (hne : c' ≠ c) (t : Tid) :
    Occupied (s.exitReturn t pID) i c' := by
  have hslot : i ≠ pID := by
    rintro rfl
    exact hne (h.unique hocc)
  have hrange : pID < s.bm.numBits := by
    rw [hbits]
    exact Nat.lt_succ_of_le hocc.range
  rw [hocc.exitReturn t]
  refine ⟨h.range, ?_, h.pcb, h.constructed, ?_, ?_⟩
  · simp [BitMap.test_clear s.bm hrange, hslot, h.bit]
  · simp [hne, h.alive]
  · simp [hne, h.pid]

theorem Owned.exitReturn (hs : Owned s) (ht : t < s.numThreads)
    (hlive : (s.threads t).exited = false) : Owned (s.exitReturn t (s.threads t).processID) := by
  have hocc := hs.live t ht hlive
  have hrange : (s.threads t).processID < s.bm.numBits := by
    rw [hs.numBits]
    exact Nat.lt_succ_of_le hocc.range
  have hmine : ∀ u, u < s.numThreads → u ≠ t → (s.threads u).own ≠ (s.threads t).own :=
    fun u hu hne heq => hne (hs.own_inj u t hu ht heq)
  have hkeep : ∀ i c, Occupied s i c → c ≠ (s.threads t).own →
      Occupied (s.exitReturn t (s.threads t).processID) i c :=
    fun i c h hne => hocc.remove hs.numBits h hne t
  have heq := hocc.exitReturn t
  refine ⟨?_, ?_, ?_, ?_, ?_, ?_, ?_, ?_, ?_⟩
  · rw [heq]
    exact hs.numBits
  · intro i hi hbit
    have hbit' : i ≠ (s.threads t).processID ∧ s.bm.test i = true := by
      simpa [heq, BitMap.test_clear s.bm hrange] using hbit
    obtain ⟨c, h⟩ := hs.slots i hi hbit'.2
    refine ⟨c, hkeep i c h ?_⟩
    rintro rfl
    exact hbit'.1 (h.pid.symm.trans hocc.pid)
  · intro u hu hexited
    by_cases hut : u = t
    · subst hut
      simp [heq] at hexited
    · simp only [heq, update_of_ne hut] at hu hexited ⊢
      rw [← heq]
      exact hkeep _ _ (hs.live u hu hexited) (hmine u hu hut)
  · intro u hu
    rw [heq] at hu ⊢
    by_cases hut : u = t
    · subst hut
      simpa using hs.constructed u hu
    · simpa [hut] using hs.constructed u hu
  · intro u u' hu hu' howns
    refine hs.own_inj u u' (by rw [heq] at hu; exact hu) (by rw [heq] at hu'; exact hu') ?_
    have hown : ∀ v, ((s.exitReturn t (s.threads t).processID).threads v).own =
        (s.threads v).own := by
      intro v
      rw [heq]
      by_cases hvt : v = t
      · subst hvt
        simp
      · simp [hvt]
    rw [hown, hown] at howns
    exact howns
  · intro u hu hexited
    by_cases hut : u = t
    · subst hut
      simp [heq]
    · simp only [heq, update_of_ne hut] at hu hexited ⊢
      exact hs.exited u hu hexited
  · intro u hu pID ec h
    by_cases hut : u = t
    · subst hut
      simp [heq, Point.exiting] at h
    · simp only [heq, update_of_ne hut] at hu h ⊢
      exact hs.exiting u hu pID ec h
  · intro u hu c id h
    by_cases hut : u = t
    · subst hut
      simp [heq, Point.forking] at h
    · have h' : (s.threads u).point.forking = some (c, id) := by simpa [heq, hut] using h
      have hu' : u < s.numThreads := by simpa [heq] using hu
      obtain ⟨hocc', hnone⟩ := hs.forking u hu' c id h'
      refine ⟨hkeep id c hocc' (hnone t ht).symm, fun v hv => ?_⟩
      rw [heq] at hv ⊢
      by_cases hvt : v = t
      · subst hvt
        simpa using hnone v hv
      · simpa [hvt] using hnone v hv
  · intro u u' hu hu' c id id' h h'
    by_cases hut : u = t
    · subst hut
      simp [heq, Point.forking] at h
    · by_cases hut' : u' = t
      · subst hut'
        simp [heq, Point.forking] at h'
      · simp only [heq, update_of_ne hut, update_of_ne hut'] at hu hu' h h'
        exact hs.forking_inj u u' hu hu' c id id' h h'

theorem lt_of_runnable (h : s.runnable t = true) : t < s.numThreads := by
  simp only [runnable, decide_eq_true_eq] at h
  exact h.2.1

/-- A thread that has exited takes no step that changes anything, unless it makes a late call. -/
theorem Owned.live_of_step (hs : Owned s) {l : Label} (hlate : lateCall s l = false)
    (h : step s l = some s') :
    (s.threads l.thread).exited = false ∨ s' = s ∨ s' = s.stop .halted := by
  have ht := lt_of_runnable (step_trans h).1
  cases hexited : (s.threads l.thread).exited with
  | false => exact .inl rfl
  | true =>
    refine .inr ?_
    have huser := hs.exited _ ht hexited
    cases l with
    | resume t file =>
      simp only [step] at h
      split_ifs at h with hrun
      exact absurd huser hrun.2
    | call t c =>
      simp only [step] at h
      split_ifs at h
      obtain rfl := Option.some.inj h
      simp only [Label.thread] at hexited
      cases c with
      | other => exact .inl rfl
      | halt => exact .inr rfl
      | exec filename => simp [lateCall, hexited, Call.isProcess] at hlate
      | join pID => simp [lateCall, hexited, Call.isProcess] at hlate
      | exit ec => simp [lateCall, hexited, Call.isProcess] at hlate

theorem Owned.of_stop (hs : Owned s) (why : Stop) : Owned (s.stop why) :=
  hs.quiet (.of_eq rfl rfl rfl rfl) (t := 0) (.of_eq (by rfl) (by rfl) 0) (.same s 0) (.inr rfl)

/-- `SetExitCode` leaves slots and threads as they are. -/
theorem Owned.setExitCode (hs : Owned s) (t : Tid) (c : PcbId) (ec : Int) :
    Owned (s.setExitCode t c ec) :=
  hs.quiet (.of_update rfl rfl rfl rfl rfl rfl rfl) (t := 0) (.of_eq (by rfl) (by rfl) 0)
    (.same s 0) (.inr rfl)

/-- Every step that is not a late call keeps the ownership of slots. -/
theorem Owned.step (hs : Owned s) {l : Label} (hlate : lateCall s l = false)
    (h : step s l = some s') : Owned s' := by
  obtain ⟨hrun, htrans⟩ := step_trans h
  have ht := lt_of_runnable hrun
  rcases hs.live_of_step hlate h with hlive | rfl | rfl
  · rcases trans_shape htrans with ⟨htable, pt, hmoves, hpt⟩ | ⟨id, filename, hnew, hmoves⟩ |
      ⟨c, id, filename, hpt, rfl⟩ | ⟨c, ec, hpt, hmain, hrem, hpcb, rfl⟩ | ⟨pID, ec, hpt, hrem, rfl⟩
    · exact hs.quiet htable hmoves hpt (.inl hlive)
    · exact hs.newSlot hnew hmoves hlive
    · exact hs.fork ht hpt hlive
    · exact (hs.setExitCode _ c ec).exitReturn ht hlive
    · obtain ⟨rfl, -⟩ := hs.exiting _ ht pID ec (by rw [hpt]; rfl)
      exact hs.exitReturn ht hlive
  · exact hs
  · exact hs.of_stop _

/-! ## Exit is not final -/

/-- As long as no exit has completed. -/
structure NoneExited (s : State) : Prop where
  owned : Owned s
  live : ∀ t, t < s.numThreads → (s.threads t).exited = false

theorem NoneExited.userOwned (hs : NoneExited s) : UserOwned s := by
  intro t hrun _
  have ht := lt_of_runnable hrun
  have hocc := hs.owned.live t ht (hs.live t ht)
  exact ⟨hocc.bit, hocc.pcb⟩

theorem NoneExited.step (hs : NoneExited s) {l : Label} (hkeep : removing s l = none)
    (h : step s l = some s') : NoneExited s' := by
  obtain ⟨hrun, htrans⟩ := step_trans h
  have ht := lt_of_runnable hrun
  have hlate : lateCall s l = false := by
    cases l with
    | call t c =>
      rw [lateCall, hs.live t ht]
      rfl
    | resume t file => rfl
  refine ⟨hs.owned.step hlate h, ?_⟩
  rcases trans_shape htrans with ⟨-, pt, hmoves, -⟩ | ⟨id, filename, -, hmoves⟩ |
    ⟨c, id, filename, hpt, rfl⟩ | ⟨c, ec, hpt, hmain, hrem, hpcb, rfl⟩ | ⟨pID, ec, hpt, hrem, rfl⟩
  · intro u hu
    rw [hmoves.exited]
    exact hs.live u (hmoves.numThreads ▸ hu)
  · intro u hu
    rw [hmoves.exited]
    exact hs.live u (hmoves.numThreads ▸ hu)
  · intro u hu
    simp only [State.goto, setThread_threads, setThread_numThreads, fork_threads, fork_numThreads,
      update_of_ne (Nat.ne_of_lt ht), update_apply] at hu ⊢
    split_ifs
    · exact hs.live _ ht
    · rfl
    · exact hs.live u (Nat.lt_of_le_of_ne (Nat.le_of_lt_succ hu) ‹_›)
  · rw [hkeep] at hrem
    cases hrem
  · obtain ⟨rfl, -⟩ := hs.owned.exiting _ ht pID ec (by rw [hpt]; rfl)
    have hocc := hs.owned.live _ ht (hs.live _ ht)
    rw [hkeep, if_pos ((s.isExist_iff _).mpr ⟨hocc.range, hocc.bit⟩)] at hrem
    cases hrem

/-- After the return from `ExitUpdate` the thread is about to run user code without a slot. -/
theorem not_userOwned_exitReturn {pID : Nat} {c : PcbId} (hrun : s.runnable t = true)
    (hbits : s.bm.numBits = maxProcess) (hpID : pID = (s.threads t).processID)
    (hocc : Occupied s pID c) : ¬ UserOwned (s.exitReturn t pID) := by
  intro howned
  have hrange : pID < s.bm.numBits := by
    rw [hbits]
    exact Nat.lt_succ_of_le hocc.range
  rw [hocc.exitReturn t] at howned
  have hbit := (howned t (by simpa [runnable] using hrun) (by simp)).1
  simp only [update_self, ← hpID, BitMap.test_clear s.bm hrange] at hbit
  simp at hbit

theorem NoneExited.not_userOwned (hs : NoneExited s) {l : Label} (hrem : removing s l ≠ none)
    (h : Userprog.step s l = some s') : ¬ UserOwned s' := by
  obtain ⟨i, hi⟩ := Option.ne_none_iff_exists'.mp hrem
  have hrun := (step_trans h).1
  have ht := lt_of_runnable hrun
  have hocc := hs.owned.live _ ht (hs.live _ ht)
  obtain ⟨h9, hbit, ⟨⟨ec, hpt⟩, rfl⟩ | ⟨hpID, -, c, ec, hpcb, halive, -, rfl⟩⟩ :=
    step_removing h hi
  · have hpID := (hs.owned.exiting _ ht i ec (by rw [hpt]; rfl)).1
    exact not_userOwned_exitReturn hrun hs.owned.numBits hpID (hpID ▸ hocc)
  · exact not_userOwned_exitReturn (s := s.setExitCode l.thread c ec) hrun hs.owned.numBits hpID
      (hpID ▸ (hs.owned.setExitCode l.thread c ec).live _ ht (hs.live _ ht))

/-- In every run of any processes, every thread that is about to run user code owns its slot in
every state exactly when no step completes an `SC_Exit` of a process other than "main". -/
theorem userOwned_iff (ls : List Label) :
    Runs.AllStates step UserOwned boot ls ↔
      Runs.AllSteps step (fun s l => removing s l = none) boot ls := by
  have hboot : NoneExited boot := by
    refine ⟨Owned.boot, fun t _ => ?_⟩
    by_cases ht : t = 0 <;> simp [boot, ht]
  exact Runs.allStates_iff_allSteps (fun _ hs => hs.userOwned)
    (fun _ _ _ hs hkeep h => hs.step hkeep h) (fun _ _ _ hs hrem h => hs.not_userOwned hrem h)
    hboot ls

/-- The child of `exitRun` goes on in user code after its exit. -/
theorem not_userOwned_exitRun : ¬ Runs.AllStates step UserOwned boot exitRun := by
  intro h
  have hrun : (Runs.run step boot exitRun).map
      (fun s => (s.runnable 1, (s.threads 1).point, (s.threads 1).processID, s.bm.test 1)) =
      some (true, .user, 1, false) := by decide +kernel
  obtain ⟨s, hs, hslot⟩ := Option.map_eq_some_iff.mp hrun
  simp only [Prod.mk.injEq] at hslot
  obtain ⟨hrunnable, hpt, hpid, hbit⟩ := hslot
  have howned := (h.of_run hs 1 hrunnable hpt).1
  rw [hpid, hbit] at howned
  cases howned

end Nachos.Userprog
