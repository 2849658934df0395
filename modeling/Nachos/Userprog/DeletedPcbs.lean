import Nachos.Userprog.ExecSlots
import Nachos.Userprog.ExitRelease

/-!
# Accesses to deleted PCBs

`ExecUpdate`, `JoinUpdate` and `ExitUpdate` work on a PCB over several points where threads can
switch, and `Remove` deletes it in the middle of a step of another thread. `touched` says which
PCB a step accesses; `NoDangling` says that every step that could come next accesses a PCB that
has not been deleted.

The child that `Fork` has made ready can run to its exit before its creator gets back to
`mutex->V()` in `PCB::Exec` (`preemptedRun`); a thread that has exited and calls `SC_Exit` again
can remove the slot of another process. In a run, no step can ever access a deleted PCB exactly
when no step removes a slot that another thread that is awake is still working on
(`noDangling_iff`).
-/

namespace Nachos.Userprog

open Function (update update_of_ne update_self update_apply)
open Threads (Tid Semaphore)
open State

/-- The PCB, among those that exist before the step, whose fields or semaphores the step accesses:
that of `this` or of `pcb[pID]`. -/
def touched (s : State) : Label → Option PcbId
  | .call t c =>
    match c with
    | .join pID => if 0 < pID ∧ pID ≤ 9 ∧ s.isExist pID.toNat then s.pcb pID.toNat else none
    | .exit _ =>
      if s.isExist (s.threads t).processID ∧ (s.threads t).processID ≠ 0 then
        s.pcb (s.threads t).processID
      else none
    | .other | .halt | .exec _ => none
  | .resume t _ =>
    match (s.threads t).point with
    -- `GetName`
    | .myStartProcess =>
      if s.isExist (s.threads t).processID then s.pcb (s.threads t).processID else none
    | .execMutexP c _ _ | .execFork c _ _ | .execMutexV c _ | .joinP c _ _ | .exitP c _ _ => some c
    | .joinRead _ pID _ | .exitWait pID _ => s.pcb pID
    | .exitRemove pID _ => if s.isExist pID then s.pcb pID else none
    | .startProcess | .user | .execP _ | .execBody _ | .execV _ _ => none

/-- Whatever step comes next, it does not access a deleted PCB. -/
def NoDangling (s : State) : Prop :=
  ∀ l, (step s l).isSome → ∀ c, touched s l = some c → (s.heap c).deleted = false

/-- The slot that the thread goes on working on. -/
def Point.slot : Point → Option Nat
  | .execMutexP _ id _ | .execFork _ id _ | .execMutexV _ id => some id
  | .joinP _ pID _ | .joinRead _ pID _ | .exitWait pID _ | .exitP _ pID _ => some pID
  | _ => none

/-- The PCB whose member function the thread is in. -/
def Point.object : Point → Option PcbId
  | .execMutexP c _ _ | .execFork c _ _ | .execMutexV c _ | .joinP c _ _ | .exitP c _ _ => some c
  | _ => none

/-- When the step removes a slot, no other thread that is awake is still working on it. -/
def RemovesUnused (s : State) (l : Label) : Prop :=
  ∀ i, removing s l = some i → ∀ u, u < s.numThreads → u ≠ l.thread →
    (s.threads u).blocked = false → (s.threads u).point.slot ≠ some i

variable {s s' : State} {t : Tid} {pt : Point} {l : Label}

/-- An access to a deleted PCB has no defined outcome. -/
theorem undefined_of_touched {c : PcbId} (h : step s l = some s') (htouch : touched s l = some c)
    (hdel : (s.heap c).deleted = true) : s'.stopped = some .undefined := by
  cases l with
  | call t call =>
    simp only [step] at h
    split_ifs at h
    obtain rfl := Option.some.inj h
    cases call with
    | other => cases htouch
    | halt => cases htouch
    | exec filename => cases htouch
    | join pID =>
      simp only [touched] at htouch
      split_ifs at htouch with hcond
      obtain ⟨hpos, hle, hexist⟩ := hcond
      have hexist' : (s.forget t pID).pcb pID.toNat = some c := by rw [forget_pcb, htouch]
      simp [State.call, scJoin, hexist, joinUpdate, hexist', hdel, not_lt.mpr hle,
        not_le.mpr hpos, not_lt.mpr hpos.le]
    | exit ec =>
      simp only [touched] at htouch
      split_ifs at htouch with hcond
      simp [State.call, exitUpdate, hcond.1, hcond.2, htouch, hdel]
  | resume t file =>
    simp only [step] at h
    split_ifs at h
    obtain rfl := Option.some.inj h
    simp only [touched] at htouch
    simp only [resume]
    split at htouch
    next hpt =>
      split_ifs at htouch
      simp [hpt, myStartProcess, htouch, hdel]
    next hpt => cases htouch; simp [hpt, hdel]
    next hpt => cases htouch; simp [hpt, execFork, hdel]
    next hpt => cases htouch; simp [hpt, execMutexV, hdel]
    next hpt => cases htouch; simp [hpt, hdel]
    next hpt => cases htouch; simp [hpt, hdel]
    next hpt => simp [hpt, joinRead, htouch, hdel]
    next hpt => simp [hpt, exitWait, htouch, hdel]
    next pID ec hpt =>
      split_ifs at htouch with hexist
      obtain ⟨hle, hbit⟩ := (s.isExist_iff _).mp hexist
      simp [hpt, exitReturn, remove, delete, hbit, not_lt.mpr hle, htouch, hdel]
    all_goals cases htouch

/-! ## The invariant -/

/-- The slot that a thread at `pt` works on is occupied, by the PCB whose member function it is
in. -/
def Holds (s : State) (pt : Point) : Prop :=
  ∀ i, pt.slot = some i → ∃ c, Occupied s i c ∧ ∀ c', pt.object = some c' → c' = c

/-- A thread at `pt` is in a member function of a PCB that belongs to the slot. -/
def Belongs (s : State) (pt : Point) : Prop :=
  ∀ c, pt.object = some c → c < s.numPcbs ∧ pt.slot = some (s.heap c).pid

structure PcbInv (s : State) : Prop where
  table : TableInv s
  parked : Parked s
  alive : ∀ c, c < s.numPcbs → (s.heap c).deleted = false → Occupied s (s.heap c).pid c
  belongs : ∀ t, t < s.numThreads → Belongs s (s.threads t).point
  holds : ∀ t, t < s.numThreads → (s.threads t).blocked = false → Holds s (s.threads t).point

theorem Holds.of_none (h : pt.slot = none) : Holds s pt := fun i hi => by
  rw [h] at hi
  cases hi

theorem Belongs.of_none (h : pt.object = none) : Belongs s pt := fun c hc => by
  rw [h] at hc
  cases hc

theorem Holds.of_occupied {i : Nat} {c : PcbId} (hocc : Occupied s i c) (hslot : pt.slot = some i)
    (hobject : pt.object = none ∨ pt.object = some c) : Holds s pt := by
  intro i' hi'
  rw [hslot] at hi'
  cases hi'
  refine ⟨c, hocc, fun c' hc' => ?_⟩
  rcases hobject with hnone | hsome
  · rw [hnone] at hc'
    cases hc'
  · rw [hsome] at hc'
    exact (Option.some.inj hc').symm

theorem Belongs.of_occupied {i : Nat} {c : PcbId} (hocc : Occupied s i c)
    (hslot : pt.slot = some i) (hobject : pt.object = none ∨ pt.object = some c) :
    Belongs s pt := by
  intro c' hc'
  rcases hobject with hnone | hsome
  · rw [hnone] at hc'
    cases hc'
  · rw [hsome] at hc'
    cases hc'
    exact ⟨hocc.constructed, by rw [hslot, hocc.pid]⟩

theorem Holds.sameTable (h : Holds s pt) (htable : SameTable s s') : Holds s' pt := by
  intro i hi
  obtain ⟨c, hocc, hobject⟩ := h i hi
  exact ⟨c, hocc.sameTable htable, hobject⟩

theorem Belongs.sameTable (h : Belongs s pt) (htable : SameTable s s') : Belongs s' pt := by
  intro c hc
  rw [htable.numPcbs, htable.pid]
  exact h c hc

theorem PcbInv.waitsConstructed (hs : PcbInv s) : WaitsConstructed s := by
  intro t ht r hwaits c hr
  have hobject : (s.threads t).point.object = some c := by
    cases hpt : (s.threads t).point <;> rw [hpt] at hwaits <;> cases hwaits <;> cases hr <;> rfl
  exact (hs.belongs t ht c hobject).1

/-- A thread in the queue of a live PCB works on its slot. -/
theorem PcbInv.queued_holds (hs : PcbInv s) {r : SemRef} {u : Tid} (hu : u ∈ (s.sems r).queue)
    (halive : ∀ c, r.owner = some c → (s.heap c).deleted = false) :
    Holds s (s.threads u).point := by
  obtain ⟨hlt, hwaits, -⟩ := hs.parked.waits r u hu
  have hbelongs := hs.belongs u hlt
  cases hpt : (s.threads u).point <;> rw [hpt] at hwaits <;> cases hwaits
  next filename => exact .of_none rfl
  all_goals
    rw [hpt] at hbelongs
    obtain ⟨hcons, hslot⟩ := hbelongs _ rfl
    exact .of_occupied (hs.alive _ hcons (halive _ rfl)) hslot (.inr rfl)

theorem blocked_of_runnable (h : s.runnable t = true) : (s.threads t).blocked = false := by
  simp only [runnable, decide_eq_true_eq] at h
  exact h.2.2

/-- A step that leaves the table alone: the thread that moves and those that it wakes work on
occupied slots. -/
theorem PcbInv.sameTable (hs : PcbInv s) (h : step s l = some s') (htable : SameTable s s')
    (hmoves : Moves s s' l.thread pt) (hbelongs : Belongs s pt) (hholds : Holds s pt)
    (hwake : ∀ u, u < s.numThreads → u ≠ l.thread → (s'.threads u).blocked = false →
      (s.threads u).blocked = false ∨ Holds s (s.threads u).point) : PcbInv s' := by
  refine ⟨hs.table.step h, hs.parked.step hs.waitsConstructed h, ?_, ?_, ?_⟩
  · intro c hc halive
    rw [htable.numPcbs] at hc
    rw [htable.deleted] at halive
    rw [htable.pid]
    exact (hs.alive c hc halive).sameTable htable
  · intro u hu
    rw [hmoves.numThreads] at hu
    rw [hmoves.point]
    split_ifs
    · exact hbelongs.sameTable htable
    · exact (hs.belongs u hu).sameTable htable
  · intro u hu hawake
    rw [hmoves.numThreads] at hu
    rw [hmoves.point]
    split_ifs with hut
    · exact hholds.sameTable htable
    · rcases hwake u hu hut hawake with hbefore | hnow
      · exact (hs.holds u hu hbefore).sameTable htable
      · exact hnow.sameTable htable

/-- A step that changes no thread but its own wakes nobody. -/
theorem wakes_of_eq (hthreads : ∀ u, u ≠ t → (s'.threads u).blocked = (s.threads u).blocked) :
    ∀ u, u < s.numThreads → u ≠ t → (s'.threads u).blocked = false →
      (s.threads u).blocked = false ∨ Holds s (s.threads u).point := by
  intro u _ hut hawake
  exact .inl ((hthreads u hut).symm.trans hawake)

theorem wakes_of_update {th : Thread} (hthreads : s'.threads = update s.threads t th) :
    ∀ u, u < s.numThreads → u ≠ t → (s'.threads u).blocked = false →
      (s.threads u).blocked = false ∨ Holds s (s.threads u).point :=
  wakes_of_eq fun u hut => by rw [hthreads, update_of_ne hut]

/-- `V` wakes a thread that waits for it. -/
theorem PcbInv.wakes_of_v (hs : PcbInv s) {r : SemRef}
    (halive : ∀ c, r.owner = some c → (s.heap c).deleted = false)
    (hthreads : ∀ u, u ≠ t → (s'.threads u).blocked = ((s.v r).threads u).blocked) :
    ∀ u, u < s.numThreads → u ≠ t → (s'.threads u).blocked = false →
      (s.threads u).blocked = false ∨ Holds s (s.threads u).point := by
  intro u _ hut hawake
  rw [hthreads u hut, v_threads] at hawake
  simp only at hawake
  split_ifs at hawake with hhead
  · exact .inr (hs.queued_holds (List.mem_of_mem_head? hhead) halive)
  · exact .inl hawake

theorem belongs_holds_ite {w n : Point} (hw : Belongs s w ∧ Holds s w)
    (hn : Belongs s n ∧ Holds s n) (b : Prop) [Decidable b] :
    Belongs s (if b then w else n) ∧ Holds s (if b then w else n) := by
  split_ifs
  · exact hw
  · exact hn

theorem PcbInv.p (hs : PcbInv s) {r : SemRef} {w n : Point}
    (h : step s l = some (s.p l.thread r w n)) (hw : Belongs s w ∧ Holds s w)
    (hn : Belongs s n ∧ Holds s n) : PcbInv (s.p l.thread r w n) := by
  have hpt := belongs_holds_ite hw hn ((s.sems r).value = 0)
  exact hs.sameTable h (.of_eq (by simp) (by simp) (by simp) (by simp)) (Moves.p s _ r w n) hpt.1
    hpt.2 (wakes_of_update (p_threads ..))

/-- A thread that is not working on a slot. -/
theorem calm (hslot : pt.slot = none) (hobject : pt.object = none) : Belongs s pt ∧ Holds s pt :=
  ⟨.of_none hobject, .of_none hslot⟩

theorem working {i : Nat} {c : PcbId} (hocc : Occupied s i c) (hslot : pt.slot = some i)
    (hobject : pt.object = none ∨ pt.object = some c) : Belongs s pt ∧ Holds s pt :=
  ⟨.of_occupied hocc hslot hobject, .of_occupied hocc hslot hobject⟩

/-- The PCB that the thread which is running works on. -/
theorem PcbInv.occupied (hs : PcbInv s) (hrun : s.runnable t = true) {i : Nat} {c : PcbId}
    (hslot : (s.threads t).point.slot = some i) (hobject : (s.threads t).point.object = some c) :
    Occupied s i c := by
  obtain ⟨c', hocc, heq⟩ := hs.holds t (lt_of_runnable hrun) (blocked_of_runnable hrun) i hslot
  rw [heq c hobject]
  exact hocc

/-- `pcb[pID]` of a slot whose bit is set. -/
theorem TableInv.occupied (hs : TableInv s) {i : Nat} {c : PcbId} (hi : i ≤ 9)
    (hbit : s.bm.test i = true) (hpcb : s.pcb i = some c) : Occupied s i c := by
  obtain ⟨c', hocc⟩ := hs.slots i (Nat.lt_succ_of_le hi) hbit
  have heq : c = c' := Option.some.inj (hpcb.symm.trans hocc.pcb)
  exact heq ▸ hocc

theorem PcbInv.newSlot (hs : PcbInv s) (h : step s l = some s') {id caller : Nat}
    {filename : String} (hnew : NewSlot s s' id caller)
    (hmoves : Moves s s' l.thread (.execFork s.numPcbs id filename))
    (hblocked : ∀ u, u ≠ l.thread → (s'.threads u).blocked = (s.threads u).blocked) :
    PcbInv s' := by
  have hocc : Occupied s' id s.numPcbs := hnew.occupied hs.table.numBits
  refine ⟨hs.table.step h, hs.parked.step hs.waitsConstructed h, ?_, ?_, ?_⟩
  · intro c hc halive
    rw [hnew.numPcbs] at hc
    rcases Nat.lt_succ_iff_lt_or_eq.mp hc with hlt | rfl
    · rw [hnew.heap, update_of_ne (Nat.ne_of_lt hlt)] at halive ⊢
      exact (hs.alive c hlt halive).newSlot hnew
    · rw [hocc.pid]
      exact hocc
  · intro u hu
    rw [hmoves.numThreads] at hu
    rw [hmoves.point]
    split_ifs
    · exact .of_occupied hocc rfl (.inr rfl)
    · intro c hc
      obtain ⟨hlt, hslot⟩ := hs.belongs u hu c hc
      rw [hnew.numPcbs, hnew.heap, update_of_ne (Nat.ne_of_lt hlt)]
      exact ⟨Nat.lt_succ_of_lt hlt, hslot⟩
  · intro u hu hawake
    rw [hmoves.numThreads] at hu
    rw [hmoves.point]
    split_ifs with hut
    · exact .of_occupied hocc rfl (.inr rfl)
    · intro i hi
      rw [hblocked u hut] at hawake
      obtain ⟨c, hocc', hobject⟩ := hs.holds u hu hawake i hi
      exact ⟨c, hocc'.newSlot hnew, hobject⟩

theorem PcbInv.fork (hs : PcbInv s) (hrun : s.runnable t = true) {c : PcbId} {id : Nat}
    {filename : String} (hpt : (s.threads t).point = .execFork c id filename) {file : Option NoffHeader}
    (h : step s (.resume t file) = some ((s.fork c id filename).goto t (.execMutexV c id))) :
    PcbInv ((s.fork c id filename).goto t (.execMutexV c id)) := by
  have ht := lt_of_runnable hrun
  have htable : SameTable s ((s.fork c id filename).goto t (.execMutexV c id)) :=
    .of_update rfl rfl rfl rfl rfl rfl rfl
  have hocc : Occupied s id c := hs.occupied hrun (by rw [hpt]; rfl) (by rw [hpt]; rfl)
  have hself : Belongs s (.execMutexV c id) ∧ Holds s (.execMutexV c id) :=
    working hocc rfl (.inr rfl)
  refine ⟨hs.table.step h, hs.parked.step hs.waitsConstructed h, ?_, ?_, ?_⟩
  · intro c' hc' halive
    rw [htable.deleted] at halive
    rw [htable.pid]
    exact (hs.alive c' hc' halive).sameTable htable
  · intro u hu
    refine Belongs.sameTable ?_ htable
    rcases Nat.lt_succ_iff_lt_or_eq.mp hu with hlt | rfl
    · rw [fork_old ht c id filename hlt]
      split_ifs
      · exact hself.1
      · exact hs.belongs u hlt
    · rw [fork_new ht]
      exact .of_none rfl
  · intro u hu hawake
    refine Holds.sameTable ?_ htable
    rcases Nat.lt_succ_iff_lt_or_eq.mp hu with hlt | rfl
    · rw [fork_old ht c id filename hlt] at hawake ⊢
      split_ifs at hawake ⊢
      · exact hself.2
      · exact hs.holds u hlt hawake
    · rw [fork_new ht]
      exact .of_none rfl

/-- `Remove` of a slot that no other thread works on, or of a slot that is free. -/
theorem PcbInv.exitReturn (hs : PcbInv s) (hawake : (s.threads t).blocked = false) {pID : Nat}
    (hmain : pID ≠ 0) (hunused : s.isExist pID = true → ∀ u, u < s.numThreads → u ≠ t →
      (s.threads u).blocked = false → (s.threads u).point.slot ≠ some pID) :
    PcbInv (s.exitReturn t pID) := by
  have hthreads := exitReturn_threads s t pID
  have hnum : (s.exitReturn t pID).numThreads = s.numThreads := by simp [State.exitReturn]
  have hpcbs : (s.exitReturn t pID).numPcbs = s.numPcbs := by simp [State.exitReturn]
  have hbelongs : ∀ pt, Belongs s pt → Belongs (s.exitReturn t pID) pt := by
    intro pt h c hc
    have hpid : ((s.exitReturn t pID).heap c).pid = (s.heap c).pid := by
      by_cases hset : pID ≤ 9 ∧ s.bm.test pID = true
      · obtain ⟨c₀, hocc⟩ := hs.table.slots pID (Nat.lt_succ_of_le hset.1) hset.2
        rw [hocc.exitReturn t]
        exact field_update PCB.pid (by rfl) c
      · rw [State.exitReturn, remove_of_clear s hset]
        rfl
    rw [hpcbs, hpid]
    exact h c hc
  -- the slots other than `pID` keep their PCBs
  have hkeep : ∀ i c, Occupied s i c → (s.isExist pID = true → i ≠ pID) →
      Occupied (s.exitReturn t pID) i c := by
    intro i c hocc hne
    by_cases hset : pID ≤ 9 ∧ s.bm.test pID = true
    · obtain ⟨c₀, hocc₀⟩ := hs.table.slots pID (Nat.lt_succ_of_le hset.1) hset.2
      refine hocc₀.remove hs.table.numBits hocc ?_ t
      rintro rfl
      exact hne ((s.isExist_iff pID).mpr hset) (hocc.pid.symm.trans hocc₀.pid)
    · have heq : s.exitReturn t pID =
          s.setThread t { s.threads t with point := .user, exited := true } := by
        rw [State.exitReturn, remove_of_clear s hset]
      rw [heq]
      exact hocc.sameTable (.of_eq rfl rfl rfl rfl)
  refine ⟨hs.table.exitReturn hmain, hs.parked.exitReturn hawake pID, ?_, ?_, ?_⟩
  · intro c hc halive
    rw [hpcbs] at hc
    by_cases hset : pID ≤ 9 ∧ s.bm.test pID = true
    · obtain ⟨c₀, hocc₀⟩ := hs.table.slots pID (Nat.lt_succ_of_le hset.1) hset.2
      have hne : c ≠ c₀ := by
        rintro rfl
        rw [hocc₀.exitReturn t] at halive
        simp at halive
      have hheap : (s.exitReturn t pID).heap c = s.heap c := by
        rw [hocc₀.exitReturn t]
        exact update_of_ne hne _ _
      rw [hheap] at halive ⊢
      have hocc := hs.alive c hc halive
      refine hkeep _ c hocc fun _ heq => hne ?_
      exact (heq ▸ hocc).unique hocc₀
    · have hheap : (s.exitReturn t pID).heap c = s.heap c := by
        rw [State.exitReturn, remove_of_clear s hset]
        rfl
      rw [hheap] at halive ⊢
      refine hkeep _ c (hs.alive c hc halive) fun hexist => ?_
      exact absurd ((s.isExist_iff pID).mp hexist) hset
  · intro u hu
    rw [hnum] at hu
    rw [hthreads, update_apply]
    split_ifs
    · exact .of_none rfl
    · exact hbelongs _ (hs.belongs u hu)
  · intro u hu hblocked
    rw [hnum] at hu
    rw [hthreads, update_apply] at hblocked ⊢
    split_ifs at hblocked ⊢ with hut
    · exact .of_none rfl
    · intro i hi
      obtain ⟨c, hocc, hobject⟩ := hs.holds u hu hblocked i hi
      refine ⟨c, hkeep i c hocc fun hexist heq => ?_, hobject⟩
      exact hunused hexist u hu hut hblocked (heq ▸ hi)

theorem PcbInv.setExitCode (hs : PcbInv s) (t : Tid) (c : PcbId) (ec : Int) :
    PcbInv (s.setExitCode t c ec) := by
  have htable : SameTable s (s.setExitCode t c ec) := .of_update rfl rfl rfl rfl rfl rfl rfl
  have hquiet : Quiet s (s.setExitCode t c ec) t :=
    ⟨htable, _, .of_eq (by rfl) (by rfl) _, .same s _⟩
  refine ⟨hs.table.quiet hquiet, hs.parked.setExitCode t c ec, ?_, ?_, ?_⟩
  · intro c' hc' halive
    rw [htable.deleted] at halive
    rw [htable.pid]
    exact (hs.alive c' hc' halive).sameTable htable
  · exact fun u hu => (hs.belongs u hu).sameTable htable
  · exact fun u hu hblocked => (hs.holds u hu hblocked).sameTable htable

theorem forget_threads_of_ne (pID : Int) {u : Tid} (hu : u ≠ t) :
    (s.forget t pID).threads u = s.threads u := by
  unfold forget
  split
  · rw [setThread_threads, update_of_ne hu]
  · rfl

theorem PcbInv.step (hs : PcbInv s) (hgood : RemovesUnused s l) (h : step s l = some s') :
    PcbInv s' := by
  obtain ⟨hrun, htrans⟩ := step_trans h
  have ht := lt_of_runnable hrun
  have hawake := blocked_of_runnable hrun
  have hself : Belongs s (s.threads l.thread).point ∧ Holds s (s.threads l.thread).point :=
    ⟨hs.belongs _ ht, hs.holds _ ht hawake⟩
  cases htrans with
  | other => exact hs
  | stop why =>
    exact hs.sameTable h (.of_eq rfl rfl rfl rfl) (.of_eq (by rfl) (by rfl) _) hself.1 hself.2
      (wakes_of_eq fun _ _ => rfl)
  | load hpt hframes =>
    exact hs.sameTable h (.of_eq rfl rfl rfl rfl)
      (.of_update (by rfl) (by rfl) (by rfl) (by rfl) (by rfl) (by rfl)) (calm rfl rfl).1 (calm rfl rfl).2
      (wakes_of_update rfl)
  | exec hpt => exact hs.p h (calm rfl rfl) (calm rfl rfl)
  | execP hpt => exact hs.p h (calm rfl rfl) (calm rfl rfl)
  | execFail hpt =>
    exact hs.sameTable h (.of_eq rfl rfl rfl rfl) (.goto s _ _) (calm rfl rfl).1 (calm rfl rfl).2
      (wakes_of_update rfl)
  | @execNew t file filename id hpt hid hfree =>
    refine hs.newSlot h ⟨hid, hfree, rfl, rfl, rfl, rfl⟩
      (.of_update (by rfl) (by rfl) (by rfl) (by rfl) (by rfl) (by rfl)) fun u (hu : u ≠ t) => ?_
    rw [take_threads, update_of_ne hu]
    rfl
  | mutexP hpt =>
    have hocc := hs.occupied hrun (by rw [Label.thread, hpt]; rfl) (by rw [Label.thread, hpt]; rfl)
    exact hs.p h (working hocc rfl (.inr rfl)) (working hocc rfl (.inr rfl))
  | fork hpt halive => exact hs.fork hrun hpt h
  | @mutexV t file c id hpt halive =>
    refine hs.sameTable h (.of_eq (by simp [State.goto]) (by simp [State.goto])
      (by simp [State.goto]) (by simp [State.goto])) ((Moves.v s _ _).trans (.goto _ _ _))
      (calm rfl rfl).1 (calm rfl rfl).2 (hs.wakes_of_v (r := .mutex c) ?_ fun u (hu : u ≠ t) => ?_)
    · rintro _ ⟨⟩
      exact halive
    · rw [State.goto, setThread_threads, update_of_ne hu]
  | @execV t file result child hpt =>
    have hmoves : Moves s ((s.v .bmsem).execReturn t result child) t .user :=
      (Moves.v s .bmsem t).trans
        (.of_update (by rfl) (by rfl) (by rfl) (by rfl) (by rfl) (by rfl))
    refine hs.sameTable h (.of_eq (by simp [execReturn]) (by simp [execReturn])
      (by simp [execReturn]) (by simp [execReturn])) hmoves (calm rfl rfl).1 (calm rfl rfl).2
      (hs.wakes_of_v (r := .bmsem) ?_ fun u (hu : u ≠ t) => ?_)
    · rintro _ ⟨⟩
    · simp [execReturn, hu]
  | @joinFail t pID hpt hfail =>
    have hmoves : Moves s ((s.forget t pID).joinReturn t (s.childOf t pID) (-1)) t .user :=
      (Moves.forget s t pID).trans
        (.of_update (by rfl) (by rfl) (by rfl) (by rfl) (by rfl) (by rfl))
    refine hs.sameTable h ((SameTable.forget s _ _).trans (.of_eq rfl rfl rfl rfl)) hmoves
      (calm rfl rfl).1 (calm rfl rfl).2 (wakes_of_eq fun u (hu : u ≠ t) => ?_)
    simp [joinReturn, State.goto, hu, forget_threads_of_ne pID hu]
  | @joinStop t pID why =>
    have hmoves := Moves.forget s t pID
    refine hs.sameTable h ((SameTable.forget s _ _).trans (.of_eq rfl rfl rfl rfl))
      ⟨hmoves.numThreads, hmoves.own, hmoves.processID, hmoves.exited, hmoves.point⟩ hself.1 hself.2
      (wakes_of_eq fun u (hu : u ≠ t) => ?_)
    rw [stop_threads, forget_threads_of_ne pID hu]
  | @joinWait t pID c hpt hrange hbit hpcb halive hparent =>
    have hocc : Occupied s pID.toNat c := hs.table.occupied (by omega) hbit hpcb
    have hw : Belongs s (.joinP c pID.toNat (s.childOf t pID)) ∧
        Holds s (.joinP c pID.toNat (s.childOf t pID)) := working hocc rfl (.inr rfl)
    have hn : Belongs s (.joinRead c pID.toNat (s.childOf t pID)) ∧
        Holds s (.joinRead c pID.toNat (s.childOf t pID)) := working hocc rfl (.inl rfl)
    refine hs.sameTable h ((SameTable.forget s _ _).trans (SameTable.joinWait _ _ _ _ _))
      ((Moves.forget s _ _).trans (.joinWait _ _ _ _ _))
      (belongs_holds_ite hw hn _).1 (belongs_holds_ite hw hn _).2 (wakes_of_eq fun u (hu : u ≠ t) => ?_)
    rw [State.joinWait, p_threads, update_of_ne hu, setPCB_threads, forget_threads_of_ne pID hu]
  | joinP hpt =>
    have hocc := hs.occupied hrun (by rw [Label.thread, hpt]; rfl) (by rw [Label.thread, hpt]; rfl)
    exact hs.p h (working hocc rfl (.inr rfl)) (working hocc rfl (.inl rfl))
  | joinError hpt hpcb halive hec =>
    exact hs.sameTable h (.of_eq rfl rfl rfl rfl)
      (.of_update (by rfl) (by rfl) (by rfl) (by rfl) (by rfl) (by rfl)) (calm rfl rfl).1 (calm rfl rfl).2
      (wakes_of_update rfl)
  | @joinOk t file c c' pID child hpt hpcb halive hec =>
    have hmoves : Moves s { (s.v (.exitsem c')).joinReturn t child 0 with
        released := c :: s.released } t .user :=
      (Moves.v s (.exitsem c') t).trans
        (.of_update (by rfl) (by rfl) (by rfl) (by rfl) (by rfl) (by rfl))
    refine hs.sameTable h (.of_eq (by simp [joinReturn, State.goto])
      (by simp [joinReturn, State.goto]) (by simp [joinReturn, State.goto])
      (by simp [joinReturn, State.goto])) hmoves (calm rfl rfl).1 (calm rfl rfl).2
      (hs.wakes_of_v (r := .exitsem c') ?_ fun u (hu : u ≠ t) => ?_)
    · rintro _ ⟨⟩
      exact halive
    · simp [joinReturn, State.goto, hu]
  | exitGone hpt hgone =>
    exact hs.sameTable h (.of_eq rfl rfl rfl rfl) (.goto s _ _) (calm rfl rfl).1 (calm rfl rfl).2
      (wakes_of_update rfl)
  | @exitAlone t ec c hpt hpID hbit hmain hpcb halive hjoin =>
    refine (hs.setExitCode t c ec).exitReturn hawake hmain fun _ => hgood _ ?_
    simp [removing, hpcb, isExist_iff, hpID, hbit, hmain, halive, hjoin]
  | @exitJoined t ec c hpt hpID hbit hmain hpcb halive hjoin =>
    have hocc : Occupied s (s.threads t).processID c := hs.table.occupied hpID hbit hpcb
    have hself' : Belongs s (.exitWait (s.threads t).processID ec) ∧
        Holds s (.exitWait (s.threads t).processID ec) := working hocc rfl (.inl rfl)
    refine hs.sameTable h (.of_update ?_ ?_ ?_ (joinRelease_setExitCode_heap s _ _ _) rfl rfl rfl)
      ((Moves.joinRelease s _ _ _ _).trans (.goto _ _ _)) hself'.1 hself'.2
      (hs.wakes_of_v (r := .joinsem c) ?_ fun u (hu : u ≠ t) => ?_)
    · simp [State.goto, joinRelease]
    · simp [State.goto, joinRelease]
    · simp [State.goto, joinRelease]
    · rintro _ ⟨⟩
      exact halive
    · rw [State.goto, setThread_threads, update_of_ne hu, joinRelease, v_threads, v_threads]
      rfl
  | exitWait hpt hpcb halive =>
    have hholds := hself.2
    rw [Label.thread, hpt] at hholds
    obtain ⟨c', hocc, -⟩ := hholds _ rfl
    have heq := Option.some.inj (hpcb.symm.trans hocc.pcb)
    exact hs.p h (working (heq ▸ hocc) rfl (.inr rfl)) (calm rfl rfl)
  | exitP hpt =>
    have hocc := hs.occupied hrun (by rw [Label.thread, hpt]; rfl) (by rw [Label.thread, hpt]; rfl)
    exact hs.p h (working hocc rfl (.inr rfl)) (calm rfl rfl)
  | @exitRemove t file pID ec hpt =>
    refine hs.exitReturn hawake (hs.table.exiting t ht pID ec (by rw [hpt]; rfl)) fun hexist =>
      hgood pID ?_
    simp [removing, hpt, hexist]

theorem PcbInv.boot : PcbInv boot := by
  refine ⟨TableInv.boot, ReleaseInv.boot.parked, ?_, ?_, ?_⟩
  · intro c hc _
    obtain rfl := Nat.lt_one_iff.mp hc
    exact Owned.boot.live 0 (by decide) rfl
  · intro t ht
    obtain rfl := Nat.lt_one_iff.mp ht
    exact .of_none rfl
  · intro t ht _
    obtain rfl := Nat.lt_one_iff.mp ht
    exact .of_none rfl

/-! ## Exactly when no deleted PCB is accessed -/

/-- A thread that is awake and works on a slot accesses the PCB of that slot next. -/
theorem touched_of_slot {u : Tid} {i : Nat} {c : PcbId} (hslot : (s.threads u).point.slot = some i)
    (hobject : ∀ c', (s.threads u).point.object = some c' → c' = c) (hpcb : s.pcb i = some c)
    (file : Option NoffHeader) : touched s (.resume u file) = some c := by
  simp only [touched]
  cases hpt : (s.threads u).point <;> rw [hpt] at hslot hobject <;> cases hslot <;>
    first
    | exact hpcb
    | exact congrArg some (hobject _ rfl)

theorem TableInv.touched_alive (hs : TableInv s) {i : Nat} {c : PcbId}
    (hexist : s.isExist i = true) (hpcb : s.pcb i = some c) : (s.heap c).deleted = false := by
  obtain ⟨hi, hbit⟩ := (s.isExist_iff i).mp hexist
  exact (hs.occupied hi hbit hpcb).alive

theorem PcbInv.noDangling (hs : PcbInv s) : NoDangling s := by
  intro l hsome c htouch
  obtain ⟨s', h⟩ := Option.isSome_iff_exists.mp hsome
  have hrun := (step_trans h).1
  cases l with
  | call t call =>
    simp only [touched] at htouch
    split at htouch
    next pID =>
      split_ifs at htouch with hcond
      exact hs.table.touched_alive hcond.2.2 htouch
    next ec =>
      split_ifs at htouch with hcond
      exact hs.table.touched_alive hcond.1 htouch
    all_goals cases htouch
  | resume t file =>
    cases hslot : (s.threads t).point.slot with
    | some i =>
      obtain ⟨c', hocc, hobject⟩ := hs.holds t (lt_of_runnable hrun) (blocked_of_runnable hrun) i hslot
      rw [touched_of_slot hslot hobject hocc.pcb] at htouch
      cases htouch
      exact hocc.alive
    | none =>
      cases hpt : (s.threads t).point with
      | myStartProcess =>
        simp only [touched, hpt] at htouch
        split_ifs at htouch with hexist
        exact hs.table.touched_alive hexist htouch
      | exitRemove pID ec =>
        simp only [touched, hpt] at htouch
        split_ifs at htouch with hexist
        exact hs.table.touched_alive hexist htouch
      | _ => simp [touched, hpt, Point.slot] at hslot htouch

/-- After a slot has been removed, the next step of a thread that works on it accesses the
deleted PCB. -/
theorem PcbInv.dangling_exitReturn (hs : PcbInv s) (hstopped : s.stopped = none) {i : Nat}
    {c : PcbId} (hocc : Occupied s i c) {u : Tid} (hu : u < s.numThreads) (hut : u ≠ t)
    (hawake : (s.threads u).blocked = false) (hslot : (s.threads u).point.slot = some i) :
    ¬ NoDangling (s.exitReturn t i) := by
  intro hgood
  obtain ⟨c', hocc', hobject⟩ := hs.holds u hu hawake i hslot
  obtain rfl := hocc.unique hocc'
  have heq := hocc.exitReturn t
  have hthread : (s.exitReturn t i).threads u = s.threads u := by
    rw [exitReturn_threads, update_of_ne hut]
  have hpcb : (s.exitReturn t i).pcb i = some c := by
    rw [heq]
    exact hocc.pcb
  have htouch : touched (s.exitReturn t i) (.resume u none) = some c := by
    refine touched_of_slot ?_ ?_ hpcb none
    · rw [hthread, hslot]
    · rw [hthread]
      exact hobject
  have hkernel : (s.threads u).point ≠ .user := by
    intro hpt
    rw [hpt] at hslot
    cases hslot
  have henabled : (Userprog.step (s.exitReturn t i) (.resume u none)).isSome := by
    have hrun : (s.exitReturn t i).runnable u = true := by
      simp only [runnable, decide_eq_true_eq, hthread, hawake, and_true]
      rw [heq]
      exact ⟨hstopped, hu⟩
    rw [Userprog.step, if_pos ⟨hrun, by rw [hthread]; exact hkernel⟩]
    rfl
  have halive := hgood _ henabled c htouch
  rw [heq] at halive
  simp at halive

theorem PcbInv.dangling (hs : PcbInv s) (hbad : ¬ RemovesUnused s l) (h : Userprog.step s l = some s') :
    ¬ NoDangling s' := by
  have hrun := (step_trans h).1
  have hstopped : s.stopped = none := by
    simp only [runnable, decide_eq_true_eq] at hrun
    exact hrun.1
  simp only [RemovesUnused, not_forall, not_not] at hbad
  obtain ⟨i, hrem, u, hu, hut, hawake, hslot⟩ := hbad
  obtain ⟨hi, hbit, ⟨-, rfl⟩ | ⟨rfl, -, c, ec, hpcb, -, -, rfl⟩⟩ := step_removing h hrem
  · obtain ⟨c, hocc⟩ := hs.table.slots i (Nat.lt_succ_of_le hi) hbit
    exact hs.dangling_exitReturn hstopped hocc hu hut hawake hslot
  · have hs' := hs.setExitCode l.thread c ec
    exact hs'.dangling_exitReturn hstopped (hs'.table.occupied hi hbit hpcb) hu hut hawake hslot

/-- In every run of any processes, in every state all steps that can come next access live PCBs
only, exactly when no step removes a slot that another thread that is awake still works on. -/
theorem noDangling_iff (ls : List Label) :
    Runs.AllStates step NoDangling boot ls ↔ Runs.AllSteps step RemovesUnused boot ls :=
  Runs.allStates_iff_allSteps (fun _ hs => hs.noDangling) (fun _ _ _ hs hgood h => hs.step hgood h)
    (fun _ _ _ hs hbad h => hs.dangling hbad h) PcbInv.boot ls

/-- "main" executes a program. When `Fork` turns interrupts on again, the child gets the CPU and
runs to its exit. -/
def preemptedRun : List Label :=
  [.resume 0 (some emptyProgram), .call 0 (.exec "child"), .resume 0 (some emptyProgram),
    .resume 0 none, .resume 1 (some emptyProgram), .call 1 (.exit 0)]

/-- "main" is then about to call `mutex->V()` on a PCB that `Remove` has deleted. -/
theorem not_noDangling_preemptedRun : ¬ Runs.AllStates step NoDangling boot preemptedRun := by
  intro h
  have hrun : (Runs.run step boot preemptedRun).map
      (fun s => ((step s (.resume 0 none)).isSome, touched s (.resume 0 none),
        (s.heap 1).deleted)) = some (true, some 1, true) := by decide +kernel
  obtain ⟨s, hs, hvalues⟩ := Option.map_eq_some_iff.mp hrun
  simp only [Prod.mk.injEq] at hvalues
  have halive := h.of_run hs _ hvalues.1 1 hvalues.2.1
  rw [hvalues.2.2] at halive
  cases halive

end Nachos.Userprog
