import Nachos.Userprog.JoinExit

/-!
# Who may join

`JoinUpdate` lets a process join the process in slot `pID` when its own process ID is the
`parentID` recorded in the PCB. Process IDs are slot numbers and are used again, so that the
process with that number need not be the one that called `SC_Exec`.

`Lineage` keeps beside the state which thread constructed each PCB. In a run in which no thread
makes process calls after its exit and no process is started under a number that a PCB in the
table still records as `parentID`, only creators pass the check (`onlyCreator_of_keepsParents`).
In `recycledRun` another process passes it.
-/

namespace Nachos.Userprog

open Function (update update_of_ne update_self update_apply)
open Threads (Tid)
open State

/-- The system, with the thread whose `SC_Exec` constructed each PCB. -/
structure Lineage where
  state : State
  creator : PcbId → Option Tid

def Lineage.boot : Lineage := ⟨Userprog.boot, fun _ => none⟩

/-- The step of `l` leads to `s'`; a PCB that it has constructed is its thread's. -/
def Lineage.observe (a : Lineage) (l : Label) (s' : State) : Lineage where
  state := s'
  creator := fun c => if a.state.numPcbs ≤ c ∧ c < s'.numPcbs then some l.thread else a.creator c

def lineageStep (a : Lineage) (l : Label) : Option Lineage := (step a.state l).map (a.observe l)

/-- The PCB that an `SC_Join` is about to wait for, when it gets past the parent check of
`JoinUpdate`. -/
def joined (s : State) : Label → Option PcbId
  | .call t (.join pID) =>
    if 0 < pID ∧ pID ≤ 9 ∧ s.isExist pID.toNat then
      (s.pcb pID.toNat).filter fun c => (s.threads t).processID = (s.heap c).parentID
    else none
  | _ => none

/-- Only the thread that has created a process gets past the parent check. -/
def OnlyCreator (a : Lineage) (l : Label) : Prop :=
  ∀ c ∈ joined a.state l, a.creator c = some l.thread

instance (a : Lineage) (l : Label) : Decidable (OnlyCreator a l) :=
  inferInstanceAs (Decidable (∀ c ∈ joined a.state l, a.creator c = some l.thread))

/-- The process ID of the thread that the step forks. -/
def forkedID (s : State) : Label → Option Nat
  | .resume t _ =>
    match (s.threads t).point with
    | .execFork _ id _ => some id
    | _ => none
  | .call _ _ => none

/-- The step is no process call of a thread that has exited, and it starts no process under a
number that a PCB in the table records as `parentID`. -/
def KeepsParents (s : State) (l : Label) : Prop :=
  lateCall s l = false ∧ ∀ id ∈ forkedID s l, ∀ i < maxProcess, s.bm.test i = true →
    ∀ c ∈ s.pcb i, (s.heap c).parentID ≠ id

instance (s : State) (l : Label) : Decidable (KeepsParents s l) :=
  inferInstanceAs (Decidable (lateCall s l = false ∧ ∀ id ∈ forkedID s l, ∀ i < maxProcess,
    s.bm.test i = true → ∀ c ∈ s.pcb i, (s.heap c).parentID ≠ id))

/-! ## The invariant -/

/-- The creator of `c` runs under the process ID recorded in `c`, or nobody does. -/
def Recognised (a : Lineage) (c : PcbId) : Prop :=
  (∃ t, a.creator c = some t ∧ t < a.state.numThreads ∧ (a.state.threads t).exited = false ∧
    (a.state.threads t).processID = (a.state.heap c).parentID) ∨
  ∀ t, t < a.state.numThreads → (a.state.threads t).exited = false →
    (a.state.threads t).processID ≠ (a.state.heap c).parentID

structure LineageInv (a : Lineage) : Prop where
  owned : Owned a.state
  recognised : ∀ i c, i ≠ 0 → Occupied a.state i c → Recognised a c

theorem LineageInv.boot : LineageInv Lineage.boot := by
  refine ⟨Owned.boot, fun i c hi hocc => ?_⟩
  have hpcb := hocc.pcb
  rw [Lineage.boot, Userprog.boot] at hpcb
  simp [hi] at hpcb

variable {a : Lineage} {s' : State} {t : Tid} {l : Label} {c : PcbId}

/-- A step that constructs no PCB adds no creator. -/
theorem Lineage.observe_creator (h : s'.numPcbs = a.state.numPcbs) (c : PcbId) :
    (a.observe l s').creator c = a.creator c := by
  simp only [Lineage.observe, h]
  exact if_neg fun hcond => absurd hcond.2 (Nat.not_lt.mpr hcond.1)

/-- `Recognised` depends on the live threads and their process IDs. -/
theorem Recognised.congr (h : Recognised a c) {b : Lineage} (hcreator : b.creator c = a.creator c)
    (hparent : (b.state.heap c).parentID = (a.state.heap c).parentID)
    (hnum : b.state.numThreads = a.state.numThreads)
    (hpid : ∀ t, (b.state.threads t).processID = (a.state.threads t).processID)
    (hexited : ∀ t, (b.state.threads t).exited = (a.state.threads t).exited) :
    Recognised b c := by
  unfold Recognised
  simp only [hcreator, hparent, hnum, hpid, hexited]
  exact h

theorem LineageInv.quiet (ha : LineageInv a) (howned : Owned s') (h : Quiet a.state s' t) :
    LineageInv (a.observe l s') := by
  obtain ⟨htable, pt, hmoves, -⟩ := h
  refine ⟨howned, fun i c hi hocc => ?_⟩
  exact (ha.recognised i c hi (hocc.sameTable htable.symm)).congr
    (a.observe_creator htable.numPcbs c) (htable.parentID c) hmoves.numThreads hmoves.processID
    hmoves.exited

/-- After a new slot has been filled, every other slot is as it was. -/
theorem NewSlot.occupied_cases {s s' : State} {i id caller : Nat} {c : PcbId}
    (hnew : NewSlot s s' id caller) (hocc : Occupied s' i c) :
    i = id ∧ c = s.numPcbs ∨ Occupied s i c := by
  have hpcb := hocc.pcb
  rw [hnew.pcb, update_apply] at hpcb
  split_ifs at hpcb with heq
  · exact .inl ⟨heq, (Option.some.inj hpcb).symm⟩
  · refine .inr ?_
    have hne : c ≠ s.numPcbs := by
      rintro rfl
      have hpid := hocc.pid
      rw [hnew.heap, update_self] at hpid
      exact heq hpid.symm
    have hlt := hocc.constructed
    rw [hnew.numPcbs] at hlt
    have hbit := hocc.bit
    rw [hnew.test] at hbit
    refine ⟨hocc.range, by simpa [heq] using hbit, hpcb,
      Nat.lt_of_le_of_ne (Nat.le_of_lt_succ hlt) hne, ?_, ?_⟩
    · rw [← hocc.alive, hnew.heap, update_of_ne hne]
    · rw [← hocc.pid, hnew.heap, update_of_ne hne]

theorem LineageInv.newSlot (ha : LineageInv a) (howned : Owned s') {id : Nat} {pt : Point}
    (hnew : NewSlot a.state s' id (a.state.threads l.thread).processID)
    (hmoves : Moves a.state s' l.thread pt) (ht : l.thread < a.state.numThreads)
    (hlive : (a.state.threads l.thread).exited = false) : LineageInv (a.observe l s') := by
  refine ⟨howned, fun i c hi hocc => ?_⟩
  rcases hnew.occupied_cases hocc with ⟨rfl, rfl⟩ | hold
  · refine .inl ⟨l.thread, ?_, ?_, ?_, ?_⟩
    · exact if_pos ⟨Nat.le_refl _, by rw [hnew.numPcbs]; exact Nat.lt_succ_self _⟩
    · show l.thread < s'.numThreads
      rw [hmoves.numThreads]
      exact ht
    · show (s'.threads l.thread).exited = false
      rw [hmoves.exited, hlive]
    · show (s'.threads l.thread).processID = (s'.heap a.state.numPcbs).parentID
      rw [hmoves.processID, hnew.heap, update_self]
      simp [PCB.new, hi]
  · have hne : c ≠ a.state.numPcbs := Nat.ne_of_lt hold.constructed
    refine (ha.recognised i c hi hold).congr ?_ ?_ hmoves.numThreads hmoves.processID
      hmoves.exited
    · exact if_neg fun hcond => absurd hold.constructed (Nat.not_lt.mpr hcond.1)
    · show (s'.heap c).parentID = _
      rw [hnew.heap, update_of_ne hne]

theorem LineageInv.fork (ha : LineageInv a) (ht : l.thread < a.state.numThreads) {id : Nat}
    {filename : String}
    (howned : Owned ((a.state.fork c id filename).goto l.thread (.execMutexV c id)))
    (hparents : ∀ i, i < maxProcess → a.state.bm.test i = true → ∀ c' ∈ a.state.pcb i,
      (a.state.heap c').parentID ≠ id) :
    LineageInv (a.observe l ((a.state.fork c id filename).goto l.thread (.execMutexV c id))) := by
  have htable : SameTable a.state
      ((a.state.fork c id filename).goto l.thread (.execMutexV c id)) :=
    .of_update rfl rfl rfl rfl rfl rfl rfl
  have hnew := fork_new ht c id filename
  have hold := fun u (hu : u < a.state.numThreads) => fork_old ht c id filename hu
  set s' := (a.state.fork c id filename).goto l.thread (.execMutexV c id) with hs'
  have hpid : ∀ u, u < a.state.numThreads →
      (s'.threads u).processID = (a.state.threads u).processID := by
    intro u hu
    rw [hold u hu]
    split_ifs with heq
    · rw [heq]
    · rfl
  have hexited : ∀ u, u < a.state.numThreads →
      (s'.threads u).exited = (a.state.threads u).exited := by
    intro u hu
    rw [hold u hu]
    split_ifs with heq
    · rw [heq]
    · rfl
  refine ⟨howned, fun i c' hi hocc => ?_⟩
  have hocc' := hocc.sameTable htable.symm
  have hcreator : (a.observe l s').creator c' = a.creator c' := a.observe_creator htable.numPcbs c'
  rcases ha.recognised i c' hi hocc' with ⟨t, ht', htlt, hlive, hmatch⟩ | hnobody
  · refine .inl ⟨t, hcreator.trans ht', Nat.lt_succ_of_lt htlt, ?_, ?_⟩
    · exact (hexited t htlt).trans hlive
    · exact (hpid t htlt).trans (hmatch.trans (htable.parentID c').symm)
  · refine .inr fun u hu hlive => ?_
    show (s'.threads u).processID ≠ (s'.heap c').parentID
    rw [htable.parentID]
    rcases Nat.lt_succ_iff_lt_or_eq.mp hu with hlt | rfl
    · rw [hpid u hlt]
      exact hnobody u hlt ((hexited u hlt).symm.trans hlive)
    · rw [hnew]
      exact (hparents i (Nat.lt_succ_of_le hocc'.range) hocc'.bit c' hocc'.pcb).symm

/-- The return of the thread `t` from `ExitUpdate`. `w` is the state before `Remove`. -/
theorem LineageInv.exitReturn (ha : LineageInv a) {w : State} (htable : SameTable a.state w)
    (hthreads : w.threads = a.state.threads) (hnum : w.numThreads = a.state.numThreads)
    (ht : t < a.state.numThreads) (hlive : (a.state.threads t).exited = false)
    (howned : Owned (w.exitReturn t (a.state.threads t).processID)) :
    LineageInv (a.observe l (w.exitReturn t (a.state.threads t).processID)) := by
  set p := (a.state.threads t).processID
  have hocc₀ : Occupied w p (a.state.threads t).own := (ha.owned.live t ht hlive).sameTable htable
  have hbits : w.bm.numBits = maxProcess := htable.bm ▸ ha.owned.numBits
  have hnum' : (w.exitReturn t p).numThreads = a.state.numThreads := by
    simp [State.exitReturn, hnum]
  have hpcbs : (w.exitReturn t p).numPcbs = a.state.numPcbs := by
    simp [State.exitReturn, htable.numPcbs]
  have hparent : ∀ c, ((w.exitReturn t p).heap c).parentID = (a.state.heap c).parentID := by
    intro c
    rw [hocc₀.exitReturn t, ← htable.parentID]
    exact field_update PCB.parentID (by rfl) c
  have hstate := exitReturn_threads w t p
  rw [hthreads] at hstate
  have hother : ∀ u, u ≠ t → (w.exitReturn t p).threads u = a.state.threads u := fun u hut => by
    rw [hstate, update_of_ne hut]
  have hself : ((w.exitReturn t p).threads t).exited = true := by
    rw [hstate, update_self]
  refine ⟨howned, fun i c hi hocc => ?_⟩
  have hocc' := (hocc₀.of_exitReturn hbits hocc).1.sameTable htable.symm
  have hcreator := a.observe_creator (l := l) hpcbs c
  rcases ha.recognised i c hi hocc' with ⟨u, hu, hult, hulive, hmatch⟩ | hnobody
  · by_cases hut : u = t
    · -- the creator leaves, and nobody else runs under its number
      subst hut
      refine .inr fun v hv hvlive => ?_
      show ((w.exitReturn u p).threads v).processID ≠ ((w.exitReturn u p).heap c).parentID
      have hvu : v ≠ u := by
        rintro rfl
        exact absurd (hself.symm.trans hvlive) (by decide)
      rw [hparent, ← hmatch, hother v hvu]
      intro heq
      have hvlive' : (a.state.threads v).exited = false := by
        rw [← hother v hvu]
        exact hvlive
      have hvlt : v < a.state.numThreads := hnum' ▸ hv
      exact hvu (ha.owned.pid_inj hvlt ht hvlive' hlive heq)
    · refine .inl ⟨u, hcreator.trans hu, hnum'.symm ▸ hult, ?_, ?_⟩
      · show ((w.exitReturn t p).threads u).exited = false
        rw [hother u hut, hulive]
      · show ((w.exitReturn t p).threads u).processID = ((w.exitReturn t p).heap c).parentID
        rw [hother u hut, hparent, hmatch]
  · refine .inr fun v hv hvlive => ?_
    show ((w.exitReturn t p).threads v).processID ≠ ((w.exitReturn t p).heap c).parentID
    have hvt : v ≠ t := by
      rintro rfl
      exact absurd (hself.symm.trans hvlive) (by decide)
    rw [hparent, hother v hvt]
    refine hnobody v (hnum' ▸ hv) ?_
    rw [← hother v hvt]
    exact hvlive

theorem LineageInv.step (ha : LineageInv a) {b : Lineage} (hgood : KeepsParents a.state l)
    (h : lineageStep a l = some b) : LineageInv b := by
  obtain ⟨s', hs', rfl⟩ := Option.map_eq_some_iff.mp h
  obtain ⟨hlate, hparents⟩ := hgood
  obtain ⟨hrun, htrans⟩ := step_trans hs'
  have ht := lt_of_runnable hrun
  have howned := ha.owned.step hlate hs'
  rcases ha.owned.live_of_step hlate hs' with hlive | rfl | rfl
  · rcases trans_shape htrans with hquiet | ⟨id, filename, hnew, hmoves⟩ |
      ⟨c, id, filename, hpt, rfl⟩ | ⟨c, ec, hpt, hmain, hrem, hpcb, rfl⟩ | ⟨pID, ec, hpt, hrem, rfl⟩
    · exact ha.quiet howned hquiet
    · exact ha.newSlot howned hnew hmoves ht hlive
    · refine ha.fork ht howned (hparents id ?_)
      cases l with
      | call t call =>
        simp only [Userprog.step] at hs'
        split_ifs at hs' with hcond
        rw [Label.thread, hcond.2] at hpt
        cases hpt
      | resume t file =>
        rw [Label.thread] at hpt
        simp [forkedID, hpt]
    · exact ha.exitReturn (.of_update rfl rfl rfl rfl rfl rfl rfl) rfl rfl ht hlive howned
    · obtain ⟨rfl, -⟩ := ha.owned.exiting _ ht pID ec (by rw [hpt]; rfl)
      exact ha.exitReturn (.of_eq rfl rfl rfl rfl) rfl rfl ht hlive howned
  · exact ha.quiet howned ⟨.of_eq rfl rfl rfl rfl, _, .of_eq (by rfl) (by rfl) l.thread, .same _ _⟩
  · exact ha.quiet howned ⟨.of_eq rfl rfl rfl rfl, _, .of_eq (by rfl) (by rfl) l.thread, .same _ _⟩

/-- A live thread that passes the parent check is the creator. -/
theorem LineageInv.onlyCreator (ha : LineageInv a) (hlate : lateCall a.state l = false)
    {b : Lineage} (h : lineageStep a l = some b) : OnlyCreator a l := by
  obtain ⟨s', hs', -⟩ := Option.map_eq_some_iff.mp h
  have hlt := lt_of_runnable (step_trans hs').1
  intro c hc
  cases l with
  | resume t file => cases hc
  | call t call =>
    cases call with
    | other => cases hc
    | halt => cases hc
    | exec filename => cases hc
    | exit ec => cases hc
    | join pID =>
      simp only [joined] at hc
      split_ifs at hc with hcond
      · obtain ⟨hpcb, hmatch⟩ := Option.filter_eq_some_iff.mp hc
        obtain ⟨hle, hbit⟩ := (a.state.isExist_iff _).mp hcond.2.2
        obtain ⟨c', hocc⟩ := ha.owned.slots pID.toNat (Nat.lt_succ_of_le hle) hbit
        obtain rfl := Option.some.inj (hpcb.symm.trans hocc.pcb)
        have hlive : (a.state.threads t).exited = false := by
          simpa [lateCall, Call.isProcess] using hlate
        have hpID : pID.toNat ≠ 0 := by omega
        rcases ha.recognised _ c hpID hocc with ⟨u, hu, hult, hulive, hparent⟩ | hnobody
        · rw [hu, Label.thread]
          refine congrArg some (ha.owned.pid_inj hult hlt hulive hlive ?_)
          exact hparent.trans (of_decide_eq_true hmatch).symm
        · exact absurd (of_decide_eq_true hmatch) (hnobody t hlt hlive)
      · cases hc

/-- In every run in which no thread makes process calls after its exit and no process is started
under a number that a PCB in the table records as `parentID`, every `SC_Join` that gets past the
parent check is made by the creator of the process in the slot. -/
theorem onlyCreator_of_keepsParents (ls : List Label)
    (h : Runs.AllSteps lineageStep (fun a l => KeepsParents a.state l) Lineage.boot ls) :
    Runs.AllSteps lineageStep OnlyCreator Lineage.boot ls :=
  Runs.allSteps_of_allSteps (fun _ _ _ ha hgood hb => ha.step hgood hb)
    (fun _ _ _ ha hgood hb => ha.onlyCreator hgood.1 hb) LineageInv.boot h

/-- Thread `t` executes a program with `SC_Exec` and is back in user code. -/
def execBy (t : Tid) (filename : String) : List Label :=
  [.call t (.exec filename), .resume t (some emptyProgram), .resume t none, .resume t none,
    .resume t none]

/-- "main" executes "a", which executes "b" and joins it. -/
def joinRun : List Label :=
  .resume 0 (some emptyProgram) :: execBy 0 "a" ++ .resume 1 (some emptyProgram) :: execBy 1 "b" ++
    [.call 1 (.join 2)]

theorem onlyCreator_joinRun :
    Runs.AllSteps lineageStep (fun a l => KeepsParents a.state l) Lineage.boot joinRun ∧
      Runs.AllSteps lineageStep OnlyCreator Lineage.boot joinRun := by
  have h : Runs.AllSteps lineageStep (fun a l => KeepsParents a.state l) Lineage.boot joinRun := by
    decide +kernel
  exact ⟨h, onlyCreator_of_keepsParents joinRun h⟩

/-- "a" executes "b" and exits. "main" executes "c", which gets the number of "a" and joins "b". -/
def recycledRun : List Label :=
  .resume 0 (some emptyProgram) :: execBy 0 "a" ++ .resume 1 (some emptyProgram) :: execBy 1 "b" ++
    .call 1 (.exit 0) :: execBy 0 "c" ++ [.resume 3 (some emptyProgram), .call 3 (.join 2)]

theorem not_onlyCreator_recycledRun :
    ¬ Runs.AllSteps lineageStep OnlyCreator Lineage.boot recycledRun := by
  decide +kernel

end Nachos.Userprog
