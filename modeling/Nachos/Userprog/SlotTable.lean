import Nachos.Lib.Runs
import Nachos.Userprog.ProcessSteps

/-!
# The slots of the process table

A slot of `PTable` is described three times: by its bit in `bm`, by `pcb[i]` being `NULL` or
not, and by the life of the object that `pcb[i]` points to. `SlotsAgree` says that the three
agree. `ExecUpdate` keeps them in step; `Remove` clears the bit and deletes the object but
leaves the pointer, so that they agree throughout a run exactly as long as no `Remove` finds
its slot occupied (`slotsAgree_iff`).
-/

namespace Nachos.Userprog

open Function (update update_of_ne update_self update_apply)
open Threads (Tid Semaphore)
open State

/-- Bit, pointer and object of every slot agree. -/
def SlotsAgree (s : State) : Prop :=
  ∀ i < maxProcess, (s.bm.test i = true ↔ s.pcb i ≠ none) ∧
    ∀ c, s.pcb i = some c → c < s.numPcbs ∧ (s.heap c).deleted = false

/-- The occupied slot that the step removes, if it gets as far as `Remove`. -/
def removing (s : State) : Label → Option Nat
  | .call t (.exit _) =>
    match s.pcb (s.threads t).processID with
    | none => none
    | some c =>
      if s.isExist (s.threads t).processID ∧ (s.threads t).processID ≠ 0 ∧
          (s.heap c).deleted = false ∧ (s.heap c).joinStatus = -1 then
        some (s.threads t).processID
      else none
  | .call _ _ => none
  | .resume t _ =>
    match (s.threads t).point with
    | .exitRemove pID _ => if s.isExist pID then some pID else none
    | _ => none

/-- `removing`, for the calls of `PTable`. -/
def tableRemoving (s : State) : TableLabel → Option Nat
  | .sys l => removing s l
  | .joinUpdate _ _ => none
  | .remove _ pID => if 0 ≤ pID ∧ s.isExist pID.toNat then some pID.toNat else none

/-! ## What a step does to the table -/

/-- The step leaves every slot as it is. -/
structure SameTable (s s' : State) : Prop where
  bm : s'.bm = s.bm
  pcb : s'.pcb = s.pcb
  numPcbs : s'.numPcbs = s.numPcbs
  deleted : ∀ c, (s'.heap c).deleted = (s.heap c).deleted
  pid : ∀ c, (s'.heap c).pid = (s.heap c).pid
  parentID : ∀ c, (s'.heap c).parentID = (s.heap c).parentID

/-- The step of a thread with process ID `caller` puts a new PCB into the free slot `id`. -/
structure NewSlot (s s' : State) (id caller : Nat) : Prop where
  range : id < s.bm.numBits
  free : s.bm.test id = false
  bm : s'.bm = (s.bm.mark id).mark id
  pcb : s'.pcb = update s.pcb id (some s.numPcbs)
  numPcbs : s'.numPcbs = s.numPcbs + 1
  heap : s'.heap = update s.heap s.numPcbs (PCB.new id caller)

/-- Writing an object keeps the fields that are written back. -/
theorem field_update {α β : Type*} (f : β → α) {g : Nat → β} {c : Nat} {x : β}
    (hx : f x = f (g c)) (c' : Nat) : f (update g c x c') = f (g c') := by
  rw [update_apply]
  split_ifs with h
  · rw [h, hx]
  · rfl

theorem SameTable.of_eq {s s' : State} (hbm : s'.bm = s.bm) (hpcb : s'.pcb = s.pcb)
    (hnum : s'.numPcbs = s.numPcbs) (hheap : s'.heap = s.heap) : SameTable s s' :=
  ⟨hbm, hpcb, hnum, fun c => by rw [hheap], fun c => by rw [hheap], fun c => by rw [hheap]⟩

theorem SameTable.of_update {s s' : State} {c : PcbId} {x : PCB} (hbm : s'.bm = s.bm)
    (hpcb : s'.pcb = s.pcb) (hnum : s'.numPcbs = s.numPcbs) (hheap : s'.heap = update s.heap c x)
    (hdeleted : x.deleted = (s.heap c).deleted) (hpid : x.pid = (s.heap c).pid)
    (hparent : x.parentID = (s.heap c).parentID) : SameTable s s' := by
  refine ⟨hbm, hpcb, hnum, ?_, ?_, ?_⟩ <;> rw [hheap]
  · exact field_update PCB.deleted hdeleted
  · exact field_update PCB.pid hpid
  · exact field_update PCB.parentID hparent

theorem SameTable.joinWait (s : State) (t : Tid) (c : PcbId) (pID : Nat) (child : Option PcbId) :
    SameTable s (s.joinWait t c pID child) := by
  refine .of_update (p_bm _ _ _ _ _) (p_pcb _ _ _ _ _) (p_numPcbs _ _ _ _ _) (p_heap _ _ _ _ _)
    ?_ ?_ ?_ <;> rfl

theorem SameTable.forget (s : State) (t : Tid) (pID : Int) : SameTable s (s.forget t pID) := by
  refine .of_eq (by simp) (by simp) ?_ (by simp)
  unfold State.forget
  split <;> rfl

theorem SameTable.trans {s s' s'' : State} (h : SameTable s s') (h' : SameTable s' s'') :
    SameTable s s'' :=
  ⟨h'.bm.trans h.bm, h'.pcb.trans h.pcb, h'.numPcbs.trans h.numPcbs,
    fun c => (h'.deleted c).trans (h.deleted c), fun c => (h'.pid c).trans (h.pid c),
    fun c => (h'.parentID c).trans (h.parentID c)⟩

variable {s s' : State}

/-- The PCB after `SetExitCode` and `JoinRelease`. -/
theorem joinRelease_setExitCode_heap (s : State) (t : Tid) (c : PcbId) (ec : Int) :
    ((s.setExitCode t c ec).joinRelease c).heap = update s.heap c
      { s.heap c with exitcode := ec, numwait := (s.heap c).numwait - 1 } := by
  simp [joinRelease]

/-- A step that removes no slot leaves the table alone or fills a free slot. -/
theorem trans_table {l : Label} (h : Trans s l s') (hkeep : removing s l = none) :
    SameTable s s' ∨ ∃ id caller, NewSlot s s' id caller := by
  cases h with
  | other => exact .inl (.of_eq rfl rfl rfl rfl)
  | stop why => exact .inl (.of_eq rfl rfl rfl rfl)
  | load hpt hframes => exact .inl (.of_eq rfl rfl rfl rfl)
  | exec hpt => exact .inl (.of_eq (by simp) (by simp) (by simp) (by simp))
  | execP hpt => exact .inl (.of_eq (by simp) (by simp) (by simp) (by simp))
  | execFail hpt => exact .inl (.of_eq rfl rfl rfl rfl)
  | execNew hpt hid hfree =>
    exact .inr ⟨_, _, hid, hfree, rfl, rfl, rfl, rfl⟩
  | mutexP hpt => exact .inl (.of_eq (by simp) (by simp) (by simp) (by simp))
  | fork hpt halive => exact .inl (.of_update rfl rfl rfl rfl rfl rfl rfl)
  | mutexV hpt halive => exact .inl (.of_eq (by simp [goto]) (by simp [goto]) (by simp [goto])
      (by simp [goto]))
  | execV hpt => exact .inl (.of_eq (by simp [execReturn]) (by simp [execReturn])
      (by simp [execReturn]) (by simp [execReturn]))
  | joinFail hpt hfail => exact .inl ((SameTable.forget s _ _).trans (.of_eq rfl rfl rfl rfl))
  | joinStop why => exact .inl ((SameTable.forget s _ _).trans (.of_eq rfl rfl rfl rfl))
  | joinWait hpt hrange hbit hpcb halive hparent =>
    exact .inl ((SameTable.forget s _ _).trans (SameTable.joinWait _ _ _ _ _))
  | joinP hpt => exact .inl (.of_eq (by simp) (by simp) (by simp) (by simp))
  | joinError hpt hpcb halive hec => exact .inl (.of_eq rfl rfl rfl rfl)
  | joinOk hpt hpcb halive hec => exact .inl (.of_eq (by simp [joinReturn, goto])
      (by simp [joinReturn, goto]) (by simp [joinReturn, goto]) (by simp [joinReturn, goto]))
  | exitGone hpt hgone => exact .inl (.of_eq rfl rfl rfl rfl)
  | exitAlone hpt hpID hbit hmain hpcb halive hjoin =>
    simp [removing, hpcb, isExist_iff, hpID, hbit, hmain, halive, hjoin] at hkeep
  | exitJoined hpt hpID hbit hmain hpcb halive hjoin =>
    refine .inl (.of_update ?_ ?_ ?_ (joinRelease_setExitCode_heap s _ _ _) rfl rfl rfl) <;>
      simp [goto, joinRelease]
  | exitWait hpt hpcb halive => exact .inl (.of_eq (by simp) (by simp) (by simp) (by simp))
  | exitP hpt => exact .inl (.of_eq (by simp) (by simp) (by simp) (by simp))
  | exitRemove hpt =>
    -- `Remove` finds the bit clear
    have hclear := hkeep
    simp only [removing, hpt, isExist_iff, ite_eq_right_iff, reduceCtorEq, imp_false] at hclear
    refine .inl (.of_eq ?_ ?_ ?_ ?_) <;> simp [exitReturn, remove_of_clear s hclear]

/-- A step that removes a slot ends in `Remove` and the return from `ExitUpdate`. -/
theorem step_removing {l : Label} {i : Nat} (h : step s l = some s') (hrem : removing s l = some i) :
    i ≤ 9 ∧ s.bm.test i = true ∧
      ((∃ ec, (s.threads l.thread).point = .exitRemove i ec) ∧ s' = s.exitReturn l.thread i ∨
        i = (s.threads l.thread).processID ∧ i ≠ 0 ∧ ∃ c ec, s.pcb i = some c ∧
          (s.heap c).deleted = false ∧ (s.heap c).joinStatus = -1 ∧
          s' = (s.setExitCode l.thread c ec).exitReturn l.thread i) := by
  cases l with
  | call t call =>
    cases call with
    | exit ec =>
      simp only [removing] at hrem
      split at hrem
      next => simp at hrem
      next c hpcb =>
        split_ifs at hrem with hcond
        obtain ⟨hexist, hmain, halive, hjoin⟩ := hcond
        obtain rfl := Option.some.inj hrem
        have hin := (s.isExist_iff _).mp hexist
        refine ⟨hin.1, hin.2, .inr ⟨rfl, hmain, c, ec, hpcb, halive, hjoin, ?_⟩⟩
        simp only [step] at h
        split_ifs at h
        obtain rfl := Option.some.inj h
        simp [State.call, exitUpdate, hexist, hmain, hpcb, halive, hjoin, Label.thread]
    | other => simp [removing] at hrem
    | halt => simp [removing] at hrem
    | exec filename => simp [removing] at hrem
    | join pID => simp [removing] at hrem
  | resume t file =>
    simp only [removing] at hrem
    split at hrem
    next pID ec hpt =>
      split_ifs at hrem with hexist
      obtain rfl := Option.some.inj hrem
      have hin := (s.isExist_iff _).mp hexist
      refine ⟨hin.1, hin.2, .inl ⟨⟨ec, hpt⟩, ?_⟩⟩
      simp only [step] at h
      split_ifs at h
      obtain rfl := Option.some.inj h
      simp [State.resume, hpt, Label.thread]
    next => simp at hrem

/-! ## The invariant -/

/-- `SlotsAgree`, with the size of the bitmap. -/
structure SlotsInv (s : State) : Prop where
  numBits : s.bm.numBits = maxProcess
  agree : SlotsAgree s

theorem SlotsInv.boot : SlotsInv boot := by
  refine ⟨rfl, fun i hi => ⟨?_, fun c hc => ?_⟩⟩
  · rw [Userprog.boot, BitMap.test_mark _ (by decide : 0 < (BitMap.new maxProcess).numBits)]
    by_cases h : i = 0 <;> simp [h, BitMap.test_new]
  · simp only [Userprog.boot, update_apply] at hc
    split_ifs at hc
    obtain rfl := Option.some.inj hc
    exact ⟨by decide, rfl⟩

theorem SlotsInv.sameTable (hs : SlotsInv s) (h : SameTable s s') : SlotsInv s' := by
  refine ⟨by rw [h.bm, hs.numBits], fun i hi => ?_⟩
  rw [h.bm, h.pcb, h.numPcbs]
  refine ⟨(hs.agree i hi).1, fun c hc => ?_⟩
  rw [h.deleted]
  exact (hs.agree i hi).2 c hc

theorem SlotsInv.newSlot (hs : SlotsInv s) {id caller : Nat} (h : NewSlot s s' id caller) : SlotsInv s' := by
  refine ⟨by rw [h.bm, BitMap.numBits_mark, BitMap.numBits_mark, hs.numBits], fun i hi => ?_⟩
  have htest : s'.bm.test i = (decide (i = id) || s.bm.test i) := by
    rw [h.bm, BitMap.test_mark _ (by rw [BitMap.numBits_mark]; exact h.range),
      BitMap.test_mark _ h.range, ← Bool.or_assoc, Bool.or_self]
  rw [htest, h.pcb, h.numPcbs, update_apply]
  by_cases heq : i = id
  · simp only [heq, decide_true, Bool.true_or, if_true, true_iff]
    refine ⟨by simp, fun c hc => ?_⟩
    obtain rfl := Option.some.inj hc
    exact ⟨Nat.lt_succ_self _, by rw [h.heap, update_self]; rfl⟩
  · simp only [heq, decide_false, Bool.false_or, if_false]
    refine ⟨(hs.agree i hi).1, fun c hc => ?_⟩
    obtain ⟨hlt, halive⟩ := (hs.agree i hi).2 c hc
    refine ⟨Nat.lt_succ_of_lt hlt, ?_⟩
    rw [h.heap, update_of_ne (Nat.ne_of_lt hlt)]
    exact halive

theorem SlotsInv.tableStep (hs : SlotsInv s) {l : TableLabel} (hkeep : tableRemoving s l = none)
    (h : tableStep s l = some s') : SlotsInv s' := by
  cases l with
  | sys l =>
    rcases trans_table (step_trans h).2 hkeep with hsame | ⟨id, caller, hnew⟩
    · exact hs.sameTable hsame
    · exact hs.newSlot hnew
  | joinUpdate t pID =>
    simp only [Userprog.tableStep] at h
    split_ifs at h
    obtain rfl := Option.some.inj h
    rcases joinUpdate_cases s t pID none with heq | ⟨heq, -⟩ | ⟨c, heq, -⟩ <;> rw [heq]
    · exact hs.sameTable (.of_eq rfl rfl rfl rfl)
    · exact hs.sameTable (.of_eq rfl rfl rfl rfl)
    · exact hs.sameTable (.joinWait s t c _ _)
  | remove t pID =>
    simp only [Userprog.tableStep] at h
    split_ifs at h with hrun hneg <;> obtain rfl := Option.some.inj h
    · exact hs
    · simp only [tableRemoving, isExist_iff, ite_eq_right_iff, reduceCtorEq, imp_false] at hkeep
      rw [remove_of_clear s fun hocc => hkeep ⟨by omega, hocc⟩]
      exact hs

/-- After `Remove` of an occupied slot the pointer is left without its bit. -/
theorem SlotsInv.not_agree_of_remove (hs : SlotsInv s) {i : Nat} (hi : i ≤ 9)
    (hbit : s.bm.test i = true) (hbm : s'.bm = s.bm.clear i) (hpcb : s'.pcb = s.pcb) :
    ¬ SlotsAgree s' := by
  intro hagree
  have hlt : i < maxProcess := by
    unfold maxProcess
    omega
  have hpointer : s'.pcb i ≠ none := by
    rw [hpcb]
    exact (hs.agree i hlt).1.mp hbit
  have hset := (hagree i hlt).1.mpr hpointer
  rw [hbm, BitMap.test_clear _ (by rw [hs.numBits]; exact hlt)] at hset
  simp at hset

theorem SlotsInv.not_agree (hs : SlotsInv s) {l : TableLabel} (hrem : tableRemoving s l ≠ none)
    (h : Userprog.tableStep s l = some s') : ¬ SlotsAgree s' := by
  obtain ⟨i, hi⟩ := Option.ne_none_iff_exists'.mp hrem
  cases l with
  | sys l =>
    obtain ⟨h9, hbit, ⟨-, rfl⟩ | ⟨-, -, c, ec, -, -, -, rfl⟩⟩ := step_removing h hi
    · exact hs.not_agree_of_remove h9 hbit (by simp [exitReturn, remove_bm s h9 hbit])
        (by simp [exitReturn])
    · refine hs.not_agree_of_remove h9 hbit ?_ (by simp [exitReturn])
      simp [exitReturn, remove_bm (s.setExitCode l.thread c ec) h9 hbit]
  | joinUpdate t pID => simp [tableRemoving] at hi
  | remove t pID =>
    simp only [tableRemoving] at hi
    split_ifs at hi with hocc
    obtain rfl := Option.some.inj hi
    obtain ⟨h9, hbit⟩ := (s.isExist_iff _).mp hocc.2
    simp only [Userprog.tableStep] at h
    split_ifs at h with hrun hneg <;> obtain rfl := Option.some.inj h
    · omega
    · exact hs.not_agree_of_remove h9 hbit (remove_bm s h9 hbit) (by simp)

/-- In a run of any calls of `PTable` from its constructor, bit, pointer and object of every slot
agree in every state exactly when no step removes an occupied slot. -/
theorem slotsAgree_iff (ls : List TableLabel) :
    Runs.AllStates tableStep SlotsAgree boot ls ↔
      Runs.AllSteps tableStep (fun s l => tableRemoving s l = none) boot ls :=
  Runs.allStates_iff_allSteps (fun _ hs => hs.agree) (fun _ _ _ hs hkeep h => hs.tableStep hkeep h)
    (fun _ _ _ hs hrem h => hs.not_agree hrem h) SlotsInv.boot ls

/-- The program that the runs below load: no code and no data, so two pages of stack. -/
def emptyProgram : NoffHeader where
  noffMagic := noffMagic
  code := ⟨0, 40, 0⟩
  initData := ⟨0, 0, 0⟩
  uninitData := ⟨0, 0, 0⟩

/-- "main" executes a program with `SC_Exec` and is back in user code. -/
def execLabels (filename : String) : List Label :=
  [.call 0 (.exec filename), .resume 0 (some emptyProgram), .resume 0 none, .resume 0 none,
    .resume 0 none]

/-- A child that is not joined exits: `bm` has no slot 1 any more and `pcb[1]` dangles. -/
def exitRun : List Label :=
  .resume 0 (some emptyProgram) :: execLabels "child" ++
    [.resume 1 (some emptyProgram), .call 1 (.exit 0)]

theorem not_slotsAgree_exitRun :
    ¬ Runs.AllStates tableStep SlotsAgree boot (exitRun.map .sys) := by
  intro h
  have hrun : (Runs.run tableStep boot (exitRun.map .sys)).map
      (fun s => (s.bm.test 1, s.pcb 1)) = some (false, some 1) := by decide +kernel
  obtain ⟨s, hs, hslot⟩ := Option.map_eq_some_iff.mp hrun
  have hagree := h.of_run hs 1 (by decide)
  obtain ⟨hbit, hpcb⟩ := Prod.mk.inj hslot
  simp [hbit, hpcb] at hagree

end Nachos.Userprog
