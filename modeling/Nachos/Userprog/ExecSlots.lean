import Nachos.Userprog.Ownership

/-!
# `ExecUpdate` and the slots it takes

What holds of the process table in every run, whatever the threads do after their exits: a set
bit stands for a live PCB that `pcb` points to, and slot 0 is never given away (`TableInv`).

`Audit` watches a run from outside. For every thread it counts what the steps of its latest
`ExecUpdate` have done to `bmsem`, `bm` and `pcb`; for every slot it knows whether an `ExecUpdate`
has taken it and the bit has been set ever since. No step depends on the audit. A call that fails
has changed nothing and released what it took; one that succeeds has filled exactly the slot that
it returns, and the slot was free (`execSpec_throughout`).
-/

namespace Nachos.Userprog

open Function (update update_of_ne update_self update_apply)
open Threads (Tid Semaphore)
open State

variable {s s' : State} {t : Tid} {l : Label}

/-! ## The table in every run -/

structure TableInv (s : State) : Prop where
  numBits : s.bm.numBits = maxProcess
  main : s.bm.test 0 = true
  slots : ∀ i, i < maxProcess → s.bm.test i = true → ∃ c, Occupied s i c
  constructed : ∀ i c, s.pcb i = some c → c < s.numPcbs
  exiting : ∀ t, t < s.numThreads → ∀ pID ec, (s.threads t).point.exiting = some (pID, ec) →
    pID ≠ 0

theorem TableInv.boot : TableInv boot := by
  refine ⟨rfl, by decide, Owned.boot.slots, ?_, ?_⟩
  · intro i c h
    simp only [Userprog.boot, update_apply] at h
    split_ifs at h
    cases h
    decide
  · intro t ht pID ec h
    exact (Owned.boot.exiting t ht pID ec h).2

theorem TableInv.quiet (hs : TableInv s) (h : Quiet s s' t) : TableInv s' := by
  obtain ⟨htable, pt, hmoves, hpt⟩ := h
  refine ⟨by rw [htable.bm, hs.numBits], by rw [htable.bm, hs.main], ?_, ?_, ?_⟩
  · intro i hi hbit
    rw [htable.bm] at hbit
    obtain ⟨c, hocc⟩ := hs.slots i hi hbit
    exact ⟨c, hocc.sameTable htable⟩
  · rw [htable.pcb, htable.numPcbs]
    exact hs.constructed
  · intro u hu pID ec h
    rw [hmoves.numThreads] at hu
    rw [hmoves.point] at h
    split_ifs at h with heq
    · subst heq
      rcases hpt.exiting with hnone | hsame | ⟨ec', hnew, hmain⟩
      · rw [hnone] at h
        cases h
      · rw [hsame] at h
        exact hs.exiting u hu pID ec h
      · rw [hnew] at h
        cases h
        exact hmain
    · exact hs.exiting u hu pID ec h

theorem TableInv.newSlot (hs : TableInv s) {id caller : Nat} {c : PcbId} {filename : String}
    (hnew : NewSlot s s' id caller) (hmoves : Moves s s' t (.execFork c id filename)) :
    TableInv s' := by
  refine ⟨by rw [hnew.bm, BitMap.numBits_mark, BitMap.numBits_mark, hs.numBits],
    by rw [hnew.test, hs.main, Bool.or_true], ?_, ?_, ?_⟩
  · intro i hi hbit
    by_cases heq : i = id
    · exact ⟨s.numPcbs, heq ▸ hnew.occupied hs.numBits⟩
    · rw [hnew.test] at hbit
      obtain ⟨c', hocc⟩ := hs.slots i hi (by simpa [heq] using hbit)
      exact ⟨c', hocc.newSlot hnew⟩
  · intro i c' h
    rw [hnew.pcb, update_apply] at h
    rw [hnew.numPcbs]
    split_ifs at h
    · cases h
      exact Nat.lt_succ_self _
    · exact Nat.lt_succ_of_lt (hs.constructed i c' h)
  · intro u hu pID ec h
    rw [hmoves.numThreads] at hu
    rw [hmoves.point] at h
    split_ifs at h
    · cases h
    · exact hs.exiting u hu pID ec h

theorem TableInv.fork (hs : TableInv s) (ht : t < s.numThreads) (c : PcbId) (id : Nat)
    (filename : String) : TableInv ((s.fork c id filename).goto t (.execMutexV c id)) := by
  have htable : SameTable s ((s.fork c id filename).goto t (.execMutexV c id)) :=
    .of_update rfl rfl rfl rfl rfl rfl rfl
  refine ⟨hs.numBits, hs.main, ?_, hs.constructed, ?_⟩
  · intro i hi hbit
    obtain ⟨c', hocc⟩ := hs.slots i hi hbit
    exact ⟨c', hocc.sameTable htable⟩
  · intro u hu pID ec h
    rcases Nat.lt_succ_iff_lt_or_eq.mp hu with hlt | rfl
    · rw [fork_old ht c id filename hlt] at h
      split_ifs at h
      · cases h
      · exact hs.exiting u hlt pID ec h
    · rw [fork_new ht] at h
      cases h

/-- What `Remove` of a slot other than 0 leaves of the table. -/
theorem TableInv.exitReturn (hs : TableInv s) {pID : Nat} (hmain : pID ≠ 0) :
    TableInv (s.exitReturn t pID) := by
  have hexiting : ∀ u, u < s.numThreads → ∀ pID' ec,
      ((s.exitReturn t pID).threads u).point.exiting = some (pID', ec) → pID' ≠ 0 := by
    intro u hu pID' ec h
    rw [exitReturn_threads, update_apply] at h
    split_ifs at h
    · cases h
    · exact hs.exiting u hu pID' ec h
  by_cases hset : pID ≤ 9 ∧ s.bm.test pID = true
  · have hlt : pID < maxProcess := Nat.lt_succ_of_le hset.1
    obtain ⟨c, hocc⟩ := hs.slots pID hlt hset.2
    have heq := hocc.exitReturn t
    have htest : ∀ i, (s.exitReturn t pID).bm.test i = (decide (i ≠ pID) && s.bm.test i) := by
      intro i
      rw [heq, BitMap.test_clear s.bm (by rw [hs.numBits]; exact hlt), decide_not]
    refine ⟨by rw [heq]; exact hs.numBits, ?_, ?_, ?_, ?_⟩
    · rw [htest]
      simp [hmain.symm, hs.main]
    · intro i hi hbit
      rw [htest] at hbit
      simp only [Bool.and_eq_true, decide_eq_true_eq] at hbit
      obtain ⟨c', hocc'⟩ := hs.slots i hi hbit.2
      refine ⟨c', hocc.remove hs.numBits hocc' ?_ t⟩
      rintro rfl
      exact hbit.1 (hocc'.pid.symm.trans hocc.pid)
    · rw [heq]
      exact hs.constructed
    · rw [heq] at hexiting ⊢
      exact hexiting
  · have heq : s.exitReturn t pID =
        s.setThread t { s.threads t with point := .user, exited := true } := by
      rw [State.exitReturn, remove_of_clear s hset]
    refine ⟨by rw [heq]; exact hs.numBits, by rw [heq]; exact hs.main, ?_, ?_, ?_⟩
    · intro i hi hbit
      rw [heq] at hbit ⊢
      obtain ⟨c, hocc⟩ := hs.slots i hi hbit
      exact ⟨c, hocc.sameTable (.of_eq rfl rfl rfl rfl)⟩
    · rw [heq]
      exact hs.constructed
    · rw [heq] at hexiting ⊢
      exact hexiting

theorem TableInv.step (hs : TableInv s) (h : step s l = some s') : TableInv s' := by
  obtain ⟨hrun, htrans⟩ := step_trans h
  have ht := lt_of_runnable hrun
  rcases trans_shape htrans with hquiet | ⟨id, filename, hnew, hmoves⟩ |
    ⟨c, id, filename, hpt, rfl⟩ | ⟨c, ec, hpt, hmain, hrem, hpcb, rfl⟩ | ⟨pID, ec, hpt, hrem, rfl⟩
  · exact hs.quiet hquiet
  · exact hs.newSlot hnew hmoves
  · exact hs.fork ht c id filename
  · have hset : Quiet s (s.setExitCode l.thread c ec) l.thread :=
      ⟨.of_update rfl rfl rfl rfl rfl rfl rfl, _, .of_eq (by rfl) (by rfl) _, .same s _⟩
    exact (hs.quiet hset).exitReturn hmain
  · exact hs.exitReturn (hs.exiting _ ht pID ec (by rw [hpt]; rfl))

/-! ## The audit -/

/-- A slot that an `ExecUpdate` has filled, with what was there before. -/
structure Take where
  slot : Nat
  /-- The bit of the slot was set. -/
  wasSet : Bool
  /-- The slot had been taken by an `ExecUpdate` and its bit had not been cleared since. -/
  wasHeld : Bool
  /-- The PCB stored in `pcb[slot]`. -/
  stored : Option PCB
  /-- The process ID of the thread that runs `ExecUpdate`. -/
  caller : Nat

/-- What a call of `ExecUpdate` has done so far. -/
structure ExecCall where
  /-- How often it has completed `bmsem->P()`. -/
  ps : Nat := 0
  /-- How often it has completed `bmsem->V()`. -/
  vs : Nat := 0
  bmChanged : Bool := false
  takes : List Take := []

/-- A call of `ExecUpdate` that has returned. -/
structure ExecReturn where
  result : Int
  call : ExecCall

structure Audit where
  state : State
  /-- The latest call of `ExecUpdate` of every thread. -/
  calls : Tid → ExecCall
  returns : List ExecReturn
  held : Nat → Bool

/-- The entries of `pcb` that differ. -/
def storedSlots (s s' : State) : List Nat :=
  (List.range maxProcess).filter fun i => s'.pcb i ≠ s.pcb i

/-- The slots that the step of `t` from `s` to `s'` fills. -/
def takesOf (held : Nat → Bool) (s s' : State) (t : Tid) : List Take :=
  (storedSlots s s').map fun i =>
    ⟨i, s.bm.test i, held i, (s'.pcb i).map s'.heap, (s.threads t).processID⟩

/-- The call goes on by a step of its thread `t` from `s` to `s'`. -/
def ExecCall.extend (call : ExecCall) (held : Nat → Bool) (s s' : State) (t : Tid) : ExecCall where
  ps := call.ps + ((s'.sems .bmsem).completedP - (s.sems .bmsem).completedP)
  vs := call.vs + ((s'.sems .bmsem).completedV - (s.sems .bmsem).completedV)
  bmChanged := call.bmChanged || decide (s'.bm ≠ s.bm)
  takes := call.takes ++ takesOf held s s' t

/-- The step begins a call of `ExecUpdate`. -/
def Label.isExec : Label → Bool
  | .call _ (.exec _) => true
  | _ => false

/-- The result, when the step ends a call of `ExecUpdate`. -/
def execResult (s : State) : Label → Option Int
  | .resume t _ =>
    match (s.threads t).point with
    | .execV result _ => some result
    | _ => none
  | .call _ _ => none

/-- The call of `ExecUpdate` that the step belongs to, after the step. -/
def Audit.callAfter (a : Audit) (l : Label) (s' : State) : ExecCall :=
  (if l.isExec then {} else a.calls l.thread).extend a.held a.state s' l.thread

def Audit.observe (a : Audit) (l : Label) (s' : State) : Audit where
  state := s'
  calls := update a.calls l.thread (a.callAfter l s')
  returns :=
    match execResult a.state l with
    | none => a.returns
    | some result => ⟨result, a.callAfter l s'⟩ :: a.returns
  held := fun i => if i ∈ storedSlots a.state s' then true else a.held i && s'.bm.test i

/-- A step of the system under audit. -/
def auditStep (a : Audit) (l : Label) : Option Audit := (step a.state l).map (a.observe l)

def Audit.boot : Audit where
  state := Userprog.boot
  calls := fun _ => {}
  returns := []
  held := fun _ => false

/-- The slot was free, and it now holds the PCB of the new process. -/
structure Take.Sound (k : Take) : Prop where
  free : k.wasSet = false
  exclusive : k.wasHeld = false
  stored : ∃ p, k.stored = some p ∧ p.pid = k.slot ∧ p.parentID = k.caller

/-- The slots that calls of `ExecUpdate` have taken were free, a call that failed has changed
nothing and released `bmsem` as often as it acquired it, and a call that succeeded has taken the
slot it returns. -/
structure ExecSpec (a : Audit) : Prop where
  takes : ∀ t, ∀ k ∈ (a.calls t).takes, k.Sound
  failed : ∀ r ∈ a.returns, r.result = -1 →
    r.call.bmChanged = false ∧ r.call.takes = [] ∧ r.call.vs = r.call.ps
  succeeded : ∀ r ∈ a.returns, r.result ≠ -1 →
    ∃ k, r.call.takes = [k] ∧ k.Sound ∧ r.result = k.slot ∧ 1 ≤ k.slot ∧ k.slot ≤ 9

/-! ## What a step adds to a call -/

/-- The call holds `bmsem` and has filled the slot `id`. -/
def ExecCall.Took (call : ExecCall) (id : Nat) : Prop :=
  call.ps = 1 ∧ call.vs = 0 ∧ (1 ≤ id ∧ id ≤ 9) ∧ ∃ k, call.takes = [k] ∧ k.slot = id

/-- What a thread at `pt` has done since it called `ExecUpdate`. -/
def CallOk (pt : Point) (call : ExecCall) : Prop :=
  match pt with
  | .execP _ => call = {}
  | .execBody _ => call = { ps := 1 }
  | .execMutexP _ id _ | .execFork _ id _ | .execMutexV _ id => call.Took id
  | .execV result _ => result = -1 ∧ call = { ps := 1 } ∨ ∃ id : Nat, result = id ∧ call.Took id
  | _ => True

/-- The step touches neither `bm` nor `pcb`, and completes `p` and `v` calls on `bmsem`. -/
structure OnlyCounts (s s' : State) (p v : Nat) : Prop where
  bm : s'.bm = s.bm
  pcb : s'.pcb = s.pcb
  ps : (s'.sems .bmsem).completedP = (s.sems .bmsem).completedP + p
  vs : (s'.sems .bmsem).completedV = (s.sems .bmsem).completedV + v

theorem OnlyCounts.of_eq (hbm : s'.bm = s.bm) (hpcb : s'.pcb = s.pcb)
    (hsem : s'.sems .bmsem = s.sems .bmsem) : OnlyCounts s s' 0 0 :=
  ⟨hbm, hpcb, by rw [hsem, Nat.add_zero], by rw [hsem, Nat.add_zero]⟩

theorem storedSlots_of_eq (h : s'.pcb = s.pcb) : storedSlots s s' = [] := by
  simp [storedSlots, h]

theorem OnlyCounts.extend {p v : Nat} (h : OnlyCounts s s' p v) (call : ExecCall)
    (held : Nat → Bool) (t : Tid) :
    call.extend held s s' t = { call with ps := call.ps + p, vs := call.vs + v } := by
  simp [ExecCall.extend, takesOf, storedSlots_of_eq h.pcb, h.bm, h.ps, h.vs]

theorem OnlyCounts.extend_zero (h : OnlyCounts s s' 0 0) (call : ExecCall) (held : Nat → Bool)
    (t : Tid) : call.extend held s s' t = call := by
  rw [h.extend]
  rfl

/-- A test of `bmsem->P()`, from a call that has done nothing. -/
theorem callOk_bmsemP (held : Nat → Bool) (filename : String) :
    CallOk ((s.p t .bmsem (.execP filename) (.execBody filename)).threads t).point
      (ExecCall.extend {} held s (s.p t .bmsem (.execP filename) (.execBody filename)) t) := by
  have hsems := p_sems s t .bmsem (.execP filename) (.execBody filename)
  rw [p_threads, update_self]
  by_cases hzero : (s.sems .bmsem).value = 0
  · have hcounts : OnlyCounts s (s.p t .bmsem (.execP filename) (.execBody filename)) 0 0 :=
      ⟨by simp, by simp, by simp [hsems, hzero], by simp [hsems, hzero]⟩
    rw [hcounts.extend_zero]
    simp [hzero, CallOk]
  · have hcounts : OnlyCounts s (s.p t .bmsem (.execP filename) (.execBody filename)) 1 0 :=
      ⟨by simp, by simp, by simp [hsems, hzero], by simp [hsems, hzero]⟩
    rw [hcounts.extend]
    simp [hzero, CallOk]

theorem OnlyCounts.p {r : SemRef} {w n : Point} (hr : r ≠ .bmsem) :
    OnlyCounts s (s.p t r w n) 0 0 :=
  .of_eq (by simp) (by simp) (by rw [p_sems, update_of_ne hr.symm])

theorem OnlyCounts.v {r : SemRef} (hr : r ≠ .bmsem) : OnlyCounts s (s.v r) 0 0 :=
  .of_eq (by simp) (by simp) (by rw [v_sems, update_of_ne hr.symm])

/-- The only new entry of `pcb` is that of the slot. -/
theorem NewSlot.storedSlots {id caller : Nat} (hs : TableInv s) (h : NewSlot s s' id caller) :
    storedSlots s s' = [id] := by
  have hdiff : ∀ i, s'.pcb i ≠ s.pcb i ↔ i = id := by
    intro i
    rw [h.pcb, update_apply]
    split_ifs with heq
    · subst heq
      refine ⟨fun _ => rfl, fun _ hold => ?_⟩
      exact absurd (hs.constructed i _ hold.symm) (Nat.lt_irrefl _)
    · simp [heq]
  have hid : id ∈ List.range maxProcess := by
    rw [List.mem_range, ← hs.numBits]
    exact h.range
  simp only [Userprog.storedSlots, hdiff]
  rw [List.filter_eq, List.count_eq_one_of_mem List.nodup_range hid]
  rfl

theorem NewSlot.takesOf {id caller : Nat} (hs : TableInv s) (h : NewSlot s s' id caller)
    (held : Nat → Bool) (t : Tid) :
    takesOf held s s' t =
      [⟨id, false, held id, some (PCB.new id caller), (s.threads t).processID⟩] := by
  simp [Userprog.takesOf, h.storedSlots hs, h.free, h.pcb, h.heap]

/-- A free slot is not slot 0. -/
theorem TableInv.slot_range (hs : TableInv s) {id : Nat} (hid : id < s.bm.numBits)
    (hfree : s.bm.test id = false) : 1 ≤ id ∧ id ≤ 9 := by
  have hne : id ≠ 0 := by
    rintro rfl
    rw [hs.main] at hfree
    cases hfree
  rw [hs.numBits, maxProcess] at hid
  omega

/-- A step inside a call that adds nothing to it. -/
theorem OnlyCounts.callOk (h : OnlyCounts s s' 0 0) (hexec : l.isExec = false) {pt : Point}
    {call : ExecCall} (held : Nat → Bool) (hcall : CallOk pt call) :
    CallOk pt ((if l.isExec then {} else call).extend held s s' t) := by
  rw [h.extend_zero, hexec]
  exact hcall

/-- A call is where the audit says it is, after every step of its thread. -/
theorem callOk_trans (hs : TableInv s) (h : Trans s l s')
    (huser : l.isExec = true → (s.threads l.thread).point = .user) {call : ExecCall}
    (held : Nat → Bool) (hcall : CallOk (s.threads l.thread).point call) :
    CallOk (s'.threads l.thread).point
      ((if l.isExec then {} else call).extend held s s' l.thread) := by
  cases h with
  | other => exact OnlyCounts.callOk (.of_eq rfl rfl rfl) rfl held hcall
  | stop why =>
    have hcounts : OnlyCounts s (s.stop why) 0 0 := .of_eq rfl rfl rfl
    cases hexec : l.isExec with
    | true =>
      rw [stop_threads, huser hexec]
      exact trivial
    | false => exact hexec ▸ hcounts.callOk hexec held hcall
  | exec hpt => exact callOk_bmsemP held _
  | execP hpt =>
    rw [Label.thread, hpt] at hcall
    obtain rfl := hcall
    exact callOk_bmsemP held _
  | @execFail t file filename hpt =>
    rw [Label.thread, hpt] at hcall
    have hcounts : OnlyCounts s (s.goto t (.execV (-1) none)) 0 0 := .of_eq rfl rfl rfl
    refine hcounts.callOk rfl held ?_
    simpa [Label.thread, goto, CallOk] using hcall
  | @execNew t file filename id hpt hid hfree =>
    rw [Label.thread, hpt] at hcall
    obtain rfl := hcall
    have hnew : NewSlot s ((s.newPCB t id (s.bm.mark id)).take t (.mutex s.numPcbs)
        (.execFork s.numPcbs id filename)) id (s.threads t).processID :=
      ⟨hid, hfree, rfl, rfl, rfl, rfl⟩
    simp only [Label.thread, take_threads, update_self, CallOk]
    refine ⟨?_, ?_, hs.slot_range hid hfree, ?_⟩
    · simp [ExecCall.extend, Label.isExec, SemRef.owner]
    · simp [ExecCall.extend, Label.isExec, SemRef.owner]
    · exact ⟨_, hnew.takesOf hs held t, rfl⟩
  | mutexP hpt =>
    rw [Label.thread, hpt] at hcall
    refine OnlyCounts.callOk (.p (by simp)) rfl held ?_
    rw [Label.thread, p_threads, update_self]
    simp only
    split_ifs <;> exact hcall
  | @fork t file c id filename hpt halive =>
    rw [Label.thread, hpt] at hcall
    have hcounts : OnlyCounts s ((s.fork c id filename).goto t (.execMutexV c id)) 0 0 :=
      .of_eq rfl rfl rfl
    refine hcounts.callOk rfl held ?_
    simpa [Label.thread, goto, CallOk] using hcall
  | @mutexV t file c id hpt halive =>
    rw [Label.thread, hpt] at hcall
    have hv : OnlyCounts s (s.v (.mutex c)) 0 0 := .v (by simp)
    have hcounts : OnlyCounts s ((s.v (.mutex c)).goto t (.execV id (some c))) 0 0 :=
      ⟨hv.bm, hv.pcb, hv.ps, hv.vs⟩
    refine hcounts.callOk rfl held ?_
    simp only [Label.thread, goto, setThread_threads, update_self, CallOk] at hcall ⊢
    exact .inr ⟨_, rfl, hcall⟩
  | load hpt hframes => simp [Label.thread, CallOk]
  | execV hpt => simp [Label.thread, execReturn, CallOk]
  | joinFail hpt hfail => simp [Label.thread, joinReturn, goto, CallOk]
  | @joinStop t pID why =>
    have hpoint := (Moves.forget s t pID).point t
    rw [if_pos rfl] at hpoint
    have hcounts : OnlyCounts s ((s.forget t pID).stop why) 0 0 :=
      .of_eq (by simp) (by simp) (by rw [stop_sems, forget_sems])
    refine hcounts.callOk rfl held ?_
    rw [Label.thread, stop_threads, hpoint]
    exact hcall
  | joinWait hpt hrange hbit hpcb halive hparent =>
    rw [Label.thread, State.joinWait, p_threads, update_self]
    simp only
    split_ifs <;> exact trivial
  | joinP hpt =>
    rw [Label.thread, p_threads, update_self]
    simp only
    split_ifs <;> exact trivial
  | joinError hpt hpcb halive hec => simp [Label.thread, joinReturn, goto, CallOk]
  | joinOk hpt hpcb halive hec => simp [Label.thread, joinReturn, goto, CallOk]
  | exitGone hpt hgone => simp [Label.thread, goto, CallOk]
  | exitAlone hpt hpID hbit hmain hpcb halive hjoin =>
    simp [Label.thread, exitReturn_threads, CallOk]
  | exitJoined hpt hpID hbit hmain hpcb halive hjoin => simp [Label.thread, goto, CallOk]
  | exitWait hpt hpcb halive =>
    rw [Label.thread, p_threads, update_self]
    simp only
    split_ifs <;> exact trivial
  | exitP hpt =>
    rw [Label.thread, p_threads, update_self]
    simp only
    split_ifs <;> exact trivial
  | exitRemove hpt => simp [Label.thread, exitReturn_threads, CallOk]

/-- The return from `ExecUpdate` is a `bmsem->V()`. -/
theorem execResult_step {result : Int} (h : step s l = some s')
    (hres : execResult s l = some result) :
    (∃ child, (s.threads l.thread).point = .execV result child) ∧ l.isExec = false ∧
      OnlyCounts s s' 0 1 := by
  cases l with
  | call t c => simp [execResult] at hres
  | resume t file =>
    simp only [execResult] at hres
    split at hres
    next r child hpt =>
      cases hres
      simp only [step] at h
      split_ifs at h
      obtain rfl := Option.some.inj h
      refine ⟨⟨child, hpt⟩, rfl, ?_⟩
      simp only [resume, hpt]
      exact ⟨by simp [execReturn], by simp [execReturn], by simp [execReturn], by simp [execReturn]⟩
    next => cases hres

/-- A call of `ExecUpdate` begins in user code. -/
theorem user_of_isExec (h : step s l = some s') (hexec : l.isExec = true) :
    (s.threads l.thread).point = .user := by
  cases l with
  | call t c =>
    simp only [step] at h
    split_ifs at h with hrun
    exact hrun.2
  | resume t file => cases hexec

/-- A step leaves `pcb` as it is or fills one free slot for its thread. -/
theorem trans_pcb (h : Trans s l s') :
    s'.pcb = s.pcb ∨ ∃ id, NewSlot s s' id (s.threads l.thread).processID := by
  rcases trans_shape h with ⟨htable, -⟩ | ⟨id, filename, hnew, -⟩ |
    ⟨c, id, filename, -, rfl⟩ | ⟨c, ec, -, -, -, -, rfl⟩ | ⟨pID, ec, -, -, rfl⟩
  · exact .inl htable.pcb
  · exact .inr ⟨id, hnew⟩
  · exact .inl rfl
  · exact .inl (by simp [exitReturn])
  · exact .inl (by simp [exitReturn])

/-- A step moves its own thread and makes at most one new one. -/
theorem trans_others (h : Trans s l s') (ht : l.thread < s.numThreads) {u : Tid}
    (hu : u < s'.numThreads) (hne : u ≠ l.thread) :
    u < s.numThreads ∧ (s'.threads u).point = (s.threads u).point ∨
      (s'.threads u).point = .myStartProcess := by
  rcases trans_shape h with ⟨-, pt, hmoves, -⟩ | ⟨id, filename, -, hmoves⟩ |
    ⟨c, id, filename, -, rfl⟩ | ⟨c, ec, -, -, -, -, rfl⟩ | ⟨pID, ec, -, -, rfl⟩
  · rw [hmoves.point, if_neg hne]
    exact .inl ⟨hmoves.numThreads ▸ hu, rfl⟩
  · rw [hmoves.point, if_neg hne]
    exact .inl ⟨hmoves.numThreads ▸ hu, rfl⟩
  · rcases Nat.lt_succ_iff_lt_or_eq.mp hu with hlt | rfl
    · rw [fork_old ht c id filename hlt, if_neg hne]
      exact .inl ⟨hlt, rfl⟩
    · rw [fork_new ht]
      exact .inr rfl
  · rw [exitReturn_threads, update_of_ne hne]
    exact .inl ⟨by simpa [exitReturn] using hu, rfl⟩
  · rw [exitReturn_threads, update_of_ne hne]
    exact .inl ⟨by simpa [exitReturn] using hu, rfl⟩

/-! ## The invariant -/

structure AuditInv (a : Audit) : Prop where
  table : TableInv a.state
  held : ∀ i, a.held i = true → a.state.bm.test i = true
  calls : ∀ t, t < a.state.numThreads → CallOk (a.state.threads t).point (a.calls t)
  spec : ExecSpec a

theorem AuditInv.boot : AuditInv Audit.boot := by
  refine ⟨TableInv.boot, by simp [Audit.boot], ?_, ?_, ?_, ?_⟩
  · intro t _
    by_cases ht : t = 0 <;> simp [Audit.boot, Userprog.boot, ht, CallOk]
  all_goals simp [Audit.boot]

variable {a : Audit}

/-- A slot that a step fills was free, and no call held it. -/
theorem AuditInv.takesOf_sound (ha : AuditInv a) (h : Trans a.state l s') :
    ∀ k ∈ takesOf a.held a.state s' l.thread, k.Sound := by
  rcases trans_pcb h with hpcb | ⟨id, hnew⟩
  · simp [takesOf, storedSlots_of_eq hpcb]
  · rw [hnew.takesOf ha.table]
    intro k hk
    obtain rfl := List.mem_singleton.mp hk
    refine ⟨rfl, ?_, _, rfl, rfl, ?_⟩
    · by_contra hheld
      have hset := ha.held id (by simpa using hheld)
      rw [hnew.free] at hset
      cases hset
    · have hid := (ha.table.slot_range hnew.range hnew.free).1
      simp [PCB.new, Nat.ne_of_gt hid]

theorem AuditInv.callAfter_sound (ha : AuditInv a) (h : Trans a.state l s') :
    ∀ k ∈ (a.callAfter l s').takes, k.Sound := by
  intro k hk
  simp only [Audit.callAfter, ExecCall.extend, List.mem_append] at hk
  rcases hk with hold | hnew
  · split_ifs at hold with hexec
    · simp at hold
    · exact ha.spec.takes _ k hold
  · exact ha.takesOf_sound h k hnew

/-- The record of a call that returns. -/
theorem AuditInv.returns (ha : AuditInv a) (h : step a.state l = some s') {result : Int}
    (hres : execResult a.state l = some result) :
    (result = -1 ∧ (a.callAfter l s').bmChanged = false ∧ (a.callAfter l s').takes = [] ∧
      (a.callAfter l s').vs = (a.callAfter l s').ps) ∨
    ∃ k, (a.callAfter l s').takes = [k] ∧ result = k.slot ∧ 1 ≤ k.slot ∧ k.slot ≤ 9 := by
  obtain ⟨⟨child, hpt⟩, hexec, hcounts⟩ := execResult_step h hres
  have hcall := ha.calls l.thread (lt_of_runnable (step_trans h).1)
  rw [hpt] at hcall
  rw [Audit.callAfter, hexec, hcounts.extend]
  rcases hcall with ⟨rfl, hcall⟩ | ⟨id, rfl, -, -, hid, k, hk, rfl⟩
  · exact .inl (by simp [hcall])
  · exact .inr ⟨k, by simpa using hk, rfl, hid⟩

theorem AuditInv.spec_observe (ha : AuditInv a) (h : step a.state l = some s') :
    ExecSpec (a.observe l s') := by
  have htrans := (step_trans h).2
  refine ⟨?_, ?_, ?_⟩
  · intro t k hk
    simp only [Audit.observe, update_apply] at hk
    split_ifs at hk
    · exact ha.callAfter_sound htrans k hk
    · exact ha.spec.takes t k hk
  · intro r hr hfail
    simp only [Audit.observe] at hr
    split at hr
    next => exact ha.spec.failed r hr hfail
    next result hres =>
      rcases List.mem_cons.mp hr with rfl | hold
      · rcases ha.returns h hres with ⟨-, hcall⟩ | ⟨k, -, hslot, -⟩
        · exact hcall
        · exact absurd (hslot.symm.trans hfail) (by simp)
      · exact ha.spec.failed r hold hfail
  · intro r hr hok
    simp only [Audit.observe] at hr
    split at hr
    next => exact ha.spec.succeeded r hr hok
    next result hres =>
      rcases List.mem_cons.mp hr with rfl | hold
      · rcases ha.returns h hres with ⟨hfail, -⟩ | ⟨k, htakes, hslot⟩
        · exact absurd hfail hok
        · have hsound := ha.callAfter_sound htrans k (by rw [htakes]; exact List.mem_singleton_self k)
          exact ⟨k, htakes, hsound, hslot⟩
      · exact ha.spec.succeeded r hold hok

theorem AuditInv.step (ha : AuditInv a) {a' : Audit} (h : auditStep a l = some a') :
    AuditInv a' := by
  obtain ⟨s', hs', rfl⟩ := Option.map_eq_some_iff.mp h
  obtain ⟨hrun, htrans⟩ := step_trans hs'
  refine ⟨ha.table.step hs', ?_, ?_, ha.spec_observe hs'⟩
  · intro i hheld
    simp only [Audit.observe] at hheld ⊢
    split_ifs at hheld with hstored
    · rcases trans_pcb htrans with hpcb | ⟨id, hnew⟩
      · simp [storedSlots_of_eq hpcb] at hstored
      · rw [hnew.storedSlots ha.table, List.mem_singleton] at hstored
        rw [hnew.test, hstored]
        simp
    · exact (Bool.and_eq_true_iff.mp hheld).2
  · intro u hu
    simp only [Audit.observe, update_apply] at hu ⊢
    split_ifs with hut
    · subst hut
      exact callOk_trans ha.table htrans (user_of_isExec hs') a.held
        (ha.calls _ (lt_of_runnable hrun))
    · rcases trans_others htrans (lt_of_runnable hrun) hu hut with ⟨hlt, hpoint⟩ | hstart
      · rw [hpoint]
        exact ha.calls u hlt
      · rw [hstart]
        exact trivial

/-- In every run of any calls of any threads, `ExecUpdate` takes free slots only, a call that
fails has changed nothing and released `bmsem`, and a call that succeeds has taken the slot in
`1..9` that it returns. -/
theorem execSpec_throughout (ls : List Label) :
    Runs.AllStates auditStep ExecSpec Audit.boot ls :=
  (Runs.allStates_of_invariant (fun _ _ _ ha h => ha.step h) AuditInv.boot ls).mono
    fun _ ha => ha.spec

example : (Runs.run auditStep Audit.boot (.resume 0 (some emptyProgram) :: execLabels "child")).map
    (fun a => a.returns.map fun r => (r.result, r.call.ps, r.call.vs)) = some [(1, 1, 1)] := by
  decide +kernel

end Nachos.Userprog
