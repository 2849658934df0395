import Nachos.Machine.Interrupt

/-!
# Interrupts for the same tick

`CheckIfDue(FALSE)` takes the first pending interrupt off the list, and when its time has not come
it puts it back with `SortedInsert`, that is, behind the other interrupts for the same tick. Two
interrupts for one tick therefore change places each time the clock is read before they are due.

A run is here the sequence of the calls of `Schedule` and `CheckIfDue`, with any change of the clock,
the levels and the rest of the machine between them. The routines of `Machine.Interrupt` are such
runs (`calls_of_step`).

`keepsPending_iff`: a check that fires nothing leaves the list alone exactly when its first
interrupt is due, or is the only one for its tick. In a run whose checks are all of this kind,
interrupts for the same tick fire in the order in which they were scheduled (`sameTick_iff`).
-/

namespace Nachos.Interrupts

open Runs
open StableQueue (Stable)

variable {W H : Type}

namespace Interrupt

/-! ### Putting an interrupt back -/

section PutBack

variable (run : H → Interrupt W H → Response W H)

/-- `CheckIfDue(FALSE)` changes nothing in the list when it returns `FALSE`. -/
def KeepsPending (s : Interrupt W H) : Prop :=
  ∀ s', s.checkIfDue run false = some (false, s') → s'.pending = s.pending

/-- The first pending interrupt is due, or is the only one for its tick. -/
def HeadAlone (s : Interrupt W H) : Prop :=
  ∀ p rest, s.pending = p :: rest → s.totalTicks < p.when → ∀ q ∈ rest, q.when = p.when → q = p

variable {run} {s s' : Interrupt W H} {p : PendingInterrupt H} {rest : List (PendingInterrupt H)}

/-- The first interrupt goes back to its place when no other is for its tick. -/
theorem sortedInsert_eq_cons_iff (h : Sorted (p :: rest)) :
    sortedInsert p rest = p :: rest ↔ ∀ q ∈ rest, q.when = p.when → q = p := by
  have hqueue : StableQueue.Sorted PendingInterrupt.when (p :: rest) := h
  rw [sortedInsert_eq]
  exact StableQueue.insert_eq_cons_iff hqueue

theorem checkIfDue_not_due (hlevel : s.level = .intOff) (hpending : s.pending = p :: rest)
    (hlt : s.totalTicks < p.when) :
    s.checkIfDue run false = some (false, putBack p { s with pending := rest }) := by
  unfold checkIfDue
  rw [if_neg fun hne => hne hlevel, hpending]
  simp only [Bool.false_eq_true, false_and, if_false]
  exact if_pos hlt

/-- A due interrupt is put back only by an idle machine, and then it is the only one. -/
theorem pending_of_deliver (h : deliver run p { s with pending := rest } = some (false, s')) :
    s'.pending = p :: rest := by
  unfold deliver at h
  split at h
  · rename_i hidle
    cases h
    have hnil : rest = [] := List.isEmpty_iff.mp hidle.2.2
    subst hnil
    rfl
  · obtain ⟨t, -, heq⟩ := Option.map_eq_some_iff.mp h
    cases heq

/-- A check that fires nothing keeps the list exactly when it is made with a first interrupt
that is due or alone. With interrupts on, the check fails its ASSERT. -/
theorem keepsPending_iff (hsorted : Sorted s.pending) :
    KeepsPending run s ↔ (s.level = .intOff → s.HeadAlone) := by
  constructor
  · intro hkeeps hlevel p rest hpending hlt
    have hback := hkeeps _ (checkIfDue_not_due hlevel hpending hlt)
    rw [hpending] at hback hsorted
    exact (sortedInsert_eq_cons_iff hsorted).mp hback
  · intro halone s' h
    unfold checkIfDue at h
    split at h
    · cases h
    rename_i hlevel
    split at h
    · cases h
      rfl
    · rename_i p rest hpending
      simp only [Bool.false_eq_true, false_and, if_false] at h
      split at h
      · rename_i hlt
        cases h
        have hback := halone (not_not.mp hlevel) p rest hpending hlt
        rw [hpending] at hsorted ⊢
        exact (sortedInsert_eq_cons_iff hsorted).mpr hback
      · rw [hpending]
        exact pending_of_deliver h

end PutBack

/-! ### The order of scheduling -/

/-- Interrupts for the same tick have fired in the order in which they were scheduled. -/
def InOrder (s : Interrupt W H) : Prop :=
  s.fired.Pairwise fun f g => f.when = g.when → f.id < g.id

/-- The pending interrupts are a stable queue. -/
def Queued (s : Interrupt W H) : Prop :=
  Stable PendingInterrupt.when PendingInterrupt.id s.pending
    (s.fired.map fun f => (f.when, f.id)) s.scheduled

variable {run : H → Interrupt W H → Response W H} {s s' : Interrupt W H}
  {p : PendingInterrupt H} {rest : List (PendingInterrupt H)}

theorem Queued.inOrder (h : s.Queued) : s.InOrder := List.pairwise_map.mp (Stable.inOrder h)

theorem queued_schedule {r : Request H} (hs : s.Queued) (h : s.schedule r = some s') :
    s'.Queued := by
  unfold schedule at h
  split at h
  · cases h
    unfold Queued
    rw [sortedInsert_eq]
    exact Stable.insert hs rfl
  · cases h

theorem queued_scheduleAll {rs : List (Request H)} (hs : s.Queued)
    (h : scheduleAll rs s = some s') : s'.Queued := by
  induction rs generalizing s with
  | nil =>
    cases h
    exact hs
  | cons r rs ih =>
    obtain ⟨t, ht, hrest⟩ := Option.bind_eq_some_iff.mp h
    exact ih (queued_schedule hs ht) hrest

theorem queued_fire (hs : s.Queued) (hpending : s.pending = p :: rest)
    (h : fire run p { s with pending := rest } = some s') : s'.Queued := by
  obtain ⟨t, ht, rfl⟩ := Option.map_eq_some_iff.mp h
  have hall : t.Queued := by
    refine queued_scheduleAll ?_ ht
    unfold Queued at hs ⊢
    rw [hpending] at hs
    have hserved := hs.serve
    unfold answer enter
    rw [List.map_append]
    exact hserved
  exact hall

/-- An interrupt that is put back where it was changes nothing. -/
theorem queued_of_pending (hs : s.Queued) (hpending : s'.pending = s.pending)
    (hfired : s'.fired = s.fired) (hscheduled : s'.scheduled = s.scheduled) : s'.Queued := by
  unfold Queued
  rw [hpending, hfired, hscheduled]
  exact hs

theorem queued_deliver {b : Bool} (hs : s.Queued) (hpending : s.pending = p :: rest)
    (h : deliver run p { s with pending := rest } = some (b, s')) : s'.Queued := by
  cases b with
  | false =>
    have hback : s'.pending = s.pending := (pending_of_deliver h).trans hpending.symm
    unfold deliver at h
    split at h
    · cases h
      exact queued_of_pending hs hback rfl rfl
    · obtain ⟨t, -, heq⟩ := Option.map_eq_some_iff.mp h
      cases heq
  | true =>
    unfold deliver at h
    split at h
    · cases h
    · obtain ⟨t, ht, heq⟩ := Option.map_eq_some_iff.mp h
      cases heq
      exact queued_fire hs hpending ht

/-- A check keeps the order when its first interrupt is due or alone. `Idle`'s own check moves the
clock to the first interrupt, so this one is due. -/
theorem queued_checkIfDue {advanceClock b : Bool} (hs : s.Queued)
    (halone : advanceClock = false → s.HeadAlone)
    (h : checkIfDue run advanceClock s = some (b, s')) : s'.Queued := by
  unfold checkIfDue at h
  split at h
  · cases h
  split at h
  · cases h
    exact hs
  rename_i p rest hpending
  dsimp only at h
  split at h
  · exact queued_deliver (s := s.advanceTo p.when) hs hpending h
  rename_i hadvance
  split at h
  · rename_i hlt
    have hfalse : advanceClock = false := by
      cases advanceClock with
      | false => rfl
      | true => exact absurd ⟨rfl, hlt⟩ hadvance
    cases h
    refine queued_of_pending hs ?_ rfl rfl
    have hsorted : Sorted s.pending := hs.sorted
    rw [hpending] at hsorted ⊢
    exact (sortedInsert_eq_cons_iff hsorted).mpr (halone hfalse p rest hpending hlt)
  · exact queued_deliver hs hpending h

end Interrupt

open Interrupt

/-! ### Runs of calls -/

/-- A call of one of the two routines that use the list, or what happens between two of them. -/
inductive Call (W H : Type)
  | schedule (r : Request H)
  | checkIfDue (advanceClock : Bool)
  | other (t : Interrupt W H)

variable (run : H → Interrupt W H → Response W H)

/-- Between the calls everything but the list and the history may change. -/
def callStep (s : Interrupt W H) : Call W H → Option (Interrupt W H)
  | .schedule r => s.schedule r
  | .checkIfDue advanceClock => (s.checkIfDue run advanceClock).map Prod.snd
  | .other t => some { t with pending := s.pending, fired := s.fired, scheduled := s.scheduled }

variable {run} {s s' : Interrupt W H}

section Calls

/-- The machine changes, but not the list. -/
theorem callStep_other (hpending : s'.pending = s.pending) (hfired : s'.fired = s.fired)
    (hscheduled : s'.scheduled = s.scheduled) : callStep run s (.other s') = some s' := by
  rw [callStep, ← hpending, ← hfired, ← hscheduled]

theorem callStep_checkIfDue {advanceClock b : Bool}
    (h : s.checkIfDue run advanceClock = some (b, s')) :
    callStep run s (.checkIfDue advanceClock) = some s' := by
  rw [callStep, h]
  rfl

/-- Some calls lead from one machine to the other. -/
def Calls (run : H → Interrupt W H → Response W H) (s s' : Interrupt W H) : Prop :=
  ∃ cs, Runs.run (callStep run) s cs = some s'

theorem Calls.single {c : Call W H} (h : callStep run s c = some s') : Calls run s s' :=
  ⟨[c], Option.bind_eq_some_iff.mpr ⟨s', h, rfl⟩⟩

theorem Calls.trans {s'' : Interrupt W H} (h : Calls run s s') (h' : Calls run s' s'') :
    Calls run s s'' := by
  obtain ⟨cs, hcs⟩ := h
  obtain ⟨cs', hcs'⟩ := h'
  exact ⟨cs ++ cs', (run_append hcs cs').trans hcs'⟩

theorem Calls.other (hpending : s'.pending = s.pending) (hfired : s'.fired = s.fired)
    (hscheduled : s'.scheduled = s.scheduled) : Calls run s s' :=
  .single (callStep_other hpending hfired hscheduled)

theorem calls_drain {rounds : Nat} (h : drain run rounds s = some s') : Calls run s s' := by
  induction rounds generalizing s with
  | zero => cases h
  | succ rounds ih =>
    obtain ⟨⟨b, t⟩, ht, hrest⟩ := Option.bind_eq_some_iff.mp h
    have hcheck : Calls run s t := .single (callStep_checkIfDue ht)
    cases b with
    | false =>
      cases hrest
      exact hcheck
    | true => exact hcheck.trans (ih hrest)

theorem calls_oneTick {rounds : Nat} (h : oneTick run rounds s = some s') : Calls run s s' := by
  obtain ⟨t, ht, rfl⟩ := Option.map_eq_some_iff.mp h
  have htick : Calls run s { s.tick with level := .intOff } := by
    apply Calls.other
    all_goals
      unfold tick
      split
      · rfl
      · rfl
  have henable : Calls run t t.enable := by
    apply Calls.other
    all_goals
      unfold enable
      split
      · rfl
      · rfl
  exact (htick.trans (calls_drain ht)).trans henable

theorem calls_setLevel {now : Threads.IntStatus} {rounds : Nat}
    (h : setLevel run now rounds s = some s') : Calls run s s' := by
  unfold setLevel at h
  split_ifs at h
  · have hlevel : Calls run s { s with level := now } := .other rfl rfl rfl
    exact hlevel.trans (calls_oneTick h)
  · cases h
    exact .other rfl rfl rfl

theorem calls_idle {rounds : Nat} (h : idle run rounds s = some s') : Calls run s s' := by
  obtain ⟨⟨b, t⟩, ht, hrest⟩ := Option.bind_eq_some_iff.mp h
  have hstatus : Calls run s { s with status := .idleMode } := .other rfl rfl rfl
  have hfirst : Calls run s t := hstatus.trans (.single (callStep_checkIfDue ht))
  cases b with
  | false =>
    cases hrest
    exact hfirst.trans (.other rfl rfl rfl)
  | true =>
    obtain ⟨u, hu, rfl⟩ := Option.map_eq_some_iff.mp hrest
    exact (hfirst.trans (calls_drain hu)).trans (.other rfl rfl rfl)

/-- Each routine is a sequence of such calls. -/
theorem calls_of_step {l : Label W H} (h : step run s l = some s') : Calls run s s' := by
  cases l with
  | schedule r =>
    simp only [step] at h
    split_ifs at h
    exact .single (c := .schedule r) h
  | oneTick rounds =>
    simp only [step] at h
    split_ifs at h
    exact calls_oneTick h
  | setLevel now rounds =>
    simp only [step] at h
    split_ifs at h
    exact calls_setLevel h
  | idle rounds =>
    simp only [step] at h
    split_ifs at h
    exact calls_idle h
  | setStatus st =>
    simp only [step] at h
    split_ifs at h
    cases h
    exact .other rfl rfl rfl
  | kernel w =>
    simp only [step] at h
    split_ifs at h
    cases h
    exact .other rfl rfl rfl

end Calls

/-! ### Every run -/

/-- A check that fires nothing leaves the list as it is. -/
def Call.Keeps (run : H → Interrupt W H → Response W H) (s : Interrupt W H) : Call W H → Prop
  | .checkIfDue false => s.KeepsPending run
  | _ => True

/-- `CheckIfDue(FALSE)` is called when the first interrupt is due or alone. -/
def Call.Alone (s : Interrupt W H) : Call W H → Prop
  | .checkIfDue false => s.HeadAlone
  | _ => True

theorem queued_callStep {c : Call W H} (hs : s.Queued) (halone : c.Alone s)
    (h : callStep run s c = some s') : s'.Queued := by
  cases c with
  | schedule r => exact queued_schedule hs h
  | checkIfDue advanceClock =>
    obtain ⟨⟨b, t⟩, ht, rfl⟩ := Option.map_eq_some_iff.mp h
    refine queued_checkIfDue hs (fun hfalse => ?_) ht
    subst hfalse
    exact halone
  | other t =>
    cases h
    exact hs

/-- A check that was made had the interrupts off. -/
theorem keeps_iff_alone {c : Call W H} (hs : s.Queued) (h : callStep run s c = some s') :
    c.Keeps run s ↔ c.Alone s := by
  cases c with
  | schedule r => exact Iff.rfl
  | other t => exact Iff.rfl
  | checkIfDue advanceClock =>
    cases advanceClock with
    | true => exact Iff.rfl
    | false =>
      have hlevel : s.level = .intOff := by
        by_contra hne
        obtain ⟨r, hr, -⟩ := Option.map_eq_some_iff.mp h
        rw [checkIfDue, if_pos hne] at hr
        cases hr
      have hiff : s.KeepsPending run ↔ (s.level = .intOff → s.HeadAlone) :=
        keepsPending_iff hs.sorted
      exact hiff.trans ⟨fun halone => halone hlevel, fun halone _ => halone⟩

theorem queued_start (w : W) : (start w : Interrupt W H).Queued := Stable.nil

/-- Exactly when `CheckIfDue(FALSE)` has no effect if nothing is due, and when interrupts for the
same tick fire in the order in which they were scheduled with no check changing the list: the first
interrupt must be due, or be the only one for its tick, whenever it is called. -/
theorem sameTick_iff (run : H → Interrupt W H → Response W H) :
    (∀ s : Interrupt W H, Sorted s.pending →
      (s.KeepsPending run ↔ (s.level = .intOff → s.HeadAlone))) ∧
    ∀ (w : W) (cs : List (Call W H)),
      (AllStates (callStep run) InOrder (start w) cs ∧
        AllSteps (callStep run) (Call.Keeps run) (start w) cs) ↔
      AllSteps (callStep run) Call.Alone (start w) cs := by
  refine ⟨fun s hsorted => keepsPending_iff hsorted, fun w cs => ?_⟩
  refine allStates_and_allSteps_iff (J := Queued) (fun s hs => hs.inOrder) ?_ ?_ ?_
    (queued_start w) cs
  · exact fun s c s' hs halone h => queued_callStep hs halone h
  · exact fun s c s' hs halone h => (keeps_iff_alone hs h).mpr halone
  · exact fun s c s' hs hnot h hkeeps => absurd ((keeps_iff_alone hs h).mp hkeeps) hnot

/-- A handler that does nothing. -/
def ignore (_ : Unit) (_ : Interrupt Unit Unit) : Response Unit Unit := ⟨(), [], false⟩

/-- Two disk interrupts for tick 20. -/
def twoForOneTick : List (Label Unit Unit) :=
  [.schedule ⟨(), 20, .diskInt⟩, .schedule ⟨(), 20, .diskInt⟩]

def twoPending : Interrupt Unit Unit :=
  { (start () : Interrupt Unit Unit) with
    pending := [⟨0, (), 20, .diskInt⟩, ⟨1, (), 20, .diskInt⟩]
    scheduled := 2 }

/-- At tick 20 the first of them is due. -/
theorem sameTick_iff_due :
    Sorted twoPending.pending ∧ KeepsPending ignore { twoPending with totalTicks := 20 } := by
  have hsorted : Sorted twoPending.pending := by simp [Sorted, twoPending]
  refine ⟨hsorted, ((sameTick_iff ignore).1 { twoPending with totalTicks := 20 } hsorted).mpr ?_⟩
  intro _ p rest hpending hlt
  cases hpending
  cases hlt

/-- At tick 10 a check that fires nothing turns the two around, and at tick 20 the second one fires
first. -/
theorem not_sameTick :
    Runs.run (step ignore) (start ()) twoForOneTick = some twoPending ∧
    Sorted twoPending.pending ∧ ¬ KeepsPending ignore { twoPending.tick with level := .intOff } ∧
    ¬ AllStates (step ignore) InOrder (start ()) (twoForOneTick ++ [.oneTick 3, .oneTick 3]) := by
  refine ⟨rfl, ?_, fun hkeeps => ?_, fun horder => ?_⟩
  · simp [Sorted, twoPending]
  · have hback : [1, 0] = [0, 1] := congrArg (List.map PendingInterrupt.id) (hkeeps _ rfl)
    cases hback
  · have hrun : Runs.run (step ignore) (start ())
        (twoForOneTick ++ [.oneTick 3, .oneTick 3]) =
        some { (start () : Interrupt Unit Unit) with
          level := .intOn, totalTicks := 20, systemTicks := 20, scheduled := 2,
          fired := [⟨1, 20, 20⟩, ⟨0, 20, 20⟩] } := rfl
    have hfired := horder.of_run hrun
    simp [InOrder] at hfired

end Nachos.Interrupts
