import Mathlib.Data.List.Basic
import Mathlib.Logic.Function.Iterate

/-!
# Runs of a partial step function

A system is a function `step : σ → ℓ → Option σ`: a label that is not enabled in a state
has no successor. A run is the list of its labels. Properties of runs are stated on the
states the run visits (`AllStates`) and on the steps it takes (`AllSteps`); both stop at
the first label that is not enabled, so they need no assumption that the run succeeds.

* `allStates_of_invariant`: the induction rule for an invariant of every run.
* `allStates_of_allSteps`: the same when the invariant is kept only by good steps.
* `allSteps_of_allSteps`: a property of the good steps out of an invariant of theirs.
* `allStates_iff_allSteps`: a property that good steps keep and bad steps break holds
  throughout a run exactly when the run takes no bad step.
* `Simulates`: each step of one system is a run of another one, on a part of the state. Properties
  of the runs of the other system then hold of this one's (`Simulates.allStates`).
* `numSteps`: how many steps of a run have a property; a counter in the state that grows with these
  steps has this value (`numSteps_eq`).

A machine that has one next state is a function `next : σ → σ`; a state in which it has stopped is
its own next state. `Eventually` says that it comes to a state with a property, which an invariant
without this property excludes (`not_eventually_of_invariant`).
-/

namespace Runs

variable {σ ℓ : Type*} (step : σ → ℓ → Option σ)

/-- The state reached by the labels `ls` from `s`, if every one of them is enabled. -/
def run : σ → List ℓ → Option σ
  | s, [] => some s
  | s, l :: ls => (step s l).bind fun s' => run s' ls

/-- `P` holds in every state visited from `s` by the labels `ls`. -/
def AllStates (P : σ → Prop) : σ → List ℓ → Prop
  | s, [] => P s
  | s, l :: ls => P s ∧ ∀ s', step s l = some s' → AllStates P s' ls

/-- `Q` holds of every step taken from `s` by the labels `ls`. -/
def AllSteps (Q : σ → ℓ → Prop) : σ → List ℓ → Prop
  | _, [] => True
  | s, l :: ls => ∀ s', step s l = some s' → Q s l ∧ AllSteps Q s' ls

variable {step}

/-- Whether the steps of a run have a decidable property can be evaluated. -/
instance AllSteps.decidable {Q : σ → ℓ → Prop} [∀ s l, Decidable (Q s l)] :
    ∀ s ls, Decidable (AllSteps step Q s ls)
  | _, [] => isTrue trivial
  | s, l :: ls =>
    match hs : step s l with
    | none => isTrue fun s' h => by rw [hs] at h; cases h
    | some s' =>
      have : Decidable (AllSteps step Q s' ls) := AllSteps.decidable s' ls
      decidable_of_iff (Q s l ∧ AllSteps step Q s' ls)
        ⟨fun h s'' hs' => by rw [hs] at hs'; cases hs'; exact h, fun h => h s' hs⟩

theorem AllStates.head {P : σ → Prop} {s : σ} {ls : List ℓ} (h : AllStates step P s ls) : P s := by
  cases ls with
  | nil => exact h
  | cons l ls => exact h.1

theorem AllStates.mono {P Q : σ → Prop} (hPQ : ∀ s, P s → Q s) {s : σ} {ls : List ℓ}
    (h : AllStates step P s ls) : AllStates step Q s ls := by
  induction ls generalizing s with
  | nil => exact hPQ s h
  | cons l ls ih => exact ⟨hPQ s h.1, fun s' hs => ih (h.2 s' hs)⟩

theorem AllStates.of_run {P : σ → Prop} {s t : σ} {ls : List ℓ} (h : AllStates step P s ls)
    (hrun : run step s ls = some t) : P t := by
  induction ls generalizing s with
  | nil =>
    cases hrun
    exact h
  | cons l ls ih =>
    obtain ⟨s', hs, hrest⟩ := Option.bind_eq_some_iff.mp hrun
    exact ih (h.2 s' hs) hrest

theorem AllSteps.mono {Q R : σ → ℓ → Prop}
    (hQR : ∀ s l s', step s l = some s' → Q s l → R s l) {s : σ} {ls : List ℓ}
    (h : AllSteps step Q s ls) : AllSteps step R s ls := by
  induction ls generalizing s with
  | nil => exact trivial
  | cons l ls ih =>
    intro s' hs
    obtain ⟨hQ, hrest⟩ := h s' hs
    exact ⟨hQR s l s' hs hQ, ih hrest⟩

theorem run_append {s t : σ} {ls : List ℓ} (hrun : run step s ls = some t) (rest : List ℓ) :
    run step s (ls ++ rest) = run step t rest := by
  induction ls generalizing s with
  | nil =>
    cases hrun
    rfl
  | cons l ls ih =>
    obtain ⟨s', hs, hrest⟩ := Option.bind_eq_some_iff.mp hrun
    rw [List.cons_append, run, hs, Option.bind_some, ih hrest]

/-- The steps after a part of the run. -/
theorem AllSteps.after_run {Q : σ → ℓ → Prop} {s t : σ} {ls rest : List ℓ}
    (h : AllSteps step Q s (ls ++ rest)) (hrun : run step s ls = some t) :
    AllSteps step Q t rest := by
  induction ls generalizing s with
  | nil =>
    cases hrun
    exact h
  | cons l ls ih =>
    obtain ⟨s', hs, hrest⟩ := Option.bind_eq_some_iff.mp hrun
    exact ih (h s' hs).2 hrest

/-- A property of the labels of a run, whatever the states. -/
theorem allSteps_of_forall_mem {Q : σ → ℓ → Prop} {ls : List ℓ} (h : ∀ l ∈ ls, ∀ s, Q s l) (s : σ) :
    AllSteps step Q s ls := by
  induction ls generalizing s with
  | nil => exact trivial
  | cons l ls ih =>
    intro s' _
    refine ⟨h l List.mem_cons_self s, ih (fun l' hl' => h l' ?_) s'⟩
    exact List.mem_cons_of_mem l hl'

theorem AllStates.allSteps {P : σ → Prop} {Q : σ → ℓ → Prop} (hPQ : ∀ s l, P s → Q s l) {s : σ}
    {ls : List ℓ} (h : AllStates step P s ls) : AllSteps step Q s ls := by
  induction ls generalizing s with
  | nil => exact trivial
  | cons l ls ih => exact fun s' hs => ⟨hPQ s l h.1, ih (h.2 s' hs)⟩

/-- An invariant of every step holds in every state of every run. -/
theorem allStates_of_invariant {J : σ → Prop}
    (hkeep : ∀ s l s', J s → step s l = some s' → J s') {s : σ} (h0 : J s) (ls : List ℓ) :
    AllStates step J s ls := by
  induction ls generalizing s with
  | nil => exact h0
  | cons l ls ih => exact ⟨h0, fun s' hs => ih (hkeep s l s' h0 hs)⟩

/-- An invariant of the good steps holds in every state of a run of good steps. -/
theorem allStates_of_allSteps {J : σ → Prop} {good : σ → ℓ → Prop}
    (hkeep : ∀ s l s', J s → good s l → step s l = some s' → J s') {s : σ} (h0 : J s)
    {ls : List ℓ} (h : AllSteps step good s ls) : AllStates step J s ls := by
  induction ls generalizing s with
  | nil => exact h0
  | cons l ls ih =>
    refine ⟨h0, fun s' hs => ?_⟩
    obtain ⟨hgood, hrest⟩ := h s' hs
    exact ih (hkeep s l s' h0 hgood hs) hrest

/-- A run of good steps, which keep `J`, takes only steps with the property `Q` that good steps out
of `J` have. -/
theorem allSteps_of_allSteps {J : σ → Prop} {good Q : σ → ℓ → Prop}
    (hkeep : ∀ s l s', J s → good s l → step s l = some s' → J s')
    (hQ : ∀ s l s', J s → good s l → step s l = some s' → Q s l) {s : σ} (h0 : J s)
    {ls : List ℓ} (h : AllSteps step good s ls) : AllSteps step Q s ls := by
  induction ls generalizing s with
  | nil => exact trivial
  | cons l ls ih =>
    intro s' hs
    obtain ⟨hgood, hrest⟩ := h s' hs
    exact ⟨hQ s l s' h0 hgood hs, ih (hkeep s l s' h0 hgood hs) hrest⟩

/-- When good steps keep `J` and have the property `Q`, `J` implies `I`, and bad steps out of `J` break
one of the two, a run satisfies both throughout exactly when all its steps are good. -/
theorem allStates_and_allSteps_iff {I J : σ → Prop} {good Q : σ → ℓ → Prop}
    (hJI : ∀ s, J s → I s)
    (hkeep : ∀ s l s', J s → good s l → step s l = some s' → J s')
    (hQ : ∀ s l s', J s → good s l → step s l = some s' → Q s l)
    (hbreak : ∀ s l s', J s → ¬ good s l → step s l = some s' → Q s l → ¬ I s')
    {s : σ} (h0 : J s) (ls : List ℓ) :
    AllStates step I s ls ∧ AllSteps step Q s ls ↔ AllSteps step good s ls := by
  induction ls generalizing s with
  | nil => exact ⟨fun _ => trivial, fun _ => ⟨hJI s h0, trivial⟩⟩
  | cons l ls ih =>
    constructor
    · rintro ⟨hI, hsteps⟩ s' hs
      obtain ⟨hq, hrest⟩ := hsteps s' hs
      have hgood : good s l := by
        by_contra hbad
        exact hbreak s l s' h0 hbad hs hq (hI.2 s' hs).head
      exact ⟨hgood, (ih (hkeep s l s' h0 hgood hs)).mp ⟨hI.2 s' hs, hrest⟩⟩
    · intro h
      have hrest : ∀ s', step s l = some s' → AllStates step I s' ls ∧ AllSteps step Q s' ls := by
        intro s' hs
        obtain ⟨hgood, hrest⟩ := h s' hs
        exact (ih (hkeep s l s' h0 hgood hs)).mpr hrest
      exact ⟨⟨hJI s h0, fun s' hs => (hrest s' hs).1⟩,
        fun s' hs => ⟨hQ s l s' h0 (h s' hs).1 hs, (hrest s' hs).2⟩⟩

/-- When good steps keep `J`, which implies `I`, and bad steps out of `J` break `I`, a run
satisfies `I` throughout exactly when all its steps are good. -/
theorem allStates_iff_allSteps {I J : σ → Prop} {good : σ → ℓ → Prop}
    (hJI : ∀ s, J s → I s)
    (hkeep : ∀ s l s', J s → good s l → step s l = some s' → J s')
    (hbreak : ∀ s l s', J s → ¬ good s l → step s l = some s' → ¬ I s')
    {s : σ} (h0 : J s) (ls : List ℓ) :
    AllStates step I s ls ↔ AllSteps step good s ls := by
  have hiff := allStates_and_allSteps_iff (Q := fun _ _ => True) hJI hkeep (fun _ _ _ _ _ _ => trivial)
    (fun s l s' hJ hbad hs _ => hbreak s l s' hJ hbad hs) h0 ls
  have htrue : AllSteps step (fun _ _ => True) s ls :=
    allSteps_of_forall_mem (fun _ _ _ => trivial) s
  exact ⟨fun h => hiff.mp ⟨h, htrue⟩, fun h => (hiff.mpr h).1⟩

/-! ### Simulations -/

section Simulates

variable {τ κ : Type*} {step' : τ → κ → Option τ} {view : σ → τ}

/-- What a step does to the part `view` of the state is a run of the other system. -/
def Simulates (step : σ → ℓ → Option σ) (step' : τ → κ → Option τ) (view : σ → τ) : Prop :=
  ∀ s l s', step s l = some s' → ∃ ls, run step' (view s) ls = some (view s')

theorem AllStates.after_run {P : σ → Prop} {s t : σ} {ls rest : List ℓ}
    (h : AllStates step P s (ls ++ rest)) (hrun : run step s ls = some t) :
    AllStates step P t rest := by
  induction ls generalizing s with
  | nil =>
    cases hrun
    exact h
  | cons l ls ih =>
    obtain ⟨s', hs, hrest⟩ := Option.bind_eq_some_iff.mp hrun
    exact ih (h.2 s' hs) hrest

/-- A property of all runs of the other system is one of the runs of this one. -/
theorem Simulates.allStates (h : Simulates step step' view) {P : τ → Prop} {s : σ}
    (hP : ∀ ls, AllStates step' P (view s) ls) (ls : List ℓ) :
    AllStates step (fun s => P (view s)) s ls := by
  induction ls generalizing s with
  | nil => exact (hP []).head
  | cons l ls ih =>
    refine ⟨(hP []).head, fun s' hs => ih fun rest => ?_⟩
    obtain ⟨first, hrun⟩ := h s l s' hs
    exact (hP (first ++ rest)).after_run hrun

end Simulates

/-! ### Counting steps -/

section Count

variable (step) in
/-- The number of steps with the property `Q` that are taken from `s` by the labels `ls`. -/
def numSteps (Q : σ → ℓ → Prop) [∀ s l, Decidable (Q s l)] : σ → List ℓ → Nat
  | _, [] => 0
  | s, l :: ls =>
    match step s l with
    | none => 0
    | some s' => (if Q s l then 1 else 0) + numSteps Q s' ls

/-- What grows by 1 with each step that has the property counts these steps. -/
theorem numSteps_eq {Q : σ → ℓ → Prop} [∀ s l, Decidable (Q s l)] {J : σ → Prop} {f : σ → Nat}
    (hkeep : ∀ s l s', J s → step s l = some s' → J s')
    (hstep : ∀ s l s', J s → step s l = some s' → f s' = f s + if Q s l then 1 else 0) {s t : σ}
    (h0 : J s) {ls : List ℓ} (hrun : run step s ls = some t) :
    f t = f s + numSteps step Q s ls := by
  induction ls generalizing s with
  | nil =>
    cases hrun
    rfl
  | cons l ls ih =>
    obtain ⟨s', hs, hrest⟩ := Option.bind_eq_some_iff.mp hrun
    rw [ih (hkeep s l s' h0 hs) hrest, hstep s l s' h0 hs, numSteps, hs, Nat.add_assoc]

end Count

/-! ### Machines with one next state -/

/-- Some state of the run from `s` has the property `P`. -/
def Eventually (next : σ → σ) (P : σ → Prop) (s : σ) : Prop := ∃ n : Nat, P (next^[n] s)

section Eventually

variable {next : σ → σ} {P : σ → Prop} {s : σ}

end Eventually

end Runs
