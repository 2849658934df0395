import Nachos.Lib.Runs

/-!
# Runs that another system matches

`Path R` are the runs of a system whose steps are a relation, so that a label may have several
successors. When each good step of a system with a step function is matched by one of these steps,
a run through good states is matched by a path with the same labels (`run_matched`). The rule also
says what holds where the run stops before its last label. `run_rel` is the rule for two systems that
both have a step function.
-/

namespace Runs

variable {σ τ ℓ : Type*}

/-- The paths of a relation. -/
inductive Path (R : τ → ℓ → τ → Prop) : τ → List ℓ → τ → Prop
  | nil (t : τ) : Path R t [] t
  | cons {t t' t'' : τ} {l : ℓ} {ls : List ℓ} (h : R t l t') (hrest : Path R t' ls t'') :
    Path R t (l :: ls) t''

theorem Path.append {R : τ → ℓ → τ → Prop} {t t' t'' : τ} {ls ls' : List ℓ} (h : Path R t ls t')
    (h' : Path R t' ls' t'') : Path R t (ls ++ ls') t'' := by
  induction h with
  | nil t => exact h'
  | cons hstep _ ih => exact .cons hstep (ih h')

/-- A property that the steps of a relation keep holds at the end of its paths. -/
theorem Path.invariant {R : τ → ℓ → τ → Prop} {J : τ → Prop} (hkeep : ∀ t l t', J t → R t l t' → J t')
    {t t' : τ} {ls : List ℓ} (h : Path R t ls t') (h0 : J t) : J t' := by
  induction h with
  | nil t => exact h0
  | cons hstep _ ih => exact ih (hkeep _ _ _ h0 hstep)

/-- A run through good states is matched by a path with the same labels. It takes all the labels, or
it stops in states in which `stuck` holds. -/
theorem run_matched {step : σ → ℓ → Option σ} {R : τ → ℓ → τ → Prop} {rel : σ → τ → Prop}
    {good : σ → Prop} {stuck : σ → τ → Prop}
    (hstep : ∀ s t l, rel s t → good s →
      (∃ s' t', step s l = some s' ∧ R t l t' ∧ rel s' t') ∨ (step s l = none ∧ stuck s t))
    {s : σ} {t : τ} {ls : List ℓ} (hgood : AllStates step good s ls) (h : rel s t) :
    ∃ first rest, ls = first ++ rest ∧ ∃ s' t', run step s first = some s' ∧ Path R t first t' ∧
      rel s' t' ∧ (rest ≠ [] → stuck s' t') := by
  induction ls generalizing s t with
  | nil => exact ⟨[], [], rfl, s, t, rfl, .nil t, h, fun hne => absurd rfl hne⟩
  | cons l ls ih =>
    rcases hstep s t l h hgood.1 with ⟨s', t', hs, ht, hrel⟩ | ⟨-, hstuck⟩
    · obtain ⟨first, rest, rfl, s'', t'', hrun, hpath, hrel', hrest⟩ := ih (hgood.2 s' hs) hrel
      refine ⟨l :: first, rest, rfl, s'', t'', ?_, .cons ht hpath, hrel', hrest⟩
      rw [run, hs, Option.bind_some, hrun]
    · exact ⟨[], l :: ls, rfl, s, t, rfl, .nil t, h, fun _ => hstuck⟩

/-- Two systems with the same labels: when their steps keep a relation and are enabled together, so are
their runs. -/
theorem run_rel {step : σ → ℓ → Option σ} {step' : τ → ℓ → Option τ} {rel : σ → τ → Prop}
    (hstep : ∀ s t l, rel s t → Option.Rel rel (step s l) (step' t l)) {s : σ} {t : τ} (h : rel s t)
    (ls : List ℓ) : Option.Rel rel (run step s ls) (run step' t ls) := by
  induction ls generalizing s t with
  | nil => exact .some h
  | cons l ls ih =>
    have hfirst := hstep s t l h
    rw [run, run]
    cases hs : step s l with
    | none =>
      rw [hs] at hfirst
      cases ht : step' t l with
      | none => exact .none
      | some t' =>
        rw [ht] at hfirst
        cases hfirst
    | some s' =>
      rw [hs] at hfirst
      cases ht : step' t l with
      | none =>
        rw [ht] at hfirst
        cases hfirst
      | some t' =>
        rw [ht] at hfirst
        cases hfirst with
        | some hrel => exact ih hrel

end Runs
