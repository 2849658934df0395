import Mathlib.Logic.Basic

/-!
# Programs over a state that may trap or fault

A program over the states `σ` ends with a value, traps (it leaves early, with an exception of
type `ε` and a state that the caller goes on with), or faults (`φ`): then there is no state
to go on with.

A `Contract` says how the state before a program relates to the state after it, whether the
program ends normally or by a trap, and in which states it may fault. `Keeps C p` is proved
along the program: one rule for each way to build a program. A `Triple` speaks of one start
state and tells the three ways to end apart.
-/

namespace Programs

universe u v

/-- How a program ends. -/
inductive Outcome (σ ε φ α : Type*)
  | done (a : α) (s : σ)
  | trap (e : ε) (s : σ)
  | fault (f : φ)

def Program (σ ε φ : Type u) (α : Type v) := σ → Outcome σ ε φ α

variable {σ ε φ : Type u} {α β : Type v}

namespace Program

protected def pure (a : α) : Program σ ε φ α := fun s => .done a s

protected def bind (p : Program σ ε φ α) (f : α → Program σ ε φ β) : Program σ ε φ β := fun s =>
  match p s with
  | .done a s' => f a s'
  | .trap e s' => .trap e s'
  | .fault e => .fault e

instance : Monad (Program σ ε φ) where
  pure := Program.pure
  bind := Program.bind

/-- Read the state. -/
def gets (f : σ → α) : Program σ ε φ α := fun s => .done (f s) s

/-- Change the state. -/
def modify (f : σ → σ) : Program σ ε φ PUnit := fun s => .done () (f s)

def trap (e : ε) : Program σ ε φ α := fun s => .trap e s

def fault (f : φ) : Program σ ε φ α := fun _ => .fault f

end Program

/-- A relation that composes, and the faults that are allowed in each state. A fault allowed
after some steps is allowed before them. -/
structure Contract (σ φ : Type u) where
  rel : σ → σ → Prop
  allows : σ → φ → Prop
  refl : ∀ s, rel s s
  trans : ∀ {s s' s''}, rel s s' → rel s' s'' → rel s s''
  back : ∀ {s s' f}, rel s s' → allows s' f → allows s f

/-- The outcome of a program that starts in `s` is one that the contract admits. -/
def Contract.Admits (C : Contract σ φ) (s : σ) : Outcome σ ε φ α → Prop
  | .done _ s' => C.rel s s'
  | .trap _ s' => C.rel s s'
  | .fault f => C.allows s f

/-- `p` keeps the contract `C`. -/
def Keeps (C : Contract σ φ) (p : Program σ ε φ α) : Prop := ∀ s, C.Admits s (p s)

section Rules

open Program

variable {C : Contract σ φ}

theorem Contract.Admits.of_rel {s s' : σ} {o : Outcome σ ε φ α} (h : C.rel s s')
    (ho : C.Admits s' o) : C.Admits s o := by
  cases o with
  | done a t => exact C.trans h ho
  | trap e t => exact C.trans h ho
  | fault f => exact C.back h ho

theorem keeps_fault {f : φ} (h : ∀ s, C.allows s f) :
    Keeps C (fault f : Program σ ε φ α) := h

theorem keeps_modify {f : σ → σ} (h : ∀ s, C.rel s (f s)) :
    Keeps C (modify f : Program σ ε φ PUnit) := h

theorem keeps_pure (a : α) : Keeps C (pure a : Program σ ε φ α) := C.refl

theorem keeps_gets (f : σ → α) : Keeps C (gets f : Program σ ε φ α) := C.refl

theorem keeps_trap (e : ε) : Keeps C (trap e : Program σ ε φ α) := C.refl

/-- The second program is needed only in the states in which the first one ends. -/
theorem Contract.Admits.bind {p : Program σ ε φ α} {f : α → Program σ ε φ β} {s : σ}
    (hp : C.Admits s (p s)) (hf : ∀ a s', p s = .done a s' → C.Admits s' (f a s')) :
    C.Admits s ((p >>= f) s) := by
  show C.Admits s (Program.bind p f s)
  unfold Program.bind
  cases hps : p s with
  | done a s' =>
    rw [hps] at hp
    exact Contract.Admits.of_rel hp (hf a s' hps)
  | trap e s' =>
    rw [hps] at hp
    exact hp
  | fault e =>
    rw [hps] at hp
    exact hp

theorem Keeps.bind {p : Program σ ε φ α} {f : α → Program σ ε φ β} (hp : Keeps C p)
    (hf : ∀ a, Keeps C (f a)) : Keeps C (p >>= f) :=
  fun s => Contract.Admits.bind (hp s) fun a s' _ => hf a s'

theorem Keeps.ite {c : Prop} [Decidable c] {p q : Program σ ε φ α} (hp : Keeps C p)
    (hq : Keeps C q) : Keeps C (if c then p else q) := by
  split
  · exact hp
  · exact hq

end Rules

/-! ### Pre- and postconditions -/

/-- The outcome is a value and a state of `Q`, a trap of `T` or a fault of `F`. -/
def Outcome.Satisfies (Q : α → σ → Prop) (T : ε → σ → Prop) (F : φ → Prop) :
    Outcome σ ε φ α → Prop
  | .done a s => Q a s
  | .trap e s => T e s
  | .fault f => F f

/-- Started in a state of `P`, the program has an outcome of `Q`, `T` and `F`. -/
def Triple (P : σ → Prop) (p : Program σ ε φ α) (Q : α → σ → Prop) (T : ε → σ → Prop)
    (F : φ → Prop) : Prop := ∀ s, P s → (p s).Satisfies Q T F

section Triples

open Program

variable {P P' : σ → Prop} {Q : α → σ → Prop} {T : ε → σ → Prop} {F : φ → Prop}

theorem triple_pure {a : α} (h : ∀ s, P s → Q a s) :
    Triple P (pure a : Program σ ε φ α) Q T F := h

theorem triple_gets {f : σ → α} (h : ∀ s, P s → Q (f s) s) :
    Triple P (gets f : Program σ ε φ α) Q T F := h

theorem triple_fault {f : φ} (h : ∀ s, P s → F f) :
    Triple P (fault f : Program σ ε φ α) Q T F := h

theorem Triple.pre {p : Program σ ε φ α} (h : Triple P p Q T F) (hP : ∀ s, P' s → P s) :
    Triple P' p Q T F := fun s hs => h s (hP s hs)

theorem Triple.bind {p : Program σ ε φ α} {f : α → Program σ ε φ β} {R : α → σ → Prop}
    {Q : β → σ → Prop} (hp : Triple P p R T F) (hf : ∀ a, Triple (R a) (f a) Q T F) :
    Triple P (p >>= f) Q T F := by
  intro s hs
  have h := hp s hs
  show (Program.bind p f s).Satisfies Q T F
  unfold Program.bind
  cases hps : p s with
  | done a s' =>
    rw [hps] at h
    exact hf a s' h
  | trap e s' =>
    rw [hps] at h
    exact h
  | fault e =>
    rw [hps] at h
    exact h

theorem Triple.ite {c : Prop} [Decidable c] {p q : Program σ ε φ α} (hp : c → Triple P p Q T F)
    (hq : ¬ c → Triple P q Q T F) : Triple P (if c then p else q) Q T F := by
  split
  · rename_i hc
    exact hp hc
  · rename_i hc
    exact hq hc

theorem Triple.of_and {c : Prop} {p : Program σ ε φ α} (h : c → Triple P p Q T F) :
    Triple (fun s => P s ∧ c) p Q T F := fun s hs => h hs.2 s hs.1

/-- The program ends normally in every state. -/
def Total (p : Program σ ε φ α) : Prop := ∀ s, ∃ a s', p s = .done a s'

theorem total_pure (a : α) : Total (pure a : Program σ ε φ α) := fun s => ⟨a, s, rfl⟩

theorem total_gets (f : σ → α) : Total (gets f : Program σ ε φ α) := fun s => ⟨f s, s, rfl⟩

theorem total_modify (f : σ → σ) : Total (modify f : Program σ ε φ PUnit) :=
  fun s => ⟨(), f s, rfl⟩

theorem Total.bind {p : Program σ ε φ α} {f : α → Program σ ε φ β} (hp : Total p)
    (hf : ∀ a, Total (f a)) : Total (p >>= f) := by
  intro s
  obtain ⟨a, s', hs⟩ := hp s
  obtain ⟨b, s'', hs'⟩ := hf a s'
  refine ⟨b, s'', ?_⟩
  show Program.bind p f s = _
  unfold Program.bind
  rw [hs]
  exact hs'

theorem Total.ite {c : Prop} [Decidable c] {p q : Program σ ε φ α} (hp : Total p)
    (hq : Total q) : Total (if c then p else q) := by
  split
  · exact hp
  · exact hq

/-- The postcondition that says nothing. -/
def Anything : α → σ → Prop := fun _ _ => True

theorem Total.anything {p : Program σ ε φ α} (h : Total p) : Triple P p Anything T F := by
  intro s _
  obtain ⟨a, s', hs⟩ := h s
  rw [hs]
  trivial

section Bind

variable {p : Program σ ε φ α} {f : α → Program σ ε φ β} {s t : σ}

theorem bind_done {a : α} (h : p s = .done a t) : (p >>= f) s = f a t := by
  show Program.bind p f s = _
  unfold Program.bind
  rw [h]

theorem bind_trap {e : ε} (h : p s = .trap e t) : (p >>= f) s = .trap e t := by
  show Program.bind p f s = _
  unfold Program.bind
  rw [h]

theorem bind_fault {e : φ} (h : p s = .fault e) : (p >>= f) s = .fault e := by
  show Program.bind p f s = _
  unfold Program.bind
  rw [h]

theorem bind_bind {γ : Type v} (p : Program σ ε φ α) (f : α → Program σ ε φ β)
    (g : β → Program σ ε φ γ) : (p >>= f) >>= g = p >>= fun a => f a >>= g := by
  funext s
  cases h : p s with
  | done a t =>
    rw [bind_done (p := p) h]
    show Program.bind (Program.bind p f) g s = Program.bind (f a) g t
    unfold Program.bind
    rw [h]
  | trap e t => rw [bind_trap h, bind_trap (bind_trap h)]
  | fault e => rw [bind_fault h, bind_fault (bind_fault h)]

end Bind

/-- A program that ended normally did so in both of its parts. -/
theorem bind_eq_done {p : Program σ ε φ α} {f : α → Program σ ε φ β} {s s' : σ} {b : β}
    (h : (p >>= f) s = .done b s') : ∃ a t, p s = .done a t ∧ f a t = .done b s' := by
  change Program.bind p f s = _ at h
  unfold Program.bind at h
  cases hps : p s with
  | done a t =>
    rw [hps] at h
    exact ⟨a, t, rfl, h⟩
  | trap e t =>
    rw [hps] at h
    cases h
  | fault e =>
    rw [hps] at h
    cases h

end Triples

end Programs
