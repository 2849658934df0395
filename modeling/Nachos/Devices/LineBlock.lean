import Nachos.Devices.Clients

/-!
# A semaphore that one thread has at a time

A client whose routines start with the `P` of one semaphore of value 1 and end with its `V`, as
those of `SynchConsole` do with `RLineBlock` and `WLineBlock`. `Held` says which thread has it;
the lemmas say what each kind of step does to it, whatever the routines do in between.
-/

namespace Nachos.Devices

open Function (update update_of_ne update_self)
open Threads (Tid wrap32)

variable {R Pt δ A ι : Type} {C : Client R Pt δ A ι} {line : R} {a a' : Shared R Pt δ}
  {holder : Option Tid} {t : Tid}

/-- The thread is outside the client or waits for the line. -/
def Lacks (C : Client R Pt δ A ι) (line : R) (a : Shared R Pt δ) (t : Tid) : Prop :=
  C.outside (a.point t) = true ∨ C.awaits (a.point t) = some line ∧ a.waiting t = true

theorem Lacks.congr (h : Lacks C line a t) (hp : a'.point t = a.point t)
    (hw : a'.waiting t = a.waiting t) : Lacks C line a' t := by
  unfold Lacks
  rw [hp, hw]
  exact h

/-- The thread that has the line, if there is one; the others lack it. -/
structure Held (C : Client R Pt δ A ι) (line : R) (a : Shared R Pt δ) (holder : Option Tid) :
    Prop where
  value : a.value line = if holder = none then 1 else 0
  others : ∀ t, holder ≠ some t → Lacks C line a t

/-- A thread that neither waits nor has the line is outside. -/
theorem Held.outside (h : Held C line a holder) (ht : holder ≠ some t) (hw : a.waiting t = false) :
    C.outside (a.point t) = true := by
  rcases h.others t ht with hout | ⟨-, hwait⟩
  · exact hout
  · rw [hw] at hwait
    cases hwait

/-- A step of the one that has the line. -/
theorem Held.congr (h : Held C line a holder) (hv : a'.value line = a.value line)
    (hp : ∀ t, holder ≠ some t → a'.point t = a.point t)
    (hw : ∀ t, holder ≠ some t → a'.waiting t = a.waiting t) : Held C line a' holder :=
  ⟨hv.trans h.value, fun t ht => (h.others t ht).congr (hp t ht) (hw t ht)⟩

theorem Shared.goto_self (a : Shared R Pt δ) (t : Tid) : a.goto t (a.point t) a.device = a := by
  unfold Shared.goto
  rw [Function.update_eq_self]

variable [DecidableEq R]

/-- A thread asks for the line while another one has it. -/
theorem Held.ask_taken {h₀ : Tid} (h : Held C line a (some h₀)) (pt : Pt)
    (hpt : C.awaits pt = some line) (d : δ) :
    (a.goto t pt d).test C t line = { a.goto t pt d with waiting := update a.waiting t true } ∧
      Held C line ((a.goto t pt d).test C t line) (some h₀) := by
  have htest : (a.goto t pt d).test C t line =
      { a.goto t pt d with waiting := update a.waiting t true } := if_pos h.value
  refine ⟨htest, ?_⟩
  rw [htest]
  refine ⟨h.value, fun u hu => ?_⟩
  by_cases hut : u = t
  · subst hut
    exact Or.inr ⟨(congrArg C.awaits (update_self ..)).trans hpt, update_self ..⟩
  · exact (h.others u hu).congr (update_of_ne hut _ _) (update_of_ne hut _ _)

/-- A thread asks for the line, which is free. -/
theorem Held.ask_free (h : Held C line a none) (pt : Pt) (d : δ) :
    (a.goto t pt d).test C t line =
        { value := update a.value line 0
          waiting := update a.waiting t false
          point := update a.point t pt
          device := C.taken line t pt d } ∧
      Held C line ((a.goto t pt d).test C t line) (some t) := by
  have hone : a.value line = 1 := h.value
  have htest : (a.goto t pt d).test C t line =
      { value := update a.value line 0
        waiting := update a.waiting t false
        point := update a.point t pt
        device := C.taken line t pt d } := by
    have hne : ¬ (a.goto t pt d).value line = 0 := by simp [Shared.goto, hone]
    unfold Shared.test
    rw [if_neg hne]
    simp only [Shared.goto, hone, update_self]
    rfl
  refine ⟨htest, ?_⟩
  rw [htest]
  refine ⟨update_self .., fun u hu => ?_⟩
  have hut : u ≠ t := fun heq => hu (congrArg some heq.symm)
  exact (h.others u (by simp)).congr (update_of_ne hut _ _) (update_of_ne hut _ _)

/-- The thread that has the line leaves it. -/
theorem Held.give (h : Held C line a (some t)) {pt : Pt} (hpt : C.outside pt = true) (d : δ) :
    Held C line ((a.goto t pt d).give line) none := by
  have hzero : a.value line = 0 := h.value
  refine ⟨?_, fun u _ => ?_⟩
  · show update a.value line (wrap32 (a.value line + 1)) line = 1
    rw [update_self, hzero]
    rfl
  · by_cases hut : u = t
    · subst hut
      exact Or.inl ((congrArg C.outside (update_self ..)).trans hpt)
    · exact (h.others u fun heq => hut (Option.some.inj heq).symm).congr (update_of_ne hut _ _) rfl

/-- `new SynchConsole` makes `synchReadAvail`, `synchWriteAvail`, `RLineBlock` and `WLineBlock`; and
the main thread forks a second one. -/
def newSynchConsole : List Threads.Label :=
  [.newSemaphore 0, .newSemaphore 0, .newSemaphore 1, .newSemaphore 1, .newThread, .fork 1]

end Nachos.Devices
