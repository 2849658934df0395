import Mathlib.Algebra.BigOperators.Group.Finset.Basic
import Mathlib.Algebra.BigOperators.Group.Finset.Piecewise
import Mathlib.Algebra.Order.BigOperators.Group.Finset

/-!
# Sums over the first `n` entries of a map

A table of objects numbered `0, 1, …` is a function on `Nat` of which the first `n`
entries are in use. A sum over these entries changes by one term when one entry is
updated, and a fresh entry adds one term.
-/

namespace Sums

variable {α : Type*}

/-- The sum of `f` over the entries `0, …, n - 1` of `g`. -/
def total (f : α → Nat) (g : Nat → α) (n : Nat) : Nat := ∑ i ∈ Finset.range n, f (g i)

theorem total_zero (f : α → Nat) (g : Nat → α) : total f g 0 = 0 := rfl

theorem total_succ (f : α → Nat) (g : Nat → α) (n : Nat) :
    total f g (n + 1) = total f g n + f (g n) := Finset.sum_range_succ _ _

theorem total_congr {f : α → Nat} {g h : Nat → α} {n : Nat}
    (heq : ∀ i, i < n → f (g i) = f (h i)) : total f g n = total f h n :=
  Finset.sum_congr rfl fun i hi => heq i (Finset.mem_range.mp hi)

/-- Updating entry `t` exchanges its term. -/
theorem total_update {f : α → Nat} {g : Nat → α} {n t : Nat} (ht : t < n) (v : α) :
    total f (Function.update g t v) n + f (g t) = total f g n + f v := by
  have hmem : t ∈ Finset.range n := Finset.mem_range.mpr ht
  have hrest : ∑ i ∈ (Finset.range n).erase t, f (Function.update g t v i) =
      ∑ i ∈ (Finset.range n).erase t, f (g i) :=
    Finset.sum_congr rfl fun i hi => by
      rw [Function.update_of_ne (Finset.ne_of_mem_erase hi)]
  have hnew := Finset.add_sum_erase (Finset.range n) (fun i => f (Function.update g t v i)) hmem
  have hold := Finset.add_sum_erase (Finset.range n) (fun i => f (g i)) hmem
  simp only [Function.update_self] at hnew
  unfold total
  omega

/-- An entry outside the sum can be written freely. -/
theorem total_update_fresh {f : α → Nat} {g : Nat → α} {n t : Nat} (ht : n ≤ t) (v : α) :
    total f (Function.update g t v) n = total f g n :=
  total_congr fun i hi => by rw [Function.update_of_ne (by omega)]

/-- A fresh entry adds its term. -/
theorem total_push (f : α → Nat) (g : Nat → α) (n : Nat) (v : α) :
    total f (Function.update g n v) (n + 1) = total f g n + f v := by
  rw [total_succ, total_update_fresh (le_refl n), Function.update_self]

end Sums
