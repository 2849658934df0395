import Mathlib.Algebra.Ring.Nat
import Mathlib.Data.Finset.Card
import Mathlib.Data.Finset.Range
import Mathlib.Data.Int.Order.Basic

/-!
# Finite sets that tile another

A list of finite sets has a union of at most the sum of their sizes. The union has exactly that
size when the sets are disjoint from each other. So a set of that size is the union of the list
if and only if its sets are disjoint from each other and lie in it (`union_eq_iff`).
-/

namespace Tilings

variable {α : Type*} [DecidableEq α]

/-- The union of a list of sets. -/
def union : List (Finset α) → Finset α
  | [] => ∅
  | s :: l => s ∪ union l

theorem mem_union {l : List (Finset α)} {a : α} : a ∈ union l ↔ ∃ s ∈ l, a ∈ s := by
  induction l with
  | nil => simp [union]
  | cons s l ih => simp [union, ih]

theorem card_union_le (l : List (Finset α)) : (union l).card ≤ (l.map Finset.card).sum := by
  induction l with
  | nil => simp [union]
  | cons s l ih =>
    have hle := Finset.card_union_le s (union l)
    rw [union, List.map_cons, List.sum_cons]
    omega

theorem disjoint_union {s : Finset α} {l : List (Finset α)} :
    Disjoint s (union l) ↔ ∀ t ∈ l, Disjoint s t := by
  induction l with
  | nil => simp [union]
  | cons t l ih => rw [union, Finset.disjoint_union_right, ih, List.forall_mem_cons]

/-- No element is counted twice when the sets are disjoint from each other. -/
theorem card_union_eq_iff (l : List (Finset α)) :
    (union l).card = (l.map Finset.card).sum ↔ l.Pairwise Disjoint := by
  induction l with
  | nil => simp [union]
  | cons s l ih =>
    have hle := card_union_le l
    have hboth := Finset.card_union_add_card_inter s (union l)
    rw [List.pairwise_cons, ← ih, ← disjoint_union, Finset.disjoint_iff_inter_eq_empty,
      ← Finset.card_eq_zero, union, List.map_cons, List.sum_cons]
    omega

/-- A set of the right size is the union of a list of sets. -/
theorem union_eq_iff {l : List (Finset α)} {u : Finset α}
    (hcard : u.card = (l.map Finset.card).sum) :
    union l = u ↔ l.Pairwise Disjoint ∧ ∀ s ∈ l, s ⊆ u := by
  rw [← card_union_eq_iff]
  constructor
  · rintro rfl
    exact ⟨hcard, fun s hs a ha => mem_union.mpr ⟨s, hs, ha⟩⟩
  · rintro ⟨heq, hsub⟩
    apply Finset.eq_of_subset_of_card_le
    · intro a ha
      obtain ⟨s, hs, has⟩ := mem_union.mp ha
      exact hsub s hs has
    · rw [heq, hcard]

/-! ### Intervals -/

theorem add_natCast_injective (a : Int) : Function.Injective fun i : Nat => a + i := by
  intro i j h
  simp only at h
  omega

/-- The `n` integers from `a` on. -/
def interval (a : Int) (n : Nat) : Finset Int :=
  (Finset.range n).map ⟨fun i : Nat => a + i, add_natCast_injective a⟩

theorem mem_interval {a x : Int} {n : Nat} : x ∈ interval a n ↔ a ≤ x ∧ x < a + n := by
  unfold interval
  rw [Finset.mem_map]
  constructor
  · rintro ⟨i, hi, rfl⟩
    rw [Finset.mem_range] at hi
    show a ≤ a + (i : Int) ∧ a + (i : Int) < a + n
    omega
  · rintro ⟨hlo, hhi⟩
    refine ⟨(x - a).toNat, Finset.mem_range.mpr (by omega), ?_⟩
    show a + ((x - a).toNat : Int) = x
    omega

@[simp] theorem card_interval (a : Int) (n : Nat) : (interval a n).card = n := by
  rw [interval, Finset.card_map, Finset.card_range]

theorem interval_subset_iff {a b : Int} {m n : Nat} (hm : 0 < m) :
    interval a m ⊆ interval b n ↔ b ≤ a ∧ a + m ≤ b + n := by
  constructor
  · intro h
    have hfirst := mem_interval.mp (h (mem_interval.mpr ⟨le_refl a, by omega⟩))
    have hlast := mem_interval.mp (h (mem_interval (x := a + m - 1).mpr (by omega)))
    omega
  · intro h x hx
    rw [mem_interval] at hx ⊢
    omega

end Tilings
