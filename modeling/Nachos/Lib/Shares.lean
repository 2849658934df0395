import Mathlib.Algebra.BigOperators.Group.Finset.Basic
import Mathlib.Algebra.Order.BigOperators.Group.Finset
import Mathlib.Data.List.Nodup
import Mathlib.Logic.Function.Basic

/-!
# Resources divided among holders

`Divided own used` says that the resources in use are divided among the holders: holder `i` has
the list `own i`, no resource is listed twice, and the ones listed are the ones in use. It is
kept by giving unused resources to a holder that has none (`Divided.give`) and by taking back
all that a holder has (`Divided.take`).
-/

namespace Shares

variable {ι α : Type*} {own own' : ι → List α} {used used' : α → Prop}

structure Divided (own : ι → List α) (used : α → Prop) : Prop where
  nodup : ∀ i, (own i).Nodup
  unique : ∀ {i j x}, x ∈ own i → x ∈ own j → i = j
  used_iff : ∀ x, used x ↔ ∃ i, x ∈ own i

namespace Divided

theorem used_of_mem (h : Divided own used) {i : ι} {x : α} (hx : x ∈ own i) : used x :=
  (h.used_iff x).mpr ⟨i, hx⟩

theorem congr (h : Divided own used) (hown : ∀ i, own' i = own i)
    (hused : ∀ x, used' x ↔ used x) : Divided own' used' := by
  have howns : own' = own := funext hown
  subst howns
  exact ⟨h.nodup, h.unique, fun x => (hused x).trans (h.used_iff x)⟩

/-- The number of resources in use, when finitely many holders have some. -/
theorem card_used [DecidableEq α] (h : Divided own used) {holders : Finset ι}
    (hholders : ∀ i ∉ holders, own i = []) {inUse : Finset α} (hused : ∀ x, x ∈ inUse ↔ used x) :
    inUse.card = ∑ i ∈ holders, (own i).length := by
  have hunion : inUse = holders.biUnion fun i => (own i).toFinset := by
    ext x
    simp only [Finset.mem_biUnion, List.mem_toFinset]
    rw [hused, h.used_iff]
    refine exists_congr fun i => ⟨fun hx => ⟨?_, hx⟩, And.right⟩
    by_contra hi
    rw [hholders i hi] at hx
    cases hx
  have hdisjoint : ∀ i ∈ holders, ∀ j ∈ holders, i ≠ j →
      Disjoint (own i).toFinset (own j).toFinset := by
    intro i _ j _ hij
    apply Finset.disjoint_left.mpr
    intro x hi hj
    exact hij (h.unique (List.mem_toFinset.mp hi) (List.mem_toFinset.mp hj))
  rw [hunion, Finset.card_biUnion hdisjoint]
  apply Finset.sum_congr rfl
  intro i _
  exact List.toFinset_card_of_nodup (h.nodup i)

variable [DecidableEq ι]

/-- A holder that has nothing is given resources that are not in use. -/
theorem give (h : Divided own used) {i : ι} (hi : own i = []) {l : List α} (hl : l.Nodup)
    (hfree : ∀ x ∈ l, ¬ used x) :
    Divided (Function.update own i l) fun x => used x ∨ x ∈ l := by
  refine ⟨?_, ?_, ?_⟩
  · intro j
    by_cases hji : j = i
    · subst hji
      rwa [Function.update_self]
    · rw [Function.update_of_ne hji]
      exact h.nodup j
  · intro j k x hj hk
    by_cases hji : j = i
    · by_cases hki : k = i
      · rw [hji, hki]
      · subst hji
        rw [Function.update_self] at hj
        rw [Function.update_of_ne hki] at hk
        exact absurd (h.used_of_mem hk) (hfree x hj)
    · rw [Function.update_of_ne hji] at hj
      by_cases hki : k = i
      · subst hki
        rw [Function.update_self] at hk
        exact absurd (h.used_of_mem hj) (hfree x hk)
      · rw [Function.update_of_ne hki] at hk
        exact h.unique hj hk
  · intro x
    constructor
    · rintro (hx | hx)
      · obtain ⟨j, hj⟩ := (h.used_iff x).mp hx
        have hji : j ≠ i := by
          rintro rfl
          rw [hi] at hj
          cases hj
        exact ⟨j, by rwa [Function.update_of_ne hji]⟩
      · exact ⟨i, by rwa [Function.update_self]⟩
    · rintro ⟨j, hj⟩
      by_cases hji : j = i
      · subst hji
        rw [Function.update_self] at hj
        exact Or.inr hj
      · rw [Function.update_of_ne hji] at hj
        exact Or.inl (h.used_of_mem hj)

/-- All that a holder has is taken back. -/
theorem take (h : Divided own used) (i : ι) :
    Divided (Function.update own i []) fun x => used x ∧ x ∉ own i := by
  have hother : ∀ {j x}, x ∈ Function.update own i [] j → j ≠ i ∧ x ∈ own j := by
    intro j x hj
    by_cases hji : j = i
    · subst hji
      rw [Function.update_self] at hj
      cases hj
    · rw [Function.update_of_ne hji] at hj
      exact ⟨hji, hj⟩
  refine ⟨?_, ?_, ?_⟩
  · intro j
    by_cases hji : j = i
    · subst hji
      rw [Function.update_self]
      exact List.nodup_nil
    · rw [Function.update_of_ne hji]
      exact h.nodup j
  · intro j k x hj hk
    exact h.unique (hother hj).2 (hother hk).2
  · intro x
    constructor
    · rintro ⟨hx, hno⟩
      obtain ⟨j, hj⟩ := (h.used_iff x).mp hx
      have hji : j ≠ i := by
        rintro rfl
        exact hno hj
      exact ⟨j, by rwa [Function.update_of_ne hji]⟩
    · rintro ⟨j, hj⟩
      obtain ⟨hji, hmem⟩ := hother hj
      exact ⟨h.used_of_mem hmem, fun hi => hji (h.unique hmem hi)⟩

end Divided

end Shares
