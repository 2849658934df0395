import Mathlib.Data.List.Sort
import Mathlib.Data.List.Range

/-!
# Stable priority queues

A queue is a list with the smallest keys in front, and an insertion (`insert`) goes behind the
elements with the same key. The elements carry stamps, the numbers of their insertions.
`Stable queue served next` says what holds of the queue and of the keys and stamps that were
served from its front: among equal keys the stamps come in order, and each stamp below `next` is
either in the queue or was served, once. It is kept by an insertion with the next stamp
(`Stable.insert`) and by serving the front (`Stable.serve`).
-/

namespace StableQueue

section Insert

variable {α κ : Type*} [LinearOrder κ] (key : α → κ) {x : α} {l : List α}

/-- Before the first element with a strictly larger key. -/
def insert (x : α) (l : List α) : List α := l.orderedInsert (fun p q => key p < key q) x

/-- By increasing keys. -/
def Sorted (l : List α) : Prop := l.Pairwise fun p q => key p ≤ key q

theorem insert_cons (x y : α) (ys : List α) :
    insert key x (y :: ys) = if key x < key y then x :: y :: ys else y :: insert key x ys :=
  List.orderedInsert_cons _ x y ys

theorem insert_perm (x : α) (l : List α) : (insert key x l).Perm (x :: l) :=
  l.perm_orderedInsert _ x

theorem mem_insert {p : α} : p ∈ insert key x l ↔ p = x ∨ p ∈ l := List.mem_orderedInsert _

variable {key}

/-- What holds of neighbours on both sides of the inserted element holds of the new list. -/
theorem pairwise_insert {R : α → α → Prop} (hsorted : Sorted key l) (hl : l.Pairwise R)
    (hbefore : ∀ q ∈ l, key x < key q → R x q) (hafter : ∀ q ∈ l, key q ≤ key x → R q x) :
    (insert key x l).Pairwise R := by
  induction l with
  | nil => exact List.pairwise_singleton R x
  | cons y ys ih =>
    obtain ⟨hy, hys⟩ := List.pairwise_cons.mp hl
    obtain ⟨hle, hsorted'⟩ := List.pairwise_cons.mp hsorted
    rw [insert_cons]
    split
    · rename_i hlt
      refine List.pairwise_cons.mpr ⟨fun q hq => ?_, hl⟩
      apply hbefore q hq
      rcases List.mem_cons.mp hq with rfl | hq
      · exact hlt
      · exact lt_of_lt_of_le hlt (hle q hq)
    · rename_i hge
      refine List.pairwise_cons.mpr ⟨fun q hq => ?_, ?_⟩
      · rcases (mem_insert key).mp hq with rfl | hq
        · exact hafter y List.mem_cons_self (not_lt.mp hge)
        · exact hy q hq
      · exact ih hsorted' hys (fun q hq => hbefore q (List.mem_cons_of_mem y hq))
          fun q hq => hafter q (List.mem_cons_of_mem y hq)

theorem sorted_insert (h : Sorted key l) : Sorted key (insert key x l) :=
  pairwise_insert h h (fun _ _ hlt => le_of_lt hlt) fun _ _ hle => hle

/-- The front of a queue goes back to its place exactly when no other element has its key. -/
theorem insert_eq_cons_iff (h : Sorted key (x :: l)) :
    insert key x l = x :: l ↔ ∀ q ∈ l, key q = key x → q = x := by
  induction l with
  | nil =>
    constructor
    · intro _ q hq
      cases hq
    · exact fun _ => rfl
  | cons y ys ih =>
    obtain ⟨hx, hsorted⟩ := List.pairwise_cons.mp h
    obtain ⟨hy, hys⟩ := List.pairwise_cons.mp hsorted
    have htail : Sorted key (x :: ys) :=
      List.pairwise_cons.mpr ⟨fun q hq => hx q (List.mem_cons_of_mem y hq), hys⟩
    rw [insert_cons]
    split
    · rename_i hlt
      refine ⟨fun _ q hq hkey => ?_, fun _ => rfl⟩
      have hle : key y ≤ key q := by
        rcases List.mem_cons.mp hq with rfl | hq
        · exact le_refl _
        · exact hy q hq
      exact absurd hkey (ne_of_gt (lt_of_lt_of_le hlt hle))
    · rename_i hge
      have hsame : key y = key x := le_antisymm (not_lt.mp hge) (hx y List.mem_cons_self)
      constructor
      · intro heq
        injection heq with hyx hins
        subst hyx
        intro q hq hkey
        rcases List.mem_cons.mp hq with rfl | hq
        · rfl
        · exact (ih htail).mp hins q hq hkey
      · intro hall
        have hyx : y = x := hall y List.mem_cons_self hsame
        subst hyx
        exact congrArg (y :: ·) ((ih htail).mpr fun q hq => hall q (List.mem_cons_of_mem y hq))

end Insert

section Stable

variable {α κ : Type*} [LinearOrder κ] {key : α → κ} {stamp : α → ℕ} {queue : List α}
  {served : List (κ × ℕ)} {next : ℕ} {x : α}

structure Stable (key : α → κ) (stamp : α → ℕ) (queue : List α) (served : List (κ × ℕ))
    (next : ℕ) : Prop where
  sorted : Sorted key queue
  queued : queue.Pairwise fun p q => key p = key q → stamp p < stamp q
  inOrder : served.Pairwise fun a b => a.1 = b.1 → a.2 < b.2
  ahead : ∀ a ∈ served, ∀ p ∈ queue, a.1 = key p → a.2 < stamp p
  issued : (served.map Prod.snd ++ queue.map stamp).Perm (List.range next)

namespace Stable

theorem nil : Stable key stamp [] [] 0 where
  sorted := List.Pairwise.nil
  queued := List.Pairwise.nil
  inOrder := List.Pairwise.nil
  ahead := fun a ha => by cases ha
  issued := List.Perm.refl _

theorem stamp_lt (h : Stable key stamp queue served next) {p : α} (hp : p ∈ queue) :
    stamp p < next := by
  have hmem : stamp p ∈ served.map Prod.snd ++ queue.map stamp :=
    List.mem_append_right _ (List.mem_map_of_mem hp)
  exact List.mem_range.mp (h.issued.mem_iff.mp hmem)

theorem served_lt (h : Stable key stamp queue served next) {a : κ × ℕ} (ha : a ∈ served) :
    a.2 < next := by
  have hmem : a.2 ∈ served.map Prod.snd ++ queue.map stamp :=
    List.mem_append_left _ (List.mem_map_of_mem ha)
  exact List.mem_range.mp (h.issued.mem_iff.mp hmem)

/-- No stamp is served twice or both served and in the queue. -/
theorem nodup (h : Stable key stamp queue served next) :
    (served.map Prod.snd ++ queue.map stamp).Nodup :=
  h.issued.nodup_iff.mpr List.nodup_range

theorem insert (h : Stable key stamp queue served next) (hx : stamp x = next) :
    Stable key stamp (insert key x queue) served (next + 1) := by
  refine ⟨sorted_insert h.sorted, ?_, h.inOrder, ?_, ?_⟩
  · refine pairwise_insert h.sorted h.queued ?_ fun q hq _ _ => hx ▸ h.stamp_lt hq
    intro q _ hlt heq
    exact absurd heq (ne_of_lt hlt)
  · intro a ha p hp heq
    rcases (mem_insert key).mp hp with rfl | hp
    · exact hx ▸ h.served_lt ha
    · exact h.ahead a ha p hp heq
  · have hinsert := ((insert_perm key x queue).map stamp).append_left (served.map Prod.snd)
    refine (hinsert.trans List.perm_middle).trans ?_
    rw [hx, List.range_succ]
    exact (h.issued.cons next).trans (List.perm_append_singleton next _).symm

/-- The front has a smallest key, and among those the smallest stamp. -/
theorem front (h : Stable key stamp (x :: queue) served next) {p : α} (hp : p ∈ queue) :
    key x ≤ key p ∧ (key x = key p → stamp x < stamp p) :=
  ⟨(List.pairwise_cons.mp h.sorted).1 p hp, (List.pairwise_cons.mp h.queued).1 p hp⟩

theorem serve (h : Stable key stamp (x :: queue) served next) :
    Stable key stamp queue (served ++ [(key x, stamp x)]) next := by
  refine ⟨(List.pairwise_cons.mp h.sorted).2, (List.pairwise_cons.mp h.queued).2, ?_, ?_, ?_⟩
  · refine List.pairwise_append.mpr ⟨h.inOrder, List.pairwise_singleton _ _, ?_⟩
    intro a ha b hb heq
    rw [List.mem_singleton.mp hb] at heq ⊢
    exact h.ahead a ha x List.mem_cons_self heq
  · intro a ha p hp heq
    rcases List.mem_append.mp ha with ha | ha
    · exact h.ahead a ha p (List.mem_cons_of_mem x hp) heq
    · rw [List.mem_singleton.mp ha] at heq ⊢
      exact (h.front hp).2 heq
  · have hids : (served ++ [(key x, stamp x)]).map Prod.snd ++ queue.map stamp =
        served.map Prod.snd ++ (x :: queue).map stamp := by simp
    exact hids ▸ h.issued

end Stable

end Stable

end StableQueue
