import Nachos.Threads.List

/-!
# Sorted lists

`SortedInsert` and `SortedRemove` only, on a list that was empty: the list is a stable priority
queue. Each item carries the number of its insertion, which the code passes on with it; `inserted`
and `returned` are what the calls were given and what they gave back.

`sortedList_stable`: in every run the keys are in order, a removal returns and reports a smallest
key, and among equal keys the item that was inserted first; nothing is lost or returned twice.
-/

namespace Nachos.Threads.Lists

open Runs
open StableQueue (Stable)

variable {α : Type}

/-- A list in use, with its history. -/
structure Queue (α : Type) where
  list : LinkedList (α × Nat)
  inserted : Pairs (α × Nat) := []
  returned : Pairs (α × Nat) := []

inductive QueueOp (α : Type)
  | sortedInsert (a : Addr) (item : α) (sortKey : Int) (rounds : Nat)
  | sortedRemove

/-- The reported key with the returned item. -/
def Removed.pair {β : Type} (r : Removed β) : Option (Int × β) :=
  r.key.bind fun key => r.thing.map fun thing => (key, thing)

namespace Queue

def step (s : Queue α) : QueueOp α → Option (Queue α)
  | .sortedInsert a item sortKey rounds =>
    (s.list.sortedInsert a (item, s.inserted.length) sortKey rounds).map fun list =>
      { s with list := list, inserted := s.inserted ++ [(sortKey, item, s.inserted.length)] }
  | .sortedRemove =>
    (s.list.sortedRemove true).map fun r =>
      { s with list := r.2, returned := s.returned ++ r.1.pair.toList }

/-- The number of the insertion. -/
def stamp (x : Int × α × Nat) : Nat := x.2.2

/-- The list has these elements, and they are a stable queue. -/
structure Queues (s : Queue α) (seq : Pairs (α × Nat)) : Prop where
  represents : Represents s.list seq
  stable : Stable Prod.fst stamp seq (s.returned.map fun x => (x.1, stamp x)) s.inserted.length
  conserved : (s.returned ++ seq).Perm s.inserted

variable {s s' : Queue α} {seq : Pairs (α × Nat)}

theorem Queues.insert (h : Queues s seq) {a : Addr} {item : α} {sortKey : Int} {rounds : Nat}
    (hstep : step s (.sortedInsert a item sortKey rounds) = some s') :
    Queues s' (insertSorted (item, s.inserted.length) sortKey seq) := by
  obtain ⟨list, hlist, rfl⟩ := Option.map_eq_some_iff.mp hstep
  have hcall : call s.list (.sortedInsert a (item, s.inserted.length) sortKey rounds) =
      some (none, list) := Option.map_eq_some_iff.mpr ⟨list, hlist, rfl⟩
  refine ⟨(h.represents.of_call hcall).2, ?_, ?_⟩
  · show Stable Prod.fst stamp _ _ (s.inserted ++ [_]).length
    rw [List.length_append]
    exact h.stable.insert rfl
  · have hinsert := (StableQueue.insert_perm Prod.fst (sortKey, item, s.inserted.length) seq)
    refine ((hinsert.append_left s.returned).trans List.perm_middle).trans ?_
    exact (h.conserved.cons _).trans (List.perm_append_singleton _ _).symm

theorem Queues.remove (h : Queues s seq) (hstep : step s .sortedRemove = some s') :
    Queues s' seq.tail := by
  obtain ⟨⟨r, list⟩, hlist, rfl⟩ := Option.map_eq_some_iff.mp hstep
  obtain ⟨list', hlist', hrep⟩ := h.represents.sortedRemove true
  obtain ⟨rfl, rfl⟩ := Prod.mk.inj (Option.some.inj (hlist.symm.trans hlist'))
  cases seq with
  | nil =>
    refine ⟨hrep, ?_, ?_⟩
    · show Stable Prod.fst stamp [] ((s.returned ++ []).map _) _
      rw [List.append_nil]
      exact h.stable
    · show ((s.returned ++ []) ++ []).Perm s.inserted
      rw [List.append_nil]
      exact h.conserved
  | cons x seq =>
    refine ⟨hrep, ?_, ?_⟩
    · show Stable Prod.fst stamp seq ((s.returned ++ [x]).map _) _
      rw [List.map_append]
      exact h.stable.serve
    · show ((s.returned ++ [x]) ++ seq).Perm s.inserted
      rw [List.append_assoc]
      exact h.conserved

/-- What a stable priority queue is. -/
structure IsStable (s : Queue α) (seq : Pairs (α × Nat)) : Prop where
  represents : Represents s.list seq
  sorted : seq.Pairwise fun x y => x.1 ≤ y.1
  /-- A removal returns a smallest key, and the first of those with it. -/
  removes : ∀ r list, s.list.sortedRemove true = some (r, list) →
    seq = [] ∧ r = ⟨none, none⟩ ∨
      ∃ x ∈ seq, r = ⟨some x.2, some x.1⟩ ∧ ∀ y ∈ seq, x.1 ≤ y.1 ∧ (x.1 = y.1 → stamp x ≤ stamp y)
  /-- The order of the returned items, and of those that will be returned next. -/
  firstOut : (s.returned ++ seq).Pairwise fun x y => x.1 = y.1 → stamp x < stamp y
  conserved : (s.returned ++ seq).Perm s.inserted
  once : ((s.returned ++ seq).map stamp).Nodup
  /-- The calls have results. -/
  defined : (∃ r, s.list.sortedRemove true = some r) ∧
    ∀ (a : Addr) (item : α × Nat) (sortKey : Int) (rounds : Nat), s.list.heap a = none →
      seq.length < rounds → ∃ list, s.list.sortedInsert a item sortKey rounds = some list

theorem Queues.isStable (h : Queues s seq) : IsStable s seq := by
  obtain ⟨list', hlist', -⟩ := h.represents.sortedRemove true
  refine ⟨h.represents, h.stable.sorted, ?_, ?_, h.conserved, ?_, ⟨_, hlist'⟩, ?_⟩
  · intro r list hlist
    obtain ⟨rfl, rfl⟩ := Prod.mk.inj (Option.some.inj (hlist.symm.trans hlist'))
    cases seq with
    | nil => exact Or.inl ⟨rfl, rfl⟩
    | cons x seq =>
      refine Or.inr ⟨x, List.mem_cons_self, rfl, fun y hy => ?_⟩
      rcases List.mem_cons.mp hy with rfl | hy
      · exact ⟨Int.le_refl _, fun _ => Nat.le_refl _⟩
      · obtain ⟨hkey, hstamp⟩ := h.stable.front hy
        exact ⟨hkey, fun heq => Nat.le_of_lt (hstamp heq)⟩
  · refine List.pairwise_append.mpr ⟨List.pairwise_map.mp h.stable.inOrder, h.stable.queued, ?_⟩
    intro x hx y hy heq
    exact h.stable.ahead (x.1, stamp x) (List.mem_map_of_mem hx) y hy heq
  · have hnodup := h.stable.nodup
    rw [List.map_map] at hnodup
    rw [List.map_append]
    exact hnodup
  · intro a item sortKey rounds ha hrounds
    obtain ⟨list, hlist, -⟩ := h.represents.sortedInsert ha item sortKey hrounds
    exact ⟨list, hlist⟩

end Queue

/-- In every run of the two calls from an empty list. -/
theorem sortedList_stable (heap : Addr → Option (ListElement (α × Nat)))
    (ops : List (QueueOp α)) :
    AllStates Queue.step (fun s => ∃ seq, Queue.IsStable s seq) ⟨LinkedList.new heap, [], []⟩ ops := by
  have hinv : AllStates Queue.step (fun s => ∃ seq, Queue.Queues s seq)
      ⟨LinkedList.new heap, [], []⟩ ops := by
    refine allStates_of_invariant (fun s op s' hs h => ?_)
      ⟨[], represents_new heap, Stable.nil, List.Perm.refl _⟩ ops
    obtain ⟨seq, hseq⟩ := hs
    cases op with
    | sortedInsert a item sortKey rounds => exact ⟨_, hseq.insert h⟩
    | sortedRemove => exact ⟨_, hseq.remove h⟩
  exact hinv.mono fun s hs => hs.imp fun seq hseq => hseq.isStable

end Nachos.Threads.Lists
