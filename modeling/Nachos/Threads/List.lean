import Nachos.Lib.Runs
import Nachos.Lib.Segments
import Nachos.Lib.StableQueue

/-!
# The lists of `threads/list.cc`

`List` with its `ListElement`s on a heap: `first` and `last` are addresses or NULL, `new` gives any
address that is not in use, and `delete` makes one unused. The other elements on the heap are those
of other lists. An operation that follows NULL or the address of a deleted element has no result.
The items are of any type, as in the source, which only passes them on.

`list_represents`: whatever is called, the elements from `first` on are those of a sequence on
which the same operations were performed, in its order and without a cycle, `last` is the final one,
and the next operation has a result.
-/

namespace Nachos.Threads.Lists

open Runs Segments
open Function (update update_self update_of_ne)

abbrev Addr := Nat

/-- `ListElement`. -/
structure ListElement (α : Type) where
  next : Option Addr
  key : Int
  item : α

/-- `List`, and the heap on which its elements are. -/
structure LinkedList (α : Type) where
  heap : Addr → Option (ListElement α)
  first : Option Addr
  last : Option Addr

/-- What `SortedRemove` returns: the item, if there was one, and what it stored through `keyPtr`. -/
structure Removed (α : Type) where
  thing : Option α
  key : Option Int
  deriving DecidableEq

namespace LinkedList

variable {α : Type} (s : LinkedList α)

/-- `List::List`. -/
def new (heap : Addr → Option (ListElement α)) : LinkedList α := ⟨heap, none, none⟩

/-- `List::IsEmpty`. -/
def isEmpty : Bool := s.first.isNone

/-- `*ptr`. -/
def deref (ptr : Option Addr) : Option (ListElement α) := ptr.bind s.heap

/-- `ptr->next = next`. -/
def setNext (ptr next : Option Addr) : Option (LinkedList α) :=
  ptr.bind fun a => (s.heap a).map fun e =>
    { s with heap := update s.heap a (some { e with next := next }) }

/-- `new ListElement(item, sortKey)` at the address `a`. -/
def newElement (a : Addr) (item : α) (sortKey : Int) : Option (LinkedList α) :=
  if s.heap a = none then some { s with heap := update s.heap a (some ⟨none, sortKey, item⟩) }
  else none

/-- `List::Append`. -/
def append (a : Addr) (item : α) : Option (LinkedList α) :=
  (s.newElement a item 0).bind fun s =>
    if s.isEmpty then some { s with first := some a, last := some a }
    else (s.setNext s.last (some a)).map fun s => { s with last := some a }

/-- `List::Prepend`. -/
def prepend (a : Addr) (item : α) : Option (LinkedList α) :=
  (s.newElement a item 0).bind fun s =>
    if s.isEmpty then some { s with first := some a, last := some a }
    else (s.setNext (some a) s.first).map fun s => { s with first := some a }

/-- The walk of `SortedInsert`, in at most `rounds` rounds, and what follows it. -/
def walk (element : Addr) (sortKey : Int) : Nat → Option Addr → LinkedList α → Option (LinkedList α)
  | 0, _, _ => none
  | rounds + 1, ptr, s =>
    (s.deref ptr).bind fun e =>
      if e.next = none then
        (s.setNext s.last (some element)).map fun s => { s with last := some element }
      else
        (s.deref e.next).bind fun n =>
          if sortKey < n.key then
            (s.setNext (some element) e.next).bind fun s => s.setNext ptr (some element)
          else walk element sortKey rounds e.next s

/-- `List::SortedInsert`. -/
def sortedInsert (a : Addr) (item : α) (sortKey : Int) (rounds : Nat) : Option (LinkedList α) :=
  (s.newElement a item sortKey).bind fun s =>
    if s.isEmpty then some { s with first := some a, last := some a }
    else
      (s.deref s.first).bind fun e =>
        if sortKey < e.key then
          (s.setNext (some a) s.first).map fun s => { s with first := some a }
        else walk a sortKey rounds s.first s

/-- `List::SortedRemove`; `keyPtr` says whether that pointer is not NULL. -/
def sortedRemove (keyPtr : Bool) : Option (Removed α × LinkedList α) :=
  match s.first with
  | none => some (⟨none, none⟩, s)
  | some element =>
    (s.heap element).map fun e =>
      let heap := update s.heap element none
      let removed := ⟨some e.item, if keyPtr then some e.key else none⟩
      if s.first = s.last then (removed, ⟨heap, none, none⟩)
      else (removed, ⟨heap, e.next, s.last⟩)

/-- `List::Remove`. -/
def remove : Option (Removed α × LinkedList α) := s.sortedRemove false

end LinkedList

/-! ### The mathematical sequence -/

section Sequence

variable {α : Type}

/-- The keys and the items. -/
abbrev Pairs (α : Type) := List (Int × α)

/-- Before the first element with a strictly larger key, or at the end. -/
def insertSorted (item : α) (sortKey : Int) (seq : Pairs α) : Pairs α :=
  StableQueue.insert Prod.fst (sortKey, item) seq

/-- The head, and the rest. -/
def takeHead (keyPtr : Bool) : Pairs α → Removed α × Pairs α
  | [] => (⟨none, none⟩, [])
  | x :: seq => (⟨some x.2, if keyPtr then some x.1 else none⟩, seq)

end Sequence

/-! ### Representation -/

section Representation

variable {α : Type} {s : LinkedList α} {a : Addr} {key : Int} {item : α}

/-- Addresses, keys and items of the elements of a list. -/
abbrev Nodes (α : Type) := List (Addr × Int × α)

def ListElement.pair (e : ListElement α) : Int × α := (e.key, e.item)

/-- The nodes are the elements from `first` on, and `last` is the last of them. -/
structure Holds (s : LinkedList α) (ns : Nodes α) : Prop where
  chain : Seg ListElement.next ListElement.pair s.heap s.first ns none
  last : s.last = ns.getLast?.map Prod.fst

theorem Holds.first_eq {n : Addr × Int × α} {ns : Nodes α} (h : Holds s (n :: ns)) :
    s.first = some n.1 := h.chain.1

theorem Holds.isEmpty_cons {n : Addr × Int × α} {ns : Nodes α} (h : Holds s (n :: ns)) :
    s.isEmpty = false := by
  rw [LinkedList.isEmpty, h.first_eq]
  rfl

theorem Holds.isEmpty_nil (h : Holds s []) : s.isEmpty = true := by
  have hfirst : s.first = none := h.chain
  rw [LinkedList.isEmpty, hfirst]
  rfl

theorem setNext_eq {e : ListElement α} (he : s.heap a = some e) (next : Option Addr) :
    s.setNext (some a) next =
      some ⟨update s.heap a (some { e with next := next }), s.first, s.last⟩ := by
  rw [LinkedList.setNext, Option.bind_some, he]
  rfl

/-- The list with a new element that it does not contain yet. -/
structure Fresh (s : LinkedList α) (ns : Nodes α) (a : Addr) (key : Int) (item : α) : Prop where
  holds : Holds s ns
  heap : s.heap a = some ⟨none, key, item⟩
  not_mem : a ∉ ns.map Prod.fst

theorem Holds.newElement {ns : Nodes α} (h : Holds s ns) (ha : s.heap a = none) (item : α)
    (key : Int) : ∃ s', s.newElement a item key = some s' ∧ Fresh s' ns a key item := by
  have hnot : a ∉ ns.map Prod.fst := h.chain.not_mem ha
  exact ⟨_, if_pos ha, ⟨h.chain.update hnot _, h.last⟩, update_self .., hnot⟩

/-- The only element. -/
theorem Fresh.single (h : Fresh s [] a key item) :
    Holds { s with first := some a, last := some a } [(a, key, item)] :=
  ⟨⟨rfl, _, h.heap, rfl, rfl⟩, rfl⟩

/-- In front of the first element. -/
theorem Fresh.front {n : Addr × Int × α} {ns : Nodes α} (h : Fresh s (n :: ns) a key item) :
    ∃ s', (s.setNext (some a) s.first).map (fun s => { s with first := some a }) = some s' ∧
      Holds s' ((a, key, item) :: n :: ns) := by
  rw [setNext_eq h.heap]
  refine ⟨_, rfl, ⟨rfl, ⟨s.first, key, item⟩, update_self .., rfl, ?_⟩, ?_⟩
  · exact h.holds.chain.update h.not_mem _
  · exact h.holds.last

theorem Holds.heap_of_mem {ns ms : Nodes α} {n : Addr × Int × α} (h : Holds s (ns ++ n :: ms)) :
    ∃ e, s.heap n.1 = some e ∧ e.pair = n.2 ∧
      Seg ListElement.next ListElement.pair s.heap e.next ms none := by
  obtain ⟨m, -, -, e, he, hpair, hrest⟩ := seg_append.mp h.chain
  exact ⟨e, he, hpair, hrest⟩

theorem Holds.head {ns : Nodes α} {n : Addr × Int × α} (h : Holds s (n :: ns)) :
    ∃ e, s.heap n.1 = some e ∧ e.pair = n.2 ∧
      Seg ListElement.next ListElement.pair s.heap e.next ns none := by
  have hsplit : Holds s ([] ++ n :: ns) := h
  exact hsplit.heap_of_mem

/-- Behind the last element. -/
theorem Fresh.back {ns : Nodes α} {n : Addr × Int × α} (h : Fresh s (ns ++ [n]) a key item) :
    ∃ s', (s.setNext s.last (some a)).map (fun s => { s with last := some a }) = some s' ∧
      Holds s' (ns ++ [n, (a, key, item)]) := by
  obtain ⟨e, he, -, hnext⟩ := h.holds.heap_of_mem
  have hlast : s.last = some n.1 := by
    rw [h.holds.last, List.getLast?_append]
    rfl
  have hne : a ≠ n.1 := by
    rintro rfl
    exact h.not_mem (by simp)
  have hnone : e.next = none := hnext
  rw [hlast, setNext_eq he]
  refine ⟨_, rfl, ?_, ?_⟩
  · exact h.holds.chain.link he h.heap hne hnone.symm rfl rfl
  · simp

/-- Between two elements. -/
theorem Fresh.between {ns ms : Nodes α} {n m : Addr × Int × α}
    (h : Fresh s (ns ++ n :: m :: ms) a key item) :
    ∃ s', ((s.setNext (some a) (some m.1)).bind fun s => s.setNext (some n.1) (some a)) = some s' ∧
      Holds s' (ns ++ n :: (a, key, item) :: m :: ms) := by
  obtain ⟨e, he, -, hnext⟩ := h.holds.heap_of_mem
  have hne : a ≠ n.1 := by
    rintro rfl
    exact h.not_mem (by simp)
  have he' : update s.heap a (some ⟨some m.1, key, item⟩) n.1 = some e := by
    rw [update_of_ne (Ne.symm hne), he]
  have hlinked : LinkedList.setNext
      ⟨update s.heap a (some ⟨some m.1, key, item⟩), s.first, s.last⟩ (some n.1) (some a) = _ :=
    setNext_eq he' (some a)
  have hchain : Seg ListElement.next ListElement.pair
      (update s.heap a (some ⟨some m.1, key, item⟩)) s.first (ns ++ n :: m :: ms) none :=
    h.holds.chain.update h.not_mem _
  rw [setNext_eq h.heap, Option.bind_some, hlinked]
  refine ⟨_, rfl, ?_, ?_⟩
  · exact hchain.link he' (update_self ..) hne hnext.1.symm rfl rfl
  · rw [h.holds.last]
    simp

/-- The walk stops before the first element behind `n` with a strictly larger key. -/
theorem walk_spec {ns ms : Nodes α} {n : Addr × Int × α} {rounds : Nat}
    (h : Fresh s (ns ++ n :: ms) a key item) (hrounds : ms.length < rounds) :
    ∃ s' ms', LinkedList.walk a key rounds (some n.1) s = some s' ∧ Holds s' (ns ++ n :: ms') ∧
      ms'.map Prod.snd = insertSorted item key (ms.map Prod.snd) := by
  induction rounds generalizing ns n ms with
  | zero => omega
  | succ rounds ih =>
    obtain ⟨e, he, -, hnext⟩ := h.holds.heap_of_mem
    have hderef : s.deref (some n.1) = some e := he
    rw [LinkedList.walk, hderef, Option.bind_some]
    cases ms with
    | nil =>
      have hnone : e.next = none := hnext
      rw [if_pos hnone]
      obtain ⟨s', hs', hholds⟩ := h.back
      exact ⟨s', [(a, key, item)], hs', hholds, rfl⟩
    | cons m ms =>
      obtain ⟨hsome, e', he', hpair', -⟩ := hnext
      have hderef' : s.deref e.next = some e' := by
        rw [LinkedList.deref, hsome]
        exact he'
      have hkey : e'.key = m.2.1 := congrArg Prod.fst hpair'
      have hnot : ¬ e.next = none := by
        rw [hsome]
        exact fun hnone => by cases hnone
      rw [if_neg hnot, hderef', Option.bind_some]
      rw [List.map_cons, insertSorted, StableQueue.insert_cons]
      split
      · rename_i hlt
        rw [hkey] at hlt
        rw [hsome]
        obtain ⟨s', hs', hholds⟩ := h.between
        exact ⟨s', (a, key, item) :: m :: ms, hs', hholds, by rw [if_pos hlt]; rfl⟩
      · rename_i hge
        rw [hkey] at hge
        rw [hsome]
        have hnext' : Fresh s ((ns ++ [n]) ++ m :: ms) a key item := by
          rw [List.append_assoc]
          exact h
        obtain ⟨s', ms', hs', hholds, hms'⟩ := ih hnext' (Nat.lt_of_succ_lt_succ hrounds)
        rw [List.append_assoc] at hholds
        refine ⟨s', m :: ms', hs', hholds, ?_⟩
        rw [if_neg hge, List.map_cons, hms']
        rfl

/-- The list has these keys and items. -/
def Represents (s : LinkedList α) (seq : Pairs α) : Prop :=
  ∃ ns : Nodes α, Holds s ns ∧ ns.map Prod.snd = seq

variable {seq : Pairs α}

theorem represents_new (heap : Addr → Option (ListElement α)) :
    Represents (LinkedList.new heap) [] :=
  ⟨[], ⟨rfl, rfl⟩, rfl⟩

theorem Represents.append (h : Represents s seq) (ha : s.heap a = none) (item : α) :
    ∃ s', s.append a item = some s' ∧ Represents s' (seq ++ [(0, item)]) := by
  obtain ⟨ns, hns, rfl⟩ := h
  obtain ⟨s₁, hnew, hfresh⟩ := hns.newElement ha item 0
  rw [LinkedList.append, hnew, Option.bind_some]
  rcases List.eq_nil_or_concat ns with rfl | ⟨ns, n, rfl⟩
  · rw [if_pos hfresh.holds.isEmpty_nil]
    exact ⟨_, rfl, [(a, 0, item)], hfresh.single, rfl⟩
  · rw [List.concat_eq_append] at hfresh ⊢
    obtain ⟨s', hs', hholds⟩ := hfresh.back
    have hempty : s₁.isEmpty = false := by
      cases ns with
      | nil => exact hfresh.holds.isEmpty_cons
      | cons m ns => exact hfresh.holds.isEmpty_cons
    rw [if_neg (by rw [hempty]; exact Bool.false_ne_true), hs']
    refine ⟨s', rfl, _, hholds, ?_⟩
    simp

theorem Represents.prepend (h : Represents s seq) (ha : s.heap a = none) (item : α) :
    ∃ s', s.prepend a item = some s' ∧ Represents s' ((0, item) :: seq) := by
  obtain ⟨ns, hns, rfl⟩ := h
  obtain ⟨s₁, hnew, hfresh⟩ := hns.newElement ha item 0
  rw [LinkedList.prepend, hnew, Option.bind_some]
  cases ns with
  | nil =>
    rw [if_pos hfresh.holds.isEmpty_nil]
    exact ⟨_, rfl, [(a, 0, item)], hfresh.single, rfl⟩
  | cons n ns =>
    obtain ⟨s', hs', hholds⟩ := hfresh.front
    rw [if_neg (by rw [hfresh.holds.isEmpty_cons]; exact Bool.false_ne_true), hs']
    exact ⟨s', rfl, _, hholds, rfl⟩

theorem Represents.sortedInsert (h : Represents s seq) (ha : s.heap a = none) (item : α)
    (key : Int) {rounds : Nat} (hrounds : seq.length < rounds) :
    ∃ s', s.sortedInsert a item key rounds = some s' ∧
      Represents s' (insertSorted item key seq) := by
  obtain ⟨ns, hns, rfl⟩ := h
  obtain ⟨s₁, hnew, hfresh⟩ := hns.newElement ha item key
  rw [LinkedList.sortedInsert, hnew, Option.bind_some]
  cases ns with
  | nil =>
    rw [if_pos hfresh.holds.isEmpty_nil]
    exact ⟨_, rfl, [(a, key, item)], hfresh.single, rfl⟩
  | cons n ns =>
    rw [if_neg (by rw [hfresh.holds.isEmpty_cons]; exact Bool.false_ne_true)]
    obtain ⟨e, he, hpair, -⟩ := hfresh.holds.head
    have hderef : s₁.deref s₁.first = some e := by
      rw [hfresh.holds.first_eq]
      exact he
    have hkey : e.key = n.2.1 := congrArg Prod.fst hpair
    rw [hderef, Option.bind_some, List.map_cons, insertSorted, StableQueue.insert_cons]
    by_cases hlt : key < n.2.1
    · rw [if_pos (hkey ▸ hlt), if_pos hlt]
      obtain ⟨s', hs', hholds⟩ := hfresh.front
      exact ⟨s', hs', _, hholds, rfl⟩
    · rw [if_neg (hkey ▸ hlt), if_neg hlt, hfresh.holds.first_eq]
      have hlength : ns.length < rounds := by
        rw [List.length_map, List.length_cons] at hrounds
        omega
      have hsplit : Fresh s₁ ([] ++ n :: ns) a key item := hfresh
      obtain ⟨s', ms, hs', hholds, hms⟩ := walk_spec hsplit hlength
      refine ⟨s', hs', n :: ms, hholds, ?_⟩
      rw [List.map_cons, hms]
      rfl

/-- `first == last` says that there is one element. -/
theorem Holds.first_eq_last_iff {n : Addr × Int × α} {ns : Nodes α} (h : Holds s (n :: ns)) :
    s.first = s.last ↔ ns = [] := by
  rw [h.first_eq, h.last]
  constructor
  · intro heq
    cases ns with
    | nil => rfl
    | cons m ns =>
      have hnodup := (List.nodup_cons.mp h.chain.nodup).1
      rw [List.getLast?_cons_cons] at heq
      obtain ⟨l, hl, hn⟩ := Option.map_eq_some_iff.mp heq.symm
      exact absurd (hn ▸ List.mem_map_of_mem (List.mem_of_getLast? hl)) hnodup
  · rintro rfl
    rfl

theorem Represents.sortedRemove (h : Represents s seq) (keyPtr : Bool) :
    ∃ s', s.sortedRemove keyPtr = some ((takeHead keyPtr seq).1, s') ∧
      Represents s' (takeHead keyPtr seq).2 := by
  obtain ⟨ns, hns, rfl⟩ := h
  cases ns with
  | nil =>
    have hfirst : s.first = none := hns.chain
    refine ⟨s, ?_, [], hns, rfl⟩
    unfold LinkedList.sortedRemove
    rw [hfirst]
    rfl
  | cons n ns =>
    obtain ⟨e, he, hpair, hrest⟩ := hns.head
    have hkey : e.key = n.2.1 := congrArg Prod.fst hpair
    have hitem : e.item = n.2.2 := congrArg Prod.snd hpair
    have hnodup := (List.nodup_cons.mp hns.chain.nodup).1
    unfold LinkedList.sortedRemove
    rw [hns.first_eq]
    dsimp only
    rw [he, Option.map_some, hkey, hitem, ← hns.first_eq]
    by_cases hone : s.first = s.last
    · rw [if_pos hone]
      have hnil := hns.first_eq_last_iff.mp hone
      subst hnil
      exact ⟨_, rfl, [], ⟨rfl, rfl⟩, rfl⟩
    · rw [if_neg hone]
      refine ⟨_, rfl, ns, ⟨hrest.update hnodup _, ?_⟩, rfl⟩
      cases ns with
      | nil => exact absurd (hns.first_eq_last_iff.mpr rfl) hone
      | cons m ns =>
        rw [← List.getLast?_cons_cons (a := n)]
        exact hns.last

/-- A walk that came to its end needs no more rounds. -/
theorem walk_mono {rounds rounds' : Nat} {ptr : Option Addr} {s' : LinkedList α}
    (hle : rounds ≤ rounds') (h : LinkedList.walk a key rounds ptr s = some s') :
    LinkedList.walk a key rounds' ptr s = some s' := by
  induction rounds generalizing rounds' ptr with
  | zero => cases h
  | succ rounds ih =>
    obtain ⟨more, rfl⟩ : ∃ more, rounds' = more + 1 := ⟨rounds' - 1, by omega⟩
    rw [LinkedList.walk] at h ⊢
    obtain ⟨e, he, hrest⟩ := Option.bind_eq_some_iff.mp h
    rw [he, Option.bind_some]
    split at hrest
    · rename_i hnone
      rw [if_pos hnone, hrest]
    · rename_i hnot
      obtain ⟨n, hn, hrest⟩ := Option.bind_eq_some_iff.mp hrest
      rw [if_neg hnot, hn, Option.bind_some]
      split at hrest
      · rename_i hlt
        rw [if_pos hlt, hrest]
      · rename_i hge
        rw [if_neg hge]
        exact ih (Nat.le_of_succ_le_succ hle) hrest

theorem heap_of_newElement {s' : LinkedList α} (h : s.newElement a item key = some s') :
    s.heap a = none := by
  unfold LinkedList.newElement at h
  split at h
  · assumption
  · cases h

/-- A call that has a result was possible. -/
theorem sortedInsert_more {rounds rounds' : Nat} {s' : LinkedList α} (hle : rounds ≤ rounds')
    (h : s.sortedInsert a item key rounds = some s') :
    s.heap a = none ∧ s.sortedInsert a item key rounds' = some s' := by
  unfold LinkedList.sortedInsert at h ⊢
  obtain ⟨s₁, hnew, hrest⟩ := Option.bind_eq_some_iff.mp h
  refine ⟨heap_of_newElement hnew, ?_⟩
  rw [hnew, Option.bind_some]
  split at hrest
  · rename_i hempty
    rw [if_pos hempty, hrest]
  · rename_i hempty
    obtain ⟨e, he, hrest⟩ := Option.bind_eq_some_iff.mp hrest
    rw [if_neg hempty, he, Option.bind_some]
    split at hrest
    · rename_i hlt
      rw [if_pos hlt, hrest]
    · rename_i hge
      rw [if_neg hge]
      exact walk_mono hle hrest

end Representation

/-! ### Every run -/

section Runs

variable {α : Type}

/-- A call, with the address that `new` gives and the number of rounds that the walk may take. -/
inductive Op (α : Type)
  | append (a : Addr) (item : α)
  | prepend (a : Addr) (item : α)
  | sortedInsert (a : Addr) (item : α) (sortKey : Int) (rounds : Nat)
  | remove
  | sortedRemove (keyPtr : Bool)

/-- What a call returns, if it returns something, and the list after it. -/
def call (s : LinkedList α) : Op α → Option (Option (Removed α) × LinkedList α)
  | .append a item => (s.append a item).map fun s => (none, s)
  | .prepend a item => (s.prepend a item).map fun s => (none, s)
  | .sortedInsert a item sortKey rounds =>
    (s.sortedInsert a item sortKey rounds).map fun s => (none, s)
  | .remove => s.remove.map fun r => (some r.1, r.2)
  | .sortedRemove keyPtr => (s.sortedRemove keyPtr).map fun r => (some r.1, r.2)

/-- The same on a sequence. -/
def callSeq (seq : Pairs α) : Op α → Option (Removed α) × Pairs α
  | .append _ item => (none, seq ++ [(0, item)])
  | .prepend _ item => (none, (0, item) :: seq)
  | .sortedInsert _ item sortKey _ => (none, insertSorted item sortKey seq)
  | .remove => (some (takeHead false seq).1, (takeHead false seq).2)
  | .sortedRemove keyPtr => (some (takeHead keyPtr seq).1, (takeHead keyPtr seq).2)

/-- The address is not in use, and the walk may go to the end. -/
def Op.Possible (s : LinkedList α) (length : Nat) : Op α → Prop
  | .append a _ => s.heap a = none
  | .prepend a _ => s.heap a = none
  | .sortedInsert a _ _ rounds => s.heap a = none ∧ length < rounds
  | _ => True

/-- A list and a sequence, and what the calls on each of them returned. -/
structure Twin (α : Type) where
  list : LinkedList α
  seq : Pairs α
  results : List (Removed α) := []
  expected : List (Removed α) := []

def step (t : Twin α) (op : Op α) : Option (Twin α) :=
  (call t.list op).map fun r =>
    { list := r.2
      seq := (callSeq t.seq op).2
      results := t.results ++ r.1.toList
      expected := t.expected ++ (callSeq t.seq op).1.toList }

theorem Represents.returns {s : LinkedList α} {seq : Pairs α} (h : Represents s seq) {op : Op α}
    (hop : op.Possible s seq.length) :
    ∃ s', call s op = some ((callSeq seq op).1, s') ∧ Represents s' (callSeq seq op).2 := by
  cases op with
  | append a item =>
    obtain ⟨s', hs', hseq⟩ := h.append hop item
    exact ⟨s', Option.map_eq_some_iff.mpr ⟨s', hs', rfl⟩, hseq⟩
  | prepend a item =>
    obtain ⟨s', hs', hseq⟩ := h.prepend hop item
    exact ⟨s', Option.map_eq_some_iff.mpr ⟨s', hs', rfl⟩, hseq⟩
  | sortedInsert a item sortKey rounds =>
    obtain ⟨s', hs', hseq⟩ := h.sortedInsert hop.1 item sortKey hop.2
    exact ⟨s', Option.map_eq_some_iff.mpr ⟨s', hs', rfl⟩, hseq⟩
  | remove =>
    obtain ⟨s', hs', hseq⟩ := h.sortedRemove false
    exact ⟨s', Option.map_eq_some_iff.mpr ⟨_, hs', rfl⟩, hseq⟩
  | sortedRemove keyPtr =>
    obtain ⟨s', hs', hseq⟩ := h.sortedRemove keyPtr
    exact ⟨s', Option.map_eq_some_iff.mpr ⟨_, hs', rfl⟩, hseq⟩

theorem Represents.of_call {s s' : LinkedList α} {seq : Pairs α} {op : Op α}
    {result : Option (Removed α)} (h : Represents s seq) (hcall : call s op = some (result, s')) :
    result = (callSeq seq op).1 ∧ Represents s' (callSeq seq op).2 := by
  -- Some calls with this result are possible, and those are calls on the sequence.
  have hpossible : ∃ op' : Op α, op'.Possible s seq.length ∧ call s op' = some (result, s') ∧
      callSeq seq op' = callSeq seq op := by
    cases op with
    | append a item =>
      obtain ⟨t, ht, -⟩ := Option.map_eq_some_iff.mp hcall
      obtain ⟨u, hu, -⟩ := Option.bind_eq_some_iff.mp ht
      exact ⟨.append a item, heap_of_newElement hu, hcall, rfl⟩
    | prepend a item =>
      obtain ⟨t, ht, -⟩ := Option.map_eq_some_iff.mp hcall
      obtain ⟨u, hu, -⟩ := Option.bind_eq_some_iff.mp ht
      exact ⟨.prepend a item, heap_of_newElement hu, hcall, rfl⟩
    | sortedInsert a item sortKey rounds =>
      obtain ⟨t, ht, heq⟩ := Option.map_eq_some_iff.mp hcall
      obtain ⟨hheap, hmore⟩ := sortedInsert_more (Nat.le_add_right rounds (seq.length + 1)) ht
      exact ⟨.sortedInsert a item sortKey (rounds + (seq.length + 1)), ⟨hheap, by omega⟩,
        Option.map_eq_some_iff.mpr ⟨t, hmore, heq⟩, rfl⟩
    | remove => exact ⟨.remove, trivial, hcall, rfl⟩
    | sortedRemove keyPtr => exact ⟨.sortedRemove keyPtr, trivial, hcall, rfl⟩
  obtain ⟨op', hop', hcall', heq⟩ := hpossible
  obtain ⟨t, ht, hseq⟩ := h.returns hop'
  rw [hcall', heq] at ht
  obtain ⟨rfl, rfl⟩ := Prod.mk.inj (Option.some.inj ht)
  exact ⟨rfl, heq ▸ hseq⟩

/-- The list is what its sequence says. -/
structure Correct (t : Twin α) : Prop where
  /-- The elements from `first` on, at different addresses, and the final one of them. -/
  elements : ∃ ns : Nodes α, Holds t.list ns ∧ (ns.map Prod.fst).Nodup ∧ ns.map Prod.snd = t.seq
  first : t.list.first = none ↔ t.seq = []
  last : t.seq ≠ [] → ∃ a e, t.list.last = some a ∧ t.list.heap a = some e ∧ e.next = none
  results : t.results = t.expected
  /-- No possible call follows NULL or the address of a deleted element, and each returns. -/
  defined : ∀ op, op.Possible t.list t.seq.length → ∃ r, call t.list op = some r

theorem Holds.last_spec {s : LinkedList α} {ns : Nodes α} (h : Holds s ns) (hne : ns ≠ []) :
    ∃ a e, s.last = some a ∧ s.heap a = some e ∧ e.next = none := by
  rcases List.eq_nil_or_concat ns with rfl | ⟨ns, n, rfl⟩
  · exact absurd rfl hne
  · rw [List.concat_eq_append] at h
    obtain ⟨e, he, -, hnext⟩ := h.heap_of_mem
    refine ⟨n.1, e, ?_, he, hnext⟩
    rw [h.last, List.getLast?_append]
    rfl

theorem Represents.correct {t : Twin α} (h : Represents t.list t.seq)
    (hresults : t.results = t.expected) : Correct t := by
  have hdefined : ∀ op : Op α, op.Possible t.list t.seq.length → ∃ r, call t.list op = some r := by
    intro op hop
    obtain ⟨s', hs', -⟩ := h.returns hop
    exact ⟨_, hs'⟩
  obtain ⟨ns, hns, hseq⟩ := h
  have hnil : t.seq = [] ↔ ns = [] := by
    rw [← hseq, List.map_eq_nil_iff]
  refine ⟨⟨ns, hns, hns.chain.nodup, hseq⟩, ?_, ?_, hresults, hdefined⟩
  · rw [hnil]
    cases ns with
    | nil => exact ⟨fun _ => rfl, fun _ => hns.chain⟩
    | cons n ns =>
      rw [hns.first_eq]
      exact ⟨fun hnone => absurd hnone (Option.some_ne_none _), fun hcons => absurd hcons (by simp)⟩
  · intro hne
    exact hns.last_spec fun hns => hne (hnil.mpr hns)

/-- From an empty list, whatever else is on the heap, in every run of the calls. -/
theorem list_represents (heap : Addr → Option (ListElement α)) (ops : List (Op α)) :
    AllStates step Correct ⟨LinkedList.new heap, [], [], []⟩ ops := by
  have hinv : AllStates step (fun t : Twin α => Represents t.list t.seq ∧ t.results = t.expected)
      ⟨LinkedList.new heap, [], [], []⟩ ops := by
    refine allStates_of_invariant (fun t op t' ht h => ?_) ⟨represents_new heap, rfl⟩ ops
    obtain ⟨r, hr, rfl⟩ := Option.map_eq_some_iff.mp h
    obtain ⟨hresult, hrep⟩ := ht.1.of_call hr
    refine ⟨hrep, ?_⟩
    show t.results ++ r.1.toList = t.expected ++ (callSeq t.seq op).1.toList
    rw [ht.2, hresult]
  exact hinv.mono fun t ht => ht.1.correct ht.2

end Runs

end Nachos.Threads.Lists
