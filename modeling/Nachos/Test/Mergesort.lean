import Mathlib.Data.List.Induction
import Mathlib.Order.Lattice
import Nachos.Lib.CArray

/-!
# `mergeSort` of `test/mergesort.c`

The user program sorts an array of pointers to `float`s in place. `CompareFloat` is a system call that
compares what two of them point to. The pointers are the type `α`, and `value` is the number behind a
pointer. The numbers are in a linear order, so none of them is a NaN: `ReadFloat` does return one for
the input `nan`, and what the program prints then is not looked at. An access outside the array has no
result, and a loop is given the number of rounds it may take, so a result says that the function
returned and stayed inside the array.

`merge` moves the first element of the right half in front of the left half, as often as it is the
smaller one. What is left of the two halves are always two adjacent segments, and the array in front
of them has the elements that a merge of lists takes first (`mergeLoop_spec`).

`mergeSort_sorts`: the elements are sorted, and equal numbers stay in their order.
-/

namespace Nachos.Test.Mergesort

open CArray

variable {α F : Type*} [LinearOrder F] (value : α → F)

/-! ### The code -/

/-- `SC_CompareFloat`. -/
def compareFloat (first second : α) : Int :=
  if value first > value second then 1 else if value first = value second then 0 else -1

/-- `while (index != start)`. -/
def shift (start : Int) : Nat → Int → List α → Option (List α)
  | 0, _, _ => none
  | rounds + 1, index, arr =>
    if index ≠ start then
      (read arr (index - 1)).bind fun x =>
        (write arr index x).bind fun arr => shift start rounds (index - 1) arr
    else some arr

/-- The variables of `merge`. -/
structure Cursor (α : Type*) where
  arr : List α
  start : Int
  mid : Int
  start2 : Int

/-- `while (start <= mid && start2 <= end)`. -/
def mergeLoop (stop : Int) : Nat → Cursor α → Option (List α)
  | 0, _ => none
  | rounds + 1, c =>
    if c.start ≤ c.mid ∧ c.start2 ≤ stop then
      (read c.arr c.start).bind fun x =>
        (read c.arr c.start2).bind fun y =>
          if compareFloat value x y ≤ 0 then mergeLoop stop rounds { c with start := c.start + 1 }
          else
            (shift c.start (rounds + 1) c.start2 c.arr).bind fun arr =>
              (write arr c.start y).bind fun arr =>
                mergeLoop stop rounds ⟨arr, c.start + 1, c.mid + 1, c.start2 + 1⟩
    else some c.arr

def merge (rounds : Nat) (arr : List α) (start mid stop : Int) : Option (List α) :=
  let start2 := mid + 1
  (read arr mid).bind fun x =>
    (read arr start2).bind fun y =>
      if compareFloat value x y ≤ 0 then some arr
      else mergeLoop value stop rounds ⟨arr, start, mid, start2⟩

def mergeSort : Nat → List α → Int → Int → Option (List α)
  | 0, _, _, _ => none
  | rounds + 1, arr, left, right =>
    if left < right then
      let mid := left + (right - left).tdiv 2
      (mergeSort rounds arr left mid).bind fun arr =>
        (mergeSort rounds arr (mid + 1) right).bind fun arr =>
          merge value (rounds + 1) arr left mid right
    else some arr

/-! ### Accesses between two segments -/

section Segments

variable {pre post : List α} {x : α} {k : Int}

theorem read_append (hk : k = pre.length) : read (pre ++ x :: post) k = some x := by
  unfold CArray.read
  rw [hk, if_pos (Int.natCast_nonneg _), Int.toNat_natCast,
    List.getElem?_append_right (Nat.le_refl _), Nat.sub_self]
  rfl

theorem write_append (hk : k = pre.length) (y : α) :
    write (pre ++ x :: post) k y = some (pre ++ y :: post) := by
  have hlt : k < (pre ++ x :: post).length := by
    rw [List.length_append, List.length_cons]
    omega
  unfold CArray.write
  rw [if_pos ⟨by omega, hlt⟩, hk, Int.toNat_natCast, List.set_append_right _ _ (Nat.le_refl _),
    Nat.sub_self]
  rfl

/-- The segment `l` moves up by one place. -/
theorem shift_spec {rounds : Nat} {start index : Int} {arr : List α} (pre l : List α) (z : α)
    (post : List α) (harr : arr = pre ++ l ++ z :: post) (hstart : start = pre.length)
    (hindex : index = start + l.length) (hrounds : l.length < rounds) :
    ∃ c, shift start rounds index arr = some (pre ++ c :: (l ++ post)) := by
  subst harr
  induction l using List.reverseRecOn generalizing rounds index z post with
  | nil =>
    obtain ⟨fuel, rfl⟩ : ∃ fuel, rounds = fuel + 1 := ⟨rounds - 1, by omega⟩
    refine ⟨z, ?_⟩
    rw [shift, if_neg (by simp [hindex]), List.append_nil, List.nil_append]
  | append_singleton l x ih =>
    rw [List.length_append, List.length_singleton] at hindex hrounds
    obtain ⟨fuel, rfl⟩ : ∃ fuel, rounds = fuel + 1 := ⟨rounds - 1, by omega⟩
    have hrest : ∃ c, shift start fuel (index - 1) (pre ++ l ++ x :: x :: post) =
        some (pre ++ c :: (l ++ x :: post)) := ih x (x :: post) (by omega) (by omega)
    obtain ⟨c, hc⟩ := hrest
    refine ⟨c, ?_⟩
    have hread : pre ++ (l ++ [x]) ++ z :: post = (pre ++ l) ++ x :: z :: post := by simp
    have hwrite : pre ++ (l ++ [x]) ++ z :: post = (pre ++ l ++ [x]) ++ z :: post := by simp
    have hmoved : (pre ++ l ++ [x]) ++ x :: post = pre ++ l ++ x :: x :: post := by simp
    rw [shift, if_pos (by omega), hread, read_append (by rw [List.length_append]; omega),
      Option.bind_some, ← hread, hwrite,
      write_append (by rw [List.length_append, List.length_append, List.length_singleton]; omega),
      Option.bind_some, hmoved, hc]
    simp

end Segments

/-! ### The merge -/

/-- The order that `CompareFloat` decides. -/
def le (first second : α) : Bool := decide (compareFloat value first second ≤ 0)

theorem le_iff (first second : α) : le value first second = true ↔ value first ≤ value second := by
  unfold le compareFloat
  rw [decide_eq_true_iff]
  rcases lt_trichotomy (value first) (value second) with hlt | heq | hgt
  · rw [if_neg (not_lt.mpr hlt.le), if_neg hlt.ne]
    exact iff_of_true (by decide) hlt.le
  · rw [if_neg (by rw [heq]; exact lt_irrefl _), if_pos heq]
    exact iff_of_true (by decide) heq.le
  · rw [if_pos hgt]
    exact iff_of_false (by decide) (not_le.mpr hgt)

theorem le_trans (a b c : α) (hab : le value a b) (hbc : le value b c) : le value a c :=
  (le_iff value a c).mpr (((le_iff value a b).mp hab).trans ((le_iff value b c).mp hbc))

theorem le_total (a b : α) : le value a b || le value b a := by
  rw [Bool.or_eq_true, le_iff, le_iff]
  exact (LinearOrder.le_total (value a) (value b))

variable {value}

/-- The loop merges two adjacent segments. -/
theorem mergeLoop_spec {rounds : Nat} {c : Cursor α} {stop : Int} (pre l r post : List α)
    (harr : c.arr = pre ++ l ++ r ++ post) (hstart : c.start = pre.length)
    (hmid : c.mid = c.start + l.length - 1) (hstart2 : c.start2 = c.mid + 1)
    (hstop : stop = c.mid + r.length) (hrounds : l.length + r.length < rounds) :
    mergeLoop value stop rounds c = some (pre ++ List.merge l r (le value) ++ post) := by
  induction rounds generalizing c pre l r with
  | zero => omega
  | succ rounds ih =>
    rw [mergeLoop]
    cases l with
    | nil =>
      simp only [List.length_nil] at hmid
      rw [if_neg (by omega), harr, List.nil_merge, List.append_nil]
    | cons x l =>
      cases r with
      | nil =>
        simp only [List.length_nil] at hstop
        rw [if_neg (by omega), harr, List.merge_right, List.append_nil]
      | cons y r =>
        simp only [List.length_cons] at hmid hstop hrounds
        have hx : c.arr = pre ++ x :: (l ++ y :: r ++ post) := by rw [harr]; simp
        have hy : c.arr = (pre ++ x :: l) ++ y :: (r ++ post) := by rw [harr]; simp
        have hreadx : read c.arr c.start = some x := hx ▸ read_append hstart
        have hready : read c.arr c.start2 = some y := by
          rw [hy]
          refine read_append ?_
          rw [List.length_append, List.length_cons]
          omega
        rw [if_pos ⟨by omega, by omega⟩, hreadx, Option.bind_some, hready, Option.bind_some]
        by_cases hle : compareFloat value x y ≤ 0
        · have hnext := ih (c := { c with start := c.start + 1 }) (pre ++ [x]) l (y :: r)
            (by rw [hx]; simp) (by simp [hstart]) (by dsimp only; omega) hstart2
            (by rw [hstop]; simp) (by rw [List.length_cons]; omega)
          rw [if_pos hle, hnext, List.cons_merge_cons_pos (le value) l r (decide_eq_true hle)]
          simp
        · -- The smaller element goes in front of the left segment.
          have hmoved : ∃ z, shift c.start (rounds + 1) c.start2 c.arr =
              some (pre ++ z :: (x :: l ++ (r ++ post))) :=
            shift_spec pre (x :: l) y (r ++ post) hy hstart (by rw [List.length_cons]; omega)
              (by rw [List.length_cons]; omega)
          obtain ⟨z, hshift⟩ := hmoved
          have hnext := ih
            (c := ⟨pre ++ y :: (x :: l ++ (r ++ post)), c.start + 1, c.mid + 1, c.start2 + 1⟩)
            (pre ++ [y]) (x :: l) r (by simp) (by simp [hstart])
            (by rw [List.length_cons]; dsimp only; omega) (by dsimp only; omega)
            (by dsimp only; omega) (by rw [List.length_cons]; omega)
          have hmerge : List.merge (x :: l) (y :: r) (le value) =
              y :: List.merge (x :: l) r (le value) :=
            List.cons_merge_cons_neg (le value) l r (by simpa [le] using hle)
          rw [if_neg hle, hshift, Option.bind_some, write_append hstart, Option.bind_some, hnext,
            hmerge]
          simp

/-- When the halves are in order already, `merge` returns at once. -/
theorem merge_spec {rounds : Nat} {arr : List α} {start mid stop : Int} (pre l r post : List α)
    (hl : l ≠ []) (hr : r ≠ []) (hsortedl : l.Pairwise fun a b => le value a b)
    (hsortedr : r.Pairwise fun a b => le value a b) (harr : arr = pre ++ l ++ r ++ post)
    (hstart : start = pre.length) (hmid : mid = start + l.length - 1)
    (hstop : stop = mid + r.length) (hrounds : l.length + r.length < rounds) :
    merge value rounds arr start mid stop =
      some (pre ++ List.merge l r (le value) ++ post) := by
  obtain ⟨front, x, rfl⟩ : ∃ front x, l = front ++ [x] :=
    ⟨l.dropLast, l.getLast hl, (List.dropLast_append_getLast hl).symm⟩
  obtain ⟨y, back, rfl⟩ := List.exists_cons_of_ne_nil hr
  have hlen : ((front ++ [x]).length : Int) = front.length + 1 := by simp
  have hx : arr = (pre ++ front) ++ x :: (y :: back ++ post) := by rw [harr]; simp
  have hy : arr = (pre ++ (front ++ [x])) ++ y :: (back ++ post) := by rw [harr]; simp
  have hreadx : read arr mid = some x := by
    rw [hx]
    refine read_append ?_
    rw [List.length_append]
    omega
  have hready : read arr (mid + 1) = some y := by
    rw [hy]
    refine read_append ?_
    rw [List.length_append]
    omega
  rw [merge, hreadx, Option.bind_some, hready, Option.bind_some]
  by_cases hle : compareFloat value x y ≤ 0
  · rw [if_pos hle]
    have hbetween : ∀ a b, a ∈ front ++ [x] → b ∈ y :: back → le value a b := by
      intro a b ha hb
      have hax : le value a x := by
        rcases List.mem_append.mp ha with ha | ha
        · exact (List.pairwise_append.mp hsortedl).2.2 a ha x (List.mem_singleton_self x)
        · rw [List.mem_singleton.mp ha]
          exact (le_iff value x x).mpr (le_refl _)
      have hyb : le value y b := by
        rcases List.mem_cons.mp hb with rfl | hb
        · exact (le_iff value b b).mpr (le_refl _)
        · exact (List.pairwise_cons.mp hsortedr).1 b hb
      exact le_trans value a y b (le_trans value a x y hax (decide_eq_true hle)) hyb
    rw [List.merge_of_le hbetween, harr]
    simp
  · rw [if_neg hle]
    exact mergeLoop_spec (c := ⟨arr, start, mid, mid + 1⟩) pre (front ++ [x]) (y :: back) post harr
      hstart hmid rfl hstop hrounds

/-! ### The recursion -/

/-- A list of two elements or more is sorted by sorting its halves. -/
theorem mergeSort_halves {l : List α} (hl : 2 ≤ l.length) :
    ∃ first second, l = first ++ second ∧ first.length = (l.length + 1) / 2 ∧
      l.mergeSort (le value) =
        List.merge (first.mergeSort (le value)) (second.mergeSort (le value)) (le value) := by
  refine ⟨l.take ((l.length + 1) / 2), l.drop ((l.length + 1) / 2),
    (List.take_append_drop _ l).symm, ?_, ?_⟩
  · rw [List.length_take]
    omega
  · match l, hl with
    | a :: b :: rest, _ =>
      rw [List.mergeSort]
      simp

theorem pairwise_mergeSort (l : List α) :
    (l.mergeSort (le value)).Pairwise fun a b => le value a b :=
  List.pairwise_mergeSort (le_trans value) (le_total value) l

theorem mergeSort_spec {rounds : Nat} {arr : List α} {left right : Int} (pre l post : List α)
    (harr : arr = pre ++ l ++ post) (hleft : left = pre.length)
    (hright : right = left + l.length - 1) (hrounds : l.length < rounds) :
    mergeSort value rounds arr left right = some (pre ++ l.mergeSort (le value) ++ post) := by
  induction rounds generalizing arr left right pre l post with
  | zero => omega
  | succ rounds ih =>
    rw [mergeSort]
    by_cases hlen : 2 ≤ l.length
    · obtain ⟨first, second, hl, hhalf, hsorted⟩ := @mergeSort_halves _ _ _ value l hlen
      have hlengths : first.length + second.length = l.length := by rw [hl, List.length_append]
      have hmid : left + (right - left).tdiv 2 = left + first.length - 1 := by
        rw [Int.tdiv_eq_ediv_of_nonneg (by omega)]
        omega
      have hsortfirst : mergeSort value rounds arr left (left + (right - left).tdiv 2) =
          some (pre ++ first.mergeSort (le value) ++ (second ++ post)) :=
        ih pre first (second ++ post) (by rw [harr, hl]; simp) hleft hmid (by omega)
      have hsortsecond : mergeSort value rounds (pre ++ first.mergeSort (le value) ++ (second ++ post))
          (left + (right - left).tdiv 2 + 1) right =
          some (pre ++ first.mergeSort (le value) ++ second.mergeSort (le value) ++ post) := by
        refine ih _ second post (List.append_assoc _ _ _).symm ?_ (by omega) (by omega)
        rw [List.length_append, List.length_mergeSort]
        omega
      have hmerge : merge value (rounds + 1)
          (pre ++ first.mergeSort (le value) ++ second.mergeSort (le value) ++ post) left
          (left + (right - left).tdiv 2) right = some (pre ++ l.mergeSort (le value) ++ post) := by
        have hfirst := @List.length_mergeSort _ (le value) first
        have hsecond := @List.length_mergeSort _ (le value) second
        rw [hsorted]
        exact merge_spec pre _ _ post (List.ne_nil_of_length_pos (by omega))
          (List.ne_nil_of_length_pos (by omega)) (pairwise_mergeSort first)
          (pairwise_mergeSort second) rfl hleft (by omega) (by omega) (by omega)
      rw [if_pos (by omega)]
      dsimp only
      rw [hsortfirst, Option.bind_some, hsortsecond, Option.bind_some, hmerge]
    · rw [if_neg (by omega), harr]
      cases l with
      | nil => rw [List.mergeSort_nil]
      | cons a rest =>
        cases rest with
        | nil => rw [List.mergeSort_singleton]
        | cons b rest => exact absurd (Nat.le_add_left 2 rest.length) hlen

/-- Sorted elements keep their order. -/
theorem filter_mergeSort (l : List α) (x : F) :
    (l.mergeSort (le value)).filter (fun a => decide (value a = x)) =
      l.filter fun a => decide (value a = x) := by
  have hequal : (l.filter fun a => decide (value a = x)).Pairwise fun a b => le value a b := by
    refine List.pairwise_of_forall_mem_list fun a ha b hb => (le_iff value a b).mpr ?_
    rw [of_decide_eq_true (List.mem_filter.mp ha).2, of_decide_eq_true (List.mem_filter.mp hb).2]
  have hsub := (List.sublist_mergeSort (le_trans value) (le_total value) hequal
    List.filter_sublist).filter fun a => decide (value a = x)
  rw [List.filter_filter] at hsub
  simp only [Bool.and_self] at hsub
  have hlen := ((List.mergeSort_perm l (le value)).filter fun a => decide (value a = x)).length_eq
  exact (hsub.eq_of_length hlen.symm).symm

/-- The first `n` elements of the array are sorted, and elements that are equal stay in their order. -/
theorem mergeSort_sorts {rounds : Nat} {arr : List α} {n : Nat} (hn : n ≤ arr.length)
    (hrounds : n < rounds) :
    ∃ sorted, mergeSort value rounds arr 0 (n - 1) = some (sorted ++ arr.drop n) ∧
      sorted.Perm (arr.take n) ∧ sorted.Pairwise (fun a b => value a ≤ value b) ∧
      ∀ x, sorted.filter (fun a => decide (value a = x)) =
        (arr.take n).filter fun a => decide (value a = x) := by
  have htake : (arr.take n).length = n := List.length_take_of_le hn
  refine ⟨(arr.take n).mergeSort (le value), ?_, List.mergeSort_perm _ _, ?_, filter_mergeSort _⟩
  · exact mergeSort_spec [] (arr.take n) (arr.drop n) (List.take_append_drop n arr).symm rfl (by omega)
      (by omega)
  · exact (pairwise_mergeSort (arr.take n)).imp
      fun hab => (le_iff value _ _).mp hab

/-- Four numbers in an array of six, with two that are equal. -/
theorem mergeSort_sorts_four : ∃ sorted,
    mergeSort (Prod.fst : Nat × Nat → Nat) 5 [(3, 0), (1, 0), (3, 1), (2, 0), (9, 0), (0, 0)] 0 3 =
      some (sorted ++ [(9, 0), (0, 0)]) ∧
      sorted.Pairwise fun a b => a.1 ≤ b.1 := by
  let arr : List (Nat × Nat) := [(3, 0), (1, 0), (3, 1), (2, 0), (9, 0), (0, 0)]
  have hn : 4 ≤ arr.length := by decide
  have hrounds : 4 < 5 := by decide
  obtain ⟨sorted, hsort, -, hpairwise, -⟩ := @mergeSort_sorts _ _ _ Prod.fst 5 arr 4 hn hrounds
  exact ⟨sorted, hsort, hpairwise⟩

end Nachos.Test.Mergesort
