import Nachos.Lib.CArray

/-!
# `quicksort` of `test/quicksort.c`

The user program sorts an array with a stack of ranges in the arrays `beg` and `end` (here `ends`),
of `MAX` elements each and not initialised. An access outside an array has no result, and a loop is
given the number of rounds it may take, so a result says that the function returned and stayed
inside its arrays. Values are only compared and moved, so they are any integers.

The ranges on the stack follow each other with one sorted element between two of them, so the range
at depth `i` has at most `n - i` elements and the stack never overflows (`Inv.depth`). Two
elements that are not in one range are in order (`Inv.ordered`); at the end there is no range.

`quicksort_sorts`: for `1 ≤ n ≤ MAX` the function returns 0 and leaves a sorted permutation.
-/

namespace Nachos.Test.Quicksort

open CArray

/-- `MAX`. -/
def max : Int := 99

/-- What `PrintString` and `PrintInt` are called with. -/
inductive Printed
  | string (s : String)
  | int (n : Int)

/-- `while (arr[R] >= piv && L < R) R--;`. -/
def scanDown (arr : List Int) (piv L : Int) : Nat → Int → Option Int
  | 0, _ => none
  | rounds + 1, R =>
    (read arr R).bind fun x =>
      if x ≥ piv ∧ L < R then scanDown arr piv L rounds (R - 1) else some R

/-- `while (arr[L] <= piv && L < R) L++;`. -/
def scanUp (arr : List Int) (piv R : Int) : Nat → Int → Option Int
  | 0, _ => none
  | rounds + 1, L =>
    (read arr L).bind fun x =>
      if x ≤ piv ∧ L < R then scanUp arr piv R rounds (L + 1) else some L

/-- The variables of the partition. -/
structure Cursor where
  arr : List Int
  L : Int
  R : Int

/-- The first half of the body: down to an element for the left side, which is moved there. -/
def takeRight (piv : Int) (rounds : Nat) (c : Cursor) : Option Cursor :=
  (scanDown c.arr piv c.L rounds c.R).bind fun R =>
    if c.L < R then
      (read c.arr R).bind fun x => (write c.arr c.L x).map fun arr => ⟨arr, c.L + 1, R⟩
    else some { c with R := R }

/-- The second half: up to an element for the right side. -/
def takeLeft (piv : Int) (rounds : Nat) (c : Cursor) : Option Cursor :=
  (scanUp c.arr piv c.R rounds c.L).bind fun L =>
    if L < c.R then
      (read c.arr L).bind fun x => (write c.arr c.R x).map fun arr => ⟨arr, L, c.R - 1⟩
    else some { c with L := L }

/-- The loop `while (L < R)`. -/
def partition (piv : Int) : Nat → Cursor → Option Cursor
  | 0, _ => none
  | rounds + 1, c =>
    if c.L < c.R then
      (takeRight piv (rounds + 1) c).bind fun c =>
        (takeLeft piv (rounds + 1) c).bind (partition piv rounds)
    else some c

/-- The variables of `quicksort`. -/
structure Locals where
  arr : List Int
  beg : List Int
  ends : List Int
  i : Int
  totalShifting : Int

/-- The range on top is partitioned, and its right part becomes the new top. -/
def split (rounds : Nat) (L R piv : Int) (s : Locals) : Option Locals :=
  (partition piv rounds ⟨s.arr, L, R⟩).bind fun c =>
    (write c.arr c.L piv).bind fun arr =>
      (write s.beg (s.i + 1) (c.L + 1)).bind fun beg =>
        (read s.ends s.i).bind fun e =>
          (write s.ends (s.i + 1) e).bind fun ends =>
            (write ends s.i c.L).map fun ends =>
              { s with arr := arr, beg := beg, ends := ends, i := s.i + 1 }

/-- How the loop is left: by `return -1`, or at its end. -/
inductive Exit
  | overflow (s : Locals)
  | done (s : Locals)

/-- The loop `while (i >= 0)`. -/
def loop : Nat → Locals → Option Exit
  | 0, _ => none
  | rounds + 1, s =>
    if s.i ≥ 0 then
      (read s.beg s.i).bind fun L =>
        (read s.ends s.i).bind fun e =>
          if L < e - 1 then
            (read s.arr L).bind fun piv =>
              if s.i = max - 1 then some (.overflow { s with totalShifting := s.totalShifting + 1 })
              else
                (split (rounds + 1) L (e - 1) piv
                  { s with totalShifting := s.totalShifting + 1 }).bind (loop rounds)
          else loop rounds { s with totalShifting := s.totalShifting + 1, i := s.i - 1 }
    else some (.done s)

structure Result where
  value : Int
  arr : List Int
  printed : List Printed

def quicksort (rounds : Nat) (arr : List Int) (n : Int) (beg ends : List Int) : Option Result :=
  (write beg 0 0).bind fun beg =>
    (write ends 0 n).bind fun ends =>
      (loop rounds ⟨arr, beg, ends, 0, 0⟩).map fun
        | .overflow s => ⟨-1, s.arr, []⟩
        | .done s => ⟨0, s.arr,
            [.string "Total shifting: ", .int s.totalShifting, .string "\n"]⟩

/-! ### The partition -/

section Scan

variable {arr : List Int} {piv L R : Int} {rounds : Nat}

theorem scanDown_spec (hL : 0 ≤ L) (hLR : L ≤ R) (hR : R < arr.length) (hrounds : R - L < rounds) :
    ∃ R', scanDown arr piv L rounds R = some R' ∧ L ≤ R' ∧ R' ≤ R ∧
      (∀ k, R' < k → k ≤ R → piv ≤ val arr k) ∧ (L < R' → val arr R' ≤ piv) := by
  induction rounds generalizing R with
  | zero => omega
  | succ rounds ih =>
    rw [scanDown, read_eq (by omega) hR, Option.bind_some]
    split
    · rename_i hgo
      obtain ⟨R', hscan, hle, hge, hhigh, hstop⟩ :=
        ih (R := R - 1) (by omega) (by omega) (by omega)
      refine ⟨R', hscan, hle, by omega, fun k hk hkR => ?_, hstop⟩
      by_cases hlast : k = R
      · exact hlast ▸ hgo.1
      · exact hhigh k hk (by omega)
    · rename_i hstop
      refine ⟨R, rfl, hLR, Int.le_refl R, fun k hk hkR => by omega, fun hlt => ?_⟩
      rw [not_and_or] at hstop
      omega

theorem scanUp_spec (hL : 0 ≤ L) (hLR : L ≤ R) (hR : R < arr.length) (hrounds : R - L < rounds) :
    ∃ L', scanUp arr piv R rounds L = some L' ∧ L ≤ L' ∧ L' ≤ R ∧
      (∀ k, L ≤ k → k < L' → val arr k ≤ piv) ∧ (L' < R → piv ≤ val arr L') := by
  induction rounds generalizing L with
  | zero => omega
  | succ rounds ih =>
    rw [scanUp, read_eq hL (by omega), Option.bind_some]
    split
    · rename_i hgo
      obtain ⟨L', hscan, hle, hge, hlow, hstop⟩ := ih (L := L + 1) (by omega) (by omega) (by omega)
      refine ⟨L', hscan, by omega, hge, fun k hk hkL => ?_, hstop⟩
      by_cases hfirst : k = L
      · exact hfirst ▸ hgo.1
      · exact hlow k (by omega) hkL
    · rename_i hstop
      refine ⟨L, rfl, Int.le_refl L, hLR, fun k hk hkL => by omega, fun hlt => ?_⟩
      rw [not_and_or] at hstop
      omega

end Scan

/-- The elements of the range from `b` to `e` were moved among themselves, with the pivot missing:
its place is the hole. -/
structure Holed (old : List Int) (b e piv hole : Int) (arr : List Int) : Prop where
  length : arr.length = old.length
  frame : ∀ k, 0 ≤ k → k < b ∨ e ≤ k → val arr k = val old k
  within : ∀ k, b ≤ k → k < e → ∃ k', b ≤ k' ∧ k' < e ∧ val arr k = val old k'
  perm : (put arr hole piv).Perm old

/-- The elements to the left of the cursor and to the right of it are on the right side. -/
structure Sides (b e piv : Int) (c : Cursor) : Prop where
  left : b ≤ c.L
  cross : c.L ≤ c.R
  right : c.R < e
  low : ∀ k, b ≤ k → k < c.L → val c.arr k ≤ piv
  high : ∀ k, c.R < k → k < e → piv ≤ val c.arr k

section Partition

variable {old arr : List Int} {b e piv hole r : Int} {c : Cursor} {rounds : Nat}

/-- Moving an element of the range into the hole. -/
theorem Holed.move (h : Holed old b e piv hole arr) (hb : 0 ≤ b) (he : e ≤ old.length)
    (hhole : b ≤ hole ∧ hole < e) (hr : b ≤ r ∧ r < e) (hne : r ≠ hole) :
    Holed old b e piv r (put arr hole (val arr r)) := by
  have hlength := h.length
  refine ⟨(length_put ..).trans h.length, ?_, ?_, ?_⟩
  · intro k hk hout
    rw [val_put_of_ne hk (by omega) (by omega)]
    exact h.frame k hk hout
  · intro k hbk hke
    by_cases hk : k = hole
    · rw [hk, val_put_self (by omega) (by omega)]
      exact h.within r hr.1 hr.2
    · rw [val_put_of_ne (by omega) (by omega) hk]
      exact h.within k hbk hke
  · exact (perm_move (by omega) (by omega) (by omega) (by omega) hne piv).trans h.perm

theorem takeRight_spec (h : Holed old b e piv c.L c.arr) (hs : Sides b e piv c) (hb : 0 ≤ b)
    (he : e ≤ old.length) (hlt : c.L < c.R) (hrounds : c.R - c.L < rounds) :
    ∃ c', takeRight piv rounds c = some c' ∧ Holed old b e piv c'.R c'.arr ∧ Sides b e piv c' ∧
      c'.R - c'.L < c.R - c.L := by
  have hlength := h.length
  have hleft := hs.left
  have hright := hs.right
  have hbound : c.R < c.arr.length := by omega
  obtain ⟨R, hscan, hLR, hRle, hhigh, hstop⟩ :=
    scanDown_spec (by omega) (Int.le_of_lt hlt) hbound hrounds
  have hhigh' : ∀ k, R < k → k < e → piv ≤ val c.arr k := by
    intro k hk hke
    by_cases hin : k ≤ c.R
    · exact hhigh k hk hin
    · exact hs.high k (by omega) hke
  unfold takeRight
  rw [hscan, Option.bind_some]
  split
  · rename_i hmove
    rw [read_eq (by omega) (by omega), Option.bind_some, write_eq (by omega) (by omega)]
    have hmoved : Holed old b e piv R (put c.arr c.L (val c.arr R)) :=
      h.move hb he ⟨hleft, by omega⟩ ⟨by omega, by omega⟩ (by omega)
    refine ⟨⟨put c.arr c.L (val c.arr R), c.L + 1, R⟩, rfl, hmoved, ?_, ?_⟩
    · refine ⟨by dsimp only; omega, hmove, by dsimp only; omega, fun k hk hkL => ?_,
        fun k hk hke => ?_⟩
      · dsimp only at hkL ⊢
        by_cases hlast : k = c.L
        · rw [hlast, val_put_self (by omega) (by omega)]
          exact hstop hmove
        · rw [val_put_of_ne (by omega) (by omega) hlast]
          exact hs.low k hk (by omega)
      · dsimp only at hk ⊢
        rw [val_put_of_ne (by omega) (by omega) (by omega)]
        exact hhigh' k hk hke
    · dsimp only
      omega
  · rename_i hmeet
    have hR : R = c.L := by omega
    subst hR
    exact ⟨⟨c.arr, c.L, c.L⟩, rfl, h, ⟨hleft, Int.le_refl _, by dsimp only; omega, hs.low, hhigh'⟩,
      by dsimp only; omega⟩

theorem takeLeft_spec (h : Holed old b e piv c.R c.arr) (hs : Sides b e piv c) (hb : 0 ≤ b)
    (he : e ≤ old.length) (hrounds : c.R - c.L < rounds) :
    ∃ c', takeLeft piv rounds c = some c' ∧ Holed old b e piv c'.L c'.arr ∧ Sides b e piv c' ∧
      c'.R - c'.L ≤ c.R - c.L := by
  have hlength := h.length
  have hleft := hs.left
  have hright := hs.right
  have hbound : c.R < c.arr.length := by omega
  obtain ⟨L, hscan, hleL, hLR, hlow, hstop⟩ := scanUp_spec (by omega) hs.cross hbound hrounds
  have hlow' : ∀ k, b ≤ k → k < L → val c.arr k ≤ piv := by
    intro k hk hkL
    by_cases hin : c.L ≤ k
    · exact hlow k hin hkL
    · exact hs.low k hk (by omega)
  unfold takeLeft
  rw [hscan, Option.bind_some]
  split
  · rename_i hmove
    rw [read_eq (by omega) (by omega), Option.bind_some, write_eq (by omega) (by omega)]
    have hmoved : Holed old b e piv L (put c.arr c.R (val c.arr L)) :=
      h.move hb he ⟨by omega, hright⟩ ⟨by omega, by omega⟩ (by omega)
    refine ⟨⟨put c.arr c.R (val c.arr L), L, c.R - 1⟩, rfl, hmoved, ?_, ?_⟩
    · refine ⟨by dsimp only; omega, by dsimp only; omega, by dsimp only; omega,
        fun k hk hkL => ?_, fun k hk hke => ?_⟩
      · dsimp only at hkL ⊢
        rw [val_put_of_ne (by omega) (by omega) (by omega)]
        exact hlow' k hk hkL
      · dsimp only at hk ⊢
        by_cases hfirst : k = c.R
        · rw [hfirst, val_put_self (by omega) (by omega)]
          exact hstop hmove
        · rw [val_put_of_ne (by omega) (by omega) hfirst]
          exact hs.high k (by omega) hke
    · dsimp only
      omega
  · rename_i hmeet
    have hL : L = c.R := by omega
    subst hL
    exact ⟨⟨c.arr, c.R, c.R⟩, rfl, h, ⟨by dsimp only; omega, Int.le_refl _, hright, hlow', hs.high⟩,
      by dsimp only; omega⟩

theorem partition_spec (h : Holed old b e piv c.L c.arr) (hs : Sides b e piv c) (hb : 0 ≤ b)
    (he : e ≤ old.length) (hrounds : c.R - c.L < rounds) :
    ∃ c', partition piv rounds c = some c' ∧ Holed old b e piv c'.L c'.arr ∧ Sides b e piv c' ∧
      c'.L = c'.R := by
  induction rounds generalizing c with
  | zero =>
    have hcross := hs.cross
    omega
  | succ rounds ih =>
    rw [partition]
    split
    · rename_i hlt
      obtain ⟨c₁, hright, h₁, hs₁, hlt₁⟩ := takeRight_spec h hs hb he hlt hrounds
      have hrounds₁ : c₁.R - c₁.L < ((rounds + 1 : Nat) : Int) := by omega
      obtain ⟨c₂, hleft, h₂, hs₂, hle₂⟩ := takeLeft_spec h₁ hs₁ hb he hrounds₁
      rw [hright, Option.bind_some, hleft, Option.bind_some]
      exact ih h₂ hs₂ (by omega)
    · rename_i hge
      have hcross := hs.cross
      exact ⟨c, rfl, h, hs, by omega⟩

end Partition

/-- The range from `b` to `e` was divided at `m`. -/
structure Splits (old : List Int) (b m e : Int) (arr : List Int) : Prop where
  length : arr.length = old.length
  inside : b ≤ m ∧ m < e
  frame : ∀ k, 0 ≤ k → k < b ∨ e ≤ k → val arr k = val old k
  within : ∀ k, b ≤ k → k < e → ∃ k', b ≤ k' ∧ k' < e ∧ val arr k = val old k'
  perm : arr.Perm old
  ordered : ∀ p q, b ≤ p → p < q → q < e → q < m ∨ m < p ∨ val arr p ≤ val arr q

section Splits

variable {old : List Int} {b e : Int} {c : Cursor} {rounds : Nat}

/-- The pivot, the first element of the range, fills the hole. -/
theorem Holed.splits (h : Holed old b e (val old b) c.L c.arr) (hs : Sides b e (val old b) c)
    (hb : 0 ≤ b) (he : e ≤ old.length) (hmeet : c.L = c.R) :
    Splits old b c.L e (put c.arr c.L (val old b)) := by
  have hlength := h.length
  have hleft := hs.left
  have hright := hs.right
  have hself : val (put c.arr c.L (val old b)) c.L = val old b :=
    val_put_self (by omega) (by omega) _
  have hother (k : Int) (hk : 0 ≤ k) (hne : k ≠ c.L) :
      val (put c.arr c.L (val old b)) k = val c.arr k := val_put_of_ne hk (by omega) hne _
  refine ⟨(length_put ..).trans h.length, ⟨hleft, by omega⟩, ?_, ?_, h.perm, ?_⟩
  · intro k hk hout
    rw [hother k hk (by omega)]
    exact h.frame k hk hout
  · intro k hbk hke
    by_cases hk : k = c.L
    · rw [hk, hself]
      exact ⟨b, Int.le_refl b, by omega, rfl⟩
    · rw [hother k (by omega) hk]
      exact h.within k hbk hke
  · intro p q hp hpq hq
    by_cases hqm : q < c.L
    · exact Or.inl hqm
    by_cases hpm : c.L < p
    · exact Or.inr (Or.inl hpm)
    -- The pivot lies between the two.
    refine Or.inr (Or.inr ?_)
    have hlow : val (put c.arr c.L (val old b)) p ≤ val old b := by
      by_cases hk : p = c.L
      · exact Int.le_of_eq (by rw [hk, hself])
      · rw [hother p (by omega) hk]
        exact hs.low p hp (by omega)
    have hhigh : val old b ≤ val (put c.arr c.L (val old b)) q := by
      by_cases hk : q = c.L
      · exact Int.le_of_eq (by rw [hk, hself])
      · rw [hother q (by omega) hk]
        exact hs.high q (by omega) hq
    exact Int.le_trans hlow hhigh

theorem partition_splits (hb : 0 ≤ b) (hlt : b < e - 1) (he : e ≤ old.length)
    (hrounds : e - 1 - b < rounds) :
    ∃ c', partition (val old b) rounds ⟨old, b, e - 1⟩ = some c' ∧
      Splits old b c'.L e (put c'.arr c'.L (val old b)) ∧ c'.arr.length = old.length := by
  have hholed : Holed old b e (val old b) b old := by
    refine ⟨rfl, fun _ _ _ => rfl, fun k hbk hke => ⟨k, hbk, hke, rfl⟩, ?_⟩
    rw [put_val hb (by omega)]
  have hsides : Sides b e (val old b) ⟨old, b, e - 1⟩ := by
    refine ⟨Int.le_refl b, Int.le_of_lt hlt, by dsimp only; omega, fun k hk hkL => ?_,
      fun k hk hke => ?_⟩
    · dsimp only at hkL
      omega
    · dsimp only at hk
      omega
  obtain ⟨c', hpartition, h, hs, hmeet⟩ := partition_spec hholed hsides hb he hrounds
  exact ⟨c', hpartition, h.splits hs hb he hmeet, h.length⟩

end Splits

/-! ### The stack of ranges -/

structure Inv (old : List Int) (s : Locals) : Prop where
  size : old.length ≤ 99
  length : s.arr.length = old.length
  lengthBeg : s.beg.length = 99
  lengthEnds : s.ends.length = 99
  fits : s.i < 99
  bottom : 0 ≤ s.i → val s.beg 0 = 0
  next : ∀ j, 0 ≤ j → j < s.i → val s.beg (j + 1) = val s.ends j + 1
  sizes : ∀ j, 0 ≤ j → j ≤ s.i → val s.beg j ≤ val s.ends j
  top : 0 ≤ s.i → val s.ends s.i ≤ old.length
  ordered : ∀ p q : Int, 0 ≤ p → p < q → q < old.length →
    (∃ j, 0 ≤ j ∧ j ≤ s.i ∧ val s.beg j ≤ p ∧ q < val s.ends j) ∨ val s.arr p ≤ val s.arr q
  perm : s.arr.Perm old

namespace Inv

variable {old : List Int} {s : Locals}

/-- One element lies between a range and the next. -/
theorem beg_add (h : Inv old s) {j : Int} (hj : 0 ≤ j) (d : Nat) (hd : j + d ≤ s.i) :
    val s.beg j + d ≤ val s.beg (j + d) := by
  induction d with
  | zero => simp
  | succ d ih =>
    have hnext := h.next (j + d) (by omega) (by omega)
    have hsize := h.sizes (j + d) (by omega) (by omega)
    have hprev := ih (by omega)
    have hassoc : j + ((d + 1 : Nat) : Int) = j + d + 1 := by omega
    rw [hassoc, hnext]
    omega

/-- There are `i` sorted elements before the range at depth `i`. -/
theorem depth (h : Inv old s) (hi : 0 ≤ s.i) : s.i ≤ val s.beg s.i := by
  have hbottom := h.bottom hi
  have hadd := h.beg_add (Int.le_refl 0) s.i.toNat (by omega)
  have hcast : 0 + (s.i.toNat : Int) = s.i := by omega
  rw [hcast] at hadd
  omega

theorem ends_lt_beg (h : Inv old s) {j : Int} (hj : 0 ≤ j) (hlt : j < s.i) :
    val s.ends j < val s.beg s.i := by
  have hnext := h.next j hj hlt
  have hadd := h.beg_add (j := j + 1) (by omega) (s.i - (j + 1)).toNat (by omega)
  have hcast : j + 1 + ((s.i - (j + 1)).toNat : Int) = s.i := by omega
  rw [hcast] at hadd
  omega

/-- An element of the top range and one outside it are in order. -/
theorem ordered_of_not_top (h : Inv old s) {p q : Int} (hp : 0 ≤ p) (hpq : p < q)
    (hq : q < old.length)
    (hone : val s.beg s.i ≤ p ∧ val s.ends s.i ≤ q ∨ p < val s.beg s.i ∧ val s.beg s.i ≤ q) :
    val s.arr p ≤ val s.arr q := by
  rcases h.ordered p q hp hpq hq with ⟨j, hj, hji, hbeg, hends⟩ | hle
  · by_cases htop : j = s.i
    · subst htop
      omega
    · have hbelow := h.ends_lt_beg hj (by omega)
      omega
  · exact hle

/-- After the top range was divided, two elements that are not in one part of it are in order. -/
theorem ordered_splits (h : Inv old s) {m : Int} {arr : List Int}
    (hsplits : Splits s.arr (val s.beg s.i) m (val s.ends s.i) arr) (hi : 0 ≤ s.i) {p q : Int}
    (hp : 0 ≤ p) (hpq : p < q) (hq : q < old.length) :
    (val s.beg s.i ≤ p ∧ q < m) ∨ (m + 1 ≤ p ∧ q < val s.ends s.i) ∨
      (∃ j, 0 ≤ j ∧ j < s.i ∧ val s.beg j ≤ p ∧ q < val s.ends j) ∨ val arr p ≤ val arr q := by
  have hdepth := h.depth hi
  have htop := h.top hi
  by_cases hpin : val s.beg s.i ≤ p ∧ p < val s.ends s.i
  · by_cases hqin : q < val s.ends s.i
    · rcases hsplits.ordered p q hpin.1 hpq hqin with hlow | hhigh | hle
      · exact Or.inl ⟨hpin.1, hlow⟩
      · exact Or.inr (Or.inl ⟨hhigh, hqin⟩)
      · exact Or.inr (Or.inr (Or.inr hle))
    · obtain ⟨p', hbeg, hends, hval⟩ := hsplits.within p hpin.1 hpin.2
      rw [hval, hsplits.frame q (by omega) (by omega)]
      refine Or.inr (Or.inr (Or.inr ?_))
      exact h.ordered_of_not_top (by omega) (by omega) hq (by omega)
  · rw [hsplits.frame p hp (by omega)]
    by_cases hqin : val s.beg s.i ≤ q ∧ q < val s.ends s.i
    · obtain ⟨q', hbeg, hends, hval⟩ := hsplits.within q hqin.1 hqin.2
      rw [hval]
      refine Or.inr (Or.inr (Or.inr ?_))
      exact h.ordered_of_not_top hp (by omega) (by omega) (by omega)
    · rw [hsplits.frame q (by omega) (by omega)]
      rcases h.ordered p q hp hpq hq with ⟨j, hj, hji, hbeg, hends⟩ | hle
      · have hne : j ≠ s.i := by
          rintro rfl
          omega
        exact Or.inr (Or.inr (Or.inl ⟨j, hj, by omega, hbeg, hends⟩))
      · exact Or.inr (Or.inr (Or.inr hle))

/-- The two parts of the top range and the pivot between them. -/
theorem split (h : Inv old s) (hi : 0 ≤ s.i) {m : Int} {arr beg ends : List Int}
    (hlarge : val s.beg s.i < val s.ends s.i - 1)
    (hsplits : Splits s.arr (val s.beg s.i) m (val s.ends s.i) arr)
    (hlengthBeg : beg.length = 99) (hlengthEnds : ends.length = 99)
    (hbeg : ∀ j, 0 ≤ j → val beg j = if j = s.i + 1 then m + 1 else val s.beg j)
    (hends : ∀ j, 0 ≤ j → val ends j =
      if j = s.i then m else if j = s.i + 1 then val s.ends s.i else val s.ends j) :
    Inv old { s with arr := arr, beg := beg, ends := ends, i := s.i + 1 } := by
  have hinside := hsplits.inside
  have htop := h.top hi
  have hdepth := h.depth hi
  have hsize := h.size
  refine ⟨h.size, hsplits.length.trans h.length, hlengthBeg, hlengthEnds,
    by dsimp only; omega, fun _ => ?_, fun j hj hlt => ?_, fun j hj hle => ?_, fun _ => ?_, fun p q hp hpq hq => ?_,
    hsplits.perm.trans h.perm⟩
  · rw [hbeg 0 (Int.le_refl 0), if_neg (by omega)]
    exact h.bottom hi
  · dsimp only at hlt ⊢
    rw [hbeg (j + 1) (by omega), hends j hj]
    by_cases hlast : j = s.i
    · rw [if_pos (by omega), if_pos hlast]
    · rw [if_neg (by omega), if_neg hlast, if_neg (by omega)]
      exact h.next j hj (by omega)
  · dsimp only at hle ⊢
    rw [hbeg j hj, hends j hj]
    by_cases hnew : j = s.i + 1
    · rw [if_pos hnew, if_neg (by omega), if_pos hnew]
      omega
    · rw [if_neg hnew, if_neg hnew]
      by_cases hlast : j = s.i
      · rw [if_pos hlast, hlast]
        exact hinside.1
      · rw [if_neg hlast]
        exact h.sizes j hj (by omega)
  · dsimp only
    rw [hends (s.i + 1) (by omega), if_neg (by omega), if_pos rfl]
    exact htop
  · rcases h.ordered_splits hsplits hi hp hpq hq with ⟨hlow, hlt⟩ | ⟨hhigh, hlt⟩ |
      ⟨j, hj, hji, hlow, hlt⟩ | hle
    · refine Or.inl ⟨s.i, hi, by dsimp only; omega, ?_, ?_⟩
      · rw [hbeg s.i hi, if_neg (by omega)]
        exact hlow
      · rw [hends s.i hi, if_pos rfl]
        exact hlt
    · refine Or.inl ⟨s.i + 1, by omega, Int.le_refl _, ?_, ?_⟩
      · rw [hbeg (s.i + 1) (by omega), if_pos rfl]
        exact hhigh
      · rw [hends (s.i + 1) (by omega), if_neg (by omega), if_pos rfl]
        exact hlt
    · refine Or.inl ⟨j, hj, by dsimp only; omega, ?_, ?_⟩
      · rw [hbeg j hj, if_neg (by omega)]
        exact hlow
      · rw [hends j hj, if_neg (by omega), if_neg (by omega)]
        exact hlt
    · exact Or.inr hle

/-- A range of at most one element is taken off. -/
theorem pop (h : Inv old s) (hi : 0 ≤ s.i) (hsmall : ¬ val s.beg s.i < val s.ends s.i - 1) :
    Inv old { s with i := s.i - 1 } := by
  have hfits := h.fits
  refine ⟨h.size, h.length, h.lengthBeg, h.lengthEnds, by dsimp only; omega, fun _ => h.bottom hi,
    fun j hj hlt => ?_, fun j hj hle => ?_, fun hi' => ?_, fun p q hp hpq hq => ?_, h.perm⟩
  · dsimp only at hlt
    exact h.next j hj (by omega)
  · dsimp only at hle
    exact h.sizes j hj (by omega)
  · dsimp only at hi' ⊢
    have hbelow := h.ends_lt_beg (j := s.i - 1) hi' (by omega)
    have hsize := h.sizes s.i hi (Int.le_refl _)
    have htop := h.top hi
    omega
  · rcases h.ordered p q hp hpq hq with ⟨j, hj, hji, hbeg, hends⟩ | hle
    · have hne : j ≠ s.i := by
        rintro rfl
        omega
      exact Or.inl ⟨j, hj, by dsimp only; omega, hbeg, hends⟩
    · exact Or.inr hle

theorem shift (h : Inv old s) (totalShifting : Int) :
    Inv old { s with totalShifting := totalShifting } :=
  ⟨h.size, h.length, h.lengthBeg, h.lengthEnds, h.fits, h.bottom, h.next, h.sizes, h.top, h.ordered,
    h.perm⟩

/-- With no range left the array is sorted. -/
theorem sorted (h : Inv old s) (hi : s.i < 0) : s.arr.Pairwise (· ≤ ·) := by
  have hlength := h.length
  refine List.pairwise_iff_getElem.mpr fun p q hp hq hpq => ?_
  rcases h.ordered p q (by omega) (by omega) (by omega) with ⟨j, hj, hji, -⟩ | hle
  · omega
  · rw [val_natCast hp, val_natCast hq] at hle
    exact hle

end Inv

/-- The number of rounds that are left: each partition places one element, and each range is taken
off once. -/
def roundsLeft (s : Locals) : Int := if 0 ≤ s.i then 2 * val s.ends s.i - s.i + 1 else 0

section Loop

variable {old : List Int} {s : Locals} {rounds : Nat}

theorem split_spec (h : Inv old s) (hi : 0 ≤ s.i)
    (hlarge : val s.beg s.i < val s.ends s.i - 1) (hrounds : old.length < rounds) :
    ∃ s', split rounds (val s.beg s.i) (val s.ends s.i - 1) (val s.arr (val s.beg s.i)) s = some s' ∧
      Inv old s' ∧ roundsLeft s' < roundsLeft s := by
  have hdepth := h.depth hi
  have htop := h.top hi
  have hlength := h.length
  have hsize := h.size
  have hlengthBeg := h.lengthBeg
  have hlengthEnds := h.lengthEnds
  have hbound : val s.ends s.i ≤ s.arr.length := by omega
  have hpartitions : val s.ends s.i - 1 - val s.beg s.i < rounds := by omega
  obtain ⟨c, hpartition, hsplits, hc⟩ := partition_splits (by omega) hlarge hbound hpartitions
  have hinside := hsplits.inside
  have hends (j : Int) (hj : 0 ≤ j) :
      val (put (put s.ends (s.i + 1) (val s.ends s.i)) s.i c.L) j =
        if j = s.i then c.L else if j = s.i + 1 then val s.ends s.i else val s.ends j := by
    by_cases hlast : j = s.i
    · rw [if_pos hlast, hlast, val_put_self hi (by rw [length_put]; omega)]
    · rw [if_neg hlast, val_put_of_ne hj hi hlast]
      by_cases hnew : j = s.i + 1
      · rw [if_pos hnew, hnew, val_put_self (by omega) (by omega)]
      · rw [if_neg hnew, val_put_of_ne hj (by omega) hnew]
  have hbeg (j : Int) (hj : 0 ≤ j) :
      val (put s.beg (s.i + 1) (c.L + 1)) j = if j = s.i + 1 then c.L + 1 else val s.beg j := by
    by_cases hnew : j = s.i + 1
    · rw [if_pos hnew, hnew, val_put_self (by omega) (by omega)]
    · rw [if_neg hnew, val_put_of_ne hj (by omega) hnew]
  refine ⟨_, ?_, h.split hi hlarge hsplits (by rw [length_put, hlengthBeg])
    (by rw [length_put, length_put, hlengthEnds]) hbeg hends, ?_⟩
  · unfold split
    rw [hpartition, Option.bind_some, write_eq (by omega) (by omega), Option.bind_some,
      write_eq (by omega) (by omega), Option.bind_some, read_eq hi (by omega), Option.bind_some,
      write_eq (by omega) (by omega), Option.bind_some,
      write_eq hi (by rw [length_put]; omega)]
    rfl
  · have hnew := hends (s.i + 1) (by omega)
    rw [if_neg (by omega), if_pos rfl] at hnew
    unfold roundsLeft
    dsimp only
    rw [if_pos (by omega), if_pos hi, hnew]
    omega

theorem roundsLeft_pop (h : Inv old s) (hi : 0 ≤ s.i) :
    roundsLeft { s with i := s.i - 1 } < roundsLeft s := by
  have hsize := h.sizes s.i hi (Int.le_refl _)
  have hdepth := h.depth hi
  unfold roundsLeft
  dsimp only
  rw [if_pos hi]
  split
  · rename_i hi'
    have hbelow := h.ends_lt_beg (j := s.i - 1) hi' (by omega)
    omega
  · omega

theorem roundsLeft_nonneg (h : Inv old s) : 0 ≤ roundsLeft s := by
  unfold roundsLeft
  split
  · rename_i hi
    have hsize := h.sizes s.i hi (Int.le_refl _)
    have hdepth := h.depth hi
    omega
  · omega

/-- The loop ends with no range left, and never by `return -1`: a range of two elements is at a depth
of at most `n - 2`. -/
theorem loop_spec (h : Inv old s) (hrounds : roundsLeft s + old.length < rounds) :
    ∃ s', loop rounds s = some (.done s') ∧ Inv old s' ∧ s'.i < 0 := by
  induction rounds generalizing s with
  | zero =>
    have hnonneg := roundsLeft_nonneg h
    omega
  | succ rounds ih =>
    have hlength := h.length
    have hsize := h.size
    have hlengthBeg := h.lengthBeg
    have hlengthEnds := h.lengthEnds
    have hnonneg := roundsLeft_nonneg h
    rw [loop]
    split
    · rename_i hi
      have hdepth := h.depth hi
      have hfits := h.fits
      have htop := h.top hi
      have hsizes := h.sizes s.i hi (Int.le_refl _)
      rw [read_eq hi (by omega), Option.bind_some, read_eq hi (by omega), Option.bind_some]
      split
      · rename_i hlarge
        have hnot : ¬ s.i = max - 1 := by
          unfold max
          omega
        rw [read_eq (by omega) (by omega), Option.bind_some, if_neg hnot]
        have hpartitions : old.length < rounds + 1 := by omega
        obtain ⟨s', hsplit, hs', hless⟩ :=
          split_spec (h.shift (s.totalShifting + 1)) hi hlarge hpartitions
        have hsame : roundsLeft { s with totalShifting := s.totalShifting + 1 } = roundsLeft s := rfl
        rw [hsplit, Option.bind_some]
        exact ih hs' (by omega)
      · rename_i hsmall
        have hless := roundsLeft_pop (h.shift (s.totalShifting + 1)) hi
        have hsame : roundsLeft { s with totalShifting := s.totalShifting + 1 } = roundsLeft s := rfl
        exact ih ((h.shift (s.totalShifting + 1)).pop hi hsmall) (by dsimp only at hless ⊢; omega)
    · rename_i hi
      exact ⟨s, rfl, h, by omega⟩

end Loop

/-! ### The function -/

/-- One range, the whole array. -/
theorem inv_start {arr beg ends : List Int} (hsize : arr.length ≤ 99) (hbeg : beg.length = 99)
    (hends : ends.length = 99) :
    Inv arr ⟨arr, put beg 0 0, put ends 0 arr.length, 0, 0⟩ := by
  have hbeg0 : val (put beg 0 0) 0 = 0 := val_put_self (Int.le_refl 0) (by omega) 0
  have hends0 : val (put ends 0 (arr.length : Int)) 0 = arr.length :=
    val_put_self (Int.le_refl 0) (by omega) _
  refine ⟨hsize, rfl, (length_put ..).trans hbeg, (length_put ..).trans hends,
    by dsimp only; omega,
    fun _ => hbeg0, fun j hj hlt => ?_, fun j hj hle => ?_, fun _ => ?_, fun p q hp _ hq => ?_, List.Perm.refl _⟩
  · dsimp only at hlt
    omega
  · dsimp only at hle ⊢
    have hj0 : j = 0 := by omega
    rw [hj0, hbeg0, hends0]
    omega
  · exact Int.le_of_eq hends0
  · refine Or.inl ⟨0, Int.le_refl 0, Int.le_refl 0, ?_, ?_⟩
    · dsimp only
      rw [hbeg0]
      exact hp
    · dsimp only
      rw [hends0]
      exact hq

/-- For every array of 1 to `MAX` elements, and whatever is in the uninitialised stack, the function
returns 0 without leaving its arrays, and the array is sorted. -/
theorem quicksort_sorts {arr beg ends : List Int} {n : Int} (hn : 1 ≤ n ∧ n ≤ max)
    (harr : arr.length = n) (hbeg : beg.length = max) (hends : ends.length = max) {rounds : Nat}
    (hrounds : 3 * n + 1 < rounds) :
    ∃ result, quicksort rounds arr n beg ends = some result ∧ result.value = 0 ∧
      result.arr.Perm arr ∧ result.arr.Pairwise (· ≤ ·) := by
  unfold max at hn hbeg hends
  have hinv : Inv arr ⟨arr, put beg 0 0, put ends 0 arr.length, 0, 0⟩ :=
    inv_start (by omega) (by omega) (by omega)
  have hends0 : val (put ends 0 (arr.length : Int)) 0 = arr.length :=
    val_put_self (Int.le_refl 0) (by omega) _
  have hleft : roundsLeft ⟨arr, put beg 0 0, put ends 0 arr.length, 0, 0⟩ = 2 * arr.length + 1 := by
    unfold roundsLeft
    dsimp only
    rw [if_pos (Int.le_refl 0), hends0]
    omega
  have hloops : roundsLeft ⟨arr, put beg 0 0, put ends 0 arr.length, 0, 0⟩ + arr.length < rounds := by
    omega
  obtain ⟨s', hloop, hs', hi⟩ := loop_spec hinv hloops
  unfold quicksort
  rw [write_eq (Int.le_refl 0) (by omega), Option.bind_some, write_eq (Int.le_refl 0) (by omega),
    Option.bind_some, ← harr, hloop]
  exact ⟨_, rfl, rfl, hs'.perm, hs'.sorted hi⟩

/-- Three elements, two of them the same. -/
theorem quicksort_sorts_three :
    (1 ≤ (3 : Int) ∧ (3 : Int) ≤ max) ∧
    ∃ result, quicksort 11 [3, 1, 3] 3 (List.replicate 99 7) (List.replicate 99 7) = some result ∧
      result.value = 0 ∧ result.arr.Perm [3, 1, 3] ∧ result.arr.Pairwise (· ≤ ·) :=
  ⟨by decide, quicksort_sorts (by decide) rfl rfl rfl (by decide)⟩

end Nachos.Test.Quicksort
