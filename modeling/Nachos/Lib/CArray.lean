import Mathlib.Data.List.Perm.Basic
import Mathlib.Data.List.GetD

/-!
# Arrays with checked accesses

An array of a C program is a list, and an index an integer. An access outside the array has no
result (`read`, `write`), so a program that has one stayed inside its arrays. Proofs about such
accesses use `val` and `put`, which are total (`read_eq`, `write_eq`).

`perm_move`: an array with a hole, into which a value belongs. When the value of another place is
moved into the hole, that place is the new hole, and the array with the hole filled in is the same
up to order.
-/

namespace CArray

variable {α : Type*}

def read (a : List α) (k : Int) : Option α := if 0 ≤ k then a[k.toNat]? else none

def write (a : List α) (k : Int) (x : α) : Option (List α) :=
  if 0 ≤ k ∧ k < a.length then some (a.set k.toNat x) else none

/-- The element at `k`, if `k` is an index of the array. -/
def val [Inhabited α] (a : List α) (k : Int) : α := a.getD k.toNat default

def put (a : List α) (k : Int) (x : α) : List α := a.set k.toNat x

variable {a : List α} {j k l r : Int} {x y : α}

@[simp] theorem length_put (a : List α) (k : Int) (x : α) : (put a k x).length = a.length :=
  List.length_set

theorem write_eq (hk : 0 ≤ k) (hlt : k < a.length) (x : α) : write a k x = some (put a k x) :=
  if_pos ⟨hk, hlt⟩

theorem put_put (a : List α) (k : Int) (x y : α) : put (put a k x) k y = put a k y := List.set_set ..

variable [Inhabited α]

theorem val_eq_getElem (hlt : k.toNat < a.length) : val a k = a[k.toNat] :=
  List.getD_eq_getElem _ _ hlt

theorem val_natCast {m : Nat} (hm : m < a.length) : val a m = a[m] := List.getD_eq_getElem _ _ hm

theorem read_eq (hk : 0 ≤ k) (hlt : k < a.length) : read a k = some (val a k) := by
  have hnat : k.toNat < a.length := by omega
  unfold read
  rw [if_pos hk, val_eq_getElem hnat, List.getElem?_eq_getElem hnat]

theorem val_put_self (hk : 0 ≤ k) (hlt : k < a.length) (x : α) : val (put a k x) k = x := by
  have hnat : k.toNat < (put a k x).length := by
    rw [length_put]
    omega
  rw [val_eq_getElem hnat]
  exact List.getElem_set_self _

theorem val_put_of_ne (hj : 0 ≤ j) (hk : 0 ≤ k) (hne : j ≠ k) (x : α) :
    val (put a k x) j = val a j := by
  have hnat : k.toNat ≠ j.toNat := by omega
  unfold val put
  rw [List.getD_eq_getElem?_getD, List.getElem?_set_ne hnat, ← List.getD_eq_getElem?_getD]

/-- Writing back what is there. -/
theorem put_val (hk : 0 ≤ k) (hlt : k < a.length) : put a k (val a k) = a := by
  have hnat : k.toNat < a.length := by omega
  unfold put
  rw [val_eq_getElem hnat, List.set_getElem_self]

theorem perm_move (hl : 0 ≤ l) (hlt : l < a.length) (hr : 0 ≤ r) (hrt : r < a.length)
    (hne : r ≠ l) (x : α) : (put (put a l (val a r)) r x).Perm (put a l x) := by
  have hln : l.toNat < (put a l x).length := by
    rw [length_put]
    omega
  have hrn : r.toNat < (put a l x).length := by
    rw [length_put]
    omega
  have hleft : (put a l x)[l.toNat] = x := List.getElem_set_self _
  have hright : (put a l x)[r.toNat] = val a r := by
    rw [← val_eq_getElem hrn, val_put_of_ne hr hl hne]
  have hswap := List.set_set_perm hln hrn
  rw [hleft, hright] at hswap
  have hset : (put a l x).set l.toNat (val a r) = put a l (val a r) := put_put a l x (val a r)
  rw [hset] at hswap
  exact hswap

end CArray
