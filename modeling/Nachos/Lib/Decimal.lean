import Mathlib.Data.Nat.Digits.Lemmas
import Mathlib.Tactic.Ring

/-!
# Decimal digits from the left

The value of a numeral that is read from the left, one digit after the other. For the digits of a
number this is the number (`extend_digits`).
-/

namespace Decimal

/-- The number that the digits `ds` behind the digits of `number` make. -/
def extend (number : Int) (ds : List Int) : Int := ds.foldl (fun n d => n * 10 + d) number

theorem extend_append (number : Int) (ds es : List Int) :
    extend number (ds ++ es) = extend (extend number ds) es := List.foldl_append

theorem extend_concat (number : Int) (ds : List Int) (d : Int) :
    extend number (ds ++ [d]) = extend number ds * 10 + d := extend_append number ds [d]

theorem extend_nonneg {number : Int} {ds : List Int} (h : 0 ≤ number) (hds : ∀ d ∈ ds, 0 ≤ d) :
    0 ≤ extend number ds := by
  induction ds generalizing number with
  | nil => exact h
  | cons d ds ih =>
    have hd : 0 ≤ d := hds d List.mem_cons_self
    have hnext : 0 ≤ number * 10 + d := by omega
    exact ih hnext fun e he => hds e (List.mem_cons_of_mem d he)

/-- Digits that are listed with the lowest one first. -/
theorem extend_reverse (number : Int) (l : List Nat) :
    extend number (l.reverse.map Nat.cast) = number * 10 ^ l.length + (Nat.ofDigits 10 l : Nat) := by
  induction l with
  | nil => simp [extend]
  | cons d l ih =>
    rw [List.reverse_cons, List.map_append, List.map_singleton, extend_concat, ih, Nat.ofDigits_cons,
      List.length_cons]
    push_cast
    ring

theorem extend_digits (m : Nat) : extend 0 ((Nat.digits 10 m).reverse.map Nat.cast) = m := by
  rw [extend_reverse, Nat.ofDigits_digits, zero_mul, zero_add]

end Decimal
