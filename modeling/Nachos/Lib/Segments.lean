import Mathlib.Data.List.Nodup
import Mathlib.Logic.Function.Basic

/-!
# Segments of linked cells

A heap maps addresses to cells, each with a pointer `next` to another cell or to none, and with
data. `Seg heap p ns q` says that from the pointer `p` the cells at the addresses of `ns`, with
the data of `ns`, lead to the pointer `q`. A segment that ends at no cell is determined by its start
(`Seg.functional`), so no address occurs in it twice (`Seg.nodup`).

A segment is left alone by changes of other cells (`Seg.update`); `Seg.link` puts a cell behind one
of the segment.
-/

namespace Segments

variable {A γ δ : Type*} (next : γ → Option A) (data : γ → δ)

def Seg (heap : A → Option γ) : Option A → List (A × δ) → Option A → Prop
  | p, [], q => p = q
  | p, n :: ns, q => p = some n.1 ∧ ∃ c, heap n.1 = some c ∧ data c = n.2 ∧ Seg heap (next c) ns q

variable {next data} {heap : A → Option γ} {p q : Option A} {ns ms : List (A × δ)} {n : A × δ}

theorem seg_append : Seg next data heap p (ns ++ ms) q ↔
    ∃ m, Seg next data heap p ns m ∧ Seg next data heap m ms q := by
  induction ns generalizing p with
  | nil =>
    constructor
    · exact fun h => ⟨p, rfl, h⟩
    · rintro ⟨m, rfl, h⟩
      exact h
  | cons n ns ih =>
    constructor
    · rintro ⟨hp, c, hc, hdata, hrest⟩
      obtain ⟨m, hns, hms⟩ := ih.mp hrest
      exact ⟨m, ⟨hp, c, hc, hdata, hns⟩, hms⟩
    · rintro ⟨m, ⟨hp, c, hc, hdata, hns⟩, hms⟩
      exact ⟨hp, c, hc, hdata, ih.mpr ⟨m, hns, hms⟩⟩

theorem Seg.functional (h : Seg next data heap p ns none) (h' : Seg next data heap p ms none) :
    ns = ms := by
  induction ns generalizing p ms with
  | nil =>
    cases ms with
    | nil => rfl
    | cons m ms =>
      obtain ⟨hp, -⟩ := h'
      cases h.symm.trans hp
  | cons n ns ih =>
    obtain ⟨hp, c, hc, hdata, hrest⟩ := h
    cases ms with
    | nil => cases hp.symm.trans h'
    | cons m ms =>
      obtain ⟨hp', c', hc', hdata', hrest'⟩ := h'
      have haddr : n.1 = m.1 := Option.some.inj (hp.symm.trans hp')
      have hcell : c = c' := Option.some.inj (hc.symm.trans (haddr ▸ hc'))
      subst hcell
      have hnode : n = m := Prod.ext haddr (hdata.symm.trans hdata')
      rw [hnode, ih hrest hrest']

/-- A segment that ends has no cycle. -/
theorem Seg.nodup (h : Seg next data heap p ns none) : (ns.map Prod.fst).Nodup := by
  induction ns generalizing p with
  | nil => exact List.nodup_nil
  | cons n ns ih =>
    have hstart : Seg next data heap (some n.1) (n :: ns) none := h.1 ▸ h
    obtain ⟨-, c, -, -, hrest⟩ := h
    refine List.nodup_cons.mpr ⟨fun hmem => ?_, ih hrest⟩
    obtain ⟨m, hm, haddr⟩ := List.mem_map.mp hmem
    obtain ⟨as, bs, hsplit⟩ := List.append_of_mem hm
    -- The second occurrence of the address starts the same segment again.
    obtain ⟨r, -, hagain⟩ := seg_append.mp (hsplit ▸ hrest)
    have hm' : Seg next data heap (some n.1) (m :: bs) none := by
      rw [← haddr, ← hagain.1]
      exact hagain
    have hlength := congrArg List.length (hstart.functional hm')
    rw [hsplit] at hlength
    simp at hlength
    omega

/-- An address without a cell is not in a segment. -/
theorem Seg.not_mem {a : A} (h : Seg next data heap p ns q) (ha : heap a = none) :
    a ∉ ns.map Prod.fst := by
  induction ns generalizing p with
  | nil => exact List.not_mem_nil
  | cons n ns ih =>
    obtain ⟨-, c, hc, -, hrest⟩ := h
    rw [List.map_cons, List.mem_cons, not_or]
    refine ⟨?_, ih hrest⟩
    rintro rfl
    cases ha.symm.trans hc

section Update

variable [DecidableEq A] {a : A}

theorem Seg.update (h : Seg next data heap p ns q) (ha : a ∉ ns.map Prod.fst) (c : Option γ) :
    Seg next data (Function.update heap a c) p ns q := by
  induction ns generalizing p with
  | nil => exact h
  | cons n ns ih =>
    obtain ⟨hp, c', hc', hdata, hrest⟩ := h
    rw [List.map_cons, List.mem_cons, not_or] at ha
    refine ⟨hp, c', ?_, hdata, ih hrest ha.2⟩
    rw [Function.update_of_ne (Ne.symm ha.1), hc']

/-- The cell `a`, which leads where the cell of `n` led, is put behind that cell. -/
theorem Seg.link {c c' new : γ} (h : Seg next data heap p (ns ++ n :: ms) none)
    (hn : heap n.1 = some c) (ha : heap a = some new) (hne : a ≠ n.1) (hnext : next new = next c)
    (hnext' : next c' = some a) (hdata' : data c' = data c) :
    Seg next data (Function.update heap n.1 (some c')) p (ns ++ n :: (a, data new) :: ms) none := by
  have hnodup := h.nodup
  rw [List.map_append, List.map_cons, List.nodup_append] at hnodup
  obtain ⟨-, hnodup', hdisjoint⟩ := hnodup
  have hbefore : n.1 ∉ ns.map Prod.fst := fun hmem =>
    hdisjoint n.1 hmem n.1 List.mem_cons_self rfl
  have hafter : n.1 ∉ ms.map Prod.fst := (List.nodup_cons.mp hnodup').1
  obtain ⟨m, hns, hp, c₀, hc₀, hdata, hms⟩ := seg_append.mp h
  have hcell : c₀ = c := Option.some.inj (hc₀.symm.trans hn)
  subst hcell
  refine seg_append.mpr ⟨m, hns.update hbefore _, hp, c', ?_, hdata'.trans hdata, hnext', new, ?_,
    rfl, ?_⟩
  · exact Function.update_self ..
  · rw [Function.update_of_ne hne, ha]
  · rw [hnext]
    exact hms.update hafter _

end Update

end Segments
