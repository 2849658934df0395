import Nachos.Bin.Coff2Noff

/-!
# The loop of `coff2noff`

The sections that are not empty are of three kinds: text, initialised data and uninitialised
data. `loop_cases` says that the loop comes to its end if and only if the sections are
`Convertible` and those of the third kind are `Apart`: none of them begins where the range that
was collected from the ones before it ends. What has been loaded then is described by `Loaded`.
-/

namespace Nachos

open CInt

/-- The members of a segment are `int`s. -/
structure Segment.Fits (seg : Segment) : Prop where
  virtualAddr : -2 ^ 31 ≤ seg.virtualAddr ∧ seg.virtualAddr < 2 ^ 31
  inFileAddr : -2 ^ 31 ≤ seg.inFileAddr ∧ seg.inFileAddr < 2 ^ 31
  size : -2 ^ 31 ≤ seg.size ∧ seg.size < 2 ^ 31

namespace Coff

/-! ### Sections -/

namespace Scnhdr

variable (s : Scnhdr)

/-- A section of code. -/
def IsText : Prop := s.sSize ≠ 0 ∧ s.sName = chars ".text"

/-- A section of initialised data. -/
def IsData : Prop := s.sSize ≠ 0 ∧ (s.sName = chars ".data" ∨ s.sName = chars ".rdata")

/-- A section of uninitialised data. -/
def IsBss : Prop := s.sSize ≠ 0 ∧ (s.sName = chars ".bss" ∨ s.sName = chars ".sbss")

instance : DecidablePred IsText := fun _ => inferInstanceAs (Decidable (_ ∧ _))
instance : DecidablePred IsData := fun _ => inferInstanceAs (Decidable (_ ∧ _))
instance : DecidablePred IsBss := fun _ => inferInstanceAs (Decidable (_ ∧ _))

/-- A section of code is of no other kind. -/
theorem IsText.others {s : Scnhdr} (h : s.IsText) : ¬ s.IsData ∧ ¬ s.IsBss := by
  refine ⟨fun hd => ?_, fun hb => ?_⟩
  · exact absurd (h.2 ▸ hd.2) (by decide)
  · exact absurd (h.2 ▸ hb.2) (by decide)

theorem IsData.others {s : Scnhdr} (h : s.IsData) : ¬ s.IsText ∧ ¬ s.IsBss := by
  refine ⟨fun ht => ht.others.1 h, fun hb => ?_⟩
  rcases h.2 with hname | hname
  · exact absurd (hname ▸ hb.2) (by decide)
  · exact absurd (hname ▸ hb.2) (by decide)

theorem IsBss.others {s : Scnhdr} (h : s.IsBss) : ¬ s.IsText ∧ ¬ s.IsData :=
  ⟨fun ht => ht.others.2 h, fun hd => hd.others.2 h⟩

/-- The bytes of the section. -/
def bytes (content : List Byte) : List Byte := (content.drop s.sScnptr.toNat).take s.sSize.toNat

/-- The bytes of the section are in the file. -/
def Inside (content : List Byte) : Prop := s.sScnptr + s.sSize ≤ content.length

/-- The address, the size and the offset of a section are not negative. -/
structure WellFormed : Prop where
  paddr : 0 ≤ s.sPaddr ∧ s.sPaddr < 2 ^ 31
  size : 0 ≤ s.sSize
  scnptr : 0 ≤ s.sScnptr

end Scnhdr

def textOf (ss : List Scnhdr) : List Scnhdr := ss.filter fun s => decide s.IsText
def dataOf (ss : List Scnhdr) : List Scnhdr := ss.filter fun s => decide s.IsData
def bssOf (ss : List Scnhdr) : List Scnhdr := ss.filter fun s => decide s.IsBss

/-- The sum of the sizes. -/
def total (ss : List Scnhdr) : Int := (ss.map fun s => s.sSize).sum

/-- The address of the first section. -/
def start (ss : List Scnhdr) : Int := (ss.head?.map fun s => s.sPaddr).getD 0

/-- The sections can be converted, as far as the code and the initialised data are concerned. -/
structure Convertible (content : List Byte) (ss : List Scnhdr) : Prop where
  known : ∀ s ∈ ss, s.sSize = 0 ∨ s.IsText ∨ s.IsData ∨ s.IsBss
  inside : ∀ s ∈ ss, s.IsText ∨ s.IsData → s.Inside content
  data : (dataOf ss).length ≤ 1

/-- No section begins where the range of the ones before it ends, if it begins at the first of them
and is as long as all of them. -/
def Apart (bs : List Scnhdr) : Prop :=
  ∀ l b r, bs = l ++ b :: r → l ≠ [] → b.sPaddr ≠ start l + total l

section Lists

variable {content : List Byte} {ss ss' : List Scnhdr} {s : Scnhdr}

theorem total_append : total (ss ++ ss') = total ss + total ss' := by
  unfold total
  rw [List.map_append, List.sum_append]

theorem total_singleton : total [s] = s.sSize := by
  simp [total]

theorem total_nonneg (h : ∀ s ∈ ss, s.WellFormed) : 0 ≤ total ss := by
  induction ss with
  | nil => exact Int.le_refl 0
  | cons s ss ih =>
    have hs := (h s List.mem_cons_self).size
    have hss := ih fun t ht => h t (List.mem_cons_of_mem _ ht)
    unfold total at *
    rw [List.map_cons, List.sum_cons]
    omega

theorem total_filter_le (h : ∀ s ∈ ss, s.WellFormed) (p : Scnhdr → Bool) :
    total (ss.filter p) ≤ total ss := by
  induction ss with
  | nil => exact Int.le_refl 0
  | cons s ss ih =>
    have hs := (h s List.mem_cons_self).size
    have hss := ih fun t ht => h t (List.mem_cons_of_mem _ ht)
    rw [List.filter_cons]
    unfold total at *
    split
    · rw [List.map_cons, List.sum_cons, List.map_cons, List.sum_cons]
      omega
    · rw [List.map_cons, List.sum_cons]
      omega

theorem total_pos (h : ∀ s ∈ ss, s.WellFormed) (hsize : ∀ s ∈ ss, s.sSize ≠ 0) (hne : ss ≠ []) :
    0 < total ss := by
  obtain ⟨s, ss, rfl⟩ := List.exists_cons_of_ne_nil hne
  have hs := (h s List.mem_cons_self).size
  have hne := hsize s List.mem_cons_self
  have hss := total_nonneg fun t ht => h t (List.mem_cons_of_mem _ ht)
  unfold total at *
  rw [List.map_cons, List.sum_cons]
  omega

theorem start_bounds (h : ∀ s ∈ ss, s.WellFormed) : 0 ≤ start ss ∧ start ss < 2 ^ 31 := by
  cases ss with
  | nil => exact ⟨Int.le_refl 0, by decide⟩
  | cons s ss => exact (h s List.mem_cons_self).paddr

theorem mem_bssOf : s ∈ bssOf ss ↔ s ∈ ss ∧ s.IsBss := by
  unfold bssOf
  rw [List.mem_filter, decide_eq_true_iff]

theorem start_append (h : ss ≠ []) : start (ss ++ ss') = start ss := by
  cases ss with
  | nil => exact absurd rfl h
  | cons s ss => rfl

theorem Convertible.left (h : Convertible content (ss ++ ss')) : Convertible content ss := by
  refine ⟨fun s hs => h.known s (List.mem_append_left _ hs),
    fun s hs => h.inside s (List.mem_append_left _ hs), ?_⟩
  have hdata := h.data
  unfold dataOf at *
  rw [List.filter_append, List.length_append] at hdata
  omega

theorem Apart.left (h : Apart (ss ++ ss')) : Apart ss := by
  rintro l b r rfl hl
  exact h l b (r ++ ss') (by simp) hl

theorem apart_nil : Apart [] := by
  intro l b r heq
  simp at heq

theorem apart_snoc : Apart (ss ++ [s]) ↔ Apart ss ∧ (ss ≠ [] → s.sPaddr ≠ start ss + total ss) := by
  constructor
  · intro h
    exact ⟨h.left, fun hss => h ss s [] rfl hss⟩
  · rintro ⟨h, hs⟩ l b r heq hl
    rcases List.eq_nil_or_concat r with rfl | ⟨r', b', rfl⟩
    · obtain ⟨rfl, hb⟩ := List.append_inj' heq rfl
      obtain rfl : s = b := by simpa using hb
      exact hs hl
    · rw [List.concat_eq_append, ← List.cons_append, ← List.append_assoc] at heq
      obtain ⟨rfl, -⟩ := List.append_inj' heq rfl
      exact h l b r' rfl hl

theorem textOf_snoc : textOf (ss ++ [s]) = if s.IsText then textOf ss ++ [s] else textOf ss := by
  unfold textOf
  rw [List.filter_append]
  split <;> simp [*]

theorem dataOf_snoc : dataOf (ss ++ [s]) = if s.IsData then dataOf ss ++ [s] else dataOf ss := by
  unfold dataOf
  rw [List.filter_append]
  split <;> simp [*]

theorem bssOf_snoc : bssOf (ss ++ [s]) = if s.IsBss then bssOf ss ++ [s] else bssOf ss := by
  unfold bssOf
  rw [List.filter_append]
  split <;> simp [*]

theorem bssOf_append : bssOf (ss ++ ss') = bssOf ss ++ bssOf ss' := List.filter_append ..

theorem convertible_snoc : Convertible content (ss ++ [s]) ↔ Convertible content ss ∧
    (s.sSize = 0 ∨ s.IsText ∨ s.IsData ∨ s.IsBss) ∧ (s.IsText ∨ s.IsData → s.Inside content) ∧
    (s.IsData → dataOf ss = []) := by
  have hmem : s ∈ ss ++ [s] := List.mem_append_right _ List.mem_cons_self
  constructor
  · intro h
    refine ⟨h.left, h.known s hmem, h.inside s hmem, fun hd => ?_⟩
    have hdata := h.data
    rw [dataOf_snoc, if_pos hd, List.length_append, List.length_singleton] at hdata
    exact List.length_eq_zero_iff.mp (by omega)
  · rintro ⟨h, hknown, hinside, hdata⟩
    refine ⟨fun t ht => ?_, fun t ht => ?_, ?_⟩
    · rcases List.mem_append.mp ht with ht | ht
      · exact h.known t ht
      · rwa [List.mem_singleton.mp ht]
    · rcases List.mem_append.mp ht with ht | ht
      · exact h.inside t ht
      · rwa [List.mem_singleton.mp ht]
    · rw [dataOf_snoc]
      split
      · rename_i hd
        rw [hdata hd, List.nil_append, List.length_singleton]
      · exact h.data

end Lists

/-! ### One section -/

section Load

variable {content : List Byte} {c : Converter} {s : Scnhdr}

theorem coffRead_eq (content : List Byte) (pos n : Nat) : coffRead content pos n =
    if pos + n ≤ content.length ∨ n = 0 then some ((content.drop pos).take n, pos + n) else none := by
  have hlen : ((content.drop pos).take n).length = min n (content.length - pos) := by
    rw [List.length_take, List.length_drop]
  unfold coffRead
  simp only [hlen, Int.toNat_natCast]
  rw [if_neg (by omega)]
  by_cases hfits : pos + n ≤ content.length ∨ n = 0
  · rw [if_pos (by omega), if_pos hfits, Nat.min_eq_left (by omega)]
  · rw [if_neg (by omega), if_neg hfits]

theorem copy_eq (content : List Byte) (c : Converter) (hs : s.WellFormed) (hsize : s.sSize ≠ 0)
    (hpos : 0 ≤ c.inNoffFile ∧ c.inNoffFile + s.sSize < 2 ^ 31) :
    (s.Inside content ∧ ∃ pos, c.copy content s = some { c with
        inPos := pos, body := c.body ++ s.bytes content, inNoffFile := c.inNoffFile + s.sSize }) ∨
      (¬ s.Inside content ∧ c.copy content s = none) := by
  obtain ⟨n, hn⟩ := Int.eq_ofNat_of_zero_le hs.size
  have hnonneg := hs.scnptr
  have hread := coffRead_eq content s.sScnptr.toNat n
  have hinside : s.Inside content ↔ s.sScnptr.toNat + n ≤ content.length := by
    unfold Scnhdr.Inside
    omega
  unfold Converter.copy Scnhdr.bytes
  rw [if_neg (by omega), hn, s32_of_bounds (by omega) (by omega)]
  simp only [hread, Int.toNat_natCast, hinside]
  by_cases hfits : s.sScnptr.toNat + n ≤ content.length
  · left
    refine ⟨hfits, s.sScnptr.toNat + n, ?_⟩
    rw [if_pos (Or.inl hfits)]
  · right
    refine ⟨hfits, ?_⟩
    rw [if_neg (by omega)]

end Load

/-! ### What has been loaded -/

/-- The section was copied to the segment. -/
structure Converter.Holds (c : Converter) (content : List Byte) (seg : Segment) (s : Scnhdr) :
    Prop where
  virtualAddr : seg.virtualAddr = s.sPaddr
  size : seg.size = s.sSize
  bytes : ∃ k : Nat, seg.inFileAddr = noffHeaderSize + k ∧
    (c.body.drop k).take s.sSize.toNat = s.bytes content ∧ k + s.sSize.toNat ≤ c.body.length

/-- The converter after the sections `done`. -/
structure Converter.Loaded (content : List Byte) (done : List Scnhdr) (c : Converter) : Prop where
  convertible : Convertible content done
  apart : Apart (bssOf done)
  position : c.inNoffFile = noffHeaderSize + c.body.length
  length : (c.body.length : Int) ≤ total done
  text : ∀ t, (textOf done).getLast? = some t → c.Holds content c.noffH.code t
  data : (dataOf done = [] ∧ c.noffH.initData.size = 0) ∨
    ∃ d, dataOf done = [d] ∧ c.Holds content c.noffH.initData d
  bss : (bssOf done = [] ∧ c.noffH.uninitData.size = 0) ∨
    (bssOf done ≠ [] ∧ c.noffH.uninitData.virtualAddr = start (bssOf done) ∧
      c.noffH.uninitData.size = total (bssOf done))
  magic : c.noffH.noffMagic = noffMagic
  code : c.noffH.code.Fits
  initData : c.noffH.initData.Fits
  uninitData : c.noffH.uninitData.Fits

section Step

variable {content : List Byte} {c : Converter} {s : Scnhdr} {seg : Segment} {done : List Scnhdr}

/-- What was copied stays when more is copied. -/
theorem Converter.Holds.append {c' : Converter} {more : List Byte} (h : c.Holds content seg s)
    (hbody : c'.body = c.body ++ more) : c'.Holds content seg s := by
  obtain ⟨hva, hsize, k, hk, hbytes, hend⟩ := h
  refine ⟨hva, hsize, k, hk, ?_, ?_⟩
  · rw [hbody, List.drop_append_of_le_length (by omega),
      List.take_append_of_le_length (by rw [List.length_drop]; omega)]
    exact hbytes
  · rw [hbody, List.length_append]
    omega

theorem length_bytes_section (hs : s.WellFormed) (hinside : s.Inside content) :
    ((s.bytes content).length : Int) = s.sSize := by
  have hptr := hs.scnptr
  have hsize := hs.size
  unfold Scnhdr.Inside at hinside
  unfold Scnhdr.bytes
  rw [List.length_take, List.length_drop]
  omega

/-- The segment of the section that was copied last. -/
theorem Converter.holds_segment {c' : Converter} (hs : s.WellFormed) (hinside : s.Inside content)
    (hposition : c.inNoffFile = noffHeaderSize + c.body.length)
    (hbody : c'.body = c.body ++ s.bytes content) : c'.Holds content (c.segment s) s := by
  have hlen := length_bytes_section hs hinside
  refine ⟨rfl, rfl, c.body.length, hposition, ?_, ?_⟩
  · rw [hbody, List.drop_left, List.take_of_length_le (by omega)]
  · rw [hbody, List.length_append]
    omega

namespace Converter.Loaded

theorem fits_segment (h : Loaded content done c) (hw : ∀ t ∈ done ++ [s], t.WellFormed)
    (hbound : noffHeaderSize + total (done ++ [s]) < 2 ^ 31) : (c.segment s).Fits := by
  have hs := hw s (List.mem_append_right _ List.mem_cons_self)
  have hpaddr := hs.paddr
  have hsize := hs.size
  have hlength := h.length
  have hposition := h.position
  rw [total_append, total_singleton] at hbound
  unfold noffHeaderSize at *
  exact ⟨⟨by simp only [segment]; omega, hpaddr.2⟩, ⟨by simp only [segment]; omega,
    by simp only [segment]; omega⟩, by simp only [segment]; omega, by simp only [segment]; omega⟩

theorem step_empty (h : Loaded content done c) (hempty : s.sSize = 0) :
    c.load content s = some c ∧ Loaded content (done ++ [s]) c := by
  have htext : ¬ s.IsText := fun ht => ht.1 hempty
  have hdata : ¬ s.IsData := fun hd => hd.1 hempty
  have hbss : ¬ s.IsBss := fun hb => hb.1 hempty
  refine ⟨if_pos hempty, ?_, ?_, h.position, ?_, ?_, ?_, ?_, h.magic, h.code, h.initData,
    h.uninitData⟩
  · exact convertible_snoc.mpr ⟨h.convertible, Or.inl hempty, by tauto, by tauto⟩
  · rw [bssOf_snoc, if_neg hbss]
    exact h.apart
  · rw [total_append, total_singleton, hempty, Int.add_zero]
    exact h.length
  · rw [textOf_snoc, if_neg htext]
    exact h.text
  · rw [dataOf_snoc, if_neg hdata]
    exact h.data
  · rw [bssOf_snoc, if_neg hbss]
    exact h.bss

/-- The bounds that a section has to be copied. -/
theorem copy_bounds (h : Loaded content done c)
    (hbound : noffHeaderSize + total (done ++ [s]) < 2 ^ 31) :
    0 ≤ c.inNoffFile ∧ c.inNoffFile + s.sSize < 2 ^ 31 := by
  have hlength := h.length
  have hposition := h.position
  rw [total_append, total_singleton] at hbound
  unfold noffHeaderSize at *
  omega

/-- The body with the section behind it. -/
theorem body_snoc (h : Loaded content done c) {bytes : List Byte}
    (hlen : (bytes.length : Int) = s.sSize) :
    c.inNoffFile + s.sSize = noffHeaderSize + (c.body ++ bytes).length ∧
      ((c.body ++ bytes).length : Int) ≤ total (done ++ [s]) := by
  have hlength := h.length
  rw [h.position, List.length_append, total_append, total_singleton]
  push_cast
  omega

theorem step_text (h : Loaded content done c) (hw : ∀ t ∈ done ++ [s], t.WellFormed)
    (hbound : noffHeaderSize + total (done ++ [s]) < 2 ^ 31) (hs : s.IsText) :
    (∃ c', c.load content s = some c' ∧ Loaded content (done ++ [s]) c') ∨
      (c.load content s = none ∧ ¬ Convertible content (done ++ [s])) := by
  have hws := hw s (List.mem_append_right _ List.mem_cons_self)
  obtain ⟨hdata, hbss⟩ := hs.others
  have hload : c.load content s =
      Converter.copy { c with noffH := { c.noffH with code := c.segment s } } content s := by
    unfold Converter.load
    rw [if_neg hs.1, if_pos hs.2]
  rw [hload]
  rcases copy_eq content { c with noffH := { c.noffH with code := c.segment s } }
    hws hs.1 (h.copy_bounds hbound) with ⟨hinside, pos, hcopy⟩ | ⟨hnot, hcopy⟩
  · have hlen := length_bytes_section hws hinside
    refine Or.inl ⟨_, hcopy, ?_, ?_, ?_, ?_, ?_, ?_, ?_, h.magic, h.fits_segment hw hbound, h.initData,
      h.uninitData⟩
    · exact convertible_snoc.mpr ⟨h.convertible, by tauto, fun _ => hinside, by tauto⟩
    · rw [bssOf_snoc, if_neg hbss]
      exact h.apart
    · exact (h.body_snoc hlen).1
    · exact (h.body_snoc hlen).2
    · rw [textOf_snoc, if_pos hs]
      intro t ht
      obtain rfl : s = t := by simpa using ht
      exact holds_segment hws hinside h.position rfl
    · rw [dataOf_snoc, if_neg hdata]
      exact h.data.imp_right fun ⟨d, hd, hholds⟩ => ⟨d, hd, hholds.append rfl⟩
    · rw [bssOf_snoc, if_neg hbss]
      exact h.bss
  · exact Or.inr ⟨hcopy, fun hconv => hnot ((convertible_snoc.mp hconv).2.2.1 (Or.inl hs))⟩

theorem step_data (h : Loaded content done c) (hw : ∀ t ∈ done ++ [s], t.WellFormed)
    (hbound : noffHeaderSize + total (done ++ [s]) < 2 ^ 31) (hs : s.IsData) :
    (∃ c', c.load content s = some c' ∧ Loaded content (done ++ [s]) c') ∨
      (c.load content s = none ∧ ¬ Convertible content (done ++ [s])) := by
  have hws := hw s (List.mem_append_right _ List.mem_cons_self)
  obtain ⟨htext, hbss⟩ := hs.others
  have hname : s.sName ≠ chars ".text" := fun hn => htext ⟨hs.1, hn⟩
  have hload : c.load content s = if c.noffH.initData.size ≠ 0 then none else
      Converter.copy { c with noffH := { c.noffH with initData := c.segment s } } content s := by
    unfold Converter.load
    rw [if_neg hs.1, if_neg hname, if_pos hs.2]
  rw [hload]
  rcases h.data with ⟨hnil, hzero⟩ | ⟨d, hd, hholds⟩
  · rw [if_neg (not_not.mpr hzero)]
    rcases copy_eq content { c with noffH := { c.noffH with initData := c.segment s } } hws hs.1
      (h.copy_bounds hbound) with ⟨hinside, pos, hcopy⟩ | ⟨hnot, hcopy⟩
    · have hlen := length_bytes_section hws hinside
      refine Or.inl ⟨_, hcopy, ?_, ?_, ?_, ?_, ?_, ?_, ?_, h.magic, h.code, h.fits_segment hw hbound,
        h.uninitData⟩
      · exact convertible_snoc.mpr ⟨h.convertible, by tauto, fun _ => hinside, fun _ => hnil⟩
      · rw [bssOf_snoc, if_neg hbss]
        exact h.apart
      · exact (h.body_snoc hlen).1
      · exact (h.body_snoc hlen).2
      · rw [textOf_snoc, if_neg htext]
        exact fun t ht => (h.text t ht).append rfl
      · rw [dataOf_snoc, if_pos hs, hnil]
        exact Or.inr ⟨s, rfl, holds_segment hws hinside h.position rfl⟩
      · rw [bssOf_snoc, if_neg hbss]
        exact h.bss
    · exact Or.inr ⟨hcopy, fun hconv => hnot ((convertible_snoc.mp hconv).2.2.1 (Or.inr hs))⟩
  · have hdmem : d ∈ dataOf done := hd ▸ List.mem_cons_self
    have hsize : c.noffH.initData.size ≠ 0 := by
      rw [hholds.size]
      exact (of_decide_eq_true (List.mem_filter.mp hdmem).2).1
    refine Or.inr ⟨if_pos hsize, fun hconv => ?_⟩
    have hnil := (convertible_snoc.mp hconv).2.2.2 hs
    rw [hd] at hnil
    cases hnil

theorem step_bss (h : Loaded content done c) (hw : ∀ t ∈ done ++ [s], t.WellFormed)
    (hbound : noffHeaderSize + total (done ++ [s]) < 2 ^ 31) (hs : s.IsBss) :
    (∃ c', c.load content s = some c' ∧ Loaded content (done ++ [s]) c') ∨
      (c.load content s = none ∧ ¬ Apart (bssOf (done ++ [s]))) := by
  have hws := hw s (List.mem_append_right _ List.mem_cons_self)
  have hwdone : ∀ t ∈ done, t.WellFormed := fun t ht => hw t (List.mem_append_left _ ht)
  have hwbss : ∀ t ∈ bssOf done, t.WellFormed := fun t ht => hwdone t (mem_bssOf.mp ht).1
  have hpaddr := hws.paddr
  have hsize := hws.size
  have hle : total (bssOf done) ≤ total done := total_filter_le hwdone _
  have hnonneg := total_nonneg hwbss
  rw [total_append, total_singleton] at hbound
  unfold noffHeaderSize at hbound
  obtain ⟨htext, hdata⟩ := hs.others
  have hload : c.load content s =
      if c.noffH.uninitData.size ≠ 0 then
        if s.sPaddr = s32 (c.noffH.uninitData.virtualAddr + c.noffH.uninitData.size) then none
        else some { c with noffH := { c.noffH with uninitData :=
          { c.noffH.uninitData with size := s32 (c.noffH.uninitData.size + s.sSize) } } }
      else some { c with noffH := { c.noffH with uninitData :=
        { c.noffH.uninitData with virtualAddr := s.sPaddr, size := s.sSize } } } := by
    unfold Converter.load
    rw [if_neg hs.1, if_neg fun hn => htext ⟨hs.1, hn⟩, if_neg fun hn => hdata ⟨hs.1, hn⟩,
      if_pos hs.2]
  have hconv : Convertible content (done ++ [s]) :=
    convertible_snoc.mpr ⟨h.convertible, by tauto, by tauto, by tauto⟩
  have hlength : (c.body.length : Int) ≤ total (done ++ [s]) := by
    have hold := h.length
    rw [total_append, total_singleton]
    omega
  rw [hload, bssOf_snoc, if_pos hs, apart_snoc]
  rcases h.bss with ⟨hnil, hzero⟩ | ⟨hne, hva, htotal⟩
  · -- the first section of this kind
    rw [if_neg (not_not.mpr hzero)]
    refine Or.inl ⟨_, rfl, hconv, ?_, h.position, hlength, ?_, ?_, ?_, h.magic, h.code, h.initData,
      ⟨⟨by simp only; omega, hpaddr.2⟩, h.uninitData.inFileAddr, by simp only; omega,
        by simp only; omega⟩⟩
    · rw [bssOf_snoc, if_pos hs, apart_snoc]
      exact ⟨h.apart, fun hne => absurd hnil hne⟩
    · rw [textOf_snoc, if_neg htext]
      exact fun t ht => (h.text t ht).append (List.append_nil _).symm
    · rw [dataOf_snoc, if_neg hdata]
      exact h.data.imp_right fun ⟨d, hd, hholds⟩ => ⟨d, hd, hholds.append (List.append_nil _).symm⟩
    · rw [bssOf_snoc, if_pos hs, hnil, List.nil_append]
      exact Or.inr ⟨List.cons_ne_nil _ _, rfl, total_singleton.symm⟩
  · have hpos := total_pos hwbss (fun t ht => (mem_bssOf.mp ht).2.1) hne
    obtain ⟨hstart, hstart'⟩ := start_bounds hwbss
    -- the end of the range may be no `int`, but then it is no address
    have hend : s.sPaddr = s32 (start (bssOf done) + total (bssOf done)) ↔
        s.sPaddr = start (bssOf done) + total (bssOf done) := by
      by_cases hint : start (bssOf done) + total (bssOf done) < 2 ^ 31
      · rw [s32_of_bounds (by omega) hint]
      · have hwrap : s32 (start (bssOf done) + total (bssOf done)) =
            start (bssOf done) + total (bssOf done) - 2 ^ 32 := by
          unfold s32
          rw [Int.bmod_def]
          split <;> omega
        rw [hwrap]
        omega
    rw [if_pos (by omega), hva, htotal]
    by_cases hcontiguous : s.sPaddr = start (bssOf done) + total (bssOf done)
    · refine Or.inr ⟨if_pos (hend.mpr hcontiguous), fun hapart => ?_⟩
      exact hapart.2 hne hcontiguous
    · rw [if_neg fun heq => hcontiguous (hend.mp heq), s32_of_bounds (by omega) (by omega)]
      refine Or.inl ⟨_, rfl, hconv, ?_, h.position, hlength, ?_, ?_, ?_, h.magic, h.code, h.initData,
        ⟨h.uninitData.virtualAddr, h.uninitData.inFileAddr, by simp only; omega,
          by simp only; omega⟩⟩
      · rw [bssOf_snoc, if_pos hs, apart_snoc]
        exact ⟨h.apart, fun _ => hcontiguous⟩
      · rw [textOf_snoc, if_neg htext]
        exact fun t ht => (h.text t ht).append (List.append_nil _).symm
      · rw [dataOf_snoc, if_neg hdata]
        exact h.data.imp_right fun ⟨d, hd, hholds⟩ =>
          ⟨d, hd, hholds.append (List.append_nil _).symm⟩
      · rw [bssOf_snoc, if_pos hs]
        refine Or.inr ⟨by simp, ?_, ?_⟩
        · rw [start_append hne]
          exact hva
        · rw [total_append, total_singleton]

/-- Any section: it is loaded, or it cannot be converted. -/
theorem step (h : Loaded content done c) (hw : ∀ t ∈ done ++ [s], t.WellFormed)
    (hbound : noffHeaderSize + total (done ++ [s]) < 2 ^ 31) :
    (∃ c', c.load content s = some c' ∧ Loaded content (done ++ [s]) c') ∨
      (c.load content s = none ∧
        ¬ (Convertible content (done ++ [s]) ∧ Apart (bssOf (done ++ [s])))) := by
  by_cases hempty : s.sSize = 0
  · exact Or.inl ⟨c, h.step_empty hempty⟩
  by_cases htext : s.sName = chars ".text"
  · exact (h.step_text hw hbound ⟨hempty, htext⟩).imp_right fun ⟨hnone, hnot⟩ =>
      ⟨hnone, fun hboth => hnot hboth.1⟩
  by_cases hdata : s.sName = chars ".data" ∨ s.sName = chars ".rdata"
  · exact (h.step_data hw hbound ⟨hempty, hdata⟩).imp_right fun ⟨hnone, hnot⟩ =>
      ⟨hnone, fun hboth => hnot hboth.1⟩
  by_cases hbss : s.sName = chars ".bss" ∨ s.sName = chars ".sbss"
  · exact (h.step_bss hw hbound ⟨hempty, hbss⟩).imp_right fun ⟨hnone, hnot⟩ =>
      ⟨hnone, fun hboth => hnot hboth.2⟩
  · refine Or.inr ⟨?_, fun hboth => ?_⟩
    · unfold Converter.load
      rw [if_neg hempty, if_neg htext, if_neg hdata, if_neg hbss]
    · rcases (convertible_snoc.mp hboth.1).2.1 with hzero | ht | hd | hb
      · exact hempty hzero
      · exact htext ht.2
      · exact hdata hd.2
      · exact hbss hb.2

/-- The loop comes to its end when the sections can be converted. -/
theorem loop_cases (h : Loaded content done c) (ss : List Scnhdr)
    (hw : ∀ t ∈ done ++ ss, t.WellFormed) (hbound : noffHeaderSize + total (done ++ ss) < 2 ^ 31) :
    (∃ c', Converter.loop content ss c = some c' ∧ Loaded content (done ++ ss) c') ∨
      (Converter.loop content ss c = none ∧
        ¬ (Convertible content (done ++ ss) ∧ Apart (bssOf (done ++ ss)))) := by
  induction ss generalizing done c with
  | nil =>
    rw [List.append_nil]
    exact Or.inl ⟨c, rfl, h⟩
  | cons s ss ih =>
    have hsplit : done ++ s :: ss = (done ++ [s]) ++ ss := by simp
    rw [hsplit] at hw hbound ⊢
    have hw' : ∀ t ∈ done ++ [s], t.WellFormed := fun t ht => hw t (List.mem_append_left _ ht)
    have hrest := total_nonneg fun t ht => hw t (List.mem_append_right _ ht)
    have hbound' : noffHeaderSize + total (done ++ [s]) < 2 ^ 31 := by
      rw [total_append] at hbound
      omega
    unfold Converter.loop
    rcases h.step hw' hbound' with ⟨c', hload, h'⟩ | ⟨hload, hnot⟩
    · rw [hload]
      exact ih h' hw hbound
    · rw [hload]
      refine Or.inr ⟨rfl, fun hboth => hnot ⟨hboth.1.left, ?_⟩⟩
      have hapart := hboth.2
      rw [bssOf_append] at hapart
      exact hapart.left

end Converter.Loaded

end Step

end Coff

end Nachos
