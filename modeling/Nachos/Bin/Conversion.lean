import Nachos.Lib.Tilings
import Nachos.Bin.SectionLoop
import Nachos.Userprog.LoaderAgreement

/-!
# What a converted program keeps

A NOFF file that `coff2noff` writes should describe the same program as its COFF file: the code
and the initialised data are found in the segments, and the uninitialised data is the union of the
sections `.bss` and `.sbss`. The comment in the source asks for the sections to be contiguous, but
the test is the wrong way round: two sections are accepted exactly when the second does not follow
the first. And a second section `.text` takes the place of the first one in the header.

`preserves_iff` says for which files the program is kept all the same.
-/

namespace Nachos

open CInt

namespace Coff

/-! ### Statement -/

/-- The headers of a COFF file. -/
structure Readable (content : List Byte) : Prop where
  length : filehdrSize + aouthdrSize + scnhdrSize * numsections content ≤ content.length
  fileMagic : shortAt content 0 = mipselMagic
  systemMagic : shortAt content filehdrSize = omagic

/-- The addresses, sizes and offsets of the sections are not negative, and the sizes add up to an
`int`. -/
structure CoffFile (content : List Byte) : Prop where
  sections : ∀ s ∈ sectionsOf content, s.WellFormed
  size : noffHeaderSize + total (sectionsOf content) < 2 ^ 31

/-- The segment is the section. -/
structure IsSegment (content output : List Byte) (seg : Segment) (s : Scnhdr) : Prop where
  virtualAddr : seg.virtualAddr = s.sPaddr
  size : seg.size = s.sSize
  bytes : seg.bytes output = s.bytes content

/-- The NOFF file describes the program of the COFF file. -/
structure Preserved (content output : List Byte) : Prop where
  text : ∀ s ∈ sectionsOf content, s.IsText → IsSegment content output (readHeader output).code s
  data : ∀ s ∈ sectionsOf content, s.IsData → IsSegment content output (readHeader output).initData s
  bss : ∀ a : Int, ((readHeader output).uninitData.virtualAddr ≤ a ∧
      a < (readHeader output).uninitData.virtualAddr + (readHeader output).uninitData.size) ↔
    ∃ s ∈ sectionsOf content, s.IsBss ∧ s.sPaddr ≤ a ∧ a < s.sPaddr + s.sSize

/-- Every file that is converted keeps its program, and two sections of uninitialised data are
accepted precisely when they are contiguous. -/
structure Preserves (content memory : List Byte) : Prop where
  keeps : ∀ output, coff2noff content memory = some output → Preserved content output
  accepts : ∀ b₁ b₂, Readable content → Convertible content (sectionsOf content) →
    bssOf (sectionsOf content) = [b₁, b₂] →
    ((coff2noff content memory).isSome = true ↔ b₂.sPaddr = b₁.sPaddr + b₁.sSize)

/-- The sections do not overlap, and lie in a range that begins at the first of them and is as long as
all of them. -/
structure Tiles (bs : List Scnhdr) : Prop where
  apart : bs.Pairwise fun b b' => b.sPaddr + b.sSize ≤ b'.sPaddr ∨ b'.sPaddr + b'.sSize ≤ b.sPaddr
  inside : ∀ b ∈ bs, start bs ≤ b.sPaddr ∧ b.sPaddr + b.sSize ≤ start bs + total bs

/-- There are not just two sections of uninitialised data; and if none of them begins where the ones
before it end, they tile a range, and all sections of code are the same. -/
structure Harmless (content : List Byte) : Prop where
  bss : (bssOf (sectionsOf content)).length ≠ 2
  tiles : Apart (bssOf (sectionsOf content)) → Tiles (bssOf (sectionsOf content))
  text : Apart (bssOf (sectionsOf content)) → ∀ s ∈ textOf (sectionsOf content),
    ∀ t ∈ textOf (sectionsOf content),
      s.sPaddr = t.sPaddr ∧ s.sSize = t.sSize ∧ s.bytes content = t.bytes content

/-! ### The range of the uninitialised data -/

/-- The addresses of a section. -/
def Scnhdr.range (b : Scnhdr) : Finset Int := Tilings.interval b.sPaddr b.sSize.toNat

theorem card_ranges {bs : List Scnhdr} (hw : ∀ b ∈ bs, b.WellFormed) :
    (((bs.map Scnhdr.range).map Finset.card).sum : Int) = total bs := by
  induction bs with
  | nil => rfl
  | cons b bs ih =>
    have hb := (hw b List.mem_cons_self).size
    have hbs := ih fun t ht => hw t (List.mem_cons_of_mem _ ht)
    have hcard : (b.range.card : Int) = b.sSize := by
      rw [Scnhdr.range, Tilings.card_interval]
      omega
    unfold total at *
    rw [List.map_cons, List.map_cons, List.sum_cons, List.map_cons, List.sum_cons, Nat.cast_add, hbs,
      hcard]

theorem disjoint_range_iff {b b' : Scnhdr} (hb : 0 < b.sSize) (hb' : 0 < b'.sSize) :
    Disjoint b.range b'.range ↔
      b.sPaddr + b.sSize ≤ b'.sPaddr ∨ b'.sPaddr + b'.sSize ≤ b.sPaddr := by
  unfold Scnhdr.range
  rw [Finset.disjoint_left]
  constructor
  · intro h
    by_contra hnot
    -- the later one of the two first addresses is in both
    apply h (a := max b.sPaddr b'.sPaddr)
    · rw [Tilings.mem_interval]
      omega
    · rw [Tilings.mem_interval]
      omega
  · intro h a ha ha'
    rw [Tilings.mem_interval] at ha ha'
    omega

/-- The range is the union of the sections when they tile it. -/
theorem union_eq_range {bs : List Scnhdr} (hw : ∀ b ∈ bs, b.WellFormed)
    (hsize : ∀ b ∈ bs, b.sSize ≠ 0) :
    (∀ a : Int, (start bs ≤ a ∧ a < start bs + total bs) ↔
      ∃ b ∈ bs, b.sPaddr ≤ a ∧ a < b.sPaddr + b.sSize) ↔ Tiles bs := by
  have hpos : ∀ b ∈ bs, 0 < b.sSize := by
    intro b hb
    have hnonneg := (hw b hb).size
    have hne := hsize b hb
    omega
  have hsum := card_ranges hw
  have hcard : (Tilings.interval (start bs) (total bs).toNat).card =
      ((bs.map Scnhdr.range).map Finset.card).sum := by
    rw [Tilings.card_interval]
    omega
  have htotal : ((total bs).toNat : Int) = total bs := by omega
  have hunion : (∀ a : Int, (start bs ≤ a ∧ a < start bs + total bs) ↔
      ∃ b ∈ bs, b.sPaddr ≤ a ∧ a < b.sPaddr + b.sSize) ↔
        Tilings.union (bs.map Scnhdr.range) = Tilings.interval (start bs) (total bs).toNat := by
    rw [Finset.ext_iff]
    refine forall_congr' fun a => ?_
    have hmem : (∃ b ∈ bs, b.sPaddr ≤ a ∧ a < b.sPaddr + b.sSize) ↔ ∃ b ∈ bs, a ∈ b.range := by
      refine exists_congr fun b => and_congr_right fun hb => ?_
      have hb' := hpos b hb
      rw [Scnhdr.range, Tilings.mem_interval]
      omega
    rw [Tilings.mem_union, Tilings.mem_interval, htotal, hmem]
    simp only [List.mem_map, exists_exists_and_eq_and]
    exact ⟨Iff.symm, Iff.symm⟩
  rw [hunion, Tilings.union_eq_iff hcard, List.pairwise_map, List.forall_mem_map]
  constructor
  · rintro ⟨hdisjoint, hsub⟩
    refine ⟨hdisjoint.imp_of_mem fun hb hb' hd => ?_, fun b hb => ?_⟩
    · exact (disjoint_range_iff (hpos _ hb) (hpos _ hb')).mp hd
    · have hb' := hpos b hb
      have hends := (Tilings.interval_subset_iff (by omega)).mp (hsub b hb)
      omega
  · rintro ⟨hapart, hinside⟩
    refine ⟨hapart.imp_of_mem fun hb hb' hd => ?_, fun b hb => ?_⟩
    · exact (disjoint_range_iff (hpos _ hb) (hpos _ hb')).mpr hd
    · have hb' := hpos b hb
      have hends := hinside b hb
      exact (Tilings.interval_subset_iff (by omega)).mpr (by omega)

/-! ### The whole conversion -/

section Main

variable {content : List Byte} (memory : List Byte)

theorem fits_readHeader : (readHeader memory).code.Fits ∧ (readHeader memory).initData.Fits ∧
    (readHeader memory).uninitData.Fits :=
  ⟨⟨intAt_bounds _ _, intAt_bounds _ _, intAt_bounds _ _⟩,
    ⟨intAt_bounds _ _, intAt_bounds _ _, intAt_bounds _ _⟩,
    ⟨intAt_bounds _ _, intAt_bounds _ _, intAt_bounds _ _⟩⟩

/-- Before the loop. -/
theorem loaded_initial (content : List Byte) (pos : Nat) :
    Converter.Loaded content [] (.initial memory pos) := by
  obtain ⟨hcode, hinit, huninit⟩ := fits_readHeader memory
  have hzero : (-2 ^ 31 : Int) ≤ 0 ∧ (0 : Int) < 2 ^ 31 := by decide
  refine ⟨⟨by simp, by simp, by simp [dataOf]⟩, apart_nil, rfl, Int.le_refl 0, by simp [textOf],
    Or.inl ⟨rfl, rfl⟩, Or.inl ⟨rfl, rfl⟩, rfl, ?_, ?_, ?_⟩
  · exact ⟨hcode.virtualAddr, hcode.inFileAddr, hzero⟩
  · exact ⟨hinit.virtualAddr, hinit.inFileAddr, hzero⟩
  · exact ⟨huninit.virtualAddr, huninit.inFileAddr, hzero⟩

theorem coffRead_some {pos n : Nat} (h : pos + n ≤ content.length) :
    coffRead content pos n = some ((content.drop pos).take n, pos + n) := by
  rw [coffRead_eq, if_pos (Or.inl h)]

/-- The section headers of a readable file are converted. -/
theorem coff2noff_readable (h : Readable content) : ∃ pos, coff2noff content memory =
    (Converter.loop content (sectionsOf content) (.initial memory pos)).map
      fun c => c.noffH.bytes ++ c.body := by
  have hlen := h.length
  rw [Nat.mul_comm] at hlen
  have hfile := coffRead_some (show 0 + filehdrSize ≤ content.length by omega)
  have hsystem := coffRead_some (show 0 + filehdrSize + aouthdrSize ≤ content.length by omega)
  have hsections := coffRead_some (show 0 + filehdrSize + aouthdrSize +
    numsections content * scnhdrSize ≤ content.length by omega)
  refine ⟨0 + filehdrSize + aouthdrSize + numsections content * scnhdrSize, ?_⟩
  unfold coff2noff
  simp only [hfile, hsystem, hsections, h.fileMagic, h.systemMagic, Option.bind_eq_bind,
    Option.bind_some, ne_eq, not_true_eq_false, if_false, Option.map_eq_bind]
  rfl

theorem coff2noff_unreadable (h : ¬ Readable content) : coff2noff content memory = none := by
  unfold coff2noff
  simp only [coffRead_eq, Option.bind_eq_bind]
  by_cases h₁ : 0 + filehdrSize ≤ content.length ∨ filehdrSize = 0
  · by_cases hfile : shortAt content 0 = mipselMagic
    · by_cases h₂ : 0 + filehdrSize + aouthdrSize ≤ content.length ∨ aouthdrSize = 0
      · by_cases hsystem : shortAt content filehdrSize = omagic
        · have h₃ : ¬ (0 + filehdrSize + aouthdrSize + numsections content * scnhdrSize ≤
              content.length ∨ numsections content * scnhdrSize = 0) := by
            intro h₃
            refine h ⟨?_, hfile, hsystem⟩
            unfold filehdrSize aouthdrSize scnhdrSize at *
            omega
          simp only [if_pos h₁, if_pos h₂, if_neg h₃, hfile, hsystem, Option.bind_some, ne_eq,
            not_true_eq_false, if_false, Option.bind_none]
        · simp only [if_pos h₁, if_pos h₂, hfile, hsystem, Option.bind_some, ne_eq,
            not_true_eq_false, not_false_eq_true, if_false, if_true]
      · simp only [if_pos h₁, if_neg h₂, hfile, Option.bind_some, ne_eq, not_true_eq_false, if_false,
          Option.bind_none]
    · simp only [if_pos h₁, hfile, Option.bind_some, ne_eq, not_false_eq_true, if_true]
  · simp only [if_neg h₁, Option.bind_none]

/-- The conversion succeeds exactly for readable files whose sections can be converted and are
apart. -/
theorem coff2noff_cases (hw : CoffFile content) :
    (∃ c : Converter, coff2noff content memory = some (c.noffH.bytes ++ c.body) ∧
        c.Loaded content (sectionsOf content) ∧ Readable content) ∨
      (coff2noff content memory = none ∧ ¬ (Readable content ∧
        Convertible content (sectionsOf content) ∧ Apart (bssOf (sectionsOf content)))) := by
  by_cases hreadable : Readable content
  · obtain ⟨pos, hmain⟩ := coff2noff_readable memory hreadable
    have hcases := (loaded_initial memory content pos).loop_cases
      (sectionsOf content) hw.sections hw.size
    rw [List.nil_append] at hcases
    rcases hcases with ⟨c, hloop, hc⟩ | ⟨hloop, hnot⟩
    · refine Or.inl ⟨c, ?_, hc, hreadable⟩
      rw [hmain, hloop, Option.map_some]
    · refine Or.inr ⟨?_, fun h => hnot h.2⟩
      rw [hmain, hloop, Option.map_none]
  · exact Or.inr ⟨coff2noff_unreadable memory hreadable, fun h => hreadable h.1⟩

/-- The files that are accepted, with any number of sections of uninitialised data: none of these
may begin where the ones before it end. -/
theorem coff2noff_isSome_iff (hw : CoffFile content) :
    (coff2noff content memory).isSome = true ↔ Readable content ∧
      Convertible content (sectionsOf content) ∧ Apart (bssOf (sectionsOf content)) := by
  rcases coff2noff_cases memory hw with ⟨c, hmain, hc, hreadable⟩ | ⟨hmain, hnot⟩
  · rw [hmain]
    exact iff_of_true rfl ⟨hreadable, hc.convertible, hc.apart⟩
  · rw [hmain]
    exact iff_of_false (by simp) hnot

end Main

section Output

variable {content : List Byte} {c : Converter}

theorem readHeader_output {ss : List Scnhdr} (h : c.Loaded content ss) :
    readHeader (c.noffH.bytes ++ c.body) = c.noffH := by
  apply readHeader_bytes
  have hcode := h.code
  have hinit := h.initData
  have huninit := h.uninitData
  have hmagic : -2 ^ 31 ≤ c.noffH.noffMagic ∧ c.noffH.noffMagic < 2 ^ 31 := by
    rw [h.magic]
    decide
  intro x hx
  simp only [NoffHeader.members, List.mem_cons, List.not_mem_nil, or_false] at hx
  rcases hx with rfl | rfl | rfl | rfl | rfl | rfl | rfl | rfl | rfl | rfl
  · exact hmagic
  · exact hcode.virtualAddr
  · exact hcode.inFileAddr
  · exact hcode.size
  · exact hinit.virtualAddr
  · exact hinit.inFileAddr
  · exact hinit.size
  · exact huninit.virtualAddr
  · exact huninit.inFileAddr
  · exact huninit.size

/-- What was copied is found in the output. -/
theorem Converter.Holds.isSegment {seg : Segment} {s : Scnhdr} (h : c.Holds content seg s) :
    IsSegment content (c.noffH.bytes ++ c.body) seg s := by
  obtain ⟨hva, hsize, k, hk, hbytes, -⟩ := h
  refine ⟨hva, hsize, ?_⟩
  have haddr : seg.inFileAddr.toNat = c.noffH.bytes.length + k := by
    rw [NoffHeader.length_bytes]
    omega
  unfold Segment.bytes
  rw [haddr, List.drop_length_add_append, hsize]
  exact hbytes

/-- The program is kept when the uninitialised data tiles a range and all sections of code are the
same. -/
theorem Converter.Loaded.preserved_iff (h : c.Loaded content (sectionsOf content))
    (hw : CoffFile content) :
    Preserved content (c.noffH.bytes ++ c.body) ↔
      Tiles (bssOf (sectionsOf content)) ∧
        ∀ s ∈ textOf (sectionsOf content), ∀ t ∈ textOf (sectionsOf content),
          s.sPaddr = t.sPaddr ∧ s.sSize = t.sSize ∧ s.bytes content = t.bytes content := by
  have hheader := readHeader_output h
  have hmem : ∀ {s}, s ∈ textOf (sectionsOf content) ↔ s ∈ sectionsOf content ∧ s.IsText := by
    intro s
    unfold textOf
    rw [List.mem_filter, decide_eq_true_iff]
  have hbss : (∀ a : Int, (c.noffH.uninitData.virtualAddr ≤ a ∧
      a < c.noffH.uninitData.virtualAddr + c.noffH.uninitData.size) ↔
        ∃ s ∈ sectionsOf content, s.IsBss ∧ s.sPaddr ≤ a ∧ a < s.sPaddr + s.sSize) ↔
      Tiles (bssOf (sectionsOf content)) := by
    have hsections : ∀ a : Int, (∃ s ∈ sectionsOf content, s.IsBss ∧ s.sPaddr ≤ a ∧
        a < s.sPaddr + s.sSize) ↔
          ∃ s ∈ bssOf (sectionsOf content), s.sPaddr ≤ a ∧ a < s.sPaddr + s.sSize := by
      intro a
      simp only [mem_bssOf, and_assoc]
    simp only [hsections]
    rcases h.bss with ⟨hnil, hzero⟩ | ⟨-, hva, htotal⟩
    · rw [hnil]
      refine iff_of_true (fun a => iff_of_false (by omega) (by simp)) ⟨List.Pairwise.nil, by simp⟩
    · rw [hva, htotal]
      exact union_eq_range (fun b hb => hw.sections b (mem_bssOf.mp hb).1)
        fun b hb => (mem_bssOf.mp hb).2.1
  rw [← hbss]
  constructor
  · intro hp
    refine ⟨by simpa only [hheader] using hp.bss, fun s hs t ht => ?_⟩
    have hs' := hp.text s (hmem.mp hs).1 (hmem.mp hs).2
    have ht' := hp.text t (hmem.mp ht).1 (hmem.mp ht).2
    exact ⟨hs'.virtualAddr.symm.trans ht'.virtualAddr, hs'.size.symm.trans ht'.size,
      hs'.bytes.symm.trans ht'.bytes⟩
  · rintro ⟨hrange, htext⟩
    refine ⟨fun s hs ht => ?_, fun s hs hd => ?_, by simpa only [hheader] using hrange⟩
    · -- the header describes the last section of code
      have hin : s ∈ textOf (sectionsOf content) := hmem.mpr ⟨hs, ht⟩
      obtain ⟨t, hlast⟩ : ∃ t, (textOf (sectionsOf content)).getLast? = some t :=
        Option.isSome_iff_exists.mp (List.getLast?_isSome.mpr (List.ne_nil_of_mem hin))
      have hseg := (h.text t hlast).isSegment
      obtain ⟨hpaddr, hsize, hbytes⟩ := htext s hin t (List.mem_of_getLast? hlast)
      rw [hheader]
      exact ⟨hseg.virtualAddr.trans hpaddr.symm, hseg.size.trans hsize.symm,
        hseg.bytes.trans hbytes.symm⟩
    · have hin : s ∈ dataOf (sectionsOf content) := by
        unfold dataOf
        rw [List.mem_filter, decide_eq_true_iff]
        exact ⟨hs, hd⟩
      rcases h.data with ⟨hnil, -⟩ | ⟨d, hone, hholds⟩
      · rw [hnil] at hin
        cases hin
      · rw [hone] at hin
        rw [List.mem_singleton.mp hin, hheader]
        exact hholds.isSegment

end Output

/-- Two sections are apart when the second does not follow the first. -/
theorem apart_pair {b₁ b₂ : Scnhdr} : Apart [b₁, b₂] ↔ b₂.sPaddr ≠ b₁.sPaddr + b₁.sSize := by
  have hone : Apart ([] ++ [b₁]) := apart_snoc.mpr ⟨apart_nil, fun hne => absurd rfl hne⟩
  have hpair : Apart ([b₁] ++ [b₂]) ↔ _ := apart_snoc
  rw [total_singleton] at hpair
  refine hpair.trans ⟨fun h => h.2 (List.cons_ne_nil _ _), fun h => ⟨hone, fun _ => h⟩⟩

/-- Exactly when `coff2noff` keeps the program of a file. -/
theorem preserves_iff (content memory : List Byte) (hw : CoffFile content) :
    Preserves content memory ↔
      (Readable content → Convertible content (sectionsOf content) → Harmless content) := by
  rcases coff2noff_cases memory hw with ⟨c, hmain, hc, hreadable⟩ | ⟨hmain, hnot⟩
  · have hpreserved := hc.preserved_iff hw
    constructor
    · intro hp _ hconv
      obtain ⟨htiles, htext⟩ := hpreserved.mp (hp.keeps _ hmain)
      refine ⟨fun htwo => ?_, fun _ => htiles, fun _ => htext⟩
      -- the two sections were accepted, so they are not contiguous
      obtain ⟨b₁, b₂, hpair⟩ := List.length_eq_two.mp htwo
      have hcontiguous := (hp.accepts b₁ b₂ hreadable hconv hpair).mp (by rw [hmain]; rfl)
      exact apart_pair.mp (hpair ▸ hc.apart) hcontiguous
    · intro hgood
      have hharmless := hgood hreadable hc.convertible
      refine ⟨fun output houtput => ?_, fun b₁ b₂ _ _ hpair => ?_⟩
      · rw [hmain] at houtput
        obtain rfl := Option.some.inj houtput
        exact hpreserved.mpr ⟨hharmless.tiles hc.apart, hharmless.text hc.apart⟩
      · exact absurd (by rw [hpair]; rfl) hharmless.bss
  · constructor
    · intro hp hreadable hconv
      have hnotApart : ¬ Apart (bssOf (sectionsOf content)) := fun h => hnot ⟨hreadable, hconv, h⟩
      refine ⟨fun htwo => ?_, fun h => absurd h hnotApart, fun h => absurd h hnotApart⟩
      -- the two sections were rejected, so they are contiguous
      obtain ⟨b₁, b₂, hpair⟩ := List.length_eq_two.mp htwo
      have haccepts := hp.accepts b₁ b₂ hreadable hconv hpair
      rw [hmain] at haccepts
      rw [hpair, apart_pair, not_not] at hnotApart
      exact absurd (haccepts.mpr hnotApart) (by simp)
    · intro hgood
      refine ⟨fun output houtput => ?_, fun b₁ b₂ hreadable hconv hpair => ?_⟩
      · rw [hmain] at houtput
        cases houtput
      · exact absurd (by rw [hpair]; rfl) (hgood hreadable hconv).bss

/-- The file header and the system header, with the number of sections. -/
def headers (n : Byte) : List Byte :=
  [0x62, 0x01, n, 0] ++ List.replicate 16 0 ++ [0x07, 0x01] ++ List.replicate 54 0

/-- A section header, with the name padded and with one byte for each of the numbers. -/
def sectionHeader (name : List Byte) (paddr size scnptr : Byte) : List Byte :=
  name ++ [paddr, 0, 0, 0, paddr, 0, 0, 0, size, 0, 0, 0, scnptr, 0, 0, 0] ++ List.replicate 16 0

/-- Four bytes of code at address 0 and eight bytes of uninitialised data behind them. -/
def textBss : List Byte :=
  headers 2 ++ sectionHeader [0x2e, 0x74, 0x65, 0x78, 0x74, 0, 0, 0] 0 4 156 ++
    sectionHeader [0x2e, 0x62, 0x73, 0x73, 0, 0, 0, 0] 4 8 0 ++ [0x11, 0x22, 0x33, 0x44]

/-- One section of each kind. -/
theorem preserves_textBss : CoffFile textBss ∧ Preserves textBss [] := by
  have hsections : sectionsOf textBss = [⟨chars ".text", 0, 4, 156⟩, ⟨chars ".bss", 4, 8, 0⟩] := by
    decide
  have htext : textOf (sectionsOf textBss) = [⟨chars ".text", 0, 4, 156⟩] := by decide
  have hbss : bssOf (sectionsOf textBss) = [⟨chars ".bss", 4, 8, 0⟩] := by decide
  have hw : CoffFile textBss := by
    refine ⟨?_, by decide⟩
    rw [hsections, List.forall_mem_cons, List.forall_mem_singleton]
    exact ⟨⟨by decide, by decide, by decide⟩, by decide, by decide, by decide⟩
  refine ⟨hw, (preserves_iff textBss [] hw).mpr fun _ _ => ⟨by decide, fun _ => ?_, fun _ => ?_⟩⟩
  · rw [hbss]
    refine ⟨List.pairwise_singleton _ _, ?_⟩
    rw [List.forall_mem_singleton]
    decide
  · rw [htext, List.forall_mem_singleton, List.forall_mem_singleton]
    exact ⟨rfl, rfl, rfl⟩

/-- The sections `.sbss` and `.bss` as the linker script of the test programs places them: four bytes
each, the second behind the first. -/
def sbssBss : List Byte :=
  headers 2 ++ sectionHeader [0x2e, 0x73, 0x62, 0x73, 0x73, 0, 0, 0] 0 4 0 ++
    sectionHeader [0x2e, 0x62, 0x73, 0x73, 0, 0, 0, 0] 4 4 0

/-- The two sections are contiguous, and the file is rejected. -/
theorem not_preserves_sbssBss : CoffFile sbssBss ∧ ¬ Preserves sbssBss [] := by
  have hsections : sectionsOf sbssBss = [⟨chars ".sbss", 0, 4, 0⟩, ⟨chars ".bss", 4, 4, 0⟩] := by
    decide
  have hbss : bssOf (sectionsOf sbssBss) = [⟨chars ".sbss", 0, 4, 0⟩, ⟨chars ".bss", 4, 4, 0⟩] := by
    decide
  refine ⟨⟨?_, by decide⟩, fun hp => ?_⟩
  · rw [hsections, List.forall_mem_cons, List.forall_mem_singleton]
    exact ⟨⟨by decide, by decide, by decide⟩, by decide, by decide, by decide⟩
  · have hconv : Convertible sbssBss (sectionsOf sbssBss) := by
      rw [hsections]
      refine ⟨by decide, ?_, by decide⟩
      rw [List.forall_mem_cons, List.forall_mem_singleton]
      exact ⟨fun h => absurd h (by decide), fun h => absurd h (by decide)⟩
    have hreadable : Readable sbssBss := by
      refine ⟨?_, by decide, by decide⟩
      rw [show numsections sbssBss = 2 by decide]
      exact Nat.le_refl 156
    have haccepts := hp.accepts _ _ hreadable hconv hbss
    exact absurd (haccepts.mpr (by decide)) (by decide)

end Coff

end Nachos
