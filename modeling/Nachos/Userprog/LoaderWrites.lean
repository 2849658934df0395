import Nachos.Userprog.LoaderLog

/-!
# Which headers keep `AddrSpace(char*)` in its frames

The constructor adds `code.virtualAddr` to the start of every frame. It takes the number of code
pages from the size of the code, and the number of data pages from the size of the initialised data
and the room beside the code; `numPages` comes from a sum that wraps around. Nothing compares them.

`NoffHeader.KeepsFrames` says with the fields of the header when the pages that the copies reach are
below `numPages` and `code.virtualAddr` keeps them in their frames. These are exactly the headers
for which the constructor writes only frames that it has obtained, whatever the bitmap and the rest
of the file are (`ownFramesOnly_iff`).
-/

namespace Nachos

open CInt Machine

/-! ## Loops over pages -/

/-- A loop of the constructor over `count` pages from page `k` on. -/
def loopCopies (count k : Nat) (virtualAddr : Int) (numBytes : Nat → Int) (position : Int) :
    List Copy :=
  (List.range count).map fun j =>
    ⟨.page (k + j) virtualAddr, numBytes j, s32 (position + j * pageSize)⟩

/-- The pages that can be read from `position` on before the offset in the file is negative. -/
def readablePages (position : Int) : Nat :=
  if position < 0 then 0 else ((2 ^ 31 + pageSize - 1 - position) / pageSize).toNat

theorem copiesFit_map_range {n : Nat} {f : Nat → Copy} {count : Nat} :
    CopiesFit n ((List.range count).map f) ↔
      ∀ j, j < count → (∀ j', j' < j → 0 ≤ (f j').position) → (f j).Fits n := by
  induction count with
  | zero => simp [CopiesFit]
  | succ count ih =>
    rw [List.range_succ, List.map_append, copiesFit_append, ih]
    simp only [List.map_cons, List.map_nil, CopiesFit, imp_true_iff, and_true, List.forall_mem_map,
      List.mem_range]
    constructor
    · rintro ⟨hbefore, hlast⟩ j hj hreached
      rcases Nat.lt_succ_iff_lt_or_eq.mp hj with hj | rfl
      · exact hbefore j hj hreached
      · exact hlast hreached
    · intro h
      exact ⟨fun j hj => h j (by omega), h count (by omega)⟩

/-- The loop gets to page `j` if the offsets of the pages before it do not overflow. -/
theorem reached_iff {position : Int} (hlow : -2 ^ 31 ≤ position) (hhigh : position < 2 ^ 31 + 512)
    (j : Nat) :
    (∀ j', j' < j → 0 ≤ s32 (position + j' * pageSize)) ↔ j ≤ readablePages position := by
  unfold readablePages pageSize
  constructor
  · intro h
    by_contra hlt
    -- the first page whose offset is not an `int`
    have hfirst := h _ (Nat.lt_of_not_le hlt)
    revert hfirst
    unfold s32
    rw [Int.bmod_def]
    split_ifs <;> omega
  · intro hj j' hj'
    rw [s32_of_bounds]
    all_goals
      split_ifs at hj <;> omega

theorem copiesFit_loopCopies {n count k : Nat} {virtualAddr position : Int} {numBytes : Nat → Int}
    (hlow : -2 ^ 31 ≤ position) (hhigh : position < 2 ^ 31 + 512) :
    CopiesFit n (loopCopies count k virtualAddr numBytes position) ↔
      ∀ j, j < count → j ≤ readablePages position → k + j < n ∧
        (j < readablePages position → Placed n (k + j) virtualAddr (numBytes j)) := by
  unfold loopCopies
  rw [copiesFit_map_range]
  refine forall_congr' fun j => imp_congr_right fun hj => ?_
  rw [reached_iff hlow hhigh]
  refine imp_congr_right fun hreached => ?_
  have hnext : 0 ≤ s32 (position + j * pageSize) ↔ j < readablePages position := by
    rw [← Nat.succ_le_iff, ← reached_iff hlow hhigh]
    constructor
    · intro hpos j' hj'
      rcases Nat.lt_succ_iff_lt_or_eq.mp hj' with hj' | rfl
      · exact (reached_iff hlow hhigh j).mpr hreached j' hj'
      · exact hpos
    · intro h
      exact h j (Nat.lt_succ_self j)
  constructor
  · rintro ⟨i, offset, htarget, hi, hplaced⟩
    obtain ⟨rfl, rfl⟩ := Target.page.inj htarget
    exact ⟨hi, fun hlt => hplaced (hnext.mpr hlt)⟩
  · rintro ⟨hi, hplaced⟩
    exact ⟨k + j, virtualAddr, rfl, hi, fun hpos => hplaced (hnext.mp hpos)⟩

/-- The loop gets to its end. -/
theorem loopCopies_complete {count k : Nat} {virtualAddr position : Int} {numBytes : Nat → Int}
    (hlow : -2 ^ 31 ≤ position) (hhigh : position < 2 ^ 31 + 512) :
    (∀ c ∈ loopCopies count k virtualAddr numBytes position, 0 ≤ c.position) ↔
      count ≤ readablePages position := by
  rw [← reached_iff hlow hhigh]
  unfold loopCopies
  simp only [List.forall_mem_map, List.mem_range]

/-- `size` bytes of the file from `position` on, copied page by page to `virtualAddr` of the pages
from `k` on: the pages that the loop gets to are below `n`, and the bytes that it reads stay in the
frames. -/
def PagesFit (n k : Nat) (virtualAddr size position : Int) : Prop :=
  0 < size →
    k + min (divRoundUp size.toNat pageSize) (readablePages position + 1) ≤ n ∧
      (0 < readablePages position → Placed n k virtualAddr
        (min size (if n = numPhysPages then readablePages position * pageSize else pageSize)))

instance (n k : Nat) (virtualAddr size position : Int) :
    Decidable (PagesFit n k virtualAddr size position) :=
  inferInstanceAs (Decidable (_ < _ → _ ∧ _))

section PagesFit

variable {n k count R : Nat} {virtualAddr size : Int}

/-- The pages that a loop gets to are below `n`. -/
theorem pages_below_iff (hcount : 0 < count) :
    (∀ j, j < count → j ≤ R → k + j < n) ↔ k + min count (R + 1) ≤ n := by
  constructor
  · intro h
    have hlast := h (min count (R + 1) - 1) (by omega) (by omega)
    omega
  · intro h j hj hR
    omega

/-- What a loop over `count` pages copies into page `j`. -/
def pageBytes (count : Nat) (lastSize : Int) (j : Nat) : Int :=
  if j < count - 1 then pageSize else lastSize

theorem placed_pages_iff (hsize : 0 < size) (hlow : (count - 1) * 512 < size)
    (hhigh : size ≤ count * 512) (hR : 0 < R) :
    (∀ j, j < count → j < R →
      Placed n (k + j) virtualAddr (pageBytes count (size - (count - 1) * 512) j)) ↔
      Placed n k virtualAddr (min size (if n = numPhysPages then (R : Int) * pageSize else pageSize)) := by
  unfold Placed pageBytes memorySize numPhysPages pageSize
  by_cases hall : n = 128
  · -- all frames: from the first byte of the first page to the last byte of the last one
    simp only [if_pos hall]
    constructor
    · intro h
      have hfirst := h 0 (by omega) hR
      have hlast := h (min count R - 1) (by omega) (by omega)
      split_ifs at hfirst hlast <;> omega
    · intro h j hj hjR
      split_ifs <;> omega
  · -- the first page is as full as any other
    simp only [if_neg hall]
    constructor
    · intro h
      have hfirst := h 0 (by omega) hR
      split_ifs at hfirst <;> omega
    · intro h j hj hjR
      split_ifs <;> omega

end PagesFit

theorem divRoundUp_bounds {size : Int} (h : 0 < size) :
    ((divRoundUp size.toNat pageSize : Nat) - 1 : Int) * 512 < size ∧
      size ≤ (divRoundUp size.toNat pageSize : Nat) * 512 := by
  unfold divRoundUp pageSize
  split_ifs <;> omega

/-- A loop over the pages of `size` bytes. -/
theorem copiesFit_iff_pagesFit {n k count : Nat} {virtualAddr size position lastSize : Int}
    (hsize : 0 < size) (hcount : count = divRoundUp size.toNat pageSize)
    (hlast : lastSize = size - (count - 1) * 512)
    (hlow : -2 ^ 31 ≤ position) (hhigh : position < 2 ^ 31 + 512) :
    CopiesFit n (loopCopies count k virtualAddr (pageBytes count lastSize) position) ↔
      PagesFit n k virtualAddr size position := by
  obtain ⟨hbefore, hend⟩ := divRoundUp_bounds hsize
  rw [← hcount] at hbefore hend
  have hpos : 0 < count := by omega
  rw [copiesFit_loopCopies hlow hhigh, PagesFit, imp_iff_right hsize, ← hcount,
    ← pages_below_iff hpos, hlast]
  constructor
  · intro h
    refine ⟨fun j hj hR => (h j hj hR).1, fun hR => ?_⟩
    exact (placed_pages_iff hsize hbefore hend hR).mp fun j hj hjR => (h j hj hjR.le).2 hjR
  · rintro ⟨hbelow, hplaced⟩ j hj hR
    refine ⟨hbelow j hj hR, fun hjR => ?_⟩
    exact (placed_pages_iff hsize hbefore hend (by omega)).mpr (hplaced (by omega)) j hj hjR

/-- A loop over more pages than there are frames is as good as one over the largest size. -/
theorem copiesFit_iff_of_large {n count : Nat} {virtualAddr position lastSize : Int}
    (hn : n ≤ numPhysPages) (hcount : 2 ^ 22 < count) (hlow : -2 ^ 31 ≤ position)
    (hhigh : position < 2 ^ 31 + 512) :
    CopiesFit n (loopCopies count 0 virtualAddr (pageBytes count lastSize) position) ↔
      PagesFit n 0 virtualAddr (2 ^ 31) position := by
  unfold numPhysPages at hn
  have hlargest : CopiesFit n (loopCopies (2 ^ 22) 0 virtualAddr
      (pageBytes (2 ^ 22) (2 ^ 31 - ((2 ^ 22 : Nat) - 1) * 512)) position) ↔
      PagesFit n 0 virtualAddr (2 ^ 31) position :=
    copiesFit_iff_pagesFit (by decide) (by decide) rfl hlow hhigh
  rw [← hlargest, copiesFit_loopCopies hlow hhigh, copiesFit_loopCopies hlow hhigh]
  -- both loops fail at page 128 unless the offset overflows before
  have hsame : ∀ j, j < 129 → pageBytes count lastSize j =
      pageBytes (2 ^ 22) (2 ^ 31 - ((2 ^ 22 : Nat) - 1) * 512) j := by
    intro j hj
    unfold pageBytes
    rw [if_pos (by omega), if_pos (by omega)]
  constructor
  · intro h j hj hR
    have hj' : j < 129 := by
      by_contra hge
      have := (h 128 (by omega) (by omega)).1
      omega
    rw [← hsame j hj']
    exact h j (by omega) hR
  · intro h j hj hR
    have hj' : j < 129 := by
      by_contra hge
      have := (h 128 (by omega) (by omega)).1
      omega
    rw [hsame j hj']
    exact h j (by omega) hR

/-! ## The copies of any header -/

/-- The fields that the copies depend on are `int`s. -/
structure NoffHeader.IsInt (h : NoffHeader) : Prop where
  codeSize : -2 ^ 31 ≤ h.code.size ∧ h.code.size < 2 ^ 31
  codeFile : -2 ^ 31 ≤ h.code.inFileAddr ∧ h.code.inFileAddr < 2 ^ 31
  initSize : -2 ^ 31 ≤ h.initData.size ∧ h.initData.size < 2 ^ 31
  initFile : -2 ^ 31 ≤ h.initData.inFileAddr ∧ h.initData.inFileAddr < 2 ^ 31

theorem intAt_bounds (content : List Byte) (offset : Nat) :
    -2 ^ 31 ≤ intAt content offset ∧ intAt content offset < 2 ^ 31 := by
  unfold intAt
  exact ⟨BitVec.le_toInt _, BitVec.toInt_lt⟩

theorem isInt_readHeader (content : List Byte) : (readHeader content).IsInt :=
  ⟨intAt_bounds content _, intAt_bounds content _, intAt_bounds content _, intAt_bounds content _⟩

/-- `divRoundUp` rounds up on negative `int`s too. -/
theorem divRoundUpInt_bounds (x : Int) :
    x ≤ divRoundUpInt x 512 * 512 ∧ divRoundUpInt x 512 * 512 < x + 512 := by
  by_cases hx : 0 ≤ x
  · rw [divRoundUpInt_of_nonneg hx]
    split_ifs <;> omega
  · have hdiv : x.tdiv 512 = -(-x / 512) := by
      rw [← Int.tdiv_eq_ediv_of_nonneg (by omega : 0 ≤ -x), Int.neg_tdiv, Int.neg_neg]
    have hmod : ¬ x.tmod 512 > 0 := by
      have h := Int.mul_tdiv_add_tmod x 512
      rw [hdiv] at h
      omega
    unfold divRoundUpInt
    rw [if_neg hmod, hdiv]
    omega

namespace NoffHeader

variable (h : NoffHeader)

/-- The room that the code leaves in its last page. -/
def room : Int := divRoundUpInt h.code.size 512 * 512 - h.code.size

/-- The pages of a code segment whose size is not negative. -/
def codePages : Nat := divRoundUp h.code.size.toNat pageSize

/-- `numBytes` of initialised data, copied beside the end of the code, stay in the frames. -/
def BesideCode (numBytes : Int) : Prop :=
  0 < numBytes → 0 ≤ h.initData.inFileAddr →
    Placed h.numPages (h.codePages - 1) (h.code.virtualAddr + (512 - h.room)) numBytes

/-- The initialised data stays in the frames once the code is copied: beside the end of the code and,
if it does not fit there, in the pages that follow. -/
def DataFits : Prop :=
  if h.initData.size < h.room ∧ -2 ^ 31 ≤ h.initData.size - h.room then
    h.BesideCode h.initData.size
  else
    h.BesideCode h.room ∧ ((0 < h.room → 0 ≤ h.initData.inFileAddr) →
      PagesFit h.numPages h.codePages h.code.virtualAddr ((h.initData.size - h.room) % 2 ^ 32)
        (h.initData.inFileAddr + h.room))

/-- The header asks for more frames than there are, so that nothing is copied, or the copies keep to
the frames. A code size of `-PageSize` or less makes the number of code pages wrap around; one
between `-PageSize` and 0 gives no code page, and initialised data is then put beside the end of
page -1. -/
def KeepsFrames : Prop :=
  numPhysPages < h.numPages ∨
    if h.code.size ≤ -512 then
      PagesFit h.numPages 0 h.code.virtualAddr (2 ^ 31) h.code.inFileAddr
    else if h.code.size < 0 then
      h.initData.size ≤ 0 ∧ -2 ^ 31 ≤ h.code.size + h.initData.size
    else
      PagesFit h.numPages 0 h.code.virtualAddr h.code.size h.code.inFileAddr ∧
        (h.codePages ≤ readablePages h.code.inFileAddr → h.DataFits)

instance (numBytes : Int) : Decidable (h.BesideCode numBytes) :=
  inferInstanceAs (Decidable (_ < _ → _ ≤ _ → _))

instance : Decidable h.DataFits := inferInstanceAs (Decidable (@ite Prop _ _ _ _))

instance : Decidable h.KeepsFrames :=
  inferInstanceAs (Decidable (_ < _ ∨ @ite Prop _ _ _ _))

variable {h}

theorem room_bounds (h : NoffHeader) : 0 ≤ h.room ∧ h.room < 512 := by
  have hbounds := divRoundUpInt_bounds h.code.size
  unfold room
  omega

theorem lastCodePageSize_room (h : NoffHeader) : h.lastCodePageSize = 512 - h.room := by
  have hbounds := divRoundUpInt_bounds h.code.size
  unfold NoffHeader.lastCodePageSize numCodePage u32 s32 room
  rw [Int.bmod_def, show (pageSize : Int) = 512 from rfl]
  split_ifs <;> omega

theorem tempDataSize_room (h : NoffHeader) : h.tempDataSize = s32 (h.initData.size - h.room) := by
  unfold NoffHeader.tempDataSize
  rw [h.lastCodePageSize_room, show (pageSize : Int) = 512 from rfl]
  congr 1
  omega

theorem IsInt.tempDataSize_neg_iff (hw : h.IsInt) : h.tempDataSize < 0 ↔
    h.initData.size < h.room ∧ -2 ^ 31 ≤ h.initData.size - h.room := by
  have hroom := h.room_bounds
  have hsize := hw.initSize
  rw [h.tempDataSize_room]
  unfold s32
  rw [Int.bmod_def]
  split_ifs <;> omega

theorem tempDataSize_of_nonneg (ht : ¬ h.tempDataSize < 0) :
    h.tempDataSize = (h.initData.size - h.room) % 2 ^ 32 ∧ h.tempDataSize < 2 ^ 31 := by
  rw [h.tempDataSize_room] at ht ⊢
  unfold s32 at *
  rw [Int.bmod_def] at *
  split_ifs at * <;> omega

theorem firstDataPageSize_room (ht : ¬ h.tempDataSize < 0) :
    h.firstDataPageSize = h.room := by
  rw [firstDataPageSize_eq (Int.not_lt.mp ht), h.lastCodePageSize_room]
  omega

theorem numDataPage_temp (ht : ¬ h.tempDataSize < 0) :
    h.numDataPage = divRoundUp h.tempDataSize.toNat pageSize := by
  obtain ⟨-, hhigh⟩ := tempDataSize_of_nonneg ht
  have hcast : (h.tempDataSize.toNat : Int) = h.tempDataSize := Int.toNat_of_nonneg (by omega)
  have hbound : divRoundUp h.tempDataSize.toNat pageSize < 2 ^ 32 := by
    unfold divRoundUp pageSize
    split_ifs <;> omega
  unfold NoffHeader.numDataPage
  rw [if_neg ht, ← hcast, divRoundUpInt_natCast, Int.toNat_natCast]
  have hu32 := u32_of_nonneg (x := (divRoundUp h.tempDataSize.toNat pageSize : Nat)) (by omega)
    (by omega)
  omega

theorem lastDataPageSize_temp (ht : 0 < h.tempDataSize) :
    h.lastDataPageSize = h.tempDataSize - (h.numDataPage - 1) * 512 := by
  obtain ⟨-, hhigh⟩ := tempDataSize_of_nonneg (Int.not_lt.mpr ht.le)
  have hpages := numDataPage_temp (Int.not_lt.mpr ht.le)
  obtain ⟨hbefore, hend⟩ := divRoundUp_bounds ht
  rw [← hpages] at hbefore hend
  unfold NoffHeader.lastDataPageSize
  rw [show (pageSize : Int) = 512 from rfl]
  apply s32_of_bounds
  · omega
  · omega

theorem codeCopies_eq (h : NoffHeader) : h.codeCopies = loopCopies h.numCodePage 0
    h.code.virtualAddr (pageBytes h.numCodePage h.lastCodePageSize) h.code.inFileAddr := by
  unfold codeCopies loopCopies pageBytes
  simp only [Nat.zero_add]

theorem dataCopies_eq (h : NoffHeader) : h.dataCopies = loopCopies h.numDataPage h.numCodePage
    h.code.virtualAddr (pageBytes h.numDataPage h.lastDataPageSize)
    (h.initData.inFileAddr + h.firstDataPageSize) := by
  unfold dataCopies loopCopies pageBytes
  refine List.map_congr_left fun j _ => ?_
  rw [Int.add_right_comm]

theorem dataCopies_eq_nil (ht : h.tempDataSize < 0) : h.dataCopies = [] := by
  unfold dataCopies numDataPage
  rw [if_pos ht]
  rfl

theorem isPage_loopCopies {count k : Nat} {virtualAddr lastSize position : Int}
    (hlow : 0 < lastSize) (hhigh : lastSize ≤ 512) :
    ∀ c ∈ loopCopies count k virtualAddr (pageBytes count lastSize) position, c.IsPage := by
  intro c hc
  obtain ⟨j, -, rfl⟩ := List.mem_map.mp hc
  refine ⟨⟨k + j, virtualAddr, rfl⟩, ?_⟩
  simp only [pageBytes, pageSize]
  split_ifs <;> omega

theorem IsInt.isPage (hw : h.IsInt) : ∀ c ∈ h.pageCopies, c.IsPage := by
  have hroom := h.room_bounds
  have hlast := h.lastCodePageSize_room
  intro c hc
  rcases List.mem_append.mp hc with hc | hc
  · rcases List.mem_append.mp hc with hc | hc
    · rw [codeCopies_eq] at hc
      exact isPage_loopCopies (by omega) (by omega) c hc
    · unfold sharedCopies at hc
      split_ifs at hc with hcond
      · rw [List.mem_singleton.mp hc]
        have hsize := hw.initSize
        have hfirst : h.firstDataPageSize < 2 ^ 32 := by
          unfold NoffHeader.firstDataPageSize pageSize
          split_ifs <;> omega
        exact ⟨⟨_, _, rfl⟩, hcond.2, hfirst⟩
      · cases hc
  · rw [dataCopies_eq] at hc
    by_cases ht : 0 < h.tempDataSize
    · obtain ⟨hbefore, hend⟩ := divRoundUp_bounds ht
      rw [← numDataPage_temp (Int.not_lt.mpr ht.le)] at hbefore hend
      have hlastData := lastDataPageSize_temp ht
      exact isPage_loopCopies (by omega) (by omega) c hc
    · -- there are no such pages
      have hzero : h.numDataPage = 0 := by
        by_cases hneg : h.tempDataSize < 0
        · exact if_pos hneg
        · rw [numDataPage_temp hneg, show h.tempDataSize = 0 by omega]
          rfl
      rw [hzero] at hc
      cases hc

/-- The three parts of the copies. -/
theorem IsInt.copiesFit_pageCopies (hw : h.IsInt) (n : Nat) : CopiesFit n h.pageCopies ↔
    CopiesFit n h.codeCopies ∧ (h.numCodePage ≤ readablePages h.code.inFileAddr →
      CopiesFit n h.sharedCopies ∧
        ((∀ c ∈ h.sharedCopies, 0 ≤ c.position) → CopiesFit n h.dataCopies)) := by
  obtain ⟨hlow, hhigh⟩ := hw.codeFile
  have hcomplete : (∀ c ∈ h.codeCopies, 0 ≤ c.position) ↔
      h.numCodePage ≤ readablePages h.code.inFileAddr := by
    rw [codeCopies_eq]
    exact loopCopies_complete hlow (by omega)
  unfold pageCopies
  rw [copiesFit_append, copiesFit_append, List.forall_mem_append, hcomplete]
  tauto

theorem readablePages_le (position : Int) : readablePages position ≤ 2 ^ 22 := by
  unfold readablePages pageSize
  split_ifs <;> omega

/-- The number of code pages wraps around. -/
theorem IsInt.copiesFit_of_wrapped (hw : h.IsInt) (hsize : h.code.size ≤ -512) {n : Nat}
    (hn : n ≤ numPhysPages) : CopiesFit n h.pageCopies ↔
      PagesFit n 0 h.code.virtualAddr (2 ^ 31) h.code.inFileAddr := by
  have hbounds := divRoundUpInt_bounds h.code.size
  have hsize' := hw.codeSize
  obtain ⟨hlow, hhigh⟩ := hw.codeFile
  have hpages : 2 ^ 22 < h.numCodePage := by
    unfold numCodePage u32
    rw [show (pageSize : Int) = 512 from rfl]
    omega
  have hreadable := readablePages_le h.code.inFileAddr
  rw [hw.copiesFit_pageCopies, codeCopies_eq, copiesFit_iff_of_large hn hpages hlow (by omega)]
  exact and_iff_left fun hcomplete => by omega

/-- There is no code page, and initialised data would go into page -1. -/
theorem IsInt.copiesFit_of_noPage (hw : h.IsInt) (hlow : -512 < h.code.size) (hneg : h.code.size < 0)
    {n : Nat} (hn : n ≤ numPhysPages) : CopiesFit n h.pageCopies ↔
      h.initData.size ≤ 0 ∧ -2 ^ 31 ≤ h.code.size + h.initData.size := by
  have hbounds := divRoundUpInt_bounds h.code.size
  have hzero : divRoundUpInt h.code.size 512 = 0 := by omega
  have hroom : h.room = -h.code.size := by
    unfold room
    omega
  have hpages : h.numCodePage = 0 := by
    unfold numCodePage
    rw [show (pageSize : Int) = 512 from rfl, hzero]
    rfl
  have hlast := h.lastCodePageSize_room
  have htemp := hw.tempDataSize_neg_iff
  have hcode : h.codeCopies = [] := by
    rw [codeCopies_eq, hpages]
    rfl
  have hshared : CopiesFit n h.sharedCopies ↔ h.firstDataPageSize ≤ 0 := by
    unfold sharedCopies
    rw [hpages]
    unfold numPhysPages at hn
    unfold pageSize
    split_ifs with hcond
    · refine ⟨fun hfit => ?_, fun hle => absurd hcond.2 (by omega)⟩
      obtain ⟨i, offset, htarget, hi, -⟩ := hfit.1
      obtain ⟨rfl, -⟩ := Target.page.inj htarget
      exact absurd hi (by unfold u32; omega)
    · exact ⟨fun _ => by omega, fun _ => trivial⟩
  rw [hw.copiesFit_pageCopies, hcode, hshared, hpages]
  unfold NoffHeader.firstDataPageSize
  rw [show (pageSize : Int) = 512 from rfl]
  split_ifs with hcond
  · rw [dataCopies_eq_nil hcond]
    simp only [CopiesFit, Nat.zero_le, true_and, imp_true_iff, and_true, true_imp_iff]
    omega
  · simp only [CopiesFit, Nat.zero_le, true_and, true_imp_iff]
    exact ⟨fun hall => absurd hall.1 (by omega), fun hall => absurd (htemp.mpr (by omega)) hcond⟩

theorem codePages_mul (hcode : 0 ≤ h.code.size) :
    (h.codePages : Int) * 512 = h.code.size + h.room := by
  have hcast : (h.code.size.toNat : Int) = h.code.size := Int.toNat_of_nonneg hcode
  have hround := divRoundUpInt_natCast h.code.size.toNat 512
  rw [hcast] at hround
  have hdef : (h.codePages : Int) = divRoundUpInt h.code.size 512 := hround.symm
  unfold room
  omega

section CodePages

variable (hw : h.IsInt) (hcode : 0 ≤ h.code.size)

include hw hcode

theorem IsInt.numCodePage : h.numCodePage = h.codePages := by
  have hsize := hw.codeSize
  have hcast : (h.code.size.toNat : Int) = h.code.size := Int.toNat_of_nonneg hcode
  have hbound : divRoundUp h.code.size.toNat pageSize < 2 ^ 32 := by
    unfold divRoundUp pageSize
    split_ifs <;> omega
  unfold NoffHeader.numCodePage codePages
  rw [← hcast, divRoundUpInt_natCast, Int.toNat_natCast]
  have hu32 := u32_of_nonneg (x := (divRoundUp h.code.size.toNat pageSize : Nat)) (by omega)
    (by omega)
  omega

theorem IsInt.copiesFit_codeCopies (n : Nat) : CopiesFit n h.codeCopies ↔
    PagesFit n 0 h.code.virtualAddr h.code.size h.code.inFileAddr := by
  obtain ⟨hlow, hhigh⟩ := hw.codeFile
  have hmul := codePages_mul hcode
  have hlast := h.lastCodePageSize_room
  have hroom := h.room_bounds
  rw [codeCopies_eq, hw.numCodePage hcode]
  by_cases hpos : 0 < h.code.size
  · exact copiesFit_iff_pagesFit hpos rfl (by omega) hlow (by omega)
  · have hzero : h.codePages = 0 := by omega
    rw [hzero]
    exact iff_of_true trivial fun hsize => absurd hsize hpos

/-- The initialised data beside the end of the code. -/
theorem IsInt.copiesFit_sharedCopies (hpages : h.codePages ≤ h.numPages) :
    CopiesFit h.numPages h.sharedCopies ↔ (0 < h.room → h.BesideCode h.firstDataPageSize) := by
  have hmul := codePages_mul hcode
  have hsize := hw.codeSize
  have hlast := h.lastCodePageSize_room
  have hroom := h.room_bounds
  unfold sharedCopies BesideCode
  rw [hw.numCodePage hcode, hlast, show (pageSize : Int) = 512 from rfl]
  split_ifs with hcond
  · have hindex : u32 (h.codePages - 1) = h.codePages - 1 := by
      have hu32 := u32_of_nonneg (x := h.codePages - 1) (by omega) (by omega)
      omega
    rw [hindex, imp_iff_right (by omega), imp_iff_right hcond.2]
    simp only [CopiesFit, imp_true_iff, and_true]
    constructor
    · rintro ⟨i, offset, htarget, -, hplaced⟩
      obtain ⟨rfl, rfl⟩ := Target.page.inj htarget
      exact hplaced
    · intro hplaced
      exact ⟨_, _, rfl, by omega, hplaced⟩
  · exact iff_of_true trivial fun hpos hfirst => absurd ⟨by omega, hfirst⟩ hcond

/-- The pages of initialised data after the code. -/
theorem IsInt.copiesFit_dataCopies (ht : ¬ h.tempDataSize < 0) (n : Nat) :
    CopiesFit n h.dataCopies ↔ PagesFit n h.codePages h.code.virtualAddr
      ((h.initData.size - h.room) % 2 ^ 32) (h.initData.inFileAddr + h.room) := by
  obtain ⟨hlow, hhigh⟩ := hw.initFile
  have hroom := h.room_bounds
  rw [dataCopies_eq, hw.numCodePage hcode, firstDataPageSize_room ht, ← (tempDataSize_of_nonneg ht).1]
  by_cases hpos : 0 < h.tempDataSize
  · exact copiesFit_iff_pagesFit hpos (numDataPage_temp ht) (lastDataPageSize_temp hpos) (by omega)
      (by omega)
  · have hzero : h.numDataPage = 0 := by
      rw [numDataPage_temp ht, show h.tempDataSize = 0 by omega]
      rfl
    rw [hzero]
    exact iff_of_true trivial fun hsize => absurd hsize hpos

theorem IsInt.copiesFit_data (hpages : h.codePages ≤ h.numPages) :
    CopiesFit h.numPages h.sharedCopies ∧
      ((∀ c ∈ h.sharedCopies, 0 ≤ c.position) → CopiesFit h.numPages h.dataCopies) ↔
      h.DataFits := by
  have htemp := hw.tempDataSize_neg_iff
  have hlast := h.lastCodePageSize_room
  rw [hw.copiesFit_sharedCopies hcode hpages]
  unfold DataFits
  by_cases ht : h.tempDataSize < 0
  · have hfirst : h.firstDataPageSize = h.initData.size := if_pos ht
    rw [if_pos (htemp.mp ht), dataCopies_eq_nil ht, hfirst]
    refine ⟨fun hall hpos => hall.1 (by omega) hpos, fun hbeside => ⟨fun _ => hbeside, fun _ => trivial⟩⟩
  · have hfirst := firstDataPageSize_room ht
    have hreach : (∀ c ∈ h.sharedCopies, 0 ≤ c.position) ↔
        (0 < h.room → 0 ≤ h.initData.inFileAddr) := by
      unfold sharedCopies
      rw [hfirst, hlast, show (pageSize : Int) = 512 from rfl]
      split_ifs with hcond
      · simp only [List.mem_singleton, forall_eq, hcond.2, true_imp_iff]
      · exact iff_of_true (fun c hc => by cases hc) fun hpos => absurd ⟨by omega, hpos⟩ hcond
    rw [if_neg fun hcond => ht (htemp.mpr hcond), hfirst, hreach, hw.copiesFit_dataCopies hcode ht]
    exact and_congr_left' ⟨fun hbeside hpos => hbeside hpos hpos, fun hbeside _ => hbeside⟩

end CodePages

/-- The copies fit exactly when the header says so. -/
theorem IsInt.copiesFit_iff (hw : h.IsInt) (hn : h.numPages ≤ numPhysPages) :
    CopiesFit h.numPages h.pageCopies ↔ h.KeepsFrames := by
  unfold KeepsFrames
  rw [or_iff_right (Nat.not_lt.mpr hn)]
  split_ifs with hwrapped hneg
  · exact hw.copiesFit_of_wrapped hwrapped hn
  · exact hw.copiesFit_of_noPage (by omega) hneg hn
  · have hcode : 0 ≤ h.code.size := by omega
    rw [hw.copiesFit_pageCopies, hw.copiesFit_codeCopies hcode, hw.numCodePage hcode]
    refine and_congr_right fun hfit => imp_congr_right fun hcomplete => ?_
    refine hw.copiesFit_data hcode ?_
    -- the code has been copied, so its pages are there
    by_cases hpos : 0 < h.code.size
    · have hbelow := (hfit hpos).1
      unfold codePages at *
      omega
    · have hmul := codePages_mul hcode
      have hroom := h.room_bounds
      omega

end NoffHeader

/-! ## The constructor -/

/-- What follows the header does not change it. -/
theorem readHeader_append {content : List Byte} (h : noffHeaderSize ≤ content.length)
    (rest : List Byte) : readHeader (content ++ rest) = readHeader content := by
  unfold noffHeaderSize at h
  have hint : ∀ offset, offset + 4 ≤ 40 → intAt (content ++ rest) offset = intAt content offset := by
    intro offset hoffset
    unfold intAt
    congr 1
    apply Bytes.load_congr
    intro i hi hi'
    simp only [List.getD_eq_getElem?_getD]
    rw [List.getElem?_append_left (by omega)]
  unfold readHeader
  simp only [hint _ (by decide : 0 + 4 ≤ 40), hint _ (by decide : 4 + 4 ≤ 40),
    hint _ (by decide : 4 + 4 + 4 ≤ 40), hint _ (by decide : 4 + 8 + 4 ≤ 40),
    hint _ (by decide : 16 + 4 ≤ 40), hint _ (by decide : 16 + 4 + 4 ≤ 40),
    hint _ (by decide : 16 + 8 + 4 ≤ 40), hint _ (by decide : 28 + 4 ≤ 40),
    hint _ (by decide : 28 + 4 + 4 ≤ 40), hint _ (by decide : 28 + 8 + 4 ≤ 40)]

/-- The first loop keeps to the frames that it obtains. -/
theorem within_buildLog {n : Nat} {b : BitMap} {x : Access} (h : x ∈ buildLog 0 n b) :
    x.Within n (obtained n b) := by
  rcases mem_buildLog h with ⟨j, hj, rfl⟩ | ⟨f, hf, rfl⟩
  · show j < n
    omega
  · intro k hk
    refine ⟨f, hf, ?_, ?_⟩
    · omega
    · unfold pageSize at *
      omega

/-- The log of a call that gets its frames. -/
theorem addrSpaceLog_of_allocFrames {executable : List Byte} {b b' : BitMap} {fs : List Nat}
    (hmagic : (readHeader executable).noffMagic = noffMagic)
    (halloc : allocFrames b (readHeader executable).numPages = (some fs, b')) :
    addrSpaceLog executable b = buildLog 0 (readHeader executable).numPages b ++
      copyLog executable (framesOf (newTable fs)) (readHeader executable).pageCopies := by
  have hclear := le_numClear_of_allocFrames halloc
  unfold addrSpaceLog
  rw [if_neg (not_not.mpr hmagic), if_neg (Nat.not_lt.mpr hclear), halloc]

theorem ownFramesOnly_of_few {executable : List Byte} {b : BitMap}
    (hfew : b.numClear < (readHeader executable).numPages) : OwnFramesOnly executable b := by
  intro x hx
  simp [addrSpaceLog, hfew] at hx

/-- With a given header the constructor keeps to the frames that it obtains, for every bitmap and
whatever follows the header in the file, exactly when the header says so. -/
theorem ownFramesOnly_iff (content : List Byte) (hcomplete : noffHeaderSize ≤ content.length)
    (hmagic : (readHeader content).noffMagic = noffMagic) :
    (∀ (executable : List Byte) (b : BitMap), noffHeaderSize ≤ executable.length →
      readHeader executable = readHeader content → b.numBits = numPhysPages →
      OwnFramesOnly executable b) ↔ (readHeader content).KeepsFrames := by
  have hint := isInt_readHeader content
  by_cases hn : (readHeader content).numPages ≤ numPhysPages
  · rw [← hint.copiesFit_iff hn]
    constructor
    · intro h
      refine copiesFit_of_within content hn hint.isPage fun k b fs b' hbits halloc x hx => ?_
      have hheader := readHeader_append hcomplete (List.replicate k 0)
      have hown := h (content ++ List.replicate k 0) b (by simp; omega) hheader hbits x
      rw [addrSpaceLog_of_allocFrames (by rw [hheader, hmagic]) (by rw [hheader, halloc]), hheader,
        obtained_of_allocFrames halloc] at hown
      exact hown (List.mem_append_right _ hx)
    · intro hfit executable b _ hheader hbits
      by_cases hfew : b.numClear < (readHeader executable).numPages
      · exact ownFramesOnly_of_few hfew
      · obtain ⟨fs, b', halloc⟩ := allocFrames_of_le (Nat.le_of_not_lt hfew)
        intro x hx
        rw [addrSpaceLog_of_allocFrames (by rw [hheader, hmagic]) halloc] at hx
        rcases List.mem_append.mp hx with hx | hx
        · exact within_buildLog hx
        · rw [obtained_of_allocFrames halloc]
          rw [hheader] at halloc hx ⊢
          exact hfit.within hbits halloc executable hint.isPage x hx
  · refine iff_of_true (fun executable b _ hheader hbits => ownFramesOnly_of_few ?_)
      (.inl (Nat.lt_of_not_le hn))
    have hsum := b.numMarked_add_numClear
    rw [hheader]
    omega

theorem ownFramesOnly_smallFile : (readHeader smallFile).KeepsFrames ∧
    ∀ (executable : List Byte) (b : BitMap), noffHeaderSize ≤ executable.length →
      readHeader executable = readHeader smallFile → b.numBits = numPhysPages →
      OwnFramesOnly executable b := by
  have hkeeps : (readHeader smallFile).KeepsFrames := by decide +kernel
  exact ⟨hkeeps, (ownFramesOnly_iff smallFile (by decide) (by decide)).mpr hkeeps⟩

/-- `smallFile` with its code at the virtual address 512. -/
def shiftedFile : List Byte :=
  [0xad, 0xdf, 0xba, 0x00,
    0, 2, 0, 0, 40, 0, 0, 0, 5, 0, 0, 0,
    5, 2, 0, 0, 45, 0, 0, 0, 2, 0, 0, 0,
    7, 2, 0, 0, 0, 0, 0, 0, 0, 0, 0, 0,
    0x11, 0x22, 0x33, 0x44, 0x55, 0x66, 0x77]

/-- Its code goes into the frame after that of page 0, which another process has. -/
theorem not_ownFramesOnly_shiftedFile :
    (readHeader shiftedFile).noffMagic = noffMagic ∧ noffHeaderSize ≤ shiftedFile.length ∧
      ¬ OwnFramesOnly shiftedFile ((BitMap.new numPhysPages).mark 1) := by
  refine ⟨by decide, by decide, fun h => ?_⟩
  have hwrite := h (.write 512 5) (by decide +kernel) 0 (by decide)
  revert hwrite
  decide +kernel

end Nachos
