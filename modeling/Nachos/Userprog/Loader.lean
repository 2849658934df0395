import Nachos.Userprog.AddrSpace

/-!
# What `AddrSpace(char*)` loads

The constructor of `userprog/addrspace.cc` from its header to its last `ReadAt`, run to its end
without other threads in between. It copies page by page into frames that need not be adjacent:
full pages of code, the last page of code, the part of the initialised data that fills up that
page, and the other pages of initialised data.

Seen through the new page table the copies are writes to one array of `numPages * PageSize`
bytes. Every copy agrees with the image that the header describes (`pageCopies_faithful`), every
byte of the segments is copied (`pageCopies_cover`), and what is not copied is zero; so the
address space holds the image (`loaded_image`).

Before any of this the constructor takes the frames under `addrLock`: all of them, or none
(`takes_all_or_none`).
-/

namespace Nachos

open CInt Machine

/-- The `ReadAt`s of the constructor, in order. An index outside the page table and an address
outside main memory have no defined outcome, and `Lseek` asserts. -/
def runCopies (executable : List Byte) (frames : List Word) :
    List Copy → (Nat → Byte) → Except Fault (Nat → Byte)
  | [], memory => .ok memory
  | c :: cs, memory =>
    match c.target.resolve frames with
    | none => .error .outOfBounds
    | some into =>
      match readAt executable c.numBytes c.position with
      | none => .error .assertion
      | some bytes =>
        match writeMemory memory into bytes with
        | .error fault => .error fault
        | .ok memory' => runCopies executable frames cs memory'

/-- `AddrSpace::AddrSpace(char *)` on a file that can be opened: the address space, the bitmap of
frames and main memory when it returns. When there are not enough frames the member `pageTable` is
not set; `isNull` says whether it happens to be NULL. -/
def addrSpace (executable : List Byte) (isNull : Bool) (physPageBitMap : BitMap)
    (mainMemory : Nat → Byte) : Except Fault (AddrSpace × BitMap × (Nat → Byte)) :=
  let noffH := readHeader executable
  if noffH.noffMagic ≠ noffMagic then .error .assertion
  else if physPageBitMap.numClear < noffH.numPages then
    .ok ({ pageTable := if isNull then none else some [], numPages := 0 }, physPageBitMap, mainMemory)
  else
    match buildPages noffH.numPages physPageBitMap mainMemory with
    | (some frames, bitmap, memory) =>
      (runCopies executable (framesOf (newTable frames)) noffH.pageCopies memory).map fun memory =>
        ({ pageTable := some (newTable frames), numPages := noffH.numPages }, bitmap, memory)
    | (none, bitmap, memory) => .ok ({ pageTable := some [], numPages := 0 }, bitmap, memory)

/-! ## Taking the frames -/

/-- The frames of a new address space were clear and are different from each other; exactly these
are marked, and exactly these are zeroed. -/
structure Granted (b : BitMap) (memory : Nat → Byte) (frames : List Nat) (b' : BitMap)
    (memory' : Nat → Byte) : Prop where
  allocated : Allocated b frames b'
  zeroed : ∀ a, memory' a = if a / pageSize ∈ frames then 0 else memory a

/-- `numPages` is the size of the address space in pages, rounded up. -/
theorem NoffHeader.Sized.numPages_eq {h : NoffHeader} (hw : h.Sized) : (h.numPages : Int) =
    (h.code.size + h.initData.size + h.uninitData.size + userStackSize + (pageSize - 1)) / pageSize := by
  have hcode := hw.code
  have hinit := hw.init
  have huninit := hw.uninit
  have hmax := hw.noOverflow
  unfold NoffHeader.numPages divRoundUp NoffHeader.size
  unfold userStackSize pageSize at *
  split <;> omega

/-- Frames that were granted were there. -/
theorem Granted.room {b b' : BitMap} {memory memory' : Nat → Byte} {frames : List Nat}
    (h : Granted b memory frames b' memory') : frames.length ≤ b.numClear := by
  have hcount := b.numMarked_add_numClear
  have hcount' := b'.numMarked_add_numClear
  rw [h.allocated.numBits, h.allocated.marked] at hcount'
  omega

/-- The frames are granted exactly when there is a clear one for every page. -/
theorem addrSpace_granted_iff (executable : List Byte) (isNull : Bool) (physPageBitMap : BitMap)
    (mainMemory : Nat → Byte) (hmagic : (readHeader executable).noffMagic = noffMagic) :
    (∃ frames bitmap memory, Granted physPageBitMap mainMemory frames bitmap memory ∧
        frames.length = (readHeader executable).numPages ∧
        addrSpace executable isNull physPageBitMap mainMemory =
          (runCopies executable (framesOf (newTable frames)) (readHeader executable).pageCopies
            memory).map fun memory =>
            ({ pageTable := some (newTable frames), numPages := (readHeader executable).numPages },
              bitmap, memory)) ↔
      (readHeader executable).numPages ≤ physPageBitMap.numClear := by
  constructor
  · rintro ⟨frames, bitmap, memory, hgranted, hlen, -⟩
    rw [← hlen]
    exact hgranted.room
  · intro henough
    obtain ⟨frames, bitmap, memory, hbuild⟩ := buildPages_of_le henough mainMemory
    obtain ⟨halloc, hzeroed⟩ := buildPages_some hbuild
    obtain ⟨hallocated, hlen⟩ := allocFrames_some halloc
    refine ⟨frames, bitmap, memory, ⟨hallocated, hzeroed⟩, hlen, ?_⟩
    unfold addrSpace
    simp only [if_neg (not_not.mpr hmagic), if_neg (not_lt.mpr henough), hbuild]

/-- With too few clear frames nothing is taken. -/
theorem addrSpace_refused (executable : List Byte) (isNull : Bool) (physPageBitMap : BitMap)
    (mainMemory : Nat → Byte) (hmagic : (readHeader executable).noffMagic = noffMagic)
    (hfew : physPageBitMap.numClear < (readHeader executable).numPages) :
    ∃ pageTable, addrSpace executable isNull physPageBitMap mainMemory =
      .ok ({ pageTable := pageTable, numPages := 0 }, physPageBitMap, mainMemory) := by
  unfold addrSpace
  simp only [if_neg (not_not.mpr hmagic), if_pos hfew]
  exact ⟨_, rfl⟩

/-- `AddrSpace(char*)` takes a frame for every page, or it leaves the bitmap and main memory as they
are (`addrSpace_granted_iff` says which). With enough clear frames no `Find` of its loop returns -1. -/
theorem takes_all_or_none (executable : List Byte) (isNull : Bool) (physPageBitMap : BitMap)
    (mainMemory : Nat → Byte) (hmagic : (readHeader executable).noffMagic = noffMagic)
    (hsized : (readHeader executable).Sized) :
    let noffH := readHeader executable
    ((noffH.numPages : Int) = (noffH.code.size + noffH.initData.size + noffH.uninitData.size +
        userStackSize + (pageSize - 1)) / pageSize) ∧
    (noffH.numPages ≤ physPageBitMap.numClear →
      (buildPages noffH.numPages physPageBitMap mainMemory).1 ≠ none) ∧
    ((∃ frames bitmap memory, Granted physPageBitMap mainMemory frames bitmap memory ∧
        frames.length = noffH.numPages ∧
        addrSpace executable isNull physPageBitMap mainMemory =
          (runCopies executable (framesOf (newTable frames)) noffH.pageCopies memory).map fun memory =>
            ({ pageTable := some (newTable frames), numPages := noffH.numPages }, bitmap, memory)) ∨
      ∃ pageTable, addrSpace executable isNull physPageBitMap mainMemory =
        .ok ({ pageTable := pageTable, numPages := 0 }, physPageBitMap, mainMemory)) := by
  dsimp only
  refine ⟨hsized.numPages_eq, fun henough => ?_, ?_⟩
  · obtain ⟨frames, bitmap, memory, hbuild⟩ := buildPages_of_le henough mainMemory
    rw [hbuild]
    exact Option.some_ne_none frames
  · by_cases henough : (readHeader executable).numPages ≤ physPageBitMap.numClear
    · left
      exact (addrSpace_granted_iff executable isNull physPageBitMap mainMemory hmagic).mpr henough
    · right
      exact addrSpace_refused executable isNull physPageBitMap mainMemory hmagic (not_le.mp henough)

/-! ## The image of a file -/

/-- A NOFF file whose segments lie inside it and follow each other in memory. -/
structure NoffImage (executable : List Byte) : Prop where
  complete : noffHeaderSize ≤ executable.length
  magic : (readHeader executable).noffMagic = noffMagic
  codeAddr : (readHeader executable).code.virtualAddr = 0
  initAddr : (readHeader executable).initData.virtualAddr = (readHeader executable).code.size
  sized : (readHeader executable).Sized
  codeInside : 0 ≤ (readHeader executable).code.inFileAddr ∧
    (readHeader executable).code.inFileAddr + (readHeader executable).code.size ≤ executable.length
  initInside : 0 ≤ (readHeader executable).initData.inFileAddr ∧
    (readHeader executable).initData.inFileAddr + (readHeader executable).initData.size ≤
      executable.length
  /-- The offsets of the segments in the file do not overflow an `int`. -/
  offsets : (readHeader executable).code.inFileAddr + (readHeader executable).code.size < 2 ^ 31 ∧
    (readHeader executable).initData.inFileAddr + (readHeader executable).initData.size < 2 ^ 31

/-- The byte at the virtual address `va`: of the code, of the initialised data, or zero. -/
def imageByte (executable : List Byte) (va : Nat) : Byte :=
  let noffH := readHeader executable
  if (va : Int) < noffH.code.size then executable.getD (noffH.code.inFileAddr + va).toNat 0
  else if (va : Int) < noffH.code.size + noffH.initData.size then
    executable.getD (noffH.initData.inFileAddr + (va - noffH.code.size)).toNat 0
  else 0

/-! ## Copies seen through the page table -/

/-- The copy writes bytes of one page, below `n`, and they are those that `image` has there. -/
structure Copy.Faithful (c : Copy) (executable : List Byte) (image : Nat → Byte) (n i : Nat)
    (offset : Nat) : Prop where
  target : c.target = .page i offset
  page : i < n
  numBytes : 0 ≤ c.numBytes
  fits : offset + c.numBytes ≤ pageSize
  position : 0 ≤ c.position
  inside : c.position + c.numBytes ≤ executable.length
  agrees : ∀ k : Nat, (k : Int) < c.numBytes →
    executable.getD (c.position.toNat + k) 0 = image (i * pageSize + offset + k)

/-- Memory as the new address space sees it. -/
def view (frames : List Nat) (memory : Nat → Byte) (va : Nat) : Byte :=
  memory (frames.getD (va / pageSize) 0 * pageSize + va % pageSize)

variable {executable : List Byte} {image : Nat → Byte} {frames : List Nat} {memory : Nat → Byte}

/-- What a `ReadAt` inside the file reads. -/
theorem readAt_inside {numBytes position : Int} (hn : 0 ≤ numBytes) (hp : 0 ≤ position)
    (hn' : numBytes < 2 ^ 32) (hend : position + numBytes ≤ executable.length) :
    ∃ bytes, readAt executable numBytes position = some bytes ∧ (bytes.length : Int) = numBytes ∧
      ∀ k : Nat, (k : Int) < numBytes → bytes.getD k 0 = executable.getD (position.toNat + k) 0 := by
  have hcount := u32_of_nonneg hn hn'
  refine ⟨_, if_neg (by omega), ?_, ?_⟩
  · rw [List.length_take, List.length_drop]
    omega
  · intro k hk
    simp only [List.getD_eq_getElem?_getD]
    rw [List.getElem?_take_of_lt (by omega), List.getElem?_drop]

/-- A write into page `i` changes the bytes of that page only. -/
theorem view_writeBytes (hnodup : frames.Nodup) {i offset : Nat} (hi : i < frames.length)
    {bytes : List Byte} (hfits : offset + bytes.length ≤ pageSize) {va : Nat}
    (hva : va / pageSize < frames.length) :
    view frames (writeBytes memory (frames[i] * pageSize + offset : Nat) bytes) va =
      if i * pageSize + offset ≤ va ∧ va < i * pageSize + offset + bytes.length then
        bytes.getD (va - (i * pageSize + offset)) 0
      else view frames memory va := by
  have hframe : frames.getD (va / pageSize) 0 = frames[va / pageSize] := by
    rw [List.getD_eq_getElem?_getD, List.getElem?_eq_getElem hva, Option.getD_some]
  have hsame : frames[va / pageSize] = frames[i] ↔ va / pageSize = i := hnodup.getElem_inj_iff
  simp only [view, writeBytes, hframe]
  unfold pageSize at *
  by_cases hpage : va / 512 = i
  · rw [hsame.mpr hpage]
    have hdiv := Nat.div_add_mod va 512
    rw [hpage] at hdiv
    by_cases hin : i * 512 + offset ≤ va ∧ va < i * 512 + offset + bytes.length
    · rw [if_pos hin, if_pos (by push_cast; omega)]
      congr 1
      push_cast
      omega
    · rw [if_neg hin, if_neg (by push_cast; omega)]
  · have hne : frames[va / 512] ≠ frames[i] := fun h => hpage (hsame.mp h)
    rw [if_neg (by push_cast; omega), if_neg (by omega)]

/-- The copy writes the byte at the virtual address `va`. -/
def Copy.Covers (c : Copy) (va : Nat) : Prop :=
  ∃ i offset : Nat, c.target = .page i offset ∧ i * pageSize + offset ≤ va ∧
    (va : Int) < i * pageSize + offset + c.numBytes

/-- One `ReadAt` of a faithful copy. -/
theorem Copy.Faithful.run {c : Copy} {n i offset : Nat}
    (hc : c.Faithful executable image n i offset) (hnodup : frames.Nodup)
    (hlen : frames.length = n) (hrange : ∀ f ∈ frames, f < numPhysPages) :
    ∃ into bytes, c.target.resolve (frames.map (BitVec.ofNat 32)) = some into ∧
      readAt executable c.numBytes c.position = some bytes ∧
      (∀ memory, writeMemory memory into bytes = .ok (writeBytes memory into bytes)) ∧
      ∀ memory, ∀ va, va < n * pageSize → view frames (writeBytes memory into bytes) va =
        if i * pageSize + offset ≤ va ∧ (va : Int) < i * pageSize + offset + c.numBytes then image va
        else view frames memory va := by
  have hnum := hc.numBytes
  have hfits := hc.fits
  have hi : i < frames.length := hlen ▸ hc.page
  obtain ⟨bytes, hread, hbytes, hvalues⟩ := readAt_inside hnum hc.position
    (by unfold pageSize at hfits; omega) hc.inside
  have hframe := hrange frames[i] (List.getElem_mem hi)
  refine ⟨(frames[i] * pageSize + offset : Nat), bytes, ?_, hread, fun memory => ?_,
    fun memory va hva => ?_⟩
  · rw [hc.target]
    unfold numPhysPages at hframe
    simp only [Target.resolve, List.getElem?_map, List.getElem?_eq_getElem hi, Option.map_some,
      BitVec.toNat_ofNat]
    rw [Nat.mod_eq_of_lt (by omega)]
    push_cast
    rfl
  · refine writeMemory_inside fun _ => ⟨by omega, ?_⟩
    unfold memorySize
    unfold pageSize numPhysPages at *
    push_cast
    omega
  · have hpage : va / pageSize < frames.length := by
      rw [hlen, Nat.div_lt_iff_lt_mul (by decide)]
      exact hva
    rw [view_writeBytes hnodup hi (by omega) hpage]
    by_cases hin : i * pageSize + offset ≤ va ∧ va < i * pageSize + offset + bytes.length
    · rw [if_pos hin, if_pos ⟨hin.1, by push_cast [← hbytes]; omega⟩, hvalues _ (by omega),
        hc.agrees _ (by omega), Nat.add_sub_cancel' hin.1]
    · rw [if_neg hin, if_neg fun hcond => hin ⟨hcond.1, by omega⟩]

/-- Faithful copies do not fail. What they write is the image, and nothing else changes. -/
theorem runCopies_faithful {n : Nat} (hnodup : frames.Nodup) (hlen : frames.length = n)
    (hrange : ∀ f ∈ frames, f < numPhysPages) {cs : List Copy}
    (hcs : ∀ c ∈ cs, ∃ i offset, c.Faithful executable image n i offset) (memory : Nat → Byte) :
    ∃ memory', runCopies executable (frames.map (BitVec.ofNat 32)) cs memory = .ok memory' ∧
      ∀ va, va < n * pageSize →
        ((∃ c ∈ cs, c.Covers va) ∨ view frames memory va = image va →
          view frames memory' va = image va) ∧
        ((∀ c ∈ cs, ¬ c.Covers va) → view frames memory' va = view frames memory va) := by
  induction cs generalizing memory with
  | nil => exact ⟨memory, rfl, fun va _ => ⟨fun h => by simpa using h, fun _ => rfl⟩⟩
  | cons c cs ih =>
    obtain ⟨i, offset, hc⟩ := hcs c (List.mem_cons_self ..)
    obtain ⟨into, bytes, hresolve, hread, hwrite, hview⟩ := hc.run hnodup hlen hrange
    obtain ⟨memory', hrun, hrest⟩ :=
      ih (fun c' hc' => hcs c' (List.mem_cons_of_mem c hc')) (writeBytes memory into bytes)
    have hcovers : ∀ va, c.Covers va ↔
        i * pageSize + offset ≤ va ∧ (va : Int) < i * pageSize + offset + c.numBytes := by
      intro va
      constructor
      · rintro ⟨i', offset', htarget, hge, hlt⟩
        rw [hc.target] at htarget
        obtain ⟨rfl, hoffset⟩ := Target.page.inj htarget
        obtain rfl := Int.ofNat.inj hoffset
        exact ⟨hge, hlt⟩
      · rintro ⟨hge, hlt⟩
        exact ⟨i, offset, hc.target, hge, hlt⟩
    refine ⟨memory', by simp only [runCopies, hresolve, hread, hwrite, hrun], fun va hva => ⟨?_, ?_⟩⟩
    · intro h
      refine (hrest va hva).1 ?_
      by_cases hin : c.Covers va
      · exact .inr (by rw [hview _ va hva, if_pos ((hcovers va).mp hin)])
      · rcases h with ⟨c', hmem, hcov⟩ | himage
        · rcases List.mem_cons.mp hmem with rfl | hmem
          · exact absurd hcov hin
          · exact .inl ⟨c', hmem, hcov⟩
        · exact .inr (by rw [hview _ va hva, if_neg fun hc' => hin ((hcovers va).mpr hc'), himage])
    · intro h
      rw [(hrest va hva).2 fun c' hc' => h c' (List.mem_cons_of_mem c hc'), hview _ va hva,
        if_neg fun hcond => h c (List.mem_cons_self ..) ((hcovers va).mpr hcond)]

/-! ## The copies of the constructor -/

namespace NoffImage

variable (himage : NoffImage executable)
  (hfit : (readHeader executable).numPages ≤ numPhysPages)

include himage hfit

theorem codeCopies_faithful : ∀ c ∈ (readHeader executable).codeCopies,
    ∃ i offset, c.Faithful executable (imageByte executable) (readHeader executable).numPages
      i offset := by
  intro c hc
  simp only [NoffHeader.codeCopies, List.mem_map, List.mem_range] at hc
  obtain ⟨i, hi, rfl⟩ := hc
  have hsizes := himage.sized
  obtain ⟨hfile, hend⟩ := himage.codeInside
  have hoffsets := himage.offsets.1
  have hle := NoffHeader.numDataPage_le hsizes hfit
  have hlast := NoffHeader.lastCodePageSize_eq hsizes hfit
  have hpages := NoffHeader.numCodePage_eq hsizes hfit
  -- the bytes of the page belong to the code
  have hbytes : 0 ≤ (if i < (readHeader executable).numCodePage - 1 then (pageSize : Int)
        else (readHeader executable).lastCodePageSize) ∧
      (if i < (readHeader executable).numCodePage - 1 then (pageSize : Int)
        else (readHeader executable).lastCodePageSize) ≤ 512 ∧
      i * 512 + (if i < (readHeader executable).numCodePage - 1 then (pageSize : Int)
        else (readHeader executable).lastCodePageSize) ≤ (readHeader executable).code.size := by
    unfold pageSize
    split_ifs <;> omega
  have hposition : s32 ((readHeader executable).code.inFileAddr + i * pageSize) =
      (readHeader executable).code.inFileAddr + i * 512 := by
    unfold pageSize at *
    apply s32_of_bounds <;> omega
  refine ⟨i, 0, ⟨by rw [himage.codeAddr]; rfl, by omega, hbytes.1, ?_, ?_, ?_, ?_⟩⟩
  · unfold pageSize at *
    simpa using hbytes.2.1
  · simp only [hposition]
    omega
  · simp only [hposition]
    omega
  · intro k hk
    simp only at hk ⊢
    rw [hposition]
    unfold imageByte pageSize
    rw [if_pos (by push_cast; omega)]
    congr 1
    push_cast
    omega

theorem sharedCopies_faithful : ∀ c ∈ (readHeader executable).sharedCopies,
    ∃ i offset, c.Faithful executable (imageByte executable) (readHeader executable).numPages
      i offset := by
  intro c hc
  unfold NoffHeader.sharedCopies at hc
  split at hc
  next hcond =>
    rw [List.mem_singleton] at hc
    subst hc
    have hsizes := himage.sized
    obtain ⟨hfile, hend⟩ := himage.initInside
    obtain ⟨hsum, hbound⟩ := NoffHeader.sizes_le hsizes hfit
    have hlast := NoffHeader.lastCodePageSize_eq hsizes hfit
    have hbounds := NoffHeader.lastCodePageSize_bounds hsizes hfit
    have htemp := NoffHeader.tempDataSize_eq hsizes hfit
    obtain ⟨hpos, hindex⟩ := NoffHeader.lastCodePage_index hsizes hfit hcond.1
    have hfirst : (readHeader executable).firstDataPageSize ≤ (readHeader executable).initData.size ∧
        (readHeader executable).firstDataPageSize ≤
          512 - (readHeader executable).lastCodePageSize := by
      unfold NoffHeader.firstDataPageSize pageSize
      split_ifs <;> omega
    refine ⟨(readHeader executable).numCodePage - 1, (readHeader executable).lastCodePageSize.toNat,
      ⟨?_, by omega, by simp only; omega, ?_, hfile, by simp only; omega, ?_⟩⟩
    · simp only [hindex, himage.codeAddr, Target.page.injEq, true_and]
      omega
    · unfold pageSize
      simp only
      omega
    · intro k hk
      simp only at hk ⊢
      unfold imageByte pageSize
      rw [if_neg (by push_cast; omega), if_pos (by push_cast; omega)]
      congr 1
      push_cast
      omega
  next => cases hc

theorem dataCopies_faithful : ∀ c ∈ (readHeader executable).dataCopies,
    ∃ i offset, c.Faithful executable (imageByte executable) (readHeader executable).numPages
      i offset := by
  intro c hc
  simp only [NoffHeader.dataCopies, List.mem_map, List.mem_range] at hc
  obtain ⟨j, hj, rfl⟩ := hc
  have hsizes := himage.sized
  obtain ⟨hfile, hend⟩ := himage.initInside
  have hoffsets := himage.offsets.2
  have hle := NoffHeader.numDataPage_le hsizes hfit
  have hlast := NoffHeader.lastCodePageSize_eq hsizes hfit
  have hbounds := NoffHeader.lastCodePageSize_bounds hsizes hfit
  have htemp := NoffHeader.tempDataSize_eq hsizes hfit
  have ht := NoffHeader.tempDataSize_nonneg hj
  have hdata := NoffHeader.numDataPage_eq hsizes hfit ht
  have hlastData := NoffHeader.lastDataPageSize_eq hsizes hfit ht
  have hfirst := NoffHeader.firstDataPageSize_eq ht
  -- the bytes of the page belong to the initialised data
  have hbytes : 0 ≤ (if j < (readHeader executable).numDataPage - 1 then (pageSize : Int)
        else (readHeader executable).lastDataPageSize) ∧
      (if j < (readHeader executable).numDataPage - 1 then (pageSize : Int)
        else (readHeader executable).lastDataPageSize) ≤ 512 ∧
      j * 512 + (if j < (readHeader executable).numDataPage - 1 then (pageSize : Int)
        else (readHeader executable).lastDataPageSize) ≤ (readHeader executable).tempDataSize := by
    unfold pageSize
    split_ifs <;> split at hdata <;> omega
  have hposition : s32 ((readHeader executable).initData.inFileAddr + j * pageSize +
        (readHeader executable).firstDataPageSize) =
      (readHeader executable).initData.inFileAddr + j * 512 +
        (readHeader executable).firstDataPageSize := by
    unfold pageSize at *
    apply s32_of_bounds <;> omega
  refine ⟨(readHeader executable).numCodePage + j, 0,
    ⟨by rw [himage.codeAddr]; rfl, by omega, hbytes.1, ?_, ?_, ?_, ?_⟩⟩
  · unfold pageSize at *
    simpa using hbytes.2.1
  · simp only [hposition]
    omega
  · simp only [hposition]
    omega
  · intro k hk
    simp only at hk ⊢
    rw [hposition]
    unfold imageByte pageSize
    rw [if_neg (by push_cast; omega), if_pos (by push_cast; omega)]
    congr 1
    push_cast
    omega

theorem pageCopies_faithful : ∀ c ∈ (readHeader executable).pageCopies,
    ∃ i offset, c.Faithful executable (imageByte executable) (readHeader executable).numPages
      i offset := by
  intro c hc
  rcases List.mem_append.mp hc with hc | hc
  · rcases List.mem_append.mp hc with hc | hc
    · exact himage.codeCopies_faithful hfit c hc
    · exact himage.sharedCopies_faithful hfit c hc
  · exact himage.dataCopies_faithful hfit c hc

theorem codeCopies_cover {va : Nat} (hva : (va : Int) < (readHeader executable).code.size) :
    ∃ c ∈ (readHeader executable).codeCopies, c.Covers va := by
  have hsizes := himage.sized
  have hlast := NoffHeader.lastCodePageSize_eq hsizes hfit
  have hpages := NoffHeader.numCodePage_eq hsizes hfit
  have hi : va / 512 < (readHeader executable).numCodePage := by
    split at hpages <;> omega
  refine ⟨_, List.mem_map.mpr ⟨va / 512, List.mem_range.mpr hi, rfl⟩, va / 512, 0, ?_, ?_, ?_⟩
  · simp only [himage.codeAddr]
    rfl
  · unfold pageSize
    omega
  · unfold pageSize
    simp only
    split_ifs <;> omega

/-- The initialised data up to the end of the page that it shares with the code. -/
theorem sharedCopies_cover {va : Nat} (hva : (readHeader executable).code.size ≤ va)
    (hva' : (va : Int) <
      (readHeader executable).code.size + (readHeader executable).firstDataPageSize) :
    ∃ c ∈ (readHeader executable).sharedCopies, c.Covers va := by
  have hsizes := himage.sized
  have hlast := NoffHeader.lastCodePageSize_eq hsizes hfit
  have hbounds := NoffHeader.lastCodePageSize_bounds hsizes hfit
  have htemp := NoffHeader.tempDataSize_eq hsizes hfit
  have hroom : (readHeader executable).lastCodePageSize < 512 := by
    unfold NoffHeader.firstDataPageSize pageSize at hva'
    split_ifs at hva' <;> omega
  obtain ⟨hpos, hindex⟩ := NoffHeader.lastCodePage_index hsizes hfit hroom
  unfold NoffHeader.sharedCopies
  rw [if_pos ⟨hroom, by omega⟩]
  refine ⟨_, List.mem_singleton_self _, (readHeader executable).numCodePage - 1,
    (readHeader executable).lastCodePageSize.toNat, ?_, ?_, ?_⟩
  · simp only [hindex, himage.codeAddr, Target.page.injEq, true_and]
    omega
  · unfold pageSize
    omega
  · unfold pageSize
    simp only
    omega

theorem dataCopies_cover {va : Nat}
    (hva : (readHeader executable).code.size + (readHeader executable).firstDataPageSize ≤ va)
    (hva' : (va : Int) <
      (readHeader executable).code.size + (readHeader executable).initData.size) :
    ∃ c ∈ (readHeader executable).dataCopies, c.Covers va := by
  have hsizes := himage.sized
  have hlast := NoffHeader.lastCodePageSize_eq hsizes hfit
  have htemp := NoffHeader.tempDataSize_eq hsizes hfit
  have ht : 0 ≤ (readHeader executable).tempDataSize := by
    by_contra hneg
    unfold NoffHeader.firstDataPageSize at hva
    rw [if_pos (by omega)] at hva
    omega
  have hdata := NoffHeader.numDataPage_eq hsizes hfit ht
  have hlastData := NoffHeader.lastDataPageSize_eq hsizes hfit ht
  have hfirst := NoffHeader.firstDataPageSize_eq ht
  have hj : va / 512 - (readHeader executable).numCodePage <
      (readHeader executable).numDataPage := by
    split at hdata <;> omega
  refine ⟨_, List.mem_map.mpr ⟨_, List.mem_range.mpr hj, rfl⟩, va / 512, 0, ?_, ?_, ?_⟩
  · simp only [himage.codeAddr, Target.page.injEq]
    exact ⟨by omega, rfl⟩
  · unfold pageSize
    omega
  · unfold pageSize
    simp only
    split_ifs <;> split at hdata <;> omega

theorem pageCopies_cover {va : Nat} (hva : (va : Int) <
    (readHeader executable).code.size + (readHeader executable).initData.size) :
    ∃ c ∈ (readHeader executable).pageCopies, c.Covers va := by
  rcases lt_or_ge (va : Int) (readHeader executable).code.size with hcode | hcode
  · obtain ⟨c, hc, hcov⟩ := himage.codeCopies_cover hfit hcode
    exact ⟨c, List.mem_append_left _ (List.mem_append_left _ hc), hcov⟩
  rcases lt_or_ge (va : Int)
    ((readHeader executable).code.size + (readHeader executable).firstDataPageSize) with hfirst | hrest
  · obtain ⟨c, hc, hcov⟩ := himage.sharedCopies_cover hfit hcode hfirst
    exact ⟨c, List.mem_append_left _ (List.mem_append_right _ hc), hcov⟩
  · obtain ⟨c, hc, hcov⟩ := himage.dataCopies_cover hfit hrest hva
    exact ⟨c, List.mem_append_right _ hc, hcov⟩

end NoffImage

/-! ## The loaded address space -/

/-- Translation through a new page table. -/
theorem translate_newTable {n : Nat} (hlen : frames.length = n)
    (hrange : ∀ f ∈ frames, f < numPhysPages) (memory : Nat → Byte) (registers : Reg → Word)
    {va : Nat} (hva : va < n * pageSize) (hn : n ≤ numPhysPages) :
    ∃ m', Machine.translate (BitVec.ofNat 32 va) 1 false
      { mainMemory := memory, registers := registers, pageTable := some (newTable frames),
        pageTableSize := n } =
      .done (.ok (frames.getD (va / pageSize) 0 * pageSize + va % pageSize)) m' := by
  have hva32 : (BitVec.ofNat 32 va).toNat = va := by
    rw [BitVec.toNat_ofNat, Nat.mod_eq_of_lt]
    unfold numPhysPages at hn
    unfold pageSize at hva
    omega
  have hpage : va / pageSize < frames.length := by
    rw [hlen, Nat.div_lt_iff_lt_mul (by decide)]
    exact hva
  have hframe := hrange frames[va / pageSize] (List.getElem_mem hpage)
  have hentry : (newTable frames)[va / pageSize]? =
      some (newEntry (va / pageSize) frames[va / pageSize]) := by
    rw [newTable, List.getElem?_mapIdx, List.getElem?_eq_getElem hpage]
    rfl
  have hphysical : (newEntry (va / pageSize) frames[va / pageSize]).physicalPage.toNat =
      frames[va / pageSize] := by
    unfold numPhysPages at hframe
    simp only [newEntry, BitVec.toNat_ofNat]
    omega
  have hend : frames[va / pageSize] * pageSize + va % pageSize + 1 ≤ memorySize := by
    unfold memorySize
    unfold pageSize numPhysPages at *
    omega
  have hgetD : frames.getD (va / pageSize) 0 = frames[va / pageSize] := by
    rw [List.getD_eq_getElem?_getD, List.getElem?_eq_getElem hpage, Option.getD_some]
  simp only [Machine.translate, hva32, hentry, hphysical, hgetD]
  rw [if_neg (by simp), if_neg (by omega), if_neg (by simp [newEntry]), if_neg (by simp [newEntry]),
    if_neg (by omega), if_pos hend]
  exact ⟨_, rfl⟩

/-- Whatever frames `Find` hands out, a file that lies inside itself is loaded: translating a
virtual address through the new page table leads to the byte that the segments have there. -/
theorem loaded_image (executable : List Byte) (isNull : Bool) (physPageBitMap : BitMap)
    (mainMemory : Nat → Byte) (registers : Reg → Word) (himage : NoffImage executable)
    (hbits : physPageBitMap.numBits = numPhysPages)
    (hclear : (readHeader executable).numPages ≤ physPageBitMap.numClear) :
    ∃ space bitmap memory, addrSpace executable isNull physPageBitMap mainMemory =
        .ok (space, bitmap, memory) ∧
      space.numPages = (readHeader executable).numPages ∧
      ∀ va, va < space.numPages * pageSize → ∃ physAddr m',
        Machine.translate (BitVec.ofNat 32 va) 1 false
          { mainMemory := memory, registers := registers, pageTable := space.pageTable,
            pageTableSize := space.numPages } = .done (.ok physAddr) m' ∧
        memory physAddr = imageByte executable va := by
  have hcount := physPageBitMap.numMarked_add_numClear
  have hfit : (readHeader executable).numPages ≤ numPhysPages := by omega
  obtain ⟨fs, bitmap, zeroed, hbuild⟩ := buildPages_of_le hclear mainMemory
  obtain ⟨halloc, hzero⟩ := buildPages_some hbuild
  obtain ⟨hallocated, hlen⟩ := allocFrames_some halloc
  have hrange : ∀ f ∈ fs, f < numPhysPages := fun f hf => hbits ▸ hallocated.range f hf
  obtain ⟨memory, hrun, hview⟩ := runCopies_faithful hallocated.nodup hlen hrange
    (himage.pageCopies_faithful hfit) zeroed
  refine ⟨{ pageTable := some (newTable fs), numPages := (readHeader executable).numPages }, bitmap,
    memory, ?_, rfl, fun va hva => ?_⟩
  · simp only [addrSpace, himage.magic, hbuild, framesOf_newTable, hrun, Except.map]
    rw [if_neg (by simp), if_neg (by omega)]
  · obtain ⟨m', htranslate⟩ := translate_newTable hlen hrange memory registers hva hfit
    refine ⟨_, m', htranslate, ?_⟩
    show view fs memory va = imageByte executable va
    rcases lt_or_ge (va : Int)
      ((readHeader executable).code.size + (readHeader executable).initData.size) with hin | hout
    · exact (hview va hva).1 (.inl (himage.pageCopies_cover hfit hin))
    · -- the frames of the address space have been zeroed
      have hpage : va / pageSize < fs.length := by
        rw [hlen, Nat.div_lt_iff_lt_mul (by decide)]
        exact hva
      have hbyte : imageByte executable va = 0 := by
        have hinit := himage.sized.init
        unfold imageByte
        rw [if_neg (by omega), if_neg (by omega)]
      refine (hview va hva).1 (.inr ?_)
      rw [hbyte, view, hzero, if_pos]
      rw [List.getD_eq_getElem?_getD, List.getElem?_eq_getElem hpage, Option.getD_some,
        Nat.mul_comm, Nat.mul_add_div (by decide), Nat.div_eq_of_lt (Nat.mod_lt _ (by decide)),
        Nat.add_zero]
      exact List.getElem_mem hpage

/-- A file with five bytes of code and two bytes of initialised data. -/
def smallFile : List Byte :=
  [0xad, 0xdf, 0xba, 0x00,
    0, 0, 0, 0, 40, 0, 0, 0, 5, 0, 0, 0,
    5, 0, 0, 0, 45, 0, 0, 0, 2, 0, 0, 0,
    7, 0, 0, 0, 0, 0, 0, 0, 0, 0, 0, 0,
    0x11, 0x22, 0x33, 0x44, 0x55, 0x66, 0x77]

/-- The three frames of this file are there when nothing else is loaded. -/
theorem takes_all_smallFile :
    (readHeader smallFile).numPages ≤ (BitMap.new numPhysPages).numClear ∧
      (buildPages (readHeader smallFile).numPages (BitMap.new numPhysPages) fun _ => 0xff).1 ≠ none := by
  have hmagic : (readHeader smallFile).noffMagic = noffMagic := by decide
  have hsized : (readHeader smallFile).Sized := ⟨by decide, by decide, by decide, by decide⟩
  have henough : (readHeader smallFile).numPages ≤ (BitMap.new numPhysPages).numClear := by
    decide +kernel
  obtain ⟨-, hfound, -⟩ :=
    takes_all_or_none smallFile true (BitMap.new numPhysPages) (fun _ => 0xff) hmagic hsized
  exact ⟨henough, hfound henough⟩

theorem loaded_image_smallFile :
    ∃ space bitmap memory, addrSpace smallFile false (BitMap.new numPhysPages) (fun _ => 0xff) =
        .ok (space, bitmap, memory) ∧
      space.numPages = (readHeader smallFile).numPages ∧
      ∀ va, va < space.numPages * pageSize → ∃ physAddr m',
        Machine.translate (BitVec.ofNat 32 va) 1 false
          { mainMemory := memory, registers := fun _ => 0, pageTable := space.pageTable,
            pageTableSize := space.numPages } = .done (.ok physAddr) m' ∧
        memory physAddr = imageByte smallFile va := by
  have himage : NoffImage smallFile :=
    ⟨by decide, by decide, by decide, by decide, ⟨by decide, by decide, by decide, by decide⟩,
      by decide, by decide, by decide⟩
  exact loaded_image smallFile false (BitMap.new numPhysPages) (fun _ => 0xff) (fun _ => 0) himage
    rfl (by decide +kernel)

end Nachos
