import Nachos.Lib.CInt
import Nachos.Machine.Memory
import Nachos.Userprog.Frames

/-!
# Address spaces and their loaders

The two constructors of `AddrSpace` (`userprog/addrspace.cc`). Both take one frame of
`gPhysPageBitMap` per page and then copy the segments of a NOFF file into main memory, with
one `ReadAt` of the file for each copy.

`AddrSpace(OpenFile*)` copies to physical addresses: it relies on the frames being
`0, 1, …`, which they are when the bitmap is clear (`buildPages_new`). `AddrSpace(char*)`
copies page by page. What each of them copies is a list of `Copy`s, so that other threads may
run between two of them.
-/

namespace Nachos

open CInt Machine

/-! ### NOFF files -/

/-- The `int` at an offset of a file. -/
def intAt (content : List Byte) (offset : Nat) : Int :=
  (Bytes.load (fun i => content.getD i 0) offset 4 : Word).toInt

/-- The header at the start of a file, on a little-endian host. A file that is shorter than the
header is read as if zeros followed it; the constructors leave those bytes of `noffH` as the stack had
them. -/
def readHeader (content : List Byte) : NoffHeader :=
  let segment (offset : Nat) : Segment :=
    { virtualAddr := intAt content offset
      inFileAddr := intAt content (offset + 4)
      size := intAt content (offset + 8) }
  { noffMagic := intAt content 0
    code := segment 4
    initData := segment 16
    uninitData := segment 28 }

/-- `sizeof(NoffHeader)`. -/
def noffHeaderSize : Nat := 40

/-- `OpenFile::ReadAt` of the stub: `Lseek` asserts, and the host's `read` takes its count as
a `size_t` and stops at the end of the file. -/
def readAt (content : List Byte) (numBytes position : Int) : Option (List Byte) :=
  if position < 0 then none else some ((content.drop position.toNat).take (u32 numBytes))

/-! ### Page tables -/

structure AddrSpace where
  /-- `none` is the NULL pointer. -/
  pageTable : Option (List TranslationEntry)
  numPages : Nat

/-- `pageTable[i]` after the loop of a constructor. -/
def newEntry (i f : Nat) : TranslationEntry where
  virtualPage := BitVec.ofNat 32 i
  physicalPage := BitVec.ofNat 32 f
  valid := true
  readOnly := false
  use := false
  dirty := false

def newTable (frames : List Nat) : List TranslationEntry := frames.mapIdx newEntry

/-- `bzero(&mainMemory[f * PageSize], PageSize)`. -/
def zeroFrame (memory : Nat → Byte) (f : Nat) : Nat → Byte := fun a =>
  if f * pageSize ≤ a ∧ a < f * pageSize + pageSize then 0 else memory a

/-- The loop of `AddrSpace(char*)`, `n` more pages: the frames found, if no `Find` fails, the
bitmap, and memory with these frames zeroed. -/
def buildPages : Nat → BitMap → (Nat → Byte) → Option (List Nat) × BitMap × (Nat → Byte)
  | 0, b, memory => (some [], b, memory)
  | n + 1, b, memory =>
    match b.find with
    | (none, b') => (none, b', memory)
    | (some f, b') =>
      match buildPages n b' (zeroFrame memory f) with
      | (some fs, rest) => (some (f :: fs), rest)
      | (none, rest) => (none, rest)

/-! ### Copying the segments -/

/-- Where a copy goes: to a physical address, or into a page. -/
inductive Target
  | physical (addr : Int)
  | page (i : Nat) (offset : Int)
  deriving DecidableEq

/-- One call `executable->ReadAt(into, numBytes, position)`. -/
structure Copy where
  target : Target
  numBytes : Int
  position : Int
  deriving DecidableEq

/-- The physical address of a target; `none` is an index outside the page table. -/
def Target.resolve (frames : List Word) : Target → Option Int
  | .physical a => some a
  | .page i offset => (frames[i]?).map fun f => f.toNat * pageSize + offset

/-- Memory with `bytes` from the address `into` on. -/
def writeBytes (memory : Nat → Byte) (into : Int) (bytes : List Byte) : Nat → Byte := fun a =>
  if into ≤ a ∧ a < into + bytes.length then bytes.getD (a - into).toNat 0 else memory a

/-- What `read` does with the bytes of a file when it stores them in main memory, from the address
`into` on. The array `mainMemory` has `MemorySize` bytes, and a store outside it has no defined
outcome. -/
def writeMemory (memory : Nat → Byte) (into : Int) (bytes : List Byte) : Except Fault (Nat → Byte) :=
  if bytes = [] ∨ 0 ≤ into ∧ into + bytes.length ≤ memorySize then .ok (writeBytes memory into bytes)
  else .error .outOfBounds

namespace NoffHeader

variable (h : NoffHeader)

/-- The copies of `AddrSpace(OpenFile*)`. -/
def physicalCopies : List Copy :=
  (if h.code.size > 0 then [⟨.physical h.code.virtualAddr, h.code.size, h.code.inFileAddr⟩]
    else []) ++
  if h.initData.size > 0 then
    [⟨.physical h.initData.virtualAddr, h.initData.size, h.initData.inFileAddr⟩]
  else []

def numCodePage : Nat := u32 (divRoundUpInt h.code.size pageSize)

def lastCodePageSize : Int := s32 (h.code.size - (h.numCodePage - 1) * pageSize)

def tempDataSize : Int := s32 (h.initData.size - (pageSize - h.lastCodePageSize))

def numDataPage : Nat :=
  if h.tempDataSize < 0 then 0 else u32 (divRoundUpInt h.tempDataSize pageSize)

def firstDataPageSize : Int :=
  if h.tempDataSize < 0 then h.initData.size else pageSize - h.lastCodePageSize

def lastDataPageSize : Int := s32 (h.tempDataSize - (h.numDataPage - 1) * pageSize)

/-- The loop over the code pages. -/
def codeCopies : List Copy :=
  (List.range h.numCodePage).map fun i =>
    { target := .page i h.code.virtualAddr
      numBytes := if i < h.numCodePage - 1 then pageSize else h.lastCodePageSize
      position := s32 (h.code.inFileAddr + i * pageSize) }

/-- The part of the initialised data that shares a page with the end of the code. -/
def sharedCopies : List Copy :=
  if h.lastCodePageSize < pageSize ∧ h.firstDataPageSize > 0 then
    [{ target := .page (u32 (h.numCodePage - 1)) (h.code.virtualAddr + h.lastCodePageSize)
       numBytes := h.firstDataPageSize
       position := h.initData.inFileAddr }]
  else []

/-- The loop over the other pages of the initialised data. -/
def dataCopies : List Copy :=
  (List.range h.numDataPage).map fun j =>
    { target := .page (h.numCodePage + j) h.code.virtualAddr
      numBytes := if j < h.numDataPage - 1 then pageSize else h.lastDataPageSize
      position := s32 (h.initData.inFileAddr + j * pageSize + h.firstDataPageSize) }

/-- The copies of `AddrSpace(char*)`. -/
def pageCopies : List Copy := h.codeCopies ++ h.sharedCopies ++ h.dataCopies

end NoffHeader

/-! ### The frames of a new address space -/

theorem mem_zeroFrame {memory : Nat → Byte} {f a : Nat} :
    zeroFrame memory f a = if a / pageSize = f then 0 else memory a := by
  unfold zeroFrame pageSize
  split_ifs <;> first | rfl | omega

/-- The loop takes the frames that `allocFrames` takes, and zeroes exactly these. -/
theorem buildPages_some {n : Nat} {b b' : BitMap} {memory memory' : Nat → Byte} {fs : List Nat}
    (h : buildPages n b memory = (some fs, b', memory')) :
    allocFrames b n = (some fs, b') ∧
      ∀ a, memory' a = if a / pageSize ∈ fs then 0 else memory a := by
  induction n generalizing b memory fs with
  | zero =>
    obtain ⟨rfl, rfl, rfl⟩ : [] = fs ∧ b = b' ∧ memory = memory' := by
      simpa [buildPages] using h
    exact ⟨rfl, fun a => by simp⟩
  | succ n ih =>
    rcases b.find_cases with ⟨f, -, -, hfind⟩ | ⟨-, hfind⟩
    · simp only [buildPages, hfind] at h
      split at h
      next gs rest hrest =>
        obtain ⟨rfl, rfl⟩ : f :: gs = fs ∧ rest = (b', memory') := by simpa using h
        obtain ⟨halloc, hmem⟩ := ih hrest
        refine ⟨by simp [allocFrames, hfind, halloc], fun a => ?_⟩
        rw [hmem, mem_zeroFrame]
        by_cases h1 : a / pageSize ∈ gs
        · simp [h1]
        · simp [h1]
      next => simp at h
    · simp [buildPages, hfind] at h

theorem buildPages_of_le {n : Nat} {b : BitMap} (h : n ≤ b.numClear) (memory : Nat → Byte) :
    ∃ fs b' memory', buildPages n b memory = (some fs, b', memory') := by
  induction n generalizing b memory with
  | zero => exact ⟨[], b, memory, rfl⟩
  | succ n ih =>
    obtain ⟨f, hf, hclear, hfind⟩ := find_of_numClear_pos (b := b) (by omega)
    have hcount := numClear_mark hf hclear
    obtain ⟨fs, b', memory', hrest⟩ := ih (b := b.mark f) (by omega) (zeroFrame memory f)
    exact ⟨f :: fs, b', memory', by simp [buildPages, hfind, hrest]⟩

/-- First-fit allocation from a bitmap whose first `k` bits are marked. -/
theorem allocFrames_markedBelow {b : BitMap} {n k : Nat} (h : b.MarkedBelow k)
    (hn : k + n ≤ b.numBits) : ∃ b', allocFrames b n = (some (List.range' k n), b') := by
  induction n generalizing b k with
  | zero => exact ⟨b, rfl⟩
  | succ n ih =>
    obtain ⟨hfind, hmark⟩ := h.find (by omega)
    obtain ⟨b', hrest⟩ := ih hmark (by simp only [BitMap.numBits_mark]; omega)
    exact ⟨b', by simp [allocFrames, hfind, hrest, List.range'_succ]⟩

/-- On a clear bitmap page `i` gets frame `i`. -/
theorem allocFrames_new {n : Nat} (hn : n ≤ numPhysPages) :
    ∃ b', allocFrames (BitMap.new numPhysPages) n = (some (List.range n), b') := by
  have hbelow : (BitMap.new numPhysPages).MarkedBelow 0 := fun i _ => by simp
  obtain ⟨b', h⟩ := allocFrames_markedBelow (n := n) hbelow (by simpa using hn)
  exact ⟨b', by rw [h, List.range_eq_range']⟩

/-! ### Stores in main memory -/

section Memory

variable {memory : Nat → Byte} {into : Int} {bytes : List Byte}

theorem writeMemory_inside (h : bytes ≠ [] → 0 ≤ into ∧ into + bytes.length ≤ memorySize) :
    writeMemory memory into bytes = .ok (writeBytes memory into bytes) := by
  unfold writeMemory
  by_cases hnone : bytes = []
  · exact if_pos (Or.inl hnone)
  · exact if_pos (Or.inr (h hnone))

theorem writeMemory_ok {memory' : Nat → Byte} (h : writeMemory memory into bytes = .ok memory') :
    memory' = writeBytes memory into bytes ∧
      (bytes ≠ [] → 0 ≤ into ∧ into + bytes.length ≤ memorySize) := by
  unfold writeMemory at h
  split at h
  · rename_i hcond
    cases h
    exact ⟨rfl, fun hne => hcond.resolve_left hne⟩
  · cases h

end Memory

/-! ### Where the copies go -/

/-- The copy stays inside the frames. -/
def Copy.Inside (c : Copy) (frames : List Word) : Prop :=
  ∃ into, c.target.resolve frames = some into ∧ 0 ≤ into ∧
    ∀ a : Nat, into ≤ a → (a : Int) < into + u32 c.numBytes →
      ∃ f ∈ frames, InFrame f.toNat a

/-- A file that both loaders accept and whose copies stay inside: the code starts at virtual
address 0, the sizes are not negative and their sum with the stack does not wrap around, and
the initialised data lies inside the address space. -/
structure NoffHeader.WellFormed (h : NoffHeader) : Prop where
  codeAddr : h.code.virtualAddr = 0
  codeSize : 0 ≤ h.code.size
  initSize : 0 ≤ h.initData.size
  uninitSize : 0 ≤ h.uninitData.size
  noOverflow : h.code.size + h.initData.size + h.uninitData.size + userStackSize < 2 ^ 32
  initAddr : 0 ≤ h.initData.virtualAddr
  initEnd : h.initData.virtualAddr + h.initData.size ≤ h.numPages * pageSize
  uninitAddr : 0 ≤ h.uninitData.virtualAddr
  uninitEnd : h.uninitData.virtualAddr + h.uninitData.size ≤ h.numPages * pageSize

/-- Sizes that are not negative and whose sum with the stack does not wrap around. -/
structure NoffHeader.Sized (h : NoffHeader) : Prop where
  code : 0 ≤ h.code.size
  init : 0 ≤ h.initData.size
  uninit : 0 ≤ h.uninitData.size
  noOverflow : h.code.size + h.initData.size + h.uninitData.size + userStackSize < 2 ^ 32

namespace NoffHeader

variable {h : NoffHeader}

theorem WellFormed.sized (hw : h.WellFormed) : h.Sized :=
  ⟨hw.codeSize, hw.initSize, hw.uninitSize, hw.noOverflow⟩

theorem Sized.size_le (hw : h.Sized) :
    h.code.size + h.initData.size + h.uninitData.size + userStackSize ≤ h.numPages * pageSize := by
  have hround := divRoundUp_mul_ge (n := h.size) (s := pageSize) (by decide)
  have hsize : (h.size : Int) =
      h.code.size + h.initData.size + h.uninitData.size + userStackSize := by
    have h1 := hw.code
    have h2 := hw.init
    have h3 := hw.uninit
    have h4 := hw.noOverflow
    unfold NoffHeader.size userStackSize at *
    omega
  have hcast : (h.size : Int) ≤ (h.numPages * pageSize : Nat) := by exact_mod_cast hround
  push_cast at hcast
  omega

/-- A copy into one page that does not go past its end. -/
theorem inside_page {frames : List Word} {i : Nat} {offset numBytes position : Int}
    (hi : i < frames.length) (h0 : 0 ≤ offset) (hn : 0 ≤ numBytes)
    (hend : offset + numBytes ≤ pageSize) :
    Copy.Inside ⟨.page i offset, numBytes, position⟩ frames := by
  refine ⟨frames[i].toNat * pageSize + offset, by simp [Target.resolve, hi], ?_, ?_⟩
  · unfold pageSize
    omega
  intro a ha ha'
  refine ⟨frames[i], List.getElem_mem hi, ?_⟩
  simp only [u32_of_nonneg hn (by unfold pageSize at hend; omega)] at ha'
  unfold InFrame
  unfold pageSize at *
  omega

theorem tempDataSize_nonneg {j : Nat} (hj : j < h.numDataPage) : 0 ≤ h.tempDataSize := by
  by_contra hneg
  unfold numDataPage at hj
  rw [if_pos (by omega)] at hj
  omega

theorem firstDataPageSize_eq (ht : 0 ≤ h.tempDataSize) :
    h.firstDataPageSize = 512 - h.lastCodePageSize := by
  unfold firstDataPageSize
  rw [if_neg (by omega)]
  rfl

section PageCopies

variable (hw : h.Sized) (hfit : h.numPages ≤ numPhysPages)

include hw hfit

theorem sizes_le : h.code.size + h.initData.size + 1024 ≤ h.numPages * 512 ∧
    h.numPages * (512 : Int) ≤ 65536 := by
  have hsum := hw.size_le
  have huninit := hw.uninit
  unfold userStackSize pageSize at hsum
  unfold numPhysPages at hfit
  omega

theorem numCodePage_eq :
    (h.numCodePage : Int) = h.code.size / 512 + if h.code.size % 512 > 0 then 1 else 0 := by
  obtain ⟨hsum, hbound⟩ := sizes_le hw hfit
  have hcode := hw.code
  have hinit := hw.init
  unfold numCodePage
  rw [divRoundUpInt_of_nonneg hcode pageSize, show (pageSize : Int) = 512 from rfl]
  apply u32_of_nonneg
  · split <;> omega
  · split <;> omega

theorem lastCodePageSize_eq :
    h.lastCodePageSize = h.code.size - (h.numCodePage - 1) * 512 := by
  have hpages := numCodePage_eq hw hfit
  unfold lastCodePageSize pageSize
  apply s32_of_bounds
  · split at hpages <;> omega
  · split at hpages <;> omega

/-- The code fills its last page up to `lastCodePageSize`, which is between 1 and `PageSize`
(and `PageSize` when there is no code at all). -/
theorem lastCodePageSize_bounds : 0 < h.lastCodePageSize ∧ h.lastCodePageSize ≤ 512 := by
  have hpages := numCodePage_eq hw hfit
  have hlast := lastCodePageSize_eq hw hfit
  split at hpages <;> omega

/-- A last page of code that is not full exists. -/
theorem lastCodePage_index (hroom : h.lastCodePageSize < 512) :
    0 < h.numCodePage ∧ u32 (h.numCodePage - 1) = h.numCodePage - 1 := by
  obtain ⟨hsum, hbound⟩ := sizes_le hw hfit
  have hcode := hw.code
  have hinit := hw.init
  have hpages := numCodePage_eq hw hfit
  have hlast := lastCodePageSize_eq hw hfit
  have hpos : 0 < h.numCodePage := by
    split at hpages <;> omega
  have hcast := u32_of_nonneg (x := h.numCodePage - 1) (by omega) (by split at hpages <;> omega)
  exact ⟨hpos, by omega⟩

theorem tempDataSize_eq : h.tempDataSize = h.initData.size - (512 - h.lastCodePageSize) := by
  obtain ⟨hsum, hbound⟩ := sizes_le hw hfit
  have hcode := hw.code
  have hinit := hw.init
  have hlast := lastCodePageSize_bounds hw hfit
  unfold tempDataSize pageSize
  apply s32_of_bounds
  · omega
  · omega

theorem numDataPage_eq (ht : 0 ≤ h.tempDataSize) :
    (h.numDataPage : Int) = h.tempDataSize / 512 + if h.tempDataSize % 512 > 0 then 1 else 0 := by
  obtain ⟨hsum, hbound⟩ := sizes_le hw hfit
  have hcode := hw.code
  have hlast := lastCodePageSize_bounds hw hfit
  have htemp := tempDataSize_eq hw hfit
  unfold numDataPage
  rw [if_neg (by omega), divRoundUpInt_of_nonneg ht pageSize, show (pageSize : Int) = 512 from rfl]
  apply u32_of_nonneg
  · split <;> omega
  · split <;> omega

theorem lastDataPageSize_eq (ht : 0 ≤ h.tempDataSize) :
    h.lastDataPageSize = h.tempDataSize - (h.numDataPage - 1) * 512 := by
  have hpages := numDataPage_eq hw hfit ht
  unfold lastDataPageSize pageSize
  apply s32_of_bounds
  · split at hpages <;> omega
  · split at hpages <;> omega

/-- Code and initialised data together have no more pages than the address space. -/
theorem numDataPage_le : h.numCodePage + h.numDataPage ≤ h.numPages := by
  obtain ⟨hsum, hbound⟩ := sizes_le hw hfit
  have hinit := hw.init
  have hpages := numCodePage_eq hw hfit
  by_cases ht : h.tempDataSize < 0
  · have hzero : h.numDataPage = 0 := by
      unfold numDataPage
      rw [if_pos ht]
    split at hpages <;> omega
  · have htemp := tempDataSize_eq hw hfit
    have hlast := lastCodePageSize_eq hw hfit
    have hdata := numDataPage_eq hw hfit (by omega)
    split at hdata <;> split at hpages <;> omega

variable {frames : List Word} (hframes : frames.length = h.numPages)
  (haddr : h.code.virtualAddr = 0)

include hframes haddr

theorem codeCopies_inside : ∀ c ∈ h.codeCopies, c.Inside frames := by
  intro c hc
  simp only [codeCopies, List.mem_map, List.mem_range] at hc
  obtain ⟨i, hi, rfl⟩ := hc
  have hle := numDataPage_le hw hfit
  have hlast := lastCodePageSize_bounds hw hfit
  rw [haddr]
  apply inside_page
  · omega
  · omega
  · split
    · omega
    · omega
  · unfold pageSize
    split
    · omega
    · omega

theorem sharedCopies_inside : ∀ c ∈ h.sharedCopies, c.Inside frames := by
  intro c hc
  unfold sharedCopies at hc
  split at hc
  · rename_i hcond
    rw [List.mem_singleton] at hc
    subst hc
    have hle := numDataPage_le hw hfit
    have hbounds := lastCodePageSize_bounds hw hfit
    have htemp := tempDataSize_eq hw hfit
    obtain ⟨hpos, hindex⟩ := lastCodePage_index hw hfit hcond.1
    rw [haddr, hindex]
    apply inside_page
    · omega
    · omega
    · omega
    · unfold firstDataPageSize pageSize
      split <;> omega
  · cases hc

theorem dataCopies_inside : ∀ c ∈ h.dataCopies, c.Inside frames := by
  intro c hc
  simp only [dataCopies, List.mem_map, List.mem_range] at hc
  obtain ⟨j, hj, rfl⟩ := hc
  have hle := numDataPage_le hw hfit
  have ht := tempDataSize_nonneg hj
  have hdata := numDataPage_eq hw hfit ht
  have hlast := lastDataPageSize_eq hw hfit ht
  rw [haddr]
  apply inside_page
  · omega
  · omega
  · split
    · omega
    · split at hdata <;> omega
  · unfold pageSize
    split
    · omega
    · split at hdata <;> omega

/-- Every copy of `AddrSpace(char*)` stays inside one frame of the new address space. -/
theorem pageCopies_inside : ∀ c ∈ h.pageCopies, c.Inside frames := by
  intro c hc
  unfold pageCopies at hc
  rcases List.mem_append.mp hc with hc | hc
  · rcases List.mem_append.mp hc with hc | hc
    · exact codeCopies_inside hw hfit hframes haddr c hc
    · exact sharedCopies_inside hw hfit hframes haddr c hc
  · exact dataCopies_inside hw hfit hframes haddr c hc

end PageCopies

end NoffHeader

/-- The frames that a page table names. -/
def framesOf (table : List TranslationEntry) : List Word := table.map (·.physicalPage)

theorem framesOf_newTable (fs : List Nat) :
    framesOf (newTable fs) = fs.map (BitVec.ofNat 32) := by
  unfold framesOf newTable
  apply List.ext_getElem?
  intro i
  simp only [List.getElem?_map, List.getElem?_mapIdx, Option.map_map]
  rfl

theorem length_newTable (fs : List Nat) : (newTable fs).length = fs.length := by
  simp [newTable]

/-- When page `i` has frame `i`, a copy to physical addresses inside the address space stays
inside its frames. -/
theorem inside_physical {n : Nat} {into numBytes position : Int} (hn : n ≤ numPhysPages)
    (h0 : 0 ≤ into) (hnum : 0 ≤ numBytes) (hend : into + numBytes ≤ n * pageSize) :
    Copy.Inside ⟨.physical into, numBytes, position⟩ ((List.range n).map (BitVec.ofNat 32)) := by
  refine ⟨into, rfl, h0, ?_⟩
  intro a ha ha'
  unfold numPhysPages at hn
  unfold pageSize at hend
  simp only [u32_of_nonneg hnum (by omega)] at ha'
  have hlt : a / 512 < n := by omega
  refine ⟨BitVec.ofNat 32 (a / 512), ?_, ?_⟩
  · exact List.mem_map.mpr ⟨a / 512, List.mem_range.mpr hlt, rfl⟩
  · rw [inFrame_iff, BitVec.toNat_ofNat]
    unfold pageSize
    omega

/-- On a clear bitmap the copies of `AddrSpace(OpenFile*)` stay inside the new frames. -/
theorem NoffHeader.physicalCopies_inside {h : NoffHeader} (hw : h.WellFormed)
    (hfit : h.numPages ≤ numPhysPages) :
    ∀ c ∈ h.physicalCopies, c.Inside ((List.range h.numPages).map (BitVec.ofNat 32)) := by
  have hsum := hw.sized.size_le
  have hcode := hw.codeSize
  have hinit := hw.initSize
  have huninit := hw.uninitSize
  intro c hc
  unfold physicalCopies at hc
  rcases List.mem_append.mp hc with hc | hc
  · split at hc
    · rw [List.mem_singleton] at hc
      subst hc
      have haddr := hw.codeAddr
      apply inside_physical hfit
      · omega
      · exact hcode
      · omega
    · cases hc
  · split at hc
    · rw [List.mem_singleton] at hc
      subst hc
      exact inside_physical hfit hw.initAddr hinit hw.initEnd
    · cases hc

/-! ### Starting the program -/

/-- The registers after `AddrSpace::InitRegisters`. -/
def initRegisters (numPages : Nat) : Reg → Word :=
  let registers : Reg → Word := fun _ => 0
  let registers := Function.update registers pcReg 0
  let registers := Function.update registers nextPCReg 4
  Function.update registers stackReg (BitVec.ofInt 32 (numPages * pageSize - 16))

theorem loadOK_initRegisters (numPages : Nat) : LoadOK (initRegisters numPages) := by
  unfold LoadOK initRegisters
  rw [Function.update_of_ne (by decide), Function.update_of_ne (by decide),
    Function.update_of_ne (by decide)]
  decide

end Nachos
