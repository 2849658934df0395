import Mathlib.Data.List.GetD
import Nachos.Machine.UserSpace
import Nachos.Userprog.LoaderWrites

/-!
# The two loaders

`AddrSpace(OpenFile*)` copies each segment to the virtual address in its header. `AddrSpace(char*)`
copies page by page and puts the initialised data right behind the code, whatever the header says
about its virtual address. With a clear bitmap page `i` has frame `i` in both of them, so each copies
the code and the data with one write of main memory in effect (`runCopies_pageCopies`,
`runCopies_physicalCopies`). In the last pages of memory the place behind the code may be too small for
the data: then `AddrSpace(char*)` stores behind the array `mainMemory`.

`agree_iff`: exactly when a program sees the same bytes with both loaders.
-/

namespace Nachos

open CInt Machine

/-! ## Statement -/

/-- `AddrSpace::AddrSpace(OpenFile *)`: the address space, the bitmap of frames and main memory when
it returns. -/
def addrSpaceOpenFile (executable : List Byte) (physPageBitMap : BitMap) (mainMemory : Nat → Byte) :
    Except Fault (AddrSpace × BitMap × (Nat → Byte)) :=
  let noffH := readHeader executable
  if noffH.noffMagic ≠ noffMagic then .error .assertion
  else if numPhysPages < noffH.numPages then .error .assertion
  else
    match allocFrames physPageBitMap noffH.numPages with
    | (some frames, bitmap) =>
      (runCopies executable (framesOf (newTable frames)) noffH.physicalCopies
        (fun a => if a < noffH.numPages * pageSize then 0 else mainMemory a)).map fun memory =>
        ({ pageTable := some (newTable frames), numPages := noffH.numPages }, bitmap, memory)
    | (none, bitmap) => .ok ({ pageTable := some [], numPages := 0 }, bitmap, mainMemory)

/-- The machine after `RestoreState` of an address space. -/
def AddrSpace.machine (space : AddrSpace) (memory : Nat → Byte) : Machine where
  mainMemory := memory
  registers := fun _ => 0
  pageTable := space.pageTable
  pageTableSize := space.numPages

/-- Both loaders return, and every virtual address reads the same byte through either of the address
spaces. -/
def Agree (o o' : Except Fault (AddrSpace × BitMap × (Nat → Byte))) : Prop :=
  ∃ r r', o = .ok r ∧ o' = .ok r' ∧
    ∀ va, (r.1.machine r.2.2).userByte va = (r'.1.machine r'.2.2).userByte va

/-- A segment lies inside the file and inside the first `n` pages. -/
structure Segment.Lies (s : Segment) (executable : List Byte) (n : Nat) : Prop where
  size : 0 ≤ s.size
  file : 0 < s.size → 0 ≤ s.inFileAddr ∧ s.inFileAddr + s.size ≤ executable.length
  memory : 0 < s.size → 0 ≤ s.virtualAddr ∧ s.virtualAddr + s.size ≤ n * pageSize

/-- A NOFF file whose segments lie inside it and are apart in the address space. -/
structure NoffFile (executable : List Byte) : Prop where
  complete : noffHeaderSize ≤ executable.length
  magic : (readHeader executable).noffMagic = noffMagic
  code : (readHeader executable).code.Lies executable (readHeader executable).numPages
  initData : (readHeader executable).initData.Lies executable (readHeader executable).numPages
  disjoint : 0 < (readHeader executable).code.size → 0 < (readHeader executable).initData.size →
    (readHeader executable).code.virtualAddr + (readHeader executable).code.size ≤
        (readHeader executable).initData.virtualAddr ∨
      (readHeader executable).initData.virtualAddr + (readHeader executable).initData.size ≤
        (readHeader executable).code.virtualAddr

/-- The bytes of a segment. -/
def Segment.bytes (s : Segment) (executable : List Byte) : List Byte :=
  (executable.drop s.inFileAddr.toNat).take s.size.toNat

/-- No page is read at an offset in the file that overflows an `int`. -/
structure IntOffsets (executable : List Byte) : Prop where
  code : ∀ i : Nat, i * pageSize < (readHeader executable).code.size →
    (readHeader executable).code.inFileAddr + i * pageSize < 2 ^ 31
  initData : ∀ i : Nat,
    (readHeader executable).room + i * pageSize < (readHeader executable).initData.size →
    (readHeader executable).initData.inFileAddr + (readHeader executable).room + i * pageSize < 2 ^ 31

/-- The address space fits into memory, and so does the initialised data when it is put behind the
code. That is where it belongs, unless all its bytes are zero. -/
structure SameLayout (executable : List Byte) : Prop where
  fits : (readHeader executable).numPages ≤ numPhysPages
  offsets : IntOffsets executable
  inside : 0 < (readHeader executable).initData.size →
    0 ≤ (readHeader executable).code.virtualAddr + (readHeader executable).code.size ∧
      (readHeader executable).code.virtualAddr + (readHeader executable).code.size +
        (readHeader executable).initData.size ≤ memorySize
  follows : (readHeader executable).initData.virtualAddr =
      (readHeader executable).code.virtualAddr + (readHeader executable).code.size ∨
    ∀ b ∈ (readHeader executable).initData.bytes executable, b = 0

/-! ## Writes to memory -/

theorem writeBytes_nil (memory : Nat → Byte) (into : Int) : writeBytes memory into [] = memory := by
  funext a
  unfold writeBytes
  rw [if_neg (by simp)]

theorem writeBytes_append (memory : Nat → Byte) (into : Int) (bytes bytes' : List Byte) :
    writeBytes (writeBytes memory into bytes) (into + bytes.length) bytes' =
      writeBytes memory into (bytes ++ bytes') := by
  funext a
  unfold writeBytes
  rw [List.length_append]
  push_cast
  by_cases hlow : into ≤ a ∧ (a : Int) < into + bytes.length
  · rw [if_neg (by omega), if_pos hlow, if_pos (by omega), List.getD_append _ _ _ _ (by omega)]
  · by_cases hhigh : into + bytes.length ≤ a ∧ (a : Int) < into + bytes.length + bytes'.length
    · rw [if_pos hhigh, if_pos (by omega), List.getD_append_right _ _ _ _ (by omega)]
      congr 1
      omega
    · rw [if_neg hhigh, if_neg hlow, if_neg (by omega)]

theorem writeMemory_nil (memory : Nat → Byte) (into : Int) :
    writeMemory memory into [] = .ok memory := by
  rw [writeMemory_inside fun hne => absurd rfl hne, writeBytes_nil]

/-- Two stores one behind the other are one store, also when they leave memory. -/
theorem writeMemory_append (memory : Nat → Byte) (into : Int) (bytes bytes' : List Byte) :
    (writeMemory memory into bytes).bind
        (fun memory' => writeMemory memory' (into + bytes.length) bytes') =
      writeMemory memory into (bytes ++ bytes') := by
  by_cases hnone : bytes = []
  · subst hnone
    rw [writeMemory_nil, List.nil_append]
    show writeMemory memory (into + (0 : Nat)) bytes' = _
    rw [Nat.cast_zero, Int.add_zero]
  by_cases hnone' : bytes' = []
  · subst hnone'
    rw [List.append_nil]
    cases hfirst : writeMemory memory into bytes with
    | error fault => rfl
    | ok memory' => exact writeMemory_nil _ _
  have hlen : (bytes ++ bytes').length = bytes.length + bytes'.length := List.length_append
  have hpos := List.length_pos_of_ne_nil hnone
  have hpos' := List.length_pos_of_ne_nil hnone'
  unfold writeMemory
  by_cases hin : 0 ≤ into ∧ into + (bytes.length + bytes'.length) ≤ memorySize
  · rw [if_pos (Or.inr ⟨hin.1, by omega⟩), if_pos (Or.inr ⟨hin.1, by push_cast [hlen]; omega⟩),
      ← writeBytes_append]
    exact if_pos (Or.inr ⟨by omega, by omega⟩)
  · have hboth : ¬ (bytes ++ bytes' = [] ∨ 0 ≤ into ∧ into + (bytes ++ bytes').length ≤ memorySize) := by
      rintro (hnil | hfits)
      · exact hnone (List.append_eq_nil_iff.mp hnil).1
      · push_cast [hlen] at hfits
        omega
    rw [if_neg hboth]
    split
    · rename_i hfirst
      refine if_neg ?_
      rintro (hnil | hfits)
      · exact hnone' hnil
      · have hlow := (hfirst.resolve_left hnone).1
        exact hin ⟨hlow, by omega⟩
    · rfl

theorem writeBytes_of_mem (memory : Nat → Byte) {into : Int} {bytes : List Byte} {a : Nat}
    (h : into ≤ a) (h' : (a : Int) < into + bytes.length) :
    writeBytes memory into bytes a = bytes.getD (a - into).toNat 0 := if_pos ⟨h, h'⟩

theorem writeBytes_of_not_mem (memory : Nat → Byte) {into : Int} {bytes : List Byte} {a : Nat}
    (h : ¬ (into ≤ a ∧ (a : Int) < into + bytes.length)) :
    writeBytes memory into bytes a = memory a := if_neg h

/-! ## Copies into the frames `0, 1, …` -/

theorem length_bytes {executable : List Byte} {position size : Int} (hp : 0 ≤ position)
    (hs : 0 ≤ size) (hend : position + size ≤ executable.length) :
    (((executable.drop position.toNat).take size.toNat).length : Int) = size := by
  rw [List.length_take, List.length_drop]
  omega

theorem split_bytes (executable : List Byte) {position size size' : Int} (hp : 0 ≤ position)
    (hs : 0 ≤ size) (hle : size ≤ size') :
    (executable.drop position.toNat).take size'.toNat =
      (executable.drop position.toNat).take size.toNat ++
        (executable.drop (position + size).toNat).take (size' - size).toNat := by
  rw [show size'.toNat = size.toNat + (size' - size).toNat by omega, List.take_add, List.drop_drop,
    show (position + size).toNat = position.toNat + size.toNat by omega]

section Copies

variable {executable : List Byte} {n : Nat}

theorem resolve_range (hn : n ≤ numPhysPages) {i : Nat} (hi : i < n) (offset : Int) :
    (Target.page i offset).resolve ((List.range n).map (BitVec.ofNat 32)) =
      some (i * pageSize + offset) := by
  unfold numPhysPages at hn
  simp only [Target.resolve, List.getElem?_map, List.getElem?_range hi, Option.map_some,
    BitVec.toNat_ofNat]
  rw [Nat.mod_eq_of_lt (by omega)]

theorem readAt_eq (executable : List Byte) {numBytes position : Int} (hn : 0 ≤ numBytes)
    (hn' : numBytes < 2 ^ 32) (hp : 0 ≤ position) :
    readAt executable numBytes position =
      some ((executable.drop position.toNat).take numBytes.toNat) := by
  have hcount : u32 numBytes = numBytes.toNat := by
    have := u32_of_nonneg hn hn'
    omega
  unfold readAt
  rw [if_neg (Int.not_lt.mpr hp), hcount]

/-- A segment of an address space that fits into memory is stored there. -/
theorem Segment.Lies.writeMemory {s : Segment} (hs : s.Lies executable n) (hn : n ≤ numPhysPages)
    (memory : Nat → Byte) : writeMemory memory s.virtualAddr (s.bytes executable) =
      .ok (writeBytes memory s.virtualAddr (s.bytes executable)) := by
  refine writeMemory_inside fun hne => ?_
  have hpos := List.length_pos_of_ne_nil hne
  have hlen : (s.bytes executable).length ≤ s.size.toNat := List.length_take_le _ _
  obtain ⟨hlow, hhigh⟩ := hs.memory (by omega)
  unfold memorySize
  unfold pageSize numPhysPages at *
  omega

theorem Segment.Lies.length_bytes {s : Segment} (hs : s.Lies executable n) :
    ((s.bytes executable).length : Int) = s.size := by
  have hsize := hs.size
  by_cases hpos : 0 < s.size
  · obtain ⟨hposition, hend⟩ := hs.file hpos
    exact Nachos.length_bytes hposition hsize hend
  · unfold Segment.bytes
    rw [show s.size.toNat = 0 by omega, List.take_zero, List.length_nil]
    omega

/-- A negative offset in the file stops the loader. -/
theorem runCopies_error {frames : List Word} {cs : List Copy} {c : Copy} (hc : c ∈ cs)
    (hposition : c.position < 0) (memory : Nat → Byte) :
    ∃ f, runCopies executable frames cs memory = .error f := by
  induction cs generalizing memory with
  | nil => cases hc
  | cons d cs ih =>
    unfold runCopies
    cases hresolve : d.target.resolve frames with
    | none => exact ⟨_, rfl⟩
    | some into =>
      cases hread : readAt executable d.numBytes d.position with
      | none => exact ⟨_, rfl⟩
      | some bytes =>
        rcases List.mem_cons.mp hc with rfl | hc
        · unfold readAt at hread
          rw [if_pos hposition] at hread
          cases hread
        · simp only
          cases hwrite : writeMemory memory into bytes with
          | error fault => exact ⟨_, rfl⟩
          | ok memory' => exact ih hc _

theorem runCopies_cons {frames : List Word} {c : Copy} {into : Int} {bytes : List Byte}
    (hresolve : c.target.resolve frames = some into)
    (hread : readAt executable c.numBytes c.position = some bytes) (cs : List Copy)
    (memory : Nat → Byte) : runCopies executable frames (c :: cs) memory =
      (writeMemory memory into bytes).bind (runCopies executable frames cs) := by
  rw [runCopies, hresolve]
  simp only
  rw [hread]
  simp only
  cases writeMemory memory into bytes with
  | error fault => rfl
  | ok memory' => rfl

theorem bind_runCopies_nil (frames : List Word) (r : Except Fault (Nat → Byte)) :
    r.bind (runCopies executable frames []) = r := by
  cases r with
  | error fault => rfl
  | ok memory => rfl

theorem runCopies_append (frames : List Word) (cs cs' : List Copy) (memory : Nat → Byte) :
    runCopies executable frames (cs ++ cs') memory =
      (runCopies executable frames cs memory).bind (runCopies executable frames cs') := by
  induction cs generalizing memory with
  | nil => rfl
  | cons c cs ih =>
    rw [List.cons_append, runCopies, runCopies]
    cases hresolve : c.target.resolve frames with
    | none => rfl
    | some into =>
      cases hread : readAt executable c.numBytes c.position with
      | none => rfl
      | some bytes =>
        simp only
        cases hwrite : writeMemory memory into bytes with
        | error fault => rfl
        | ok memory' => exact ih memory'

theorem loopCopies_succ (count k : Nat) (virtualAddr : Int) (numBytes : Nat → Int) (position : Int) :
    loopCopies (count + 1) k virtualAddr numBytes position =
      ⟨.page k virtualAddr, numBytes 0, s32 position⟩ ::
        loopCopies count (k + 1) virtualAddr (fun j => numBytes (j + 1)) (position + 512) := by
  unfold loopCopies
  rw [List.range_succ_eq_map, List.map_cons, List.map_map]
  refine congrArg₂ List.cons (by simp) (List.map_congr_left fun j _ => ?_)
  simp only [Function.comp_apply, Nat.succ_eq_add_one, pageSize]
  push_cast
  rw [show k + (j + 1) = k + 1 + j by omega,
    show position + ((j : Int) + 1) * 512 = position + 512 + j * 512 by omega]

/-- A loop over pages writes the bytes of the segment one behind the other. -/
theorem runCopies_loopCopies (hn : n ≤ numPhysPages) {count k : Nat} (virtualAddr : Int)
    {size position : Int} (hcount : k + count ≤ n) (hsize : 0 ≤ size)
    (hlow : ((count : Int) - 1) * 512 < size) (hhigh : size ≤ count * 512) (hposition : 0 ≤ position)
    (hend : position + size ≤ executable.length)
    (hoffset : ∀ i : Nat, i * pageSize < size → position + i * pageSize < 2 ^ 31)
    (memory : Nat → Byte) :
    runCopies executable ((List.range n).map (BitVec.ofNat 32))
      (loopCopies count k virtualAddr (pageBytes count (size - (count - 1) * 512)) position) memory =
      writeMemory memory (k * 512 + virtualAddr)
        ((executable.drop position.toNat).take size.toNat) := by
  induction count generalizing k size position memory with
  | zero =>
    have hzero : size = 0 := by omega
    rw [hzero, Int.toNat_zero, List.take_zero, writeMemory_nil]
    rfl
  | succ count ih =>
    push_cast at hlow hhigh
    have hfirst := hoffset 0 (by omega)
    have hs32 : s32 position = position := s32_of_bounds (by omega) (by omega)
    have hbound : n * 512 ≤ 65536 := by
      unfold numPhysPages at hn
      omega
    rw [loopCopies_succ, hs32]
    have hresolve := resolve_range hn (show k < n by omega) virtualAddr
    by_cases hlast : count = 0
    · -- the last page
      subst hlast
      have hbytes : pageBytes (0 + 1) (size - (((0 + 1 : Nat) : Int) - 1) * 512) 0 = size := by
        unfold pageBytes
        rw [if_neg (by omega)]
        omega
      have hread := readAt_eq executable hsize (by omega) hposition
      rw [hbytes, runCopies_cons hresolve hread]
      exact bind_runCopies_nil _ _
    · have hbytes : pageBytes (count + 1) (size - (((count + 1 : Nat) : Int) - 1) * 512) 0 = 512 := by
        unfold pageBytes
        rw [if_pos (by omega)]
        rfl
      have hread : readAt executable 512 position = _ :=
        readAt_eq executable (by omega) (by omega) hposition
      rw [hbytes, runCopies_cons hresolve hread]
      have hrest : (fun j => pageBytes (count + 1) (size - (((count + 1 : Nat) : Int) - 1) * 512) (j + 1)) =
          pageBytes count (size - 512 - ((count : Int) - 1) * 512) := by
        funext j
        unfold pageBytes
        push_cast
        by_cases hj : j + 1 < count
        · rw [if_pos (by omega), if_pos (by omega)]
        · rw [if_neg (by omega), if_neg (by omega)]
          omega
      have hnext : ∀ i : Nat, i * pageSize < size - 512 → position + 512 + i * pageSize < 2 ^ 31 := by
        intro i hi
        have hsucc := hoffset (i + 1) (by push_cast; unfold pageSize at *; omega)
        push_cast at hsucc
        unfold pageSize at *
        omega
      have hlen := length_bytes hposition (show (0 : Int) ≤ 512 by omega)
        (show position + 512 ≤ executable.length by omega)
      have hpage : ((k + 1 : Nat) : Int) * 512 + virtualAddr = k * 512 + virtualAddr +
          ((executable.drop position.toNat).take (512 : Int).toNat).length := by
        rw [hlen]
        push_cast
        omega
      have hsplit := split_bytes executable hposition (show (0 : Int) ≤ 512 by omega)
        (show (512 : Int) ≤ size by omega)
      rw [hrest, hsplit, ← writeMemory_append, ← hpage]
      exact congrArg _ (funext fun memory' =>
        ih (by omega) (by omega) (by omega) (by omega) (by omega) (by omega) hnext memory')

end Copies

/-! ## The copies of the loaders -/

namespace NoffFile

variable {executable : List Byte} (hf : NoffFile executable)
  (hfits : (readHeader executable).numPages ≤ numPhysPages)

include hf

/-- Segments that are apart have room for both of them. -/
theorem sizes_le : (readHeader executable).code.size + (readHeader executable).initData.size ≤
    (readHeader executable).numPages * 512 := by
  have hcode := hf.code.size
  have hinit := hf.initData.size
  have hcodeMemory := hf.code.memory
  have hinitMemory := hf.initData.memory
  have hdisjoint := hf.disjoint
  unfold pageSize at *
  omega

include hfits

theorem runCopies_codeCopies
    (hoffset : ∀ i : Nat, i * pageSize < (readHeader executable).code.size →
      (readHeader executable).code.inFileAddr + i * pageSize < 2 ^ 31) (memory : Nat → Byte) :
    runCopies executable ((List.range (readHeader executable).numPages).map (BitVec.ofNat 32))
      (readHeader executable).codeCopies memory =
      .ok (writeBytes memory (readHeader executable).code.virtualAddr
        ((readHeader executable).code.bytes executable)) := by
  have hw := isInt_readHeader executable
  have hsize := hf.code.size
  have hinit := hf.initData.size
  have hsum := hf.sizes_le
  have hpages := hw.numCodePage hsize
  have hmul := NoffHeader.codePages_mul hsize
  have hroom := (readHeader executable).room_bounds
  have hlast := (readHeader executable).lastCodePageSize_room
  rw [NoffHeader.codeCopies_eq, hpages]
  by_cases hpos : 0 < (readHeader executable).code.size
  · obtain ⟨hposition, hend⟩ := hf.code.file hpos
    have hlast' : (readHeader executable).lastCodePageSize =
        (readHeader executable).code.size - ((readHeader executable).codePages - 1) * 512 := by
      omega
    rw [hlast', runCopies_loopCopies hfits _ (by omega) hsize (by omega) (by omega) hposition hend hoffset,
      Nat.cast_zero, Int.zero_mul, Int.zero_add]
    exact hf.code.writeMemory hfits memory
  · have hzero : (readHeader executable).code.size = 0 := by omega
    have hnone : (readHeader executable).codePages = 0 := by omega
    unfold Segment.bytes
    rw [hzero, hnone, Int.toNat_zero, List.take_zero, writeBytes_nil]
    rfl

/-- A copy beside the end of the code. -/
theorem runCopies_shared {numBytes : Int} (hpos : 0 < numBytes)
    (hroom : 0 < (readHeader executable).room) (hle : numBytes ≤ (readHeader executable).initData.size)
    (cs : List Copy) (memory : Nat → Byte) :
    runCopies executable ((List.range (readHeader executable).numPages).map (BitVec.ofNat 32))
      (⟨.page (u32 ((readHeader executable).numCodePage - 1))
        ((readHeader executable).code.virtualAddr + (readHeader executable).lastCodePageSize),
        numBytes, (readHeader executable).initData.inFileAddr⟩ :: cs) memory =
    (writeMemory memory ((readHeader executable).code.virtualAddr + (readHeader executable).code.size)
        ((executable.drop (readHeader executable).initData.inFileAddr.toNat).take numBytes.toNat)).bind
      (runCopies executable
        ((List.range (readHeader executable).numPages).map (BitVec.ofNat 32)) cs) := by
  have hw := isInt_readHeader executable
  have hsize := hf.code.size
  have hsum := hf.sizes_le
  have hpages := hw.numCodePage hsize
  have hmul := NoffHeader.codePages_mul hsize
  have hlast := (readHeader executable).lastCodePageSize_room
  have hroom' := (readHeader executable).room_bounds
  have hbound : (readHeader executable).numPages * (512 : Int) ≤ 65536 := by
    unfold numPhysPages at hfits
    omega
  obtain ⟨hposition, hend⟩ := hf.initData.file (by omega)
  have hu32 := u32_of_nonneg (x := ((readHeader executable).numCodePage : Int) - 1) (by omega) (by omega)
  have hindex : u32 ((readHeader executable).numCodePage - 1) < (readHeader executable).numPages := by
    omega
  have hread : readAt executable numBytes (readHeader executable).initData.inFileAddr = _ :=
    readAt_eq executable (by omega) (by omega) hposition
  have hresolve := resolve_range hfits hindex
    ((readHeader executable).code.virtualAddr + (readHeader executable).lastCodePageSize)
  refine (runCopies_cons (c := ⟨.page _ _, numBytes, _⟩) hresolve hread cs memory).trans ?_
  congr 2
  unfold pageSize
  omega

/-- The pages behind the last one of the code. -/
theorem runCopies_dataPages (ht : ¬ (readHeader executable).tempDataSize < 0)
    (hoffset : ∀ i : Nat,
      (readHeader executable).room + i * pageSize < (readHeader executable).initData.size →
      (readHeader executable).initData.inFileAddr + (readHeader executable).room + i * pageSize < 2 ^ 31)
    (memory : Nat → Byte) :
    runCopies executable ((List.range (readHeader executable).numPages).map (BitVec.ofNat 32))
      (readHeader executable).dataCopies memory =
    writeMemory memory ((readHeader executable).code.virtualAddr +
        (readHeader executable).code.size + (readHeader executable).room)
      ((executable.drop ((readHeader executable).initData.inFileAddr +
          (readHeader executable).room).toNat).take
        ((readHeader executable).initData.size - (readHeader executable).room).toNat) := by
  have hw := isInt_readHeader executable
  have hsize := hf.code.size
  have hinit := hf.initData.size
  have hsum := hf.sizes_le
  have hpages := hw.numCodePage hsize
  have hmul := NoffHeader.codePages_mul hsize
  have hroom := (readHeader executable).room_bounds
  obtain ⟨htemp, hhigh⟩ := NoffHeader.tempDataSize_of_nonneg ht
  have hbound : (readHeader executable).numPages * (512 : Int) ≤ 65536 := by
    unfold numPhysPages at hfits
    omega
  have hdata := NoffHeader.numDataPage_temp ht
  rw [NoffHeader.dataCopies_eq, NoffHeader.firstDataPageSize_room ht, hpages]
  by_cases hpos : 0 < (readHeader executable).tempDataSize
  · obtain ⟨hlow, hhigh⟩ := divRoundUp_bounds hpos
    rw [← hdata] at hlow hhigh
    obtain ⟨hposition, hend⟩ := hf.initData.file (by omega)
    have heq : (readHeader executable).tempDataSize =
        (readHeader executable).initData.size - (readHeader executable).room := by
      omega
    rw [NoffHeader.lastDataPageSize_temp hpos, heq,
      runCopies_loopCopies hfits _ (by omega) (by omega) (by omega) (by omega) (by omega) (by omega)
        fun i hi => hoffset i (by omega)]
    congr 1
    omega
  · have hnone : (readHeader executable).numDataPage = 0 := by
      rw [hdata, show (readHeader executable).tempDataSize.toNat = 0 by omega]
      rfl
    rw [hnone, show ((readHeader executable).initData.size - (readHeader executable).room).toNat = 0 by
      omega, List.take_zero, writeMemory_nil]
    rfl

/-- The initialised data is put behind the code. -/
theorem runCopies_dataCopies
    (hoffset : ∀ i : Nat,
      (readHeader executable).room + i * pageSize < (readHeader executable).initData.size →
      (readHeader executable).initData.inFileAddr + (readHeader executable).room + i * pageSize < 2 ^ 31)
    (memory : Nat → Byte) :
    runCopies executable ((List.range (readHeader executable).numPages).map (BitVec.ofNat 32))
      ((readHeader executable).sharedCopies ++ (readHeader executable).dataCopies) memory =
      writeMemory memory ((readHeader executable).code.virtualAddr + (readHeader executable).code.size)
        ((readHeader executable).initData.bytes executable) := by
  have hw := isInt_readHeader executable
  have hinit := hf.initData.size
  have hroom := (readHeader executable).room_bounds
  have hlast := (readHeader executable).lastCodePageSize_room
  have htemp := hw.tempDataSize_neg_iff
  unfold NoffHeader.sharedCopies Segment.bytes
  rw [show (pageSize : Int) = 512 from rfl]
  by_cases ht : (readHeader executable).tempDataSize < 0
  · obtain ⟨hlt, -⟩ := htemp.mp ht
    have hfirst : (readHeader executable).firstDataPageSize = (readHeader executable).initData.size :=
      if_pos ht
    rw [NoffHeader.dataCopies_eq_nil ht, List.append_nil, hfirst]
    by_cases hpos : 0 < (readHeader executable).initData.size
    · rw [if_pos (by omega), hf.runCopies_shared hfits hpos (by omega) (Int.le_refl _)]
      exact bind_runCopies_nil _ _
    · rw [if_neg (by omega), show (readHeader executable).initData.size.toNat = 0 by omega,
        List.take_zero, writeMemory_nil]
      rfl
  · have hge : (readHeader executable).room ≤ (readHeader executable).initData.size := by
      omega
    rw [NoffHeader.firstDataPageSize_room ht]
    by_cases hpos : 0 < (readHeader executable).room
    · obtain ⟨hposition, hend⟩ := hf.initData.file (by omega)
      rw [if_pos (by omega), List.singleton_append, hf.runCopies_shared hfits hpos hpos hge,
        split_bytes executable hposition hroom.1 hge, ← writeMemory_append,
        length_bytes hposition hroom.1 (by omega)]
      exact congrArg _ (funext fun memory' => hf.runCopies_dataPages hfits ht hoffset memory')
    · have hzero : (readHeader executable).room = 0 := by omega
      rw [if_neg (by omega), List.nil_append, hf.runCopies_dataPages hfits ht hoffset, hzero,
        Int.add_zero, Int.add_zero, Int.sub_zero]

theorem runCopies_pageCopies (hoffsets : IntOffsets executable) (memory : Nat → Byte) :
    runCopies executable ((List.range (readHeader executable).numPages).map (BitVec.ofNat 32))
      (readHeader executable).pageCopies memory =
      writeMemory (writeBytes memory (readHeader executable).code.virtualAddr
          ((readHeader executable).code.bytes executable))
        ((readHeader executable).code.virtualAddr + (readHeader executable).code.size)
        ((readHeader executable).initData.bytes executable) := by
  unfold NoffHeader.pageCopies
  rw [List.append_assoc, runCopies_append, hf.runCopies_codeCopies hfits hoffsets.code memory]
  exact hf.runCopies_dataCopies hfits hoffsets.initData _

theorem runCopies_physicalCopies (frames : List Word) (memory : Nat → Byte) :
    runCopies executable frames (readHeader executable).physicalCopies memory =
      .ok (writeBytes (writeBytes memory (readHeader executable).code.virtualAddr
          ((readHeader executable).code.bytes executable))
        (readHeader executable).initData.virtualAddr
        ((readHeader executable).initData.bytes executable)) := by
  have hw := isInt_readHeader executable
  -- one segment, copied or empty
  have hsegment : ∀ s : Segment, s.Lies executable (readHeader executable).numPages →
      s.size < 2 ^ 31 → ∀ memory,
      runCopies executable frames
        (if s.size > 0 then [⟨.physical s.virtualAddr, s.size, s.inFileAddr⟩] else []) memory =
      .ok (writeBytes memory s.virtualAddr (s.bytes executable)) := by
    intro s hs hlt memory
    unfold Segment.bytes
    by_cases hpos : s.size > 0
    · have hread : readAt executable s.size s.inFileAddr = _ :=
        readAt_eq executable hs.size (by omega) (hs.file hpos).1
      rw [if_pos hpos, runCopies_cons rfl hread]
      exact (bind_runCopies_nil _ _).trans (hs.writeMemory hfits memory)
    · have hsize := hs.size
      rw [if_neg hpos, show s.size.toNat = 0 by omega, List.take_zero, writeBytes_nil]
      rfl
  unfold NoffHeader.physicalCopies
  rw [runCopies_append, hsegment _ hf.code hw.codeSize.2 memory]
  exact hsegment _ hf.initData hw.initSize.2 _

/-- An offset that overflows stops `AddrSpace(char*)`. -/
theorem offsets_of_run {frames : List Word} {memory memory' : Nat → Byte}
    (h : runCopies executable frames (readHeader executable).pageCopies memory = .ok memory') :
    IntOffsets executable := by
  have hw := isInt_readHeader executable
  have hsize := hf.code.size
  have hinit := hf.initData.size
  have hsum := hf.sizes_le
  have hbound : (readHeader executable).numPages * (512 : Int) ≤ 65536 := by
    unfold numPhysPages at hfits
    omega
  have hpages := hw.numCodePage hsize
  have hmul := NoffHeader.codePages_mul hsize
  have hroom := (readHeader executable).room_bounds
  have hnonneg : ∀ c ∈ (readHeader executable).pageCopies, 0 ≤ c.position := by
    intro c hc
    by_contra hneg
    obtain ⟨f, hf⟩ := runCopies_error hc (Int.not_le.mp hneg) memory
    rw [hf] at h
    cases h
  have hint : ∀ {x : Int}, 0 ≤ s32 x → x < 2 ^ 32 → x < 2 ^ 31 := by
    intro x hx hlt
    by_contra hge
    unfold s32 at hx
    rw [Int.bmod_def] at hx
    split at hx <;> omega
  constructor
  · intro i hi
    have hcopy := hnonneg ⟨.page (0 + i) (readHeader executable).code.virtualAddr, _,
      s32 ((readHeader executable).code.inFileAddr + i * pageSize)⟩ (by
        refine List.mem_append_left _ (List.mem_append_left _ ?_)
        rw [NoffHeader.codeCopies_eq]
        refine List.mem_map.mpr ⟨i, List.mem_range.mpr ?_, rfl⟩
        unfold pageSize at hi
        omega)
    have hlow := hw.codeFile
    exact hint hcopy (by unfold pageSize at *; omega)
  · intro i hi
    unfold pageSize at hi
    have ht : ¬ (readHeader executable).tempDataSize < 0 := by
      rw [hw.tempDataSize_neg_iff]
      omega
    obtain ⟨htemp, -⟩ := NoffHeader.tempDataSize_of_nonneg ht
    have hpos : 0 < (readHeader executable).tempDataSize := by omega
    obtain ⟨-, hhigh⟩ := divRoundUp_bounds hpos
    rw [← NoffHeader.numDataPage_temp ht] at hhigh
    have hcopy := hnonneg ⟨.page ((readHeader executable).numCodePage + i)
      (readHeader executable).code.virtualAddr, _,
      s32 ((readHeader executable).initData.inFileAddr + (readHeader executable).room + i * pageSize)⟩ (by
        refine List.mem_append_right _ ?_
        rw [NoffHeader.dataCopies_eq, NoffHeader.firstDataPageSize_room ht]
        exact List.mem_map.mpr ⟨i, List.mem_range.mpr (by omega), rfl⟩)
    have hlow := hw.initFile
    exact hint hcopy (by unfold pageSize at *; omega)

end NoffFile

/-! ## The bytes that a program sees -/

/-- With frames `0, 1, …` a program sees main memory from its start. -/
theorem userByte_range {n : Nat} (hn : n ≤ numPhysPages) (memory : Nat → Byte) (va : Word) :
    ((AddrSpace.mk (some (newTable (List.range n))) n).machine memory).userByte va =
      if va.toNat < n * pageSize then some (memory va.toNat) else none := by
  have hmapping : ((AddrSpace.mk (some (newTable (List.range n))) n).machine memory).mapping =
      some ((newTable (List.range n)).map TranslationEntry.mapping) := rfl
  unfold Machine.userByte Machine.address
  rw [hmapping, Option.bind_some]
  show Option.map memory (if va.toNat / pageSize < n then _ else none) = _
  by_cases hva : va.toNat < n * pageSize
  · have hpage : va.toNat / pageSize < n := (Nat.div_lt_iff_lt_mul (by decide)).mpr hva
    have hentry : ((newTable (List.range n)).map TranslationEntry.mapping)[va.toNat / pageSize]? =
        some (newEntry (va.toNat / pageSize) (va.toNat / pageSize)).mapping := by
      rw [List.getElem?_map, newTable, List.getElem?_mapIdx, List.getElem?_range hpage]
      rfl
    have hframe : (newEntry (va.toNat / pageSize) (va.toNat / pageSize)).mapping.physicalPage.toNat =
        va.toNat / pageSize := by
      unfold numPhysPages at hn
      show (BitVec.ofNat 32 (va.toNat / pageSize)).toNat = _
      rw [BitVec.toNat_ofNat, Nat.mod_eq_of_lt (by omega)]
    rw [if_pos hpage, if_pos hva, hentry, Option.map_some, Option.map_some, hframe, Nat.mul_comm,
      Nat.div_add_mod]
  · have hpage : ¬ va.toNat / pageSize < n := by
      rwa [Nat.div_lt_iff_lt_mul (by decide)]
    rw [if_neg hpage, if_neg hva]
    rfl

theorem userByte_eq_iff {n : Nat} (hn : n ≤ numPhysPages) (memory memory' : Nat → Byte) :
    (∀ va, ((AddrSpace.mk (some (newTable (List.range n))) n).machine memory).userByte va =
      ((AddrSpace.mk (some (newTable (List.range n))) n).machine memory').userByte va) ↔
      ∀ a < n * pageSize, memory a = memory' a := by
  constructor
  · intro h a ha
    have hlt : a < 2 ^ 32 := by
      unfold numPhysPages at hn
      unfold pageSize at ha
      omega
    have hbyte := h (BitVec.ofNat 32 a)
    rw [userByte_range hn, userByte_range hn, BitVec.toNat_ofNat, Nat.mod_eq_of_lt hlt, if_pos ha,
      if_pos ha] at hbyte
    exact Option.some.inj hbyte
  · intro h va
    rw [userByte_range hn, userByte_range hn]
    split
    · rename_i hva
      rw [h _ hva]
    · rfl

/-- The first and the last byte of a list that is not zero. -/
theorem exists_first_last {bytes : List Byte} (h : ∃ b ∈ bytes, b ≠ 0) :
    ∃ p q, p < bytes.length ∧ q < bytes.length ∧ bytes.getD p 0 ≠ 0 ∧ bytes.getD q 0 ≠ 0 ∧
      (∀ i < p, bytes.getD i 0 = 0) ∧ ∀ i > q, bytes.getD i 0 = 0 := by
  induction bytes with
  | nil =>
    obtain ⟨b, hb, -⟩ := h
    cases hb
  | cons c bytes ih =>
    by_cases hrest : ∃ b ∈ bytes, b ≠ 0
    · obtain ⟨p, q, hp, hq, hbp, hbq, hbefore, hbehind⟩ := ih hrest
      have hlast : ∀ i > q + 1, (c :: bytes).getD i 0 = 0 := by
        intro i hi
        obtain ⟨i, rfl⟩ := Nat.exists_eq_succ_of_ne_zero (Nat.ne_zero_of_lt hi)
        exact hbehind i (Nat.lt_of_succ_lt_succ hi)
      by_cases hc : c = 0
      · refine ⟨p + 1, q + 1, Nat.succ_lt_succ hp, Nat.succ_lt_succ hq, hbp, hbq, fun i hi => ?_, hlast⟩
        cases i with
        | zero => exact hc
        | succ i => exact hbefore i (Nat.lt_of_succ_lt_succ hi)
      · exact ⟨0, q + 1, Nat.succ_pos _, Nat.succ_lt_succ hq, hc, hbq,
          fun i hi => absurd hi (Nat.not_lt_zero i), hlast⟩
    · have hzero : ∀ i, bytes.getD i 0 = 0 := by
        intro i
        by_cases hi : i < bytes.length
        · rw [List.getD_eq_getElem _ _ hi]
          by_contra hne
          exact hrest ⟨_, List.getElem_mem hi, hne⟩
        · exact List.getD_eq_default _ _ (Nat.not_lt.mp hi)
      obtain ⟨b, hb, hne⟩ := h
      obtain rfl : b = c := by
        rcases List.mem_cons.mp hb with hb | hb
        · exact hb
        · exact absurd ⟨b, hb, hne⟩ hrest
      refine ⟨0, 0, Nat.succ_pos _, Nat.succ_pos _, hne, hne, fun i hi => absurd hi (Nat.not_lt_zero i),
        fun i hi => ?_⟩
      obtain ⟨i, rfl⟩ := Nat.exists_eq_succ_of_ne_zero (Nat.ne_zero_of_lt hi)
      exact hzero i

/-- Bytes put over zeros at two places look the same when they are zeros themselves. -/
theorem writeBytes_eq_iff {n : Nat} (memory : Nat → Byte) {x y : Int} {bytes : List Byte}
    (hx : 0 < bytes.length → 0 ≤ x ∧ x + bytes.length ≤ n)
    (hxzero : ∀ a : Nat, x ≤ a → (a : Int) < x + bytes.length → memory a = 0)
    (hyzero : ∀ a : Nat, a < n → y ≤ a → (a : Int) < y + bytes.length → memory a = 0) :
    (∀ a < n, writeBytes memory x bytes a = writeBytes memory y bytes a) ↔
      x = y ∨ ∀ b ∈ bytes, b = 0 := by
  constructor
  · intro h
    by_contra hnot
    obtain ⟨hne, hnonzero⟩ := not_or.mp hnot
    have hexists : ∃ b ∈ bytes, b ≠ 0 := by
      by_contra hall
      exact hnonzero fun b hb => by_contra fun hb' => hall ⟨b, hb, hb'⟩
    obtain ⟨p, q, hp, hq, hbp, hbq, hbefore, hbehind⟩ := exists_first_last hexists
    obtain ⟨hx0, hxn⟩ := hx (by omega)
    -- the first byte that is not zero, or the last one, is not where the other write has it
    have hdiffer : ∀ r : Nat, r < bytes.length → bytes.getD r 0 ≠ 0 →
        bytes.getD (x + r - y).toNat 0 = 0 ∨ x + r - y < 0 → False := by
      intro r hr hbr hother
      have heq := h (x + r).toNat (by omega)
      rw [writeBytes_of_mem _ (by omega) (by omega),
        show (((x + r).toNat : Int) - x).toNat = r by omega] at heq
      by_cases hin : y ≤ ((x + r).toNat : Int) ∧ ((x + r).toNat : Int) < y + bytes.length
      · rw [writeBytes_of_mem _ hin.1 hin.2, show ((x + r).toNat : Int) - y = x + r - y by omega] at heq
        rcases hother with hother | hother
        · exact hbr (heq.trans hother)
        · omega
      · rw [writeBytes_of_not_mem _ hin, hxzero _ (by omega) (by omega)] at heq
        exact hbr heq
    rcases Int.lt_or_gt_of_ne hne with hlt | hgt
    · refine hdiffer p hp hbp ?_
      by_cases hneg : x + p - y < 0
      · exact Or.inr hneg
      · exact Or.inl (hbefore _ (by omega))
    · exact hdiffer q hq hbq (Or.inl (hbehind _ (by omega)))
  · rintro (rfl | hzero) a ha
    · rfl
    · have hbyte : ∀ i, bytes.getD i 0 = 0 := by
        intro i
        by_cases hi : i < bytes.length
        · rw [List.getD_eq_getElem _ _ hi]
          exact hzero _ (List.getElem_mem hi)
        · exact List.getD_eq_default _ _ (Nat.not_lt.mp hi)
      have hsame : ∀ z : Int, (∀ a : Nat, a < n → z ≤ a → (a : Int) < z + bytes.length → memory a = 0) →
          writeBytes memory z bytes a = memory a := by
        intro z hz
        unfold writeBytes
        split
        · rename_i hin
          rw [hbyte, hz a ha hin.1 hin.2]
        · rfl
      rw [hsame x fun a _ => hxzero a, hsame y hyzero]

/-! ## The loaders -/

section Loaders

variable {executable : List Byte}

/-- Main memory in front of the `ReadAt`s. -/
def zeroedBelow (n : Nat) (memory : Nat → Byte) : Nat → Byte := fun a =>
  if a < n * pageSize then 0 else memory a

theorem addrSpaceOpenFile_eq (hf : NoffFile executable)
    (hfits : (readHeader executable).numPages ≤ numPhysPages) (memory : Nat → Byte) :
    ∃ bitmap, addrSpaceOpenFile executable (BitMap.new numPhysPages) memory =
      .ok (⟨some (newTable (List.range (readHeader executable).numPages)),
          (readHeader executable).numPages⟩, bitmap,
        writeBytes (writeBytes (zeroedBelow (readHeader executable).numPages memory)
            (readHeader executable).code.virtualAddr ((readHeader executable).code.bytes executable))
          (readHeader executable).initData.virtualAddr
          ((readHeader executable).initData.bytes executable)) := by
  obtain ⟨bitmap, halloc⟩ := allocFrames_new hfits
  refine ⟨bitmap, ?_⟩
  simp only [addrSpaceOpenFile, hf.magic, halloc]
  rw [if_neg (by simp), if_neg (by omega)]
  exact congrArg (Except.map _) (hf.runCopies_physicalCopies hfits _ _)

/-- `AddrSpace(char*)` on a clear bitmap, up to its `ReadAt`s. -/
theorem addrSpace_eq (hf : NoffFile executable) (hfits : (readHeader executable).numPages ≤ numPhysPages)
    (isNull : Bool) (memory : Nat → Byte) :
    ∃ bitmap, addrSpace executable isNull (BitMap.new numPhysPages) memory =
      (runCopies executable ((List.range (readHeader executable).numPages).map (BitVec.ofNat 32))
        (readHeader executable).pageCopies (zeroedBelow (readHeader executable).numPages memory)).map
      fun memory => (⟨some (newTable (List.range (readHeader executable).numPages)),
          (readHeader executable).numPages⟩, bitmap, memory) := by
  have hclear : (BitMap.new numPhysPages).numClear = numPhysPages := by decide +kernel
  obtain ⟨fs, bitmap, zeroed, hbuild⟩ := buildPages_of_le (hclear.symm ▸ hfits) memory
  obtain ⟨halloc, hzero⟩ := buildPages_some hbuild
  obtain ⟨bitmap', halloc'⟩ := allocFrames_new hfits
  rw [halloc'] at halloc
  obtain ⟨rfl, rfl⟩ : List.range (readHeader executable).numPages = fs ∧ bitmap' = bitmap := by
    simpa using halloc
  have hzeroed : zeroed = zeroedBelow (readHeader executable).numPages memory := by
    funext a
    unfold zeroedBelow
    rw [hzero]
    simp only [List.mem_range, Nat.div_lt_iff_lt_mul (show 0 < pageSize by decide)]
  refine ⟨bitmap', ?_⟩
  simp only [addrSpace, hf.magic, hbuild, framesOf_newTable]
  rw [if_neg (by simp), if_neg (by omega), hzeroed]

theorem writeBytes_congr {memory memory' : Nat → Byte} {a : Nat} (h : memory a = memory' a) (x : Int)
    (bytes : List Byte) : writeBytes memory x bytes a = writeBytes memory' x bytes a := by
  unfold writeBytes
  rw [h]

/-- The two ways to place the initialised data behind the same code. -/
theorem placed_eq_iff (hf : NoffFile executable) (memory memory' : Nat → Byte) :
    (∀ a < (readHeader executable).numPages * pageSize,
      writeBytes (writeBytes (zeroedBelow (readHeader executable).numPages memory)
            (readHeader executable).code.virtualAddr ((readHeader executable).code.bytes executable))
          (readHeader executable).initData.virtualAddr
          ((readHeader executable).initData.bytes executable) a =
      writeBytes (writeBytes (zeroedBelow (readHeader executable).numPages memory')
            (readHeader executable).code.virtualAddr ((readHeader executable).code.bytes executable))
          ((readHeader executable).code.virtualAddr + (readHeader executable).code.size)
          ((readHeader executable).initData.bytes executable) a) ↔
      ((readHeader executable).initData.virtualAddr =
          (readHeader executable).code.virtualAddr + (readHeader executable).code.size ∨
        ∀ b ∈ (readHeader executable).initData.bytes executable, b = 0) := by
  have hsize := hf.code.size
  have hinit := hf.initData.size
  have hmemory := hf.initData.memory
  have hcodeMemory := hf.code.memory
  have hdisjoint := hf.disjoint
  have hcodeLength : ((readHeader executable).code.bytes executable).length ≤
      (readHeader executable).code.size.toNat := List.length_take_le _ _
  have hinitLength : ((readHeader executable).initData.bytes executable).length ≤
      (readHeader executable).initData.size.toNat := List.length_take_le _ _
  have hzero : ∀ (memory : Nat → Byte) (a : Nat), a < (readHeader executable).numPages * pageSize →
      zeroedBelow (readHeader executable).numPages memory a = 0 := fun _ _ ha => if_pos ha
  -- the code leaves a byte outside its range as it was
  have hcode : ∀ a : Nat, a < (readHeader executable).numPages * pageSize →
      ¬ ((readHeader executable).code.virtualAddr ≤ a ∧ (a : Int) <
        (readHeader executable).code.virtualAddr + (readHeader executable).code.size) →
      writeBytes (zeroedBelow (readHeader executable).numPages memory)
        (readHeader executable).code.virtualAddr ((readHeader executable).code.bytes executable) a = 0 := by
    intro a ha hout
    rw [writeBytes_of_not_mem _ (by omega), hzero memory a ha]
  rw [← writeBytes_eq_iff (n := (readHeader executable).numPages * pageSize)
    (writeBytes (zeroedBelow (readHeader executable).numPages memory)
      (readHeader executable).code.virtualAddr ((readHeader executable).code.bytes executable))]
  · refine forall_congr' fun a => imp_congr_right fun ha => ?_
    rw [writeBytes_congr (writeBytes_congr ((hzero memory' a ha).trans (hzero memory a ha).symm) _ _)]
  · intro hpos
    obtain ⟨hlow, hhigh⟩ := hmemory (by omega)
    exact ⟨hlow, by push_cast; omega⟩
  · intro a ha ha'
    obtain ⟨hlow, hhigh⟩ := hmemory (by omega)
    exact hcode a (by unfold pageSize at *; omega) (by omega)
  · intro a ha hlow _
    exact hcode a ha (by omega)

theorem sameLayout_of_agree (hf : NoffFile executable) {isNull : Bool} {memory memory' : Nat → Byte}
    (h : Agree (addrSpaceOpenFile executable (BitMap.new numPhysPages) memory)
      (addrSpace executable isNull (BitMap.new numPhysPages) memory')) : SameLayout executable := by
  obtain ⟨r, r', hr, hr', hsame⟩ := h
  have hfits : (readHeader executable).numPages ≤ numPhysPages := by
    by_contra hmany
    simp only [addrSpaceOpenFile, hf.magic] at hr
    rw [if_neg (by simp), if_pos (by omega)] at hr
    cases hr
  obtain ⟨bitmap, hopen⟩ := addrSpaceOpenFile_eq hf hfits memory
  obtain ⟨bitmap', hname⟩ := addrSpace_eq hf hfits isNull memory'
  rw [hopen] at hr
  cases hr
  rw [hname] at hr'
  cases hrun : runCopies executable
      ((List.range (readHeader executable).numPages).map (BitVec.ofNat 32))
      (readHeader executable).pageCopies (zeroedBelow (readHeader executable).numPages memory') with
  | error f =>
    rw [hrun] at hr'
    cases hr'
  | ok final =>
    rw [hrun] at hr'
    cases hr'
    have hoffsets := hf.offsets_of_run hfits hrun
    rw [hf.runCopies_pageCopies hfits hoffsets] at hrun
    obtain ⟨rfl, hinside⟩ := writeMemory_ok hrun
    refine ⟨hfits, hoffsets, fun hpos => ?_,
      (placed_eq_iff hf memory memory').mp ((userByte_eq_iff hfits _ _).mp hsame)⟩
    obtain ⟨hlow, hhigh⟩ := hinside fun hnil => by
      have hlen := hf.initData.length_bytes
      rw [hnil, List.length_nil] at hlen
      omega
    rw [hf.initData.length_bytes] at hhigh
    exact ⟨hlow, hhigh⟩

/-- A program sees the same bytes with both loaders exactly when its initialised data follows its
code, or is zero and has room behind the code. -/
theorem agree_iff (executable : List Byte) (isNull : Bool) (mainMemory mainMemory' : Nat → Byte)
    (hf : NoffFile executable) :
    Agree (addrSpaceOpenFile executable (BitMap.new numPhysPages) mainMemory)
      (addrSpace executable isNull (BitMap.new numPhysPages) mainMemory') ↔ SameLayout executable := by
  refine ⟨sameLayout_of_agree hf, fun hlayout => ?_⟩
  have hplaced := placed_eq_iff hf mainMemory mainMemory'
  obtain ⟨bitmap, hopen⟩ := addrSpaceOpenFile_eq hf hlayout.fits mainMemory
  obtain ⟨bitmap', hname⟩ := addrSpace_eq hf hlayout.fits isNull mainMemory'
  have hinside : (readHeader executable).initData.bytes executable ≠ [] →
      0 ≤ (readHeader executable).code.virtualAddr + (readHeader executable).code.size ∧
        (readHeader executable).code.virtualAddr + (readHeader executable).code.size +
          ((readHeader executable).initData.bytes executable).length ≤ memorySize := by
    intro hne
    have hpos := List.length_pos_of_ne_nil hne
    have hlen := hf.initData.length_bytes
    rw [hlen]
    exact hlayout.inside (by omega)
  rw [hopen, hname, hf.runCopies_pageCopies hlayout.fits hlayout.offsets, writeMemory_inside hinside]
  exact ⟨_, _, rfl, rfl, (userByte_eq_iff hlayout.fits _ _).mpr (hplaced.mpr hlayout.follows)⟩

end Loaders

/-- The initialised data of `smallFile` follows its code. -/
theorem agree_smallFile :
    NoffFile smallFile ∧
      Agree (addrSpaceOpenFile smallFile (BitMap.new numPhysPages) fun _ => 0xff)
        (addrSpace smallFile true (BitMap.new numPhysPages) fun _ => 0xff) := by
  have hf : NoffFile smallFile := by
    refine ⟨by decide, by decide, ⟨by decide, by decide, by decide⟩, ⟨by decide, by decide, by decide⟩,
      fun _ _ => Or.inl (by decide)⟩
  refine ⟨hf, (agree_iff smallFile true _ _ hf).mpr ⟨by decide, ⟨fun i hi => ?_, fun i hi => ?_⟩,
    by decide, Or.inl (by decide)⟩⟩
  · have hsize : (readHeader smallFile).code.size = 5 := by decide
    have hfile : (readHeader smallFile).code.inFileAddr = 40 := by decide
    omega
  · have hsize : (readHeader smallFile).initData.size = 2 := by decide
    have hfile : (readHeader smallFile).initData.inFileAddr = 45 := by decide
    have hroom := (readHeader smallFile).room_bounds
    omega

/-- A file with four bytes of code at address 0 and one byte of initialised data at address 8. -/
def apartFile : List Byte :=
  [0xad, 0xdf, 0xba, 0x00,
    0, 0, 0, 0, 40, 0, 0, 0, 4, 0, 0, 0,
    8, 0, 0, 0, 44, 0, 0, 0, 1, 0, 0, 0,
    0, 0, 0, 0, 0, 0, 0, 0, 0, 0, 0, 0,
    0x11, 0x22, 0x33, 0x44, 0x55]

/-- `AddrSpace(char*)` puts the byte at address 4. -/
theorem not_agree_apartFile :
    NoffFile apartFile ∧
      ¬ Agree (addrSpaceOpenFile apartFile (BitMap.new numPhysPages) fun _ => 0)
        (addrSpace apartFile true (BitMap.new numPhysPages) fun _ => 0) := by
  have hf : NoffFile apartFile := by
    refine ⟨by decide, by decide, ⟨by decide, by decide, by decide⟩, ⟨by decide, by decide, by decide⟩,
      fun _ _ => Or.inl (by decide)⟩
  refine ⟨hf, fun hagree => ?_⟩
  rcases (sameLayout_of_agree hf hagree).follows with hfollows | hzero
  · exact absurd hfollows (by decide)
  · exact absurd (hzero 0x55 (by decide)) (by decide)

end Nachos
