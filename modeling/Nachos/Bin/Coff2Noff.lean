import Nachos.Lib.CString
import Nachos.Userprog.LoaderWrites

/-!
# `coff2noff`

The program `bin/coff2noff.c`, which makes a NOFF file of a COFF file, on a little-endian host
whose `int` and `long` have 32 bits. It copies the sections one by one behind the place of the
header and writes the header in the end. A problem is an exit with the status 1, and then there
is no output.

The header is written as the memory of its `int`s; a loader that reads it gets it back
(`readHeader_bytes`).
-/

namespace Nachos

open CInt Bytes Machine

/-! ### Headers in files -/

/-- The four bytes of an `int`. -/
def intBytes (x : Int) : List Byte := toList (store (fun _ => 0) 0 4 (BitVec.ofInt 32 x)) 4

/-- The members of a header, in order. -/
def NoffHeader.members (h : NoffHeader) : List Int :=
  [h.noffMagic, h.code.virtualAddr, h.code.inFileAddr, h.code.size,
    h.initData.virtualAddr, h.initData.inFileAddr, h.initData.size,
    h.uninitData.virtualAddr, h.uninitData.inFileAddr, h.uninitData.size]

/-- The memory of a header. -/
def NoffHeader.bytes (h : NoffHeader) : List Byte := h.members.flatMap intBytes

/-- The header before the loop; what is not set is what the memory of the variable holds. -/
def NoffHeader.initial (memory : List Byte) : NoffHeader :=
  let h := readHeader memory
  { noffMagic := Nachos.noffMagic
    code := { h.code with size := 0 }
    initData := { h.initData with size := 0 }
    uninitData := { h.uninitData with size := 0 } }

theorem length_intBytes (x : Int) : (intBytes x).length = 4 := length_toList _ 4

theorem length_flatMap_intBytes (xs : List Int) : (xs.flatMap intBytes).length = 4 * xs.length := by
  induction xs with
  | nil => rfl
  | cons x xs ih =>
    rw [List.flatMap_cons, List.length_append, length_intBytes, ih, List.length_cons]
    omega

/-- The bytes of an `int`, wherever they are in a file. -/
theorem intAt_intBytes {x : Int} (h : -2 ^ 31 ≤ x) (h' : x < 2 ^ 31) (before after : List Byte) :
    intAt (before ++ intBytes x ++ after) before.length = x := by
  have hbytes : ∀ i, before.length ≤ i → i < before.length + 4 →
      (before ++ intBytes x ++ after).getD i 0 =
        store (fun _ => 0) before.length 4 (BitVec.ofInt 32 x) i := by
    intro i hlo hhi
    rw [List.getD_eq_getElem?_getD,
      List.getElem?_append_left (by rw [List.length_append, length_intBytes]; omega),
      List.getElem?_append_right hlo, ← List.getD_eq_getElem?_getD, intBytes, getD_toList (by omega)]
    unfold store
    rw [if_pos (by omega), if_pos (by omega), Nat.sub_zero]
  unfold intAt
  rw [load_congr hbytes, load_store _ _ (by decide), BitVec.toInt_ofInt]
  exact s32_of_bounds h h'

/-- The `i`th of a list of `int`s in a file. -/
theorem intAt_flatMap {xs : List Int} (hxs : ∀ x ∈ xs, -2 ^ 31 ≤ x ∧ x < 2 ^ 31) {i : Nat} {x : Int}
    (hi : xs[i]? = some x) (after : List Byte) : intAt (xs.flatMap intBytes ++ after) (4 * i) = x := by
  obtain ⟨hlt, rfl⟩ := List.getElem?_eq_some_iff.mp hi
  have hsplit : xs.flatMap intBytes ++ after = (xs.take i).flatMap intBytes ++ intBytes xs[i] ++
      ((xs.drop (i + 1)).flatMap intBytes ++ after) := by
    have hxs : xs = xs.take i ++ xs[i] :: xs.drop (i + 1) := by
      rw [← List.drop_eq_getElem_cons hlt, List.take_append_drop]
    conv_lhs => rw [hxs]
    rw [List.flatMap_append, List.flatMap_cons]
    simp only [List.append_assoc]
  have hlen : ((xs.take i).flatMap intBytes).length = 4 * i := by
    rw [length_flatMap_intBytes, List.length_take]
    omega
  obtain ⟨hlo, hhi⟩ := hxs xs[i] (List.getElem_mem hlt)
  rw [hsplit, ← hlen]
  exact intAt_intBytes hlo hhi _ _

theorem NoffHeader.length_bytes (h : NoffHeader) : h.bytes.length = noffHeaderSize := by
  unfold bytes
  rw [length_flatMap_intBytes]
  rfl

/-- A loader reads the header that was written. -/
theorem readHeader_bytes {h : NoffHeader} (hh : ∀ x ∈ h.members, -2 ^ 31 ≤ x ∧ x < 2 ^ 31)
    (after : List Byte) : readHeader (h.bytes ++ after) = h := by
  have hat : ∀ {i : Nat} {x : Int}, h.members[i]? = some x → intAt (h.bytes ++ after) (4 * i) = x :=
    fun hi => intAt_flatMap hh hi after
  unfold readHeader
  simp only
  rw [hat (i := 0) rfl, hat (i := 1) rfl, hat (i := 2) rfl, hat (i := 3) rfl, hat (i := 4) rfl,
    hat (i := 5) rfl, hat (i := 6) rfl, hat (i := 7) rfl, hat (i := 8) rfl, hat (i := 9) rfl]

namespace Coff

/-! ### COFF files -/

/-- The characters of a string literal. -/
def chars (str : String) : List Byte := str.toList.map fun c => BitVec.ofNat 8 c.toNat

/-- The `unsigned short` at an offset of a file. -/
def shortAt (content : List Byte) (offset : Nat) : Nat :=
  (load (fun i => content.getD i 0) offset 2 : BitVec 16).toNat

/-- `struct scnhdr`, without the members that are not used. The name ends at a zero byte; the longest
name it is compared with has six characters. -/
structure Scnhdr where
  sName : List Byte
  sPaddr : Int
  sSize : Int
  sScnptr : Int
  deriving DecidableEq

/-- `sizeof(struct filehdr)`. -/
def filehdrSize : Nat := 20

/-- `sizeof(struct aouthdr)`. -/
def aouthdrSize : Nat := 56

/-- `sizeof(struct scnhdr)`. -/
def scnhdrSize : Nat := 40

def mipselMagic : Nat := 0x0162
def omagic : Nat := 0o407

/-- The section header at an offset of a file. -/
def scnhdrAt (content : List Byte) (offset : Nat) : Scnhdr where
  sName := cstr (fun i => content.getD i 0) offset 8
  sPaddr := intAt content (offset + 8)
  sSize := intAt content (offset + 16)
  sScnptr := intAt content (offset + 20)

/-- `f_nscns`. -/
def numsections (content : List Byte) : Nat := shortAt content 2

/-- The section headers that follow the other two headers. -/
def sectionsOf (content : List Byte) : List Scnhdr :=
  (List.range (numsections content)).map fun i =>
    scnhdrAt content (filehdrSize + aouthdrSize + scnhdrSize * i)

/-! ### The conversion -/

/-- The variables of the loop; `inPos` is the position of `fdIn`, and `body` is what has been written
behind the place of the header. -/
structure Converter where
  noffH : NoffHeader
  inNoffFile : Int
  inPos : Nat
  body : List Byte

/-- `Read`, which exits when `read` does not return `nBytes`: the bytes and the new position. The
host's `read` returns -1 for a size that is negative. -/
def coffRead (content : List Byte) (pos : Nat) (nBytes : Int) : Option (List Byte × Nat) :=
  if nBytes < 0 then
    if nBytes = -1 then some ([], pos) else none
  else
    let bytes := (content.drop pos).take nBytes.toNat
    if (bytes.length : Int) = nBytes then some (bytes, pos + bytes.length) else none

namespace Converter

/-- `lseek`, `Read` and `Write` of a section. The `lseek` fails when the offset is negative, which is
not looked at. -/
def copy (c : Converter) (content : List Byte) (s : Scnhdr) : Option Converter :=
  let pos := if s.sScnptr < 0 then c.inPos else s.sScnptr.toNat
  match coffRead content pos s.sSize with
  | none => none
  | some (bytes, pos) =>
    some { c with inPos := pos, body := c.body ++ bytes, inNoffFile := s32 (c.inNoffFile + s.sSize) }

/-- The segment that a section is copied to. -/
def segment (c : Converter) (s : Scnhdr) : Segment where
  virtualAddr := s.sPaddr
  inFileAddr := c.inNoffFile
  size := s.sSize

/-- The body of the loop. -/
def load (c : Converter) (content : List Byte) (s : Scnhdr) : Option Converter :=
  if s.sSize = 0 then some c
  else if s.sName = chars ".text" then
    copy { c with noffH := { c.noffH with code := c.segment s } } content s
  else if s.sName = chars ".data" ∨ s.sName = chars ".rdata" then
    if c.noffH.initData.size ≠ 0 then none
    else copy { c with noffH := { c.noffH with initData := c.segment s } } content s
  else if s.sName = chars ".bss" ∨ s.sName = chars ".sbss" then
    if c.noffH.uninitData.size ≠ 0 then
      if s.sPaddr = s32 (c.noffH.uninitData.virtualAddr + c.noffH.uninitData.size) then none
      else some { c with noffH := { c.noffH with uninitData :=
        { c.noffH.uninitData with size := s32 (c.noffH.uninitData.size + s.sSize) } } }
    else some { c with noffH := { c.noffH with uninitData :=
      { c.noffH.uninitData with virtualAddr := s.sPaddr, size := s.sSize } } }
  else none

/-- The loop over the sections. -/
def loop (content : List Byte) : List Scnhdr → Converter → Option Converter
  | [], c => some c
  | s :: ss, c =>
    match c.load content s with
    | none => none
    | some c => loop content ss c

end Converter

/-- The variables before the loop. -/
def Converter.initial (memory : List Byte) (pos : Nat) : Converter where
  noffH := .initial memory
  inNoffFile := noffHeaderSize
  inPos := pos
  body := []

/-- `main` on a COFF file with the given content: the NOFF file, if it exits with the status 0.
`memory` is what the memory of `noffH` holds. -/
def coff2noff (content memory : List Byte) : Option (List Byte) := do
  let (_, pos) ← coffRead content 0 filehdrSize
  if shortAt content 0 ≠ mipselMagic then none
  else
    let (_, pos) ← coffRead content pos aouthdrSize
    if shortAt content filehdrSize ≠ omagic then none
    else
      let (_, pos) ← coffRead content pos (numsections content * scnhdrSize : Nat)
      let c ← Converter.loop content (sectionsOf content) (.initial memory pos)
      pure (c.noffH.bytes ++ c.body)

end Coff

end Nachos
