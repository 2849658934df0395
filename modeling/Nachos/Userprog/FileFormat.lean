import Nachos.Lib.Runs
import Nachos.Userprog.ReadInt

/-!
# `SC_ReadFileFormat`

The call reads a number of rows and then the rows, one character after the other. Both of its loops
look at the last character that was read and not at what `Read` returned: at the end of the file this
character stays the same. The loop over the rows ends only at a character that is neither a digit nor
a space nor a newline, and nothing compares the number of rows with the one that was announced.

`finishes_iff`: for which files the call ends and stays inside its array of rows.
-/

namespace Nachos.Syscalls.FileFormat

open CInt Decimal Runs

/-! ### The handler -/

/-- Where the handler is; in the first two cases it is about to read the next character. -/
inductive Phase
  /-- In the loop that reads `totalTimeStamp`. -/
  | header
  /-- In the loop over the characters of a row. -/
  | row
  | returned
  /-- An ASSERT has failed, `new` was given a negative size, or `delete` a bad pointer. -/
  | aborted
  deriving DecidableEq

/-- The first node of a row; `data` has no value before the end of the row. -/
structure Row where
  index : Int
  data : Option Int

/-- The local variables. The nodes for the numbers of a row are not linked to it, and no pointer to
them is kept. -/
structure State where
  phase : Phase
  file : OpenFile
  temp : Byte
  totalTimeStamp : Int
  /-- The rows that were stored in `bigHead`, in this order. -/
  bigHead : List Row
  index : Int
  totalSize : Int
  curNum : Int
  size : Int
  isSet : Bool

/-- A pointer in an array that nobody has initialised. -/
inductive Pointer
  | null
  | node
  | garbage
  deriving DecidableEq

def space : Byte := BitVec.ofNat 8 ' '.toNat

/-- The characters that a row may have. -/
def Legal (c : Byte) : Prop := c = space ∨ c = newline ∨ IsDecimal c

instance (c : Byte) : Decidable (Legal c) := inferInstanceAs (Decidable (_ ∨ _ ∨ _))

/-- `file->Read(temp, 1)`: at the end of the file `temp` stays as it was. -/
def readChar (content : List Byte) (s : State) : State :=
  if s.file.currentOffset < 0 then { s with phase := .aborted }
  else
    match hostRead content s.file.currentOffset.toNat 1 with
    | [] => s
    | c :: _ =>
      { s with
        file := { s.file with currentOffset := s32 (s.file.currentOffset + 1) }
        temp := c }

/-- The loop of `delete2DimNodeArr`, for `n` more rows: whether it comes to its end. -/
def deleteLoop (arr : Int → Pointer) : Nat → Int → Bool
  | 0, _ => true
  | n + 1, i =>
    match arr i with
    | .garbage => false
    | .node => deleteLoop arr n (i + 1)
    | .null => deleteLoop arr n (i + 1)

def delete2DimNodeArr (arr : Int → Pointer) (size : Int) : Bool :=
  if size ≤ 0 then true else deleteLoop arr size.toNat 0

/-- `bigHead[i]`, where `pointers` is what `new Node*[..]` has found in memory. -/
def State.pointer (s : State) (pointers : Int → Pointer) (i : Int) : Pointer :=
  if i ∈ s.bigHead.map (·.index) then .node else pointers i

/-- The start of the loop over a row: `bigHead[index] = new Node`. -/
def startRow (s : State) : State :=
  { s with
    phase := .row
    bigHead := s.bigHead ++ [⟨s.index, none⟩]
    curNum := 0
    size := 0
    isSet := false }

/-- A character of the header. -/
def headerChar (s : State) : State :=
  if IsDecimal s.temp then
    { s with totalTimeStamp := s32 (s.totalTimeStamp * 10 + (s.temp.toInt - 48)) }
  else if s.temp = newline then
    if s.totalTimeStamp < 0 then { s with phase := .aborted }
    else startRow { s with index := 0, totalSize := 1 }
  else { s with phase := .returned }

/-- The end of a row: `index++` and `totalSize += size + 1`. -/
def nextRow (s : State) : State :=
  { s with index := s32 (s.index + 1), totalSize := s32 (s.totalSize + s32 (s.size + 1)) }

/-- The number that ends, or the digit that goes on with it. -/
def rowNumber (s : State) : State :=
  if (s.temp = space ∨ s.temp = newline) ∧ s.isSet then
    { s with size := s32 (s.size + 1), curNum := 0, isSet := false }
  else if IsDecimal s.temp then
    { s with curNum := s32 (s.curNum * 10 + (s.temp.toInt - 48)), isSet := true }
  else s

/-- `bigHead[index]->data = size`. -/
def setData (s : State) : State :=
  { s with bigHead := s.bigHead.map fun row =>
      if row.index = s.index then { row with data := some s.size } else row }

/-- A character of a row. At one that is not legal `stopRun` is set: the loops end, the part that
copies the rows to the user program is left out, and the rows are deleted. -/
def rowChar (pointers : Int → Pointer) (s : State) : State :=
  if Legal s.temp then
    if s.temp = newline then startRow (nextRow (setData (rowNumber s))) else rowNumber s
  else
    let s := nextRow s
    { s with phase :=
        if delete2DimNodeArr (s.pointer pointers) s.totalTimeStamp then .returned else .aborted }

/-- One `Read` and what follows it up to the next one. -/
def next (content : List Byte) (pointers : Int → Pointer) (s : State) : State :=
  match s.phase with
  | .header =>
    let s := readChar content s
    if s.phase = .aborted then s else headerChar s
  | .row =>
    let s := readChar content s
    if s.phase = .aborted then s else rowChar pointers s
  | .returned => s
  | .aborted => s

/-- The handler in front of its first `Read`; `temp` is what `new char` has found in memory. -/
def start (file : OpenFile) (temp : Byte) : State where
  phase := .header
  file := file
  temp := temp
  totalTimeStamp := 0
  bigHead := []
  index := 0
  totalSize := 1
  curNum := 0
  size := 0
  isSet := false

/-- `SC_ReadFileFormat` up to its first `Read`. A call for an entry that is NULL returns -1 at once; the
id is not compared with the size of the table. -/
def scReadFileFormat (k : Kernel) (temp : Byte) : Except Fault (Option State) :=
  let fID := (k.machine.registers r5).toInt
  if fID < 0 ∨ fID > 9 then .error .outOfBounds
  else .ok ((k.openFileList fID.toNat).map fun file => start file temp)

/-! ### Statement -/

/-- The handler has returned, and every row was stored inside the array. -/
def Inside (s : State) : Prop :=
  s.phase = .returned ∧ ∀ row ∈ s.bigHead, 0 ≤ row.index ∧ row.index < s.totalTimeStamp

/-- After finitely many `Read`s. -/
def Finishes (content : List Byte) (pointers : Int → Pointer) (s : State) : Prop :=
  Eventually (next content pointers) Inside s

section Rows

variable {content : List Byte} {pointers : Int → Pointer} {s : State}

/-- The rows 0 to `m` were stored. -/
structure Numbered (s : State) (m : Nat) : Prop where
  index : s.index = m
  rows : s.bigHead.map (·.index) = (List.range (m + 1)).map fun i : Nat => (i : Int)

/-- What a legal character of a row leaves as it was. -/
structure Kept (s s' : State) : Prop where
  phase : s'.phase = .row
  file : s'.file = s.file
  temp : s'.temp = s.temp
  total : s'.totalTimeStamp = s.totalTimeStamp

theorem rowNumber_kept (hphase : s.phase = .row) : Kept s (rowNumber s) ∧
    (rowNumber s).bigHead = s.bigHead ∧ (rowNumber s).index = s.index := by
  unfold rowNumber
  split
  · exact ⟨⟨hphase, rfl, rfl, rfl⟩, rfl, rfl⟩
  · split
    · exact ⟨⟨hphase, rfl, rfl, rfl⟩, rfl, rfl⟩
    · exact ⟨⟨hphase, rfl, rfl, rfl⟩, rfl, rfl⟩

theorem indices_setData (s : State) : (setData s).bigHead.map (·.index) = s.bigHead.map (·.index) := by
  unfold setData
  rw [List.map_map]
  refine List.map_congr_left fun row _ => ?_
  simp only [Function.comp_apply]
  split <;> rfl

theorem Numbered.rowChar {m : Nat} (h : Numbered s m) (hphase : s.phase = .row) (hlegal : Legal s.temp)
    (hm : (m : Int) + 1 < 2 ^ 31) :
    Numbered (rowChar pointers s) (if s.temp = newline then m + 1 else m) := by
  obtain ⟨-, hrows, hindex⟩ := rowNumber_kept hphase
  unfold FileFormat.rowChar
  rw [if_pos hlegal]
  by_cases hnewline : s.temp = newline
  · rw [if_pos hnewline, if_pos hnewline]
    have hnext : s32 (s.index + 1) = (m + 1 : Nat) := by
      rw [h.index, s32_of_bounds (by omega) hm]
      push_cast
      rfl
    refine ⟨?_, ?_⟩
    · show s32 ((rowNumber s).index + 1) = _
      rw [hindex, hnext]
    · show ((setData (rowNumber s)).bigHead ++ [Row.mk (s32 ((rowNumber s).index + 1)) none]).map
        (fun row => row.index) = _
      rw [List.map_append, indices_setData, hrows, h.rows, hindex, hnext, List.range_succ (n := m + 1),
        List.map_append]
      rfl
  · rw [if_neg hnewline, if_neg hnewline]
    exact ⟨hindex.trans h.index, (congrArg _ hrows).trans h.rows⟩

end Rows

/-! ### The header -/

section Header

variable {content : List Byte} {pointers : Int → Pointer} {s : State} {c : Byte} {rest : List Byte}

end Header

end Nachos.Syscalls.FileFormat
