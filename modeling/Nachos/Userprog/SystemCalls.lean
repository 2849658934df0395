import Nachos.Lib.CInt
import Nachos.Machine.UserSpace

/-!
# System calls for input and output

The cases of `ExceptionHandler` (exception.cc) that move bytes between the user program, the
console and the files of the `FILESYS_STUB` build. Each of them has one kernel buffer, made with
`new char[..]`, which it fills on one side and empties on the other.

A buffer is the memory around the address that `new` returned: an index outside the allocation
reaches a neighbouring byte of the heap. Every access is recorded, so that staying inside is a
property of the record. Memory that the source does not initialise is a parameter (`Uninit`).

A call may not return: `ReadMem` and `WriteMem` raise an exception for an address that the program
does not have, whose handler halts the machine, and `SynchConsole::Read` waits for characters that
have not been typed yet.
-/

namespace Nachos.Syscalls

open Programs Program CInt

/-! ### State -/

/-- Why a call does not return. -/
inductive Stop
  | halted (which : ExceptionType)
  | waiting
  deriving DecidableEq

/-- What ends the simulation. -/
inductive Abort
  | machine (f : Fault)
  /-- `new` of a negative size. -/
  | allocation
  deriving DecidableEq

structure Access where
  write : Bool
  index : Int
  deriving DecidableEq

/-- Accesses to `n` bytes from the index `i` on. -/
def accessesFrom (write : Bool) (i : Int) (n : Nat) : List Access :=
  (List.range n).map fun k : Nat => ⟨write, i + k⟩

/-- A kernel buffer; `bytes` is the heap, seen from the start of the buffer. -/
@[ext] structure Buffer where
  size : Int
  bytes : Int → Byte
  accesses : List Access

namespace Buffer

/-- The buffer with the given bytes from the index `i` on. -/
def write (b : Buffer) (i : Int) (bytes : List Byte) : Buffer where
  size := b.size
  bytes := fun j =>
    if i ≤ j ∧ j < i + bytes.length then bytes.getD (j - i).toNat 0 else b.bytes j
  accesses := b.accesses ++ accessesFrom true i bytes.length

/-- The buffer after its `n` bytes from the index `i` on were read. -/
def read (b : Buffer) (i : Int) (n : Nat) : Buffer :=
  { b with accesses := b.accesses ++ accessesFrom false i n }

/-- The `n` bytes from the index `i` on. -/
def slice (b : Buffer) (i : Int) (n : Nat) : List Byte :=
  (List.range n).map fun k : Nat => b.bytes (i + k)

end Buffer

/-- `OpenFile` of the stub; `file` stands for the host file behind the descriptor. -/
structure OpenFile where
  file : Nat
  type : Int
  currentOffset : Int
  deriving DecidableEq

structure Kernel where
  machine : Machine
  /-- The characters that were typed and not read yet. -/
  input : List Byte
  /-- The characters that the console has shown. -/
  output : List Byte
  hostFiles : Nat → List Byte
  openFileList : Nat → Option OpenFile
  /-- The kernel buffer of the call. -/
  buffer : Buffer

abbrev Call := Program Kernel Stop Abort

/-- What a call finds in memory that nobody has initialised. -/
structure Uninit where
  heap : Int → Byte
  /-- The local variable `ch` of `SynchConsole::Read`. -/
  ch : Byte
  /-- The inner local variable `size` of `SC_Read`. -/
  size : Word
  /-- The address that `new float` returns. -/
  pointer : Word

/-! ### The machine -/

def onMachine {α : Type} (p : Routine α) : Call α := fun k =>
  match p k.machine with
  | .done a m => .done a { k with machine := m }
  | .trap e m => .trap (.halted e) { k with machine := m }
  | .fault f => .fault (.machine f)

/-- The argument in a register, as an address. -/
def addressIn (r : Reg) : Call Word := gets fun k => k.machine.registers r

/-- The argument in a register, as an `int`. -/
def intIn (r : Reg) : Call Int := gets fun k => (k.machine.registers r).toInt

def r4 : Reg := gpr ⟨4, by decide⟩
def r5 : Reg := gpr ⟨5, by decide⟩
def r6 : Reg := gpr ⟨6, by decide⟩

/-- `machine->WriteRegister(2, v)`. -/
def returnValue (v : Int) : Call Unit := modify fun k =>
  { k with machine := k.machine.setRegister resultReg (BitVec.ofInt 32 v) }

/-! ### The buffer -/

/-- `buffer = new char[size]`. -/
def newBuffer (size : Int) (heap : Int → Byte) : Call Unit :=
  if size < 0 then fault .allocation
  else modify fun k => { k with buffer := { size, bytes := heap, accesses := [] } }

/-- `buffer[i]`. -/
def get (i : Int) : Call Byte := fun k =>
  .done (k.buffer.bytes i) { k with buffer := k.buffer.read i 1 }

/-- Writing into the buffer from the index `i` on. -/
def put (i : Int) (bytes : List Byte) : Call Unit := modify fun k =>
  { k with buffer := k.buffer.write i bytes }

/-- The loop of `User2System`, for `n` more characters from index `i` on. -/
def user2SystemLoop (virtAddr : Word) : Nat → Nat → Call Unit
  | 0, _ => pure ()
  | n + 1, i => do
    let oneChar ← onMachine (Machine.readMem (virtAddr + BitVec.ofNat 32 i) 1)
    put i [oneChar.setWidth 8]
    if oneChar = 0 then pure () else user2SystemLoop virtAddr n (i + 1)

/-- `User2System`. -/
def user2System (virtAddr : Word) (limit : Nat) (heap : Int → Byte) : Call Unit := do
  newBuffer (limit + 1) heap
  put 0 (List.replicate (limit + 1) 0)
  user2SystemLoop virtAddr limit 0

/-- The loop of `System2User`, for at most `n` more characters from index `i` on. -/
def system2UserLoop (virtAddr : Word) : Nat → Nat → Call Unit
  | 0, _ => pure ()
  | n + 1, i => do
    let oneChar ← get i
    onMachine (Machine.writeMem (virtAddr + BitVec.ofNat 32 i) 1 (oneChar.signExtend 32))
    if oneChar = 0 then pure () else system2UserLoop virtAddr n (i + 1)

/-- `System2User`; its result is not used. -/
def system2User (virtAddr : Word) (len : Int) : Call Unit :=
  if len < 0 then pure ()
  else system2UserLoop virtAddr len.toNat 0

/-! ### The console -/

/-- `EOF`, as a `char`. -/
def eof : Byte := 0xFF

def newline : Byte := 0o12
def controlA : Byte := 0o1

/-- The loop of `SynchConsole::Read` over the characters that were typed. -/
def readLoop (numBytes : Int) : List Byte → Int → Byte → Call (Int × Byte)
  | [], loop, ch => if loop < numBytes then trap .waiting else pure (loop, ch)
  | c :: rest, loop, ch =>
    if loop < numBytes then do
      modify fun k => { k with input := rest }
      if c = eof then readLoop numBytes rest loop c
      else if c = newline ∨ c = controlA then pure (loop, c)
      else do
        put loop [c]
        readLoop numBytes rest (loop + 1) c
    else pure (loop, ch)

/-- `SynchConsole::Read` into the buffer. -/
def consoleRead (numBytes : Int) (ch : Byte) : Call Int := do
  put 0 (List.replicate numBytes.toNat 0)
  let input ← gets fun k => k.input
  let (loop, ch) ← readLoop numBytes input 0 ch
  pure (if ch = controlA then -1 else loop)

/-- The loop of `SynchConsole::Write`, for `n` more characters. -/
def writeLoop : Nat → Int → Call Unit
  | 0, _ => pure ()
  | n + 1, i => do
    let c ← get i
    modify fun k => { k with output := k.output ++ [c] }
    writeLoop n (i + 1)

/-- `SynchConsole::Write` from the index `i` of the buffer on. -/
def consoleWrite (i numBytes : Int) : Call Int := do
  writeLoop numBytes.toNat i
  pure numBytes

/-! ### Files -/

/-- `openFileList[fID]`. -/
def openFile (fID : Int) : Call (Option OpenFile) := gets fun k => k.openFileList fID.toNat

theorem openFile_of_some {k : Kernel} {fID : Int} {f : OpenFile}
    (h : k.openFileList fID.toNat = some f) : openFile fID k = .done (some f) k := by
  show Outcome.done (k.openFileList fID.toNat) k = _
  rw [h]

/-- `Lseek`: the host refuses a negative offset, and the ASSERT fails. -/
def lseek (position : Int) : Call Unit :=
  if position < 0 then fault (.machine .assertion) else pure ()

/-- The bytes that the host's `read` gives: as many as there are, up to `numBytes`. -/
def hostRead (content : List Byte) (position : Nat) (numBytes : Nat) : List Byte :=
  (content.drop position).take numBytes

/-- The content of a host file after `write`. -/
def hostWrite (content : List Byte) (position : Nat) (bytes : List Byte) : List Byte :=
  content.take position ++ List.replicate (position - content.length) 0 ++ bytes ++
    content.drop (position + bytes.length)

/-- `currentOffset += n`. -/
def advance (fID : Int) (f : OpenFile) (n : Int) (k : Kernel) : Kernel :=
  let f := { f with currentOffset := s32 (f.currentOffset + n) }
  { k with openFileList := Function.update k.openFileList fID.toNat (some f) }

/-- `WriteFile` at the current offset. -/
def store (f : OpenFile) (bytes : List Byte) (k : Kernel) : Kernel :=
  let content := hostWrite (k.hostFiles f.file) f.currentOffset.toNat bytes
  { k with hostFiles := Function.update k.hostFiles f.file content }

/-- `OpenFile::Read` into the buffer. The host's `read` returns -1 for a negative count. -/
def fileRead (fID : Int) (f : OpenFile) (numBytes : Int) : Call Int := do
  lseek f.currentOffset
  if numBytes < 0 then
    modify (advance fID f (-1))
    pure (-1)
  else
    let content ← gets fun k => k.hostFiles f.file
    let bytes := hostRead content f.currentOffset.toNat numBytes.toNat
    put 0 bytes
    modify (advance fID f bytes.length)
    pure bytes.length

/-- `OpenFile::Write` from the buffer. The host's `write` returns -1 for a negative count, and the
ASSERT of `WriteFile` compares that with the count. -/
def fileWrite (fID : Int) (f : OpenFile) (numBytes : Int) : Call Int := do
  lseek f.currentOffset
  if numBytes < 0 then
    if numBytes = -1 then
      modify (advance fID f numBytes)
      pure numBytes
    else fault (.machine .assertion)
  else
    let bytes ← gets fun k => k.buffer.slice 0 numBytes.toNat
    modify fun k => { k with buffer := k.buffer.read 0 numBytes.toNat }
    modify (store f bytes)
    modify (advance fID f numBytes)
    pure numBytes

/-! ### The calls -/

def maxString : Nat := 256

/-- The loop of `SC_Read` that looks for the end of the string or of the file, for `n` more
characters of `len` ones. -/
def endLoop (len : Int) : Nat → Int → Call (Int × Bool)
  | 0, _ => pure (len, false)
  | n + 1, i => do
    let c ← get i
    if c = 0 then pure (i + 1, false)
    else if c = eof then do
      put i [0]
      pure (i + 1, true)
    else endLoop len n (i + 1)

/-- `SC_Read`. In the branch for the console the declaration `int size = ..Read(buffer, size)`
uses the new variable, which has no value yet. -/
def scRead (u : Uninit) : Call Unit := do
  let addr ← addressIn r4
  let size ← intIn r5
  let fID ← intIn r6
  if fID = 0 then
    newBuffer (s32 (size + 1)) u.heap
    let size ← consoleRead u.size.toInt u.ch
    put size [0]
    system2User addr (s32 (size + 1))
    returnValue size
  else if fID < 2 ∨ fID > 9 then returnValue (-1)
  else
    match ← openFile fID with
    | none => returnValue (-1)
    | some file =>
      newBuffer (s32 (size + 1)) u.heap
      let len ← fileRead fID file size
      put len [0]
      let (len, isEOF) ← endLoop len len.toNat 0
      system2User addr (s32 (len + 1))
      returnValue (if isEOF then -2 else len)

/-- The loop that prints the characters of a string, up to `n` more of them. -/
def printLoop : Nat → Int → Int → Call Int
  | 0, index, count => do
    let _ ← get index
    pure count
  | n + 1, index, count => do
    let c ← get index
    if c = 0 then pure count
    else do
      let written ← consoleWrite index 1
      printLoop n (index + 1) (count + written)

/-- `SC_Write`. -/
def scWrite (u : Uninit) : Call Unit := do
  let virtAddr ← addressIn r4
  let size ← intIn r5
  let fID ← intIn r6
  if fID = 1 then
    user2System virtAddr maxString u.heap
    let count ← printLoop maxString 0 0
    returnValue count
  else if fID < 2 ∨ fID > 9 then returnValue (-1)
  else
    match ← openFile fID with
    | none => returnValue (-1)
    | some file =>
      if file.type = 1 then returnValue (-1)
      else
        user2System virtAddr maxString u.heap
        let len ← fileWrite fID file size
        returnValue (if len ≠ size - 1 then -2 else len)

/-- `SC_ReadString`. -/
def scReadString (u : Uninit) : Call Unit := do
  let addr ← addressIn r4
  let len ← intIn r5
  newBuffer (s32 (len + 1)) u.heap
  let size ← consoleRead len u.ch
  put size [0]
  system2User addr (s32 (size + 1))
  returnValue size

/-- The loop of `SC_ReadInt`, for at most `n` more characters: the number and the multiplier. -/
def readIntLoop : Nat → Int → Int → Int → Int → Call (Int × Int)
  | 0, _, _, number, multiplier => pure (number, multiplier)
  | n + 1, i, numOfChars, number, multiplier =>
    if i < numOfChars then do
      let c ← get i
      if i = 0 ∧ c = BitVec.ofNat 8 '-'.toNat then readIntLoop n (i + 1) numOfChars number (-1)
      else if i = 0 ∧ c = BitVec.ofNat 8 '+'.toNat then
        readIntLoop n (i + 1) numOfChars number multiplier
      else
        -- without a sign the eleventh character is ignored
        let numOfChars := if i = 0 ∧ numOfChars = 11 then 10 else numOfChars
        if c.toInt < 48 ∨ c.toInt > 57 then pure (0, multiplier)
        else readIntLoop n (i + 1) numOfChars (s32 (number * 10 + (c.toInt - 48))) multiplier
    else pure (number, multiplier)

/-- `SC_ReadInt`. -/
def scReadInt (u : Uninit) : Call Unit := do
  newBuffer 12 u.heap
  let numOfChars ← consoleRead 11 u.ch
  if numOfChars > 0 then
    let (number, multiplier) ← readIntLoop numOfChars.toNat 0 numOfChars 0 1
    returnValue (s32 (number * multiplier))
  else returnValue 0

/-- The loop of `SC_PrintInt`, for `n` more digits: the position of the first one. -/
def printIntLoop : Nat → Int → Int → Int → Call Int
  | 0, _, _, printPos => pure printPos
  | n + 1, i, number, printPos =>
    if number = 0 then do
      put (11 - i) [48]
      pure printPos
    else do
      put (11 - i) [BitVec.ofInt 8 (number.tmod 10 + 48)]
      printIntLoop n (i + 1) (number.tdiv 10) (11 - i)

/-- `SC_PrintInt`. -/
def scPrintInt (u : Uninit) : Call Unit := do
  newBuffer 12 u.heap
  let number ← intIn r4
  let isNeg := number < 0
  let printPos ← printIntLoop 12 0 (if isNeg then s32 (-number) else number) 11
  if isNeg then
    -- `buffer[printPos--] = '-'`
    put printPos [BitVec.ofNat 8 '-'.toNat]
    let _ ← consoleWrite (printPos - 1) (12 - (printPos - 1))
  else
    let _ ← consoleWrite printPos (12 - printPos)

/-- `SC_ReadChar`. -/
def scReadChar (u : Uninit) : Call Unit := do
  newBuffer maxString u.heap
  let size ← consoleRead maxString u.ch
  if size = 0 then returnValue 0
  else if size > 1 then returnValue 0
  else do
    let c ← get 0
    returnValue c.toInt

/-! ### Reading a float -/

/-- How far `atof` has come in a numeral. -/
inductive Numeral
  | start
  | signed
  /-- After a first 0, which may be the one of 0x. -/
  | zero
  /-- After 0x, where a digit must follow, or a point and a digit. -/
  | hexPrefix
  | integer (hex : Bool)
  /-- After a point without a digit in front of it. -/
  | point (hex : Bool)
  | fraction (hex : Bool)
  | exponent
  | exponentSigned
  | power
  /-- After `n` letters of `infinity`. -/
  | infinity (n : Nat)
  /-- After `n` letters of `nan(`. -/
  | nan (n : Nat)
  /-- Behind `nan(`. -/
  | payload
  deriving DecidableEq

def isSpace (c : Char) : Bool := c = ' ' || ('\t' ≤ c && c ≤ '\r')

def isDigit (hex : Bool) (c : Char) : Bool :=
  c.isDigit || (hex && ('a' ≤ c.toLower && c.toLower ≤ 'f'))

/-- A numeral goes on with the character `c`, or it ends before it. -/
def Numeral.next (state : Numeral) (c : Char) : Option Numeral :=
  match state with
  | .start =>
    if isSpace c then some .start
    else if c = '+' ∨ c = '-' then some .signed
    else unsigned
  | .signed => unsigned
  | .zero => if c.toLower = 'x' then some .hexPrefix else after false
  | .hexPrefix =>
    if isDigit true c then some (.integer true)
    else if c = '.' then some (.point true)
    else none
  | .integer hex => after hex
  | .point hex => if isDigit hex c then some (.fraction hex) else none
  | .fraction hex =>
    if isDigit hex c then some (.fraction hex)
    else if c.toLower = (if hex then 'p' else 'e') then some .exponent
    else none
  | .exponent =>
    if c = '+' ∨ c = '-' then some .exponentSigned
    else if c.isDigit then some .power
    else none
  | .exponentSigned => if c.isDigit then some .power else none
  | .power => if c.isDigit then some .power else none
  | .infinity n =>
    if ['i', 'n', 'f', 'i', 'n', 'i', 't', 'y'][n]? = some c.toLower then some (.infinity (n + 1))
    else none
  | .nan n =>
    if ['n', 'a', 'n', '('][n]? = some c.toLower then
      some (if c = '(' then .payload else .nan (n + 1))
    else none
  | .payload => if c.isAlphanum ∨ c = '_' then some .payload else none
where
  unsigned : Option Numeral :=
    if c = '0' then some .zero
    else if c.isDigit then some (.integer false)
    else if c = '.' then some (.point false)
    else if c.toLower = 'i' then some (.infinity 1)
    else if c.toLower = 'n' then some (.nan 1)
    else none
  after (hex : Bool) : Option Numeral :=
    if isDigit hex c then some (.integer hex)
    else if c = '.' then some (.fraction hex)
    else if c.toLower = (if hex then 'p' else 'e') then some .exponent
    else none

/-- A byte as a character. -/
def charOf (b : Byte) : Char := Char.ofNat b.toNat

/-- `atof` reads the buffer up to the first character that the numeral does not go on with, here
for at most `n` more characters. -/
def atofLoop : Nat → Int → Numeral → Call Unit
  | 0, _, _ => pure ()
  | n + 1, i, state => do
    let c ← get i
    match state.next (charOf c) with
    | none => pure ()
    | some state => atofLoop n (i + 1) state

/-- `SC_ReadFloat`; what it returns is the address of the number. A character behind the buffer is
as far as `atof` is followed. -/
def scReadFloat (u : Uninit) : Call Unit := do
  newBuffer maxString u.heap
  let numOfChars ← consoleRead 40 u.ch
  if numOfChars > 0 then atofLoop (maxString + 1) 0 .start else pure ()
  returnValue u.pointer.toInt

end Nachos.Syscalls
