import Nachos.Machine.ByteMemory

/-!
# The MIPS I processor

What the architecture manual says of a processor with a little-endian memory. A branch and a jump
take effect after the instruction that follows them; so a `Cpu` has the address of the instruction
that it executes and of the one after it. A load takes effect at once: the manual leaves open what
an instruction sees that uses a register while it is being loaded, and the programs for which this
matters are told apart where the processor is compared with the simulator.

The instructions that load and store a part of a word (LWL, LWR, SWL and SWR), those of the
coprocessors and BREAK are not among the operations.
-/

namespace Nachos

open Machine

inductive LoadOp
  | lb | lbu | lh | lhu | lw
  deriving DecidableEq

inductive StoreOp
  | sb | sh | sw
  deriving DecidableEq

inductive BranchOp
  | beq | bne | blez | bgtz | bltz | bgez | bltzal | bgezal
  deriving DecidableEq

inductive JumpOp
  | j | jal | jr | jalr
  deriving DecidableEq

/-- The operations of the processor. -/
inductive Operation
  | integer (op : IntegerOp)
  | div
  | load (op : LoadOp)
  | store (op : StoreOp)
  | branch (op : BranchOp)
  | jump (op : JumpOp)
  | syscall
  deriving DecidableEq

/-! ### Encodings -/

def LoadOp.code : LoadOp → BitVec 6
  | lb => 32
  | lh => 33
  | lw => 35
  | lbu => 36
  | lhu => 37

def StoreOp.code : StoreOp → BitVec 6
  | sb => 40
  | sh => 41
  | sw => 43

/-- The word `w` is a branch `op`: the operation field tells four of them, and the field of `rt`
the other four. -/
def BranchOp.Encodes (op : BranchOp) (w : Word) : Prop :=
  match op with
  | beq => w.extractLsb' 26 6 = 4
  | bne => w.extractLsb' 26 6 = 5
  | blez => w.extractLsb' 26 6 = 6
  | bgtz => w.extractLsb' 26 6 = 7
  | bltz => w.extractLsb' 26 6 = 1 ∧ w.extractLsb' 16 5 = 0
  | bgez => w.extractLsb' 26 6 = 1 ∧ w.extractLsb' 16 5 = 1
  | bltzal => w.extractLsb' 26 6 = 1 ∧ w.extractLsb' 16 5 = 16
  | bgezal => w.extractLsb' 26 6 = 1 ∧ w.extractLsb' 16 5 = 17

def JumpOp.Encodes (op : JumpOp) (w : Word) : Prop :=
  match op with
  | j => w.extractLsb' 26 6 = 2
  | jal => w.extractLsb' 26 6 = 3
  | jr => w.extractLsb' 26 6 = 0 ∧ w.extractLsb' 0 6 = 8
  | jalr => w.extractLsb' 26 6 = 0 ∧ w.extractLsb' 0 6 = 9

/-- The word `w` is an instruction `op`. -/
def Operation.Encodes (op : Operation) (w : Word) : Prop :=
  match op with
  | integer op => op.Encodes w
  | div => w.extractLsb' 26 6 = 0 ∧ w.extractLsb' 0 6 = 26
  | load op => w.extractLsb' 26 6 = op.code
  | store op => w.extractLsb' 26 6 = op.code
  | branch op => op.Encodes w
  | jump op => op.Encodes w
  | syscall => w.extractLsb' 26 6 = 0 ∧ w.extractLsb' 0 6 = 12

/-! ### Memory -/

/-- The bytes of a program, at the addresses that it may read. -/
abbrev VirtualMemory := Word → Option Byte

namespace VirtualMemory

/-- The access is aligned, and there is a byte at each of its addresses. -/
def Accessible (memory : VirtualMemory) (a : Word) (size : Nat) : Prop :=
  Aligned a size ∧ ∀ i < size, (memory (a + BitVec.ofNat 32 i)).isSome

/-- The word of `size` bytes at an address, the lowest byte first. -/
def load (memory : VirtualMemory) (a : Word) (size : Nat) : Word :=
  Bytes.load (fun i => (memory (a + BitVec.ofNat 32 i)).getD 0) 0 size

/-- Memory after the low `size` bytes of a word have been stored. -/
def store (memory : VirtualMemory) (a : Word) (size : Nat) (v : Word) : VirtualMemory := fun a' =>
  if (a' - a).toNat < size then some (byteOf v (a' - a).toNat) else memory a'

end VirtualMemory

/-! ### Operations -/

/-- The processor as a program sees it. -/
structure Cpu where
  /-- The general purpose registers, Hi and Lo. -/
  regs : Reg → Word
  /-- The address of the instruction. -/
  pc : Word
  /-- The address of the instruction after it. -/
  nextPC : Word
  memory : VirtualMemory
  /-- The addresses that may be written. -/
  writable : Word → Prop

/-- What an instruction does that raises no exception. -/
structure Change where
  /-- The registers that it writes; no value where the architecture leaves it open. -/
  writes : List (Reg × Option Word)
  /-- The address of the instruction after the next one. -/
  target : Word
  memory : VirtualMemory

/-- The sum or the difference does not fit in a word. -/
def IntegerOp.Overflows (op : IntegerOp) (w : Word) (regs : Reg → Word) : Prop :=
  let rs := regs (gpr (field w 21))
  let rt := regs (gpr (field w 16))
  match op with
  | add => ¬ InRange (rs.toInt + rt.toInt)
  | addi => ¬ InRange (rs.toInt + (w.extractLsb' 0 16).toInt)
  | sub => ¬ InRange (rs.toInt - rt.toInt)
  | _ => False

def LoadOp.size : LoadOp → Nat
  | lb | lbu => 1
  | lh | lhu => 2
  | lw => 4

/-- What is put into the register, from the word that was read. -/
def LoadOp.value (op : LoadOp) (v : Word) : Word :=
  match op with
  | lb => (v.setWidth 8).signExtend 32
  | lbu => (v.setWidth 8).setWidth 32
  | lh => (v.setWidth 16).signExtend 32
  | lhu => (v.setWidth 16).setWidth 32
  | lw => v

def StoreOp.size : StoreOp → Nat
  | sb => 1
  | sh => 2
  | sw => 4

def BranchOp.Taken (op : BranchOp) (rs rt : Word) : Prop :=
  match op with
  | beq => rs = rt
  | bne => rs ≠ rt
  | blez => rs.toInt ≤ 0
  | bgtz => 0 < rs.toInt
  | bltz | bltzal => rs.toInt < 0
  | bgez | bgezal => 0 ≤ rs.toInt

/-- Two branches write the address of the instruction behind their delay slot into `r31`. -/
def BranchOp.link (op : BranchOp) (nextPC : Word) : List (Reg × Option Word) :=
  match op with
  | bltzal | bgezal => [(retAddrReg, some (nextPC + 4))]
  | _ => []

namespace Cpu

/-- The address that a load or a store names. -/
def address (c : Cpu) (w : Word) : Word :=
  c.regs (gpr (field w 21)) + (w.extractLsb' 0 16).signExtend 32

/-- The address of a branch. -/
def branchTarget (c : Cpu) (w : Word) : Word :=
  c.nextPC + (w.extractLsb' 0 16).signExtend 32 <<< 2

/-- The address of a jump: its highest four bits are those of the instruction in the delay slot. -/
def jumpTarget (c : Cpu) (w : Word) : Word :=
  c.nextPC &&& 0xf0000000 ||| (w.extractLsb' 0 26).setWidth 32 <<< 2

/-- `op`, as the word `w`, raises no exception and comes to the change. -/
inductive Does (c : Cpu) (w : Word) : Operation → Change → Prop
  | integer {op : IntegerOp} (h : ¬ op.Overflows w c.regs) :
    Does c w (.integer op) ⟨op.writes w c.regs, c.nextPC + 4, c.memory⟩
  | div (h : c.regs (gpr (field w 16)) ≠ 0) :
    Does c w .div ⟨[(loReg, some ((c.regs (gpr (field w 21))).sdiv (c.regs (gpr (field w 16))))),
      (hiReg, some ((c.regs (gpr (field w 21))).srem (c.regs (gpr (field w 16)))))],
      c.nextPC + 4, c.memory⟩
  | divByZero (h : c.regs (gpr (field w 16)) = 0) :
    Does c w .div ⟨[(loReg, none), (hiReg, none)], c.nextPC + 4, c.memory⟩
  | load {op : LoadOp} (h : c.memory.Accessible (c.address w) op.size) :
    Does c w (.load op) ⟨[(gpr (field w 16), some (op.value (c.memory.load (c.address w) op.size)))],
      c.nextPC + 4, c.memory⟩
  | store {op : StoreOp} (h : c.memory.Accessible (c.address w) op.size)
      (hwritable : c.writable (c.address w)) :
    Does c w (.store op) ⟨[], c.nextPC + 4,
      c.memory.store (c.address w) op.size (c.regs (gpr (field w 16)))⟩
  | taken {op : BranchOp} (h : op.Taken (c.regs (gpr (field w 21))) (c.regs (gpr (field w 16)))) :
    Does c w (.branch op) ⟨op.link c.nextPC, c.branchTarget w, c.memory⟩
  | notTaken {op : BranchOp}
      (h : ¬ op.Taken (c.regs (gpr (field w 21))) (c.regs (gpr (field w 16)))) :
    Does c w (.branch op) ⟨op.link c.nextPC, c.nextPC + 4, c.memory⟩
  | j : Does c w (.jump .j) ⟨[], c.jumpTarget w, c.memory⟩
  | jal : Does c w (.jump .jal) ⟨[(retAddrReg, some (c.nextPC + 4))], c.jumpTarget w, c.memory⟩
  | jr : Does c w (.jump .jr) ⟨[], c.regs (gpr (field w 21)), c.memory⟩
  | jalr : Does c w (.jump .jalr) ⟨[(gpr (field w 11), some (c.nextPC + 4))],
      c.regs (gpr (field w 21)), c.memory⟩

/-- The word `w` is fetched. -/
def Fetches (c : Cpu) (w : Word) : Prop := c.memory.Accessible c.pc 4 ∧ c.memory.load c.pc 4 = w

/-- The registers that were to be written have their values, register 0 is 0 and the others are as
they were. -/
structure Wrote (writes : List (Reg × Option Word)) (before after : Reg → Word) : Prop where
  results : ∀ r v, (r, some v) ∈ writes → r ≠ 0 → after r = v
  zero : after 0 = 0
  frame : ∀ r, IntegerReg r → r ≠ 0 → r ∉ writes.map Prod.fst → after r = before r

/-- The processor after a change. -/
structure Changed (c : Cpu) (change : Change) (c' : Cpu) : Prop where
  wrote : Wrote change.writes c.regs c'.regs
  pc : c'.pc = c.nextPC
  nextPC : c'.nextPC = change.target
  memory : c'.memory = change.memory
  writable : c'.writable = c.writable

/-- The processor executes an instruction. -/
def Step (c c' : Cpu) : Prop :=
  ∃ w op change, c.Fetches w ∧ op.Encodes w ∧ c.Does w op change ∧ c.Changed change c'

/-- The processor cannot fetch an instruction, or the instruction raises an exception. -/
def Raises (c : Cpu) : Prop :=
  ¬ c.memory.Accessible c.pc 4 ∨
    ∃ w op, c.Fetches w ∧ op.Encodes w ∧ ∀ change, ¬ c.Does w op change

end Cpu

/-! ### Where the simulator may be compared -/

namespace Operation

/-- The general purpose registers that an instruction reads. -/
def sources (op : Operation) (w : Word) : List (Fin 32) :=
  match op with
  | integer op =>
    match op with
    | .lui | .mfhi | .mflo => []
    | .sll | .srl | .sra => [field w 16]
    | .addi | .addiu | .andi | .ori | .xori | .slti | .sltiu | .mthi | .mtlo => [field w 21]
    | _ => [field w 21, field w 16]
  | div | store _ => [field w 21, field w 16]
  | load _ => [field w 21]
  | branch op =>
    match op with
    | .beq | .bne => [field w 21, field w 16]
    | _ => [field w 21]
  | jump op =>
    match op with
    | .j | .jal => []
    | .jr | .jalr => [field w 21]
  | syscall => []

/-- The general purpose registers that an instruction writes before the next one starts. -/
def destinations (op : Operation) (w : Word) : List (Fin 32) :=
  match op with
  | integer op =>
    match op with
    | .mult | .multu | .divu | .mthi | .mtlo => []
    | .addi | .addiu | .andi | .ori | .xori | .slti | .sltiu | .lui => [field w 16]
    | _ => [field w 11]
  | branch .bltzal | branch .bgezal | jump .jal => [Fin.last 31]
  | jump .jalr => [field w 11]
  | _ => []

/-- The operands and addresses on which the simulator computes what the architecture says. -/
def Agrees (op : Operation) (w : Word) (regs : Reg → Word) (nextPC : Word) : Prop :=
  match op with
  | integer op => Machine.Agrees op w regs
  -- the host cannot divide these
  | div => ¬ (regs (gpr (field w 21)) = signBit ∧ regs (gpr (field w 16)) = -1)
  -- the link is written before the source is read
  | branch .bltzal | branch .bgezal => field w 21 ≠ Fin.last 31
  | jump .jalr => field w 21 ≠ field w 11
  -- the highest bits of the target are those of the address behind the delay slot
  | jump .j | jump .jal => (nextPC + 4) &&& 0xf0000000 = nextPC &&& 0xf0000000
  | _ => True

end Operation

end Nachos
