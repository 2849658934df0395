import Nachos.Machine.Memory

/-!
# User instructions

`Instruction::Decode` and `Machine::OneInstruction` of `machine/mipssim.cc`. Shifts of an
`int` to the right are arithmetic, and additions wrap around.

`confined_oneInstruction`: whatever the instruction word and the registers are, an
instruction changes, besides the registers, only bytes of the frames that the page table maps.
-/

namespace Nachos

open Programs

/-- The operation codes of `mipssim.h`; `special` and `bcond` stand in `opTable` only. -/
inductive OpCode
  | add | addi | addiu | addu | and | andi | beq | bgez | bgezal | bgtz | blez | bltz | bltzal
  | bne | div | divu | j | jal | jalr | jr | lb | lbu | lh | lhu | lui | lw | lwl | lwr | mfhi
  | mflo | mthi | mtlo | mult | multu | nor | or | ori | rfe | sb | sh | sll | sllv | slt
  | slti | sltiu | sltu | sra | srav | srl | srlv | sub | subu | sw | swl | swr | xor | xori
  | syscall | unimp | res | special | bcond
  deriving DecidableEq

inductive Format
  | ifmt | jfmt | rfmt
  deriving DecidableEq

open OpCode Format in
def opTable : List (OpCode × Format) :=
  [(special, rfmt), (bcond, ifmt), (j, jfmt), (jal, jfmt),
    (beq, ifmt), (bne, ifmt), (blez, ifmt), (bgtz, ifmt),
    (addi, ifmt), (addiu, ifmt), (slti, ifmt), (sltiu, ifmt),
    (andi, ifmt), (ori, ifmt), (xori, ifmt), (lui, ifmt),
    (unimp, ifmt), (unimp, ifmt), (unimp, ifmt), (unimp, ifmt),
    (res, ifmt), (res, ifmt), (res, ifmt), (res, ifmt),
    (res, ifmt), (res, ifmt), (res, ifmt), (res, ifmt),
    (res, ifmt), (res, ifmt), (res, ifmt), (res, ifmt),
    (lb, ifmt), (lh, ifmt), (lwl, ifmt), (lw, ifmt),
    (lbu, ifmt), (lhu, ifmt), (lwr, ifmt), (res, ifmt),
    (sb, ifmt), (sh, ifmt), (swl, ifmt), (sw, ifmt),
    (res, ifmt), (res, ifmt), (swr, ifmt), (res, ifmt),
    (unimp, ifmt), (unimp, ifmt), (unimp, ifmt), (unimp, ifmt),
    (res, ifmt), (res, ifmt), (res, ifmt), (res, ifmt),
    (unimp, ifmt), (unimp, ifmt), (unimp, ifmt), (unimp, ifmt),
    (res, ifmt), (res, ifmt), (res, ifmt), (res, ifmt)]

open OpCode in
def specialTable : List OpCode :=
  [sll, res, srl, sra, sllv, res, srlv, srav,
    jr, jalr, res, res, syscall, unimp, res, res,
    mfhi, mthi, mflo, mtlo, res, res, res, res,
    mult, multu, div, divu, res, res, res, res,
    add, addu, sub, subu, .and, .or, .xor, nor,
    res, res, slt, sltu, res, res, res, res,
    res, res, res, res, res, res, res, res,
    res, res, res, res, res, res, res, res]

structure Instruction where
  value : Word
  opCode : OpCode
  rs : Fin 32
  rt : Fin 32
  rd : Fin 32
  extra : Word
  deriving DecidableEq

/-- The five bits of `value` from bit `low` on. -/
def field (value : Word) (low : Nat) : Fin 32 := (value.extractLsb' low 5).toFin

/-- `Instruction::Decode`. -/
def decode (value : Word) : Instruction :=
  let (opCode, format) := opTable.getD (value.extractLsb' 26 6).toNat (.res, .ifmt)
  let extra :=
    match format with
    | .ifmt =>
      let extra := value &&& 0xffff
      if extra &&& 0x8000 ≠ 0 then extra ||| 0xffff0000 else extra
    | .rfmt => (value >>> 6) &&& 0x1f
    | .jfmt => value &&& 0x3ffffff
  let opCode :=
    match opCode with
    | .special => specialTable.getD (value.extractLsb' 0 6).toNat .res
    | .bcond =>
      let i := value &&& 0x1f0000
      if i = 0 then .bltz
      else if i = 0x10000 then .bgez
      else if i = 0x100000 then .bltzal
      else if i = 0x110000 then .bgezal
      else .unimp
    | op => op
  { value := value, opCode := opCode, rs := field value 21, rt := field value 16,
    rd := field value 11, extra := extra }

/-- The state of the loop of `Mult`. -/
structure MultState where
  a : Word
  bLo : Word
  bHi : Word
  lo : Word
  hi : Word

/-- The loop of `Mult`, `n` more rounds; `a` is shifted as an `int`. -/
def multLoop : Nat → MultState → Word × Word
  | 0, s => (s.hi, s.lo)
  | n + 1, s =>
    let lo := if s.a &&& 1 ≠ 0 then s.lo + s.bLo else s.lo
    let hi :=
      if s.a &&& 1 ≠ 0 then
        (if lo.ult s.bLo then s.hi + 1 else s.hi) + s.bHi
      else s.hi
    if s.a &&& 1 ≠ 0 ∧ s.a &&& 0xfffffffe = 0 then (hi, lo)
    else
      let bHi := s.bHi <<< 1
      let bHi := if s.bLo &&& 0x80000000 ≠ 0 then bHi ||| 1 else bHi
      multLoop n { a := s.a.sshiftRight 1, bLo := s.bLo <<< 1, bHi := bHi, lo := lo, hi := hi }

/-- `Mult`: the high and the low word. -/
def mult (a b : Word) (signedArith : Bool) : Word × Word :=
  if a = 0 ∨ b = 0 then (0, 0)
  else
    let negA := signedArith && a.slt 0
    let negB := signedArith && b.slt 0
    let (hi, lo) := multLoop 32
      { a := if negA then -a else a, bLo := if negB then -b else b, bHi := 0, lo := 0, hi := 0 }
    if negA != negB then
      let hi := ~~~hi
      let lo := ~~~lo + 1
      (if lo = 0 then hi + 1 else hi, lo)
    else (hi, lo)

/-- What the switch of `OneInstruction` leaves to its last lines. -/
structure Effect where
  nextLoadReg : Fin 32
  nextLoadValue : Word
  pcAfter : Word

namespace Machine

open Program

def signBit : Word := 0x80000000

/-- `IndexToAddr`. -/
def indexToAddr (x : Word) : Word := x <<< 2

/-- An instruction that falls through to the next one. -/
def next (pcAfter : Word) : Routine Effect :=
  pure { nextLoadReg := noReg, nextLoadValue := 0, pcAfter := pcAfter }

/-- `registers[r] = v; break;` -/
def result (r : Reg) (v : Word) (pcAfter : Word) : Routine Effect := do
  writeRegister r v
  next pcAfter

/-- A conditional branch. -/
def branch (taken : Bool) (instr : Instruction) (pcAfter : Word) : Routine Effect := do
  let nextPC ← readRegister nextPCReg
  next (if taken then nextPC + indexToAddr instr.extra else pcAfter)

/-- A load whose value is put into `rt` one instruction later. -/
def load (instr : Instruction) (value pcAfter : Word) : Routine Effect :=
  pure { nextLoadReg := instr.rt, nextLoadValue := value, pcAfter := pcAfter }

/-- `LoadValueReg` if a load of `rt` is pending, else `rt`. -/
def pendingValue (instr : Instruction) : Routine Word := do
  let pending ← readRegister loadReg
  if pending = BitVec.ofNat 32 instr.rt then readRegister loadValueReg
  else readRegister (gpr instr.rt)

/-- A check that raises an exception, or a failed ASSERT, when it does not hold. -/
def require (c : Prop) [Decidable c] (otherwise : Routine Unit) : Routine Unit :=
  if c then pure () else otherwise

/-- The switch of `Machine::OneInstruction`. -/
def execute (instr : Instruction) (pcAfter : Word) : Routine Effect := do
  let rs ← readRegister (gpr instr.rs)
  let rt ← readRegister (gpr instr.rt)
  let nextPC ← readRegister nextPCReg
  let extra := instr.extra
  let tmp := rs + extra
  match instr.opCode with
  | .add =>
    let sum := rs + rt
    if (rs ^^^ rt) &&& signBit = 0 ∧ (rs ^^^ sum) &&& signBit ≠ 0 then raiseException .overflow 0
    else result (gpr instr.rd) sum pcAfter
  | .addi =>
    let sum := rs + extra
    if (rs ^^^ extra) &&& signBit = 0 ∧ (extra ^^^ sum) &&& signBit ≠ 0 then
      raiseException .overflow 0
    else result (gpr instr.rt) sum pcAfter
  | .addiu => result (gpr instr.rt) (rs + extra) pcAfter
  | .addu => result (gpr instr.rd) (rs + rt) pcAfter
  | .and => result (gpr instr.rd) (rs &&& rt) pcAfter
  | .andi => result (gpr instr.rt) (rs &&& (extra &&& 0xffff)) pcAfter
  | .beq => branch (rs = rt) instr pcAfter
  | .bgezal =>
    writeRegister retAddrReg (nextPC + 4)
    let rs ← readRegister (gpr instr.rs)
    branch (rs &&& signBit = 0) instr pcAfter
  | .bgez => branch (rs &&& signBit = 0) instr pcAfter
  | .bgtz => branch ((0 : Word).slt rs) instr pcAfter
  | .blez => branch (rs.sle 0) instr pcAfter
  | .bltzal =>
    writeRegister retAddrReg (nextPC + 4)
    let rs ← readRegister (gpr instr.rs)
    branch (rs &&& signBit ≠ 0) instr pcAfter
  | .bltz => branch (rs &&& signBit ≠ 0) instr pcAfter
  | .bne => branch (rs ≠ rt) instr pcAfter
  | .div =>
    if rt = 0 then
      writeRegister loReg 0
      result hiReg 0 pcAfter
    else if rs = signBit ∧ rt = -1 then fault .hostDivision
    else
      writeRegister loReg (rs.sdiv rt)
      result hiReg (rs.srem rt) pcAfter
  | .divu =>
    if rt = 0 then
      writeRegister loReg 0
      result hiReg 0 pcAfter
    else
      writeRegister loReg (rs / rt)
      result hiReg (rs % rt) pcAfter
  | .jal =>
    writeRegister retAddrReg (nextPC + 4)
    next ((pcAfter &&& 0xf0000000) ||| indexToAddr extra)
  | .j => next ((pcAfter &&& 0xf0000000) ||| indexToAddr extra)
  | .jalr =>
    -- the link is written before the target is read
    writeRegister (gpr instr.rd) (nextPC + 4)
    let target ← readRegister (gpr instr.rs)
    next target
  | .jr => next rs
  | .lb =>
    let value ← readMem tmp 1
    load instr (if value &&& 0x80 ≠ 0 then value ||| 0xffffff00 else value &&& 0xff) pcAfter
  | .lbu =>
    let value ← readMem tmp 1
    load instr (value &&& 0xff) pcAfter
  | .lh =>
    require (tmp &&& 0x1 = 0) (raiseException .addressError tmp)
    let value ← readMem tmp 2
    load instr (if value &&& 0x8000 ≠ 0 then value ||| 0xffff0000 else value &&& 0xffff) pcAfter
  | .lhu =>
    require (tmp &&& 0x1 = 0) (raiseException .addressError tmp)
    let value ← readMem tmp 2
    load instr (value &&& 0xffff) pcAfter
  | .lui => result (gpr instr.rt) (extra <<< 16) pcAfter
  | .lw =>
    require (tmp &&& 0x3 = 0) (raiseException .addressError tmp)
    let value ← readMem tmp 4
    load instr value pcAfter
  | .lwl =>
    require (tmp &&& 0x3 = 0) (fault .assertion)
    let value ← readMem tmp 4
    let old ← pendingValue instr
    load instr
      (match (tmp &&& 0x3).toNat with
        | 0 => value
        | 1 => (old &&& 0xff) ||| value <<< 8
        | 2 => (old &&& 0xffff) ||| value <<< 16
        | _ => (old &&& 0xffffff) ||| value <<< 24) pcAfter
  | .lwr =>
    require (tmp &&& 0x3 = 0) (fault .assertion)
    let value ← readMem tmp 4
    let old ← pendingValue instr
    load instr
      (match (tmp &&& 0x3).toNat with
        | 0 => (old &&& 0xffffff00) ||| (value.sshiftRight 24 &&& 0xff)
        | 1 => (old &&& 0xffff0000) ||| (value.sshiftRight 16 &&& 0xffff)
        | 2 => (old &&& 0xff000000) ||| (value.sshiftRight 8 &&& 0xffffff)
        | _ => value) pcAfter
  | .mfhi =>
    let hi ← readRegister hiReg
    result (gpr instr.rd) hi pcAfter
  | .mflo =>
    let lo ← readRegister loReg
    result (gpr instr.rd) lo pcAfter
  | .mthi => result hiReg rs pcAfter
  | .mtlo => result loReg rs pcAfter
  | .mult =>
    writeRegister hiReg (mult rs rt true).1
    result loReg (mult rs rt true).2 pcAfter
  | .multu =>
    writeRegister hiReg (mult rs rt false).1
    result loReg (mult rs rt false).2 pcAfter
  | .nor => result (gpr instr.rd) (~~~(rs ||| rt)) pcAfter
  -- the source has `registers[instr->rs]` on both sides
  | .or => result (gpr instr.rd) (rs ||| rs) pcAfter
  | .ori => result (gpr instr.rt) (rs ||| (extra &&& 0xffff)) pcAfter
  | .sb => do
    writeMem tmp 1 rt
    next pcAfter
  | .sh => do
    writeMem tmp 2 rt
    next pcAfter
  | .sll => result (gpr instr.rd) (rt <<< extra.toNat) pcAfter
  | .sllv => result (gpr instr.rd) (rt <<< (rs &&& 0x1f).toNat) pcAfter
  | .slt => result (gpr instr.rd) (if rs.slt rt then 1 else 0) pcAfter
  | .slti => result (gpr instr.rt) (if rs.slt extra then 1 else 0) pcAfter
  | .sltiu => result (gpr instr.rt) (if rs.ult extra then 1 else 0) pcAfter
  | .sltu => result (gpr instr.rd) (if rs.ult rt then 1 else 0) pcAfter
  | .sra => result (gpr instr.rd) (rt.sshiftRight extra.toNat) pcAfter
  | .srav => result (gpr instr.rd) (rt.sshiftRight (rs &&& 0x1f).toNat) pcAfter
  -- `tmp` is an `int`, so these two shift in the sign as well
  | .srl => result (gpr instr.rd) (rt.sshiftRight extra.toNat) pcAfter
  | .srlv => result (gpr instr.rd) (rt.sshiftRight (rs &&& 0x1f).toNat) pcAfter
  | .sub =>
    let diff := rs - rt
    if (rs ^^^ rt) &&& signBit ≠ 0 ∧ (rs ^^^ diff) &&& signBit ≠ 0 then
      raiseException .overflow 0
    else result (gpr instr.rd) diff pcAfter
  | .subu => result (gpr instr.rd) (rs - rt) pcAfter
  | .sw => do
    writeMem tmp 4 rt
    next pcAfter
  | .swl =>
    require (tmp &&& 0x3 = 0) (fault .assertion)
    let value ← readMem (tmp &&& ~~~0x3) 4
    writeMem (tmp &&& ~~~0x3) 4
      (match (tmp &&& 0x3).toNat with
        | 0 => rt
        | 1 => (value &&& 0xff000000) ||| (rt.sshiftRight 8 &&& 0xffffff)
        | 2 => (value &&& 0xffff0000) ||| (rt.sshiftRight 16 &&& 0xffff)
        | _ => (value &&& 0xffffff00) ||| (rt.sshiftRight 24 &&& 0xff))
    next pcAfter
  | .swr =>
    require (tmp &&& 0x3 = 0) (fault .assertion)
    let value ← readMem (tmp &&& ~~~0x3) 4
    writeMem (tmp &&& ~~~0x3) 4
      (match (tmp &&& 0x3).toNat with
        | 0 => (value &&& 0xffffff) ||| rt <<< 24
        | 1 => (value &&& 0xffff) ||| rt <<< 16
        | 2 => (value &&& 0xff) ||| rt <<< 8
        | _ => rt)
    next pcAfter
  | .syscall => raiseException .syscall 0
  | .xor => result (gpr instr.rd) (rs ^^^ rt) pcAfter
  | .xori => result (gpr instr.rt) (rs ^^^ (extra &&& 0xffff)) pcAfter
  | .res => raiseException .illegalInstr 0
  | .unimp => raiseException .illegalInstr 0
  -- `default: ASSERT(FALSE)`
  | .rfe => fault .assertion
  | .special => fault .assertion
  | .bcond => fault .assertion

/-- `Machine::OneInstruction`. -/
def oneInstruction : Routine Unit := do
  let pc ← readRegister pcReg
  let raw ← readMem pc 4
  let nextPC ← readRegister nextPCReg
  let effect ← execute (decode raw) (nextPC + 4)
  delayedLoad effect.nextLoadReg effect.nextLoadValue
  let pc ← readRegister pcReg
  writeRegister prevPCReg pc
  let nextPC ← readRegister nextPCReg
  writeRegister pcReg nextPC
  writeRegister nextPCReg effect.pcAfter

/-- The word `w` is fetched. -/
def Fetches (m : Machine) (w : Word) : Prop :=
  ∃ m', readMem (m.registers pcReg) 4 m = .done w m'

/-! ### Confinement -/

theorem gpr_ne_loadReg (r : Fin 32) : gpr r ≠ loadReg := by
  intro h
  have hval := congrArg Fin.val h
  simp only [gpr, loadReg, Fin.val_castLE] at hval
  have hlt := r.isLt
  omega

theorem confined_read (r : Reg) : Keeps confinement (readRegister r) := keeps_gets _

theorem confined_next (pcAfter : Word) : Keeps confinement (next pcAfter) := keeps_pure _

theorem confined_load (instr : Instruction) (v pcAfter : Word) :
    Keeps confinement (load instr v pcAfter) := keeps_pure _

theorem confined_result {r : Reg} (hr : r ≠ loadReg) (v pcAfter : Word) :
    Keeps confinement (result r v pcAfter) :=
  (confined_writeRegister hr v).bind fun _ => confined_next pcAfter

theorem confined_branch (taken : Bool) (instr : Instruction) (pcAfter : Word) :
    Keeps confinement (branch taken instr pcAfter) :=
  (confined_read _).bind fun _ => confined_next _

theorem confined_pendingValue (instr : Instruction) : Keeps confinement (pendingValue instr) :=
  (confined_read _).bind fun _ => (confined_read _).ite (confined_read _)

theorem confined_require (c : Prop) [Decidable c] {p : Routine Unit} (hp : Keeps confinement p) :
    Keeps confinement (require c p) := (keeps_pure _).ite hp

/-- One case of the switch for each operation. -/
theorem confined_execute (instr : Instruction) (pcAfter : Word) :
    Keeps confinement (execute instr pcAfter) := by
  obtain ⟨value, opCode, rs, rt, rd, extra⟩ := instr
  refine (confined_read _).bind fun a => (confined_read _).bind fun b =>
    (confined_read _).bind fun nextPC => ?_
  have hgpr : ∀ r v, Keeps confinement (result (gpr r) v pcAfter) :=
    fun r v => confined_result (gpr_ne_loadReg r) v pcAfter
  have hhi : ∀ v, Keeps confinement (result hiReg v pcAfter) :=
    fun v => confined_result (by decide) v pcAfter
  have hlo : ∀ v, Keeps confinement (result loReg v pcAfter) :=
    fun v => confined_result (by decide) v pcAfter
  have hlink : Keeps confinement (writeRegister retAddrReg (nextPC + 4)) :=
    confined_writeRegister (by decide) _
  cases opCode with
  | addiu | addu | and | andi | lui | nor | or | ori | sll | sllv | slt | slti | sltiu | sltu
  | sra | srav | srl | srlv | subu | xor | xori => exact hgpr _ _
  | add | addi | sub => exact (confined_raiseException _ _).ite (hgpr _ _)
  | beq | bgez | bgtz | blez | bltz | bne => exact confined_branch _ _ _
  | bgezal | bltzal =>
    exact hlink.bind fun _ => (confined_read _).bind fun _ => confined_branch _ _ _
  | div =>
    refine Keeps.ite ?_ ((keeps_fault fun _ _ => by simp).ite ?_)
    · exact (confined_writeRegister (by decide) _).bind fun _ => hhi _
    · exact (confined_writeRegister (by decide) _).bind fun _ => hhi _
  | divu =>
    apply Keeps.ite
    · exact (confined_writeRegister (by decide) _).bind fun _ => hhi _
    · exact (confined_writeRegister (by decide) _).bind fun _ => hhi _
  | j | jr => exact confined_next _
  | jal => exact hlink.bind fun _ => confined_next _
  | jalr =>
    refine (confined_writeRegister (gpr_ne_loadReg _) _).bind fun _ => ?_
    exact (confined_read _).bind fun _ => confined_next _
  | lb | lbu => exact (confined_readMem _ _).bind fun _ => confined_load _ _ _
  | lh | lhu | lw =>
    refine (confined_require _ (confined_raiseException _ _)).bind fun _ => ?_
    exact (confined_readMem _ _).bind fun _ => confined_load _ _ _
  | lwl | lwr =>
    refine (confined_require _ (keeps_fault allows_assertion)).bind fun _ => (confined_readMem _ _).bind fun _ => ?_
    exact (confined_pendingValue _).bind fun _ => confined_load _ _ _
  | mfhi | mflo => exact (confined_read _).bind fun _ => hgpr _ _
  | mthi => exact hhi _
  | mtlo => exact hlo _
  | mult | multu => exact (confined_writeRegister (by decide) _).bind fun _ => hlo _
  | sb | sh | sw => exact (confined_writeMem _ _ _).bind fun _ => confined_next _
  | swl | swr =>
    refine (confined_require _ (keeps_fault allows_assertion)).bind fun _ => (confined_readMem _ _).bind fun _ => ?_
    exact (confined_writeMem _ _ _).bind fun _ => confined_next _
  | syscall | res | unimp => exact confined_raiseException _ _
  | rfe | special | bcond => exact keeps_fault allows_assertion

/-- Besides the registers, an instruction changes only bytes of mapped frames. -/
theorem confined_oneInstruction : Keeps confinement oneInstruction := by
  refine (confined_read _).bind fun pc => (confined_readMem _ _).bind fun raw => ?_
  refine (confined_read _).bind fun nextPC => (confined_execute _ _).bind fun effect => ?_
  refine (confined_delayedLoad _ _).bind fun _ => (confined_read _).bind fun _ => ?_
  refine (confined_writeRegister (by decide) _).bind fun _ => (confined_read _).bind fun _ => ?_
  refine (confined_writeRegister (by decide) _).bind fun _ => ?_
  exact confined_writeRegister (by decide) _

end Machine

end Nachos
