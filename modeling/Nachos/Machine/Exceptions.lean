import Nachos.Lib.CInt
import Nachos.Machine.MipsI

/-!
# Precise exceptions

`precise_oneInstruction`: when an instruction raises an exception, `ExceptionHandler` is entered
in the state before the instruction, with the pending load done. The proof follows the switch:
an operation that can still be refused has read at most memory and registers, and an operation
that has stored something cannot be refused any more.

`overflow_iff`: the sign-bit formulas of ADD, ADDI and SUB are exact.

`oneInstruction_marks`: what `Precise` leaves out, the use and dirty bits, an instruction only sets.
-/

namespace Nachos

namespace Machine

open Programs Program

/-- The registers once the pending load is done and cleared; register 0 stays 0. -/
def loaded (regs : Reg → Word) (r : Reg) : Word :=
  if r.val = 0 ∨ r = loadReg ∨ r = loadValueReg then 0
  else if r.val = (regs loadReg).toNat then regs loadValueReg
  else regs r

/-- The state `m'` at the entry of `ExceptionHandler` is the one before the instruction, but
for the pending load, `BadVAddrReg` and the use and dirty bits. -/
structure Precise (m m' : Machine) : Prop where
  memory : m'.mainMemory = m.mainMemory
  mapping : m'.mapping = m.mapping
  size : m'.pageTableSize = m.pageTableSize
  registers : ∀ r, r ≠ badVAddrReg → m'.registers r = loaded m.registers r

/-! ### Raising an exception -/

/-- With a register number in `LoadReg` the exception is reported. -/
theorem raiseException_eq {α : Type} {m : Machine} (h : (m.registers loadReg).toNat < 40)
    (e : ExceptionType) (a : Word) :
    (raiseException e a : Routine α) m =
      .trap e (cleared ((m.setRegister badVAddrReg a).setRegister
        ⟨(m.registers loadReg).toNat, h⟩ (m.registers loadValueReg))) := by
  have hfinish : finishLoad (m.setRegister badVAddrReg a) =
      .done () ((m.setRegister badVAddrReg a).setRegister ⟨(m.registers loadReg).toNat, h⟩
        (m.registers loadValueReg)) := dif_pos h
  show Program.bind (Program.bind finishLoad _) _ (m.setRegister badVAddrReg a) = _
  unfold Program.bind
  rw [hfinish]
  rfl

theorem raiseException_fault {α : Type} {m : Machine} (h : ¬ (m.registers loadReg).toNat < 40)
    (e : ExceptionType) (a : Word) :
    (raiseException e a : Routine α) m = .fault .outOfBounds := by
  have hfinish : finishLoad (m.setRegister badVAddrReg a) = .fault .outOfBounds := dif_neg h
  show Program.bind (Program.bind finishLoad _) _ (m.setRegister badVAddrReg a) = _
  unfold Program.bind
  rw [hfinish]

/-- Exceptions that are raised before anything is stored are precise. -/
theorem precise_raiseException {α : Type} {m₀ : Machine} {Q : α → Machine → Prop}
    {F : Fault → Prop} (hF : F .outOfBounds) (e : ExceptionType) (a : Word) :
    Triple (Touched m₀) (raiseException e a) Q (fun _ m' => Precise m₀ m') F := by
  intro m hm
  by_cases h : (m.registers loadReg).toNat < 40
  · rw [raiseException_eq h]
    refine ⟨hm.memory, hm.mapping, hm.size, fun r hr => ?_⟩
    rw [← hm.registers]
    simp only [cleared, setRegister, loaded, Function.update_apply]
    have hpending : r = ⟨(m.registers loadReg).toNat, h⟩ ↔ r.val = (m.registers loadReg).toNat :=
      Fin.ext_iff
    have hzero : r = 0 ↔ r.val = 0 := Fin.ext_iff
    simp only [hr, hpending, hzero, if_false]
    split_ifs <;> grind
  · rw [raiseException_fault h]
    exact hF

/-! ### Operations that cannot be refused -/

theorem total_read (r : Reg) : Total (readRegister r) := total_gets _

theorem total_write (r : Reg) (v : Word) : Total (writeRegister r v) := total_modify _

theorem total_next (pcAfter : Word) : Total (next pcAfter) := total_pure _

theorem total_result (r : Reg) (v pcAfter : Word) : Total (result r v pcAfter) :=
  (total_write r v).bind fun _ => total_next pcAfter

theorem total_branch (taken : Bool) (instr : Instruction) (pcAfter : Word) :
    Total (branch taken instr pcAfter) := (total_read _).bind fun _ => total_next _

theorem total_load (instr : Instruction) (v pcAfter : Word) : Total (load instr v pcAfter) :=
  total_pure _

theorem total_pendingValue (instr : Instruction) : Total (pendingValue instr) :=
  (total_read _).bind fun _ => (total_read _).ite (total_read _)

/-! ### The switch -/

/-- What the routines of the machine may do before an instruction has stored anything:
exceptions satisfy `T`, faults satisfy `F`. -/
structure Refusals (m₀ : Machine) (T : ExceptionType → Machine → Prop) (F : Fault → Prop) :
    Prop where
  raise : ∀ {α : Type} (Q : α → Machine → Prop) (e : ExceptionType) (a : Word),
    Triple (Touched m₀) (raiseException e a) Q T F
  translate : ∀ (va : Word) (size : Nat) (writing : Bool), size = 1 ∨ size = 2 ∨ size = 4 →
    Triple (Touched m₀) (Machine.translate va size writing) (fun _ => Touched m₀) T F
  bounds : F .outOfBounds

/-- Each fault of the switch itself satisfies `F` under its condition on the operands. -/
structure SwitchFaults (m₀ : Machine) (instr : Instruction) (F : Fault → Prop) : Prop where
  division : instr.opCode = .div → m₀.registers (gpr instr.rs) = signBit →
    m₀.registers (gpr instr.rt) = -1 → F .hostDivision
  unaligned : instr.opCode ∈ [OpCode.lwl, .lwr, .swl, .swr] →
    (m₀.registers (gpr instr.rs) + instr.extra) &&& 0x3 ≠ 0 → F .assertion
  other : instr.opCode ∈ [OpCode.rfe, .special, .bcond] → F .assertion

section Switch

variable {m₀ : Machine} {instr : Instruction} {T : ExceptionType → Machine → Prop}
  {F : Fault → Prop}

theorem triple_readRegister (r : Reg) :
    Triple (Touched m₀) (readRegister r) (fun v m => Touched m₀ m ∧ v = m₀.registers r) T F :=
  triple_gets fun m hm => ⟨hm, by rw [hm.registers]⟩

theorem Refusals.readMem (h : Refusals m₀ T F) (a : Word) {size : Nat}
    (hsize : size = 1 ∨ size = 2 ∨ size = 4) :
    Triple (Touched m₀) (readMem a size) (fun _ => Touched m₀) T F := by
  refine (h.translate a size false hsize).bind fun r => ?_
  cases r with
  | error e => exact h.raise _ e a
  | ok pa =>
    rcases hsize with rfl | rfl | rfl
    · exact triple_gets fun _ hm => hm
    · exact triple_gets fun _ hm => hm
    · exact triple_gets fun _ hm => hm

theorem Refusals.writeMem (h : Refusals m₀ T F) (a : Word) {size : Nat} (v : Word)
    (hsize : size = 1 ∨ size = 2 ∨ size = 4) :
    Triple (Touched m₀) (writeMem a size v) Anything T F := by
  refine (h.translate a size true hsize).bind fun r => ?_
  cases r with
  | error e => exact h.raise _ e a
  | ok pa => exact Triple.ite (fun _ => (total_modify _).anything) fun hnot => absurd hsize hnot

theorem Refusals.require (c : Prop) [Decidable c] {p : Routine Unit}
    (hp : ¬ c → Triple (Touched m₀) p (fun _ => Touched m₀) T F) :
    Triple (Touched m₀) (require c p) (fun _ => Touched m₀) T F :=
  Triple.ite (fun _ => triple_pure fun _ hm => hm) hp

/-- An operation that the switch completes after a read. -/
theorem Refusals.read_then (h : Refusals m₀ T F) (a : Word) {size : Nat}
    (hsize : size = 1 ∨ size = 2 ∨ size = 4) {f : Word → Routine Effect}
    (hf : ∀ v, Total (f v)) : Triple (Touched m₀) (Machine.readMem a size >>= f) Anything T F :=
  (h.readMem a hsize).bind fun v => (hf v).anything

/-- The switch: what is refused is refused before anything is stored. -/
theorem Refusals.execute (h : Refusals m₀ T F) (hswitch : SwitchFaults m₀ instr F)
    (pcAfter : Word) : Triple (Touched m₀) (execute instr pcAfter) Anything T F := by
  obtain ⟨value, opCode, rs, rt, rd, extra⟩ := instr
  refine (triple_readRegister _).bind fun a => Triple.of_and fun ha => ?_
  refine (triple_readRegister _).bind fun b => Triple.of_and fun hb => ?_
  refine (triple_readRegister _).bind fun nextPC => Triple.of_and fun _ => ?_
  have hresult : ∀ r v, Triple (Touched m₀) (result r v pcAfter) Anything T F :=
    fun r v => (total_result r v pcAfter).anything
  cases opCode with
  | addiu | addu | and | andi | lui | nor | or | ori | sll | sllv | slt | slti | sltiu | sltu
  | sra | srav | srl | srlv | subu | xor | xori => exact hresult _ _
  | add | addi | sub => exact Triple.ite (fun _ => h.raise _ _ _) fun _ => hresult _ _
  | beq | bgez | bgtz | blez | bltz | bne => exact (total_branch _ _ _).anything
  | bgezal | bltzal =>
    refine ((total_write _ _).bind fun _ => ?_).anything
    exact (total_read _).bind fun _ => total_branch _ _ _
  | div =>
    refine Triple.ite (fun _ => ?_) fun _ => Triple.ite (fun hdiv => ?_) fun _ => ?_
    · exact ((total_write _ _).bind fun _ => total_result _ _ _).anything
    · exact triple_fault fun _ _ => hswitch.division rfl (ha ▸ hdiv.1) (hb ▸ hdiv.2)
    · exact ((total_write _ _).bind fun _ => total_result _ _ _).anything
  | divu =>
    refine Triple.ite (fun _ => ?_) fun _ => ?_
    · exact ((total_write _ _).bind fun _ => total_result _ _ _).anything
    · exact ((total_write _ _).bind fun _ => total_result _ _ _).anything
  | j | jr => exact (total_next _).anything
  | jal => exact ((total_write _ _).bind fun _ => total_next _).anything
  | jalr =>
    exact ((total_write _ _).bind fun _ => (total_read _).bind fun _ => total_next _).anything
  | lb | lbu => exact h.read_then _ (by omega) fun _ => total_load _ _ _
  | lh | lhu | lw =>
    refine (Refusals.require _ fun _ => h.raise _ _ _).bind fun _ => ?_
    exact h.read_then _ (by omega) fun _ => total_load _ _ _
  | lwl | lwr =>
    refine (Refusals.require _ fun hne => ?_).bind fun _ => ?_
    · exact triple_fault fun _ _ => hswitch.unaligned (by simp) (ha ▸ hne)
    · exact h.read_then _ (by omega) fun _ =>
        (total_pendingValue _).bind fun _ => total_load _ _ _
  | mfhi | mflo => exact ((total_read _).bind fun _ => total_result _ _ _).anything
  | mthi | mtlo => exact hresult _ _
  | mult | multu => exact ((total_write _ _).bind fun _ => total_result _ _ _).anything
  | sb | sh | sw => exact (h.writeMem _ _ (by omega)).bind fun _ => (total_next _).anything
  | swl | swr =>
    refine (Refusals.require _ fun hne => ?_).bind fun _ => ?_
    · exact triple_fault fun _ _ => hswitch.unaligned (by simp) (ha ▸ hne)
    · refine (h.readMem _ (by omega)).bind fun _ => ?_
      exact (h.writeMem _ _ (by omega)).bind fun _ => (total_next _).anything
  | syscall | res | unimp => exact h.raise _ _ _
  | rfe | special | bcond => exact triple_fault fun _ _ => hswitch.other (by simp)

/-- The last lines of `OneInstruction`. -/
def commit (effect : Effect) : Routine Unit := do
  delayedLoad effect.nextLoadReg effect.nextLoadValue
  let pc ← readRegister pcReg
  writeRegister prevPCReg pc
  let nextPC ← readRegister nextPCReg
  writeRegister pcReg nextPC
  writeRegister nextPCReg effect.pcAfter

/-- Once the switch is left, nothing is refused any more. -/
theorem triple_commit (hbounds : F .outOfBounds) {P : Machine → Prop} (effect : Effect) :
    Triple P (commit effect) Anything T F := by
  have hload : Triple P (delayedLoad effect.nextLoadReg effect.nextLoadValue) Anything T F := by
    refine Triple.bind (R := Anything) (fun m _ => ?_) fun _ => ?_
    · unfold finishLoad
      split
      · trivial
      · exact hbounds
    · refine (Total.bind (total_write _ _) fun _ => ?_).anything
      exact (total_write _ _).bind fun _ => total_write _ _
  refine hload.bind fun _ => ?_
  refine (Total.bind (total_read _) fun _ => (total_write _ _).bind fun _ => ?_).anything
  exact (total_read _).bind fun _ => (total_write _ _).bind fun _ => total_write _ _

/-- The instruction as a whole. -/
theorem Refusals.oneInstruction (h : Refusals m₀ T F)
    (hswitch : ∀ w, Fetches m₀ w → SwitchFaults m₀ (decode w) F) :
    (oneInstruction m₀).Satisfies Anything T F := by
  have hfetch : Triple (fun m => m = m₀) (Machine.readMem (m₀.registers pcReg) 4)
      (fun w m => Touched m₀ m ∧ Fetches m₀ w) T F := by
    rintro m rfl
    have hfour : 4 = 1 ∨ 4 = 2 ∨ 4 = 4 := by omega
    have hread := h.readMem (m.registers pcReg) hfour m (Touched.refl m)
    cases hout : Machine.readMem (m.registers pcReg) 4 m with
    | done w m' =>
      rw [hout] at hread
      exact ⟨hread, m', hout⟩
    | trap e m' =>
      rw [hout] at hread
      exact hread
    | fault f =>
      rw [hout] at hread
      exact hread
  refine Triple.bind (P := fun m => m = m₀)
    (R := fun pc m => m = m₀ ∧ pc = m₀.registers pcReg) ?_ (fun pc => ?_) m₀ rfl
  · rintro m rfl
    exact ⟨rfl, rfl⟩
  refine Triple.of_and fun hpc => ?_
  subst hpc
  refine hfetch.bind fun w => Triple.of_and fun hw => ?_
  refine (triple_readRegister _).bind fun nextPC => Triple.of_and fun _ => ?_
  exact (h.execute (hswitch w hw) _).bind fun effect => triple_commit h.bounds effect

end Switch

/-! ### Exceptions are precise -/

theorem refusals_precise (m₀ : Machine) :
    Refusals m₀ (fun _ m' => Precise m₀ m') (fun _ => True) := by
  refine ⟨fun Q e a => precise_raiseException trivial e a, ?_, trivial⟩
  intro va size writing _ m hm
  rcases translate_cases va size writing m with ⟨f, h, -⟩ | ⟨e, h⟩ | ⟨pa, m', h, htr⟩
  · rw [h]
    trivial
  · rw [h]
    exact hm
  · rw [h]
    exact hm.trans htr.touched

theorem precise_of_trap {m m' : Machine} {e : ExceptionType} (h : oneInstruction m = .trap e m') :
    Precise m m' := by
  have hout := (refusals_precise m).oneInstruction fun w _ =>
    ⟨fun _ _ _ => trivial, fun _ _ => trivial, fun _ => trivial⟩
  rw [h] at hout
  exact hout

/-- A load of a general purpose register leaves the special registers alone. -/
theorem Precise.special {m m' : Machine} (h : Precise m m') (hload : LoadOK m.registers) {r : Reg}
    (hr : hiReg ≤ r) (hr' : r ≤ prevPCReg) : m'.registers r = m.registers r := by
  have hlo : 32 ≤ r.val := hr
  have hhi : r.val ≤ 36 := hr'
  have hne : ∀ r' : Reg, r'.val < 32 ∨ 36 < r'.val → r ≠ r' := by
    rintro r' hr' rfl
    omega
  rw [h.registers r (hne _ (by decide))]
  unfold loaded
  unfold LoadOK at hload
  rw [if_neg, if_neg]
  · omega
  · rintro (h0 | h0 | h0)
    · omega
    · exact hne _ (by decide) h0
    · exact hne _ (by decide) h0

/-! ### Overflow -/

/-- The values of an `int`. -/
def InRange (x : Int) : Prop := -2 ^ 31 ≤ x ∧ x < 2 ^ 31

theorem xor_signBit_ne_zero (a b : Word) :
    (a ^^^ b) &&& signBit ≠ 0 ↔ ¬ (a.toInt < 0 ↔ b.toInt < 0) := by
  refine (and_signBit_ne_zero (a ^^^ b)).trans ?_
  rw [BitVec.msb_xor, BitVec.msb_eq_toInt, BitVec.msb_eq_toInt]
  by_cases ha : a.toInt < 0
  · simp [ha]
  · simp [ha]

theorem toInt_bounds (a : Word) : InRange a.toInt := by
  have hlo := BitVec.le_toInt a
  have hhi := BitVec.toInt_lt (x := a)
  unfold InRange
  omega

/-- The formula of ADD. -/
theorem overflow_add_iff (a b : Word) :
    ((a ^^^ b) &&& signBit = 0 ∧ (a ^^^ (a + b)) &&& signBit ≠ 0) ↔
      ¬ InRange (a.toInt + b.toInt) := by
  have ha := toInt_bounds a
  have hb := toInt_bounds b
  have hsum := BitVec.toInt_add a b
  rw [Int.bmod_def] at hsum
  rw [xor_signBit_ne_zero, ← not_ne_iff (a := (a ^^^ b) &&& signBit), xor_signBit_ne_zero]
  unfold InRange at *
  split at hsum <;> omega

/-- The formula of SUB. -/
theorem overflow_sub_iff (a b : Word) :
    ((a ^^^ b) &&& signBit ≠ 0 ∧ (a ^^^ (a - b)) &&& signBit ≠ 0) ↔
      ¬ InRange (a.toInt - b.toInt) := by
  have ha := toInt_bounds a
  have hb := toInt_bounds b
  have hdiff := BitVec.toInt_sub (x := a) (y := b)
  rw [Int.bmod_def] at hdiff
  rw [xor_signBit_ne_zero, xor_signBit_ne_zero]
  unfold InRange at *
  split at hdiff <;> omega

/-- The exact result of ADD, ADDI and SUB. -/
def exactResult (w : Word) (regs : Reg → Word) : Option Int :=
  let rs := (regs (gpr (field w 21))).toInt
  let rt := (regs (gpr (field w 16))).toInt
  match (decode w).opCode with
  | .add => some (rs + rt)
  | .addi => some (rs + (w.extractLsb' 0 16).toInt)
  | .sub => some (rs - rt)
  | _ => none

section Formulas

variable {instr : Instruction} {pcAfter : Word} {m : Machine}

theorem execute_add (h : instr.opCode = .add) :
    execute instr pcAfter m =
      (if (m.registers (gpr instr.rs) ^^^ m.registers (gpr instr.rt)) &&& signBit = 0 ∧
          (m.registers (gpr instr.rs) ^^^ (m.registers (gpr instr.rs) +
            m.registers (gpr instr.rt))) &&& signBit ≠ 0 then raiseException .overflow 0
        else result (gpr instr.rd) (m.registers (gpr instr.rs) + m.registers (gpr instr.rt))
          pcAfter) m := by
  obtain ⟨value, opCode, rs, rt, rd, extra⟩ := instr
  subst h
  rfl

theorem execute_addi (h : instr.opCode = .addi) :
    execute instr pcAfter m =
      (if (m.registers (gpr instr.rs) ^^^ instr.extra) &&& signBit = 0 ∧
          (instr.extra ^^^ (m.registers (gpr instr.rs) + instr.extra)) &&& signBit ≠ 0 then
            raiseException .overflow 0
        else result (gpr instr.rt) (m.registers (gpr instr.rs) + instr.extra) pcAfter) m := by
  obtain ⟨value, opCode, rs, rt, rd, extra⟩ := instr
  subst h
  rfl

theorem execute_sub (h : instr.opCode = .sub) :
    execute instr pcAfter m =
      (if (m.registers (gpr instr.rs) ^^^ m.registers (gpr instr.rt)) &&& signBit ≠ 0 ∧
          (m.registers (gpr instr.rs) ^^^ (m.registers (gpr instr.rs) -
            m.registers (gpr instr.rt))) &&& signBit ≠ 0 then raiseException .overflow 0
        else result (gpr instr.rd) (m.registers (gpr instr.rs) - m.registers (gpr instr.rt))
          pcAfter) m := by
  obtain ⟨value, opCode, rs, rt, rd, extra⟩ := instr
  subst h
  rfl

/-- An instruction that is refused under `c` and stores its result otherwise. -/
theorem refused_iff {c : Prop} [Decidable c] {e : ExceptionType} {a v : Word} {r : Reg}
    (hload : (m.registers loadReg).toNat < 40) :
    (∃ m', Program.bind (if c then raiseException e a else result r v pcAfter) commit m =
      .trap e m') ↔ c := by
  constructor
  · rintro ⟨m', h⟩
    by_contra hc
    rw [if_neg hc] at h
    -- neither the result nor what follows it is refused
    have hresult : Triple (fun _ => True) (result r v pcAfter) Anything (fun _ _ => False)
        (fun _ => True) := (total_result r v pcAfter).anything
    have hout := (hresult.bind fun effect => triple_commit trivial effect) m trivial
    change (Program.bind _ commit m).Satisfies _ _ _ at hout
    rw [h] at hout
    exact hout
  · intro hc
    rw [if_pos hc]
    unfold Program.bind
    rw [raiseException_eq hload]
    exact ⟨_, rfl⟩

end Formulas

/-- After the fetch the instruction is the switch and the last lines. -/
theorem oneInstruction_of_fetch {m m₁ : Machine} {w : Word} {p : Routine Effect}
    (hread : readMem (m.registers pcReg) 4 m = .done w m₁)
    (hp : execute (decode w) (m₁.registers nextPCReg + 4) m₁ = p m₁) :
    oneInstruction m = Program.bind p commit m₁ := by
  have hpc : (readRegister pcReg : Routine Word) m = .done (m.registers pcReg) m := rfl
  have hnext : (readRegister nextPCReg : Routine Word) m₁ = .done (m₁.registers nextPCReg) m₁ := rfl
  rw [oneInstruction, bind_done hpc, bind_done hread, bind_done hnext]
  show Program.bind (execute (decode w) (m₁.registers nextPCReg + 4)) commit m₁ = _
  unfold Program.bind
  rw [hp]

/-- ADD, ADDI and SUB raise an overflow exception when the exact result is no `int`. -/
theorem overflow_iff {m : Machine} {w : Word} {x : Int} (hload : LoadOK m.registers)
    (hfetch : Fetches m w) (hexact : exactResult w m.registers = some x) :
    (∃ m', oneInstruction m = .trap .overflow m') ↔ ¬ InRange x := by
  obtain ⟨m₁, hread⟩ := hfetch
  have hregs := (readMem_touched hread).registers
  have hload₁ : (m₁.registers loadReg).toNat < 40 := by
    rw [hregs]
    exact Nat.lt_trans hload (by decide)
  unfold exactResult at hexact
  simp only at hexact
  split at hexact
  · rename_i hop
    cases hexact
    rw [oneInstruction_of_fetch hread (execute_add hop), refused_iff hload₁, overflow_add_iff, hregs]
    rfl
  · rename_i hop
    cases hexact
    have hextra := decode_immediate ((decode_opCode_iff .addi w).mp hop) rfl
    rw [oneInstruction_of_fetch hread (execute_addi hop), refused_iff hload₁, hextra, hregs, BitVec.xor_comm,
      BitVec.add_comm, overflow_add_iff, BitVec.toInt_signExtend_of_le (by omega), Int.add_comm]
    rfl
  · rename_i hop
    cases hexact
    rw [oneInstruction_of_fetch hread (execute_sub hop), refused_iff hload₁, overflow_sub_iff, hregs]
    rfl
  · cases hexact

/-- Exceptions are precise, and ADD, ADDI and SUB raise an overflow exception exactly when the
result is no `int`. -/
theorem precise_oneInstruction (m : Machine) :
    (∀ e m', oneInstruction m = .trap e m' → Precise m m' ∧
      (LoadOK m.registers → ∀ r, hiReg ≤ r → r ≤ prevPCReg → m'.registers r = m.registers r)) ∧
    ∀ w x, LoadOK m.registers → Fetches m w → exactResult w m.registers = some x →
      ((∃ m', oneInstruction m = .trap .overflow m') ↔ ¬ InRange x) := by
  refine ⟨fun e m' h => ?_, fun w x hload hfetch hexact => overflow_iff hload hfetch hexact⟩
  have hprecise := precise_of_trap h
  exact ⟨hprecise, fun hload r hr hr' => hprecise.special hload hr hr'⟩

/-- An instruction sets use and dirty bits of the page table and clears none, whether it is completed
or raises an exception. -/
theorem oneInstruction_marks (m : Machine) :
    (∀ m', oneInstruction m = .done () m' → OnlyMarks m m') ∧
      ∀ e m', oneInstruction m = .trap e m' → OnlyMarks m m' := by
  have hconfined := confined_oneInstruction m
  constructor
  · intro m' h
    rw [h] at hconfined
    exact Confined.marks hconfined
  · intro e m' h
    rw [h] at hconfined
    exact Confined.marks hconfined

/-- A machine about to execute `add $3, $1, $2`, with a load of register 4 pending. -/
def addMachine (a b : Word) : Machine where
  mainMemory i := [0x20, 0x18, 0x22, 0x00].getD i 0
  registers r :=
    if r.val = 1 then a else if r.val = 2 then b else if r = nextPCReg then 4
    else if r = loadReg then 4 else if r = loadValueReg then 7 else 0
  pageTable := some [⟨0, 0, true, false, false, false⟩]
  pageTableSize := 1

theorem addMachine_precise :
    ∃ m', oneInstruction (addMachine 0x7fffffff 1) = .trap .overflow m' ∧
      Precise (addMachine 0x7fffffff 1) m' ∧
      ((∃ m', oneInstruction (addMachine 0x7fffffff 1) = .trap .overflow m') ↔
        ¬ InRange (2 ^ 31)) :=
  ⟨_, rfl, ((precise_oneInstruction (addMachine 0x7fffffff 1)).1 _ _ rfl).1,
    (precise_oneInstruction (addMachine 0x7fffffff 1)).2 0x221820 _ (by unfold LoadOK; decide)
      ⟨_, rfl⟩ rfl⟩

end Machine

end Nachos
