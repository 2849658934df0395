import Nachos.Machine.Decode
import Nachos.Machine.Mult

/-!
# The integer instructions of MIPS I

`IntegerOp` are the integer instructions that write registers, with their encodings and their
results as the architecture manual gives them; this part does not look at the simulator.
`MeetsIsa` says that an instruction did to the registers what the architecture says.

`meetsIsa_iff`: the simulator meets it for all of them but three. OR reads `rs` twice, and
SRL and SRLV shift an `int`, so these agree with the architecture only on the operands where
this makes no difference.
-/

namespace Nachos

open Programs

/-! ### The architecture -/

inductive IntegerOp
  | add | addu | sub | subu | addi | addiu | and | andi | or | ori | xor | xori | nor
  | sll | sllv | srl | srlv | sra | srav | slt | slti | sltu | sltiu | lui
  | divu | mult | multu | mfhi | mflo | mthi | mtlo
  deriving DecidableEq

/-- An instruction is told by its operation field, and by its function field where the former
is that of SPECIAL. -/
inductive Encoding
  | special (funct : BitVec 6)
  | immediate (op : BitVec 6)
  deriving DecidableEq

namespace IntegerOp

def encoding : IntegerOp → Encoding
  | sll => .special 0
  | srl => .special 2
  | sra => .special 3
  | sllv => .special 4
  | srlv => .special 6
  | srav => .special 7
  | mfhi => .special 16
  | mthi => .special 17
  | mflo => .special 18
  | mtlo => .special 19
  | mult => .special 24
  | multu => .special 25
  | divu => .special 27
  | add => .special 32
  | addu => .special 33
  | sub => .special 34
  | subu => .special 35
  | .and => .special 36
  | .or => .special 37
  | .xor => .special 38
  | nor => .special 39
  | slt => .special 42
  | sltu => .special 43
  | addi => .immediate 8
  | addiu => .immediate 9
  | slti => .immediate 10
  | sltiu => .immediate 11
  | andi => .immediate 12
  | ori => .immediate 13
  | xori => .immediate 14
  | lui => .immediate 15

/-- The word `w` is an instruction `op`. -/
def Encodes (op : IntegerOp) (w : Word) : Prop :=
  match op.encoding with
  | .special funct => w.extractLsb' 26 6 = 0 ∧ w.extractLsb' 0 6 = funct
  | .immediate code => w.extractLsb' 26 6 = code

/-- The registers that the instruction `w` writes and their values; no value where the
architecture leaves it open. -/
def writes (op : IntegerOp) (w : Word) (regs : Reg → Word) : List (Reg × Option Word) :=
  let rs := regs (gpr (field w 21))
  let rt := regs (gpr (field w 16))
  let rd := gpr (field w 11)
  -- the destination of an instruction with an immediate operand
  let rt' := gpr (field w 16)
  let imm := w.extractLsb' 0 16
  let shamt := (w.extractLsb' 6 5).toNat
  let amount := (rs.extractLsb' 0 5).toNat
  match op with
  | add | addu => [(rd, some (rs + rt))]
  | sub | subu => [(rd, some (rs - rt))]
  | addi | addiu => [(rt', some (rs + imm.signExtend 32))]
  | .and => [(rd, some (rs &&& rt))]
  | andi => [(rt', some (rs &&& imm.setWidth 32))]
  | .or => [(rd, some (rs ||| rt))]
  | ori => [(rt', some (rs ||| imm.setWidth 32))]
  | .xor => [(rd, some (rs ^^^ rt))]
  | xori => [(rt', some (rs ^^^ imm.setWidth 32))]
  | nor => [(rd, some (~~~(rs ||| rt)))]
  | sll => [(rd, some (rt <<< shamt))]
  | sllv => [(rd, some (rt <<< amount))]
  | srl => [(rd, some (rt >>> shamt))]
  | srlv => [(rd, some (rt >>> amount))]
  | sra => [(rd, some (rt.sshiftRight shamt))]
  | srav => [(rd, some (rt.sshiftRight amount))]
  | slt => [(rd, some (if rs.toInt < rt.toInt then 1 else 0))]
  | slti => [(rt', some (if rs.toInt < (imm.signExtend 32).toInt then 1 else 0))]
  | sltu => [(rd, some (if rs.toNat < rt.toNat then 1 else 0))]
  | sltiu => [(rt', some (if rs.toNat < (imm.signExtend 32).toNat then 1 else 0))]
  | lui => [(rt', some (imm ++ (0 : BitVec 16)))]
  | divu =>
    if rt = 0 then [(loReg, none), (hiReg, none)]
    else [(loReg, some (rs / rt)), (hiReg, some (rs % rt))]
  | mult =>
    let product := rs.signExtend 64 * rt.signExtend 64
    [(hiReg, some (product.extractLsb' 32 32)), (loReg, some (product.extractLsb' 0 32))]
  | multu =>
    let product := rs.setWidth 64 * rt.setWidth 64
    [(hiReg, some (product.extractLsb' 32 32)), (loReg, some (product.extractLsb' 0 32))]
  | mfhi => [(rd, some (regs hiReg))]
  | mflo => [(rd, some (regs loReg))]
  | mthi => [(hiReg, some rs)]
  | mtlo => [(loReg, some rs)]

end IntegerOp

/-- The general purpose registers, Hi and Lo. -/
def IntegerReg (r : Reg) : Prop := r ≤ loReg

/-- The instruction `w` is an `op`, and it took the registers from `before` to `after` as the
architecture says. -/
structure MeetsIsa (op : IntegerOp) (w : Word) (before after : Reg → Word) : Prop where
  encodes : op.Encodes w
  results : ∀ r v, (r, some v) ∈ op.writes w before → r ≠ 0 → after r = v
  zero : after 0 = 0
  frame : ∀ r, IntegerReg r → r ≠ 0 → r ∉ (op.writes w before).map Prod.fst → after r = before r

/-! ### The simulator -/

/-- The operation code of the simulator. -/
def IntegerOp.opCode : IntegerOp → OpCode
  | add => .add
  | addu => .addu
  | sub => .sub
  | subu => .subu
  | addi => .addi
  | addiu => .addiu
  | .and => .and
  | andi => .andi
  | .or => .or
  | ori => .ori
  | .xor => .xor
  | xori => .xori
  | nor => .nor
  | sll => .sll
  | sllv => .sllv
  | srl => .srl
  | srlv => .srlv
  | sra => .sra
  | srav => .srav
  | slt => .slt
  | slti => .slti
  | sltu => .sltu
  | sltiu => .sltiu
  | lui => .lui
  | divu => .divu
  | mult => .mult
  | multu => .multu
  | mfhi => .mfhi
  | mflo => .mflo
  | mthi => .mthi
  | mtlo => .mtlo

/-! ### Decoding -/

/-- The function fields of the integer instructions. -/
theorem specialTable_iff (f : BitVec 6) (op : IntegerOp) :
    specialTable.getD f.toNat .res = op.opCode ↔ op.encoding = .special f := by
  revert f
  cases op <;> decide

/-- The operation fields of the integer instructions. -/
theorem opTable_iff (c : BitVec 6) (op : IntegerOp) :
    (opTable.getD c.toNat (.res, .ifmt)).1 = op.opCode ↔ op.encoding = .immediate c := by
  revert c
  cases op <;> decide

/-- The simulator takes the same words as the architecture for each integer instruction. -/
theorem decode_opCode_iff (op : IntegerOp) (w : Word) :
    (decode w).opCode = op.opCode ↔ op.Encodes w := by
  unfold IntegerOp.Encodes
  by_cases hspecial : w.extractLsb' 26 6 = 0
  · rw [(decode_special hspecial).1, specialTable_iff, hspecial]
    have hopcode : op.encoding ≠ .immediate 0 := by cases op <;> decide
    cases henc : op.encoding with
    | special f =>
      rw [Encoding.special.injEq, eq_comm]
      exact (and_iff_right rfl).symm
    | immediate c =>
      refine iff_of_false (by simp) ?_
      rintro rfl
      exact hopcode henc
  by_cases hbcond : w.extractLsb' 26 6 = 1
  · have hopcode : op.encoding ≠ .immediate 1 := by cases op <;> decide
    have hother : (decode w).opCode ≠ op.opCode := by
      intro hop
      have hmem := decode_bcond hbcond
      rw [hop] at hmem
      revert hmem
      cases op <;> decide
    apply iff_of_false hother
    rw [hbcond]
    cases henc : op.encoding with
    | special f => exact fun h => absurd h.1 (by decide)
    | immediate c =>
      rintro rfl
      exact hopcode henc
  · rw [decode_other hspecial hbcond, opTable_iff]
    cases henc : op.encoding with
    | special f => exact iff_of_false (by simp) fun h => hspecial h.1
    | immediate c => rw [Encoding.immediate.injEq, eq_comm]

theorem decode_shamt {op : IntegerOp} {f : BitVec 6} {w : Word} (hop : op.Encodes w)
    (henc : op.encoding = .special f) : (decode w).extra.toNat = (w.extractLsb' 6 5).toNat := by
  unfold IntegerOp.Encodes at hop
  rw [henc] at hop
  rw [(decode_special hop.1).2, BitVec.toNat_and, BitVec.toNat_ushiftRight,
    BitVec.extractLsb'_toNat]
  exact Nat.and_two_pow_sub_one_eq_mod _ 5

theorem sign_half (w : Word) :
    (if w &&& 0xffff &&& 0x8000 ≠ 0 then w &&& 0xffff ||| 0xffff0000 else w &&& 0xffff) =
      (w.extractLsb' 0 16).signExtend 32 := by
  have hlow : ∀ i : Fin 32, (0xffff : Word).getLsbD i = decide (i.val < 16) := by decide
  have hhigh : ∀ i : Fin 32, (0xffff0000 : Word).getLsbD i = !decide (i.val < 16) := by decide
  have hsign : w &&& 0xffff &&& 0x8000 ≠ 0 ↔ w.getLsbD 15 = true := by
    refine (and_twoPow_ne_zero (w &&& 0xffff) (i := 15) (by omega)).trans ?_
    rw [BitVec.getLsbD_and]
    simp
  have hmsb : (w.extractLsb' 0 16).msb = w.getLsbD 15 := by
    rw [BitVec.msb_eq_getLsbD_last]
    simp
  apply BitVec.eq_of_getLsbD_eq
  intro i hi
  have hlowi := hlow ⟨i, hi⟩
  have hhighi := hhigh ⟨i, hi⟩
  rw [BitVec.getLsbD_signExtend, hmsb, BitVec.getLsbD_extractLsb']
  by_cases hbit : w.getLsbD 15 = true
  · rw [if_pos (hsign.mpr hbit), BitVec.getLsbD_or, BitVec.getLsbD_and, hlowi, hhighi]
    by_cases hi' : i < 16
    · simp [hi, hi']
    · simp [hi, hi', hbit]
  · rw [if_neg (mt hsign.mp hbit), BitVec.getLsbD_and, hlowi, Bool.not_eq_true _ |>.mp hbit]
    by_cases hi' : i < 16
    · simp [hi, hi']
    · simp [hi']

/-- The immediate operand is the sign-extended low half of the word. -/
theorem decode_immediate {op : IntegerOp} {c : BitVec 6} {w : Word} (hop : op.Encodes w)
    (henc : op.encoding = .immediate c) :
    (decode w).extra = (w.extractLsb' 0 16).signExtend 32 := by
  have hformat : (opTable.getD c.toNat (.res, .ifmt)).2 = .ifmt := by
    revert henc
    cases op <;> (rintro ⟨⟩; try rfl)
  have hextra : (decode w).extra =
      if w &&& 0xffff &&& 0x8000 ≠ 0 then w &&& 0xffff ||| 0xffff0000 else w &&& 0xffff := by
    unfold IntegerOp.Encodes at hop
    rw [henc] at hop
    unfold decode
    rw [hop]
    generalize opTable.getD c.toNat (.res, .ifmt) = entry at hformat
    obtain ⟨code, format⟩ := entry
    subst hformat
    rfl
  rw [hextra, sign_half]

namespace Machine

/-! ### Execution -/

/-- The words that the switch of `OneInstruction` stores in registers. -/
def switchWrites (op : IntegerOp) (instr : Instruction) (regs : Reg → Word) : List (Reg × Word) :=
  let rs := regs (gpr instr.rs)
  let rt := regs (gpr instr.rt)
  let rd := gpr instr.rd
  let rt' := gpr instr.rt
  let extra := instr.extra
  match op with
  | .add | .addu => [(rd, rs + rt)]
  | .sub | .subu => [(rd, rs - rt)]
  | .addi | .addiu => [(rt', rs + extra)]
  | .and => [(rd, rs &&& rt)]
  | .andi => [(rt', rs &&& (extra &&& 0xffff))]
  | .or => [(rd, rs ||| rs)]
  | .ori => [(rt', rs ||| (extra &&& 0xffff))]
  | .xor => [(rd, rs ^^^ rt)]
  | .xori => [(rt', rs ^^^ (extra &&& 0xffff))]
  | .nor => [(rd, ~~~(rs ||| rt))]
  | .sll => [(rd, rt <<< extra.toNat)]
  | .sllv => [(rd, rt <<< (rs &&& 0x1f).toNat)]
  | .srl | .sra => [(rd, rt.sshiftRight extra.toNat)]
  | .srlv | .srav => [(rd, rt.sshiftRight (rs &&& 0x1f).toNat)]
  | .slt => [(rd, if rs.slt rt then 1 else 0)]
  | .slti => [(rt', if rs.slt extra then 1 else 0)]
  | .sltu => [(rd, if rs.ult rt then 1 else 0)]
  | .sltiu => [(rt', if rs.ult extra then 1 else 0)]
  | .lui => [(rt', extra <<< 16)]
  | .divu => if rt = 0 then [(loReg, 0), (hiReg, 0)] else [(loReg, rs / rt), (hiReg, rs % rt)]
  | .mult => [(hiReg, (Nachos.mult rs rt true).1), (loReg, (Nachos.mult rs rt true).2)]
  | .multu => [(hiReg, (Nachos.mult rs rt false).1), (loReg, (Nachos.mult rs rt false).2)]
  | .mfhi => [(rd, regs hiReg)]
  | .mflo => [(rd, regs loReg)]
  | .mthi => [(hiReg, rs)]
  | .mtlo => [(loReg, rs)]

/-- The registers after the stores of a list. -/
def storeAll (ws : List (Reg × Word)) (regs : Reg → Word) : Reg → Word :=
  ws.foldl (fun regs p => Function.update regs p.1 p.2) regs

def setRegisters (ws : List (Reg × Word)) (m : Machine) : Machine :=
  { m with registers := storeAll ws m.registers }

/-- An instruction that is stopped by an exception or stores its result. -/
theorem result_of_done {c : Prop} [Decidable c] {e : ExceptionType} {a v pcAfter : Word} {r : Reg}
    {m m' : Machine} {effect : Effect}
    (h : (if c then raiseException e a else result r v pcAfter) m = .done effect m') :
    effect = ⟨noReg, 0, pcAfter⟩ ∧ m' = m.setRegister r v := by
  split at h
  · exact absurd h (raiseException_not_done e a m effect m')
  · cases h
    exact ⟨rfl, rfl⟩

/-- When the switch does not raise an exception, it stores what `switchWrites` lists and goes
on with the next instruction. -/
theorem execute_integer (op : IntegerOp) {instr : Instruction} (hop : instr.opCode = op.opCode)
    {pcAfter : Word} {m m' : Machine} {effect : Effect}
    (h : execute instr pcAfter m = .done effect m') :
    effect = ⟨noReg, 0, pcAfter⟩ ∧
      m' = m.setRegisters (switchWrites op instr m.registers) := by
  obtain ⟨value, opCode, rs, rt, rd, extra⟩ := instr
  subst hop
  cases op with
  | add | addi | sub => exact result_of_done h
  | divu =>
    change (if m.registers (gpr rt) = 0 then _ else _ : Routine Effect) m = _ at h
    by_cases hzero : m.registers (gpr rt) = 0
    · have hwrites : switchWrites .divu ⟨value, .divu, rs, rt, rd, extra⟩ m.registers =
          [(loReg, 0), (hiReg, 0)] := if_pos hzero
      rw [if_pos hzero] at h
      cases h
      exact ⟨rfl, congrArg (setRegisters · m) hwrites.symm⟩
    · have hwrites : switchWrites .divu ⟨value, .divu, rs, rt, rd, extra⟩ m.registers =
          [(loReg, m.registers (gpr rs) / m.registers (gpr rt)),
            (hiReg, m.registers (gpr rs) % m.registers (gpr rt))] := if_neg hzero
      rw [if_neg hzero] at h
      cases h
      exact ⟨rfl, congrArg (setRegisters · m) hwrites.symm⟩
  | _ =>
    cases h
    exact ⟨rfl, rfl⟩

theorem storeAll_of_not_mem {ws : List (Reg × Word)} {r : Reg} (h : r ∉ ws.map Prod.fst)
    (regs : Reg → Word) : storeAll ws regs r = regs r := by
  induction ws generalizing regs with
  | nil => rfl
  | cons p ws ih =>
    rw [List.map_cons, List.mem_cons, not_or] at h
    exact (ih h.2 _).trans (Function.update_of_ne h.1 p.2 regs)

theorem integerReg_gpr (r : Fin 32) : IntegerReg (gpr r) := by
  have hlt := r.isLt
  show (gpr r).val ≤ 33
  simp only [gpr, Fin.val_castLE]
  omega

theorem integerReg_hi : IntegerReg hiReg := by
  unfold IntegerReg
  decide

theorem integerReg_lo : IntegerReg loReg := by
  unfold IntegerReg
  decide

theorem switchWrites_integerReg (op : IntegerOp) (instr : Instruction) (regs : Reg → Word) :
    ∀ r ∈ (switchWrites op instr regs).map Prod.fst, IntegerReg r := by
  have hpair : ∀ (u v : Word) r, r ∈ [(loReg, u), (hiReg, v)].map Prod.fst → IntegerReg r := by
    intro u v r hr
    simp only [List.map_cons, List.map_nil, List.mem_cons, List.not_mem_nil, or_false] at hr
    rcases hr with rfl | rfl
    · exact integerReg_lo
    · exact integerReg_hi
  intro r hr
  cases op with
  | divu =>
    unfold switchWrites at hr
    simp only at hr
    split at hr
    · exact hpair _ _ r hr
    · exact hpair _ _ r hr
  | mult | multu =>
    simp only [switchWrites, List.map_cons, List.map_nil, List.mem_cons, List.not_mem_nil,
      or_false] at hr
    rcases hr with rfl | rfl
    · exact integerReg_hi
    · exact integerReg_lo
  | mthi =>
    rw [List.mem_singleton.mp hr]
    exact integerReg_hi
  | mtlo =>
    rw [List.mem_singleton.mp hr]
    exact integerReg_lo
  | _ =>
    rw [List.mem_singleton.mp hr]
    exact integerReg_gpr _

theorem finishLoad_of_zero {m : Machine} (h : m.registers loadReg = 0) :
    finishLoad m = .done () (m.setRegister 0 (m.registers loadValueReg)) := by
  unfold finishLoad
  have hval : (m.registers loadReg).toNat = 0 := by rw [h]; rfl
  simp [hval]

/-- What an integer instruction that raises no exception leaves in the registers. -/
theorem oneInstruction_integer {op : IntegerOp} {w : Word} {m m' : Machine}
    (hload : m.registers loadReg = 0) (hfetch : Fetches m w)
    (hop : (decode w).opCode = op.opCode) (hdone : oneInstruction m = .done () m') :
    m'.registers 0 = 0 ∧ ∀ r, IntegerReg r → r ≠ 0 → m'.registers r =
      storeAll (switchWrites op (decode w) m.registers) m.registers r := by
  obtain ⟨m1, hfetch⟩ := hfetch
  obtain ⟨pc, _, hpc, hdone⟩ := bind_eq_done hdone
  cases hpc
  obtain ⟨raw, _, hraw, hdone⟩ := bind_eq_done hdone
  cases hraw.symm.trans hfetch
  have htouched := readMem_touched hfetch
  obtain ⟨nextPC, _, hnext, hdone⟩ := bind_eq_done hdone
  cases hnext
  obtain ⟨effect, m2, hexec, hdone⟩ := bind_eq_done hdone
  obtain ⟨rfl, rfl⟩ := execute_integer op hop hexec
  -- there is no load to finish
  have hnoload : (m1.setRegisters (switchWrites op (decode w) m1.registers)).registers loadReg =
      0 := by
    refine (storeAll_of_not_mem ?_ m1.registers).trans (by rw [htouched.registers, hload])
    intro hmem
    exact absurd (switchWrites_integerReg op _ _ _ hmem) (by unfold IntegerReg; decide)
  obtain ⟨_, m3, hdelayed, hdone⟩ := bind_eq_done hdone
  obtain ⟨_, m4, hfinish, hdelayed⟩ := bind_eq_done hdelayed
  rw [finishLoad_of_zero hnoload] at hfinish
  cases hfinish
  cases hdelayed
  cases hdone
  refine ⟨rfl, fun r hr hzero => ?_⟩
  have hne : ∀ r', ¬ IntegerReg r' → r ≠ r' := by
    rintro r' hr' rfl
    exact hr' hr
  show Function.update (Function.update (Function.update (Function.update (Function.update
    (Function.update (Function.update _ 0 _) loadReg _) loadValueReg _) 0 _) prevPCReg _) pcReg _)
    nextPCReg _ r = _
  rw [Function.update_of_ne (hne _ (by unfold IntegerReg; decide)),
    Function.update_of_ne (hne _ (by unfold IntegerReg; decide)),
    Function.update_of_ne (hne _ (by unfold IntegerReg; decide)), Function.update_of_ne hzero,
    Function.update_of_ne (hne _ (by unfold IntegerReg; decide)),
    Function.update_of_ne (hne _ (by unfold IntegerReg; decide)), Function.update_of_ne hzero, ← htouched.registers]
  rfl

/-! ### The comparison -/

/-- The operands on which the simulator computes what the architecture says. -/
def Agrees (op : IntegerOp) (w : Word) (regs : Reg → Word) : Prop :=
  match op with
  | .or =>
    (field w 11).val = 0 ∨ regs (gpr (field w 16)) &&& ~~~regs (gpr (field w 21)) = 0
  | .srl =>
    (field w 11).val = 0 ∨ w.extractLsb' 6 5 = 0 ∨ (regs (gpr (field w 16))).msb = false
  | .srlv =>
    (field w 11).val = 0 ∨ (regs (gpr (field w 21))).extractLsb' 0 5 = 0 ∨
      (regs (gpr (field w 16))).msb = false
  | _ => True

theorem or_self_eq_or_iff (a b : Word) : a ||| a = a ||| b ↔ b &&& ~~~a = 0 := by
  constructor
  · intro h
    apply BitVec.eq_of_getLsbD_eq
    intro i hi
    have hbit := congrArg (fun v => v.getLsbD i) h
    simp only [BitVec.getLsbD_or, Bool.or_self] at hbit
    rw [BitVec.getLsbD_and, BitVec.getLsbD_not]
    cases ha : a.getLsbD i with
    | false =>
      rw [ha, Bool.false_or] at hbit
      simp [← hbit]
    | true => simp
  · intro h
    apply BitVec.eq_of_getLsbD_eq
    intro i hi
    have hbit := congrArg (fun v => v.getLsbD i) h
    simp only [BitVec.getLsbD_and, BitVec.getLsbD_not, hi, decide_true, Bool.true_and] at hbit
    rw [BitVec.getLsbD_or, BitVec.getLsbD_or]
    cases ha : a.getLsbD i with
    | false => simpa [ha] using hbit
    | true => simp

theorem sshiftRight_eq_ushiftRight_iff (a : Word) {n : Nat} (hn : n < 32) :
    a.sshiftRight n = a >>> n ↔ n = 0 ∨ a.msb = false := by
  constructor
  · intro h
    rw [or_iff_not_imp_left]
    intro hzero
    -- the top bit tells the two shifts apart
    have hbit := congrArg BitVec.msb h
    rw [BitVec.msb_sshiftRight] at hbit
    rw [hbit, BitVec.msb_ushiftRight]
    simp [hzero]
  · rintro (rfl | h)
    · simp
    · exact BitVec.sshiftRight_eq_of_msb_false h

theorem and_1f (a : Word) : (a &&& 0x1f).toNat = (a.extractLsb' 0 5).toNat := by
  rw [BitVec.toNat_and, BitVec.extractLsb'_toNat, Nat.shiftRight_zero]
  exact Nat.and_two_pow_sub_one_eq_mod _ 5

theorem signExtend_and_ffff (imm : BitVec 16) :
    imm.signExtend 32 &&& 0xffff = imm.setWidth 32 := by
  have hlow : ∀ i : Fin 32, (0xffff : Word).getLsbD i = decide (i.val < 16) := by decide
  apply BitVec.eq_of_getLsbD_eq
  intro i hi
  rw [BitVec.getLsbD_and, BitVec.getLsbD_signExtend, BitVec.getLsbD_setWidth, hlow ⟨i, hi⟩]
  by_cases hi' : i < 16
  · simp [hi']
  · simp [hi', BitVec.getLsbD_of_ge imm i (by omega)]

theorem shiftLeft_half (imm : BitVec 16) : imm.signExtend 32 <<< 16 = imm ++ (0 : BitVec 16) := by
  apply BitVec.eq_of_getLsbD_eq
  intro i hi
  rw [BitVec.getLsbD_shiftLeft, BitVec.getLsbD_signExtend, BitVec.getLsbD_append]
  by_cases hi' : i < 16
  · simp [hi, hi']
  · simp [hi, hi', show i - 16 < 16 by omega, show i - 16 < 32 by omega]

section Comparison

variable {op : IntegerOp} {w : Word} {before after : Reg → Word}

/-- An instruction with one destination: the architecture is met if the value is right or
register 0 is the destination. -/
theorem meetsIsa_single {d : Reg} {u v : Word} (henc : op.Encodes w) (hd : IntegerReg d)
    (hwrites : op.writes w before = [(d, some v)]) (hzero : after 0 = 0)
    (hafter : ∀ r, IntegerReg r → r ≠ 0 → after r = storeAll [(d, u)] before r) :
    MeetsIsa op w before after ↔ d = 0 ∨ u = v := by
  constructor
  · intro h
    rw [or_iff_not_imp_left]
    intro hne
    have hresult := h.results d v (by simp [hwrites]) hne
    rw [← hresult, hafter d hd hne]
    exact (Function.update_self d u before).symm
  · intro h
    refine ⟨henc, fun r v' hmem hne => ?_, hzero, fun r hr hne hnot => ?_⟩
    · rw [hwrites, List.mem_singleton, Prod.mk.injEq, Option.some.injEq] at hmem
      obtain ⟨rfl, rfl⟩ := hmem
      rw [hafter r hd hne, ← h.resolve_left hne]
      exact Function.update_self r u before
    · rw [hafter r hr hne]
      apply storeAll_of_not_mem
      rw [hwrites] at hnot
      exact hnot

/-- An instruction that writes Hi and Lo. -/
theorem meetsIsa_pair {a b : Reg} {x y : Option Word} {u v : Word} (henc : op.Encodes w)
    (ha : IntegerReg a) (hb : IntegerReg b) (hab : a ≠ b)
    (hwrites : op.writes w before = [(a, x), (b, y)]) (hzero : after 0 = 0)
    (hafter : ∀ r, IntegerReg r → r ≠ 0 → after r = storeAll [(a, u), (b, v)] before r)
    (hx : x = some u ∨ x = none) (hy : y = some v ∨ y = none) :
    MeetsIsa op w before after := by
  refine ⟨henc, fun r v' hmem hne => ?_, hzero, fun r hr hne hnot => ?_⟩
  · rw [hwrites, List.mem_cons, List.mem_singleton, Prod.mk.injEq, Prod.mk.injEq] at hmem
    rcases hmem with ⟨rfl, rfl⟩ | ⟨rfl, rfl⟩
    · obtain rfl : v' = u := by simpa using hx
      rw [hafter r ha hne]
      exact (Function.update_of_ne hab _ _).trans (Function.update_self _ _ _)
    · obtain rfl : v' = v := by simpa using hy
      rw [hafter r hb hne]
      exact Function.update_self _ _ _
  · rw [hafter r hr hne]
    apply storeAll_of_not_mem
    rw [hwrites] at hnot
    exact hnot

end Comparison

theorem gpr_eq_zero_iff (r : Fin 32) : gpr r = 0 ↔ r.val = 0 := by
  rw [Fin.ext_iff]
  rfl

/-- An integer instruction that raises no exception does what the architecture says, unless it
is an OR, SRL or SRLV with operands on which the simulator's formula differs. -/
theorem meetsIsa_iff {op : IntegerOp} {w : Word} {m m' : Machine}
    (hload : m.registers loadReg = 0) (hfetch : Fetches m w)
    (hop : (decode w).opCode = op.opCode) (hdone : oneInstruction m = .done () m') :
    MeetsIsa op w m.registers m'.registers ↔ Agrees op w m.registers := by
  obtain ⟨hzero, hafter⟩ := oneInstruction_integer hload hfetch hop hdone
  have henc := (decode_opCode_iff op w).mp hop
  have hrd := integerReg_gpr (field w 11)
  have hrt := integerReg_gpr (field w 16)
  have htrue : ∀ {d : Reg} {u v : Word}, u = v → (d = 0 ∨ u = v ↔ True) :=
    fun h => iff_of_true (Or.inr h) trivial
  cases op with
  | add | addu | sub | subu | and | xor | nor | mfhi | mflo =>
    exact (meetsIsa_single henc hrd rfl hzero hafter).trans (htrue rfl)
  | addi | addiu =>
    refine (meetsIsa_single henc hrt rfl hzero hafter).trans (htrue ?_)
    rw [decode_immediate henc rfl]
    rfl
  | andi | ori | xori =>
    refine (meetsIsa_single henc hrt rfl hzero hafter).trans (htrue ?_)
    rw [decode_immediate henc rfl, signExtend_and_ffff]
    rfl
  | lui =>
    refine (meetsIsa_single henc hrt rfl hzero hafter).trans (htrue ?_)
    rw [decode_immediate henc rfl, shiftLeft_half]
  | slti =>
    refine (meetsIsa_single henc hrt rfl hzero hafter).trans (htrue ?_)
    rw [decode_immediate henc rfl]
    simp only [BitVec.slt_iff_toInt_lt]
    rfl
  | sltiu =>
    refine (meetsIsa_single henc hrt rfl hzero hafter).trans (htrue ?_)
    rw [decode_immediate henc rfl]
    simp only [BitVec.ult_iff_toNat_lt]
    rfl
  | slt =>
    refine (meetsIsa_single henc hrd rfl hzero hafter).trans (htrue ?_)
    simp only [BitVec.slt_iff_toInt_lt]
    rfl
  | sltu =>
    refine (meetsIsa_single henc hrd rfl hzero hafter).trans (htrue ?_)
    simp only [BitVec.ult_iff_toNat_lt]
    rfl
  | sll | sra =>
    refine (meetsIsa_single henc hrd rfl hzero hafter).trans (htrue ?_)
    rw [decode_shamt henc rfl]
    rfl
  | sllv | srav =>
    refine (meetsIsa_single henc hrd rfl hzero hafter).trans (htrue ?_)
    rw [and_1f]
    rfl
  | mthi => exact (meetsIsa_single henc integerReg_hi rfl hzero hafter).trans (htrue rfl)
  | mtlo => exact (meetsIsa_single henc integerReg_lo rfl hzero hafter).trans (htrue rfl)
  | mult =>
    refine iff_of_true ?_ trivial
    refine meetsIsa_pair henc integerReg_hi integerReg_lo (by decide) rfl hzero hafter ?_ ?_
    · rw [← mult_signed, extract_dword_hi]
      exact Or.inl rfl
    · rw [← mult_signed, extract_dword_lo]
      exact Or.inl rfl
  | multu =>
    refine iff_of_true ?_ trivial
    refine meetsIsa_pair henc integerReg_hi integerReg_lo (by decide) rfl hzero hafter ?_ ?_
    · rw [← mult_unsigned, extract_dword_hi]
      exact Or.inl rfl
    · rw [← mult_unsigned, extract_dword_lo]
      exact Or.inl rfl
  | divu =>
    refine iff_of_true ?_ trivial
    by_cases hrt0 : m.registers (gpr (field w 16)) = 0
    · rw [show switchWrites .divu (decode w) m.registers = _ from if_pos hrt0] at hafter
      exact meetsIsa_pair henc integerReg_lo integerReg_hi (by decide) (if_pos hrt0) hzero hafter
        (Or.inr rfl) (Or.inr rfl)
    · rw [show switchWrites .divu (decode w) m.registers = _ from if_neg hrt0] at hafter
      exact meetsIsa_pair henc integerReg_lo integerReg_hi (by decide) (if_neg hrt0) hzero hafter
        (Or.inl rfl) (Or.inl rfl)
  | or =>
    refine (meetsIsa_single henc hrd rfl hzero hafter).trans ?_
    exact or_congr (gpr_eq_zero_iff _) (or_self_eq_or_iff _ _)
  | srl =>
    refine (meetsIsa_single henc hrd rfl hzero hafter).trans ?_
    have hshamt : (w.extractLsb' 6 5).toNat < 32 := (w.extractLsb' 6 5).isLt
    rw [decode_shamt henc rfl]
    refine or_congr (gpr_eq_zero_iff _) ((sshiftRight_eq_ushiftRight_iff _ hshamt).trans ?_)
    exact or_congr_left (BitVec.toNat_inj (y := 0))
  | srlv =>
    refine (meetsIsa_single henc hrd rfl hzero hafter).trans ?_
    have hamount := ((m.registers (gpr (field w 21))).extractLsb' 0 5).isLt
    rw [and_1f]
    refine or_congr (gpr_eq_zero_iff _) ((sshiftRight_eq_ushiftRight_iff _ hamount).trans ?_)
    exact or_congr_left (BitVec.toNat_inj (y := 0))

/-- A machine about to execute `or $3, $1, $2`, with `a` in register 1 and `b` in register 2. -/
def orMachine (a b : Word) : Machine where
  mainMemory i := [0x25, 0x18, 0x22, 0x00].getD i 0
  registers r :=
    if r.val = 1 then a else if r.val = 2 then b else if r = nextPCReg then 4 else 0
  pageTable := some [⟨0, 0, true, false, false, false⟩]
  pageTableSize := 1

theorem orMachine_meetsIsa :
    ∃ m', Fetches (orMachine 3 1) 0x221825 ∧ oneInstruction (orMachine 3 1) = .done () m' ∧
      (MeetsIsa .or 0x221825 (orMachine 3 1).registers m'.registers ↔
        Agrees .or 0x221825 (orMachine 3 1).registers) := by
  have hfetch : Fetches (orMachine 3 1) 0x221825 := ⟨_, rfl⟩
  exact ⟨_, hfetch, rfl, meetsIsa_iff rfl hfetch (by decide) rfl⟩

/-- `or $3, $1, $2` leaves 0 in register 3 when the registers hold 0 and 1. -/
theorem not_meetsIsa_or :
    ¬ ∀ (op : IntegerOp) (w : Word) (m m' : Machine), m.registers loadReg = 0 → Fetches m w →
      (decode w).opCode = op.opCode → oneInstruction m = .done () m' →
      MeetsIsa op w m.registers m'.registers := by
  intro h
  have hmeets := h .or 0x221825 (orMachine 0 1) _ rfl ⟨_, rfl⟩ (by decide) rfl
  have hresult := hmeets.results 3 1 (List.mem_singleton.mpr rfl) (by decide)
  exact absurd hresult (by decide)

end Machine

end Nachos
