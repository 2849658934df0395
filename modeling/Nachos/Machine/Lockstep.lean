import Nachos.Lib.Matching
import Nachos.Machine.Architecture

/-!
# The simulator and the processor in lockstep

`Represents m c`: the machine `m` of the simulator stands for the processor `c`. The registers of
`c` are those of `m` once its delayed load is done.

`Portable` says of an instruction what the simulator relies on: it is one of the operations, its
operands are ones for which the simulator computes what the architecture says, and it does not use
a register that is being loaded. It must not write such a register either, unless it loads it,
since the simulator finishes the old load after the instruction has written.
-/

namespace Nachos.Machine

open Programs Program

/-! ### Decoding -/

/-- The operation code of the simulator. -/
def opCodeOf : Operation → OpCode
  | .integer op => op.opCode
  | .div => .div
  | .load .lb => .lb
  | .load .lbu => .lbu
  | .load .lh => .lh
  | .load .lhu => .lhu
  | .load .lw => .lw
  | .store .sb => .sb
  | .store .sh => .sh
  | .store .sw => .sw
  | .branch .beq => .beq
  | .branch .bne => .bne
  | .branch .blez => .blez
  | .branch .bgtz => .bgtz
  | .branch .bltz => .bltz
  | .branch .bgez => .bgez
  | .branch .bltzal => .bltzal
  | .branch .bgezal => .bgezal
  | .jump .j => .j
  | .jump .jal => .jal
  | .jump .jr => .jr
  | .jump .jalr => .jalr
  | .syscall => .syscall

/-- The bits that tell the branches with the operation code BCOND apart. -/
theorem and_1f0000 (w : Word) :
    w &&& (0x1f0000 : Word) = (w.extractLsb' 16 5).setWidth 32 <<< 16 := by
  have hmask : ∀ i : Fin 32, (0x1f0000 : Word).getLsbD i = decide (16 ≤ i.val ∧ i.val < 21) := by
    decide
  apply BitVec.eq_of_getLsbD_eq
  intro i hi
  rw [BitVec.getLsbD_and, hmask ⟨i, hi⟩, BitVec.getLsbD_shiftLeft, BitVec.getLsbD_setWidth,
    BitVec.getLsbD_extractLsb']
  by_cases hlow : i < 16
  · simp [hlow]
  · by_cases hhigh : i < 21
    · simp [hi, hlow, hhigh, show 16 ≤ i by omega, show i - 16 < 5 by omega,
        show i - 16 < 32 by omega, show 16 + (i - 16) = i by omega]
    · simp [hhigh, show ¬ i - 16 < 5 by omega]

theorem decode_bcond_field {w : Word} {k : BitVec 5} (h : w.extractLsb' 26 6 = 1)
    (hk : w.extractLsb' 16 5 = k) :
    (decode w).opCode = (let i : Word := k.setWidth 32 <<< 16
      if i = 0 then OpCode.bltz
      else if i = 0x10000 then .bgez
      else if i = 0x100000 then .bltzal
      else if i = 0x110000 then .bgezal
      else .unimp) := by
  unfold decode
  rw [h]
  show (if w &&& 0x1f0000 = 0 then OpCode.bltz else if w &&& 0x1f0000 = 0x10000 then .bgez
    else if w &&& 0x1f0000 = 0x100000 then .bltzal
    else if w &&& 0x1f0000 = 0x110000 then .bgezal else .unimp) = _
  rw [and_1f0000, hk]

theorem decode_load {op : LoadOp} {w : Word} (h : w.extractLsb' 26 6 = op.code) :
    (decode w).opCode = opCodeOf (.load op) := by
  rw [decode_other (by rw [h]; cases op <;> decide) (by rw [h]; cases op <;> decide), h]
  cases op <;> rfl

theorem decode_store {op : StoreOp} {w : Word} (h : w.extractLsb' 26 6 = op.code) :
    (decode w).opCode = opCodeOf (.store op) := by
  rw [decode_other (by rw [h]; cases op <;> decide) (by rw [h]; cases op <;> decide), h]
  cases op <;> rfl

theorem decode_of_field {c : BitVec 6} {w : Word} (h : w.extractLsb' 26 6 = c) (h0 : c ≠ 0)
    (h1 : c ≠ 1) : (decode w).opCode = (opTable.getD c.toNat (.res, .ifmt)).1 := by
  rw [decode_other (by rwa [h]) (by rwa [h]), h]

theorem decode_branch {op : BranchOp} {w : Word} (h : op.Encodes w) :
    (decode w).opCode = opCodeOf (.branch op) := by
  cases op with
  | beq | bne | blez | bgtz => exact (decode_of_field h (by decide) (by decide)).trans rfl
  | bltz | bgez | bltzal | bgezal => exact (decode_bcond_field h.1 h.2).trans (by decide)

theorem decode_jump {op : JumpOp} {w : Word} (h : op.Encodes w) :
    (decode w).opCode = opCodeOf (.jump op) := by
  cases op with
  | j | jal => exact (decode_of_field h (by decide) (by decide)).trans rfl
  | jr | jalr =>
    rw [(decode_special h.1).1, h.2]
    rfl

/-- The simulator takes the words of each operation for what they are. -/
theorem decode_operation {op : Operation} {w : Word} (h : op.Encodes w) :
    (decode w).opCode = opCodeOf op := by
  cases op with
  | integer op => exact (decode_opCode_iff op w).mpr h
  | load op => exact decode_load h
  | store op => exact decode_store h
  | branch op => exact decode_branch h
  | jump op => exact decode_jump h
  | div | syscall =>
    rw [(decode_special h.1).1, h.2]
    rfl

/-- The operand of an instruction in the first format. -/
theorem decode_extra_ifmt {c : BitVec 6} {w : Word} (h : w.extractLsb' 26 6 = c)
    (hformat : (opTable.getD c.toNat (.res, .ifmt)).2 = .ifmt) :
    (decode w).extra = (w.extractLsb' 0 16).signExtend 32 := by
  rw [← sign_half]
  unfold decode
  rw [h]
  generalize opTable.getD c.toNat (.res, .ifmt) = entry at hformat
  obtain ⟨code, format⟩ := entry
  subst hformat
  rfl

/-- The operand of a jump. -/
theorem decode_extra_jfmt {c : BitVec 6} {w : Word} (h : w.extractLsb' 26 6 = c)
    (hformat : (opTable.getD c.toNat (.res, .ifmt)).2 = .jfmt) :
    (decode w).extra = (w.extractLsb' 0 26).setWidth 32 := by
  have hextra : (decode w).extra = w &&& 0x3ffffff := by
    unfold decode
    rw [h]
    generalize opTable.getD c.toNat (.res, .ifmt) = entry at hformat
    obtain ⟨code, format⟩ := entry
    subst hformat
    rfl
  have hmask : ∀ i : Fin 32, (0x3ffffff : Word).getLsbD i = decide (i.val < 26) := by decide
  rw [hextra]
  apply BitVec.eq_of_getLsbD_eq
  intro i hi
  rw [BitVec.getLsbD_and, hmask ⟨i, hi⟩, BitVec.getLsbD_setWidth, BitVec.getLsbD_extractLsb']
  simp [hi, Bool.and_comm]

theorem decode_extra_load {op : LoadOp} {w : Word} (h : w.extractLsb' 26 6 = op.code) :
    (decode w).extra = (w.extractLsb' 0 16).signExtend 32 :=
  decode_extra_ifmt h (by cases op <;> rfl)

theorem decode_extra_store {op : StoreOp} {w : Word} (h : w.extractLsb' 26 6 = op.code) :
    (decode w).extra = (w.extractLsb' 0 16).signExtend 32 :=
  decode_extra_ifmt h (by cases op <;> rfl)

theorem decode_extra_branch {op : BranchOp} {w : Word} (h : op.Encodes w) :
    (decode w).extra = (w.extractLsb' 0 16).signExtend 32 := by
  cases op with
  | beq | bne | blez | bgtz => exact decode_extra_ifmt h rfl
  | bltz | bgez | bltzal | bgezal => exact decode_extra_ifmt h.1 rfl


/-! ### The processor that a machine stands for -/

/-- The machine `m` stands for the processor `c`. -/
structure Represents (m : Machine) (c : Cpu) : Prop where
  space : DistinctFrames m
  zero : m.registers 0 = 0
  regs : ∀ r, IntegerReg r → c.regs r = loaded m.registers r
  pc : c.pc = m.registers pcReg
  nextPC : c.nextPC = m.registers nextPCReg
  memory : ∀ va, c.memory va = m.virtualByte va
  writable : ∀ va, c.writable va ↔ ∃ e, m.validEntry va = some e ∧ e.readOnly = false

/-- The register is being loaded; register 0 never is. -/
def Pending (m : Machine) (r : Fin 32) : Prop := r.val ≠ 0 ∧ r.val = (m.registers loadReg).toNat

/-- The simulator may be compared with the processor on the instruction `w`, an `op`. -/
structure Portable (m : Machine) (w : Word) (op : Operation) : Prop where
  encodes : op.Encodes w
  agrees : op.Agrees w (loaded m.registers) (m.registers nextPCReg)
  source : ∀ r ∈ op.sources w, ¬ Pending m r
  destination : ∀ r ∈ op.destinations w, ¬ Pending m r

/-- The instruction that the machine fetches, if any, is portable. -/
def PortableState (m : Machine) : Prop := ∀ w, Fetches m w → ∃ op, Portable m w op

/-- The processor that a machine stands for. -/
def cpu (m : Machine) : Cpu where
  regs := loaded m.registers
  pc := m.registers pcReg
  nextPC := m.registers nextPCReg
  memory := m.virtualByte
  writable va := ∃ e, m.validEntry va = some e ∧ e.readOnly = false

section Represents

variable {m m' : Machine} {c : Cpu}

theorem represents_cpu (hm : DistinctFrames m) (hzero : m.registers 0 = 0) : Represents m m.cpu :=
  ⟨hm, hzero, fun _ _ => rfl, rfl, rfl, fun _ => rfl, fun _ => Iff.rfl⟩

theorem Represents.touched (h : Represents m c) (ht : Touched m m') : Represents m' c := by
  refine ⟨h.space.congr ht.sameSpace, ?_, ?_, ?_, ?_, ?_, ?_⟩
  · rw [ht.registers, h.zero]
  · rw [ht.registers]
    exact h.regs
  · rw [ht.registers, h.pc]
  · rw [ht.registers, h.nextPC]
  · intro va
    rw [ht.virtualByte, h.memory]
  · intro va
    rw [ht.sameSpace.validEntry, h.writable]

/-- The registers of the processor once the pending load is done. -/
theorem loaded_of_integerReg {r : Reg} (hr : IntegerReg r) (regs : Reg → Word) :
    loaded regs r =
      if r.val = 0 then 0 else if r.val = (regs loadReg).toNat then regs loadValueReg else regs r := by
  have hlt : r.val ≤ 33 := hr
  have hspecial : ¬ (r = loadReg ∨ r = loadValueReg) := by
    rintro (rfl | rfl)
    · exact absurd hlt (by decide)
    · exact absurd hlt (by decide)
  unfold loaded
  simp only [hspecial, or_false]

/-- A register that is not being loaded. -/
theorem Represents.read (h : Represents m c) {r : Fin 32} (hr : ¬ Pending m r) :
    m.registers (gpr r) = c.regs (gpr r) := by
  rw [h.regs _ (integerReg_gpr r), loaded_of_integerReg (integerReg_gpr r)]
  by_cases hzero : (gpr r).val = 0
  · rw [if_pos hzero, (gpr_eq_zero_iff r).mpr hzero, h.zero]
  · have hpending : ¬ (gpr r).val = (m.registers loadReg).toNat := fun heq => hr ⟨hzero, heq⟩
    rw [if_neg hzero, if_neg hpending]

/-- Hi and Lo. -/
theorem Represents.read_special (h : Represents m c) {r : Reg} (hr : IntegerReg r)
    (hr' : 32 ≤ r.val) : m.registers r = c.regs r := by
  have hload := h.space.load
  unfold LoadOK at hload
  rw [h.regs r hr, loaded_of_integerReg hr, if_neg (by omega), if_neg (by omega)]

/-! ### Memory -/

/-- The bytes that were read are those that the processor loads. -/
theorem getLsbD_load_of_bytes {memory : VirtualMemory} {a v : Word} {size : Nat}
    (h : ∀ i < size, memory (a + BitVec.ofNat 32 i) = some (byteOf v i)) {i : Nat} (hi : i < 32)
    (hi' : i < 8 * size) : (memory.load a size).getLsbD i = v.getLsbD i := by
  unfold VirtualMemory.load
  rw [Bytes.getLsbD_load _ _ _ hi, decide_eq_true hi', Bool.true_and, Nat.zero_add,
    h _ (by omega), Option.getD_some]
  unfold byteOf
  rw [Bytes.getLsbD_byte _ _ (by omega), Nat.div_add_mod]

theorem virtualByte_isSome {va : Word} : (m.virtualByte va).isSome ↔ ∃ e, m.validEntry va = some e := by
  unfold virtualByte mappedAddress
  rw [Option.isSome_map, Option.isSome_map, Option.isSome_iff_exists]

/-- The addresses of an access are all there or none of them is. -/
theorem Represents.accessible_iff (h : Represents m c) {size : Nat}
    (hsize : size = 1 ∨ size = 2 ∨ size = 4) (va : Word) :
    c.memory.Accessible va size ↔ Aligned va size ∧ ∃ e, m.validEntry va = some e := by
  unfold VirtualMemory.Accessible
  refine and_congr_right fun ha => ?_
  constructor
  · intro hbytes
    have hfirst := hbytes 0 (by omega)
    rw [h.memory, virtualByte_isSome] at hfirst
    simpa using hfirst
  · rintro ⟨e, he⟩ i hi
    rw [h.memory]
    unfold virtualByte
    rw [mappedAddress_add hsize ha hi he]
    rfl

/-- `ReadMem` returns what the processor loads, or raises an exception as it does. -/
theorem Represents.readMem (h : Represents m c) {size : Nat}
    (hsize : size = 1 ∨ size = 2 ∨ size = 4) (va : Word) :
    (c.memory.Accessible va size ∧ ∃ v m', Machine.readMem va size m = .done v m' ∧ Touched m m' ∧
      ∀ i < 8 * size, (c.memory.load va size).getLsbD i = v.getLsbD i) ∨
      (¬ c.memory.Accessible va size ∧ ∃ e m', Machine.readMem va size m = .trap e m') := by
  rw [h.accessible_iff hsize]
  rcases h.space.readMem_cases hsize va with ⟨ha, he, hread⟩ | ⟨hforbidden, hrefused⟩
  · refine Or.inl ⟨⟨ha, he⟩, ?_⟩
    cases hout : Machine.readMem va size m with
    | done v m' =>
      rw [hout] at hread
      refine ⟨v, m', rfl, readMem_touched hout, fun i hi => ?_⟩
      refine getLsbD_load_of_bytes (fun j hj => ?_) (by omega) hi
      rw [h.memory, hread.2 j hj]
    | trap e m' =>
      rw [hout] at hread
      exact hread.elim
    | fault f =>
      rw [hout] at hread
      exact hread.elim
  · refine Or.inr ⟨?_, ?_⟩
    · rintro ⟨ha, e, he⟩
      have hrefused := hforbidden.resolve_left (not_not.mpr ha) e he
      simp at hrefused
    · obtain ⟨e, m', hout, -⟩ := hrefused.raised
      exact ⟨e, m', hout⟩

/-- `WriteMem` stores what the processor stores, or raises an exception as it does. -/
theorem Represents.writeMem (h : Represents m c) {size : Nat}
    (hsize : size = 1 ∨ size = 2 ∨ size = 4) (va v : Word) :
    (c.memory.Accessible va size ∧ c.writable va ∧ ∃ m', Machine.writeMem va size v m = .done () m' ∧
      SameSpace m m' ∧ ∀ va', m'.virtualByte va' = c.memory.store va size v va') ∨
      (¬ (c.memory.Accessible va size ∧ c.writable va) ∧
        ∃ e m', Machine.writeMem va size v m = .trap e m') := by
  rw [h.accessible_iff hsize, h.writable]
  rcases h.space.writeMem_cases hsize va v with
    ⟨ha, he, ⟨m', hout, hsame⟩, hwrites⟩ | ⟨hforbidden, hrefused⟩
  · obtain ⟨e, he, hwritable⟩ := he
    refine Or.inl ⟨⟨ha, e, he⟩, ⟨e, he, hwritable⟩, m', hout, hsame, fun va' => ?_⟩
    rw [hout] at hwrites
    obtain ⟨hwritten, hother⟩ := hwrites
    unfold VirtualMemory.store
    have hadd : va' = va + BitVec.ofNat 32 (va' - va).toNat := by
      rw [BitVec.ofNat_toNat, BitVec.setWidth_eq, BitVec.add_comm, BitVec.sub_add_cancel]
    split
    · rename_i hlt
      have hbyte := hwritten _ hlt
      rwa [← hadd] at hbyte
    · rename_i hge
      rw [h.memory]
      refine hother va' fun i hi heq => hge ?_
      rw [heq, BitVec.add_comm, BitVec.add_sub_cancel, BitVec.toNat_ofNat]
      omega
  · refine Or.inr ⟨?_, ?_⟩
    · rintro ⟨⟨ha, -⟩, e, he, hwritable⟩
      have hrefused := hforbidden.resolve_left (not_not.mpr ha) e he
      rw [hwritable] at hrefused
      simp at hrefused
    · obtain ⟨e, m', hout, -⟩ := hrefused.raised
      exact ⟨e, m', hout⟩

end Represents

/-! ### The end of an instruction -/

/-- The registers of the processor after an instruction that left `regs`. -/
def settled (effect : Effect) (regs : Reg → Word) (r : Reg) : Word :=
  if r.val = 0 then 0
  else if r.val = effect.nextLoadReg.val then effect.nextLoadValue
  else loaded regs r

/-- What the last lines of `OneInstruction` leave. -/
structure Committed (m : Machine) (effect : Effect) (m' : Machine) : Prop where
  zero : m'.registers 0 = 0
  load : LoadOK m'.registers
  pc : m'.registers pcReg = m.registers nextPCReg
  nextPC : m'.registers nextPCReg = effect.pcAfter
  regs : ∀ r, IntegerReg r → loaded m'.registers r = settled effect m.registers r
  memory : m'.mainMemory = m.mainMemory
  mapping : m'.mapping = m.mapping
  size : m'.pageTableSize = m.pageTableSize

theorem commit_eq {m : Machine} (h : LoadOK m.registers) (effect : Effect) :
    ∃ m', commit effect m = .done () m' ∧ Committed m effect m' := by
  have hlt : (m.registers loadReg).toNat < 40 := Nat.lt_trans h (by decide)
  have hfinish : finishLoad m = .done () (m.setRegister ⟨(m.registers loadReg).toNat, hlt⟩
      (m.registers loadValueReg)) := dif_pos hlt
  let m₁ := (((m.setRegister ⟨(m.registers loadReg).toNat, hlt⟩ (m.registers loadValueReg)).setRegister
    loadReg (BitVec.ofNat 32 effect.nextLoadReg)).setRegister loadValueReg
    effect.nextLoadValue).setRegister 0 0
  have hdelayed : delayedLoad effect.nextLoadReg effect.nextLoadValue m = .done () m₁ := by
    unfold delayedLoad
    rw [bind_done hfinish]
    rfl
  have hcommit : commit effect m = .done () (((m₁.setRegister prevPCReg (m₁.registers pcReg)).setRegister
      pcReg (m₁.registers nextPCReg)).setRegister nextPCReg effect.pcAfter) := by
    unfold commit
    rw [bind_done hdelayed]
    rfl
  have hpending : ∀ {r : Reg}, 32 ≤ r.val → r ≠ ⟨(m.registers loadReg).toNat, hlt⟩ := by
    rintro r hr rfl
    exact absurd h (Nat.not_lt_of_le hr)
  have hnew := effect.nextLoadReg.isLt
  have hvalue : (BitVec.ofNat 32 effect.nextLoadReg.val).toNat = effect.nextLoadReg.val := by
    rw [BitVec.toNat_ofNat]
    omega
  refine ⟨_, hcommit, rfl, ?_, ?_, rfl, fun r hr => ?_, rfl, rfl, rfl⟩
  · show (BitVec.ofNat 32 effect.nextLoadReg.val).toNat < 32
    omega
  · exact Function.update_of_ne (hpending (by decide)) _ _
  · have hne : ∀ {r'}, 33 < r'.val → r ≠ r' := by
      rintro r' hr' rfl
      exact absurd hr (Nat.not_le_of_lt hr')
    rw [loaded_of_integerReg hr]
    unfold settled
    rw [loaded_of_integerReg hr]
    by_cases hzero : r.val = 0
    · rw [if_pos hzero, if_pos hzero]
    rw [if_neg hzero, if_neg hzero, if_neg hzero]
    have hzero' : r ≠ 0 := fun heq => hzero (congrArg Fin.val heq)
    show (if r.val = (BitVec.ofNat 32 effect.nextLoadReg.val).toNat then effect.nextLoadValue
      else Function.update (Function.update (Function.update (Function.update (Function.update
        (Function.update (Function.update m.registers _ _) loadReg _) loadValueReg _) 0 _) prevPCReg _)
        pcReg _) nextPCReg _ r) = _
    rw [hvalue, Function.update_of_ne (hne (by decide)), Function.update_of_ne (hne (by decide)),
      Function.update_of_ne (hne (by decide)), Function.update_of_ne hzero',
      Function.update_of_ne (hne (by decide)), Function.update_of_ne (hne (by decide)),
      Function.update_apply]
    simp only [Fin.ext_iff]

/-! ### Stores in registers -/

/-- The simulator stores a value that the architecture allows; what goes to register 0 is lost. -/
def Meets (p : Reg × Word) (q : Reg × Option Word) : Prop :=
  p.1 = q.1 ∧ (p.1.val = 0 ∨ ∀ v, q.2 = some v → p.2 = v)

/-- Different integer registers that are not being loaded. -/
structure Storable (ws : List (Reg × Word)) (regs : Reg → Word) : Prop where
  integer : ∀ r ∈ ws.map Prod.fst, IntegerReg r
  settled : ∀ r ∈ ws.map Prod.fst, r.val = 0 ∨ r.val ≠ (regs loadReg).toNat
  nodup : (ws.map Prod.fst).Nodup

theorem storeAll_congr (ws : List (Reg × Word)) {f g : Reg → Word} {r : Reg} (h : f r = g r) :
    storeAll ws f r = storeAll ws g r := by
  induction ws generalizing f g with
  | nil => exact h
  | cons p ws ih =>
    apply ih
    show Function.update f p.1 p.2 r = Function.update g p.1 p.2 r
    rw [Function.update_apply, Function.update_apply, h]

theorem storeAll_of_mem {ws : List (Reg × Word)} {r : Reg} {v : Word}
    (hnodup : (ws.map Prod.fst).Nodup) (h : (r, v) ∈ ws) (f : Reg → Word) : storeAll ws f r = v := by
  induction ws generalizing f with
  | nil => exact absurd h List.not_mem_nil
  | cons p ws ih =>
    rw [List.map_cons, List.nodup_cons] at hnodup
    rcases List.mem_cons.mp h with rfl | hmem
    · exact (storeAll_of_not_mem hnodup.1 _).trans (Function.update_self _ _ _)
    · exact ih hnodup.2 hmem _

/-- The stores commute with the pending load. -/
theorem loaded_storeAll {ws : List (Reg × Word)} {regs : Reg → Word} (h : Storable ws regs) {r : Reg}
    (hr : IntegerReg r) (hzero : r.val ≠ 0) :
    loaded (storeAll ws regs) r = storeAll ws (loaded regs) r := by
  have hspecial : ∀ r' : Reg, 33 < r'.val → storeAll ws regs r' = regs r' := by
    intro r' hr'
    refine storeAll_of_not_mem (fun hmem => ?_) regs
    exact absurd (h.integer r' hmem) (Nat.not_le_of_lt hr')
  rw [loaded_of_integerReg hr, if_neg hzero, hspecial loadReg (by decide),
    hspecial loadValueReg (by decide)]
  have hloaded := loaded_of_integerReg hr regs
  rw [if_neg hzero] at hloaded
  by_cases hpending : r.val = (regs loadReg).toNat
  · have hmem : r ∉ ws.map Prod.fst := fun hmem =>
      (h.settled r hmem).elim hzero fun hne => hne hpending
    rw [if_pos hpending, storeAll_of_not_mem hmem, hloaded, if_pos hpending]
  · rw [if_neg hpending] at hloaded ⊢
    exact storeAll_congr ws hloaded.symm

theorem map_fst_of_meets {ws : List (Reg × Word)} {writes : List (Reg × Option Word)}
    (h : List.Forall₂ Meets ws writes) : writes.map Prod.fst = ws.map Prod.fst := by
  induction h with
  | nil => rfl
  | cons hp _ ih => rw [List.map_cons, List.map_cons, hp.1, ih]

theorem exists_of_meets {ws : List (Reg × Word)} {writes : List (Reg × Option Word)}
    (h : List.Forall₂ Meets ws writes) {q : Reg × Option Word} (hq : q ∈ writes) :
    ∃ p ∈ ws, Meets p q := by
  induction h with
  | nil => exact absurd hq List.not_mem_nil
  | @cons p _ _ _ hp _ ih =>
    rcases List.mem_cons.mp hq with rfl | hmem
    · exact ⟨p, List.mem_cons_self, hp⟩
    · obtain ⟨p', hp', hmeets⟩ := ih hmem
      exact ⟨p', List.mem_cons_of_mem p hp', hmeets⟩

/-- The registers that an instruction writes which loads nothing. -/
theorem wrote_of_meets {ws : List (Reg × Word)} {writes : List (Reg × Option Word)} {effect : Effect}
    {regs before : Reg → Word} (h : List.Forall₂ Meets ws writes) (hws : Storable ws regs)
    (hbefore : ∀ r, IntegerReg r → before r = loaded regs r) (hload : effect.nextLoadReg = noReg) :
    Cpu.Wrote writes before (settled effect (storeAll ws regs)) := by
  have hsettled : ∀ r, IntegerReg r → r ≠ 0 →
      settled effect (storeAll ws regs) r = storeAll ws (loaded regs) r := by
    intro r hr hne
    have hzero : r.val ≠ 0 := fun h0 => hne (Fin.ext h0)
    have hnew : ¬ r.val = effect.nextLoadReg.val := by
      rw [hload]
      exact hzero
    rw [← loaded_storeAll hws hr hzero]
    unfold settled
    rw [if_neg hzero, if_neg hnew]
  refine ⟨fun r v hmem hne => ?_, rfl, fun r hr hne hnot => ?_⟩
  · obtain ⟨p, hp, hfst, hval⟩ := exists_of_meets h hmem
    obtain ⟨r', v'⟩ := p
    obtain rfl : r' = r := hfst
    obtain rfl : v' = v := hval.resolve_left (fun h0 => hne (Fin.ext h0)) v rfl
    have hint : IntegerReg r' := hws.integer r' (List.mem_map.mpr ⟨_, hp, rfl⟩)
    rw [hsettled r' hint hne]
    exact storeAll_of_mem hws.nodup hp _
  · rw [map_fst_of_meets h] at hnot
    rw [hsettled r hr hne, storeAll_of_not_mem hnot, hbefore r hr]

/-! ### Integer instructions -/

section Integer

variable {op : IntegerOp} {w : Word} {regs regs' : Reg → Word}

theorem meets_of_eq {r : Reg} {v : Word} {x : Option Word} (h : ∀ u, x = some u → v = u) :
    Meets (r, v) (r, x) := ⟨rfl, Or.inr h⟩

theorem meets_some (r : Reg) {u v : Word} (h : u = v) : Meets (r, u) (r, some v) :=
  meets_of_eq fun _ hv => h.trans (Option.some.inj hv)

theorem meets_singleton {r : Reg} {u v : Word} (h : r = 0 ∨ u = v) :
    List.Forall₂ Meets [(r, u)] [(r, some v)] := by
  refine List.Forall₂.cons ⟨rfl, h.imp (congrArg Fin.val) fun heq x hx => ?_⟩ List.Forall₂.nil
  exact heq.trans (Option.some.inj hx)

theorem meets_two {r r' : Reg} {u u' : Word} {x x' : Option Word} (h : ∀ v, x = some v → u = v)
    (h' : ∀ v, x' = some v → u' = v) :
    List.Forall₂ Meets [(r, u), (r', u')] [(r, x), (r', x')] :=
  .cons (meets_of_eq h) (.cons (meets_of_eq h') .nil)

/-- On the operands of `Agrees` the switch stores what the architecture says. -/
theorem switchWrites_meets (henc : op.Encodes w) (hagree : Machine.Agrees op w regs) :
    List.Forall₂ Meets (switchWrites op (decode w) regs) (op.writes w regs) := by
  cases op with
  | add | addu | sub | subu | and | xor | nor | mfhi | mflo | mthi | mtlo =>
    exact meets_singleton (Or.inr rfl)
  | addi | addiu =>
    refine meets_singleton (Or.inr ?_)
    rw [decode_immediate henc rfl]
    rfl
  | andi | ori | xori =>
    refine meets_singleton (Or.inr ?_)
    rw [decode_immediate henc rfl, signExtend_and_ffff]
    rfl
  | lui =>
    refine meets_singleton (Or.inr ?_)
    rw [decode_immediate henc rfl, shiftLeft_half]
  | slti =>
    refine meets_singleton (Or.inr ?_)
    rw [decode_immediate henc rfl]
    simp only [BitVec.slt_iff_toInt_lt]
    rfl
  | sltiu =>
    refine meets_singleton (Or.inr ?_)
    rw [decode_immediate henc rfl]
    simp only [BitVec.ult_iff_toNat_lt]
    rfl
  | slt =>
    refine meets_singleton (Or.inr ?_)
    simp only [BitVec.slt_iff_toInt_lt]
    rfl
  | sltu =>
    refine meets_singleton (Or.inr ?_)
    simp only [BitVec.ult_iff_toNat_lt]
    rfl
  | sll | sra =>
    refine meets_singleton (Or.inr ?_)
    rw [decode_shamt henc rfl]
    rfl
  | sllv | srav =>
    refine meets_singleton (Or.inr ?_)
    rw [and_1f]
    rfl
  | mult =>
    refine meets_two (fun v hv => ?_) (fun v hv => ?_)
    · rw [← Option.some.inj hv, ← mult_signed, extract_dword_hi]
      rfl
    · rw [← Option.some.inj hv, ← mult_signed, extract_dword_lo]
      rfl
  | multu =>
    refine meets_two (fun v hv => ?_) (fun v hv => ?_)
    · rw [← Option.some.inj hv, ← mult_unsigned, extract_dword_hi]
      rfl
    · rw [← Option.some.inj hv, ← mult_unsigned, extract_dword_lo]
      rfl
  | divu =>
    by_cases hrt : regs (gpr (field w 16)) = 0
    · rw [show switchWrites .divu (decode w) regs = _ from if_pos hrt,
        show IntegerOp.divu.writes w regs = _ from if_pos hrt]
      exact meets_two (fun _ hv => by cases hv) (fun _ hv => by cases hv)
    · rw [show switchWrites .divu (decode w) regs = _ from if_neg hrt,
        show IntegerOp.divu.writes w regs = _ from if_neg hrt]
      exact meets_two (fun _ hv => Option.some.inj hv) (fun _ hv => Option.some.inj hv)
  | or => exact meets_singleton (hagree.imp (gpr_eq_zero_iff _).mpr (or_self_eq_or_iff _ _).mpr)
  | srl =>
    have hshamt : (w.extractLsb' 6 5).toNat < 32 := (w.extractLsb' 6 5).isLt
    refine meets_singleton (hagree.imp (gpr_eq_zero_iff _).mpr fun h => ?_)
    rw [decode_shamt henc rfl]
    exact (sshiftRight_eq_ushiftRight_iff _ hshamt).mpr (h.imp_left fun h0 => by rw [h0]; rfl)
  | srlv =>
    have hamount := ((regs (gpr (field w 21))).extractLsb' 0 5).isLt
    refine meets_singleton (hagree.imp (gpr_eq_zero_iff _).mpr fun h => ?_)
    rw [and_1f]
    exact (sshiftRight_eq_ushiftRight_iff _ hamount).mpr (h.imp_left fun h0 => by rw [h0]; rfl)

/-- What an instruction does depends on its sources. -/
theorem integer_congr (h : ∀ r ∈ (Operation.integer op).sources w, regs (gpr r) = regs' (gpr r))
    (hhi : regs hiReg = regs' hiReg) (hlo : regs loReg = regs' loReg) :
    op.writes w regs = op.writes w regs' ∧ (op.Overflows w regs ↔ op.Overflows w regs') ∧
      (Machine.Agrees op w regs ↔ Machine.Agrees op w regs') := by
  cases op <;> simp only [Operation.sources, List.mem_cons, List.not_mem_nil, or_false, forall_eq_or_imp,
    forall_eq, false_imp_iff, implies_true] at h <;>
    simp [IntegerOp.writes, IntegerOp.Overflows, Machine.Agrees, h, hhi, hlo]

theorem decode_rs (w : Word) : (decode w).rs = field w 21 := rfl

theorem decode_rt (w : Word) : (decode w).rt = field w 16 := rfl

theorem decode_rd (w : Word) : (decode w).rd = field w 11 := rfl

/-- The switch raises an exception when the exact result is no `int`, and only then. -/
theorem execute_integer_cases {m : Machine} (henc : op.Encodes w) (hload : LoadOK m.registers)
    (pcAfter : Word) :
    (¬ op.Overflows w m.registers ∧ execute (decode w) pcAfter m =
        .done ⟨noReg, 0, pcAfter⟩ (m.setRegisters (switchWrites op (decode w) m.registers))) ∨
      (op.Overflows w m.registers ∧ ∃ e m', execute (decode w) pcAfter m = .trap e m') := by
  have hop := (decode_opCode_iff op w).mpr henc
  have hlt : (m.registers loadReg).toNat < 40 := Nat.lt_trans hload (by decide)
  cases op with
  | add =>
    rw [execute_add hop, decode_rs, decode_rt]
    by_cases hoverflow : IntegerOp.add.Overflows w m.registers
    · rw [if_pos ((overflow_add_iff _ _).mpr hoverflow), raiseException_eq hlt]
      exact Or.inr ⟨hoverflow, _, _, rfl⟩
    · rw [if_neg (mt (overflow_add_iff _ _).mp hoverflow)]
      exact Or.inl ⟨hoverflow, rfl⟩
  | addi =>
    have hiff := overflow_add_iff ((w.extractLsb' 0 16).signExtend 32) (m.registers (gpr (field w 21)))
    rw [BitVec.toInt_signExtend_of_le (by omega), Int.add_comm, BitVec.xor_comm,
      BitVec.add_comm] at hiff
    have hswitch : switchWrites .addi (decode w) m.registers =
        [(gpr (field w 16), m.registers (gpr (field w 21)) + (w.extractLsb' 0 16).signExtend 32)] := by
      rw [← decode_immediate henc rfl]
      rfl
    rw [execute_addi hop, decode_rs, decode_rt, decode_immediate henc rfl, hswitch]
    by_cases hoverflow : IntegerOp.addi.Overflows w m.registers
    · rw [if_pos (hiff.mpr hoverflow), raiseException_eq hlt]
      exact Or.inr ⟨hoverflow, _, _, rfl⟩
    · rw [if_neg (mt hiff.mp hoverflow)]
      exact Or.inl ⟨hoverflow, rfl⟩
  | sub =>
    rw [execute_sub hop, decode_rs, decode_rt]
    by_cases hoverflow : IntegerOp.sub.Overflows w m.registers
    · rw [if_pos ((overflow_sub_iff _ _).mpr hoverflow), raiseException_eq hlt]
      exact Or.inr ⟨hoverflow, _, _, rfl⟩
    · rw [if_neg (mt (overflow_sub_iff _ _).mp hoverflow)]
      exact Or.inl ⟨hoverflow, rfl⟩
  | divu =>
    refine Or.inl ⟨id, ?_⟩
    generalize decode w = instr at hop
    obtain ⟨value, opCode, rs, rt, rd, extra⟩ := instr
    subst hop
    change (if m.registers (gpr rt) = 0 then _ else _ : Routine Effect) m =
      .done _ (m.setRegisters (if m.registers (gpr rt) = 0 then _ else _))
    by_cases hzero : m.registers (gpr rt) = 0
    · rw [if_pos hzero, if_pos hzero]
      rfl
    · rw [if_neg hzero, if_neg hzero]
      rfl
  | _ =>
    refine Or.inl ⟨id, ?_⟩
    generalize decode w = instr at hop
    obtain ⟨value, opCode, rs, rt, rd, extra⟩ := instr
    subst hop
    rfl

end Integer

/-! ### The switch -/

/-- The switch has done what the processor does. -/
structure Matches (m : Machine) (c : Cpu) (change : Change) (effect : Effect) (m' : Machine) : Prop where
  wrote : Cpu.Wrote change.writes c.regs (settled effect m'.registers)
  target : effect.pcAfter = change.target
  nextPC : m'.registers nextPCReg = m.registers nextPCReg
  load : LoadOK m'.registers
  mapping : m'.mapping = m.mapping
  size : m'.pageTableSize = m.pageTableSize
  memory : ∀ va, m'.virtualByte va = change.memory va

/-- The switch does what the processor does, or both raise an exception. -/
def Switched (m : Machine) (c : Cpu) (w : Word) (op : Operation) : Prop :=
  (∃ change effect m', c.Does w op change ∧
    execute (decode w) (m.registers nextPCReg + 4) m = .done effect m' ∧ Matches m c change effect m') ∨
  ((∀ change, ¬ c.Does w op change) ∧
    ∃ e m', execute (decode w) (m.registers nextPCReg + 4) m = .trap e m')

section Switch

variable {m : Machine} {c : Cpu} {w : Word}

theorem storable_nil (regs : Reg → Word) : Storable [] regs :=
  ⟨fun _ h => absurd h List.not_mem_nil, fun _ h => absurd h List.not_mem_nil, List.nodup_nil⟩

theorem storable_gpr {r : Fin 32} (h : ¬ Pending m r) (v : Word) :
    Storable [(gpr r, v)] m.registers := by
  refine ⟨fun r' hr' => ?_, fun r' hr' => ?_, List.nodup_singleton _⟩
  · rw [List.mem_singleton.mp hr']
    exact integerReg_gpr r
  · rw [List.mem_singleton.mp hr', or_iff_not_imp_left]
    exact fun hzero hpending => h ⟨hzero, hpending⟩

theorem storable_special {r : Reg} (hr : IntegerReg r) (hr' : 32 ≤ r.val) (hload : LoadOK m.registers)
    (v : Word) : Storable [(r, v)] m.registers := by
  unfold LoadOK at hload
  refine ⟨fun r' hmem => ?_, fun r' hmem => ?_, List.nodup_singleton _⟩
  · rw [List.mem_singleton.mp hmem]
    exact hr
  · rw [List.mem_singleton.mp hmem]
    exact Or.inr (by show r.val ≠ _; omega)

theorem storable_hiLo (hload : LoadOK m.registers) (u v : Word) :
    Storable [(hiReg, u), (loReg, v)] m.registers ∧ Storable [(loReg, u), (hiReg, v)] m.registers := by
  have hhi := storable_special integerReg_hi (show 32 ≤ 32 by omega) hload
  have hlo := storable_special integerReg_lo (show 32 ≤ 33 by omega) hload
  constructor
  · refine ⟨fun r hr => ?_, fun r hr => ?_, show [hiReg, loReg].Nodup by decide⟩
    · rcases List.mem_cons.mp hr with rfl | hr
      · exact integerReg_hi
      · exact (hlo v).integer r hr
    · rcases List.mem_cons.mp hr with rfl | hr
      · exact (hhi u).settled _ List.mem_cons_self
      · exact (hlo v).settled r hr
  · refine ⟨fun r hr => ?_, fun r hr => ?_, show [loReg, hiReg].Nodup by decide⟩
    · rcases List.mem_cons.mp hr with rfl | hr
      · exact integerReg_lo
      · exact (hhi v).integer r hr
    · rcases List.mem_cons.mp hr with rfl | hr
      · exact (hlo u).settled _ List.mem_cons_self
      · exact (hhi v).settled r hr

/-- An instruction that stores in registers only. -/
theorem Represents.matches_stores (h : Represents m c) {ws : List (Reg × Word)} {change : Change}
    {target : Word} (hmeets : List.Forall₂ Meets ws change.writes) (hws : Storable ws m.registers)
    (htarget : target = change.target) (hmemory : change.memory = c.memory) :
    Matches m c change ⟨noReg, 0, target⟩ (m.setRegisters ws) := by
  have hspecial : ∀ r : Reg, 33 < r.val → storeAll ws m.registers r = m.registers r := by
    intro r hr
    refine storeAll_of_not_mem (fun hmem => ?_) _
    exact absurd (hws.integer r hmem) (Nat.not_le_of_lt hr)
  refine ⟨wrote_of_meets hmeets hws h.regs rfl, htarget, hspecial _ (by decide), ?_, rfl, rfl, ?_⟩
  · show (storeAll ws m.registers loadReg).toNat < 32
    rw [hspecial _ (by decide)]
    exact h.space.load
  · intro va
    rw [hmemory, h.memory]
    rfl

theorem storable_switchWrites {op : IntegerOp} (hload : LoadOK m.registers)
    (hdest : ∀ r ∈ (Operation.integer op).destinations w, ¬ Pending m r) :
    Storable (switchWrites op (decode w) m.registers) m.registers := by
  cases op with
  | divu =>
    unfold switchWrites
    simp only
    split
    · exact (storable_hiLo hload _ _).2
    · exact (storable_hiLo hload _ _).2
  | mult | multu => exact (storable_hiLo hload _ _).1
  | mthi => exact storable_special integerReg_hi (show 32 ≤ 32 by omega) hload _
  | mtlo => exact storable_special integerReg_lo (show 32 ≤ 33 by omega) hload _
  | _ => exact storable_gpr (hdest _ List.mem_cons_self) _

theorem Represents.switched_integer (h : Represents m c) {op : IntegerOp}
    (hop : Portable m w (.integer op)) : Switched m c w (.integer op) := by
  have hhi := h.read_special integerReg_hi (show 32 ≤ 32 by omega)
  have hlo := h.read_special integerReg_lo (show 32 ≤ 33 by omega)
  obtain ⟨hwrites, hoverflow, -⟩ := integer_congr (fun r hr => h.read (hop.source r hr)) hhi hlo
  have hagree : Machine.Agrees op w m.registers := by
    refine (integer_congr (fun r hr => ?_) ?_ ?_).2.2.mpr hop.agrees
    · exact (h.read (hop.source r hr)).trans (h.regs _ (integerReg_gpr r))
    · exact hhi.trans (h.regs _ integerReg_hi)
    · exact hlo.trans (h.regs _ integerReg_lo)
  rcases execute_integer_cases hop.encodes h.space.load (m.registers nextPCReg + 4) with
    ⟨hfits, hexec⟩ | ⟨hover, hexec⟩
  · refine Or.inl ⟨_, _, _, .integer (hoverflow.not.mp hfits), hexec, ?_⟩
    refine h.matches_stores ?_ (storable_switchWrites h.space.load hop.destination) ?_ rfl
    · show List.Forall₂ Meets _ (op.writes w c.regs)
      rw [← hwrites]
      exact switchWrites_meets hop.encodes hagree
    · rw [h.nextPC]
  · refine Or.inr ⟨?_, hexec⟩
    intro change hdoes
    cases hdoes with
    | integer hfits => exact hfits (hoverflow.mp hover)

theorem Represents.switched_div (h : Represents m c) (hop : Portable m w .div) :
    Switched m c w .div := by
  have hrs := h.read (hop.source (field w 21) (by simp [Operation.sources]))
  have hrt := h.read (hop.source (field w 16) (by simp [Operation.sources]))
  have hcode : (decode w).opCode = .div := decode_operation hop.encodes
  have hexec : execute (decode w) (m.registers nextPCReg + 4) m =
      (if m.registers (gpr (field w 16)) = 0 then do
          writeRegister loReg 0
          result hiReg 0 (m.registers nextPCReg + 4)
        else if m.registers (gpr (field w 21)) = signBit ∧ m.registers (gpr (field w 16)) = -1 then
          fault .hostDivision
        else do
          writeRegister loReg ((m.registers (gpr (field w 21))).sdiv (m.registers (gpr (field w 16))))
          result hiReg ((m.registers (gpr (field w 21))).srem (m.registers (gpr (field w 16))))
            (m.registers nextPCReg + 4) : Routine Effect) m := by
    rw [← decode_rs, ← decode_rt]
    generalize decode w = instr at hcode
    obtain ⟨value, opCode, rs, rt, rd, extra⟩ := instr
    subst hcode
    rfl
  by_cases hzero : m.registers (gpr (field w 16)) = 0
  · rw [if_pos hzero] at hexec
    refine Or.inl ⟨_, _, _, .divByZero (by rwa [← hrt]), hexec, ?_⟩
    refine h.matches_stores (meets_two (fun _ hv => by cases hv) (fun _ hv => by cases hv))
      (storable_hiLo h.space.load 0 0).2 ?_ rfl
    rw [h.nextPC]
  · have hhost : ¬ (m.registers (gpr (field w 21)) = signBit ∧ m.registers (gpr (field w 16)) = -1) := by
      have hagrees := hop.agrees
      unfold Operation.Agrees at hagrees
      rwa [← h.regs _ (integerReg_gpr _), ← h.regs _ (integerReg_gpr _), ← hrs, ← hrt] at hagrees
    rw [if_neg hzero, if_neg hhost] at hexec
    refine Or.inl ⟨_, _, _, .div (by rwa [← hrt]), hexec, ?_⟩
    refine h.matches_stores (meets_two (fun v hv => ?_) (fun v hv => ?_))
      (storable_hiLo h.space.load _ _).2 ?_ rfl
    · rw [hrs, hrt]
      exact Option.some.inj hv
    · rw [hrs, hrt]
      exact Option.some.inj hv
    · rw [h.nextPC]

/-! ### Branches and jumps -/

/-- The conditions of the branches. -/
def taken (op : BranchOp) (rs rt : Word) : Bool :=
  match op with
  | .beq => rs = rt
  | .bne => rs ≠ rt
  | .blez => rs.sle 0
  | .bgtz => (0 : Word).slt rs
  | .bltz | .bltzal => rs &&& signBit ≠ 0
  | .bgez | .bgezal => rs &&& signBit = 0

theorem taken_iff (op : BranchOp) (rs rt : Word) : taken op rs rt = true ↔ op.Taken rs rt := by
  have hsign : rs &&& signBit ≠ 0 ↔ rs.toInt < 0 := by
    refine (and_signBit_ne_zero rs).trans ?_
    rw [BitVec.msb_eq_toInt, decide_eq_true_iff]
  cases op with
  | beq | bne => simp [taken, BranchOp.Taken]
  | blez => exact BitVec.sle_iff_toInt_le
  | bgtz => exact BitVec.slt_iff_toInt_lt
  | bltz | bltzal => exact decide_eq_true_iff.trans hsign
  | bgez | bgezal =>
    refine decide_eq_true_iff.trans ?_
    rw [← not_ne_iff, hsign, Int.not_lt]
    rfl

/-- The link of a branch. -/
def linkStores (op : BranchOp) (nextPC : Word) : List (Reg × Word) :=
  match op with
  | .bltzal | .bgezal => [(retAddrReg, nextPC + 4)]
  | _ => []

/-- A branch is the link, if it has one, and a choice of the target. -/
theorem execute_branch {op : BranchOp} {instr : Instruction} (hop : instr.opCode = opCodeOf (.branch op))
    (hlink : op = .bltzal ∨ op = .bgezal → instr.rs ≠ Fin.last 31) (pcAfter : Word) :
    execute instr pcAfter m = .done ⟨noReg, 0,
        if taken op (m.registers (gpr instr.rs)) (m.registers (gpr instr.rt)) then
          m.registers nextPCReg + indexToAddr instr.extra
        else pcAfter⟩
      (m.setRegisters (linkStores op (m.registers nextPCReg))) := by
  obtain ⟨value, opCode, rs, rt, rd, extra⟩ := instr
  subst hop
  -- the link does not change the registers that are read after it
  let m₁ := m.setRegister retAddrReg (m.registers nextPCReg + 4)
  have hnext : m₁.registers nextPCReg = m.registers nextPCReg :=
    Function.update_of_ne (show nextPCReg ≠ retAddrReg by decide) (m.registers nextPCReg + 4) m.registers
  have hrs : rs ≠ Fin.last 31 → m₁.registers (gpr rs) = m.registers (gpr rs) := by
    intro hne
    refine Function.update_of_ne (fun heq => hne ?_) _ _
    have hval := congrArg Fin.val heq
    exact Fin.ext hval
  cases op with
  | bltzal =>
    show Outcome.done (Effect.mk noReg 0 (if taken .bltzal (m₁.registers (gpr rs))
      (m.registers (gpr rt)) then m₁.registers nextPCReg + indexToAddr extra else pcAfter)) m₁ = _
    rw [hnext, hrs (hlink (Or.inl rfl))]
    rfl
  | bgezal =>
    show Outcome.done (Effect.mk noReg 0 (if taken .bgezal (m₁.registers (gpr rs))
      (m.registers (gpr rt)) then m₁.registers nextPCReg + indexToAddr extra else pcAfter)) m₁ = _
    rw [hnext, hrs (hlink (Or.inr rfl))]
    rfl
  | _ => rfl

theorem Represents.switched_branch (h : Represents m c) {op : BranchOp}
    (hop : Portable m w (.branch op)) : Switched m c w (.branch op) := by
  have hcode : (decode w).opCode = opCodeOf (.branch op) := decode_operation hop.encodes
  have hlink : op = .bltzal ∨ op = .bgezal → (decode w).rs ≠ Fin.last 31 := by
    rw [decode_rs]
    rintro (rfl | rfl)
    · exact hop.agrees
    · exact hop.agrees
  have hexec := execute_branch (m := m) hcode hlink (m.registers nextPCReg + 4)
  rw [decode_rs, decode_rt, decode_extra_branch hop.encodes] at hexec
  have hmeets : List.Forall₂ Meets (linkStores op (m.registers nextPCReg)) (op.link c.nextPC) := by
    rw [h.nextPC]
    cases op with
    | bltzal | bgezal => exact meets_singleton (Or.inr rfl)
    | _ => exact List.Forall₂.nil
  have hstorable : Storable (linkStores op (m.registers nextPCReg)) m.registers := by
    cases op with
    | bltzal | bgezal => exact storable_gpr (hop.destination (Fin.last 31) List.mem_cons_self) _
    | _ => exact storable_nil _
  -- the branch compares what the processor compares
  have hcond : taken op (m.registers (gpr (field w 21))) (m.registers (gpr (field w 16))) =
      taken op (c.regs (gpr (field w 21))) (c.regs (gpr (field w 16))) := by
    have hrs := h.read (hop.source (field w 21) (by cases op <;> simp [Operation.sources]))
    cases op with
    | beq | bne =>
      have hrt := h.read (hop.source (field w 16) (by simp [Operation.sources]))
      rw [hrs, hrt]
    | _ =>
      rw [hrs]
      rfl
  by_cases htaken : op.Taken (c.regs (gpr (field w 21))) (c.regs (gpr (field w 16)))
  · rw [hcond, if_pos ((taken_iff _ _ _).mpr htaken)] at hexec
    refine Or.inl ⟨_, _, _, .taken htaken, hexec, h.matches_stores hmeets hstorable ?_ rfl⟩
    rw [← h.nextPC]
    rfl
  · rw [hcond, if_neg (mt (taken_iff _ _ _).mp htaken)] at hexec
    refine Or.inl ⟨_, _, _, .notTaken htaken, hexec, h.matches_stores hmeets hstorable ?_ rfl⟩
    rw [← h.nextPC]

/-- The target and the link of a jump. -/
def jumped (op : JumpOp) (instr : Instruction) (pcAfter : Word) (m : Machine) : Word × Machine :=
  match op with
  | .j => ((pcAfter &&& 0xf0000000) ||| indexToAddr instr.extra, m)
  | .jal => ((pcAfter &&& 0xf0000000) ||| indexToAddr instr.extra,
    m.setRegisters [(retAddrReg, m.registers nextPCReg + 4)])
  | .jr => (m.registers (gpr instr.rs), m)
  | .jalr => (m.registers (gpr instr.rs), m.setRegisters [(gpr instr.rd, m.registers nextPCReg + 4)])

theorem execute_jump {op : JumpOp} {instr : Instruction} (hop : instr.opCode = opCodeOf (.jump op))
    (hlink : op = .jalr → instr.rs ≠ instr.rd) (pcAfter : Word) :
    execute instr pcAfter m =
      .done ⟨noReg, 0, (jumped op instr pcAfter m).1⟩ (jumped op instr pcAfter m).2 := by
  obtain ⟨value, opCode, rs, rt, rd, extra⟩ := instr
  subst hop
  cases op with
  | jalr =>
    have hrs : (m.setRegister (gpr rd) (m.registers nextPCReg + 4)).registers (gpr rs) =
        m.registers (gpr rs) := by
      refine Function.update_of_ne (fun heq => hlink rfl ?_) _ _
      have hval := congrArg Fin.val heq
      exact Fin.ext hval
    show Outcome.done (Effect.mk noReg 0
      ((m.setRegister (gpr rd) (m.registers nextPCReg + 4)).registers (gpr rs))) _ = _
    rw [hrs]
    rfl
  | _ => rfl

theorem Represents.switched_jump (h : Represents m c) {op : JumpOp}
    (hop : Portable m w (.jump op)) : Switched m c w (.jump op) := by
  have hcode : (decode w).opCode = opCodeOf (.jump op) := decode_operation hop.encodes
  have hlink : op = .jalr → (decode w).rs ≠ (decode w).rd := by
    rw [decode_rs, decode_rd]
    rintro rfl
    exact hop.agrees
  have hexec := execute_jump (m := m) hcode hlink (m.registers nextPCReg + 4)
  have htarget : ∀ {k : BitVec 6}, w.extractLsb' 26 6 = k →
      (opTable.getD k.toNat (.res, .ifmt)).2 = .jfmt →
      (m.registers nextPCReg + 4) &&& 0xf0000000 = m.registers nextPCReg &&& 0xf0000000 →
      (m.registers nextPCReg + 4) &&& 0xf0000000 ||| indexToAddr (decode w).extra = c.jumpTarget w := by
    intro k hk hformat hhigh
    rw [hhigh, decode_extra_jfmt hk hformat]
    unfold Cpu.jumpTarget
    rw [h.nextPC]
    rfl
  have hlinked : ∀ r : Reg, List.Forall₂ Meets [(r, m.registers nextPCReg + 4)]
      [(r, some (c.nextPC + 4))] := by
    intro r
    rw [h.nextPC]
    exact meets_singleton (Or.inr rfl)
  cases op with
  | j =>
    refine Or.inl ⟨_, _, _, .j, hexec, h.matches_stores .nil (storable_nil _) ?_ rfl⟩
    exact htarget hop.encodes rfl hop.agrees
  | jal =>
    refine Or.inl ⟨_, _, _, .jal, hexec, ?_⟩
    refine h.matches_stores (hlinked _)
      (storable_gpr (hop.destination (Fin.last 31) List.mem_cons_self) _) ?_ rfl
    exact htarget hop.encodes rfl hop.agrees
  | jr =>
    refine Or.inl ⟨_, _, _, .jr, hexec, h.matches_stores .nil (storable_nil _) ?_ rfl⟩
    exact h.read (hop.source (field w 21) List.mem_cons_self)
  | jalr =>
    refine Or.inl ⟨_, _, _, .jalr, hexec, ?_⟩
    refine h.matches_stores (hlinked _) (storable_gpr (hop.destination _ List.mem_cons_self) _) ?_ rfl
    exact h.read (hop.source (field w 21) List.mem_cons_self)

/-! ### Loads and stores -/

/-- The sign or zero extension of the simulator. -/
def extended (op : LoadOp) (v : Word) : Word :=
  match op with
  | .lb => if v &&& 0x80 ≠ 0 then v ||| 0xffffff00 else v &&& 0xff
  | .lbu => v &&& 0xff
  | .lh => if v &&& 0x8000 ≠ 0 then v ||| 0xffff0000 else v &&& 0xffff
  | .lhu => v &&& 0xffff
  | .lw => v

/-- Setting or clearing the high bits of a word extends its low bits. -/
theorem extend_low {k : Nat} (hk : 0 < k) (low high : Word) {sign : Word} (v : Word)
    (hlow : ∀ i : Fin 32, low.getLsbD i = decide (i.val < k))
    (hhigh : ∀ i : Fin 32, high.getLsbD i = !decide (i.val < k))
    (hsign : v &&& sign ≠ 0 ↔ v.getLsbD (k - 1) = true) :
    (if v &&& sign ≠ 0 then v ||| high else v &&& low) = (v.setWidth k).signExtend 32 ∧
      v &&& low = (v.setWidth k).setWidth 32 := by
  have hmsb : (v.setWidth k).msb = v.getLsbD (k - 1) := by
    rw [BitVec.msb_eq_getLsbD_last, BitVec.getLsbD_setWidth, decide_eq_true (by omega), Bool.true_and]
  constructor
  · apply BitVec.eq_of_getLsbD_eq
    intro i hi
    have hhighi := hhigh ⟨i, hi⟩
    have hlowi := hlow ⟨i, hi⟩
    rw [BitVec.getLsbD_signExtend, hmsb, BitVec.getLsbD_setWidth]
    by_cases hbit : v.getLsbD (k - 1) = true
    · rw [if_pos (hsign.mpr hbit), BitVec.getLsbD_or, hhighi]
      by_cases hi' : i < k
      · simp [hi, hi']
      · simp [hi, hi', hbit]
    · rw [if_neg (mt hsign.mp hbit), BitVec.getLsbD_and, hlowi, Bool.not_eq_true _ |>.mp hbit]
      by_cases hi' : i < k
      · simp [hi, hi']
      · simp [hi']
  · apply BitVec.eq_of_getLsbD_eq
    intro i hi
    have hlowi := hlow ⟨i, hi⟩
    rw [BitVec.getLsbD_and, hlowi, BitVec.getLsbD_setWidth, BitVec.getLsbD_setWidth]
    simp [hi, Bool.and_comm]

theorem extended_eq (op : LoadOp) (v : Word) : extended op v = op.value v := by
  have hbyte := extend_low (k := 8) (by omega) 0xff 0xffffff00 v (by decide)
    (by decide) (and_twoPow_ne_zero v (i := 7) (by omega))
  have hhalf := extend_low (k := 16) (by omega) 0xffff 0xffff0000 v (by decide)
    (by decide) (and_twoPow_ne_zero v (i := 15) (by omega))
  cases op with
  | lb => exact hbyte.1
  | lbu => exact hbyte.2
  | lh => exact hhalf.1
  | lhu => exact hhalf.2
  | lw => rfl

/-- What a load puts into its register depends on the bytes that it reads. -/
theorem value_congr (op : LoadOp) {v v' : Word}
    (h : ∀ i < 8 * op.size, v.getLsbD i = v'.getLsbD i) : op.value v = op.value v' := by
  have hlow : v.setWidth (8 * op.size) = v'.setWidth (8 * op.size) := by
    apply BitVec.eq_of_getLsbD_eq
    intro i hi
    rw [BitVec.getLsbD_setWidth, BitVec.getLsbD_setWidth, h i hi]
  cases op with
  | lb | lh => exact congrArg (fun x => x.signExtend 32) hlow
  | lbu | lhu => exact congrArg (fun x => x.setWidth 32) hlow
  | lw =>
    apply BitVec.eq_of_getLsbD_eq
    intro i hi
    exact h i hi

theorem loadOp_size (op : LoadOp) : op.size = 1 ∨ op.size = 2 ∨ op.size = 4 := by
  cases op <;> simp [LoadOp.size]

theorem storeOp_size (op : StoreOp) : op.size = 1 ∨ op.size = 2 ∨ op.size = 4 := by
  cases op <;> simp [StoreOp.size]

/-- An aligned load is `ReadMem` and the extension. -/
theorem execute_load {op : LoadOp} {instr : Instruction} (hop : instr.opCode = opCodeOf (.load op))
    (ha : Aligned (m.registers (gpr instr.rs) + instr.extra) op.size) (pcAfter : Word) :
    execute instr pcAfter m =
      (readMem (m.registers (gpr instr.rs) + instr.extra) op.size >>= fun v =>
        load instr (extended op v) pcAfter) m := by
  obtain ⟨value, opCode, rs, rt, rd, extra⟩ := instr
  subst hop
  have hrequire : ∀ (mask : Word) {p : Routine Unit} {q : Unit → Routine Effect},
      m.registers (gpr rs) + extra &&& mask = 0 →
      (require (m.registers (gpr rs) + extra &&& mask = 0) p >>= q) m = q () m := by
    intro mask p q hmask
    unfold require
    rw [if_pos hmask]
    rfl
  cases op with
  | lb | lbu => rfl
  | lh | lhu =>
    refine (hrequire 0x1 ?_).trans rfl
    exact (and_mask_eq_zero_iff (n := 1) (by omega)).mpr ha
  | lw =>
    refine (hrequire 0x3 ?_).trans rfl
    exact (and_mask_eq_zero_iff (n := 2) (by omega)).mpr ha

/-- A load that is not aligned is refused. -/
theorem execute_load_unaligned {op : LoadOp} {instr : Instruction}
    (hop : instr.opCode = opCodeOf (.load op))
    (ha : ¬ Aligned (m.registers (gpr instr.rs) + instr.extra) op.size)
    (hload : LoadOK m.registers) (pcAfter : Word) :
    ∃ e m', execute instr pcAfter m = .trap e m' := by
  obtain ⟨value, opCode, rs, rt, rd, extra⟩ := instr
  subst hop
  have hlt : (m.registers loadReg).toNat < 40 := Nat.lt_trans hload (by decide)
  have hrequire : ∀ (mask : Word) {q : Unit → Routine Effect},
      ¬ m.registers (gpr rs) + extra &&& mask = 0 →
      ∃ m', (require (m.registers (gpr rs) + extra &&& mask = 0)
        (raiseException .addressError (m.registers (gpr rs) + extra)) >>= q) m =
          .trap .addressError m' := by
    intro mask q hmask
    unfold require
    rw [if_neg hmask]
    exact ⟨_, bind_trap (raiseException_eq hlt _ _)⟩
  cases op with
  | lb | lbu => exact absurd (Nat.mod_one _) ha
  | lh | lhu =>
    obtain ⟨m', hm'⟩ := hrequire 0x1 (mt (and_mask_eq_zero_iff (n := 1) (by omega)).mp ha)
    exact ⟨_, m', hm'⟩
  | lw =>
    obtain ⟨m', hm'⟩ := hrequire 0x3 (mt (and_mask_eq_zero_iff (n := 2) (by omega)).mp ha)
    exact ⟨_, m', hm'⟩

/-- The registers after a load: the pending one is done, and the new one as good as done. -/
theorem wrote_of_load {regs before : Reg → Word} {r : Fin 32} {v target : Word}
    (hbefore : ∀ r, IntegerReg r → before r = loaded regs r) :
    Cpu.Wrote [(gpr r, some v)] before (settled ⟨r, v, target⟩ regs) := by
  refine ⟨fun r' v' hmem hne => ?_, rfl, fun r' hr' hne hnot => ?_⟩
  · rw [List.mem_singleton, Prod.mk.injEq, Option.some.injEq] at hmem
    obtain ⟨rfl, rfl⟩ := hmem
    have hzero : ¬ (gpr r).val = 0 := fun h0 => hne (Fin.ext h0)
    unfold settled
    rw [if_neg hzero]
    exact if_pos rfl
  · have hzero : ¬ r'.val = 0 := fun h0 => hne (Fin.ext h0)
    have hother : ¬ r'.val = r.val := by
      intro heq
      apply hnot
      rw [List.map_singleton, List.mem_singleton]
      exact Fin.ext heq
    unfold settled
    rw [if_neg hzero, hbefore r' hr']
    exact if_neg hother

theorem Represents.switched_load (h : Represents m c) {op : LoadOp}
    (hop : Portable m w (.load op)) : Switched m c w (.load op) := by
  have hcode : (decode w).opCode = opCodeOf (.load op) := decode_operation hop.encodes
  have hrs := h.read (hop.source (field w 21) List.mem_cons_self)
  have haddress : m.registers (gpr (decode w).rs) + (decode w).extra = c.address w := by
    rw [decode_rs, decode_extra_load hop.encodes, hrs]
    rfl
  by_cases ha : Aligned (c.address w) op.size
  · have hexec := execute_load (m := m) hcode (by rwa [haddress]) (m.registers nextPCReg + 4)
    rw [haddress] at hexec
    rcases h.readMem (loadOp_size op) (c.address w) with
      ⟨haccess, v, m', hread, htouched, hbits⟩ | ⟨hrefused, e, m', hread⟩
    · rw [bind_done hread] at hexec
      refine Or.inl ⟨_, _, _, .load haccess, hexec, ?_⟩
      have hvalue : extended op v = op.value (c.memory.load (c.address w) op.size) := by
        rw [extended_eq]
        exact value_congr op fun i hi => (hbits i hi).symm
      refine ⟨?_, ?_, ?_, ?_, htouched.mapping, htouched.size, fun va => ?_⟩
      · rw [← hvalue, htouched.registers]
        exact wrote_of_load h.regs
      · show m.registers nextPCReg + 4 = c.nextPC + 4
        rw [h.nextPC]
      · rw [htouched.registers]
      · rw [htouched.registers]
        exact h.space.load
      · rw [htouched.virtualByte, ← h.memory]
    · rw [bind_trap hread] at hexec
      refine Or.inr ⟨?_, _, _, hexec⟩
      intro change hdoes
      cases hdoes with
      | load haccess => exact hrefused haccess
  · refine Or.inr ⟨?_, ?_⟩
    · intro change hdoes
      cases hdoes with
      | load haccess => exact ha haccess.1
    · exact execute_load_unaligned hcode (by rwa [haddress]) h.space.load _

theorem execute_store {op : StoreOp} {instr : Instruction} (hop : instr.opCode = opCodeOf (.store op))
    (pcAfter : Word) :
    execute instr pcAfter m =
      (writeMem (m.registers (gpr instr.rs) + instr.extra) op.size (m.registers (gpr instr.rt)) >>=
        fun _ => next pcAfter) m := by
  obtain ⟨value, opCode, rs, rt, rd, extra⟩ := instr
  subst hop
  cases op with
  | _ => rfl

theorem Represents.switched_store (h : Represents m c) {op : StoreOp}
    (hop : Portable m w (.store op)) : Switched m c w (.store op) := by
  have hcode : (decode w).opCode = opCodeOf (.store op) := decode_operation hop.encodes
  have hrs := h.read (hop.source (field w 21) (by simp [Operation.sources]))
  have hrt := h.read (hop.source (field w 16) (by simp [Operation.sources]))
  have haddress : m.registers (gpr (decode w).rs) + (decode w).extra = c.address w := by
    rw [decode_rs, decode_extra_store hop.encodes, hrs]
    rfl
  have hexec := execute_store (m := m) hcode (m.registers nextPCReg + 4)
  rw [haddress, decode_rt, hrt] at hexec
  rcases h.writeMem (storeOp_size op) (c.address w) (c.regs (gpr (field w 16))) with
    ⟨haccess, hwritable, m', hwrite, hsame, hbytes⟩ | ⟨hrefused, e, m', hwrite⟩
  · rw [bind_done hwrite] at hexec
    refine Or.inl ⟨_, _, _, .store haccess hwritable, hexec, ?_⟩
    have hwrote := @wrote_of_meets [] [] ⟨noReg, 0, m.registers nextPCReg + 4⟩ _ _ .nil
      (storable_nil m.registers) h.regs rfl
    refine ⟨?_, ?_, ?_, ?_, hsame.mapping, hsame.size, hbytes⟩
    · rw [hsame.registers]
      exact hwrote
    · show m.registers nextPCReg + 4 = c.nextPC + 4
      rw [h.nextPC]
    · rw [hsame.registers]
    · rw [hsame.registers]
      exact h.space.load
  · rw [bind_trap hwrite] at hexec
    refine Or.inr ⟨?_, _, _, hexec⟩
    intro change hdoes
    cases hdoes with
    | store haccess hwritable => exact hrefused ⟨haccess, hwritable⟩

theorem Represents.switched_syscall (h : Represents m c) (hop : Portable m w .syscall) :
    Switched m c w .syscall := by
  have hcode : (decode w).opCode = .syscall := decode_operation hop.encodes
  have hlt : (m.registers loadReg).toNat < 40 := Nat.lt_trans h.space.load (by decide)
  have hexec : execute (decode w) (m.registers nextPCReg + 4) m =
      (raiseException .syscall 0 : Routine Effect) m := by
    generalize decode w = instr at hcode
    obtain ⟨value, opCode, rs, rt, rd, extra⟩ := instr
    subst hcode
    rfl
  rw [raiseException_eq hlt] at hexec
  refine Or.inr ⟨?_, _, _, hexec⟩
  intro change hdoes
  cases hdoes

/-- The switch and the processor agree on every portable instruction. -/
theorem Represents.switched (h : Represents m c) {op : Operation} (hop : Portable m w op) :
    Switched m c w op := by
  cases op with
  | integer op => exact h.switched_integer hop
  | div => exact h.switched_div hop
  | load op => exact h.switched_load hop
  | store op => exact h.switched_store hop
  | branch op => exact h.switched_branch hop
  | jump op => exact h.switched_jump hop
  | syscall => exact h.switched_syscall hop

end Switch

/-! ### Instructions and runs -/

theorem DistinctFrames.of_mapping {m m' : Machine} (hm : DistinctFrames m) (hload : LoadOK m'.registers)
    (hmapping : m'.mapping = m.mapping) (hsize : m'.pageTableSize = m.pageTableSize) :
    DistinctFrames m' := by
  have hentry : ∀ va, m'.validEntry va = m.validEntry va := by
    intro va
    unfold validEntry
    rw [hmapping, hsize]
  refine ⟨hload, ?_, ?_, ?_⟩
  · rw [hmapping, hsize]
    exact hm.table
  · simp only [hentry]
    exact hm.frame
  · simp only [hentry]
    exact hm.distinct

/-- The processor after the instruction. -/
theorem Matches.represents {m m₁ m₂ : Machine} {c : Cpu} {change : Change} {effect : Effect}
    (h : Represents m c) (hswitch : Matches m c change effect m₁) (hcommit : Committed m₁ effect m₂) :
    ∃ c', c.Changed change c' ∧ Represents m₂ c' := by
  have hmapping : m₂.mapping = m.mapping := hcommit.mapping.trans hswitch.mapping
  have hsize : m₂.pageTableSize = m.pageTableSize := hcommit.size.trans hswitch.size
  have hentry : ∀ va, m₂.validEntry va = m.validEntry va := by
    intro va
    unfold validEntry
    rw [hmapping, hsize]
  refine ⟨⟨settled effect m₁.registers, c.nextPC, change.target, change.memory, c.writable⟩,
    ⟨hswitch.wrote, rfl, rfl, rfl, rfl⟩, h.space.of_mapping hcommit.load hmapping hsize, hcommit.zero,
    fun r hr => (hcommit.regs r hr).symm, ?_, ?_, fun va => ?_, fun va => ?_⟩
  · rw [hcommit.pc, hswitch.nextPC, h.nextPC]
  · rw [hcommit.nextPC, hswitch.target]
  · refine (hswitch.memory va).symm.trans ?_
    unfold virtualByte mappedAddress validEntry
    rw [hcommit.mapping, hcommit.size, hcommit.memory]
  · rw [hentry, h.writable]

/-- The state after an instruction that raises no exception. -/
def instructionStep (m : Machine) (_ : Unit) : Option Machine :=
  match oneInstruction m with
  | .done _ m' => some m'
  | .trap _ _ => none
  | .fault _ => none

/-- One instruction. -/
theorem Represents.oneInstruction {m : Machine} {c : Cpu} (h : Represents m c) (hok : PortableState m) :
    (∃ m' c', Machine.oneInstruction m = .done () m' ∧ c.Step c' ∧ Represents m' c') ∨
      (c.Raises ∧ ∃ e m', Machine.oneInstruction m = .trap e m') := by
  have hfour : 4 = 1 ∨ 4 = 2 ∨ 4 = 4 := by omega
  rcases h.readMem hfour (m.registers pcReg) with
    ⟨haccess, w, m₁, hread, htouched, hbits⟩ | ⟨hrefused, e, m', hread⟩
  · have hfetch : c.Fetches w := by
      unfold Cpu.Fetches
      rw [h.pc]
      exact ⟨haccess, BitVec.eq_of_getLsbD_eq fun i hi => hbits i hi⟩
    obtain ⟨op, hop⟩ := hok w ⟨m₁, hread⟩
    have hop₁ : Portable m₁ w op := by
      obtain ⟨hencodes, hagrees, hsource, hdest⟩ := hop
      unfold Pending at *
      rw [← htouched.registers] at hagrees hsource hdest
      exact ⟨hencodes, hagrees, hsource, hdest⟩
    have hone := oneInstruction_of_fetch (p := execute (decode w) (m₁.registers nextPCReg + 4)) hread rfl
    rcases (h.touched htouched).switched hop₁ with
      ⟨change, effect, m₂, hdoes, hexec, hmatches⟩ | ⟨hnot, e, m₂, hexec⟩
    · obtain ⟨m₃, hcommit, hcommitted⟩ := commit_eq hmatches.load effect
      obtain ⟨c', hchanged, hrep⟩ := hmatches.represents (h.touched htouched) hcommitted
      refine Or.inl ⟨m₃, c', ?_, ⟨w, op, change, hfetch, hop.encodes, hdoes, hchanged⟩, hrep⟩
      rw [hone]
      exact (bind_done hexec).trans hcommit
    · refine Or.inr ⟨Or.inr ⟨w, op, hfetch, hop.encodes, hnot⟩, e, m₂, ?_⟩
      rw [hone]
      exact bind_trap hexec
  · refine Or.inr ⟨Or.inl (by rwa [h.pc]), e, m', ?_⟩
    have hpc : (readRegister pcReg : Routine Word) m = .done (m.registers pcReg) m := rfl
    rw [Machine.oneInstruction, bind_done hpc]
    exact bind_trap hread

/-- A run of the simulator is matched by one of the processor, or both stop. -/
theorem Represents.run {m : Machine} {c : Cpu} (h : Represents m c) (n : Nat)
    (hok : Runs.AllStates instructionStep PortableState m (List.replicate n ())) :
    ∃ k ≤ n, ∃ m' c', Runs.run instructionStep m (List.replicate k ()) = some m' ∧
      Runs.Path (fun c _ c' => Cpu.Step c c') c (List.replicate k ()) c' ∧ Represents m' c' ∧
      (k < n → c'.Raises ∧ ∃ e t, Machine.oneInstruction m' = .trap e t) := by
  have hmatched : ∀ m c (l : Unit), Represents m c → PortableState m →
      (∃ m' c', instructionStep m l = some m' ∧ Cpu.Step c c' ∧ Represents m' c') ∨
        (instructionStep m l = none ∧ c.Raises ∧ ∃ e t, Machine.oneInstruction m = .trap e t) := by
    intro m c _ hrep hgood
    rcases hrep.oneInstruction hgood with ⟨m', c', hone, hstep, hrep'⟩ | ⟨hraises, e, t, hone⟩
    · refine Or.inl ⟨m', c', ?_, hstep, hrep'⟩
      unfold instructionStep
      rw [hone]
    · refine Or.inr ⟨?_, hraises, e, t, hone⟩
      unfold instructionStep
      rw [hone]
  obtain ⟨first, rest, hsplit, m', c', hrun, hpath, hrep, hstuck⟩ :=
    @Runs.run_matched _ _ _ _ (fun c _ c' => Cpu.Step c c') _ _ _ hmatched _ _ _ hok h
  obtain ⟨hlen, hfirst, hrest⟩ := List.append_eq_replicate_iff.mp hsplit.symm
  rw [hfirst] at hrun hpath
  refine ⟨first.length, by omega, m', c', hrun, hpath, hrep, fun hlt => hstuck ?_⟩
  rintro rfl
  simp at hlen
  omega

/-- As long as the instructions that it fetches are portable, the simulator executes the instructions
that the processor executes: after `n` instructions it stands for a state which the processor comes
to in `n` instructions, or both have come to an instruction that raises an exception. -/
theorem lockstep {m : Machine} (hm : DistinctFrames m) (hzero : m.registers 0 = 0) (n : Nat)
    (hok : Runs.AllStates instructionStep PortableState m (List.replicate n ())) :
    ∃ k ≤ n, ∃ m' c', Runs.run instructionStep m (List.replicate k ()) = some m' ∧
      Runs.Path (fun c _ c' => Cpu.Step c c') m.cpu (List.replicate k ()) c' ∧ Represents m' c' ∧
      (k < n → c'.Raises ∧ ∃ e t, Machine.oneInstruction m' = .trap e t) :=
  (represents_cpu hm hzero).run n hok

/-- A machine about to execute `lw $2, 8($0)` and an instruction that does nothing. -/
def loadMachine : Machine where
  mainMemory i := [0x08, 0x00, 0x02, 0x8c].getD i 0
  registers r := if r = nextPCReg then 4 else 0
  pageTable := some [⟨0, 0, true, false, false, false⟩]
  pageTableSize := 1

theorem distinctFrames_loadMachine : DistinctFrames loadMachine := by
  have hentry : ∀ {va e}, loadMachine.validEntry va = some e →
      va.toNat / pageSize = 0 ∧ e = ⟨0, 0, true, false, false, false⟩ := by
    intro va e he
    have hdef : loadMachine.validEntry va = if va.toNat / pageSize < 1 then
        ([⟨0, 0, true, false, false, false⟩][va.toNat / pageSize]?).filter fun e => e.valid
        else none := rfl
    rw [hdef] at he
    obtain ⟨hlt, he⟩ := Option.ite_none_right_eq_some.mp he
    rw [Nat.lt_one_iff.mp hlt] at he
    cases he
    exact ⟨Nat.lt_one_iff.mp hlt, rfl⟩
  refine ⟨show (0 : Word).toNat < 32 by decide, ⟨_, rfl, Nat.le_refl 1⟩, fun va e he => ?_,
    fun va va' e e' he he' _ => (hentry he).1.trans (hentry he').1.symm⟩
  rw [(hentry he).2]
  exact show (0 : Word).toNat < numPhysPages by decide

theorem portable_loadMachine :
    Runs.AllStates instructionStep PortableState loadMachine (List.replicate 1 ()) := by
  refine ⟨?_, fun m' hm' => ?_⟩
  · rintro w ⟨m', hread⟩
    have hw : w = 0x8c020008 := by
      cases hread
      rfl
    subst hw
    refine ⟨.load .lw, rfl, trivial, ?_, ?_⟩
    · intro r _ hpending
      exact absurd hpending.2.symm hpending.1.symm
    · intro r hr
      exact absurd hr List.not_mem_nil
  · rintro w ⟨m'', hread⟩
    have hw : w = 0 ∧ m'.registers loadReg = 2 := by
      cases hm'
      cases hread
      exact ⟨rfl, rfl⟩
    obtain ⟨rfl, hload⟩ := hw
    refine ⟨.integer .sll, ⟨rfl, rfl⟩, trivial, ?_, ?_⟩
    · intro r hr hpending
      obtain rfl : r = field 0 16 := by simpa [Operation.sources] using hr
      exact hpending.1 rfl
    · intro r hr hpending
      obtain rfl : r = field 0 11 := by simpa [Operation.destinations] using hr
      exact hpending.1 rfl

/-- The instruction that is executed while register 2 is being loaded. -/
theorem lockstep_loadMachine :
    ∃ k ≤ 1, ∃ m' c', Runs.run instructionStep loadMachine (List.replicate k ()) = some m' ∧
      Runs.Path (fun c _ c' => Cpu.Step c c') loadMachine.cpu (List.replicate k ()) c' ∧
      Represents m' c' ∧ (k < 1 → c'.Raises ∧ ∃ e t, Machine.oneInstruction m' = .trap e t) :=
  lockstep distinctFrames_loadMachine rfl 1 portable_loadMachine

end Nachos.Machine
