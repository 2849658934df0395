import Nachos.Machine.Exceptions

/-!
# Instructions that stop the simulator

A fault ends the simulation, so user code must not be able to reach one.

`noCrash_iff`: it can, with the quotient of the smallest `int` by -1 and with the accesses to
unaligned words (LWL, LWR, SWL and SWR), and with nothing else. In particular no word reaches
the default case of the switch, and the assertion on the physical address never fails.
-/

namespace Nachos

open Programs Program

/-- The default case of the switch is not reached. -/
theorem decode_not_default (w : Word) :
    (decode w).opCode ∉ [OpCode.rfe, .special, .bcond] := by
  by_cases hspecial : w.extractLsb' 26 6 = 0
  · rw [(decode_special hspecial).1]
    generalize w.extractLsb' 0 6 = f
    revert f
    decide
  by_cases hbcond : w.extractLsb' 26 6 = 1
  · have hmem := decode_bcond hbcond
    generalize (decode w).opCode = op at hmem
    revert op
    decide
  · rw [decode_other hspecial hbcond]
    generalize w.extractLsb' 26 6 = c at hspecial hbcond
    revert c
    decide

namespace Machine

/-- The operands of the instruction `w` on which the simulator stops: a quotient that is no
`int`, or an unaligned access through LWL, LWR, SWL or SWR. -/
def Crashes (w : Word) (regs : Reg → Word) : Prop :=
  let rs := regs (gpr (field w 21))
  let rt := regs (gpr (field w 16))
  ((decode w).opCode = .div ∧ rs = signBit ∧ rt = -1) ∨
    ((decode w).opCode ∈ [OpCode.lwl, .lwr, .swl, .swr] ∧ (rs + (decode w).extra) &&& 0x3 ≠ 0)

/-- A translation with a page table fails no assertion. -/
theorem translate_fault {va : Word} {size : Nat} {writing : Bool} {m : Machine} {f : Fault}
    (hsize : size = 1 ∨ size = 2 ∨ size = 4) (htable : m.pageTable.isSome = true)
    (h : Machine.translate va size writing m = .fault f) : f = .outOfBounds := by
  obtain ⟨table, htable⟩ := Option.isSome_iff_exists.mp htable
  unfold Machine.translate at h
  simp only [htable] at h
  split_ifs at h with haligned hvpn
  split at h
  · cases h
    rfl
  rename_i entry hentry
  split_ifs at h with hvalid hreadOnly hframe hassert
  -- the bytes of an aligned access end in the page frame
  have h4 : size = 4 → va.toNat % 2 ^ 2 = 0 := by
    intro hsize4
    apply toNat_mod_of_and (by omega)
    by_contra hne
    exact haligned (Or.inl ⟨hsize4, hne⟩)
  have h2 : size = 2 → va.toNat % 2 ^ 1 = 0 := by
    intro hsize2
    apply toNat_mod_of_and (by omega)
    by_contra hne
    exact haligned (Or.inr ⟨hsize2, hne⟩)
  exfalso
  apply hassert
  unfold memorySize numPhysPages pageSize at *
  omega

theorem refusals_crash {m₀ : Machine} {F : Fault → Prop} (htable : m₀.pageTable.isSome = true)
    (hbounds : F .outOfBounds) : Refusals m₀ (fun _ _ => True) F := by
  have hsome : ∀ m, Touched m₀ m → m.pageTable.isSome = true := by
    intro m hm
    have hmapping := congrArg Option.isSome hm.mapping
    simpa [Machine.mapping, htable] using hmapping
  refine ⟨fun Q e a m hm => ?_, fun va size writing hsize m hm => ?_, hbounds⟩
  · by_cases h : (m.registers loadReg).toNat < 40
    · rw [raiseException_eq h]
      trivial
    · rw [raiseException_fault h]
      exact hbounds
  · rcases translate_cases va size writing m with ⟨f, h, -⟩ | ⟨e, h⟩ | ⟨pa, m', h, htr⟩
    · rw [h, translate_fault hsize (hsome m hm) h]
      exact hbounds
    · rw [h]
      exact hm
    · rw [h]
      exact hm.trans htr.touched

/-- Whatever stops the simulator is one of the known cases. -/
theorem crashes_of_fault {m : Machine} {f : Fault} (hm : InBounds m)
    (htable : m.pageTable.isSome = true) (h : oneInstruction m = .fault f) :
    ∃ w, Fetches m w ∧ Crashes w m.registers := by
  have hrefusals : Refusals m (fun _ _ => True)
      (fun f => f = .outOfBounds ∨ ∃ w, Fetches m w ∧ Crashes w m.registers) :=
    refusals_crash htable (Or.inl rfl)
  have hout := hrefusals.oneInstruction fun w hw => ?_
  · rw [h] at hout
    rcases hout with rfl | hcrash
    · have hconfined := confined_oneInstruction m
      rw [h] at hconfined
      exact absurd rfl (hconfined hm)
    · exact hcrash
  · refine ⟨fun hop hrs hrt => ?_, fun hop hne => ?_, fun hop => ?_⟩
    · exact Or.inr ⟨w, hw, Or.inl ⟨hop, hrs, hrt⟩⟩
    · exact Or.inr ⟨w, hw, Or.inr ⟨hop, hne⟩⟩
    · exact absurd hop (decode_not_default w)

theorem execute_div_fault {instr : Instruction} {pcAfter : Word} {m : Machine}
    (hop : instr.opCode = .div) (hrs : m.registers (gpr instr.rs) = signBit)
    (hrt : m.registers (gpr instr.rt) = -1) :
    execute instr pcAfter m = .fault .hostDivision := by
  obtain ⟨value, opCode, rs, rt, rd, extra⟩ := instr
  subst hop
  have hne : ¬ m.registers (gpr rt) = 0 := by
    rw [hrt]
    decide
  show (if m.registers (gpr rt) = 0 then _ else
    if m.registers (gpr rs) = signBit ∧ m.registers (gpr rt) = -1 then _ else _ :
      Routine Effect) m = _
  rw [if_neg hne, if_pos ⟨hrs, hrt⟩]
  rfl

theorem execute_unaligned_fault {instr : Instruction} {pcAfter : Word} {m : Machine}
    (hop : instr.opCode ∈ [OpCode.lwl, .lwr, .swl, .swr])
    (hne : (m.registers (gpr instr.rs) + instr.extra) &&& 0x3 ≠ 0) :
    execute instr pcAfter m = .fault .assertion := by
  obtain ⟨value, opCode, rs, rt, rd, extra⟩ := instr
  have hrequire : Machine.require ((m.registers (gpr rs) + extra) &&& 0x3 = 0)
      (fault .assertion) m = .fault .assertion := by
    unfold Machine.require
    rw [if_neg hne]
    rfl
  simp only [List.mem_cons, List.not_mem_nil, or_false] at hop
  rcases hop with rfl | rfl | rfl | rfl
  all_goals
    show Program.bind (Machine.require _ (fault .assertion)) _ m = _
    unfold Program.bind
    rw [hrequire]

/-- The known cases do stop the simulator. -/
theorem fault_of_crashes {m : Machine} {w : Word} (hfetch : Fetches m w)
    (hcrash : Crashes w m.registers) : ∃ f, oneInstruction m = .fault f := by
  obtain ⟨m₁, hread⟩ := hfetch
  rw [← (readMem_touched hread).registers] at hcrash
  rcases hcrash with ⟨hop, hrs, hrt⟩ | ⟨hop, hne⟩
  · refine ⟨.hostDivision, ?_⟩
    exact oneInstruction_of_fetch hread (p := fault .hostDivision) (execute_div_fault hop hrs hrt)
  · refine ⟨.assertion, ?_⟩
    exact oneInstruction_of_fetch hread (p := fault .assertion) (execute_unaligned_fault hop hne)

/-- User code stops the simulator in the known cases and in no other. -/
theorem noCrash_iff {m : Machine} (hm : InBounds m) (htable : m.pageTable.isSome = true) :
    (∀ f, oneInstruction m ≠ .fault f) ↔ ∀ w, Fetches m w → ¬ Crashes w m.registers := by
  constructor
  · intro h w hfetch hcrash
    obtain ⟨f, hf⟩ := fault_of_crashes hfetch hcrash
    exact h f hf
  · intro h f hf
    obtain ⟨w, hfetch, hcrash⟩ := crashes_of_fault hm htable hf
    exact h w hfetch hcrash

/-- A machine about to execute the word `w`, with the registers 0. -/
def machineAt (w : Word) : Machine where
  mainMemory i := w.extractLsb' (8 * i) 8
  registers r := if r = nextPCReg then 4 else 0
  pageTable := some [⟨0, 0, true, false, false, false⟩]
  pageTableSize := 1

theorem machineAt_inBounds (w : Word) : InBounds (machineAt w) := by
  refine ⟨show (0 : Word).toNat < 32 by decide, fun table htable => ?_⟩
  cases htable
  exact Nat.le_refl 1

theorem noCrash_syscall :
    (∀ f, oneInstruction (machineAt 0xc) ≠ .fault f) ↔
      ∀ w, Fetches (machineAt 0xc) w → ¬ Crashes w (machineAt 0xc).registers :=
  noCrash_iff (machineAt_inBounds 0xc) rfl

/-- `lwl $1, 1($0)` fails an assertion. -/
theorem crash_lwl :
    ¬ ∀ m : Machine, InBounds m → m.pageTable.isSome = true → ∀ f, oneInstruction m ≠ .fault f :=
  fun h => h (machineAt 0x88010001) (machineAt_inBounds _) rfl .assertion rfl

end Machine

end Nachos
