import Nachos.Machine.Instructions

/-!
# What instruction words decode to

The two levels of `Instruction::Decode`: the operation field selects an entry of `opTable`, and
two of the entries are decided by a further field.
-/

namespace Nachos

theorem opTable_special (c : BitVec 6) :
    (opTable.getD c.toNat (.res, .ifmt)).1 = .special ↔ c = 0 := by
  revert c
  decide

theorem opTable_bcond (c : BitVec 6) :
    (opTable.getD c.toNat (.res, .ifmt)).1 = .bcond ↔ c = 1 := by
  revert c
  decide

theorem decode_special {w : Word} (h : w.extractLsb' 26 6 = 0) :
    (decode w).opCode = specialTable.getD (w.extractLsb' 0 6).toNat .res ∧
      (decode w).extra = (w >>> 6) &&& 0x1f := by
  unfold decode
  rw [h]
  exact ⟨rfl, rfl⟩

theorem decode_bcond {w : Word} (h : w.extractLsb' 26 6 = 1) :
    (decode w).opCode ∈ [OpCode.bltz, .bgez, .bltzal, .bgezal, .unimp] := by
  unfold decode
  rw [h]
  show (if w &&& 0x1f0000 = 0 then OpCode.bltz else if w &&& 0x1f0000 = 0x10000 then .bgez
    else if w &&& 0x1f0000 = 0x100000 then .bltzal
    else if w &&& 0x1f0000 = 0x110000 then .bgezal else .unimp) ∈ _
  split_ifs <;> simp

theorem decode_other {w : Word} (h : w.extractLsb' 26 6 ≠ 0) (h' : w.extractLsb' 26 6 ≠ 1) :
    (decode w).opCode = (opTable.getD (w.extractLsb' 26 6).toNat (.res, .ifmt)).1 := by
  have hspecial := mt (opTable_special (w.extractLsb' 26 6)).mp h
  have hbcond := mt (opTable_bcond (w.extractLsb' 26 6)).mp h'
  unfold decode
  generalize opTable.getD (w.extractLsb' 26 6).toNat (.res, .ifmt) = entry at hspecial hbcond
  obtain ⟨code, format⟩ := entry
  cases code with
  | special => exact absurd rfl hspecial
  | bcond => exact absurd rfl hbcond
  | _ => rfl

end Nachos
