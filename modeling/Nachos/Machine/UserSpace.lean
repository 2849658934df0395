import Nachos.Machine.Exceptions

/-!
# What the kernel does to user memory

A system call reads and writes the memory of the user program one byte at a time, with `ReadMem`
and `WriteMem` at virtual addresses. For a page table as `AddrSpace` makes it (`UserSpace`) an
access of one byte either reaches the byte of its address, and no other one, or raises
`AddressErrorException`, whose handler halts the machine.
-/

namespace Nachos.Machine

open Programs Program

/-- The physical address of a virtual one, if the page table has an entry for it. -/
def address (m : Machine) (va : Word) : Option Nat :=
  m.mapping.bind fun table =>
    if va.toNat / pageSize < m.pageTableSize then
      (table[va.toNat / pageSize]?).map fun e =>
        e.physicalPage.toNat * pageSize + va.toNat % pageSize
    else none

/-- The byte that the user program sees at a virtual address. -/
def userByte (m : Machine) (va : Word) : Option Byte := (m.address va).map m.mainMemory

/-- The page table is one of an `AddrSpace`: every entry is valid and writable, and no frame is
named twice. The delayed load is one of a general purpose register. -/
structure UserSpace (m : Machine) : Prop where
  load : LoadOK m.registers
  table : ∃ table, m.mapping = some table ∧ table.length = m.pageTableSize ∧
    (∀ e ∈ table, e.valid = true ∧ e.readOnly = false ∧ e.physicalPage.toNat < numPhysPages) ∧
    (table.map fun e => e.physicalPage).Nodup

/-- The same registers and the same mapping of virtual addresses. -/
structure SameSpace (m m' : Machine) : Prop where
  mapping : m'.mapping = m.mapping
  size : m'.pageTableSize = m.pageTableSize
  registers : m'.registers = m.registers

section SameSpace

variable {m m' m'' : Machine}

theorem SameSpace.refl (m : Machine) : SameSpace m m := ⟨rfl, rfl, rfl⟩

theorem SameSpace.trans (h : SameSpace m m') (h' : SameSpace m' m'') : SameSpace m m'' :=
  ⟨h'.mapping.trans h.mapping, h'.size.trans h.size, h'.registers.trans h.registers⟩

theorem SameSpace.address (h : SameSpace m m') (va : Word) : m'.address va = m.address va := by
  unfold Machine.address
  rw [h.mapping, h.size]

theorem SameSpace.userByte_eq_none (h : SameSpace m m') {va : Word} :
    m'.userByte va = none ↔ m.userByte va = none := by
  unfold Machine.userByte
  rw [h.address, Option.map_eq_none_iff, Option.map_eq_none_iff]

theorem UserSpace.congr (hm : UserSpace m) (h : SameSpace m m') : UserSpace m' := by
  obtain ⟨table, htable, hlen, hentries, hnodup⟩ := hm.table
  refine ⟨?_, table, h.mapping.trans htable, hlen.trans h.size.symm, hentries, hnodup⟩
  rw [h.registers]
  exact hm.load

theorem Touched.sameSpace (h : Touched m m') : SameSpace m m' := ⟨h.mapping, h.size, h.registers⟩

theorem Touched.userByte (h : Touched m m') (va : Word) : m'.userByte va = m.userByte va := by
  unfold Machine.userByte
  rw [h.sameSpace.address, h.memory]

end SameSpace

section Access

variable {m : Machine} {va va' : Word} {pa : Nat}

/-- A physical address is one of one frame, and of one address in each page. -/
theorem eq_of_address {f f' : Word} (h : f.toNat * pageSize + va.toNat % pageSize = pa)
    (h' : f'.toNat * pageSize + va'.toNat % pageSize = pa) :
    f = f' ∧ (va.toNat / pageSize = va'.toNat / pageSize → va = va') := by
  have hframe : f = f' := by
    apply BitVec.eq_of_toNat_eq
    unfold pageSize at h h'
    omega
  refine ⟨hframe, fun hpage => BitVec.eq_of_toNat_eq ?_⟩
  rw [hframe] at h
  unfold pageSize at *
  omega

/-- Different virtual addresses have different bytes. -/
theorem UserSpace.address_inj (hm : UserSpace m) (h : m.address va = some pa)
    (h' : m.address va' = some pa) : va = va' := by
  obtain ⟨table, htable, hlen, hentries, hnodup⟩ := hm.table
  unfold address at h h'
  rw [htable, Option.bind_some] at h h'
  obtain ⟨-, h⟩ := Option.ite_none_right_eq_some.mp h
  obtain ⟨-, h'⟩ := Option.ite_none_right_eq_some.mp h'
  obtain ⟨e, he, hpa⟩ := Option.map_eq_some_iff.mp h
  obtain ⟨e', he', hpa'⟩ := Option.map_eq_some_iff.mp h'
  obtain ⟨hframe, heq⟩ := eq_of_address hpa hpa'
  obtain ⟨hlt, hget⟩ := List.getElem?_eq_some_iff.mp he
  obtain ⟨hlt', hget'⟩ := List.getElem?_eq_some_iff.mp he'
  have hpage : va.toNat / pageSize = va'.toNat / pageSize := by
    have hmap : va.toNat / pageSize < (table.map (·.physicalPage)).length := by
      rwa [List.length_map]
    have hmap' : va'.toNat / pageSize < (table.map (·.physicalPage)).length := by
      rwa [List.length_map]
    have hsame : (table.map (·.physicalPage))[va.toNat / pageSize] =
        (table.map (·.physicalPage))[va'.toNat / pageSize] := by
      rw [List.getElem_map, List.getElem_map, hget, hget', hframe]
    exact hnodup.getElem_inj_iff.mp hsame
  exact heq hpage

/-- How `Translate` ends for one byte. -/
theorem UserSpace.translate_byte (hm : UserSpace m) (va : Word) (writing : Bool) :
    (∃ pa m', m.address va = some pa ∧ translate va 1 writing m = .done (.ok pa) m' ∧
      Touched m m') ∨
      (m.address va = none ∧ translate va 1 writing m = .done (.error .addressError) m) := by
  obtain ⟨mapped, hmapped, hlen, hentries, -⟩ := hm.table
  obtain ⟨table, htable, rfl⟩ := Option.map_eq_some_iff.mp hmapped
  rw [List.length_map] at hlen
  have haddress : m.address va = if va.toNat / pageSize < m.pageTableSize then
      (table[va.toNat / pageSize]?).map fun e =>
        e.physicalPage.toNat * pageSize + va.toNat % pageSize else none := by
    unfold address
    rw [hmapped, Option.bind_some, List.getElem?_map, Option.map_map]
    rfl
  have haligned : ¬ ((1 = 4 ∧ va &&& 0x3 ≠ 0) ∨ (1 = 2 ∧ va &&& 0x1 ≠ 0)) := by simp
  unfold translate
  rw [if_neg haligned, htable, haddress]
  by_cases hsize : va.toNat / pageSize < m.pageTableSize
  · obtain ⟨e, he⟩ : ∃ e, table[va.toNat / pageSize]? = some e :=
      ⟨_, List.getElem?_eq_getElem (by omega)⟩
    obtain ⟨hvalid, hreadOnly, hframe⟩ :=
      hentries e.mapping (List.mem_map.mpr ⟨e, List.mem_of_getElem? he, rfl⟩)
    have hvalid' : e.valid = true := hvalid
    have hreadOnly' : e.readOnly = false := hreadOnly
    have hframe' : ¬ numPhysPages ≤ e.physicalPage.toNat := Nat.not_le_of_lt hframe
    have hfits : e.physicalPage.toNat * pageSize + va.toNat % pageSize + 1 ≤ memorySize := by
      have hlt : e.physicalPage.toNat < numPhysPages := hframe
      unfold memorySize numPhysPages pageSize at *
      omega
    left
    rw [if_pos hsize, he]
    refine ⟨_, { m with pageTable := some (table.set (va.toNat / pageSize)
      { e with use := true, dirty := e.dirty || writing }) }, rfl, ?_, rfl, rfl, ?_, rfl⟩
    · simp only [if_neg (Nat.not_le_of_lt hsize), he, hvalid', hreadOnly', if_neg hframe', if_pos hfits,
        Bool.not_true, Bool.false_and, Bool.false_eq_true, if_false]
    · unfold mapping
      rw [htable]
      exact congrArg some (mapping_set he rfl)
  · right
    refine ⟨if_neg hsize, ?_⟩
    simp only [if_pos (Nat.le_of_not_lt hsize)]

/-- The access does not return: the machine halts, with the memory as it was. -/
def Halts {α : Type} (m : Machine) : Outcome Machine ExceptionType Fault α → Prop
  | .done _ _ => False
  | .trap _ m' => ∀ va, m'.userByte va = m.userByte va
  | .fault _ => False

theorem UserSpace.halts_raiseException {α : Type} (hm : UserSpace m) (e : ExceptionType)
    (a : Word) : Halts m ((raiseException e a : Routine α) m) := by
  have h : (m.registers loadReg).toNat < 40 := Nat.lt_of_lt_of_le hm.load (by decide)
  rw [raiseException_eq h]
  exact fun va => rfl

/-- `ReadMem` of one byte. -/
theorem UserSpace.readMem_byte (hm : UserSpace m) (va : Word) :
    (∃ b m', m.userByte va = some b ∧ readMem va 1 m = .done (b.signExtend 32) m' ∧ Touched m m') ∨
      (m.userByte va = none ∧ Halts m (readMem va 1 m)) := by
  unfold userByte
  rcases hm.translate_byte va false with ⟨pa, m', hpa, htr, ht⟩ | ⟨hnone, htr⟩
  · refine Or.inl ⟨m.mainMemory pa, m', by rw [hpa]; rfl, ?_, ht⟩
    unfold readMem
    rw [bind_done htr, ← ht.memory]
    rfl
  · refine Or.inr ⟨by rw [hnone]; rfl, ?_⟩
    unfold readMem
    rw [bind_done htr]
    exact hm.halts_raiseException .addressError va

/-- What `WriteMem` of one byte leaves. -/
structure Stored (m : Machine) (va : Word) (b : Byte) (m' : Machine) : Prop where
  same : SameSpace m m'
  byte : m'.userByte va = some b
  other : ∀ va', va' ≠ va → m'.userByte va' = m.userByte va'

/-- `WriteMem` of one byte. -/
theorem UserSpace.writeMem_byte (hm : UserSpace m) (va : Word) (v : Word) :
    (∃ m', m.userByte va ≠ none ∧ writeMem va 1 v m = .done () m' ∧
      Stored m va (v.setWidth 8) m') ∨
      (m.userByte va = none ∧ Halts m (writeMem va 1 v m)) := by
  rcases hm.translate_byte va true with ⟨pa, m', hpa, htr, ht⟩ | ⟨hnone, htr⟩
  · have hsame : SameSpace m { m' with mainMemory := Bytes.store m'.mainMemory pa 1 v } :=
      ⟨ht.mapping, ht.size, ht.registers⟩
    refine Or.inl ⟨{ m' with mainMemory := Bytes.store m'.mainMemory pa 1 v }, ?_, ?_, hsame,
      ?_, fun va' hne => ?_⟩
    · unfold userByte
      rw [hpa]
      exact Option.some_ne_none _
    · unfold writeMem
      rw [bind_done htr]
      rfl
    · unfold userByte
      rw [hsame.address, hpa, Option.map_some]
      simp [Bytes.store]
    · unfold userByte
      rw [hsame.address]
      cases hpa' : m.address va' with
      | none => rfl
      | some pa' =>
        have hne' : ¬ (pa ≤ pa' ∧ pa' < pa + 1) := by
          intro hmem
          obtain rfl : pa' = pa := by omega
          exact hne (hm.address_inj hpa' hpa)
        refine congrArg some ((Bytes.store_of_not_mem v hne').trans ?_)
        rw [ht.memory]
  · refine Or.inr ⟨by unfold userByte; rw [hnone]; rfl, ?_⟩
    unfold writeMem
    rw [bind_done htr]
    exact hm.halts_raiseException .addressError va

end Access

end Nachos.Machine
