import Mathlib.Logic.Function.Basic
import Nachos.Lib.Bytes
import Nachos.Lib.Programs

/-!
# The simulated machine: registers, memory and address translation

`Machine` of `machine/machine.h` with the routines of `machine.cc` and `translate.cc`. The
build has no TLB (`USE_TLB` is not defined), so `tlb` is NULL and translation goes through the
page table. The host is a little-endian one on which `char` is signed (`HOST_i386`).

A routine is a `Program` over the machine. An exception is a trap: the state it carries is the
one in which `ExceptionHandler` is entered, and the routine that raised it does nothing more
after the handler returns. A failed ASSERT, an access outside an array and a host division
that overflows are faults.
-/

namespace Nachos

open Programs

def pageSize : Nat := 512
def numPhysPages : Nat := 128
def memorySize : Nat := numPhysPages * pageSize

abbrev Byte := BitVec 8

/-- An `int` or `unsigned int`. -/
abbrev Word := BitVec 32

/-- The exceptions of `ExceptionType`, without `NoException`. -/
inductive ExceptionType
  | syscall
  | pageFault
  | readOnly
  | busError
  | addressError
  | overflow
  | illegalInstr
  deriving DecidableEq

/-- What ends the simulation. -/
inductive Fault
  | assertion
  | outOfBounds
  | hostDivision
  deriving DecidableEq

/-- `TranslationEntry` of `machine/translate.h`. -/
structure TranslationEntry where
  virtualPage : Word
  physicalPage : Word
  valid : Bool
  readOnly : Bool
  use : Bool
  dirty : Bool
  deriving DecidableEq

/-- An entry without its use and dirty bits, which are all that translation changes. -/
def TranslationEntry.mapping (e : TranslationEntry) : TranslationEntry :=
  { e with use := false, dirty := false }

/-- The number of a register. -/
abbrev Reg := Fin 40

def resultReg : Reg := 2
def stackReg : Reg := 29
def retAddrReg : Reg := 31
def hiReg : Reg := 32
def loReg : Reg := 33
def pcReg : Reg := 34
def nextPCReg : Reg := 35
def prevPCReg : Reg := 36
def loadReg : Reg := 37
def loadValueReg : Reg := 38
def badVAddrReg : Reg := 39

/-- A general purpose register. -/
def gpr (r : Fin 32) : Reg := r.castLE (by decide)

structure Machine where
  mainMemory : Nat → Byte
  registers : Reg → Word
  /-- The array that the pointer `pageTable` points to; `none` when it is NULL. -/
  pageTable : Option (List TranslationEntry)
  pageTableSize : Nat

/-- A routine of the machine. -/
abbrev Routine := Program Machine ExceptionType Fault

namespace Machine

open Program

def readRegister (r : Reg) : Routine Word := gets fun m => m.registers r

def setRegister (r : Reg) (v : Word) (m : Machine) : Machine :=
  { m with registers := Function.update m.registers r v }

def writeRegister (r : Reg) (v : Word) : Routine Unit := modify (setRegister r v)

/-- The register that `DelayedLoad` is given when there is nothing to load. -/
def noReg : Fin 32 := 0

/-- `registers[registers[LoadReg]] = registers[LoadValueReg]`. -/
def finishLoad : Routine Unit := fun m =>
  if h : (m.registers loadReg).toNat < 40 then
    .done () (m.setRegister ⟨(m.registers loadReg).toNat, h⟩ (m.registers loadValueReg))
  else .fault .outOfBounds

/-- `Machine::DelayedLoad`. -/
def delayedLoad (nextReg : Fin 32) (nextValue : Word) : Routine Unit := do
  finishLoad
  writeRegister loadReg (BitVec.ofNat 32 nextReg)
  writeRegister loadValueReg nextValue
  writeRegister 0 0

/-- Nothing is pending, and register 0 is 0. -/
def cleared (m : Machine) : Machine :=
  ((m.setRegister loadReg 0).setRegister loadValueReg 0).setRegister 0 0

/-- `Machine::RaiseException`, up to the call of `ExceptionHandler`. -/
def raiseException {α : Type} (which : ExceptionType) (badVAddr : Word) : Routine α := do
  writeRegister badVAddrReg badVAddr
  delayedLoad 0 0
  trap which

/-- `Machine::Translate`: the physical address, or the exception to raise. -/
def translate (virtAddr : Word) (size : Nat) (writing : Bool) :
    Routine (Except ExceptionType Nat) := fun m =>
  if (size = 4 ∧ virtAddr &&& 0x3 ≠ 0) ∨ (size = 2 ∧ virtAddr &&& 0x1 ≠ 0) then
    .done (.error .addressError) m
  else
    match m.pageTable with
    | none => .fault .assertion
    | some table =>
      let vpn := virtAddr.toNat / pageSize
      let offset := virtAddr.toNat % pageSize
      if m.pageTableSize ≤ vpn then .done (.error .addressError) m
      else
        match table[vpn]? with
        | none => .fault .outOfBounds
        | some entry =>
          if !entry.valid then .done (.error .pageFault) m
          else if entry.readOnly && writing then .done (.error .readOnly) m
          else if numPhysPages ≤ entry.physicalPage.toNat then .done (.error .busError) m
          else
            let entry' := { entry with use := true, dirty := entry.dirty || writing }
            let physAddr := entry.physicalPage.toNat * pageSize + offset
            if physAddr + size ≤ memorySize then
              .done (.ok physAddr) { m with pageTable := some (table.set vpn entry') }
            else .fault .assertion

/-- `Machine::ReadMem`. The byte of a read of size 1 is a `char`, which is signed. -/
def readMem (addr : Word) (size : Nat) : Routine Word := do
  match ← translate addr size false with
  | .error e => raiseException e addr
  | .ok physicalAddress =>
    match size with
    | 1 => gets fun m => (m.mainMemory physicalAddress).signExtend 32
    | 2 => gets fun m => Bytes.load m.mainMemory physicalAddress 2
    | 4 => gets fun m => Bytes.load m.mainMemory physicalAddress 4
    | _ => fault .assertion

/-- `Machine::WriteMem`. -/
def writeMem (addr : Word) (size : Nat) (value : Word) : Routine Unit := do
  match ← translate addr size true with
  | .error e => raiseException e addr
  | .ok physicalAddress =>
    if size = 1 ∨ size = 2 ∨ size = 4 then
      modify fun m =>
        { m with mainMemory := Bytes.store m.mainMemory physicalAddress size value }
    else fault .assertion

/-! ### What the routines change -/

/-- The byte addresses of a page frame. -/
def InFrame (f a : Nat) : Prop := f * pageSize ≤ a ∧ a < (f + 1) * pageSize

theorem inFrame_iff {f a : Nat} : InFrame f a ↔ a / pageSize = f := by
  unfold InFrame pageSize
  omega

/-- The page table without use and dirty bits. -/
def mapping (m : Machine) : Option (List TranslationEntry) :=
  m.pageTable.map fun table => table.map TranslationEntry.mapping

/-- The physical address `a` lies in a frame that an entry of `table` below `size` names. -/
def Maps (table : List TranslationEntry) (size a : Nat) : Prop :=
  ∃ i e, i < size ∧ table[i]? = some e ∧ InFrame e.physicalPage.toNat a

theorem maps_mapping {table : List TranslationEntry} {size a : Nat} :
    Maps (table.map TranslationEntry.mapping) size a ↔ Maps table size a := by
  simp only [Maps, List.getElem?_map]
  constructor
  · rintro ⟨i, e, hi, he, ha⟩
    obtain ⟨e', he', rfl⟩ := Option.map_eq_some_iff.mp he
    exact ⟨i, e', hi, he', ha⟩
  · rintro ⟨i, e, hi, he, ha⟩
    exact ⟨i, e.mapping, hi, by rw [he]; rfl, ha⟩

/-- The physical address `a` is mapped by the page table of the machine. -/
def Reaches (m : Machine) (a : Nat) : Prop :=
  ∃ table, m.mapping = some table ∧ Maps table m.pageTableSize a

/-- The delayed load will write a general purpose register. -/
def LoadOK (registers : Reg → Word) : Prop := (registers loadReg).toNat < 32

/-- The entry maps the page to the same frame, and its use and dirty bits have at most been set. -/
structure Marked (e e' : TranslationEntry) : Prop where
  mapping : e'.mapping = e.mapping
  use : e.use = true → e'.use = true
  dirty : e.dirty = true → e'.dirty = true

theorem Marked.refl (e : TranslationEntry) : Marked e e := ⟨rfl, id, id⟩

theorem Marked.trans {e e' e'' : TranslationEntry} (h : Marked e e') (h' : Marked e' e'') :
    Marked e e'' := ⟨h'.mapping.trans h.mapping, h'.use ∘ h.use, h'.dirty ∘ h.dirty⟩

/-- Every entry of the page table has at most been marked. -/
def OnlyMarks (m m' : Machine) : Prop :=
  ∀ (table : List TranslationEntry) (i : Nat) (e : TranslationEntry),
    m.pageTable = some table → table[i]? = some e →
      ∃ table' e', m'.pageTable = some table' ∧ table'[i]? = some e' ∧ Marked e e'

theorem OnlyMarks.of_eq {m m' : Machine} (h : m'.pageTable = m.pageTable) : OnlyMarks m m' :=
  fun table _ e htable he => ⟨table, e, h.trans htable, he, Marked.refl e⟩

theorem OnlyMarks.trans {m m' m'' : Machine} (h : OnlyMarks m m') (h' : OnlyMarks m' m'') :
    OnlyMarks m m'' := by
  intro table i e htable he
  obtain ⟨table', e', htable', he', hmarked⟩ := h table i e htable he
  obtain ⟨table'', e'', htable'', he'', hmarked'⟩ := h' table' i e' htable' he'
  exact ⟨table'', e'', htable'', he'', hmarked.trans hmarked'⟩

/-- What a routine may change of the machine besides the registers: the use and dirty bits of
the page table, which are only set, and the bytes of the frames that it maps. The delayed load stays
one of a general purpose register. -/
structure Confined (m m' : Machine) : Prop where
  mapping : m'.mapping = m.mapping
  marks : OnlyMarks m m'
  size : m'.pageTableSize = m.pageTableSize
  memory : ∀ a, ¬ m.Reaches a → m'.mainMemory a = m.mainMemory a
  load : LoadOK m.registers → LoadOK m'.registers

theorem Confined.reaches {m m' : Machine} (h : Confined m m') (a : Nat) :
    m'.Reaches a ↔ m.Reaches a := by
  unfold Reaches
  rw [h.mapping, h.size]

/-- The machine has what its routines index into: a page table of `pageTableSize` entries,
and a delayed load of a general purpose register. -/
structure InBounds (m : Machine) : Prop where
  load : LoadOK m.registers
  table : ∀ table, m.mapping = some table → m.pageTableSize ≤ table.length

theorem Confined.inBounds {m m' : Machine} (h : Confined m m') (hm : InBounds m) :
    InBounds m' := by
  refine ⟨h.load hm.load, fun table htable => ?_⟩
  rw [h.size]
  exact hm.table table (by rw [← h.mapping, htable])

theorem Confined.refl (m : Machine) : Confined m m := ⟨rfl, .of_eq rfl, rfl, fun _ _ => rfl, id⟩

theorem Confined.trans {m m' m'' : Machine} (h : Confined m m') (h' : Confined m' m'') :
    Confined m m'' := by
  refine ⟨h'.mapping.trans h.mapping, h.marks.trans h'.marks, h'.size.trans h.size, fun a ha => ?_,
    h'.load ∘ h.load⟩
  rw [h'.memory a ((h.reaches a).not.mpr ha), h.memory a ha]

/-- The contract of the machine's routines: they are confined, and they do not index an array
out of bounds. -/
def confinement : Contract Machine Fault where
  rel := Confined
  allows m f := InBounds m → f ≠ .outOfBounds
  refl := Confined.refl
  trans := Confined.trans
  back h hf hm := hf (h.inBounds hm)

theorem confined_writeRegister {r : Reg} (hr : r ≠ loadReg) (v : Word) :
    Keeps confinement (writeRegister r v) := by
  apply keeps_modify
  intro m
  refine ⟨rfl, .of_eq rfl, rfl, fun _ _ => rfl, fun h => ?_⟩
  unfold LoadOK setRegister
  simp only [Function.update_of_ne hr.symm]
  exact h

theorem confined_finishLoad : Keeps confinement finishLoad := by
  intro m
  unfold finishLoad
  split
  · rename_i hlt
    refine ⟨rfl, .of_eq rfl, rfl, fun _ _ => rfl, fun h => ?_⟩
    -- the register written is a general purpose one
    have hne : loadReg ≠ ⟨(m.registers loadReg).toNat, hlt⟩ := by
      intro heq
      have hval := congrArg Fin.val heq
      simp only [loadReg] at hval
      simp only [LoadOK, loadReg] at h
      omega
    unfold LoadOK setRegister
    simp only [Function.update_of_ne hne]
    exact h
  · rename_i hge
    intro hm
    exact absurd (Nat.lt_trans hm.load (by decide)) hge

theorem confined_setLoad (r : Fin 32) :
    Keeps confinement (writeRegister loadReg (BitVec.ofNat 32 r)) := by
  apply keeps_modify
  intro m
  refine ⟨rfl, .of_eq rfl, rfl, fun _ _ => rfl, fun _ => ?_⟩
  have hr := r.isLt
  unfold LoadOK setRegister
  simp only [Function.update_self, BitVec.toNat_ofNat]
  omega

theorem confined_delayedLoad (r : Fin 32) (v : Word) : Keeps confinement (delayedLoad r v) := by
  refine confined_finishLoad.bind fun _ => (confined_setLoad r).bind fun _ => ?_
  refine (confined_writeRegister (by decide) v).bind fun _ => ?_
  exact confined_writeRegister (by decide) 0

theorem confined_raiseException {α : Type} (e : ExceptionType) (a : Word) :
    Keeps confinement (raiseException e a : Routine α) := by
  refine (confined_writeRegister (by decide) a).bind fun _ => ?_
  exact (confined_delayedLoad 0 0).bind fun _ => keeps_trap e

/-! ### Translation -/

/-- Setting the use and dirty bits of an entry keeps the mapping. -/
theorem mapping_set {table : List TranslationEntry} {i : Nat} {e e' : TranslationEntry}
    (hi : table[i]? = some e) (he : e'.mapping = e.mapping) :
    (table.set i e').map TranslationEntry.mapping = table.map TranslationEntry.mapping := by
  apply List.ext_getElem?
  intro j
  simp only [List.getElem?_map, List.getElem?_set]
  by_cases hij : i = j
  · subst hij
    obtain ⟨hlt, rfl⟩ := List.getElem?_eq_some_iff.mp hi
    simp [hlt, he]
  · simp [hij]

theorem toNat_mod_of_and {va : Word} {n : Nat} (hn : n < 32)
    (h : va &&& BitVec.ofNat 32 (2 ^ n - 1) = 0) : va.toNat % 2 ^ n = 0 := by
  have hpow : 2 ^ n < 2 ^ 32 := Nat.pow_lt_pow_right (by omega) hn
  have hval := congrArg BitVec.toNat h
  simp only [BitVec.toNat_and, BitVec.toNat_ofNat] at hval
  rw [Nat.mod_eq_of_lt (by omega), Nat.and_two_pow_sub_one_eq_mod] at hval
  exact hval

/-- A translation that succeeds: the entry it goes through, and the address it gives. -/
structure Translated (m : Machine) (va : Word) (size : Nat) (writing : Bool) (pa : Nat)
    (m' : Machine) : Prop where
  entry : ∃ table e e', m.pageTable = some table ∧ table[va.toNat / pageSize]? = some e ∧
    va.toNat / pageSize < m.pageTableSize ∧ e.valid = true ∧
    (e.readOnly && writing) = false ∧ e.physicalPage.toNat < numPhysPages ∧
    pa = e.physicalPage.toNat * pageSize + va.toNat % pageSize ∧ e'.mapping = e.mapping ∧
    m' = { m with pageTable := some (table.set (va.toNat / pageSize) e') }
  marks : OnlyMarks m m'
  aligned2 : size = 2 → va.toNat % 2 = 0
  aligned4 : size = 4 → va.toNat % 4 = 0

/-- A translation sets the bits of one entry. -/
theorem onlyMarks_set {m : Machine} {table : List TranslationEntry} {i : Nat} {e e' : TranslationEntry}
    (htable : m.pageTable = some table) (hi : table[i]? = some e) (he : Marked e e') :
    OnlyMarks m { m with pageTable := some (table.set i e') } := by
  intro table' j d htable' hd
  obtain rfl := Option.some.inj (htable'.symm.trans htable)
  by_cases hij : i = j
  · subst hij
    obtain rfl := Option.some.inj (hd.symm.trans hi)
    obtain ⟨hlt, -⟩ := List.getElem?_eq_some_iff.mp hi
    exact ⟨_, e', rfl, by simp [hlt], he⟩
  · exact ⟨_, d, rfl, by simp [hij, hd], Marked.refl d⟩

/-- How `translate` ends: with a fault, with an exception and the machine as it was, or with
an address. -/
theorem translate_cases (va : Word) (size : Nat) (writing : Bool) (m : Machine) :
    (∃ f, translate va size writing m = .fault f ∧ (InBounds m → f = .assertion)) ∨
      (∃ e, translate va size writing m = .done (.error e) m) ∨
      ∃ pa m', translate va size writing m = .done (.ok pa) m' ∧
        Translated m va size writing pa m' := by
  unfold translate
  by_cases haligned : (size = 4 ∧ va &&& 0x3 ≠ 0) ∨ (size = 2 ∧ va &&& 0x1 ≠ 0)
  · exact Or.inr (Or.inl ⟨_, if_pos haligned⟩)
  rw [if_neg haligned]
  cases htable : m.pageTable with
  | none => exact Or.inl ⟨_, rfl, fun _ => rfl⟩
  | some table =>
    simp only
    by_cases hsize : m.pageTableSize ≤ va.toNat / pageSize
    · exact Or.inr (Or.inl ⟨_, if_pos hsize⟩)
    rw [if_neg hsize]
    cases he : table[va.toNat / pageSize]? with
    | none =>
      refine Or.inl ⟨_, rfl, fun hm => ?_⟩
      have hlen := hm.table (table.map TranslationEntry.mapping) (by rw [mapping, htable]; rfl)
      rw [List.length_map] at hlen
      rw [List.getElem?_eq_none_iff] at he
      omega
    | some e =>
      simp only
      split_ifs with hvalid hreadOnly hframe hassert
      · exact Or.inr (Or.inl ⟨_, rfl⟩)
      · exact Or.inr (Or.inl ⟨_, rfl⟩)
      · exact Or.inr (Or.inl ⟨_, rfl⟩)
      · refine Or.inr (Or.inr ⟨_, _, rfl, ?_, ?_, ?_, ?_⟩)
        · refine ⟨table, e, { e with use := true, dirty := e.dirty || writing }, htable, he,
            by omega, by simpa using hvalid, by simpa using hreadOnly, by omega, rfl, rfl, rfl⟩
        · exact onlyMarks_set htable he ⟨rfl, fun _ => rfl, fun hdirty => by simp [hdirty]⟩
        · intro h2
          apply toNat_mod_of_and (n := 1) (by omega)
          by_contra hne
          exact haligned (Or.inr ⟨h2, hne⟩)
        · intro h4
          apply toNat_mod_of_and (n := 2) (by omega)
          by_contra hne
          exact haligned (Or.inl ⟨h4, hne⟩)
      · exact Or.inl ⟨_, rfl, fun _ => rfl⟩

/-- The bytes of an access lie in the frame of its entry. -/
theorem Translated.reaches {m m' : Machine} {va : Word} {size : Nat} {writing : Bool} {pa : Nat}
    (h : Translated m va size writing pa m') (hsize : size = 1 ∨ size = 2 ∨ size = 4) {a : Nat}
    (ha : pa ≤ a) (ha' : a < pa + size) : m.Reaches a := by
  obtain ⟨table, e, e', htable, he, hlt, -, -, -, rfl, -, -⟩ := h.entry
  refine ⟨table.map TranslationEntry.mapping, by rw [mapping, htable]; rfl, ?_⟩
  rw [maps_mapping]
  refine ⟨va.toNat / pageSize, e, hlt, he, ?_⟩
  have h2 := h.aligned2
  have h4 := h.aligned4
  unfold InFrame
  unfold pageSize at *
  omega

theorem Translated.confined {m m' : Machine} {va : Word} {size : Nat} {writing : Bool} {pa : Nat}
    (h : Translated m va size writing pa m') : Confined m m' := by
  have hmarks := h.marks
  obtain ⟨table, e, e', htable, he, -, -, -, -, -, hmapping, rfl⟩ := h.entry
  refine ⟨?_, hmarks, rfl, fun _ _ => rfl, id⟩
  unfold mapping
  rw [htable]
  exact congrArg some (mapping_set he hmapping)

/-- The machine after an access that wrote nothing: only use and dirty bits may differ. -/
structure Touched (m m' : Machine) : Prop where
  memory : m'.mainMemory = m.mainMemory
  registers : m'.registers = m.registers
  mapping : m'.mapping = m.mapping
  size : m'.pageTableSize = m.pageTableSize

theorem Touched.refl (m : Machine) : Touched m m := ⟨rfl, rfl, rfl, rfl⟩

theorem Touched.trans {m m' m'' : Machine} (h : Touched m m') (h' : Touched m' m'') :
    Touched m m'' :=
  ⟨h'.memory.trans h.memory, h'.registers.trans h.registers, h'.mapping.trans h.mapping,
    h'.size.trans h.size⟩

theorem Translated.touched {m m' : Machine} {va : Word} {size : Nat} {writing : Bool} {pa : Nat}
    (h : Translated m va size writing pa m') : Touched m m' := by
  refine ⟨?_, ?_, h.confined.mapping, h.confined.size⟩
  · obtain ⟨table, e, e', -, -, -, -, -, -, -, -, rfl⟩ := h.entry
    rfl
  · obtain ⟨table, e, e', -, -, -, -, -, -, -, -, rfl⟩ := h.entry
    rfl

theorem confined_translate (va : Word) (size : Nat) (writing : Bool) :
    Keeps confinement (translate va size writing) := by
  intro m
  rcases translate_cases va size writing m with ⟨f, h, hf⟩ | ⟨e, h⟩ | ⟨pa, m', h, htr⟩
  · rw [h]
    exact fun hm => by simp [hf hm]
  · rw [h]
    exact Confined.refl m
  · rw [h]
    exact htr.confined

theorem raiseException_not_done {α : Type} (e : ExceptionType) (a : Word) (m : Machine) (x : α)
    (m' : Machine) : raiseException e a m ≠ .done x m' := by
  show Program.bind (delayedLoad 0 0) (fun _ => Program.trap e) (m.setRegister badVAddrReg a) ≠ _
  unfold Program.bind
  cases delayedLoad 0 0 (m.setRegister badVAddrReg a) <;> simp [Program.trap]

theorem allows_assertion (m : Machine) : confinement.allows m .assertion := fun _ => by simp

theorem confined_readMem (addr : Word) (size : Nat) : Keeps confinement (readMem addr size) := by
  refine (confined_translate addr size false).bind fun r => ?_
  cases r with
  | error e => exact confined_raiseException e addr
  | ok pa =>
    show Keeps confinement (match size with
      | 1 => _ | 2 => _ | 4 => _ | _ => _)
    split
    · exact keeps_gets _
    · exact keeps_gets _
    · exact keeps_gets _
    · exact keeps_fault allows_assertion

/-- A write changes bytes of mapped frames only. -/
theorem confined_writeMem (addr : Word) (size : Nat) (value : Word) :
    Keeps confinement (writeMem addr size value) := by
  intro m
  show confinement.Admits m (Program.bind (translate addr size true) _ m)
  rcases translate_cases addr size true m with ⟨f, h, hf⟩ | ⟨e, h⟩ | ⟨pa, m', h, htr⟩
  · simp only [Program.bind, h]
    exact fun hm => by simp [hf hm]
  · simp only [Program.bind, h]
    exact confined_raiseException e addr m
  · simp only [Program.bind, h]
    refine Contract.Admits.of_rel (C := confinement) htr.confined ?_
    by_cases hsize : size = 1 ∨ size = 2 ∨ size = 4
    · rw [if_pos hsize]
      -- the bytes written are those of the access
      refine ⟨rfl, .of_eq rfl, rfl, fun a ha => ?_, id⟩
      apply Bytes.store_of_not_mem
      intro hmem
      exact ha ((htr.confined.reaches a).mpr (htr.reaches hsize hmem.1 hmem.2))
    · rw [if_neg hsize]
      exact allows_assertion m'

theorem readMem_touched {a : Word} {size : Nat} {m m' : Machine} {v : Word}
    (h : readMem a size m = .done v m') : Touched m m' := by
  obtain ⟨r, t, htr, hr⟩ := bind_eq_done h
  rcases translate_cases a size false m with ⟨f, hf, -⟩ | ⟨e, he⟩ | ⟨pa, m1, hpa, ht⟩
  · rw [hf] at htr
    cases htr
  · rw [he] at htr
    cases htr
    exact absurd hr (raiseException_not_done _ _ _ _ _)
  · rw [hpa] at htr
    cases htr
    have hsame : m' = t := by
      simp only at hr
      split at hr
      · cases hr
        rfl
      · cases hr
        rfl
      · cases hr
        rfl
      · cases hr
    rw [hsame]
    exact ht.touched

end Machine

end Nachos
