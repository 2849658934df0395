import Mathlib.Tactic.IntervalCases
import Nachos.Machine.UserSpace

/-!
# Virtual memory as an array of bytes

The simulated machine is little-endian, whatever the host is. `ReadMem` and `WriteMem`
(`translate.cc`) access main memory with the host's own words and convert them with
`WordToHost`, `ShortToHost` and their inverses, which swap the bytes when `HOST_IS_BIG_ENDIAN` is
defined. `readMemOn_eq` and `writeMemOn_eq`: the order of the host's bytes makes no difference, so
that the routines of `Machine.Memory` speak of both hosts.

`byteMemory`: for a page table that maps different pages to different frames, an access reads or
writes the bytes of its addresses and no others, or it raises an exception and leaves memory alone.
-/

namespace Nachos

open Bytes Programs Program

/-! ### The order of bytes on the host -/

/-- Whether `HOST_IS_BIG_ENDIAN` is defined. -/
inductive HostOrder
  | little
  | big
  deriving DecidableEq

def wordToHost : HostOrder → Word → Word
  | .little, word => word
  | .big, word =>
    ((word >>> 24) &&& 0x000000ff#32) ||| ((word >>> 8) &&& 0x0000ff00#32) |||
      ((word <<< 8) &&& 0x00ff0000#32) ||| ((word <<< 24) &&& 0xff000000#32)

def shortToHost : HostOrder → BitVec 16 → BitVec 16
  | .little, shortword => shortword
  | .big, shortword => ((shortword <<< 8) &&& 0xff00#16) ||| ((shortword >>> 8) &&& 0x00ff#16)

def wordToMachine (host : HostOrder) (word : Word) : Word := wordToHost host word

def shortToMachine (host : HostOrder) (shortword : BitVec 16) : BitVec 16 :=
  shortToHost host shortword

/-- The host's word of `n` bytes at an address. -/
def hostLoad {w : Nat} : HostOrder → Image → Nat → Nat → BitVec w
  | .little, memory, a, n => load memory a n
  | .big, memory, a, n => loadBig memory a n

/-- Memory after the host has written a word of `n` bytes. -/
def hostStore {w : Nat} : HostOrder → Image → Nat → Nat → BitVec w → Image
  | .little, memory, a, n, v => store memory a n v
  | .big, memory, a, n, v => storeBig memory a n v

namespace Machine

/-- `Machine::ReadMem` on a host with the given order of bytes. -/
def readMemOn (host : HostOrder) (addr : Word) (size : Nat) : Routine Word := do
  match ← translate addr size false with
  | .error e => raiseException e addr
  | .ok physicalAddress =>
    match size with
    | 1 => gets fun m => (m.mainMemory physicalAddress).signExtend 32
    | 2 => gets fun m => (shortToHost host (hostLoad host m.mainMemory physicalAddress 2)).setWidth 32
    | 4 => gets fun m => wordToHost host (hostLoad host m.mainMemory physicalAddress 4)
    | _ => fault .assertion

/-- `Machine::WriteMem` on a host with the given order of bytes. -/
def writeMemOn (host : HostOrder) (addr : Word) (size : Nat) (value : Word) : Routine Unit := do
  match ← translate addr size true with
  | .error e => raiseException e addr
  | .ok physicalAddress =>
    match size with
    | 1 => modify fun m => { m with
        mainMemory := Function.update m.mainMemory physicalAddress ((value &&& 0xff#32).setWidth 8) }
    | 2 => modify fun m => { m with
        mainMemory := hostStore host m.mainMemory physicalAddress 2
          (shortToMachine host ((value &&& 0xffff#32).setWidth 16)) }
    | 4 => modify fun m => { m with
        mainMemory := hostStore host m.mainMemory physicalAddress 4 (wordToMachine host value) }
    | _ => fault .assertion

end Machine

/-! ### Swapped bytes -/

theorem getLsbD_wordToHost (word : Word) {i : Nat} (hi : i < 32) :
    (wordToHost .big word).getLsbD i = word.getLsbD (8 * (3 - i / 8) + i % 8) := by
  unfold wordToHost
  interval_cases i <;> simp

theorem getLsbD_shortToHost (shortword : BitVec 16) {i : Nat} (hi : i < 16) :
    (shortToHost .big shortword).getLsbD i = shortword.getLsbD (8 * (1 - i / 8) + i % 8) := by
  unfold shortToHost
  interval_cases i <;> simp

theorem wordToHost_hostLoad (host : HostOrder) (memory : Image) (a : Nat) :
    wordToHost host (hostLoad host memory a 4) = load memory a 4 := by
  cases host with
  | little => rfl
  | big =>
    apply BitVec.eq_of_getLsbD_eq
    intro i hi
    have hswap : 4 - 1 - (8 * (3 - i / 8) + i % 8) / 8 = i / 8 := by omega
    have hbit : (8 * (3 - i / 8) + i % 8) % 8 = i % 8 := by omega
    rw [getLsbD_wordToHost _ hi, hostLoad, getLsbD_loadBig _ _ _ (by omega), getLsbD_load _ _ _ hi,
      hswap, hbit]
    simp [show i < 8 * 4 by omega, show 8 * (3 - i / 8) + i % 8 < 8 * 4 by omega]

theorem shortToHost_hostLoad (host : HostOrder) (memory : Image) (a : Nat) :
    (shortToHost host (hostLoad host memory a 2)).setWidth 32 = (load memory a 2 : Word) := by
  apply BitVec.eq_of_getLsbD_eq
  intro i hi
  rw [BitVec.getLsbD_setWidth, getLsbD_load _ _ _ hi]
  by_cases hlow : i < 16
  · cases host with
    | little =>
      rw [shortToHost, hostLoad, getLsbD_load _ _ _ hlow]
      simp [hi]
    | big =>
      have hswap : 2 - 1 - (8 * (1 - i / 8) + i % 8) / 8 = i / 8 := by omega
      have hbit : (8 * (1 - i / 8) + i % 8) % 8 = i % 8 := by omega
      rw [getLsbD_shortToHost _ hlow, hostLoad, getLsbD_loadBig _ _ _ (by omega), hswap, hbit]
      simp [hi, hlow, show 8 * (1 - i / 8) + i % 8 < 8 * 2 by omega]
  · have hhigh : (shortToHost host (hostLoad host memory a 2)).getLsbD i = false :=
      BitVec.getLsbD_of_ge _ _ (by omega)
    simp [hhigh, show ¬ i < 8 * 2 by omega]

theorem hostStore_wordToMachine (host : HostOrder) (memory : Image) (a : Nat) (value : Word) :
    hostStore host memory a 4 (wordToMachine host value) = store memory a 4 value := by
  cases host with
  | little => rfl
  | big =>
    refine storeBig_eq_of_bits memory a fun k hk i hi => ?_
    rw [wordToMachine, getLsbD_wordToHost _ (by omega)]
    congr 1
    omega

theorem getLsbD_half (value : Word) {i : Nat} (hi : i < 16) :
    ((value &&& 0xffff#32).setWidth 16).getLsbD i = value.getLsbD i := by
  interval_cases i <;> simp

theorem hostStore_shortToMachine (host : HostOrder) (memory : Image) (a : Nat) (value : Word) :
    hostStore host memory a 2 (shortToMachine host ((value &&& 0xffff#32).setWidth 16)) =
      store memory a 2 value := by
  cases host with
  | little => exact store_eq_of_bits memory a fun i hi => getLsbD_half value hi
  | big =>
    refine storeBig_eq_of_bits memory a fun k hk i hi => ?_
    rw [shortToMachine, getLsbD_shortToHost _ (by omega), getLsbD_half value (by omega)]
    congr 1
    omega

theorem update_lowByte (memory : Image) (a : Nat) (value : Word) :
    Function.update memory a ((value &&& 0xff#32).setWidth 8) = store memory a 1 value := by
  ext1 k
  unfold store
  by_cases hk : k = a
  · subst hk
    rw [Function.update_self, if_pos (by omega)]
    apply BitVec.eq_of_getLsbD_eq
    intro i hi
    rw [getLsbD_byte _ _ hi, Nat.sub_self]
    interval_cases i <;> simp
  · rw [Function.update_of_ne hk, if_neg (by omega)]

namespace Machine

/-! ### Both hosts -/

/-- `ReadMem` gives the same on both hosts. -/
theorem readMemOn_eq (host : HostOrder) (addr : Word) (size : Nat) :
    readMemOn host addr size = readMem addr size := by
  unfold readMemOn readMem
  refine congrArg _ (funext fun r => ?_)
  cases r with
  | error e => rfl
  | ok pa =>
    -- the sizes from 0 to 4, and the larger ones
    rcases size with _ | _ | _ | _ | _ | size
    · rfl
    · rfl
    · exact congrArg gets (funext fun m => shortToHost_hostLoad host m.mainMemory pa)
    · rfl
    · exact congrArg gets (funext fun m => wordToHost_hostLoad host m.mainMemory pa)
    · rfl

/-- `WriteMem` does the same on both hosts. -/
theorem writeMemOn_eq (host : HostOrder) (addr : Word) {size : Nat}
    (hsize : size = 1 ∨ size = 2 ∨ size = 4) (value : Word) :
    writeMemOn host addr size value = writeMem addr size value := by
  unfold writeMemOn writeMem
  refine congrArg _ (funext fun r => ?_)
  cases r with
  | error e => rfl
  | ok pa =>
    simp only [if_pos hsize, hostStore_shortToMachine, hostStore_wordToMachine, update_lowByte]
    rcases hsize with rfl | rfl | rfl <;> rfl

/-! ### Virtual bytes -/

/-- The entry for a virtual address, if the page table has one and it is valid. -/
def validEntry (m : Machine) (va : Word) : Option TranslationEntry :=
  m.mapping.bind fun table =>
    if va.toNat / pageSize < m.pageTableSize then
      (table[va.toNat / pageSize]?).filter fun e => e.valid
    else none

def mappedAddress (m : Machine) (va : Word) : Option Nat :=
  (m.validEntry va).map fun e => e.physicalPage.toNat * pageSize + va.toNat % pageSize

/-- The byte at a virtual address. -/
def virtualByte (m : Machine) (va : Word) : Option Byte := (m.mappedAddress va).map m.mainMemory

def Aligned (va : Word) (size : Nat) : Prop := va.toNat % size = 0

/-- The page table maps different valid pages to different frames of main memory. The delayed load
is one of a general purpose register. -/
structure DistinctFrames (m : Machine) : Prop where
  load : LoadOK m.registers
  table : ∃ table, m.mapping = some table ∧ m.pageTableSize ≤ table.length
  frame : ∀ va e, m.validEntry va = some e → e.physicalPage.toNat < numPhysPages
  distinct : ∀ va va' e e', m.validEntry va = some e → m.validEntry va' = some e' →
    e.physicalPage = e'.physicalPage → va.toNat / pageSize = va'.toNat / pageSize

section Virtual

variable {m m' : Machine} {va va' : Word} {size : Nat}

theorem SameSpace.validEntry (h : SameSpace m m') (va : Word) : m'.validEntry va = m.validEntry va := by
  unfold Machine.validEntry
  rw [h.mapping, h.size]

theorem SameSpace.mappedAddress (h : SameSpace m m') (va : Word) :
    m'.mappedAddress va = m.mappedAddress va := by
  unfold Machine.mappedAddress
  rw [h.validEntry]

theorem Touched.virtualByte (h : Touched m m') (va : Word) : m'.virtualByte va = m.virtualByte va := by
  unfold Machine.virtualByte
  rw [h.sameSpace.mappedAddress, h.memory]

theorem DistinctFrames.congr (hm : DistinctFrames m) (h : SameSpace m m') : DistinctFrames m' := by
  refine ⟨?_, ?_, ?_, ?_⟩
  · rw [h.registers]
    exact hm.load
  · rw [h.mapping, h.size]
    exact hm.table
  · simp only [h.validEntry]
    exact hm.frame
  · simp only [h.validEntry]
    exact hm.distinct

/-- Different virtual addresses have different bytes. -/
theorem DistinctFrames.mappedAddress_inj (hm : DistinctFrames m) {pa : Nat}
    (h : m.mappedAddress va = some pa) (h' : m.mappedAddress va' = some pa) : va = va' := by
  obtain ⟨e, he, hpa⟩ := Option.map_eq_some_iff.mp h
  obtain ⟨e', he', hpa'⟩ := Option.map_eq_some_iff.mp h'
  obtain ⟨hframe, heq⟩ := eq_of_address hpa hpa'
  exact heq (hm.distinct va va' e e' he he' hframe)

/-- The addresses of an aligned access follow each other in one page. -/
theorem toNat_add_of_aligned (hsize : size = 1 ∨ size = 2 ∨ size = 4) (ha : Aligned va size) {i : Nat}
    (hi : i < size) : (va + BitVec.ofNat 32 i).toNat = va.toNat + i ∧
      (va.toNat + i) / pageSize = va.toNat / pageSize ∧
      (va.toNat + i) % pageSize = va.toNat % pageSize + i := by
  have hlt := va.isLt
  unfold Aligned at ha
  unfold pageSize
  rw [BitVec.toNat_add, BitVec.toNat_ofNat]
  rcases hsize with rfl | rfl | rfl <;> omega

theorem mappedAddress_add (hsize : size = 1 ∨ size = 2 ∨ size = 4) (ha : Aligned va size) {i : Nat}
    (hi : i < size) {e : TranslationEntry} (he : m.validEntry va = some e) :
    m.mappedAddress (va + BitVec.ofNat 32 i) =
      some (e.physicalPage.toNat * pageSize + va.toNat % pageSize + i) := by
  obtain ⟨hadd, hpage, hoffset⟩ := toNat_add_of_aligned hsize ha hi
  have hsame : m.validEntry (va + BitVec.ofNat 32 i) = m.validEntry va := by
    unfold validEntry
    rw [hadd, hpage]
  unfold mappedAddress
  rw [hsame, he, hadd, hoffset, Option.map_some, Nat.add_assoc]

/-! ### Translation -/

theorem and_mask_eq_zero_iff {n : Nat} (hn : n < 32) :
    va &&& BitVec.ofNat 32 (2 ^ n - 1) = 0 ↔ va.toNat % 2 ^ n = 0 := by
  have hpow : 2 ^ n < 2 ^ 32 := Nat.pow_lt_pow_right (by omega) hn
  rw [← BitVec.toNat_inj, BitVec.toNat_and, BitVec.toNat_ofNat, Nat.mod_eq_of_lt (by omega),
    Nat.and_two_pow_sub_one_eq_mod]
  rfl

/-- The alignment check of `Translate`. -/
theorem misaligned_iff (hsize : size = 1 ∨ size = 2 ∨ size = 4) :
    ((size = 4 ∧ va &&& 0x3 ≠ 0) ∨ (size = 2 ∧ va &&& 0x1 ≠ 0)) ↔ ¬ Aligned va size := by
  have hfour : va &&& 0x3 = 0 ↔ va.toNat % 4 = 0 := and_mask_eq_zero_iff (n := 2) (by omega)
  have htwo : va &&& 0x1 = 0 ↔ va.toNat % 2 = 0 := and_mask_eq_zero_iff (n := 1) (by omega)
  unfold Aligned
  rw [ne_eq, ne_eq, hfour, htwo]
  rcases hsize with rfl | rfl | rfl <;> omega

/-- The page is not there, or it must not be written. -/
def Forbidden (m : Machine) (va : Word) (size : Nat) (writing : Bool) : Prop :=
  ¬ Aligned va size ∨ ∀ e, m.validEntry va = some e → (e.readOnly && writing) = true

/-- An aligned access through a valid entry that names a frame of main memory. -/
theorem translate_of_validEntry (hsize : size = 1 ∨ size = 2 ∨ size = 4) (ha : Aligned va size)
    {writing : Bool} {e : TranslationEntry} (he : m.validEntry va = some e)
    (hallowed : (e.readOnly && writing) = false) (hframe : e.physicalPage.toNat < numPhysPages) :
    ∃ m', translate va size writing m =
      .done (.ok (e.physicalPage.toNat * pageSize + va.toNat % pageSize)) m' ∧ Touched m m' := by
  obtain ⟨mapped, hmapped, he⟩ := Option.bind_eq_some_iff.mp he
  obtain ⟨table, htable, rfl⟩ := Option.map_eq_some_iff.mp hmapped
  obtain ⟨hbelow, he⟩ := Option.ite_none_right_eq_some.mp he
  obtain ⟨he, hvalid⟩ := Option.filter_eq_some_iff.mp he
  rw [List.getElem?_map] at he
  obtain ⟨e, hentry, rfl⟩ := Option.map_eq_some_iff.mp he
  have hvalid : e.valid = true := hvalid
  have hallowed : (e.readOnly && writing) = false := hallowed
  have hframe : e.physicalPage.toNat < numPhysPages := hframe
  have hfits : e.physicalPage.toNat * pageSize + va.toNat % pageSize + size ≤ memorySize := by
    unfold Aligned at ha
    unfold memorySize
    unfold numPhysPages pageSize at *
    rcases hsize with rfl | rfl | rfl <;> omega
  refine ⟨{ m with pageTable := some (table.set (va.toNat / pageSize)
    { e with use := true, dirty := e.dirty || writing }) }, ?_, rfl, rfl, ?_, rfl⟩
  · unfold translate
    rw [if_neg ((misaligned_iff hsize).not.mpr (not_not.mpr ha)), htable]
    simp only [if_neg (Nat.not_le_of_lt hbelow), hentry, hvalid, hallowed, Bool.not_true,
      Bool.false_eq_true, if_false, if_neg (Nat.not_le_of_lt hframe), if_pos hfits]
    rfl
  · unfold mapping
    rw [htable]
    exact congrArg some (mapping_set hentry rfl)

/-- How `Translate` ends: no ASSERT fails in it. -/
theorem DistinctFrames.translate_cases (hm : DistinctFrames m) (hsize : size = 1 ∨ size = 2 ∨ size = 4)
    (va : Word) (writing : Bool) :
    (∃ e m', Aligned va size ∧ m.validEntry va = some e ∧ (e.readOnly && writing) = false ∧
      translate va size writing m =
        .done (.ok (e.physicalPage.toNat * pageSize + va.toNat % pageSize)) m' ∧ Touched m m') ∨
      (Forbidden m va size writing ∧ ∃ e, e ≠ .syscall ∧ translate va size writing m = .done (.error e) m) := by
  by_cases hforbidden : Forbidden m va size writing
  · refine Or.inr ⟨hforbidden, ?_⟩
    unfold translate
    by_cases ha : Aligned va size
    · rw [if_neg ((misaligned_iff hsize).not.mpr (not_not.mpr ha))]
      have hrefused := hforbidden.resolve_left (not_not.mpr ha)
      obtain ⟨mapped, hmapped, hlen⟩ := hm.table
      obtain ⟨table, htable, rfl⟩ := Option.map_eq_some_iff.mp hmapped
      rw [List.length_map] at hlen
      rw [htable]
      simp only
      by_cases hbeyond : m.pageTableSize ≤ va.toNat / pageSize
      · rw [if_pos hbeyond]
        exact ⟨.addressError, by simp, rfl⟩
      rw [if_neg hbeyond]
      obtain ⟨e, he⟩ : ∃ e, table[va.toNat / pageSize]? = some e :=
        ⟨_, List.getElem?_eq_getElem (by omega)⟩
      rw [he]
      simp only
      cases hvalid : e.valid with
      | false => exact ⟨.pageFault, by simp, rfl⟩
      | true =>
        have hsome : m.validEntry va = some e.mapping := by
          unfold validEntry
          rw [hmapped, Option.bind_some, if_pos (Nat.lt_of_not_le hbeyond), List.getElem?_map, he,
            Option.map_some, Option.filter_some, show e.mapping.valid = true from hvalid]
          rfl
        have hreadOnly : (e.readOnly && writing) = true := hrefused e.mapping hsome
        rw [hreadOnly]
        exact ⟨.readOnly, by simp, rfl⟩
    · rw [if_pos ((misaligned_iff hsize).mpr ha)]
      exact ⟨.addressError, by simp, rfl⟩
  · unfold Forbidden at hforbidden
    push Not at hforbidden
    obtain ⟨ha, e, he, hallowed⟩ := hforbidden
    have hallowed : (e.readOnly && writing) = false := Bool.eq_false_iff.mpr hallowed
    obtain ⟨m', htr, ht⟩ := translate_of_validEntry hsize ha he hallowed (hm.frame va e he)
    exact Or.inl ⟨e, m', ha, he, hallowed, htr, ht⟩

end Virtual

/-! ### Accesses -/

/-- The byte `i` of a word. -/
def byteOf (v : Word) (i : Nat) : Byte := (v >>> (8 * i)).setWidth 8

/-- The bytes of a word that is loaded. -/
theorem byteOf_load (memory : Nat → Byte) (a : Nat) {n i : Nat} (hi : i < n) (hn : n ≤ 4) :
    byteOf (Bytes.load memory a n) i = memory (a + i) := by
  refine BitVec.eq_of_getLsbD_eq fun j hj => ?_
  unfold byteOf
  rw [getLsbD_byte _ _ hj, getLsbD_load _ _ _ (by omega), decide_eq_true (by omega), Bool.true_and,
    show (8 * i + j) / 8 = i by omega, show (8 * i + j) % 8 = j by omega]

/-- The access has read the bytes at its addresses, and changed none. -/
def ReadsBytes (m : Machine) (va : Word) (size : Nat) : Outcome Machine ExceptionType Fault Word → Prop
  | .done v m' => m'.mainMemory = m.mainMemory ∧
      ∀ i < size, m.virtualByte (va + BitVec.ofNat 32 i) = some (byteOf v i)
  | _ => False

/-- The access has written the bytes at its addresses, and no other ones. -/
def WritesBytes (m : Machine) (va : Word) (size : Nat) (v : Word) :
    Outcome Machine ExceptionType Fault Unit → Prop
  | .done _ m' => (∀ i < size, m'.virtualByte (va + BitVec.ofNat 32 i) = some (byteOf v i)) ∧
      ∀ va', (∀ i < size, va' ≠ va + BitVec.ofNat 32 i) → m'.virtualByte va' = m.virtualByte va'
  | _ => False

/-- What a call of `ReadMem` or `WriteMem` comes to for its caller. -/
inductive Return (α : Type)
  /-- It returns TRUE. -/
  | true (a : α) (m : Machine)
  /-- It returns FALSE. -/
  | false (m : Machine)
  | halted
  | aborted (f : Fault)

/-- After an exception the call returns FALSE when `ExceptionHandler` comes back; `handler` gives the
machine then, or `none` when it halts. -/
def returned {α : Type} (handler : ExceptionType → Machine → Option Machine) :
    Outcome Machine ExceptionType Fault α → Return α
  | .done a m => .true a m
  | .trap e m =>
    match handler e m with
    | some m' => .false m'
    | none => .halted
  | .fault f => .aborted f

/-- `ExceptionHandler`: every case but the one for system calls prints a line and calls
`interrupt->Halt()`. -/
def exceptionHandler (sysCall : Machine → Option Machine) : ExceptionType → Machine → Option Machine
  | .syscall, m => sysCall m
  | _, _ => none

/-- The access has raised an exception with main memory as it was. The call returns FALSE if the
handler comes back; the one of this kernel halts the machine. -/
structure Refused {α : Type} (m : Machine) (o : Outcome Machine ExceptionType Fault α) : Prop where
  raised : ∃ e m', o = .trap e m' ∧ m'.mainMemory = m.mainMemory ∧
    ∀ handler, returned handler o = match handler e m' with
      | some m'' => .false m''
      | none => .halted
  halts : ∀ sysCall, returned (exceptionHandler sysCall) o = .halted

section Accesses

variable {m : Machine} {va : Word} {size : Nat}

theorem DistinctFrames.refused_raiseException {α : Type} (hm : DistinctFrames m) {e : ExceptionType}
    (he : e ≠ .syscall) (a : Word) : Refused m ((raiseException e a : Routine α) m) := by
  have h : (m.registers loadReg).toNat < 40 := Nat.lt_of_lt_of_le hm.load (by decide)
  rw [raiseException_eq h]
  refine ⟨⟨e, _, rfl, rfl, fun handler => rfl⟩, fun sysCall => ?_⟩
  cases e with
  | syscall => exact absurd rfl he
  | _ => rfl

/-- `ReadMem`. -/
theorem DistinctFrames.readMem_cases (hm : DistinctFrames m) (hsize : size = 1 ∨ size = 2 ∨ size = 4)
    (va : Word) :
    (Aligned va size ∧ (∃ e, m.validEntry va = some e) ∧ ReadsBytes m va size (readMem va size m)) ∨
      (Forbidden m va size false ∧ Refused m (readMem va size m)) := by
  unfold readMem
  rcases hm.translate_cases hsize va false with ⟨e, m', ha, he, -, htr, ht⟩ | ⟨hforbidden, e, he, htr⟩
  · refine Or.inl ⟨ha, ⟨e, he⟩, ?_⟩
    rw [bind_done htr]
    have hbyte : ∀ i < size, m.virtualByte (va + BitVec.ofNat 32 i) =
        some (m'.mainMemory (e.physicalPage.toNat * pageSize + va.toNat % pageSize + i)) := by
      intro i hi
      unfold virtualByte
      rw [mappedAddress_add hsize ha hi he, Option.map_some, ht.memory]
    rcases hsize with rfl | rfl | rfl
    · refine ⟨ht.memory, fun i hi => ?_⟩
      obtain rfl : i = 0 := by omega
      rw [hbyte 0 hi]
      refine congrArg some (BitVec.eq_of_getLsbD_eq fun j hj => ?_)
      unfold byteOf
      rw [getLsbD_byte _ _ hj, BitVec.getLsbD_signExtend]
      simp [hj, show j < 32 by omega]
    · refine ⟨ht.memory, fun i hi => ?_⟩
      rw [hbyte i hi, byteOf_load _ _ hi (by omega)]
    · refine ⟨ht.memory, fun i hi => ?_⟩
      rw [hbyte i hi, byteOf_load _ _ hi (by omega)]
  · rw [bind_done htr]
    exact Or.inr ⟨hforbidden, hm.refused_raiseException he va⟩

/-- `WriteMem`. -/
theorem DistinctFrames.writeMem_cases (hm : DistinctFrames m) (hsize : size = 1 ∨ size = 2 ∨ size = 4)
    (va v : Word) :
    (Aligned va size ∧ (∃ e, m.validEntry va = some e ∧ e.readOnly = false) ∧
        (∃ m', writeMem va size v m = .done () m' ∧ SameSpace m m') ∧
        WritesBytes m va size v (writeMem va size v m)) ∨
      (Forbidden m va size true ∧ Refused m (writeMem va size v m)) := by
  unfold writeMem
  rcases hm.translate_cases hsize va true with
    ⟨e, m', ha, he, hwritable, htr, ht⟩ | ⟨hforbidden, e, he, htr⟩
  · rw [Bool.and_true] at hwritable
    rw [bind_done htr]
    simp only [if_pos hsize]
    generalize hpa : e.physicalPage.toNat * pageSize + va.toNat % pageSize = pa
    let m'' : Machine := { m' with mainMemory := store m'.mainMemory pa size v }
    have hsame : SameSpace m m'' := ⟨ht.mapping, ht.size, ht.registers⟩
    have haddress : ∀ i < size, m.mappedAddress (va + BitVec.ofNat 32 i) = some (pa + i) := by
      intro i hi
      rw [mappedAddress_add hsize ha hi he, hpa]
    refine Or.inl ⟨ha, ⟨e, he, hwritable⟩, ⟨m'', rfl, hsame⟩, fun i hi => ?_, fun va' hne => ?_⟩
    · show m''.virtualByte _ = _
      unfold virtualByte
      rw [hsame.mappedAddress, haddress i hi, Option.map_some]
      show some (store m'.mainMemory pa size v (pa + i)) = _
      unfold store
      rw [if_pos (by omega), Nat.add_sub_cancel_left]
      rfl
    · show m''.virtualByte _ = _
      unfold virtualByte
      rw [hsame.mappedAddress]
      cases hpa' : m.mappedAddress va' with
      | none => rfl
      | some pa' =>
        have houtside : ¬ (pa ≤ pa' ∧ pa' < pa + size) := by
          rintro ⟨hlo, hhi⟩
          have hat := haddress (pa' - pa) (by omega)
          rw [Nat.add_sub_cancel' hlo] at hat
          exact hne (pa' - pa) (by omega) (hm.mappedAddress_inj hpa' hat)
        refine congrArg some ((store_of_not_mem v houtside).trans ?_)
        rw [ht.memory]
  · rw [bind_done htr]
    exact Or.inr ⟨hforbidden, hm.refused_raiseException he va⟩

/-- The call returns FALSE, with main memory as it was. -/
def ReturnsFalse {α : Type} (m : Machine) (o : Outcome Machine ExceptionType Fault α) : Prop :=
  ∃ sysCall m', returned (exceptionHandler sysCall) o = .false m' ∧ m'.mainMemory = m.mainMemory

theorem Refused.not_returnsFalse {α : Type} {o : Outcome Machine ExceptionType Fault α}
    (h : Refused m o) : ¬ ReturnsFalse m o := by
  rintro ⟨sysCall, m', hfalse, -⟩
  rw [h.halts sysCall] at hfalse
  cases hfalse

/-- On either host, a page table that maps different pages to different frames makes virtual memory
an array of bytes with the lowest byte of a word first: no ASSERT of `Translate` fails, aligned
accesses to mapped pages read and write exactly their bytes, and all others are refused. -/
theorem byteMemory (host : HostOrder) (hm : DistinctFrames m) (hsize : size = 1 ∨ size = 2 ∨ size = 4)
    (va : Word) :
    (∀ writing, ∃ r m', translate va size writing m = .done r m') ∧
    (∀ e, Aligned va size → m.validEntry va = some e →
      ReadsBytes m va size (readMemOn host va size m) ∧
        (e.readOnly = false → ∀ v, WritesBytes m va size v (writeMemOn host va size v m))) ∧
    (¬ Aligned va size ∨ m.validEntry va = none → Refused m (readMemOn host va size m)) ∧
    (¬ Aligned va size ∨ m.validEntry va = none ∨ (∃ e, m.validEntry va = some e ∧ e.readOnly = true) →
      ∀ v, Refused m (writeMemOn host va size v m)) := by
  refine ⟨fun writing => ?_, fun e ha he => ⟨?_, fun hwritable v => ?_⟩, fun h => ?_, fun h v => ?_⟩
  · rcases hm.translate_cases hsize va writing with ⟨e, m', -, -, -, htr, -⟩ | ⟨-, e, -, htr⟩
    · exact ⟨_, m', htr⟩
    · exact ⟨_, m, htr⟩
  · rw [readMemOn_eq]
    rcases hm.readMem_cases hsize va with ⟨-, -, hreads⟩ | ⟨hforbidden, -⟩
    · exact hreads
    · rcases hforbidden with hna | hnone
      · exact absurd ha hna
      · have hfalse := hnone e he
        rw [Bool.and_false] at hfalse
        cases hfalse
  · rw [writeMemOn_eq host va hsize]
    rcases hm.writeMem_cases hsize va v with ⟨-, -, -, hwrites⟩ | ⟨hforbidden, -⟩
    · exact hwrites
    · rcases hforbidden with hna | hreadOnly
      · exact absurd ha hna
      · have hfalse := hreadOnly e he
        rw [hwritable, Bool.false_and] at hfalse
        cases hfalse
  · rw [readMemOn_eq]
    rcases hm.readMem_cases hsize va with ⟨ha, ⟨e, he⟩, -⟩ | ⟨-, hrefused⟩
    · rcases h with hna | hnone
      · exact absurd ha hna
      · rw [hnone] at he
        cases he
    · exact hrefused
  · rw [writeMemOn_eq host va hsize]
    rcases hm.writeMem_cases hsize va v with ⟨ha, ⟨e, he, hwritable⟩, -⟩ | ⟨-, hrefused⟩
    · rcases h with hna | hnone | ⟨e', he', hreadOnly⟩
      · exact absurd ha hna
      · rw [hnone] at he
        cases he
      · rw [he] at he'
        cases he'
        rw [hwritable] at hreadOnly
        cases hreadOnly
    · exact hrefused

end Accesses

/-- Page 0 is in frame 3 and page 1 in frame 1. -/
def twoPages (readOnly : Bool) : Machine where
  mainMemory := fun _ => 0
  registers := fun _ => 0
  pageTable := some [⟨0, 3, true, false, false, false⟩, ⟨1, 1, true, readOnly, false, false⟩]
  pageTableSize := 2

theorem validEntry_twoPages {readOnly : Bool} {va : Word} {e : TranslationEntry}
    (he : (twoPages readOnly).validEntry va = some e) :
    (va.toNat / pageSize = 0 ∧ e = ⟨0, 3, true, false, false, false⟩) ∨
      (va.toNat / pageSize = 1 ∧ e = ⟨1, 1, true, readOnly, false, false⟩) := by
  have hentry : (twoPages readOnly).validEntry va = if va.toNat / pageSize < 2 then
      ([⟨0, 3, true, false, false, false⟩, ⟨1, 1, true, readOnly, false, false⟩][va.toNat / pageSize]?).filter
        fun e => e.valid
      else none := rfl
  rw [hentry] at he
  obtain ⟨hlt, he⟩ := Option.ite_none_right_eq_some.mp he
  generalize va.toNat / pageSize = vpn at *
  obtain rfl | rfl : vpn = 0 ∨ vpn = 1 := by omega
  · cases he
    exact Or.inl ⟨rfl, rfl⟩
  · cases he
    exact Or.inr ⟨rfl, rfl⟩

theorem distinctFrames_twoPages (readOnly : Bool) : DistinctFrames (twoPages readOnly) := by
  have hload : LoadOK (twoPages readOnly).registers := show (0 : Word).toNat < 32 by decide
  have hne : (3 : Word) ≠ 1 := by decide
  refine ⟨hload, ⟨_, rfl, Nat.le_refl 2⟩, fun va e he => ?_, fun va va' e e' he he' hframe => ?_⟩
  · rcases validEntry_twoPages he with ⟨-, rfl⟩ | ⟨-, rfl⟩
    · exact show (3 : Word).toNat < numPhysPages by decide
    · exact show (1 : Word).toNat < numPhysPages by decide
  · rcases validEntry_twoPages he with ⟨hpage, rfl⟩ | ⟨hpage, rfl⟩
    · rcases validEntry_twoPages he' with ⟨hpage', rfl⟩ | ⟨-, rfl⟩
      · exact hpage.trans hpage'.symm
      · exact absurd hframe hne
    · rcases validEntry_twoPages he' with ⟨-, rfl⟩ | ⟨hpage', rfl⟩
      · exact absurd hframe hne.symm
      · exact hpage.trans hpage'.symm

/-- A word written on a big-endian host, and one that must not be. -/
theorem byteMemory_twoPages :
    WritesBytes (twoPages true) 4 4 0x11223344 (writeMemOn .big 4 4 0x11223344 (twoPages true)) ∧
      Refused (twoPages true) (writeMemOn .big 516 4 0x11223344 (twoPages true)) := by
  have hentry : (twoPages true).validEntry 4 = some ⟨0, 3, true, false, false, false⟩ := by decide
  have hentry' : (twoPages true).validEntry 516 = some ⟨1, 1, true, true, false, false⟩ := by decide
  have hsize : 4 = 1 ∨ 4 = 2 ∨ 4 = 4 := by omega
  obtain ⟨-, haccess, -, -⟩ := byteMemory .big (distinctFrames_twoPages true) hsize 4
  obtain ⟨-, -, -, hrefused⟩ := byteMemory .big (distinctFrames_twoPages true) hsize 516
  refine ⟨(haccess _ (by unfold Aligned; decide) hentry).2 rfl _, ?_⟩
  exact hrefused (Or.inr (Or.inr ⟨_, hentry', rfl⟩)) _

/-- An access that is not aligned does not return. -/
theorem not_returnsFalse_unaligned :
    DistinctFrames (twoPages true) ∧ ¬ Aligned 1 4 ∧
      ¬ ReturnsFalse (twoPages true) (readMemOn .little 1 4 (twoPages true)) := by
  have hna : ¬ Aligned 1 4 := by
    unfold Aligned
    decide
  refine ⟨distinctFrames_twoPages true, hna, ?_⟩
  rw [readMemOn_eq]
  have hsize : 4 = 1 ∨ 4 = 2 ∨ 4 = 4 := by omega
  rcases (distinctFrames_twoPages true).readMem_cases hsize 1 with ⟨ha, -⟩ | ⟨-, hrefused⟩
  · exact absurd ha hna
  · exact hrefused.not_returnsFalse

end Machine

end Nachos
