import Nachos.Lib.CString
import Nachos.Threads.Conservation
import Nachos.Threads.Effects
import Nachos.Userprog.BitMap

/-!
# Named semaphores: `STable` and its system calls

The semaphore table of `userprog/table.cc` with the handlers of `SC_CreateSemaphore`, `SC_Up`
and `SC_Down` in `userprog/exception.cc`, on top of the thread system. `Create` finds names
through the bitmap and would follow a null pointer where a bit is set and the entry is not;
`Wait` and `Signal` find them through the entries.

Nothing between the start of one of these calls and its `P` or `V` turns interrupts on, so
that part is one step. A thread whose `P` or `V` has returned is still in its system call
until the handler writes `r2` (`Label.ret`). Every other thread, and every interrupt, may do
anything in between, but only `Wait` and `Signal` reach the semaphores of the table.

`SemTable.spec_throughout` is the specification of the three operations in every reachable
state.
-/

namespace Nachos.Userprog.SemTable

open Function (update update_of_ne update_self)
open Threads (Kernel SemId Tid Inv Unforked)
open Bytes (Str strcmp strcmp_eq_zero)

/-- `MAX_SEMAPHORES`. -/
def maxSemaphores : Nat := 10

/-- What the table knows of a `Semaphore`: the copy of its name, and the object. -/
structure Entry where
  name : Str
  sem : SemId
  deriving DecidableEq

/-- `STable` of `table.h`. -/
structure STable where
  bm : BitMap
  semTab : Nat → Option Entry

namespace STable

/-- `STable::STable`. -/
def new : STable where
  bm := BitMap.new maxSemaphores
  semTab := fun _ => none

variable (tab : STable) (name : Str)

/-- The loop of `Create` over the slots `is`: whether the name is there. `none` is an access
through a null pointer. -/
def nameTaken : List Nat → Option Bool
  | [] => some false
  | i :: is =>
    if tab.bm.test i then
      match tab.semTab i with
      | none => none
      | some e => if strcmp e.name name = 0 then some true else nameTaken is
    else nameTaken is

/-- The loop of `Wait` and `Signal`: the first entry with the name. -/
def lookup : Option Entry :=
  (List.range maxSemaphores).findSome? fun i =>
    match tab.semTab i with
    | none => none
    | some e => if strcmp e.name name = 0 then some e else none

/-- The object is one of the table's. -/
def owns (sem : SemId) : Bool :=
  (List.range maxSemaphores).any fun i => (tab.semTab i).any fun e => e.sem = sem

end STable

/-- The system call in whose `P` or `V` a thread is. -/
inductive SemCall where
  | down (sem : SemId)
  | up (sem : SemId)
  deriving DecidableEq, Repr

structure System where
  kernel : Kernel
  table : STable
  pending : Tid → Option SemCall
  /-- The register `r2` of each thread. -/
  r2 : Tid → Int
  /-- A null pointer has been followed. -/
  undefined : Bool
  /-- History: the `SC_Down` calls on a semaphore that have returned `0`. -/
  downs : SemId → Nat
  /-- History: the `SC_Up` calls on a semaphore that have done their `V`. -/
  ups : SemId → Nat

/-- After `Initialize`. -/
def boot : System where
  kernel := Threads.boot
  table := .new
  pending := fun _ => none
  r2 := fun _ => 0
  undefined := false
  downs := fun _ => 0
  ups := fun _ => 0

namespace System

variable (s : System)

/-- `semTab[ID] = new Semaphore(name, init); bm->Mark(ID);` after `FindFreeSlot` gave `id` and
the bitmap `bm`. -/
@[simps -fullyApplied] def insert (name : Str) (init : Int) (id : Nat) (bm : BitMap) : System :=
  { s with
    kernel := s.kernel.newSemaphore init
    table :=
      { bm := bm.mark id
        semTab := update s.table.semTab id (some ⟨name, s.kernel.numSems⟩) } }

/-- `STable::Create`; `none` is an access through a null pointer. -/
def create (name : Str) (init : Int) : Option (Int × System) :=
  match s.table.nameTaken name (List.range maxSemaphores) with
  | none => none
  | some true => some (-1, s)
  | some false =>
    match s.table.bm.findFreeSlot with
    | (none, bm) => some (-1, { s with table := { s.table with bm := bm } })
    | (some id, bm) => some (id, s.insert name init id bm)

/-- `STable::Wait`, up to the point where `P` has passed or sleeps: what it returns, if it has
returned. -/
def wait (name : Str) : Option Int × System :=
  match s.table.lookup name with
  | none => (some (-1), s)
  | some e =>
    (none, { s with
      kernel := s.kernel.P e.sem
      pending := update s.pending s.kernel.currentThread (some (.down e.sem)) })

/-- `STable::Signal`, up to the end of `V`: what it returns, if it has returned. -/
def signal (name : Str) : Option Int × System :=
  match s.table.lookup name with
  | none => (some (-1), s)
  | some e =>
    (none, { s with
      kernel := s.kernel.V e.sem
      pending := update s.pending s.kernel.currentThread (some (.up e.sem))
      ups := update s.ups e.sem (s.ups e.sem + 1) })

/-- `machine->WriteRegister(2, v)` in the current thread. -/
@[simps -fullyApplied] def writeResult (v : Int) : System :=
  { s with r2 := update s.r2 s.kernel.currentThread v }

/-- The handler of `SC_CreateSemaphore`. -/
def scCreateSemaphore (name : Str) (semval : BitVec 32) : System :=
  match s.create name semval.toInt with
  | none => { s with undefined := true }
  | some (id, s') => if id ≠ -1 then s'.writeResult 0 else s'.writeResult (-1)

/-- The handlers of `SC_Up` and `SC_Down`, up to the end of `V` or `P`. -/
def afterCall : Option Int × System → System
  | (none, s') => s'
  | (some r, s') => if r ≠ -1 then s'.writeResult 0 else s'.writeResult (-1)

/-- The rest of the handler of `SC_Up` or `SC_Down`, after `V` or `P`. -/
def finishCall (c : SemCall) : System :=
  { s.writeResult 0 with
    pending := update s.pending s.kernel.currentThread none
    downs := match c with
      | .down sem => update s.downs sem (s.downs sem + 1)
      | .up _ => s.downs }

/-- The current thread runs code of its own and is in no system call of the table. -/
def idleCode : Bool :=
  s.undefined = false ∧ s.kernel.inCode ∧ s.pending s.kernel.currentThread = none

end System

/-- The semaphore that a step of the thread system names. -/
def semOf : Threads.Label → Option SemId
  | .p sem | .v sem | .handlerV sem => some sem
  | _ => none

/-- The step is an operation of the current thread's own code. -/
def ownCode : Threads.Label → Bool
  | .newThread | .fork _ | .newSemaphore _ | .p _ | .v _ | .yield | .finish => true
  | .handlerV _ | .timerYield | .resume | .idle | .halt => false

inductive Label where
  | createSemaphore (name : Str) (semval : BitVec 32)
  | up (name : Str)
  | down (name : Str)
  /-- The system call of the current thread returns after its `P` or `V`. -/
  | ret
  /-- Anything else a thread or an interrupt does. -/
  | kernel (l : Threads.Label)
  deriving DecidableEq

/-- A step of the thread system that is not one of the table's. -/
def System.allows (s : System) (l : Threads.Label) : Bool :=
  s.undefined = false ∧ (semOf l).all (fun sem => !s.table.owns sem) ∧
    (ownCode l → s.pending s.kernel.currentThread = none)

/-- The step function. -/
def step (s : System) : Label → Option System
  | .createSemaphore name semval =>
    if s.idleCode then some (s.scCreateSemaphore name semval) else none
  | .up name => if s.idleCode then some (System.afterCall (s.signal name)) else none
  | .down name => if s.idleCode then some (System.afterCall (s.wait name)) else none
  | .ret =>
    if s.undefined = false ∧ s.kernel.inCode then
      (s.pending s.kernel.currentThread).map s.finishCall
    else none
  | .kernel l =>
    if s.allows l then (Threads.step s.kernel l).map fun k => { s with kernel := k } else none

/-! ## Finding names -/

/-- Slot `i` holds `e`. -/
def STable.At (tab : STable) (i : Nat) (e : Entry) : Prop :=
  i < maxSemaphores ∧ tab.semTab i = some e

/-- Some semaphore of the table has the name. -/
def STable.Present (tab : STable) (name : Str) : Prop := ∃ i e, tab.At i e ∧ e.name = name

/-- All slots are taken. -/
def STable.Full (tab : STable) : Prop := ∀ i < maxSemaphores, ∃ e, tab.semTab i = some e

/-- The bits say which entries are there, and no name and no object is there twice. -/
structure TableInv (tab : STable) (numSems : Nat) : Prop where
  size : tab.bm.numBits = maxSemaphores
  bits : ∀ i < maxSemaphores, tab.bm.test i = (tab.semTab i).isSome
  names : ∀ {i j e e'}, tab.At i e → tab.At j e' → e.name = e'.name → i = j
  sems : ∀ {i j e e'}, tab.At i e → tab.At j e' → e.sem = e'.sem → i = j
  created : ∀ {i e}, tab.At i e → e.sem < numSems

section Table

variable {tab : STable} {name : Str} {n : Nat}

theorem owns_iff {sem : SemId} : tab.owns sem = true ↔ ∃ i e, tab.At i e ∧ e.sem = sem := by
  unfold STable.owns
  rw [List.any_eq_true]
  constructor
  · rintro ⟨i, hi, hany⟩
    cases he : tab.semTab i with
    | none => simp [he] at hany
    | some e =>
      rw [he] at hany
      exact ⟨i, e, ⟨List.mem_range.mp hi, he⟩, by simpa using hany⟩
  · rintro ⟨i, e, ⟨hi, he⟩, hsem⟩
    exact ⟨i, List.mem_range.mpr hi, by simp [he, hsem]⟩

/-- Where bits and entries agree, the loop of `Create` follows no null pointer and decides
whether the name is there. -/
theorem nameTaken_spec (name : Str) {is : List Nat} (hbits : ∀ i ∈ is, tab.bm.test i = (tab.semTab i).isSome) :
    ∃ b, tab.nameTaken name is = some b ∧
      (b = true ↔ ∃ i ∈ is, ∃ e, tab.semTab i = some e ∧ e.name = name) := by
  induction is with
  | nil => exact ⟨false, rfl, by simp⟩
  | cons i is ih =>
    obtain ⟨b, hb, hiff⟩ := ih fun j hj => hbits j (List.mem_cons_of_mem _ hj)
    have hbit := hbits i List.mem_cons_self
    unfold STable.nameTaken
    cases he : tab.semTab i with
    | none =>
      rw [he] at hbit
      refine ⟨b, by simp [hbit, hb], ?_⟩
      simp [he, hiff]
    | some e =>
      rw [he] at hbit
      by_cases hname : e.name = name
      · refine ⟨true, by simp [hbit, (strcmp_eq_zero e.name name).mpr hname], ?_⟩
        simp [he, hname]
      · have hcmp : strcmp e.name name ≠ 0 := fun h => hname ((strcmp_eq_zero _ _).mp h)
        refine ⟨b, by simp [hbit, hcmp, hb], ?_⟩
        simp [he, hname, hiff]

theorem TableInv.nameTaken (h : TableInv tab n) (name : Str) :
    ∃ b, tab.nameTaken name (List.range maxSemaphores) = some b ∧ (b = true ↔ tab.Present name) := by
  have hbits : ∀ i ∈ List.range maxSemaphores, tab.bm.test i = (tab.semTab i).isSome :=
    fun i hi => h.bits i (List.mem_range.mp hi)
  obtain ⟨b, hb, hiff⟩ := nameTaken_spec name hbits
  refine ⟨b, hb, hiff.trans ⟨?_, ?_⟩⟩
  · rintro ⟨i, hi, e, he, hname⟩
    exact ⟨i, e, ⟨List.mem_range.mp hi, he⟩, hname⟩
  · rintro ⟨i, e, ⟨hi, he⟩, hname⟩
    exact ⟨i, List.mem_range.mpr hi, e, he, hname⟩

theorem lookup_some {e : Entry} (h : tab.lookup name = some e) : ∃ i, tab.At i e ∧ e.name = name := by
  obtain ⟨i, hi, hf⟩ := List.exists_of_findSome?_eq_some h
  cases he : tab.semTab i with
  | none => simp [he] at hf
  | some e' =>
    rw [he] at hf
    obtain ⟨hcmp, rfl⟩ := Option.ite_some_none_eq_some.mp hf
    exact ⟨i, ⟨List.mem_range.mp hi, he⟩, (strcmp_eq_zero _ _).mp hcmp⟩

theorem lookup_none (h : ¬ tab.Present name) : tab.lookup name = none := by
  cases hl : tab.lookup name with
  | none => rfl
  | some e =>
    obtain ⟨i, hat, hname⟩ := lookup_some hl
    exact absurd ⟨i, e, hat, hname⟩ h

theorem lookup_of_present (h : tab.Present name) : ∃ e, tab.lookup name = some e := by
  obtain ⟨i, e, ⟨hi, he⟩, hname⟩ := h
  cases hl : tab.lookup name with
  | some e => exact ⟨e, rfl⟩
  | none =>
    have hnone := List.findSome?_eq_none_iff.mp hl i (List.mem_range.mpr hi)
    simp [he, (strcmp_eq_zero e.name name).mpr hname] at hnone

/-- `Wait` and `Signal` find the one entry of a name. -/
theorem TableInv.lookup_eq (h : TableInv tab n) {i : Nat} {e : Entry} (hat : tab.At i e) :
    tab.lookup e.name = some e := by
  have hp : tab.Present e.name := ⟨i, e, hat, rfl⟩
  obtain ⟨e', hl⟩ := lookup_of_present hp
  obtain ⟨j, hat', hname⟩ := lookup_some hl
  obtain rfl := h.names hat hat' hname.symm
  rw [hl, ← hat'.2, hat.2]

theorem lookup_owns {e : Entry} (h : tab.lookup name = some e) : tab.owns e.sem = true := by
  obtain ⟨i, hat, -⟩ := lookup_some h
  exact owns_iff.mpr ⟨i, e, hat, rfl⟩

theorem TableInv.mono (h : TableInv tab n) {m : Nat} (hnm : n ≤ m) : TableInv tab m :=
  ⟨h.size, h.bits, h.names, h.sems, fun hat => Nat.lt_of_lt_of_le (h.created hat) hnm⟩

theorem tableInv_new : TableInv .new 0 := by
  refine ⟨rfl, fun i _ => by simp [STable.new], ?_, ?_, ?_⟩
  · rintro i j e e' ⟨-, he⟩
    cases he
  · rintro i j e e' ⟨-, he⟩
    cases he
  · rintro i e ⟨-, he⟩
    cases he

/-- Filling a free slot with a new name and a new object. -/
theorem TableInv.insert (h : TableInv tab n) {id : Nat} (hid : id < maxSemaphores)
    (hname : ¬ tab.Present name) :
    TableInv
      { bm := (tab.bm.mark id).mark id, semTab := update tab.semTab id (some ⟨name, n⟩) } (n + 1) := by
  have hrange : id < tab.bm.numBits := by
    rw [h.size]
    exact hid
  -- an entry of the new table is the new one or an old one
  have hcases : ∀ {i e}, STable.At ⟨(tab.bm.mark id).mark id,
      update tab.semTab id (some ⟨name, n⟩)⟩ i e → (i = id ∧ e = ⟨name, n⟩) ∨ (i ≠ id ∧ tab.At i e) := by
    rintro i e ⟨hi, he⟩
    by_cases hii : i = id
    · subst hii
      simp only [update_self, Option.some.injEq] at he
      exact Or.inl ⟨rfl, he.symm⟩
    · simp only [update_of_ne hii] at he
      exact Or.inr ⟨hii, hi, he⟩
  refine ⟨h.size, ?_, ?_, ?_, ?_⟩
  · intro i hi
    show ((tab.bm.mark id).mark id).test i = (update tab.semTab id (some ⟨name, n⟩) i).isSome
    rw [BitMap.test_mark _ (by simpa using hrange), BitMap.test_mark _ hrange, h.bits i hi]
    by_cases hii : i = id
    · subst hii
      simp
    · simp [hii]
  · intro i j e e' hat hat' heq
    rcases hcases hat with ⟨rfl, rfl⟩ | ⟨-, hold⟩ <;>
      rcases hcases hat' with ⟨rfl, rfl⟩ | ⟨-, hold'⟩
    · rfl
    · exact absurd ⟨j, e', hold', heq.symm⟩ hname
    · exact absurd ⟨i, e, hold, heq⟩ hname
    · exact h.names hold hold' heq
  · intro i j e e' hat hat' heq
    rcases hcases hat with ⟨rfl, rfl⟩ | ⟨-, hold⟩ <;>
      rcases hcases hat' with ⟨rfl, rfl⟩ | ⟨-, hold'⟩
    · rfl
    · exact absurd (h.created hold') (by rw [← heq]; simp)
    · exact absurd (h.created hold) (by rw [heq]; simp)
    · exact h.sems hold hold' heq
  · intro i e hat
    rcases hcases hat with ⟨rfl, rfl⟩ | ⟨-, hold⟩
    · exact Nat.lt_succ_self n
    · exact Nat.lt_succ_of_lt (h.created hold)

end Table

/-! ## The operations -/

/-- What holds in every reachable state. -/
structure SysInv (s : System) : Prop where
  kernel : Inv s.kernel
  unforked : Unforked s.kernel
  table : TableInv s.table s.kernel.numSems
  defined : s.undefined = false

section Operations

variable {s : System} {name : Str}

/-- The three outcomes of `Create`. -/
theorem create_cases (h : TableInv s.table s.kernel.numSems) (name : Str) (init : Int) :
    (s.table.Present name ∧ s.create name init = some (-1, s)) ∨
    (¬ s.table.Present name ∧ s.table.Full ∧ s.create name init = some (-1, s)) ∨
    (¬ s.table.Present name ∧ ∃ id < maxSemaphores, s.table.semTab id = none ∧
      s.create name init = some ((id : Int), s.insert name init id (s.table.bm.mark id))) := by
  obtain ⟨b, hb, hiff⟩ := h.nameTaken name
  cases b with
  | true => exact Or.inl ⟨hiff.mp rfl, by simp [System.create, hb]⟩
  | false =>
    have hnew : ¬ s.table.Present name := fun hp => by simpa using hiff.mpr hp
    rcases BitMap.find_cases s.table.bm with ⟨id, hid, hclear, hfind⟩ | ⟨hset, hfind⟩
    · rw [h.size] at hid
      refine Or.inr (Or.inr ⟨hnew, id, hid, ?_, ?_⟩)
      · simpa [hclear] using h.bits id hid
      · simp only [System.create, hb, BitMap.findFreeSlot_eq_find, hfind]
    · refine Or.inr (Or.inl ⟨hnew, ?_, ?_⟩)
      · intro i hi
        have hbit := h.bits i hi
        rw [hset i (by rw [h.size]; exact hi)] at hbit
        exact Option.isSome_iff_exists.mp hbit.symm
      · simp only [System.create, hb, BitMap.findFreeSlot_eq_find, hfind]

theorem wait_absent (h : ¬ s.table.Present name) : s.wait name = (some (-1), s) := by
  unfold System.wait
  rw [lookup_none h]

theorem signal_absent (h : ¬ s.table.Present name) : s.signal name = (some (-1), s) := by
  unfold System.signal
  rw [lookup_none h]

theorem P_sems_of_ne (k : Kernel) {sem sem' : SemId} (hne : sem' ≠ sem) :
    (k.P sem).sems sem' = k.sems sem' := by
  unfold Kernel.P Kernel.testP
  split
  · unfold Kernel.sleep
    rw [Threads.dispatch_sems]
    simp [Kernel.setThread, Kernel.setSem, hne]
  · simp [Kernel.continueAt, Kernel.setThread, Kernel.setSem, hne]

theorem V_sems_of_ne (k : Kernel) {sem sem' : SemId} (hne : sem' ≠ sem) :
    (k.V sem).sems sem' = k.sems sem' := by
  cases hq : (k.sems sem).queue with
  | nil =>
    rw [Threads.Kernel.V_of_nil hq]
    simp [Kernel.setSem, hne]
  | cons t rest =>
    rw [Threads.Kernel.V_of_cons hq]
    simp [Kernel.readyToRun, Kernel.setThread, Kernel.setSem, hne]

/-! ## Steps -/

theorem numSems_P (k : Kernel) (sem : SemId) : (k.P sem).numSems = k.numSems := by
  have hview := congrArg Threads.View.numSems (Threads.view_P (k := k) sem)
  refine hview.trans ?_
  unfold Kernel.testEffect
  split <;> rfl

theorem numSems_V (k : Kernel) (sem : SemId) : (k.V sem).numSems = k.numSems :=
  congrArg Threads.View.numSems (Threads.view_V (k := k) sem)

theorem numSems_step {k k' : Kernel} {l : Threads.Label} (hi : Inv k) (hu : Unforked k)
    (hstep : Threads.step k l = some k') : k.numSems ≤ k'.numSems := by
  have hview := congrArg Threads.View.numSems (Threads.view_step hi hu hstep)
  have hle : k.numSems ≤ (k.view.apply (k.effect l)).numSems := by
    cases k.effect l with
    | create v => exact Nat.le_succ _
    | _ => exact Nat.le_refl _
  exact Nat.le_trans hle (Nat.le_of_eq hview.symm)

theorem idleCode_iff : s.idleCode = true ↔
    s.undefined = false ∧ s.kernel.inCode = true ∧ s.pending s.kernel.currentThread = none := by
  simp [System.idleCode]

theorem allows_iff {l : Threads.Label} : s.allows l = true ↔
    s.undefined = false ∧ (∀ sem, semOf l = some sem → s.table.owns sem = false) ∧
      (ownCode l = true → s.pending s.kernel.currentThread = none) := by
  simp [System.allows, Option.all_eq_true, imp_iff_not_or]

/-- What a step can do. -/
theorem step_cases {s' : System} {l : Label} (h : SysInv s) (hstep : step s l = some s') :
    (∃ name semval, l = .createSemaphore name semval ∧ s.idleCode = true ∧
      (s.create name semval.toInt = some (-1, s) ∧ s' = s.writeResult (-1) ∨
        ∃ id < maxSemaphores, ¬ s.table.Present name ∧ s.table.semTab id = none ∧
          s.create name semval.toInt =
            some ((id : Int), s.insert name semval.toInt id (s.table.bm.mark id)) ∧
          s' = (s.insert name semval.toInt id (s.table.bm.mark id)).writeResult 0)) ∨
    (∃ name, (l = .up name ∨ l = .down name) ∧ s.table.lookup name = none ∧
      s' = s.writeResult (-1)) ∨
    (∃ name e, l = .up name ∧ s.idleCode = true ∧ s.table.lookup name = some e ∧
      s' = (s.signal name).2) ∨
    (∃ name e, l = .down name ∧ s.idleCode = true ∧ s.table.lookup name = some e ∧
      s' = (s.wait name).2) ∨
    (∃ c, l = .ret ∧ s.kernel.inCode = true ∧ s.pending s.kernel.currentThread = some c ∧
      s' = s.finishCall c) ∨
    (∃ l' k', l = .kernel l' ∧ s.allows l' = true ∧ Threads.step s.kernel l' = some k' ∧
      s' = { s with kernel := k' }) := by
  cases l with
  | createSemaphore name semval =>
    obtain ⟨hc, rfl⟩ := Option.ite_some_none_eq_some.mp hstep
    refine Or.inl ⟨name, semval, rfl, hc, ?_⟩
    rcases create_cases h.table name semval.toInt with
      ⟨-, hcr⟩ | ⟨-, -, hcr⟩ | ⟨hnew, id, hid, hfree, hcr⟩
    · exact Or.inl ⟨hcr, by simp [System.scCreateSemaphore, hcr]⟩
    · exact Or.inl ⟨hcr, by simp [System.scCreateSemaphore, hcr]⟩
    · refine Or.inr ⟨id, hid, hnew, hfree, hcr, ?_⟩
      have hid' : (id : Int) ≠ -1 := by omega
      simp [System.scCreateSemaphore, hcr, hid']
  | up name =>
    obtain ⟨hc, rfl⟩ := Option.ite_some_none_eq_some.mp hstep
    cases hl : s.table.lookup name with
    | none =>
      refine Or.inr (Or.inl ⟨name, Or.inl rfl, hl, ?_⟩)
      simp [System.signal, hl, System.afterCall]
    | some e =>
      refine Or.inr (Or.inr (Or.inl ⟨name, e, rfl, hc, hl, ?_⟩))
      simp [System.signal, hl, System.afterCall]
  | down name =>
    obtain ⟨hc, rfl⟩ := Option.ite_some_none_eq_some.mp hstep
    cases hl : s.table.lookup name with
    | none =>
      refine Or.inr (Or.inl ⟨name, Or.inr rfl, hl, ?_⟩)
      simp [System.wait, hl, System.afterCall]
    | some e =>
      refine Or.inr (Or.inr (Or.inr (Or.inl ⟨name, e, rfl, hc, hl, ?_⟩)))
      simp [System.wait, hl, System.afterCall]
  | ret =>
    obtain ⟨⟨-, hc⟩, hmap⟩ := Option.ite_none_right_eq_some.mp hstep
    obtain ⟨c, hp, rfl⟩ := Option.map_eq_some_iff.mp hmap
    exact Or.inr (Or.inr (Or.inr (Or.inr (Or.inl ⟨c, rfl, hc, hp, rfl⟩))))
  | kernel l' =>
    obtain ⟨ha, hmap⟩ := Option.ite_none_right_eq_some.mp hstep
    obtain ⟨k', hk, rfl⟩ := Option.map_eq_some_iff.mp hmap
    exact Or.inr (Or.inr (Or.inr (Or.inr (Or.inr ⟨l', k', rfl, ha, hk, rfl⟩))))

theorem inCode_of_idleCode (h : s.idleCode = true) : s.kernel.mode = .running :=
  (Threads.inCode_iff.mp (idleCode_iff.mp h).2.1).1

theorem sysInv_step {s' : System} {l : Label} (h : SysInv s) (hstep : step s l = some s') :
    SysInv s' := by
  rcases step_cases h hstep with ⟨name, semval, -, -, ⟨-, rfl⟩ | ⟨id, hid, hnew, hfree, -, rfl⟩⟩ |
    ⟨name, -, -, rfl⟩ | ⟨name, e, -, -, hl, rfl⟩ | ⟨name, e, -, hc, hl, rfl⟩ | ⟨c, -, -, -, rfl⟩ |
    ⟨l', k', -, -, hk, rfl⟩
  · exact ⟨h.kernel, h.unforked, h.table, h.defined⟩
  · exact ⟨Threads.inv_newSemaphore h.kernel _, h.unforked, h.table.insert hid hnew, h.defined⟩
  · exact ⟨h.kernel, h.unforked, h.table, h.defined⟩
  · simp only [System.signal, hl]
    exact ⟨Threads.inv_V h.kernel, h.unforked.V e.sem, by rw [numSems_V]; exact h.table, h.defined⟩
  · obtain ⟨i, hat, -⟩ := lookup_some hl
    have hm := inCode_of_idleCode hc
    simp only [System.wait, hl]
    refine ⟨Threads.inv_P h.kernel hm (h.table.created hat), ?_, by rw [numSems_P]; exact h.table,
      h.defined⟩
    exact Threads.Unforked.testP (k := { s.kernel with level := .intOff }) h.unforked
      (h.kernel.current_running hm) e.sem s.kernel.level
  · exact ⟨h.kernel, h.unforked, h.table, h.defined⟩
  · exact ⟨Threads.inv_step h.kernel hk, Threads.unforked_step h.kernel h.unforked hk,
      h.table.mono (numSems_step h.kernel h.unforked hk), h.defined⟩

/-- An entry of the table after `Create`. -/
theorem at_insert {name : Str} {init : Int} {id : Nat} {bm : BitMap} {i : Nat} {e : Entry}
    (hat : (s.insert name init id bm).table.At i e) :
    (i = id ∧ e = ⟨name, s.kernel.numSems⟩) ∨ s.table.At i e := by
  obtain ⟨hi, he⟩ := hat
  by_cases hii : i = id
  · subst hii
    simp only [System.insert, update_self, Option.some.injEq] at he
    exact Or.inl ⟨rfl, he.symm⟩
  · simp only [System.insert, update_of_ne hii] at he
    exact Or.inr ⟨hi, he⟩

/-- The table changes only by `Create`. -/
theorem table_step {s' : System} {l : Label} (h : SysInv s) (hstep : step s l = some s') :
    s'.table = s.table ∨ ∃ name id, id < maxSemaphores ∧ s.table.semTab id = none ∧
      s'.table.semTab = update s.table.semTab id (some ⟨name, s.kernel.numSems⟩) := by
  rcases step_cases h hstep with
    ⟨name, semval, -, -, ⟨-, rfl⟩ | ⟨id, hid, -, hfree, -, rfl⟩⟩ |
    ⟨name, -, -, rfl⟩ | ⟨name, e, -, -, hl, rfl⟩ | ⟨name, e, -, -, hl, rfl⟩ | ⟨c, -, -, -, rfl⟩ |
    ⟨l', k', -, -, -, rfl⟩
  · exact Or.inl rfl
  · exact Or.inr ⟨name, id, hid, hfree, rfl⟩
  · exact Or.inl rfl
  · simp [System.signal, hl]
  · simp [System.wait, hl]
  · exact Or.inl rfl
  · exact Or.inl rfl

theorem at_step {s' : System} {l : Label} (h : SysInv s) (hstep : step s l = some s') {i : Nat}
    {e : Entry} (hat : s.table.At i e) : s'.table.At i e := by
  rcases table_step h hstep with heq | ⟨name, id, -, hfree, htab⟩
  · rwa [heq]
  · obtain ⟨hi, he⟩ := hat
    have hii : i ≠ id := by
      rintro rfl
      rw [hfree] at he
      cases he
    exact ⟨hi, by rw [htab, update_of_ne hii, he]⟩

/-- A semaphore that exists outside the table stays outside. -/
theorem unowned_step {s' : System} {l : Label} (h : SysInv s) (hstep : step s l = some s')
    {sem : SemId} (hlt : sem < s.kernel.numSems) (hsem : s.table.owns sem = false) :
    s'.table.owns sem = false := by
  rcases table_step h hstep with heq | ⟨name, id, hid, -, htab⟩
  · rwa [heq]
  · cases hown : s'.table.owns sem with
    | false => rfl
    | true =>
      obtain ⟨i, e, ⟨hi, he⟩, rfl⟩ := owns_iff.mp hown
      rw [htab] at he
      by_cases hii : i = id
      · subst hii
        rw [update_self] at he
        cases he
        exact absurd hlt (Nat.lt_irrefl _)
      · rw [update_of_ne hii] at he
        rw [owns_iff.mpr ⟨i, e, ⟨hi, he⟩, rfl⟩] at hsem
        cases hsem

theorem numSems_le_step {s' : System} {l : Label} (h : SysInv s) (hstep : step s l = some s') :
    s.kernel.numSems ≤ s'.kernel.numSems := by
  rcases step_cases h hstep with
    ⟨name, semval, -, -, ⟨-, rfl⟩ | ⟨id, -, -, -, -, rfl⟩⟩ |
    ⟨name, -, -, rfl⟩ | ⟨name, e, -, -, hl, rfl⟩ | ⟨name, e, -, -, hl, rfl⟩ | ⟨c, -, -, -, rfl⟩ |
    ⟨l', k', -, -, hk, rfl⟩
  · exact Nat.le_refl _
  · exact Nat.le_succ _
  · exact Nat.le_refl _
  · simp only [System.signal, hl, numSems_V]
    exact Nat.le_refl _
  · simp only [System.wait, hl, numSems_P]
    exact Nat.le_refl _
  · exact Nat.le_refl _
  · exact numSems_step h.kernel h.unforked hk

end Operations

theorem sysInv_boot : SysInv boot :=
  ⟨Threads.inv_boot, Threads.unforked_boot, tableInv_new, rfl⟩

theorem sysInv_throughout (ls : List Label) : Runs.AllStates step SysInv boot ls :=
  Runs.allStates_of_invariant (fun _ _ _ h hs => sysInv_step h hs) sysInv_boot ls

/-- The specification of the table and of its three operations. -/
structure TableSpec (s : System) : Prop where
  bits : ∀ i < maxSemaphores, s.table.bm.test i = true ↔ s.table.semTab i ≠ none
  names : ∀ {i j e e'}, s.table.At i e → s.table.At j e' → e.name = e'.name → i = j
  /-- `Create` follows no null pointer; it refuses exactly the names that are there and a full
  table, and then changes nothing; else it fills one free slot. -/
  create : ∀ name init, ∃ r s', s.create name init = some (r, s') ∧
    (r = -1 ↔ s.table.Present name ∨ s.table.Full) ∧ (r = -1 → s' = s) ∧
    (r ≠ -1 → ∃ id < maxSemaphores, r = id ∧ s.table.semTab id = none ∧
      s'.table.semTab = update s.table.semTab id (some ⟨name, s.kernel.numSems⟩) ∧
      s'.kernel = s.kernel.newSemaphore init)
  /-- `Wait` and `Signal` of an absent name return `-1` and change nothing. -/
  absent : ∀ name, ¬ s.table.Present name →
    s.wait name = (some (-1), s) ∧ s.signal name = (some (-1), s)
  /-- `Wait` of the name of `e` is `P` on the object of `e`. -/
  wait : ∀ {i e}, s.table.At i e →
    (s.wait e.name).1 ≠ some (-1) ∧ (s.wait e.name).2.kernel = s.kernel.P e.sem ∧
      (s.wait e.name).2.table = s.table
  /-- `Signal` of the name of `e` is `V` on the object of `e`. -/
  signal : ∀ {i e}, s.table.At i e →
    (s.signal e.name).1 ≠ some (-1) ∧ (s.signal e.name).2.kernel = s.kernel.V e.sem ∧
      (s.signal e.name).2.table = s.table
  /-- No other object of the table is touched. -/
  others : ∀ {i j e e'}, s.table.At i e → s.table.At j e' → i ≠ j →
    (s.kernel.P e.sem).sems e'.sem = s.kernel.sems e'.sem ∧
      (s.kernel.V e.sem).sems e'.sem = s.kernel.sems e'.sem

theorem SysInv.spec {s : System} (h : SysInv s) : TableSpec s := by
  refine ⟨?_, h.table.names, ?_, fun name hp => ⟨wait_absent hp, signal_absent hp⟩, ?_, ?_, ?_⟩
  · intro i hi
    rw [h.table.bits i hi, Option.isSome_iff_ne_none]
  · intro name init
    rcases create_cases h.table name init with
      ⟨hp, hcr⟩ | ⟨hnew, hfull, hcr⟩ | ⟨hnew, id, hid, hfree, hcr⟩
    · exact ⟨-1, s, hcr, by simp [hp], fun _ => rfl, fun hne => absurd rfl hne⟩
    · exact ⟨-1, s, hcr, by simp [hfull], fun _ => rfl, fun hne => absurd rfl hne⟩
    · have hid' : (id : Int) ≠ -1 := by omega
      refine ⟨id, _, hcr, ⟨fun heq => absurd heq hid', ?_⟩, fun heq => absurd heq hid',
        fun _ => ⟨id, hid, rfl, hfree, rfl, rfl⟩⟩
      rintro (hp | hfull)
      · exact absurd hp hnew
      · obtain ⟨e, he⟩ := hfull id hid
        rw [hfree] at he
        cases he
  · intro i e hat
    simp [System.wait, h.table.lookup_eq hat]
  · intro i e hat
    simp [System.signal, h.table.lookup_eq hat]
  · intro i j e e' hat hat' hij
    have hne : e'.sem ≠ e.sem := fun heq => hij (h.table.sems hat hat' heq.symm)
    exact ⟨P_sems_of_ne s.kernel hne, V_sems_of_ne s.kernel hne⟩

/-- In every state that any calls of `Create`, `Wait` and `Signal` by any threads reach from
`STable()`, in any interleaving, the table and its operations meet their specification. -/
theorem spec_throughout (ls : List Label) : Runs.AllStates step TableSpec boot ls :=
  (sysInv_throughout ls).mono fun _ h => h.spec

end Nachos.Userprog.SemTable
