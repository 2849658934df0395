import Nachos.Userprog.Multiprogram

/-!
# Process isolation

In every state of every run the frames of different address spaces are disjoint, exist and are
marked in `gPhysPageBitMap`, and while a process runs every address that `Translate` accepts
lies in a frame of this process (`Isolated`). No step made for one process changes a byte that
another one sees at some virtual address, or the registers that the other one will see when it
runs again (`Separate`).

The proof follows the frames. A routine of the machine is confined to the frames that the page
table maps (`confinement`); the page table of the machine is the one of the running process;
and the frames that a loader takes were clear, so nobody else has them.
-/

namespace Nachos

open Machine

/-- The frames of an address space, in the order of its pages. -/
def AddrSpace.frames (space : AddrSpace) : List Nat :=
  ((space.pageTable.getD []).take space.numPages).map fun e => e.physicalPage.toNat

/-- An address space with another one's pages: only use and dirty bits may differ. -/
structure AddrSpace.Same (space space' : AddrSpace) : Prop where
  numPages : space'.numPages = space.numPages
  table : (space'.pageTable.map fun table => table.map TranslationEntry.mapping) =
    space.pageTable.map fun table => table.map TranslationEntry.mapping

theorem AddrSpace.Same.refl (space : AddrSpace) : space.Same space := ⟨rfl, rfl⟩

theorem framesOf_mapping (table : List TranslationEntry) :
    framesOf (table.map TranslationEntry.mapping) = framesOf table := by
  unfold framesOf
  rw [List.map_map]
  rfl

/-- Each page table of the one has its counterpart in the other. -/
theorem AddrSpace.Same.exists_table {space space' : AddrSpace} (h : space.Same space')
    {table' : List TranslationEntry} (htable : space'.pageTable = some table') :
    ∃ table, space.pageTable = some table ∧ table'.length = table.length ∧
      framesOf table' = framesOf table := by
  have heq := h.table
  rw [htable] at heq
  obtain ⟨table, hsome, hmap⟩ := Option.map_eq_some_iff.mp heq.symm
  simp only at hmap
  refine ⟨table, hsome, ?_, ?_⟩
  · rw [← List.length_map (f := TranslationEntry.mapping), ← hmap, List.length_map]
  · rw [← framesOf_mapping table', ← hmap, framesOf_mapping]

theorem AddrSpace.Same.symm {space space' : AddrSpace} (h : space.Same space') :
    space'.Same space := ⟨h.numPages.symm, h.table.symm⟩

theorem AddrSpace.frames_of_some {space : AddrSpace} {table : List TranslationEntry}
    (htable : space.pageTable = some table) :
    space.frames = ((framesOf table).take space.numPages).map BitVec.toNat := by
  unfold AddrSpace.frames framesOf
  rw [htable, ← List.map_take, List.map_map]
  rfl

theorem AddrSpace.Same.frames {space space' : AddrSpace} (h : space.Same space') :
    space'.frames = space.frames := by
  cases htable' : space'.pageTable with
  | none =>
    have heq := h.table
    rw [htable'] at heq
    have hnone : space.pageTable = none := Option.map_eq_none_iff.mp heq.symm
    unfold AddrSpace.frames
    rw [htable', hnone]
    simp
  | some table' =>
    obtain ⟨table, htable, -, hframes⟩ := h.exists_table htable'
    rw [AddrSpace.frames_of_some htable', AddrSpace.frames_of_some htable, hframes, h.numPages]

theorem AddrSpace.frames_newTable {fs : List Nat} (hfs : ∀ f ∈ fs, f < numPhysPages) :
    AddrSpace.frames ⟨some (newTable fs), fs.length⟩ = fs := by
  rw [AddrSpace.frames_of_some rfl, framesOf_newTable, List.take_of_length_le (by simp),
    List.map_map]
  apply (List.map_congr_left _).trans (List.map_id fs)
  intro f hf
  have hlt := hfs f hf
  unfold numPhysPages at hlt
  simp only [Function.comp, BitVec.toNat_ofNat, id_eq]
  omega

theorem AddrSpace.mem_frames {space : AddrSpace} {table : List TranslationEntry}
    (htable : space.pageTable = some table) (hlen : table.length = space.numPages) {f : Word}
    (hf : f ∈ framesOf table) : f.toNat ∈ space.frames := by
  rw [AddrSpace.frames_of_some htable, List.take_of_length_le (by simp [framesOf, hlen])]
  exact List.mem_map_of_mem hf

end Nachos

namespace Nachos.Multiprogram

open CInt Runs Programs Machine State

/-! ### What a process sees -/

/-- The byte that thread `t` sees at the virtual address `va`. -/
def visible (s : State) (t : ThreadId) (va : Word) : Option Byte :=
  ((s.space t).frames[va.toNat / pageSize]?).map fun f =>
    s.mainMemory (f * pageSize + va.toNat % pageSize)

/-- The registers that thread `t` sees when it runs user code again. -/
def seenRegisters (s : State) (t : ThreadId) : Reg → Word :=
  if t = s.currentThread then s.registers else (s.threads t).userRegisters

def isUser (s : State) (t : ThreadId) : Prop := s.phase t = .user

/-- Address spaces do not share frames, and the running process reaches its own ones only. -/
structure Isolated (s : State) : Prop where
  defined : s.stopped ≠ some .outOfBounds
  disjoint : ∀ t u, t ≠ u → ∀ f ∈ (s.space t).frames, f ∉ (s.space u).frames
  bounded : ∀ t, ∀ f ∈ (s.space t).frames, f < numPhysPages
  marked : ∀ t, ∀ f ∈ (s.space t).frames, s.physPageBitMap.test f = true
  translated : isUser s s.currentThread → ∀ va size writing pa m,
    size = 1 ∨ size = 2 ∨ size = 4 →
    translate va size writing s.machine = .done (.ok pa) m →
      ∀ a, pa ≤ a → a < pa + size → a / pageSize ∈ (s.space s.currentThread).frames

/-- What `t` sees is the same in both states. -/
def Untouched (s s' : State) (t : ThreadId) : Prop :=
  (∀ va, visible s' t va = visible s t va) ∧
    (isUser s t → seenRegisters s' t = seenRegisters s t)

/-- The step touches nothing of the threads other than the current one, and a context switch
touches nothing of any thread. -/
def Separate (s : State) (l : Label) : Prop :=
  ∀ s', step s l = some s' → ∀ t, (t ≠ s.currentThread ∨ ∃ u, l = .run u) → Untouched s s' t

/-! ### The invariant -/

/-- The address spaces do not share frames. -/
structure Spaces (s : State) : Prop where
  numBits : s.physPageBitMap.numBits = numPhysPages
  disjoint : ∀ t u f, f ∈ (s.space t).frames → f ∈ (s.space u).frames → t = u
  marked : ∀ t, ∀ f ∈ (s.space t).frames, f < numPhysPages ∧ s.physPageBitMap.test f = true
  length : ∀ t table, (s.space t).pageTable = some table → table.length = (s.space t).numPages

/-- The copies go into frames of the address space. -/
def CopiesInside (space : AddrSpace) (cs : List Copy) : Prop :=
  ∀ c ∈ cs, ∃ table, space.pageTable = some table ∧ c.Inside (framesOf table)

structure Invariant (s : State) : Prop extends Spaces s where
  defined : s.stopped ≠ some .outOfBounds
  running : isUser s s.currentThread →
    s.pageTable = some s.currentThread ∧ s.pageTableSize = (s.space s.currentThread).numPages
  load : LoadOK s.registers
  saved : ∀ t, t ≠ s.currentThread → isUser s t → LoadOK (s.threads t).userRegisters
  pending : ∀ t cs executable, s.phase t = .loading cs executable → CopiesInside (s.space t) cs

/-- The address spaces are the same ones, on the same bitmap. -/
structure SameSpaces (s s' : State) : Prop where
  bitmap : s'.physPageBitMap = s.physPageBitMap
  spaces : ∀ t, (s.space t).Same (s'.space t)

theorem Spaces.of_same {s s' : State} (h : Spaces s) (hs : SameSpaces s s') : Spaces s' where
  numBits := by rw [hs.bitmap, h.numBits]
  disjoint := by
    intro t u f hf hf'
    rw [(hs.spaces t).frames] at hf
    rw [(hs.spaces u).frames] at hf'
    exact h.disjoint t u f hf hf'
  marked := by
    intro t f hf
    rw [(hs.spaces t).frames] at hf
    rw [hs.bitmap]
    exact h.marked t f hf
  length := by
    intro t table' htable'
    obtain ⟨table, htable, hlen, -⟩ := (hs.spaces t).exists_table htable'
    rw [hlen, (hs.spaces t).numPages]
    exact h.length t table htable

theorem CopiesInside.of_same {space space' : AddrSpace} {cs : List Copy}
    (h : CopiesInside space cs) (hs : space.Same space') : CopiesInside space' cs := by
  intro c hc
  obtain ⟨table, htable, hinside⟩ := h c hc
  obtain ⟨table', htable', -, hframes⟩ := hs.symm.exists_table htable
  exact ⟨table', htable', by rw [← hframes]; exact hinside⟩

/-- A step that changes the current thread only, and no byte of a frame of another one. -/
structure Local (s s' : State) : Prop where
  current : s'.currentThread = s.currentThread
  others : ∀ t, t ≠ s.currentThread → s'.threads t = s.threads t
  memory : ∀ t, t ≠ s.currentThread → ∀ a, a / pageSize ∈ (s.space t).frames →
    s'.mainMemory a = s.mainMemory a

theorem Local.untouched {s s' : State} (h : Local s s') {t : ThreadId}
    (ht : t ≠ s.currentThread) : Untouched s s' t := by
  have hspace : s'.space t = s.space t := by
    unfold State.space
    rw [h.others t ht]
  constructor
  · intro va
    unfold visible
    rw [hspace]
    cases hf : (s.space t).frames[va.toNat / pageSize]? with
    | none => rfl
    | some f =>
      have hmem : f ∈ (s.space t).frames := List.mem_of_getElem? hf
      simp only [Option.map_some, Option.some.injEq]
      apply h.memory t ht
      have hframe : (f * pageSize + va.toNat % pageSize) / pageSize = f := by
        unfold pageSize
        omega
      rw [hframe]
      exact hmem
  · intro _
    unfold seenRegisters
    rw [if_neg ht, if_neg (by rw [h.current]; exact ht), h.others t ht]

namespace Invariant

variable {s : State}

theorem machine_pageTable (h : Invariant s) (huser : isUser s s.currentThread) :
    s.machine.pageTable = (s.space s.currentThread).pageTable := by
  unfold State.machine
  rw [(h.running huser).1]
  rfl

theorem machine_size (h : Invariant s) (huser : isUser s s.currentThread) :
    s.machine.pageTableSize = (s.space s.currentThread).numPages := (h.running huser).2

/-- The machine of a running process reaches the frames of this process. -/
theorem reaches_iff (h : Invariant s) (huser : isUser s s.currentThread) (a : Nat) :
    s.machine.Reaches a ↔ a / pageSize ∈ (s.space s.currentThread).frames := by
  have htable := h.machine_pageTable huser
  have hsize := h.machine_size huser
  unfold Machine.Reaches Machine.mapping AddrSpace.frames
  rw [htable, hsize]
  cases (s.space s.currentThread).pageTable with
  | none => simp
  | some table =>
    simp only [Option.map_some, Option.some.injEq, exists_eq_left', Option.getD_some]
    rw [maps_mapping]
    simp only [Maps, inFrame_iff, List.mem_map, List.mem_take_iff_getElem]
    constructor
    · rintro ⟨i, e, hi, he, ha⟩
      obtain ⟨hlt, rfl⟩ := List.getElem?_eq_some_iff.mp he
      exact ⟨table[i], ⟨i, by omega, rfl⟩, ha.symm⟩
    · rintro ⟨e, ⟨i, hi, rfl⟩, ha⟩
      exact ⟨i, table[i], by omega, List.getElem?_eq_getElem (by omega), ha.symm⟩

theorem inBounds (h : Invariant s) (huser : isUser s s.currentThread) : InBounds s.machine := by
  refine ⟨h.load, fun table htable => ?_⟩
  unfold Machine.mapping at htable
  rw [h.machine_pageTable huser] at htable
  obtain ⟨table', htable', rfl⟩ := Option.map_eq_some_iff.mp htable
  rw [h.machine_size huser, List.length_map, h.length _ _ htable']

theorem isolated (h : Invariant s) : Isolated s where
  defined := h.defined
  disjoint := fun t u htu f hf hf' => htu (h.disjoint t u f hf hf')
  bounded := fun t f hf => (h.marked t f hf).1
  marked := fun t f hf => (h.marked t f hf).2
  translated := by
    intro huser va size writing pa m hsize htr a ha ha'
    rw [← h.reaches_iff huser]
    rcases translate_cases va size writing s.machine with ⟨f, heq, -⟩ | ⟨e, heq⟩ | ⟨pa', m', heq, hok⟩
    · rw [heq] at htr
      cases htr
    · rw [heq] at htr
      cases htr
    · rw [heq] at htr
      cases htr
      exact hok.reaches hsize ha ha'

/-! ### Routines of the machine -/

theorem stop (h : Invariant s) {f : Fault} (hf : f ≠ .outOfBounds) : Invariant (s.stop f) where
  toSpaces := ⟨h.numBits, h.disjoint, h.marked, h.length⟩
  defined := by simpa [State.stop] using hf
  running := h.running
  load := h.load
  saved := h.saved
  pending := h.pending

theorem setRegisters (h : Invariant s) {registers : Reg → Word} (hload : LoadOK registers) :
    Invariant { s with registers := registers } where
  toSpaces := ⟨h.numBits, h.disjoint, h.marked, h.length⟩
  defined := h.defined
  running := h.running
  load := hload
  saved := h.saved
  pending := h.pending

end Invariant

/-- Only the page table of the running thread is stored back. -/
theorem setMachine_threads {s : State} {t : ThreadId} (m : Machine) (hptr : s.pageTable = some t)
    (u : ThreadId) :
    (s.setMachine m).threads u =
      if u = t then { s.threads t with space := { s.space t with pageTable := m.pageTable } }
      else s.threads u := by
  unfold State.setMachine
  simp only [hptr]
  split
  · rename_i hu
    rw [hu, Function.update_self]
  · rename_i hu
    rw [Function.update_of_ne hu]

namespace Invariant

variable {s : State}

theorem sameSpaces_setMachine (h : Invariant s) (huser : isUser s s.currentThread) {m : Machine}
    (hm : Confined s.machine m) : SameSpaces s (s.setMachine m) := by
  refine ⟨rfl, fun t => ?_⟩
  unfold State.space
  rw [setMachine_threads m (h.running huser).1]
  split
  · rename_i ht
    subst ht
    refine ⟨rfl, ?_⟩
    have hmapping := hm.mapping
    unfold Machine.mapping at hmapping
    rw [h.machine_pageTable huser] at hmapping
    exact hmapping
  · exact AddrSpace.Same.refl _

theorem local_setMachine (h : Invariant s) (huser : isUser s s.currentThread) {m : Machine}
    (hm : Confined s.machine m) : Local s (s.setMachine m) := by
  refine ⟨rfl, fun t ht => ?_, fun t ht a ha => ?_⟩
  · rw [setMachine_threads m (h.running huser).1, if_neg ht]
  · apply hm.memory
    rw [h.reaches_iff huser]
    intro hmem
    exact ht (h.disjoint t _ _ ha hmem)

/-- A confined routine of the running process. -/
theorem setMachine (h : Invariant s) (huser : isUser s s.currentThread) {m : Machine}
    (hm : Confined s.machine m) : Invariant (s.setMachine m) := by
  have hsame := h.sameSpaces_setMachine huser hm
  have hphase : ∀ t, (s.setMachine m).phase t = s.phase t := by
    intro t
    unfold State.phase
    rw [setMachine_threads m (h.running huser).1]
    split
    · rename_i ht
      rw [ht]
    · rfl
  refine ⟨h.toSpaces.of_same hsame, h.defined, fun _ => ?_, hm.load h.load, ?_, ?_⟩
  · refine ⟨(h.running huser).1, ?_⟩
    rw [show (s.setMachine m).currentThread = s.currentThread from rfl,
      (hsame.spaces s.currentThread).numPages]
    exact (h.running huser).2
  · intro t ht hu
    rw [(h.local_setMachine huser hm).others t ht]
    unfold isUser at hu
    rw [hphase] at hu
    exact h.saved t ht hu
  · intro t cs executable ht
    rw [hphase] at ht
    exact (h.pending t cs executable ht).of_same (hsame.spaces t)

/-- A routine that keeps the contract. -/
theorem runRoutine {α : Type} (h : Invariant s) (huser : isUser s s.currentThread)
    {p : Routine α} (hp : Keeps confinement p) :
    Invariant (s.runRoutine p) ∧ Local s (s.runRoutine p) := by
  have hadmits := hp s.machine
  unfold State.runRoutine
  cases hout : p s.machine with
  | done a m =>
    rw [hout] at hadmits
    exact ⟨h.setMachine huser hadmits, h.local_setMachine huser hadmits⟩
  | trap e m =>
    rw [hout] at hadmits
    exact ⟨h.setMachine huser hadmits, h.local_setMachine huser hadmits⟩
  | fault f =>
    rw [hout] at hadmits
    exact ⟨h.stop (hadmits (h.inBounds huser)), rfl, fun _ _ => rfl, fun _ _ _ _ => rfl⟩

end Invariant

/-- A delayed load ends normally. -/
theorem delayedLoad_done {m : Machine} (h : LoadOK m.registers) :
    ∃ m', delayedLoad noReg 0 m = .done () m' ∧ LoadOK m'.registers := by
  have hlt : (m.registers loadReg).toNat < 40 := Nat.lt_trans h (by decide)
  have hfinish : ∃ m', finishLoad m = .done () m' := by
    unfold finishLoad
    exact ⟨_, dif_pos hlt⟩
  obtain ⟨m1, hm1⟩ := hfinish
  have hdone : ∃ m', delayedLoad noReg 0 m = .done () m' := by
    refine ⟨((m1.setRegister loadReg 0).setRegister loadValueReg 0).setRegister 0 0, ?_⟩
    show Program.bind finishLoad _ m = _
    unfold Program.bind
    rw [hm1]
    rfl
  obtain ⟨m', hm'⟩ := hdone
  have hadmits := confined_delayedLoad noReg 0 m
  rw [hm'] at hadmits
  exact ⟨m', hm', Confined.load hadmits h⟩

namespace Invariant

variable {s : State}

theorem finishDelayedLoad (h : Invariant s) :
    Invariant s.finishDelayedLoad ∧ Local s s.finishDelayedLoad := by
  obtain ⟨m, hm, hload⟩ := delayedLoad_done (m := s.machine) h.load
  unfold State.finishDelayedLoad
  rw [hm]
  exact ⟨h.setRegisters hload, rfl, fun _ _ => rfl, fun _ _ _ _ => rfl⟩

/-! ### Loading -/

/-- A step of the current thread that leaves the records of the others alone: what has to be
shown is about the address spaces and the current thread. -/
theorem of_local (h : Invariant s) {s' : State} (hs : Local s s') (hspaces : Spaces s')
    (hdefined : s'.stopped = s.stopped) (hload : LoadOK s'.registers)
    (hrunning : isUser s' s.currentThread →
      s'.pageTable = some s.currentThread ∧
        s'.pageTableSize = (s'.space s.currentThread).numPages)
    (hpending : ∀ cs executable, s'.phase s.currentThread = .loading cs executable →
      CopiesInside (s'.space s.currentThread) cs) : Invariant s' := by
  have hphase : ∀ t, t ≠ s.currentThread → s'.phase t = s.phase t := by
    intro t ht
    unfold State.phase
    rw [hs.others t ht]
  refine ⟨hspaces, by rw [hdefined]; exact h.defined, ?_, hload, ?_, ?_⟩
  · rw [hs.current]
    exact hrunning
  · intro t ht hu
    rw [hs.current] at ht
    unfold isUser at hu
    rw [hphase t ht] at hu
    rw [hs.others t ht]
    exact h.saved t ht hu
  · intro t cs executable hload'
    by_cases ht : t = s.currentThread
    · subst ht
      exact hpending cs executable hload'
    · rw [hphase t ht] at hload'
      have hspace : s'.space t = s.space t := by
        unfold State.space
        rw [hs.others t ht]
      rw [hspace]
      exact h.pending t cs executable hload'

/-- The current thread has the frames `fs`, which were clear before. -/
theorem spaces_of_new (h : Invariant s) {s' : State} {fs : List Nat} (hs : Local s s')
    (halloc : Allocated s.physPageBitMap fs s'.physPageBitMap)
    (hframes : (s'.space s.currentThread).frames = fs)
    (hlength : ∀ table, (s'.space s.currentThread).pageTable = some table →
      table.length = (s'.space s.currentThread).numPages) : Spaces s' := by
  have hspace : ∀ t, t ≠ s.currentThread → s'.space t = s.space t := by
    intro t ht
    unfold State.space
    rw [hs.others t ht]
  have hnew : ∀ t, ∀ f ∈ (s.space t).frames, f ∉ fs := by
    intro t f hf hmem
    have hmarked := (h.marked t f hf).2
    rw [halloc.clear f hmem] at hmarked
    cases hmarked
  refine ⟨by rw [halloc.numBits, h.numBits], ?_, ?_, ?_⟩
  · intro t u f hf hf'
    by_cases ht : t = s.currentThread <;> by_cases hu : u = s.currentThread
    · rw [ht, hu]
    · rw [ht, hframes] at hf
      rw [hspace u hu] at hf'
      exact absurd hf (hnew u f hf')
    · rw [hu, hframes] at hf'
      rw [hspace t ht] at hf
      exact absurd hf' (hnew t f hf)
    · rw [hspace t ht] at hf
      rw [hspace u hu] at hf'
      exact h.disjoint t u f hf hf'
  · intro t f hf
    rw [halloc.test]
    by_cases ht : t = s.currentThread
    · rw [ht, hframes] at hf
      have hlt := halloc.range f hf
      rw [h.numBits] at hlt
      exact ⟨hlt, by simp [hf]⟩
    · rw [hspace t ht] at hf
      obtain ⟨hlt, hmarked⟩ := h.marked t f hf
      exact ⟨hlt, by simp [hmarked]⟩
  · intro t table htable
    by_cases ht : t = s.currentThread
    · subst ht
      exact hlength table htable
    · rw [hspace t ht] at htable ⊢
      exact h.length t table htable

/-- The current thread has built an address space on frames that were clear, and memory has
changed inside these. -/
theorem newSpace (h : Invariant s) {fs : List Nat} {bitmap : BitMap} {memory : Nat → Byte}
    {cs : List Copy} {space : AddrSpace} (executable : List Byte)
    (halloc : Allocated s.physPageBitMap fs bitmap)
    (hmemory : ∀ a, a / pageSize ∉ fs → memory a = s.mainMemory a)
    (hframes : space.frames = fs)
    (hlength : ∀ table, space.pageTable = some table → table.length = space.numPages)
    (hcs : CopiesInside space cs) :
    let s' : State :=
      { s with
        physPageBitMap := bitmap
        mainMemory := memory
        threads := Function.update s.threads s.currentThread
          { s.threads s.currentThread with phase := .loading cs executable, space := space } }
    Invariant s' ∧ Local s s' := by
  intro s'
  have hspace : s'.space s.currentThread = space := by
    simp only [s', State.space, Function.update_self]
  have hphase : s'.phase s.currentThread = .loading cs executable := by
    simp only [s', State.phase, Function.update_self]
  have hlocal : Local s s' := by
    refine ⟨rfl, fun t ht => Function.update_of_ne ht _ _, fun t _ a ha => ?_⟩
    -- a frame of another thread is marked, the new ones were clear
    apply hmemory
    intro hmem
    have hmarked := (h.marked t _ ha).2
    rw [halloc.clear _ hmem] at hmarked
    cases hmarked
  refine ⟨h.of_local hlocal ?_ rfl h.load ?_ ?_, hlocal⟩
  · apply h.spaces_of_new hlocal halloc
    · rw [hspace, hframes]
    · rw [hspace]
      exact hlength
  · intro hu
    unfold isUser at hu
    rw [hphase] at hu
    cases hu
  · intro cs' executable' ht
    rw [hphase] at ht
    cases ht
    rw [hspace]
    exact hcs

/-- The address space on the frames `fs` that the loop of a constructor builds. -/
theorem copiesInside_newTable {fs : List Nat} {n : Nat} {cs : List Copy}
    (hcs : ∀ c ∈ cs, c.Inside (fs.map (BitVec.ofNat 32))) :
    CopiesInside ⟨some (newTable fs), n⟩ cs := by
  intro c hc
  exact ⟨newTable fs, rfl, by rw [framesOf_newTable]; exact hcs c hc⟩

theorem startProcess (h : Invariant s) (file : NoffFile)
    (hclear : s.physPageBitMap = BitMap.new numPhysPages) :
    Invariant (s.startProcess file.content) ∧ Local s (s.startProcess file.content) := by
  have hw := file.wellFormed
  unfold State.startProcess
  simp only [file.magic, ne_eq, not_true_eq_false, if_false]
  generalize readHeader file.content = header at hw
  by_cases hfit : numPhysPages < header.numPages
  · rw [if_pos hfit]
    exact ⟨h.stop (by simp), rfl, fun _ _ => rfl, fun _ _ _ _ => rfl⟩
  rw [if_neg hfit]
  obtain ⟨bitmap, halloc⟩ := allocFrames_new (n := header.numPages) (by omega)
  rw [hclear, halloc]
  simp only
  obtain ⟨hallocated, -⟩ := allocFrames_some halloc
  have hfs : ∀ f ∈ List.range header.numPages, f < numPhysPages := by
    intro f hf
    have := List.mem_range.mp hf
    omega
  rw [← hclear] at hallocated
  apply h.newSpace file.content hallocated
  · intro a ha
    apply if_neg
    rw [List.mem_range] at ha
    unfold pageSize at ha ⊢
    omega
  · have hframes := AddrSpace.frames_newTable hfs
    rw [List.length_range] at hframes
    exact hframes
  · intro table htable
    cases htable
    rw [length_newTable, List.length_range]
  · exact copiesInside_newTable (header.physicalCopies_inside hw (by omega))

theorem myStartProcess (h : Invariant s) (file : NoffFile) (isNull : Bool) :
    Invariant (s.myStartProcess file.content isNull) ∧
      Local s (s.myStartProcess file.content isNull) := by
  have hw := file.wellFormed
  unfold State.myStartProcess
  simp only [file.magic, ne_eq, not_true_eq_false, if_false]
  generalize readHeader file.content = header at hw
  have hnil := Allocated.nil s.physPageBitMap
  by_cases hfit : s.physPageBitMap.numClear < header.numPages
  · rw [if_pos hfit]
    apply h.newSpace file.content hnil (fun _ _ => rfl)
    · cases isNull <;> rfl
    · intro table htable
      cases isNull with
      | true => cases htable
      | false =>
        cases htable
        rfl
    · intro c hc
      cases hc
  · rw [if_neg hfit]
    obtain ⟨fs, bitmap, memory, hbuild⟩ :=
      buildPages_of_le (b := s.physPageBitMap) (not_lt.mp hfit) s.mainMemory
    rw [hbuild]
    simp only
    obtain ⟨halloc, hmemory⟩ := buildPages_some hbuild
    obtain ⟨hallocated, hlen⟩ := allocFrames_some halloc
    have hfs : ∀ f ∈ fs, f < numPhysPages := by
      intro f hf
      rw [← h.numBits]
      exact hallocated.range f hf
    have hpages : header.numPages ≤ numPhysPages := by
      have hcount := s.physPageBitMap.numMarked_add_numClear
      rw [h.numBits] at hcount
      omega
    apply h.newSpace file.content hallocated
    · intro a ha
      rw [hmemory, if_neg ha]
    · rw [← hlen]
      exact AddrSpace.frames_newTable hfs
    · intro table htable
      cases htable
      rw [length_newTable, hlen]
    · apply copiesInside_newTable
      exact header.pageCopies_inside hw.sized hpages (by rw [List.length_map, hlen]) hw.codeAddr

/-- A step of the current thread that keeps its address space. -/
theorem of_sameSpace (h : Invariant s) {s' : State} (hs : Local s s')
    (hspace : s'.space s.currentThread = s.space s.currentThread)
    (hbitmap : s'.physPageBitMap = s.physPageBitMap) (hdefined : s'.stopped = s.stopped)
    (hload : LoadOK s'.registers)
    (hrunning : isUser s' s.currentThread →
      s'.pageTable = some s.currentThread ∧
        s'.pageTableSize = (s.space s.currentThread).numPages)
    (hpending : ∀ cs executable, s'.phase s.currentThread = .loading cs executable →
      CopiesInside (s.space s.currentThread) cs) : Invariant s' := by
  have hsame : SameSpaces s s' := by
    refine ⟨hbitmap, fun t => ?_⟩
    by_cases ht : t = s.currentThread
    · rw [ht, hspace]
      exact AddrSpace.Same.refl _
    · unfold State.space
      rw [hs.others t ht]
      exact AddrSpace.Same.refl _
  rw [← hspace] at hrunning hpending
  exact h.of_local hs (h.toSpaces.of_same hsame) hdefined hload hrunning hpending

theorem copy (h : Invariant s) {c : Copy} {pending : List Copy} {executable : List Byte}
    (hphase : s.phase s.currentThread = .loading (c :: pending) executable) :
    Invariant (s.copy c pending executable) ∧ Local s (s.copy c pending executable) := by
  have hinside := h.pending _ _ _ hphase
  obtain ⟨table, htable, into, hinto, hlow, hframe⟩ := hinside c (List.mem_cons_self ..)
  unfold State.copy
  have hresolve : ((s.threads s.currentThread).space.pageTable.bind fun table =>
      c.target.resolve (framesOf table)) = some into := by
    have htable' : (s.threads s.currentThread).space.pageTable = some table := htable
    rw [htable', Option.bind_some, hinto]
  simp only [hresolve]
  cases hread : readAt executable c.numBytes c.position with
  | none => exact ⟨h.stop (by simp), rfl, fun _ _ => rfl, fun _ _ _ _ => rfl⟩
  | some bytes =>
    have hlen : bytes.length ≤ u32 c.numBytes := by
      unfold readAt at hread
      split at hread
      · cases hread
      · cases hread
        exact List.length_take_le ..
    have hown : ∀ a : Nat, into ≤ a → (a : Int) < into + bytes.length →
        a / pageSize ∈ (s.space s.currentThread).frames := by
      intro a h1 h2
      obtain ⟨f, hf, hfa⟩ := hframe a h1 (by omega)
      rw [inFrame_iff] at hfa
      rw [hfa]
      exact AddrSpace.mem_frames htable (h.length _ _ htable) hf
    have hwrite : writeMemory s.mainMemory into bytes = .ok (writeBytes s.mainMemory into bytes) := by
      refine writeMemory_inside fun hne => ⟨hlow, ?_⟩
      have hpos := List.length_pos_of_ne_nil hne
      -- the last byte is in a frame
      obtain ⟨hlast, -⟩ := h.marked _ _ (hown (into + bytes.length - 1).toNat (by omega) (by omega))
      unfold memorySize numPhysPages pageSize at *
      omega
    simp only [hwrite]
    set s' : State :=
      { s with
        mainMemory := writeBytes s.mainMemory into bytes
        threads := Function.update s.threads s.currentThread
          { s.threads s.currentThread with phase := .loading pending executable } } with hs'
    have hphase' : s'.phase s.currentThread = .loading pending executable := by
      simp only [hs', State.phase, Function.update_self]
    have hlocal : Local s s' := by
      refine ⟨rfl, fun t ht => Function.update_of_ne ht _ _, fun t ht a ha => ?_⟩
      -- the bytes written lie in frames of the current thread
      apply if_neg
      rintro ⟨h1, h2⟩
      exact ht (h.disjoint t _ _ ha (hown a h1 h2))
    refine ⟨h.of_sameSpace hlocal ?_ rfl rfl h.load ?_ ?_, hlocal⟩
    · simp only [hs', State.space, Function.update_self]
    · intro hu
      unfold isUser at hu
      rw [hphase'] at hu
      cases hu
    · intro cs executable' hload
      rw [hphase'] at hload
      cases hload
      exact fun c' hc' => hinside c' (List.mem_cons_of_mem _ hc')

theorem startRunning (h : Invariant s) :
    Invariant s.startRunning ∧ Local s s.startRunning := by
  have hphase : s.startRunning.phase s.currentThread = .user := by
    simp only [State.startRunning, State.phase, Function.update_self]
  have hlocal : Local s s.startRunning :=
    ⟨rfl, fun t ht => Function.update_of_ne ht _ _, fun _ _ _ _ => rfl⟩
  refine ⟨h.of_sameSpace hlocal ?_ rfl rfl ?_ ?_ ?_, hlocal⟩
  · simp only [State.startRunning, State.space, Function.update_self]
  · exact loadOK_initRegisters _
  · intro _
    exact ⟨rfl, rfl⟩
  · intro cs executable hload
    rw [hphase] at hload
    cases hload

end Invariant

/-! ### Context switches -/

/-- What `Scheduler::Run` does: the registers of every process are kept, and the machine is
set up for the next thread if that is a process. -/
structure Switched (s : State) (next : ThreadId) (s' : State) : Prop where
  current : s'.currentThread = next
  memory : s'.mainMemory = s.mainMemory
  bitmap : s'.physPageBitMap = s.physPageBitMap
  stopped : s'.stopped = s.stopped
  phase : ∀ t, s'.phase t = s.phase t
  space : ∀ t, s'.space t = s.space t
  saved : ∀ t, isUser s t → (s'.threads t).userRegisters = seenRegisters s t
  restored : isUser s next → s'.registers = seenRegisters s next ∧ s'.pageTable = some next ∧
    s'.pageTableSize = (s.space next).numPages
  kept : ¬ isUser s next → s'.registers = s.registers

theorem saveUserState_threads (s : State) (t : ThreadId) :
    (s.saveUserState.threads t).phase = (s.threads t).phase ∧
      (s.saveUserState.threads t).space = (s.threads t).space ∧
      (isUser s t → (s.saveUserState.threads t).userRegisters = seenRegisters s t) := by
  unfold State.saveUserState seenRegisters
  by_cases ht : t = s.currentThread
  · subst ht
    rw [if_pos rfl]
    cases hphase : s.phase s.currentThread with
    | user =>
      simp [State.setThread]
    | kernel =>
      refine ⟨rfl, rfl, fun hu => ?_⟩
      unfold isUser at hu
      rw [hphase] at hu
      cases hu
    | loading cs executable =>
      refine ⟨rfl, rfl, fun hu => ?_⟩
      unfold isUser at hu
      rw [hphase] at hu
      cases hu
  · rw [if_neg ht]
    split
    · simp [State.setThread, Function.update_of_ne ht]
    · exact ⟨rfl, rfl, fun _ => rfl⟩

theorem saveUserState_rest (s : State) :
    s.saveUserState.mainMemory = s.mainMemory ∧
      s.saveUserState.physPageBitMap = s.physPageBitMap ∧
      s.saveUserState.stopped = s.stopped ∧ s.saveUserState.registers = s.registers := by
  unfold State.saveUserState
  split <;> exact ⟨rfl, rfl, rfl, rfl⟩

theorem restoreUserState_of_user {s : State} (h : isUser s s.currentThread) :
    s.restoreUserState =
      { s with
        registers := (s.threads s.currentThread).userRegisters
        pageTable := some s.currentThread
        pageTableSize := (s.space s.currentThread).numPages } := by
  unfold isUser at h
  unfold State.restoreUserState
  rw [h]

theorem restoreUserState_of_not_user {s : State} (h : ¬ isUser s s.currentThread) :
    s.restoreUserState = s := by
  unfold State.restoreUserState
  split
  · rename_i hphase
    exact absurd hphase h
  · rfl

theorem switched_switchTo (s : State) (next : ThreadId) : Switched s next (s.switchTo next) := by
  obtain ⟨hmem, hbitmap, hstopped, hregs⟩ := saveUserState_rest s
  have hthreads := saveUserState_threads s
  unfold State.switchTo
  set s1 : State := { s.saveUserState with currentThread := next } with hs1
  have huser : isUser s1 next ↔ isUser s next := by
    unfold isUser State.phase
    rw [← (hthreads next).1]
  by_cases hu : isUser s next
  · have hu1 : isUser s1 s1.currentThread := huser.mpr hu
    rw [restoreUserState_of_user hu1]
    refine ⟨rfl, hmem, hbitmap, hstopped, fun t => (hthreads t).1, fun t => (hthreads t).2.1,
      fun t => (hthreads t).2.2, fun _ => ⟨(hthreads next).2.2 hu, rfl, ?_⟩,
      fun hn => absurd hu hn⟩
    show (s.saveUserState.threads next).space.numPages = _
    rw [(hthreads next).2.1]
    rfl
  · have hu1 : ¬ isUser s1 s1.currentThread := fun h => hu (huser.mp h)
    rw [restoreUserState_of_not_user hu1]
    exact ⟨rfl, hmem, hbitmap, hstopped, fun t => (hthreads t).1, fun t => (hthreads t).2.1,
      fun t => (hthreads t).2.2, fun h => absurd h hu, fun _ => hregs⟩

/-- A context switch changes nothing that a process sees. -/
theorem Switched.untouched {s s' : State} {next : ThreadId} (h : Switched s next s')
    (t : ThreadId) : Untouched s s' t := by
  constructor
  · intro va
    unfold visible
    rw [h.space, h.memory]
  · intro hu
    by_cases ht : t = next
    · subst ht
      rw [← (h.restored hu).1]
      unfold seenRegisters
      rw [if_pos h.current.symm]
    · rw [← h.saved t hu]
      unfold seenRegisters
      rw [if_neg (by rw [h.current]; exact ht)]

theorem Invariant.loadOK_seen {s : State} (h : Invariant s) {t : ThreadId} (hu : isUser s t) :
    LoadOK (seenRegisters s t) := by
  unfold seenRegisters
  split
  · exact h.load
  · rename_i ht
    exact h.saved t ht hu

theorem Invariant.switched {s s' : State} {next : ThreadId} (h : Invariant s)
    (hs : Switched s next s') : Invariant s' := by
  have hsame : SameSpaces s s' :=
    ⟨hs.bitmap, fun t => by rw [hs.space]; exact AddrSpace.Same.refl _⟩
  have huser : ∀ t, isUser s' t ↔ isUser s t := by
    intro t
    unfold isUser
    rw [hs.phase]
  refine ⟨h.toSpaces.of_same hsame, by rw [hs.stopped]; exact h.defined, ?_, ?_, ?_, ?_⟩
  · intro hu
    rw [hs.current, huser] at hu
    obtain ⟨-, hptr, hsize⟩ := hs.restored hu
    rw [hs.current, hs.space]
    exact ⟨hptr, hsize⟩
  · by_cases hu : isUser s next
    · rw [(hs.restored hu).1]
      exact h.loadOK_seen hu
    · rw [hs.kept hu]
      exact h.load
  · intro t _ hu
    rw [huser] at hu
    rw [hs.saved t hu]
    exact h.loadOK_seen hu
  · intro t cs executable ht
    rw [hs.phase] at ht
    rw [hs.space]
    exact h.pending t cs executable ht

/-! ### Every run -/

theorem writeRegister_keeps {r : Reg} (hr : r ∈ handlerRegs) (v : Word) :
    Keeps confinement (writeRegister r v) := by
  apply confined_writeRegister
  rintro rfl
  revert hr
  decide

/-- Every step other than a context switch is local. -/
theorem Invariant.perform {s s' : State} {l : Label} (h : Invariant s)
    (hs : perform s l = some s') : Invariant s' ∧ ((∃ u, l = .run u) ∨ Local s s') := by
  cases l with
  | startProcess file =>
    simp only [Multiprogram.perform] at hs
    split at hs
    · split at hs
      · rename_i hclear
        cases hs
        exact (h.startProcess file hclear).imp_right Or.inr
      · cases hs
    · cases hs
  | myStartProcess file isNull =>
    simp only [Multiprogram.perform] at hs
    split at hs
    · cases hs
      exact (h.myStartProcess file isNull).imp_right Or.inr
    · cases hs
  | copy =>
    simp only [Multiprogram.perform] at hs
    split at hs
    · rename_i hphase
      cases hs
      exact (h.copy hphase).imp_right Or.inr
    · cases hs
  | startRunning =>
    simp only [Multiprogram.perform] at hs
    split at hs
    · cases hs
      exact h.startRunning.imp_right Or.inr
    · cases hs
  | oneInstruction =>
    simp only [Multiprogram.perform] at hs
    split at hs
    · rename_i hu
      cases hs
      exact (h.runRoutine hu confined_oneInstruction).imp_right Or.inr
    · cases hs
  | interrupt =>
    cases hs
    exact h.finishDelayedLoad.imp_right Or.inr
  | readMem addr size =>
    simp only [Multiprogram.perform] at hs
    split at hs
    · rename_i hu
      cases hs
      exact (h.runRoutine hu (confined_readMem addr size)).imp_right Or.inr
    · cases hs
  | writeMem addr size value =>
    simp only [Multiprogram.perform] at hs
    split at hs
    · rename_i hu
      cases hs
      exact (h.runRoutine hu (confined_writeMem addr size value)).imp_right Or.inr
    · cases hs
  | writeRegister r value =>
    simp only [Multiprogram.perform] at hs
    split at hs
    · rename_i hu
      split at hs
      · rename_i hr
        cases hs
        exact (h.runRoutine hu (writeRegister_keeps hr value)).imp_right Or.inr
      · cases hs
    · cases hs
  | run next =>
    cases hs
    exact ⟨h.switched (switched_switchTo s next), Or.inl ⟨next, rfl⟩⟩

theorem perform_of_step {s s' : State} {l : Label} (h : step s l = some s') :
    perform s l = some s' := by
  unfold step at h
  split at h
  · cases h
  · exact h

theorem Invariant.separate {s : State} (h : Invariant s) (l : Label) : Separate s l := by
  intro s' hs t ht
  have hperform := perform_of_step hs
  rcases (h.perform hperform).2 with ⟨u, rfl⟩ | hlocal
  · cases hperform
    exact (switched_switchTo s u).untouched t
  · rcases ht with ht | ⟨u, rfl⟩
    · exact hlocal.untouched ht
    · cases hperform
      exact (switched_switchTo s u).untouched t

theorem invariant_boot (userRegisters : ThreadId → Reg → Word) (pageTableSize : Nat) :
    Invariant (boot userRegisters pageTableSize) := by
  have hframes : ∀ t, ((boot userRegisters pageTableSize).space t).frames = [] := fun _ => rfl
  refine ⟨⟨rfl, ?_, ?_, ?_⟩, by simp [boot], ?_, Nat.zero_lt_succ _, ?_, ?_⟩
  · intro t u f hf
    rw [hframes] at hf
    cases hf
  · intro t f hf
    rw [hframes] at hf
    cases hf
  · intro t table htable
    cases htable
  · intro hu
    cases hu
  · intro t _ hu
    cases hu
  · intro t cs executable hload
    cases hload

/-- Process isolation: in every run of loads, instructions, memory accesses of the kernel,
interrupts and context switches, each state keeps the address spaces apart and no step touches
what another process sees. -/
theorem isolation (userRegisters : ThreadId → Reg → Word) (pageTableSize : Nat)
    (ls : List Label) :
    AllStates step Isolated (boot userRegisters pageTableSize) ls ∧
      AllSteps step Separate (boot userRegisters pageTableSize) ls := by
  have hkeep : ∀ s l s', Invariant s → step s l = some s' → Invariant s' := fun s l s' h hs =>
    (h.perform (perform_of_step hs)).1
  have hinv := allStates_of_invariant hkeep (invariant_boot userRegisters pageTableSize) ls
  exact ⟨hinv.mono fun s h => h.isolated, hinv.allSteps fun s l h => h.separate l⟩

/-- A program whose only instruction is a system call. -/
def callProgram : NoffFile where
  content :=
    [0xad, 0xdf, 0xba, 0, 0, 0, 0, 0, 40, 0, 0, 0, 4, 0, 0, 0, 4, 0, 0, 0, 44, 0, 0, 0, 0, 0, 0, 0,
      4, 0, 0, 0, 44, 0, 0, 0, 0, 0, 0, 0, 0x0c, 0, 0, 0]
  complete := by decide
  magic := by decide
  wellFormed := by constructor <;> decide

/-- Two processes of this program: the second one writes at its address 8. -/
example :
    ((run step (boot (fun _ _ => 0) 0)
      [.startProcess callProgram, .copy, .startRunning, .oneInstruction, .run 1,
        .myStartProcess callProgram false, .copy, .startRunning, .writeMem 8 4 7, .run 0]).map
      fun s => ((s.space 0).frames, (s.space 1).frames, visible s 0 8, visible s 1 8)) =
    some ([0, 1, 2], [3, 4, 5], some 0, some 7) := by decide +kernel

end Nachos.Multiprogram
