import Mathlib.Data.List.Perm.Subperm
import Mathlib.Logic.Function.Basic
import Mathlib.Order.Bounds.Basic
import Nachos.Lib.Runs

/-!
# The stub file system and its open-file table

In the `FILESYS_STUB` build `FileSystem` (filesys.h) passes every call to the host. Its
table `openFileList` has ten entries; the ids 2 to 9 are handed out by `SC_Open`. The host
hands out file descriptors, which are small numbers of their own.

`FileSystem::Create` ends with `Close(fileDescriptor)`. Inside the class this name is the
member `Close(int id)`, not the host's `Close(int fd)`: the descriptor stays open, and the
table entry with the same number is closed instead. `stable_iff` says that the ids are
stable exactly as long as each `SC_Create` gets a descriptor whose number is that of an
empty table entry.

The buffers and the bytes that `SC_Read` and `SC_Write` move are not part of this module;
of the two calls it keeps what they do to the `OpenFile` object.
-/

namespace Nachos.Filesys.Stub

open Runs

/-! ### The host's descriptors -/

/-- The first number from `d` on, among the next `fuel` ones, that is not in `used`. -/
def lowestFrom (used : List Nat) : Nat → Nat → Nat
  | 0, d => d
  | fuel + 1, d => if d ∈ used then lowestFrom used fuel (d + 1) else d

/-- The lowest descriptor from 3 on that is not in use, which is what `open` returns. -/
def lowestUnused (used : List Nat) : Nat := lowestFrom used used.length 3

theorem lowestFrom_spec (used : List Nat) (fuel d : Nat) :
    d ≤ lowestFrom used fuel d ∧ (∀ e, d ≤ e → e < lowestFrom used fuel d → e ∈ used) ∧
      (lowestFrom used fuel d ∈ used → lowestFrom used fuel d = d + fuel) := by
  induction fuel generalizing d with
  | zero =>
    refine ⟨le_rfl, fun e h1 h2 => ?_, fun _ => rfl⟩
    simp only [lowestFrom] at h2
    omega
  | succ fuel ih =>
    by_cases hd : d ∈ used
    · simp only [lowestFrom, hd, if_true]
      obtain ⟨hle, hbelow, hend⟩ := ih (d + 1)
      refine ⟨by omega, fun e h1 h2 => ?_, fun h => by have := hend h; omega⟩
      by_cases he : e = d
      · subst he
        exact hd
      · exact hbelow e (by omega) h2
    · simp only [lowestFrom, hd, if_false]
      exact ⟨le_rfl, fun e h1 h2 => by omega, fun h => h.elim⟩

theorem lowestUnused_notMem (used : List Nat) : lowestUnused used ∉ used := by
  intro hmem
  obtain ⟨_, hbelow, hend⟩ := lowestFrom_spec used used.length 3
  have hlast : lowestUnused used = 3 + used.length := hend hmem
  -- then `used` would contain `used.length + 1` different numbers
  have hsub : List.range' 3 (used.length + 1) ⊆ used := by
    intro e he
    simp only [List.mem_range'_1] at he
    by_cases h : e = 3 + used.length
    · rw [h, ← hlast]
      exact hmem
    · apply hbelow e he.1
      show e < lowestUnused used
      omega
  have hlen := ((List.nodup_range' (s := 3)).subperm hsub).length_le
  simp only [List.length_range'] at hlen
  omega

/-- `open` returns the least unused descriptor. -/
theorem lowestUnused_isLeast (used : List Nat) :
    IsLeast {d | 3 ≤ d ∧ d ∉ used} (lowestUnused used) := by
  obtain ⟨hle, hbelow, _⟩ := lowestFrom_spec used used.length 3
  refine ⟨⟨hle, lowestUnused_notMem used⟩, fun d hd => ?_⟩
  by_contra hlt
  exact hd.2 (hbelow d hd.1 (not_le.mp hlt))

/-! ### The file system -/

/-- The number of an `OpenFile` object on the kernel's heap. -/
abbrev ObjId := Nat

/-- The fields of the stub's `OpenFile`. -/
structure OpenFile where
  file : Int
  type : Int
  currentOffset : Int
deriving DecidableEq

/-- How the simulator ends early: an ASSERT fails, or the code's behaviour is not defined
(an access outside `openFileList`, or to a deleted object). -/
inductive Stop
  | aborted
  | undefined
deriving DecidableEq

structure State where
  /-- The table; `none` is the NULL pointer. -/
  openFileList : Nat → Option ObjId
  /-- The objects made so far; a deleted one is `none`. -/
  objects : ObjId → Option OpenFile
  numObjects : Nat
  /-- The host descriptors in use. -/
  used : List Nat
  stopped : Option Stop
  /-- History: the object each id was bound to when it was handed out, until an `SC_Close`
  of that id succeeds. No function of the code reads it. -/
  bound : Nat → Option ObjId

/-- The host's `open`: a descriptor, or -1. -/
def hostOpen (s : State) (granted : Bool) : State × Int :=
  if granted then
    ({ s with used := lowestUnused s.used :: s.used }, lowestUnused s.used)
  else (s, -1)

/-- The global `Close(int fd)` of sysdep.cc, with its ASSERT. -/
def hostClose (s : State) (fd : Int) : State :=
  if 0 ≤ fd ∧ fd.toNat ∈ s.used then
    { s with used := s.used.filter (· ≠ fd.toNat) }
  else { s with stopped := some .aborted }

/-- `delete` of an object: the destructor closes its descriptor. -/
def deleteFile (s : State) (o : ObjId) : State :=
  match s.objects o with
  | none => { s with stopped := some .undefined }
  | some f => hostClose { s with objects := Function.update s.objects o none } f.file

/-- The member `FileSystem::Close(int id)`. -/
def fsClose (s : State) (id : Nat) : State × Bool :=
  if 10 ≤ id then ({ s with stopped := some .undefined }, false)
  else
    match s.openFileList id with
    | none => (s, false)
    | some o =>
      let s := deleteFile s o
      if s.stopped.isSome then (s, false)
      else ({ s with openFileList := Function.update s.openFileList id none }, true)

/-- `FileSystem::Create`: `OpenForWrite` aborts when the host refuses, and the call to
`Close` is the one of the member above. -/
def fsCreate (s : State) (granted : Bool) : State × Bool :=
  let (s, fileDescriptor) := hostOpen s granted
  if fileDescriptor < 0 then ({ s with stopped := some .aborted }, false)
  else ((fsClose s fileDescriptor.toNat).1, true)

/-- `FileSystem::Open(char *name, int type)`. For a type other than 0 and 1 the local
`fileDescriptor` is read without having been set; `garbage` is what it holds. -/
def fsOpen (s : State) (type : Int) (granted : Bool) (garbage : Int) : State × Option ObjId :=
  let (s, fileDescriptor) :=
    if type = 0 ∨ type = 1 then hostOpen s granted else (s, garbage)
  if fileDescriptor = -1 then (s, none)
  else
    ({ s with
        objects := Function.update s.objects s.numObjects
          (some { file := fileDescriptor, type := type, currentOffset := 0 })
        numObjects := s.numObjects + 1 }, some s.numObjects)

/-- `FileSystem::FindFreeBlock`; `none` is the result -1. -/
def findFreeBlock (s : State) : Option Nat :=
  (List.range' 2 8).find? fun i => s.openFileList i = none

/-! ### The system calls -/

/-- One system call with its arguments and the host's answer: whether `open` succeeds, and
what `read` and `write` return. The table is shared by all processes, so the caller does
not matter. -/
inductive Call
  | scCreate (name : String) (granted : Bool)
  | scOpen (name : String) (type : Int) (granted : Bool)
  | scClose (fid : Int)
  | scRead (size fID numRead : Int)
  | scWrite (size fID numWritten : Int)

/-- `SC_Create`, with the value of r2. -/
def scCreate (s : State) (granted : Bool) : State × Int :=
  let (s, ok) := fsCreate s granted
  (s, if ok then 0 else -1)

/-- `SC_Open`, with the value of r2. -/
def scOpen (s : State) (type : Int) (granted : Bool) : State × Int :=
  if type ≠ 0 ∧ type ≠ 1 then (s, -1)
  else
    match findFreeBlock s with
    | none => (s, -1)
    | some freeBlock =>
      match fsOpen s type granted 0 with
      | (s, none) => (s, -1)
      | (s, some file) =>
        ({ s with
            openFileList := Function.update s.openFileList freeBlock (some file)
            bound := Function.update s.bound freeBlock (some file) }, freeBlock)

/-- `SC_Close`, with the value of r2. -/
def scClose (s : State) (fid : Int) : State × Int :=
  if fid < 2 ∨ fid > 9 then (s, -1)
  else if s.openFileList fid.toNat = none then (s, -1)
  else
    match fsClose s fid.toNat with
    | (s, false) => (s, -1)
    | (s, true) =>
      ({ s with
          openFileList := Function.update s.openFileList fid.toNat none
          bound := Function.update s.bound fid.toNat none }, 0)

/-- The table entry that `SC_Read` and `SC_Write` work on, if the id passes their checks. -/
def fileOf (s : State) (fID : Int) : Option ObjId :=
  if fID < 2 ∨ fID > 9 then none else s.openFileList fID.toNat

/-- `OpenFile::Read` and `OpenFile::Write` seek to the offset (`Lseek` asserts) and then
advance it by what was transferred. -/
def advance (s : State) (o : ObjId) (f : OpenFile) (n : Int) : State :=
  if f.currentOffset < 0 then { s with stopped := some .aborted }
  else
    { s with
      objects := Function.update s.objects o
        (some { f with currentOffset := f.currentOffset + n }) }

/-- `SC_Read`: id 0 is the console. -/
def scRead (s : State) (fID numRead : Int) : State :=
  if fID = 0 then s
  else
    match fileOf s fID with
    | none => s
    | some o =>
      match s.objects o with
      | none => { s with stopped := some .undefined }
      | some f => advance s o f numRead

/-- `SC_Write`: id 1 is the console, a file of type 1 is read-only, and `WriteFile` asserts
that everything was written. -/
def scWrite (s : State) (size fID numWritten : Int) : State :=
  if fID = 1 then s
  else
    match fileOf s fID with
    | none => s
    | some o =>
      match s.objects o with
      | none => { s with stopped := some .undefined }
      | some f =>
        if f.type = 1 then s
        else if numWritten = size then advance s o f size
        else { s with stopped := some .aborted }

def call (s : State) : Call → State
  | .scCreate _ granted => (scCreate s granted).1
  | .scOpen _ type granted => (scOpen s type granted).1
  | .scClose fid => (scClose s fid).1
  | .scRead _ fID numRead => scRead s fID numRead
  | .scWrite size fID numWritten => scWrite s size fID numWritten

/-- One call of the running simulator. -/
def step (s : State) (c : Call) : Option State :=
  if s.stopped.isSome then none else some (call s c)

/-- Before the constructor: the table is empty and the host has its three standard
descriptors open. -/
def blank : State where
  openFileList := fun _ => none
  objects := fun _ => none
  numObjects := 0
  used := [0, 1, 2]
  stopped := none
  bound := fun _ => none

/-- `openFileList[id] = Open(name, type)` in the constructor. -/
def openStandard (s : State) (id : Nat) (type garbage : Int) : State :=
  let (s, file) := fsOpen s type true garbage
  { s with
    openFileList := Function.update s.openFileList id file
    bound := Function.update s.bound id file }

/-- The constructor of `FileSystem`; `u` and `v` are what the uninitialised descriptor of
its two calls to `Open` holds. -/
def boot (u v : Int) : State :=
  let s := (fsCreate blank true).1
  let s := (fsCreate s true).1
  let s := openStandard s 0 2 u
  openStandard s 1 3 v

/-! ### Stable ids -/

/-- The ids are stable: every entry holds the object its id was bound to, that object has
not been deleted, and no two entries hold the same object. -/
structure Stable (s : State) : Prop where
  defined : s.stopped ≠ some .undefined
  same : ∀ i < 10, s.openFileList i = s.bound i
  alive : ∀ i < 10, ∀ o, s.bound i = some o → s.objects o ≠ none
  distinct : ∀ i < 10, ∀ j < 10, ∀ o,
    s.openFileList i = some o → s.openFileList j = some o → i = j

/-- An `SC_Create` changes no entry of the table. -/
def CreateKeeps (s : State) (c : Call) : Prop :=
  ∀ name granted, c = .scCreate name granted → ∀ s', step s c = some s' →
    s'.stopped ≠ some .undefined ∧ s'.openFileList = s.openFileList

/-- The host gives an `SC_Create` a descriptor that numbers an empty entry of the table. -/
def Harmless (s : State) : Call → Prop
  | .scCreate _ true =>
    lowestUnused s.used < 10 ∧ s.openFileList (lowestUnused s.used) = none
  | _ => True

instance (s : State) (c : Call) : Decidable (Harmless s c) := by
  cases c with
  | scCreate name granted =>
    cases granted with
    | false => exact isTrue trivial
    | true => exact inferInstanceAs (Decidable (_ ∧ _))
  | _ => exact isTrue trivial

/-- The invariant of the runs in which every `SC_Create` is harmless: besides the table and
its history being the same, the entries from 2 on hold different descriptors that are open
on the host. -/
structure Sound (s : State) : Prop where
  defined : s.stopped ≠ some .undefined
  same : s.openFileList = s.bound
  live : ∀ i o, s.openFileList i = some o → (∃ f, s.objects o = some f) ∧ o < s.numObjects
  distinct : ∀ i j o, s.openFileList i = some o → s.openFileList j = some o → i = j
  inUse : ∀ i o f, 2 ≤ i → s.openFileList i = some o → s.objects o = some f →
    0 ≤ f.file ∧ f.file.toNat ∈ s.used
  files : ∀ i j o p f g, 2 ≤ i → 2 ≤ j → s.openFileList i = some o →
    s.openFileList j = some p → s.objects o = some f → s.objects p = some g →
    f.file = g.file → i = j

namespace Sound

variable {s : State}

theorem stable (h : Sound s) : Stable s where
  defined := h.defined
  same := fun i _ => by rw [h.same]
  alive := by
    intro i _ o hi hnone
    rw [← h.same] at hi
    obtain ⟨⟨f, hf⟩, _⟩ := h.live i o hi
    rw [hf] at hnone
    cases hnone
  distinct := fun i _ j _ o hi hj => h.distinct i j o hi hj

/-- A failed ASSERT leaves everything as it is. -/
theorem abort (h : Sound s) : Sound { s with stopped := some .aborted } where
  defined := by simp
  same := h.same
  live := h.live
  distinct := h.distinct
  inUse := h.inUse
  files := h.files

/-- A descriptor that is opened and never closed again. -/
theorem leak (h : Sound s) (d : Nat) : Sound { s with used := d :: s.used } where
  defined := h.defined
  same := h.same
  live := h.live
  distinct := h.distinct
  inUse := by
    intro i o f h2 hi hf
    obtain ⟨hpos, hmem⟩ := h.inUse i o f h2 hi hf
    exact ⟨hpos, List.mem_cons_of_mem d hmem⟩
  files := h.files

/-- An object may change as long as it keeps its descriptor. -/
theorem setObject (h : Sound s) {o : ObjId} {f f' : OpenFile} (ho : s.objects o = some f)
    (hfile : f'.file = f.file) :
    Sound { s with objects := Function.update s.objects o (some f') } := by
  -- every object of the new state has the descriptor it had before
  have hold : ∀ p g, Function.update s.objects o (some f') p = some g →
      ∃ g', s.objects p = some g' ∧ g.file = g'.file := by
    intro p g hp
    by_cases hpo : p = o
    · subst hpo
      simp only [Function.update_self, Option.some.injEq] at hp
      subst hp
      exact ⟨f, ho, hfile⟩
    · simp only [Function.update_of_ne hpo] at hp
      exact ⟨g, hp, rfl⟩
  refine ⟨h.defined, h.same, ?_, h.distinct, ?_, ?_⟩
  · intro i p hi
    obtain ⟨⟨g, hg⟩, hlt⟩ := h.live i p hi
    refine ⟨?_, hlt⟩
    by_cases hpo : p = o
    · exact ⟨f', by simp only [hpo, Function.update_self]⟩
    · exact ⟨g, by simp only [Function.update_of_ne hpo, hg]⟩
  · intro i p g h2 hi hg
    obtain ⟨g', hg', heq⟩ := hold p g hg
    rw [heq]
    exact h.inUse i p g' h2 hi hg'
  · intro i j p q g k h2 h2' hi hj hg hk hgk
    obtain ⟨g', hg', heq⟩ := hold p g hg
    obtain ⟨k', hk', heq'⟩ := hold q k hk
    apply h.files i j p q g' k' h2 h2' hi hj hg' hk'
    rw [← heq, hgk, heq']

/-- A new object enters an empty entry. From entry 2 on its descriptor is one that the host
has just given. -/
theorem enter (h : Sound s) {i : Nat} (hi : s.openFileList i = none) (f : OpenFile)
    {used' : List Nat} (hused : s.used ⊆ used')
    (hf : 2 ≤ i → 0 ≤ f.file ∧ f.file.toNat ∈ used' ∧ f.file.toNat ∉ s.used) :
    Sound
      { s with
        used := used'
        objects := Function.update s.objects s.numObjects (some f)
        numObjects := s.numObjects + 1
        openFileList := Function.update s.openFileList i (some s.numObjects)
        bound := Function.update s.bound i (some s.numObjects) } := by
  -- an entry of the new table is the new one, or an old one with an old object
  have hentry : ∀ j o g, Function.update s.openFileList i (some s.numObjects) j = some o →
      Function.update s.objects s.numObjects (some f) o = some g →
      (j = i ∧ o = s.numObjects ∧ g = f) ∨
        (o ≠ s.numObjects ∧ s.openFileList j = some o ∧ s.objects o = some g) := by
    intro j o g hj hg
    by_cases hji : j = i
    · subst hji
      simp only [Function.update_self, Option.some.injEq] at hj
      subst hj
      simp only [Function.update_self, Option.some.injEq] at hg
      exact Or.inl ⟨rfl, rfl, hg.symm⟩
    · simp only [Function.update_of_ne hji] at hj
      have hne : o ≠ s.numObjects := ne_of_lt (h.live j o hj).2
      simp only [Function.update_of_ne hne] at hg
      exact Or.inr ⟨hne, hj, hg⟩
  have hlive : ∀ j o, Function.update s.openFileList i (some s.numObjects) j = some o →
      (∃ g, Function.update s.objects s.numObjects (some f) o = some g) ∧
        o < s.numObjects + 1 := by
    intro j o hj
    by_cases hji : j = i
    · subst hji
      simp only [Function.update_self, Option.some.injEq] at hj
      subst hj
      exact ⟨⟨f, Function.update_self ..⟩, Nat.lt_succ_self _⟩
    · simp only [Function.update_of_ne hji] at hj
      obtain ⟨⟨g, hg⟩, hlt⟩ := h.live j o hj
      refine ⟨⟨g, ?_⟩, Nat.lt_succ_of_lt hlt⟩
      simp only [Function.update_of_ne (ne_of_lt hlt), hg]
  -- an old entry has a descriptor in use, the new one had not
  have hdiff : 2 ≤ i → ∀ j o g, 2 ≤ j → s.openFileList j = some o → s.objects o = some g →
      g.file ≠ f.file := by
    intro h2 j o g hj2 hj hg heq
    obtain ⟨-, hmem⟩ := h.inUse j o g hj2 hj hg
    rw [heq] at hmem
    exact (hf h2).2.2 hmem
  refine ⟨h.defined, by simp only [h.same], hlive, ?_, ?_, ?_⟩
  · intro j k o hj hk
    obtain ⟨⟨g, hg⟩, _⟩ := hlive j o hj
    rcases hentry j o g hj hg with ⟨rfl, rfl, -⟩ | ⟨hne, hj', -⟩
    · rcases hentry k _ g hk hg with ⟨rfl, -, -⟩ | ⟨hne, -, -⟩
      · rfl
      · exact absurd rfl hne
    · rcases hentry k o g hk hg with ⟨-, rfl, -⟩ | ⟨-, hk', -⟩
      · exact absurd rfl hne
      · exact h.distinct j k o hj' hk'
  · intro j o g hj2 hj hg
    rcases hentry j o g hj hg with ⟨rfl, -, rfl⟩ | ⟨-, hj', hg'⟩
    · exact ⟨(hf hj2).1, (hf hj2).2.1⟩
    · obtain ⟨hpos, hmem⟩ := h.inUse j o g hj2 hj' hg'
      exact ⟨hpos, hused hmem⟩
  · intro j k o p g g' hj2 hk2 hj hk hg hg' hfile
    rcases hentry j o g hj hg with ⟨rfl, -, rfl⟩ | ⟨-, hj', hgo⟩ <;>
      rcases hentry k p g' hk hg' with ⟨rfl, -, rfl⟩ | ⟨-, hk', hgo'⟩
    · rfl
    · exact absurd hfile.symm (hdiff hj2 k p g' hk2 hk' hgo')
    · exact absurd hfile (hdiff hk2 j o g hj2 hj' hgo)
    · exact h.files j k o p g g' hj2 hk2 hj' hk' hgo hgo' hfile

/-- An entry is closed: its object is deleted and its descriptor freed. -/
theorem closed (h : Sound s) {i : Nat} {o : ObjId} {f : OpenFile} (h2 : 2 ≤ i)
    (hi : s.openFileList i = some o) (hf : s.objects o = some f) :
    Sound
      { s with
        objects := Function.update s.objects o none
        used := s.used.filter (· ≠ f.file.toNat)
        openFileList := Function.update s.openFileList i none
        bound := Function.update s.bound i none } := by
  have hentry : ∀ j p, Function.update s.openFileList i none j = some p →
      j ≠ i ∧ s.openFileList j = some p ∧ p ≠ o := by
    intro j p hj
    by_cases hji : j = i
    · subst hji
      simp only [Function.update_self] at hj
      cases hj
    · simp only [Function.update_of_ne hji] at hj
      refine ⟨hji, hj, fun hpo => hji ?_⟩
      subst hpo
      exact h.distinct j i p hj hi
  refine ⟨h.defined, by simp only [h.same], ?_, ?_, ?_, ?_⟩
  · intro j p hj
    obtain ⟨-, hj', hne⟩ := hentry j p hj
    simp only [Function.update_of_ne hne]
    exact h.live j p hj'
  · intro j k p hj hk
    exact h.distinct j k p (hentry j p hj).2.1 (hentry k p hk).2.1
  · intro j p g hj2 hj hg
    obtain ⟨hji, hj', hne⟩ := hentry j p hj
    simp only [Function.update_of_ne hne] at hg
    obtain ⟨hpos, hmem⟩ := h.inUse j p g hj2 hj' hg
    obtain ⟨hpos', -⟩ := h.inUse i o f h2 hi hf
    refine ⟨hpos, List.mem_filter.mpr ⟨hmem, ?_⟩⟩
    -- another entry with the descriptor just freed would be the same entry
    simp only [ne_eq, decide_eq_true_eq]
    intro heq
    apply hji
    apply h.files j i p o g f hj2 h2 hj' hi hg hf
    omega
  · intro j k p q g g' hj2 hk2 hj hk hg hg' hfile
    obtain ⟨-, hj', hne⟩ := hentry j p hj
    obtain ⟨-, hk', hne'⟩ := hentry k q hk
    simp only [Function.update_of_ne hne] at hg
    simp only [Function.update_of_ne hne'] at hg'
    exact h.files j k p q g g' hj2 hk2 hj' hk' hg hg' hfile

end Sound

/-! ### One call -/

theorem findFreeBlock_some {s : State} {i : Nat} (h : findFreeBlock s = some i) :
    2 ≤ i ∧ i < 10 ∧ s.openFileList i = none := by
  have hmem := List.mem_of_find?_eq_some h
  have hnone := List.find?_some h
  simp only [List.mem_range'_1] at hmem
  simp only [decide_eq_true_eq] at hnone
  exact ⟨hmem.1, by omega, hnone⟩

/-- What deleting the object of an open entry does. -/
theorem Sound.deleteFile_eq {s : State} (h : Sound s) {i : Nat} {o : ObjId} (h2 : 2 ≤ i)
    (hi : s.openFileList i = some o) :
    ∃ f, s.objects o = some f ∧
      deleteFile s o =
        { s with
          objects := Function.update s.objects o none
          used := s.used.filter (· ≠ f.file.toNat) } := by
  obtain ⟨⟨f, hf⟩, _⟩ := h.live i o hi
  have hin := h.inUse i o f h2 hi hf
  refine ⟨f, hf, ?_⟩
  simp only [deleteFile, hf, hostClose]
  rw [if_pos hin]

/-- The member `Close` of an open entry, in a simulator that runs. -/
theorem Sound.fsClose_eq {s : State} (h : Sound s) (hrun : s.stopped = none) {i : Nat}
    {o : ObjId} (h2 : 2 ≤ i) (h10 : i < 10) (hi : s.openFileList i = some o) :
    ∃ f, s.objects o = some f ∧
      fsClose s i =
        ({ s with
            objects := Function.update s.objects o none
            used := s.used.filter (· ≠ f.file.toNat)
            openFileList := Function.update s.openFileList i none }, true) := by
  obtain ⟨f, hf, hdel⟩ := h.deleteFile_eq h2 hi
  refine ⟨f, hf, ?_⟩
  simp only [fsClose, hi, hdel, hrun, Option.isSome_none, Bool.false_eq_true, if_false]
  rw [if_neg (by omega)]

theorem Sound.advance {s : State} (h : Sound s) {o : ObjId} {f : OpenFile} (n : Int)
    (ho : s.objects o = some f) : Sound (advance s o f n) := by
  unfold Stub.advance
  split
  · exact h.abort
  · exact h.setObject ho rfl

theorem fileOf_some {s : State} {fID : Int} {o : ObjId} (h : fileOf s fID = some o) :
    s.openFileList fID.toNat = some o := by
  unfold fileOf at h
  split at h
  · cases h
  · exact h

theorem Sound.scRead {s : State} (h : Sound s) (fID numRead : Int) :
    Sound (scRead s fID numRead) := by
  unfold Stub.scRead
  by_cases h0 : fID = 0
  · simp only [h0, if_true]
    exact h
  simp only [h0, if_false]
  cases hfile : fileOf s fID with
  | none => exact h
  | some o =>
    obtain ⟨⟨f, hf⟩, _⟩ := h.live _ o (fileOf_some hfile)
    simp only [hf]
    exact h.advance numRead hf

theorem Sound.scWrite {s : State} (h : Sound s) (size fID numWritten : Int) :
    Sound (scWrite s size fID numWritten) := by
  unfold Stub.scWrite
  by_cases h1 : fID = 1
  · simp only [h1, if_true]
    exact h
  simp only [h1, if_false]
  cases hfile : fileOf s fID with
  | none => exact h
  | some o =>
    obtain ⟨⟨f, hf⟩, _⟩ := h.live _ o (fileOf_some hfile)
    simp only [hf]
    split
    · exact h
    · split
      · exact h.advance size hf
      · exact h.abort

theorem Sound.scOpen {s : State} (h : Sound s) (type : Int) (granted : Bool) :
    Sound (scOpen s type granted).1 := by
  unfold Stub.scOpen
  by_cases htype : type ≠ 0 ∧ type ≠ 1
  · rw [if_pos htype]
    exact h
  have htype' : type = 0 ∨ type = 1 := by omega
  rw [if_neg htype]
  cases hfree : findFreeBlock s with
  | none => exact h
  | some i =>
    obtain ⟨h2, _, hi⟩ := findFreeBlock_some hfree
    cases granted with
    | false =>
      simp only [fsOpen, hostOpen, htype', if_true, Bool.false_eq_true, if_false]
      exact h
    | true =>
      have hne : ((lowestUnused s.used : Nat) : Int) ≠ -1 := by omega
      simp only [fsOpen, hostOpen, htype', if_true, hne, if_false]
      apply h.enter hi
      · exact List.subset_cons_self ..
      · intro _
        simp only [Int.toNat_natCast]
        exact ⟨by omega, List.mem_cons_self .., lowestUnused_notMem s.used⟩

theorem Sound.scClose {s : State} (h : Sound s) (hrun : s.stopped = none) (fid : Int) :
    Sound (scClose s fid).1 := by
  unfold Stub.scClose
  by_cases hrange : fid < 2 ∨ fid > 9
  · rw [if_pos hrange]
    exact h
  rw [if_neg hrange]
  cases hi : s.openFileList fid.toNat with
  | none =>
    simp only [if_true]
    exact h
  | some o =>
    have h2 : 2 ≤ fid.toNat := by omega
    obtain ⟨f, hf, hclose⟩ := h.fsClose_eq hrun h2 (by omega) hi
    simp only [reduceCtorEq, if_false, hclose, Function.update_idem]
    exact h.closed h2 hi hf

/-- What `SC_Create` does: it takes a descriptor for good, and calls the member `Close`
with it. -/
theorem scCreate_fst (s : State) (granted : Bool) :
    (scCreate s granted).1 =
      if granted then
        (fsClose { s with used := lowestUnused s.used :: s.used } (lowestUnused s.used)).1
      else { s with stopped := some .aborted } := by
  cases granted with
  | false => rfl
  | true =>
    have hpos : ¬ ((lowestUnused s.used : Nat) : Int) < 0 := by omega
    simp only [Stub.scCreate, fsCreate, hostOpen, if_true, hpos, if_false, Int.toNat_natCast]

theorem fsClose_empty {s : State} {i : Nat} (h10 : i < 10) (hi : s.openFileList i = none) :
    fsClose s i = (s, false) := by
  unfold fsClose
  rw [if_neg (by omega), hi]

/-- A harmless `SC_Create` only takes a descriptor, or aborts. -/
theorem scCreate_of_harmless {s : State} {name : String} {granted : Bool}
    (h : Harmless s (.scCreate name granted)) :
    (scCreate s granted).1 =
      if granted then { s with used := lowestUnused s.used :: s.used }
      else { s with stopped := some .aborted } := by
  rw [scCreate_fst]
  cases granted with
  | false => rfl
  | true =>
    obtain ⟨h10, hnone⟩ := h
    simp only [if_true]
    have hclose : ∀ s' : State, s'.openFileList = s.openFileList →
        (fsClose s' (lowestUnused s.used)).1 = s' := by
      intro s' hs'
      rw [fsClose_empty h10 (by rw [hs', hnone])]
    exact hclose _ rfl

theorem Sound.scCreate {s : State} (h : Sound s) {name : String} {granted : Bool}
    (hgood : Harmless s (.scCreate name granted)) : Sound (scCreate s granted).1 := by
  rw [scCreate_of_harmless hgood]
  split
  · exact h.leak _
  · exact h.abort

theorem step_eq_some {s s' : State} {c : Call} (h : step s c = some s') :
    s.stopped = none ∧ s' = call s c := by
  unfold step at h
  split at h
  · cases h
  · rename_i hrun
    simp only [Option.some.injEq] at h
    exact ⟨by simpa using hrun, h.symm⟩

/-- A harmless call keeps the invariant. -/
theorem Sound.step {s s' : State} {c : Call} (h : Sound s) (hgood : Harmless s c)
    (hstep : step s c = some s') : Sound s' := by
  obtain ⟨hrun, rfl⟩ := step_eq_some hstep
  cases c with
  | scCreate name granted => exact h.scCreate hgood
  | scOpen name type granted => exact h.scOpen type granted
  | scClose fid => exact h.scClose hrun fid
  | scRead size fID numRead => exact h.scRead fID numRead
  | scWrite size fID numWritten => exact h.scWrite size fID numWritten

/-- A call that is not harmless closes a table entry that nobody asked to close, or leaves
the table. -/
theorem Sound.not_stable_of_step {s s' : State} {c : Call} (h : Sound s)
    (hbad : ¬ Harmless s c) (hstep : Stub.step s c = some s') : ¬ Stable s' := by
  obtain ⟨hrun, rfl⟩ := step_eq_some hstep
  obtain ⟨name, rfl⟩ : ∃ name, c = .scCreate name true := by
    cases c with
    | scCreate name granted =>
      cases granted with
      | true => exact ⟨name, rfl⟩
      | false => exact absurd trivial hbad
    | _ => exact absurd trivial hbad
  intro hstable
  simp only [call, scCreate_fst, if_true] at hstable
  by_cases h10 : lowestUnused s.used < 10
  · obtain ⟨o, ho⟩ : ∃ o, s.openFileList (lowestUnused s.used) = some o := by
      apply Option.ne_none_iff_exists'.mp
      exact fun hnone => hbad ⟨h10, hnone⟩
    have h3 : 3 ≤ lowestUnused s.used := (lowestUnused_isLeast s.used).1.1
    obtain ⟨f, -, hclose⟩ := (h.leak (lowestUnused s.used)).fsClose_eq hrun (by omega) h10 ho
    have hsame := hstable.same _ h10
    rw [hclose, ← h.same] at hsame
    simp only [Function.update_self, ho] at hsame
    cases hsame
  · apply hstable.defined
    simp only [fsClose, if_pos (not_lt.mp h10)]

/-! ### Every run -/

theorem fsOpen_openFileList (s : State) (type : Int) (granted : Bool) (garbage : Int) :
    (fsOpen s type granted garbage).1.openFileList = s.openFileList := by
  simp only [fsOpen, hostOpen]
  split_ifs <;> simp

theorem Sound.openStandard {s : State} (h : Sound s) {i : Nat} {type : Int} (garbage : Int) (h2 : i < 2)
    (hi : s.openFileList i = none) (htype : 2 ≤ type) :
    Sound (openStandard s i type garbage) := by
  have htype' : ¬ (type = 0 ∨ type = 1) := by omega
  simp only [Stub.openStandard, fsOpen, htype', if_false]
  by_cases hg : garbage = -1
  · simp only [hg, if_true]
    have htable : Function.update s.openFileList i none = s.openFileList := by
      rw [← hi, Function.update_eq_self]
    simp only [← h.same, htable]
    exact ⟨h.defined, rfl, h.live, h.distinct, h.inUse, h.files⟩
  · simp only [hg, if_false]
    exact h.enter hi _ (List.Subset.refl _) fun h2' => absurd h2' (by omega)

/-- The constructor leaves the descriptors 3 and 4 open and the entries from 2 on empty. -/
theorem sound_boot (u v : Int) : Sound (boot u v) := by
  have hblank : Sound blank := by
    constructor <;> simp [blank]
  have hstdin : Harmless blank (.scCreate "stdin" true) := by decide
  have hstdout : Harmless (scCreate blank true).1 (.scCreate "stdout" true) := by decide
  have h2 : Sound (scCreate (scCreate blank true).1 true).1 :=
    (hblank.scCreate hstdin).scCreate hstdout
  have h3 := h2.openStandard (i := 0) u (by omega) rfl (le_refl 2)
  show Sound (openStandard (openStandard (scCreate (scCreate blank true).1 true).1 0 2 u) 1 3 v)
  apply h3.openStandard v (by omega)
  · simp only [Stub.openStandard, fsOpen_openFileList]
    rfl
  · omega

theorem createKeeps_of_harmless {s : State} {c : Call} (hgood : Harmless s c) :
    CreateKeeps s c := by
  rintro name granted rfl s'' hs
  obtain ⟨hrun, rfl⟩ := step_eq_some hs
  simp only [call, scCreate_of_harmless hgood]
  split
  · simp [hrun]
  · simp

/-- In every run from the constructor the ids are stable and `SC_Create` leaves the table
alone if and only if each `SC_Create` that the host grants gets the number of an empty
entry. -/
theorem stable_iff (u v : Int) (calls : List Call) :
    (AllStates step Stable (boot u v) calls ∧ AllSteps step CreateKeeps (boot u v) calls) ↔
      AllSteps step Harmless (boot u v) calls := by
  have hiff : AllStates step Stable (boot u v) calls ↔ AllSteps step Harmless (boot u v) calls :=
    allStates_iff_allSteps (fun s => Sound.stable) (fun s c s' h hgood hs => h.step hgood hs)
      (fun s c s' h hbad hs => h.not_stable_of_step hbad hs) (sound_boot u v) calls
  constructor
  · intro h
    exact hiff.mp h.1
  · intro h
    exact ⟨hiff.mpr h, h.mono fun s c s' _ hgood => createKeeps_of_harmless hgood⟩

/-- Four files are opened (ids 2 to 5, descriptors 5 to 8), the first one is closed, and
`SC_Create` gets its descriptor 5. -/
def createRun : List Call :=
  [.scOpen "a" 0 true, .scOpen "b" 0 true, .scOpen "c" 0 true, .scOpen "d" 0 true,
    .scClose 2, .scCreate "e" true]

/-- That `SC_Create` closes the file with id 5. -/
theorem not_stable_createRun :
    ¬ (AllStates step Stable (boot 0 0) createRun ∧
      AllSteps step CreateKeeps (boot 0 0) createRun) := by
  rintro ⟨hstates, -⟩
  obtain ⟨t, ht, hnow, hbound⟩ : ∃ t, run step (boot 0 0) createRun = some t ∧
      t.openFileList 5 = none ∧ t.bound 5 = some 5 := ⟨_, rfl, by decide, by decide⟩
  have hsame := (hstates.of_run ht).same 5 (by omega)
  rw [hnow, hbound] at hsame
  cases hsame

end Nachos.Filesys.Stub
