import Nachos.Filesys.Stub
import Nachos.Lib.Programs
import Nachos.Machine.Memory

/-!
# Which entries of the open-file table the system calls use

`openFileList` (filesys.h) has ten entries and no function of the class checks an index. The calls
`SC_Close`, `SC_Read`, `SC_Write`, `SC_WriteF2File` and `SC_WriteInt2File` check the id that they are
given. `SC_ReadFileFormat` does not, and `SC_Create` closes the entry with the number of a host
descriptor.

The handlers are those of `Stub`, with a record of the indices (`handler_refines`). `inRange_iff`:
the runs in which all of them are in the table.
-/

namespace Nachos.Filesys.TableAccess

open Programs Program Runs Stub

/-! ### The handlers -/

structure Recorded where
  state : State
  /-- The indices that were used, in this order. -/
  touched : List Int

/-- A handler may stop the simulation. -/
abbrev Handler := Program Recorded Stop Empty

def touch (i : Int) : Handler Unit := do
  modify fun r => { r with touched := r.touched ++ [i] }
  if 0 ≤ i ∧ i < 10 then pure () else trap .undefined

/-- `openFileList[i]`, when it is read. -/
def entry (i : Int) : Handler (Option ObjId) := do
  touch i
  gets fun r => r.state.openFileList i.toNat

/-- `openFileList[i] = file`. -/
def setEntry (i : Int) (file : Option ObjId) : Handler Unit := do
  touch i
  modify fun r =>
    { r with state := { r.state with
        openFileList := Function.update r.state.openFileList i.toNat file } }

/-- What does not use the table. -/
def elsewhere {α : Type} (f : State → State × α) : Handler α := fun r =>
  match (f r.state).1.stopped with
  | some e => .trap e { r with state := (f r.state).1 }
  | none => .done (f r.state).2 { r with state := (f r.state).1 }

/-- The member `FileSystem::Close(int id)`. -/
def fsClose (id : Int) : Handler Bool := do
  match ← entry id with
  | none => pure false
  | some o =>
    -- `delete openFileList[id]`
    touch id
    elsewhere fun s => (deleteFile s o, ())
    setEntry id none
    pure true

/-- `FileSystem::Create`. -/
def fsCreate (granted : Bool) : Handler Bool := do
  let fileDescriptor ← elsewhere fun s => hostOpen s granted
  if fileDescriptor < 0 then trap .aborted
  else do
    let _ ← fsClose fileDescriptor
    pure true

/-- The loop of `FileSystem::FindFreeBlock`, for `n` more entries from the index `i` on. -/
def findFreeBlockLoop : Nat → Nat → Handler (Option Nat)
  | 0, _ => pure none
  | n + 1, i => do
    match ← entry i with
    | none => pure (some i)
    | some _ => findFreeBlockLoop n (i + 1)

/-- `SC_Create`, with the value of r2. -/
def scCreate (granted : Bool) : Handler Int := do
  let ok ← fsCreate granted
  pure (if ok then 0 else -1)

/-- The history of the ids. -/
def bindId (i : Nat) (file : Option ObjId) : Handler Unit :=
  elsewhere fun s => ({ s with bound := Function.update s.bound i file }, ())

/-- `SC_Open`, with the value of r2. -/
def scOpen (type : Int) (granted : Bool) : Handler Int :=
  if type ≠ 0 ∧ type ≠ 1 then pure (-1)
  else do
    match ← findFreeBlockLoop 8 2 with
    | none => pure (-1)
    | some freeBlock =>
      match ← elsewhere fun s => fsOpen s type granted 0 with
      | none => pure (-1)
      | some file =>
        setEntry freeBlock (some file)
        bindId freeBlock (some file)
        pure freeBlock

/-- `SC_Close`, with the value of r2. -/
def scClose (fid : Int) : Handler Int :=
  if fid < 2 ∨ fid > 9 then pure (-1)
  else do
    match ← entry fid with
    | none => pure (-1)
    | some _ =>
      if ← fsClose fid then
        setEntry fid none
        bindId fid.toNat none
        pure 0
      else pure (-1)

/-- `file->Read`, which gives `numRead` bytes. -/
def readFile (o : ObjId) (numRead : Int) (s : State) : State :=
  match s.objects o with
  | none => { s with stopped := some .undefined }
  | some f => advance s o f numRead

/-- `file->Write` of `size` bytes, after a check of the type of the file. -/
def writeFile (refused : Int → Bool) (o : ObjId) (size numWritten : Int) (s : State) : State :=
  match s.objects o with
  | none => { s with stopped := some .undefined }
  | some f =>
    if refused f.type then s
    else if numWritten = size then advance s o f size
    else { s with stopped := some .aborted }

/-- The id is checked, and then the file in the table is used. -/
def withFile (fID : Int) (f : ObjId → State → State) : Handler Unit :=
  if fID < 2 ∨ fID > 9 then pure ()
  else do
    match ← entry fID with
    | none => pure ()
    | some o => elsewhere fun s => (f o s, ())

def scRead (fID numRead : Int) : Handler Unit :=
  if fID = 0 then pure () else withFile fID fun o => readFile o numRead

def scWrite (size fID numWritten : Int) : Handler Unit :=
  if fID = 1 then pure () else withFile fID fun o => writeFile (fun t => t = 1) o size numWritten

/-- `SC_WriteF2File`; `size` is the length of the number. -/
def scWriteF2File (size fID numWritten : Int) : Handler Unit :=
  withFile fID fun o => writeFile (fun t => t ≠ 0) o size numWritten

/-- `SC_WriteInt2File`; `size` is the length of the number. -/
def scWriteInt2File (size fID numWritten : Int) : Handler Unit :=
  if fID = 1 then pure () else withFile fID fun o => writeFile (fun t => t = 1) o size numWritten

/-- `SC_ReadFileFormat`, which does not check the id; `numRead` is how far it reads. -/
def scReadFileFormat (fID numRead : Int) : Handler Unit := do
  match ← entry fID with
  | none => pure ()
  | some o => elsewhere fun s => (readFile o numRead s, ())

/-! ### The kernel -/

inductive FileCall
  | scCreate
  | scOpen
  | scClose
  | scRead
  | scWrite
  | scWriteF2File
  | scWriteInt2File
  | scReadFileFormat
  deriving DecidableEq

structure Registers where
  r4 : Word
  r5 : Word
  r6 : Word

/-- What the host does: whether its `open` succeeds, how many bytes it transfers, and how long the
numerals are that `SC_WriteF2File` and `SC_WriteInt2File` write. -/
structure Host where
  granted : Bool
  transferred : Int
  length : Int

/-- The call with its arguments from the registers. -/
def handler (c : FileCall) (regs : Registers) (host : Host) : Handler Unit :=
  match c with
  | .scCreate => do let _ ← scCreate host.granted
  | .scOpen => do let _ ← scOpen regs.r5.toInt host.granted
  | .scClose => do let _ ← scClose regs.r4.toInt
  | .scRead => scRead regs.r6.toInt host.transferred
  | .scWrite => scWrite regs.r5.toInt regs.r6.toInt host.transferred
  | .scWriteF2File => scWriteF2File host.length regs.r5.toInt host.transferred
  | .scWriteInt2File => scWriteInt2File host.length regs.r5.toInt host.transferred
  | .scReadFileFormat => scReadFileFormat regs.r5.toInt host.transferred

/-- A call, or something else in the kernel that opens and closes descriptors of the host. -/
inductive Event
  | fileCall (c : FileCall) (regs : Registers) (host : Host)
  | descriptors (used : List Nat)

/-- The state after a handler. -/
def stateAfter {α : Type} : Outcome Recorded Stop Empty α → Recorded
  | .done _ r => r
  | .trap e r => { r with state := { r.state with stopped := some e } }

def next (r : Recorded) : Event → Recorded
  | .fileCall c regs host => stateAfter (handler c regs host r)
  | .descriptors used => { r with state := { r.state with used := used } }

/-- One event of the running simulator. -/
def step (r : Recorded) (e : Event) : Option Recorded :=
  if r.state.stopped.isSome then none else some (next r e)

/-- Behind the constructor. -/
def start (u v : Int) : Recorded := ⟨boot u v, []⟩

/-! ### Statement -/

def InTable (i : Int) : Prop := 0 ≤ i ∧ i ≤ 9

/-- All indices were in the table. -/
def InRange (r : Recorded) : Prop := ∀ i ∈ r.touched, InTable i

/-- The id of an `SC_ReadFileFormat` is an index of the table, and the host gives an `SC_Create` a
descriptor that is one. -/
def Good (r : Recorded) : Event → Prop
  | .fileCall .scCreate _ host => host.granted = true → lowestUnused r.state.used ≤ 9
  | .fileCall .scReadFileFormat regs _ => InTable regs.r5.toInt
  | _ => True

/-! ### What the handlers record -/

/-- Only indices of the table are added to the record. -/
def tableUse : Contract Recorded Empty where
  rel r r' := ∀ i ∈ r'.touched, i ∈ r.touched ∨ InTable i
  allows _ _ := False
  refl _ _ hi := Or.inl hi
  trans h h' i hi := (h' i hi).elim (h i) Or.inr
  back _ h := h

section Record

variable {r : Recorded} {i : Int}

theorem touch_eq (h : InTable i) (r : Recorded) :
    touch i r = .done () { r with touched := r.touched ++ [i] } := by
  have hin : 0 ≤ i ∧ i < 10 := ⟨h.1, by have := h.2; omega⟩
  show (if 0 ≤ i ∧ i < 10 then pure () else trap .undefined : Handler Unit)
    { r with touched := r.touched ++ [i] } = _
  rw [if_pos hin]
  rfl

theorem touch_outside (h : ¬ InTable i) (r : Recorded) :
    touch i r = .trap .undefined { r with touched := r.touched ++ [i] } := by
  have hout : ¬ (0 ≤ i ∧ i < 10) := fun hin => h ⟨hin.1, by omega⟩
  show (if 0 ≤ i ∧ i < 10 then pure () else trap .undefined : Handler Unit)
    { r with touched := r.touched ++ [i] } = _
  rw [if_neg hout]
  rfl

theorem entry_eq (h : InTable i) (r : Recorded) :
    entry i r = .done (r.state.openFileList i.toNat) { r with touched := r.touched ++ [i] } :=
  bind_done (touch_eq h r)

theorem setEntry_eq (h : InTable i) (file : Option ObjId) (r : Recorded) : setEntry i file r =
    .done () ⟨{ r.state with openFileList := Function.update r.state.openFileList i.toNat file },
      r.touched ++ [i]⟩ :=
  bind_done (touch_eq h r)

theorem entry_outside (h : ¬ InTable i) (r : Recorded) :
    entry i r = .trap .undefined { r with touched := r.touched ++ [i] } :=
  bind_trap (touch_outside h r)

theorem elsewhere_eq {α : Type} {f : State → State × α} (h : (f r.state).1.stopped = none) :
    elsewhere f r = .done (f r.state).2 { r with state := (f r.state).1 } := by
  unfold elsewhere
  rw [h]

theorem elsewhere_eq_done {α : Type} {f : State → State × α} {r r' : Recorded} {a : α}
    (h : elsewhere f r = .done a r') : a = (f r.state).2 ∧ r' = { r with state := (f r.state).1 } := by
  unfold elsewhere at h
  split at h
  · cases h
  · cases h
    exact ⟨rfl, rfl⟩

theorem keeps_touch (h : InTable i) : Keeps tableUse (touch i) := by
  intro r
  rw [touch_eq h]
  intro j hj
  rcases List.mem_append.mp hj with hj | hj
  · exact Or.inl hj
  · rw [List.mem_singleton.mp hj]
    exact Or.inr h

theorem keeps_entry (h : InTable i) : Keeps tableUse (entry i) :=
  (keeps_touch h).bind fun _ => keeps_gets _

theorem keeps_setEntry (h : InTable i) (file : Option ObjId) : Keeps tableUse (setEntry i file) :=
  (keeps_touch h).bind fun _ => keeps_modify fun _ _ hj => Or.inl hj

theorem keeps_elsewhere {α : Type} (f : State → State × α) : Keeps tableUse (elsewhere f) := by
  intro r
  unfold elsewhere
  split
  · exact fun j hj => Or.inl hj
  · exact fun j hj => Or.inl hj

theorem keeps_fsClose (h : InTable i) : Keeps tableUse (fsClose i) := by
  refine (keeps_entry h).bind fun file => ?_
  cases file with
  | none => exact keeps_pure false
  | some o =>
    refine (keeps_touch h).bind fun _ => (keeps_elsewhere _).bind fun _ => ?_
    exact (keeps_setEntry h none).bind fun _ => keeps_pure true

theorem keeps_findFreeBlockLoop (n i : Nat) (h : i + n ≤ 10) :
    Keeps tableUse (findFreeBlockLoop n i) := by
  induction n generalizing i with
  | zero => exact keeps_pure none
  | succ n ih =>
    refine (keeps_entry ⟨by omega, by omega⟩).bind fun file => ?_
    cases file with
    | none => exact keeps_pure (some i)
    | some o => exact ih (i + 1) (by omega)

/-- The loop returns an index of the table. -/
theorem findFreeBlockLoop_lt {n i : Nat} {r r' : Recorded} {b : Nat}
    (h : findFreeBlockLoop n i r = .done (some b) r') : i ≤ b ∧ b < i + n := by
  induction n generalizing i r with
  | zero => cases h
  | succ n ih =>
    obtain ⟨file, r₁, -, hrest⟩ := bind_eq_done h
    cases file with
    | none =>
      cases hrest
      omega
    | some o =>
      have := ih hrest
      omega

theorem admits_scOpen (type : Int) (granted : Bool) (r : Recorded) :
    tableUse.Admits r (scOpen type granted r) := by
  unfold scOpen
  split
  · exact keeps_pure _ r
  · refine Contract.Admits.bind (keeps_findFreeBlockLoop 8 2 (Nat.le_refl 10) r) fun block r₁ hblock => ?_
    cases block with
    | none => exact keeps_pure _ r₁
    | some b =>
      obtain ⟨hlo, hhi⟩ := findFreeBlockLoop_lt hblock
      have hin : InTable b := ⟨by omega, by omega⟩
      have hkeeps : Keeps tableUse (elsewhere fun s => fsOpen s type granted 0) := keeps_elsewhere _
      refine hkeeps.bind (fun file => ?_) r₁
      cases file with
      | none => exact keeps_pure _
      | some o =>
        exact (keeps_setEntry hin _).bind fun _ => (keeps_elsewhere _).bind fun _ => keeps_pure _

theorem keeps_scClose (fid : Int) : Keeps tableUse (scClose fid) := by
  unfold scClose
  split
  · exact keeps_pure _
  · have hin : InTable fid := ⟨by omega, by omega⟩
    refine (keeps_entry hin).bind fun file => ?_
    cases file with
    | none => exact keeps_pure _
    | some o =>
      refine (keeps_fsClose hin).bind fun ok => Keeps.ite ?_ (keeps_pure _)
      exact (keeps_setEntry hin _).bind fun _ => (keeps_elsewhere _).bind fun _ => keeps_pure _

theorem keeps_withFile (fID : Int) (f : ObjId → State → State) : Keeps tableUse (withFile fID f) := by
  unfold withFile
  split
  · exact keeps_pure _
  · have hin : InTable fID := ⟨by omega, by omega⟩
    refine (keeps_entry hin).bind fun file => ?_
    cases file with
    | none => exact keeps_pure _
    | some o => exact keeps_elsewhere _

theorem keeps_scReadFileFormat {fID : Int} (h : InTable fID) (numRead : Int) :
    Keeps tableUse (scReadFileFormat fID numRead) := by
  refine (keeps_entry h).bind fun file => ?_
  cases file with
  | none => exact keeps_pure _
  | some o => exact keeps_elsewhere _

/-- The descriptor that `SC_Create` passes to the member `Close`. -/
theorem admits_scCreate {granted : Bool} (h : granted = true → lowestUnused r.state.used ≤ 9) :
    tableUse.Admits r (scCreate granted r) := by
  have hopen : Keeps tableUse (elsewhere fun s => hostOpen s granted) := keeps_elsewhere _
  have hcreate : tableUse.Admits r (fsCreate granted r) := by
    refine Contract.Admits.bind (hopen r) fun fd r₁ hfd => ?_
    obtain ⟨rfl, -⟩ := elsewhere_eq_done hfd
    cases granted with
    | false => exact keeps_trap _ r₁
    | true =>
      have hin : InTable (lowestUnused r.state.used : Nat) := ⟨by omega, by have := h rfl; omega⟩
      refine Keeps.ite (keeps_trap _) ?_ r₁
      exact (keeps_fsClose hin).bind fun _ => keeps_pure true
  exact Contract.Admits.bind hcreate fun _ r₁ _ => keeps_pure _ r₁

/-- A good call uses only indices of the table. -/
theorem admits_handler {c : FileCall} {regs : Registers} {host : Host}
    (h : Good r (.fileCall c regs host)) : tableUse.Admits r (handler c regs host r) := by
  cases c with
  | scCreate => exact Contract.Admits.bind (admits_scCreate h) fun _ r₁ _ => keeps_pure _ r₁
  | scOpen =>
    exact Contract.Admits.bind (admits_scOpen _ _ r) fun _ r₁ _ => keeps_pure _ r₁
  | scClose => exact (keeps_scClose _).bind (fun _ => keeps_pure _) r
  | scRead => exact Keeps.ite (keeps_pure _) (keeps_withFile _ _) r
  | scWrite => exact Keeps.ite (keeps_pure _) (keeps_withFile _ _) r
  | scWriteF2File => exact keeps_withFile _ _ r
  | scWriteInt2File => exact Keeps.ite (keeps_pure _) (keeps_withFile _ _) r
  | scReadFileFormat => exact keeps_scReadFileFormat h _ r

theorem InRange.stateAfter {α : Type} {o : Outcome Recorded Stop Empty α} (h : InRange r)
    (ho : tableUse.Admits r o) : InRange (stateAfter o) := by
  cases o with
  | done a r' => exact fun i hi => (ho i hi).elim (h i) id
  | trap e r' => exact fun i hi => (ho i hi).elim (h i) id
  | fault f => cases f

/-! ### The handlers of `Stub` -/

/-- The handler ends as the function without a record does; where it stops, so does the function. -/
def Agrees {α : Type} : Outcome Recorded Stop Empty α → State × α → Prop
  | .done a r, x => x = (r.state, a) ∧ r.state.stopped = none
  | .trap e r, x => x.1 = { r.state with stopped := some e }
  | .fault _, _ => False

theorem Agrees.state {α : Type} {o : Outcome Recorded Stop Empty α} {x : State × α} (h : Agrees o x) :
    (TableAccess.stateAfter o).state = x.1 := by
  cases o with
  | done a r =>
    rw [h.1]
    rfl
  | trap e r => exact h.symm
  | fault f => cases f

/-- The rest of a handler. -/
theorem Agrees.bind {α β : Type} {p : Handler α} {f : α → Handler β} {x : State × α} {y : State × β}
    (hp : Agrees (p r) x)
    (hdone : ∀ r', p r = .done x.2 r' → r'.state = x.1 → x.1.stopped = none → Agrees (f x.2 r') y)
    (hstopped : x.1.stopped ≠ none → y.1 = x.1) : Agrees ((p >>= f) r) y := by
  cases hr : p r with
  | done a r' =>
    rw [hr] at hp
    obtain ⟨rfl, hrun⟩ := hp
    rw [bind_done hr]
    exact hdone r' hr rfl hrun
  | trap e r' =>
    rw [hr] at hp
    have hx : x.1 = { r'.state with stopped := some e } := hp
    rw [bind_trap hr]
    refine (hstopped ?_).trans hx
    rw [hx]
    simp
  | fault e => cases e

theorem agrees_elsewhere {α : Type} (f : State → State × α) (r : Recorded) :
    Agrees (elsewhere f r) (f r.state) := by
  unfold elsewhere
  split
  · rename_i e he
    show (f r.state).1 = { (f r.state).1 with stopped := some e }
    rw [← he]
  · rename_i hrun
    exact ⟨rfl, hrun⟩

theorem bindId_eq {s : State} (hrun : s.stopped = none) {l : List Int} {j : Nat} {table : Nat → Option ObjId}
    {file : Option ObjId} : bindId j file ⟨{ s with openFileList := table }, l⟩ =
      .done () ⟨{ s with openFileList := table, bound := Function.update s.bound j file }, l⟩ :=
  elsewhere_eq hrun

theorem agrees_fsClose (hrun : r.state.stopped = none) (id : Nat) :
    Agrees (fsClose id r) (Stub.fsClose r.state id) := by
  unfold Stub.fsClose
  by_cases hlarge : 10 ≤ id
  · have hout : ¬ InTable id := fun hin => by have := hin.2; omega
    have htrap : fsClose id r = .trap .undefined { r with touched := r.touched ++ [(id : Int)] } :=
      bind_trap (entry_outside hout r)
    rw [if_pos hlarge, htrap]
    rfl
  · have hin : InTable id := ⟨by omega, by omega⟩
    rw [if_neg hlarge]
    have hentry := entry_eq hin r
    rw [Int.toNat_natCast] at hentry
    unfold fsClose
    rw [bind_done hentry]
    cases ho : r.state.openFileList id with
    | none => exact ⟨rfl, hrun⟩
    | some o =>
      simp only
      rw [bind_done (touch_eq hin _)]
      refine Agrees.bind (agrees_elsewhere (fun s => (deleteFile s o, ())) _) ?_ ?_
      · intro r' _ hstate hrun'
        have hset := setEntry_eq hin none r'
        rw [Int.toNat_natCast] at hset
        rw [bind_done hset, if_neg (by rw [hrun']; simp)]
        rw [← hstate] at hrun'
        refine ⟨?_, hrun'⟩
        rw [hstate]
      · intro hstopped
        rw [if_pos (Option.isSome_iff_ne_none.mpr hstopped)]

theorem hostOpen_stopped (s : State) (granted : Bool) : (hostOpen s granted).1.stopped = s.stopped := by
  unfold hostOpen
  split <;> rfl

theorem agrees_scCreate (hrun : r.state.stopped = none) (granted : Bool) :
    Agrees (scCreate granted r) (Stub.scCreate r.state granted) := by
  have hcreate : Agrees (fsCreate granted r) (Stub.fsCreate r.state granted) := by
    refine Agrees.bind (agrees_elsewhere (fun s => hostOpen s granted) r) ?_ ?_
    · intro r' _ hstate hrun'
      unfold Stub.fsCreate
      simp only
      rw [← hstate] at hrun' ⊢
      split
      · rfl
      · rename_i hpos
        have hclose := agrees_fsClose hrun' (hostOpen r.state granted).2.toNat
        rw [Int.toNat_of_nonneg (Int.not_lt.mp hpos)] at hclose
        refine Agrees.bind hclose ?_ fun _ => rfl
        intro r'' _ hstate' hrun''
        rw [← hstate'] at hrun'' ⊢
        exact ⟨rfl, hrun''⟩
    · intro hstopped
      exact absurd ((hostOpen_stopped _ _).trans hrun) hstopped
  refine Agrees.bind hcreate ?_ fun _ => rfl
  intro r' _ hstate hrun'
  refine ⟨?_, ?_⟩
  · unfold Stub.scCreate
    rw [hstate]
  · rw [hstate]
    exact hrun'

theorem findFreeBlockLoop_eq (n i : Nat) (h : i + n ≤ 10) (r : Recorded) :
    ∃ l, findFreeBlockLoop n i r =
      .done ((List.range' i n).find? fun i => r.state.openFileList i = none)
        { r with touched := r.touched ++ l } := by
  induction n generalizing i r with
  | zero =>
    refine ⟨[], ?_⟩
    rw [List.append_nil]
    rfl
  | succ n ih =>
    have hentry := entry_eq (i := i) ⟨by omega, by omega⟩ r
    rw [Int.toNat_natCast] at hentry
    unfold findFreeBlockLoop
    rw [bind_done hentry, List.range'_succ, List.find?_cons]
    cases ho : r.state.openFileList i with
    | none =>
      refine ⟨[(i : Int)], ?_⟩
      simp
      rfl
    | some o =>
      obtain ⟨l, hl⟩ := ih (i + 1) (by omega) { r with touched := r.touched ++ [(i : Int)] }
      refine ⟨(i : Int) :: l, ?_⟩
      simp only
      rw [hl]
      simp

theorem fsOpen_stopped (s : State) (type : Int) (granted : Bool) (garbage : Int) :
    (fsOpen s type granted garbage).1.stopped = s.stopped := by
  simp only [fsOpen, hostOpen]
  split_ifs <;> rfl

theorem agrees_scOpen (hrun : r.state.stopped = none) (type : Int) (granted : Bool) :
    Agrees (scOpen type granted r) (Stub.scOpen r.state type granted) := by
  unfold scOpen Stub.scOpen
  split
  · exact ⟨rfl, hrun⟩
  · obtain ⟨l, hloop⟩ := findFreeBlockLoop_eq 8 2 (Nat.le_refl 10) r
    have hfind : findFreeBlockLoop 8 2 r =
        .done (findFreeBlock r.state) { r with touched := r.touched ++ l } := hloop
    rw [bind_done hfind]
    cases hfree : findFreeBlock r.state with
    | none => exact ⟨rfl, hrun⟩
    | some b =>
      obtain ⟨hlo, hhi, -⟩ := findFreeBlock_some hfree
      have hin : InTable b := ⟨by omega, by omega⟩
      simp only
      refine Agrees.bind (agrees_elsewhere (fun s => fsOpen s type granted 0) _) ?_ ?_
      · simp only
        generalize fsOpen r.state type granted 0 = opened
        intro r' _ hstate hrun'
        obtain ⟨s, file⟩ := opened
        cases file with
        | none => exact ⟨by rw [hstate], by rw [hstate]; exact hrun'⟩
        | some file =>
          have hset := setEntry_eq hin (some file) r'
          rw [Int.toNat_natCast] at hset
          simp only
          rw [← hstate] at hrun'
          rw [bind_done hset, bind_done (bindId_eq hrun')]
          refine ⟨?_, hrun'⟩
          rw [hstate]
      · intro hstopped
        exact absurd ((fsOpen_stopped _ _ _ _).trans hrun) hstopped

/-- `Stub.fsClose` does not succeed when it stops the simulator. -/
theorem fsClose_stopped {s : State} {id : Nat}
    (h : (Stub.fsClose s id).1.stopped ≠ none) :
    Stub.fsClose s id = ((Stub.fsClose s id).1, false) := by
  unfold Stub.fsClose at h ⊢
  split
  · rfl
  · rename_i hsmall
    rw [if_neg hsmall] at h
    cases ho : s.openFileList id with
    | none => rfl
    | some o =>
      rw [ho] at h
      simp only at h ⊢
      split
      · rfl
      · rename_i hnone
        rw [if_neg hnone] at h
        exact absurd (by simpa using hnone) h

theorem agrees_scClose (hrun : r.state.stopped = none) (fid : Int) :
    Agrees (scClose fid r) (Stub.scClose r.state fid) := by
  unfold scClose Stub.scClose
  split
  · exact ⟨rfl, hrun⟩
  · have hin : InTable fid := ⟨by omega, by omega⟩
    rw [bind_done (entry_eq hin r)]
    cases ho : r.state.openFileList fid.toNat with
    | none => exact ⟨rfl, hrun⟩
    | some o =>
      have hclose := agrees_fsClose (r := { r with touched := r.touched ++ [fid] }) hrun fid.toNat
      rw [Int.toNat_of_nonneg (by omega)] at hclose
      rw [if_neg (Option.some_ne_none o)]
      simp only
      refine Agrees.bind hclose ?_ ?_
      · simp only
        generalize Stub.fsClose r.state fid.toNat = closed
        intro r' _ hstate hrun'
        obtain ⟨s, ok⟩ := closed
        rw [← hstate] at hrun'
        cases ok with
        | false => exact ⟨by rw [hstate], hrun'⟩
        | true =>
          simp only [if_true]
          rw [bind_done (setEntry_eq hin none r'), bind_done (bindId_eq hrun')]
          refine ⟨?_, hrun'⟩
          rw [hstate]
      · simp only
        intro hstopped
        rw [fsClose_stopped hstopped]

/-- `withFile` against the functions of `Stub` for a file. -/
theorem withFile_state (r : Recorded) (fID : Int) (f : ObjId → State → State) :
    (TableAccess.stateAfter (withFile fID f r)).state =
      (fileOf r.state fID).elim r.state fun o => f o r.state := by
  unfold withFile fileOf
  split
  · rfl
  · have hin : InTable fID := ⟨by omega, by omega⟩
    rw [bind_done (entry_eq hin r)]
    cases ho : r.state.openFileList fID.toNat with
    | none => rfl
    | some o => exact (agrees_elsewhere (fun s => (f o s, ())) _).state

theorem scRead_state (r : Recorded) (fID numRead : Int) :
    (TableAccess.stateAfter (scRead fID numRead r)).state = Stub.scRead r.state fID numRead := by
  unfold scRead Stub.scRead
  split
  · rfl
  · rw [withFile_state]
    cases fileOf r.state fID with
    | none => rfl
    | some o => rfl

theorem scWrite_state (r : Recorded) (size fID numWritten : Int) :
    (TableAccess.stateAfter (scWrite size fID numWritten r)).state =
      Stub.scWrite r.state size fID numWritten := by
  unfold scWrite Stub.scWrite
  split
  · rfl
  · rw [withFile_state]
    cases fileOf r.state fID with
    | none => rfl
    | some o =>
      simp only [Option.elim, writeFile]
      cases r.state.objects o with
      | none => rfl
      | some f => simp only [decide_eq_true_eq]

/-- The calls that `Stub` has. -/
def stubCall (regs : Registers) (host : Host) : FileCall → Option Call
  | .scCreate => some (.scCreate "" host.granted)
  | .scOpen => some (.scOpen "" regs.r5.toInt host.granted)
  | .scClose => some (.scClose regs.r4.toInt)
  | .scRead => some (.scRead regs.r5.toInt regs.r6.toInt host.transferred)
  | .scWrite => some (.scWrite regs.r5.toInt regs.r6.toInt host.transferred)
  | .scWriteF2File => none
  | .scWriteInt2File => none
  | .scReadFileFormat => none

theorem stateAfter_discard {α : Type} (p : Handler α) (r : Recorded) :
    TableAccess.stateAfter ((p >>= fun _ => pure ()) r) = TableAccess.stateAfter (p r) := by
  cases hr : p r with
  | done a r' =>
    rw [bind_done hr]
    rfl
  | trap e r' =>
    rw [bind_trap hr]
    rfl
  | fault f => cases f

/-- The handlers change the state as the calls of `Stub` do. -/
theorem handler_refines (hrun : r.state.stopped = none) {regs : Registers} {host : Host} {c : FileCall}
    {call : Call} (h : stubCall regs host c = some call) :
    (TableAccess.stateAfter (handler c regs host r)).state = Stub.call r.state call := by
  cases c with
  | scCreate =>
    cases h
    exact (congrArg _ (stateAfter_discard _ r)).trans (agrees_scCreate hrun host.granted).state
  | scOpen =>
    cases h
    exact (congrArg _ (stateAfter_discard _ r)).trans (agrees_scOpen hrun _ host.granted).state
  | scClose =>
    cases h
    exact (congrArg _ (stateAfter_discard _ r)).trans (agrees_scClose hrun _).state
  | scRead =>
    cases h
    exact scRead_state r _ _
  | scWrite =>
    cases h
    exact scWrite_state r _ _ _
  | scWriteF2File => cases h
  | scWriteInt2File => cases h
  | scReadFileFormat => cases h

/-! ### Every run -/

theorem not_inRange_outside {α : Type} (h : ¬ InTable i) (e : Stop) (s : State) (l : List Int) :
    ¬ InRange (TableAccess.stateAfter (.trap e ⟨s, l ++ [i]⟩ : Outcome Recorded Stop Empty α)) :=
  fun hall => h (hall i (List.mem_append_right l List.mem_cons_self))

/-- A call that is not good leaves the table. -/
theorem not_inRange_handler {c : FileCall} {regs : Registers} {host : Host}
    (hrun : r.state.stopped = none) (h : ¬ Good r (.fileCall c regs host)) :
    ¬ InRange (TableAccess.stateAfter (handler c regs host r)) := by
  cases c with
  | scCreate =>
    obtain ⟨hgranted, hlarge⟩ := Classical.not_imp.mp h
    let d := lowestUnused r.state.used
    have hout : ¬ InTable d := fun hin => hlarge (by have := hin.2; omega)
    let r₁ : Recorded := { r with state := { r.state with used := d :: r.state.used } }
    have hopen : elsewhere (fun s => hostOpen s true) r = .done (d : Int) r₁ := elsewhere_eq hrun
    have hclose : fsClose d r₁ = .trap .undefined { r₁ with touched := r.touched ++ [(d : Int)] } :=
      bind_trap (entry_outside hout r₁)
    have hcreate : fsCreate true r = .trap .undefined { r₁ with touched := r.touched ++ [(d : Int)] } := by
      refine (bind_done hopen).trans ?_
      rw [if_neg (Int.not_lt.mpr (Int.natCast_nonneg d))]
      exact bind_trap hclose
    have hcall : handler .scCreate regs host r =
        .trap .undefined { r₁ with touched := r.touched ++ [(d : Int)] } := by
      show (scCreate host.granted >>= fun _ => pure ()) r = _
      rw [hgranted]
      exact bind_trap (bind_trap hcreate)
    rw [hcall]
    exact not_inRange_outside hout _ _ _
  | scReadFileFormat =>
    have hcall : handler .scReadFileFormat regs host r =
        .trap .undefined { r with touched := r.touched ++ [regs.r5.toInt] } :=
      bind_trap (entry_outside h r)
    rw [hcall]
    exact not_inRange_outside h _ _ _
  | scOpen => exact absurd trivial h
  | scClose => exact absurd trivial h
  | scRead => exact absurd trivial h
  | scWrite => exact absurd trivial h
  | scWriteF2File => exact absurd trivial h
  | scWriteInt2File => exact absurd trivial h

theorem step_eq_some {r' : Recorded} {e : Event} (h : step r e = some r') :
    r.state.stopped = none ∧ r' = next r e := by
  unfold step at h
  split at h
  · cases h
  · rename_i hrun
    exact ⟨by simpa using hrun, (Option.some.inj h).symm⟩

theorem InRange.next {e : Event} (h : InRange r) (hgood : Good r e) : InRange (next r e) := by
  cases e with
  | fileCall c regs host => exact h.stateAfter (admits_handler hgood)
  | descriptors used => exact h

theorem not_inRange_next {e : Event} (hrun : r.state.stopped = none) (hbad : ¬ Good r e) :
    ¬ InRange (TableAccess.next r e) := by
  cases e with
  | fileCall c regs host => exact not_inRange_handler hrun hbad
  | descriptors used => exact absurd trivial hbad

/-- In a run from the constructor all indices are in the table exactly when every `SC_ReadFileFormat`
has an id that is one, and every descriptor that an `SC_Create` gets is one. -/
theorem inRange_iff (u v : Int) (events : List Event) :
    AllStates step InRange (start u v) events ↔ AllSteps step Good (start u v) events := by
  refine allStates_iff_allSteps (J := InRange) (fun _ h => h) ?_ ?_ ?_ events
  · intro r e r' h hgood hstep
    obtain ⟨-, rfl⟩ := step_eq_some hstep
    exact h.next hgood
  · intro r e r' _ hbad hstep
    obtain ⟨hrun, rfl⟩ := step_eq_some hstep
    exact not_inRange_next hrun hbad
  · exact fun i hi => absurd hi List.not_mem_nil

/-- The first system call reads `openFileList[10]`. -/
theorem not_inRange_readFileFormat :
    ¬ AllStates step InRange (start 0 0) [.fileCall .scReadFileFormat ⟨0, 10, 0⟩ ⟨true, 0, 0⟩] := by
  rintro ⟨-, hnext⟩
  have hbad : ¬ Good (start 0 0) (.fileCall .scReadFileFormat ⟨0, 10, 0⟩ ⟨true, 0, 0⟩) := by
    rintro ⟨-, hle⟩
    exact absurd hle (by decide)
  exact not_inRange_next rfl hbad (hnext _ rfl)

end Record

end Nachos.Filesys.TableAccess
