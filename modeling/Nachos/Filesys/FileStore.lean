import Mathlib.Algebra.BigOperators.Group.Finset.Basic
import Nachos.Filesys.AtomicCreate
import Nachos.Filesys.CopyPrint
import Nachos.Lib.Matching

/-!
# The file system as a store of files

`Store` is what the file system is for: names with contents of a fixed length, and handles. A file
takes a sector for its header and as many as its content needs; `Create` refuses a name that is
there, an eleventh file, and a file for which the sectors do not suffice. What a new file contains is
left open, and the number of sectors is the only thing that files share. After a restart
(`FileSystem(FALSE)` on the same disk) the files are as they were and the handles are gone.

`tracedStep` is the file system of `FileSystem.lean` with restarts, and a history of what its calls
have returned.
-/

namespace Nachos.Filesys

open Bytes Runs

/-- The characters of a name that the directory compares. -/
abbrev Name := List Byte

/-- What a call returned, or a restart. -/
inductive Event
  | create (name : Name) (initialSize : Nat) (created : Bool)
  | remove (name : Name) (removed : Bool)
  /-- The number of the new handle, unless `Open` returned NULL. -/
  | openFile (name : Name) (handle : Option Nat)
  | readAt (handle : Nat) (numBytes : Int) (position : Nat) (into : List Byte)
  | writeAt (handle : Nat) (bytes : List Byte) (numBytes : Int) (position : Nat) (result : Int)
  | restart

/-! ### The store -/

structure Store where
  names : Finset Name
  /-- The content of a file that is there. -/
  content : Name → List Byte
  /-- The names of the open files; `none` for a file that was removed. -/
  handles : List (Option Name)

namespace Store

/-- The sectors of a file: that of its header, and its data. -/
def fileSectors (length : Nat) : Nat := 1 + divRoundUp length sectorSize

variable (S : Store)

/-- The sectors of all files. -/
def sectors : Nat := ∑ n ∈ S.names, fileSectors (S.content n).length

/-- The sectors of the disk but those of the bitmap file and of the directory file. -/
def capacity : Nat := numSectors - 4

/-- A file of the given size can be created. -/
structure Room (name : Name) (initialSize : Nat) : Prop where
  new : name ∉ S.names
  entry : S.names.card < numDirEntries
  space : S.sectors + fileSectors initialSize ≤ capacity

/-- The store with a file in place of what it had under the name. -/
def put (name : Name) (content : List Byte) : Store where
  names := insert name S.names
  content := Function.update S.content name content
  handles := S.handles

/-- The store without a file; the handles of the file are dead. -/
def erase (name : Name) : Store where
  names := S.names.erase name
  content := S.content
  handles := S.handles.map fun o => if o = some name then none else o

/-- The store with one more handle. -/
def link (name : Name) : Store := { S with handles := S.handles ++ [some name] }

/-- The number of bytes that a request transfers. -/
def transferred (length : Nat) (numBytes : Int) (position : Nat) : Nat :=
  min numBytes.toNat (length - position)

/-- The steps of the store. -/
inductive Step : Store → Event → Store → Prop
  | created {S : Store} {n : Name} {initialSize : Nat} (h : S.Room n initialSize) (c : List Byte)
    (hlen : c.length = initialSize) : Step S (.create n initialSize true) (S.put n c)
  | notCreated {S : Store} {n : Name} {initialSize : Nat} (h : ¬ S.Room n initialSize) :
    Step S (.create n initialSize false) S
  | removed {S : Store} {n : Name} (h : n ∈ S.names) : Step S (.remove n true) (S.erase n)
  | notRemoved {S : Store} {n : Name} (h : n ∉ S.names) : Step S (.remove n false) S
  | opened {S : Store} {n : Name} (h : n ∈ S.names) :
    Step S (.openFile n (some S.handles.length)) (S.link n)
  | notOpened {S : Store} {n : Name} (h : n ∉ S.names) : Step S (.openFile n none) S
  | read {S : Store} {handle : Nat} {n : Name} (h : S.handles[handle]? = some (some n))
    (numBytes : Int) (position : Nat) :
    Step S (.readAt handle numBytes position (((S.content n).drop position).take numBytes.toNat)) S
  | write {S : Store} {handle : Nat} {n : Name} (h : S.handles[handle]? = some (some n))
    (bytes : List Byte) (numBytes : Int) (position : Nat) :
    Step S (.writeAt handle bytes numBytes position
        (transferred (S.content n).length numBytes position))
      (S.put n (replaced (S.content n) position
        (bytes.take (transferred (S.content n).length numBytes position))))
  | restart (S : Store) : Step S .restart { S with handles := [] }

/-- A store without files. -/
def empty : Store where
  names := ∅
  content _ := []
  handles := []

end Store

/-! ### The file system -/

/-- The part of `FileSystem::FileSystem(FALSE)` that opens the two files of the file system; the calls
at the end of the constructor are calls like others. -/
def mount (disk : Disk) : Except Fault State := do
  let freeMapFile ← OpenFile.new disk freeMapSector
  let directoryFile ← OpenFile.new disk directorySector
  pure { disk, freeMapFile, directoryFile, handles := [], stopped := none }

/-- What a call returns; `none` when it fails an ASSERT or indexes out of bounds. -/
def State.event (s : State) (l : Label) : Option Event :=
  match l.call with
  | .create name initialSize =>
    match s.create name initialSize l.garbage with
    | .ok (_, created) => some (.create (compared name) initialSize.toNat created)
    | .error _ => none
  | .remove name =>
    match s.remove name l.garbage with
    | .ok (_, sector) => some (.remove (compared name) sector.isSome)
    | .error _ => none
  | .openFile name =>
    match s.openFile name l.garbage with
    | .ok file => some (.openFile (compared name) (file.map fun _ => s.handles.length))
    | .error _ => none
  | .readAt handle numBytes position =>
    (s.live handle).bind fun file =>
      match Filesys.readAt s.disk file.hdr numBytes position with
      | .ok into => some (.readAt handle numBytes position.toNat into)
      | .error _ => none
  | .writeAt handle bytes numBytes position =>
    (s.live handle).bind fun file =>
      match Filesys.writeAt s.disk file.hdr bytes numBytes position l.buf with
      | .ok (_, result) => some (.writeAt handle bytes numBytes position.toNat result)
      | .error _ => none

/-- A call, or a restart of Nachos on the same disk. -/
inductive Action
  | call (l : Label)
  | restart

/-- The file system and what its calls have returned. -/
structure Traced where
  state : State
  events : List Event

def tracedStep (p : Traced) : Action → Option Traced
  | .call l =>
    (p.state.event l).bind fun e => (step p.state l).map fun t => ⟨t, p.events ++ [e]⟩
  | .restart =>
    match mount p.state.disk with
    | .ok t => some ⟨t, p.events ++ [.restart]⟩
    | .error _ => none

/-- The calls that the store answers: the size of a new file is one that a header can describe, a
handle is that of a file that is there, and the end of a request is an `int`. -/
def Proper (p : Traced) : Action → Prop
  | .call l =>
    match l.call with
    | .create _ initialSize => 0 ≤ initialSize ∧ initialSize ≤ maxFileSize
    | .remove _ | .openFile _ => True
    | .readAt handle numBytes position =>
      (p.state.live handle).isSome ∧ 0 ≤ position ∧ position + numBytes < 2 ^ 31
    | .writeAt handle bytes numBytes position =>
      (p.state.live handle).isSome ∧ 0 ≤ position ∧ position + numBytes < 2 ^ 31 ∧
        numBytes ≤ bytes.length
  | .restart => True

end Nachos.Filesys
