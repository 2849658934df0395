import Nachos.Lib.Runs
import Nachos.Filesys.Directory
import Nachos.Filesys.OpenFile

/-!
# The file system

`FileSystem` (filesys.cc) of the `FILESYS` build, used by one caller: formatting the disk,
`Create`, `Open` and `Remove`, and `ReadAt` and `WriteAt` on the files that were opened. The
bitmap of free sectors and the directory are files themselves.

Memory that the source does not initialise is a parameter: what it holds reaches the disk, in
the unused part of headers and of sectors.
-/

namespace Nachos

open Bytes

namespace BitMap

/-- The memory of the array `map`. -/
def toImage (b : BitMap) : Image := fun k => (b.map.getD (k / 4) 0 >>> (8 * (k % 4))).setWidth 8

/-- The bitmap whose array `map` is in the given memory. -/
def ofImage (nitems : Nat) (image : Image) : BitMap where
  numBits := nitems
  map := (List.range (divRoundUp nitems 32)).map fun i => load image (4 * i) 4
  length_map := by rw [List.length_map, List.length_range]

end BitMap

namespace Filesys

def freeMapSector : Nat := 0
def directorySector : Nat := 1
def freeMapFileSize : Nat := numSectors / 8

structure OpenFile where
  hdr : FileHeader
  fileID : Int

/-- `OpenFile::OpenFile`. -/
def OpenFile.new (disk : Disk) (sector : Int) : Except Fault OpenFile := do
  let hdr ← readSector disk sector
  pure { hdr, fileID := sector }

/-- `ReadAt` into an object at offset 0 of the file. -/
def fetchInto (image : Image) (disk : Disk) (file : OpenFile) (numBytes : Nat) :
    Except Fault Image := do
  let bytes ← readAt disk file.hdr numBytes 0
  pure (splice image 0 bytes)

/-- `WriteAt` of an object at offset 0 of the file. -/
def storeFrom (image : Image) (disk : Disk) (file : OpenFile) (numBytes : Nat) (buf : Image) :
    Except Fault Disk := do
  let (disk, _) ← writeAt disk file.hdr (toList image numBytes) numBytes 0 buf
  pure disk

end Filesys

open Filesys

namespace BitMap

/-- `BitMap::FetchFrom`. -/
def fetchFrom (b : BitMap) (disk : Disk) (file : OpenFile) : Except Fault BitMap := do
  let image ← fetchInto b.toImage disk file (b.map.length * 4)
  pure (ofImage b.numBits image)

/-- `BitMap::WriteBack`. -/
def writeBack (b : BitMap) (disk : Disk) (file : OpenFile) (buf : Image) : Except Fault Disk :=
  storeFrom b.toImage disk file (b.map.length * 4) buf

end BitMap

namespace Filesys

/-- `Directory::FetchFrom`. -/
def Directory.fetchFrom (d : Directory) (disk : Disk) (file : OpenFile) : Except Fault Directory :=
  fetchInto d disk file directoryFileSize

/-- `Directory::WriteBack`. -/
def Directory.writeBack (d : Directory) (disk : Disk) (file : OpenFile) (buf : Image) :
    Except Fault Disk :=
  storeFrom d disk file directoryFileSize buf

/-- The uninitialised memory that one call gets: the table of its `Directory`, its `FileHeader`
and the buffers of its `WriteAt` to the directory file and to the bitmap file. -/
structure Garbage where
  table : Image
  header : Image
  directoryBuf : Image
  freeMapBuf : Image

/-- A file that the caller has opened. -/
structure Handle where
  file : OpenFile
  /-- The file was removed after it had been opened. -/
  removed : Bool

structure State where
  disk : Disk
  freeMapFile : OpenFile
  directoryFile : OpenFile
  handles : List Handle
  /-- Set when an ASSERT fails or memory is accessed out of bounds. -/
  stopped : Option Fault

namespace State

variable (s : State)

/-- A local `Directory` with the contents of the directory file. -/
def fetchDirectory (garbage : Garbage) : Except Fault Directory :=
  (Directory.new garbage.table).fetchFrom s.disk s.directoryFile

/-- A local `BitMap` with the contents of the bitmap file. -/
def fetchFreeMap : Except Fault BitMap :=
  (BitMap.new numSectors).fetchFrom s.disk s.freeMapFile

/-- `FileSystem::Create`: the disk and the result. -/
def create (name : Image) (initialSize : Int) (garbage : Garbage) : Except Fault (Disk × Bool) := do
  let directory ← s.fetchDirectory garbage
  if directory.find name ≠ -1 then pure (s.disk, false)
  else
    let freeMap ← s.fetchFreeMap
    match freeMap.find with
    | (none, _) => pure (s.disk, false)
    | (some sector, freeMap) =>
      match directory.add name sector with
      | none => pure (s.disk, false)
      | some directory =>
        match ← FileHeader.allocate garbage.header freeMap initialSize with
        | none => pure (s.disk, false)
        | some (hdr, freeMap) =>
          let disk ← writeSector s.disk sector hdr
          let disk ← directory.writeBack disk s.directoryFile garbage.directoryBuf
          let disk ← freeMap.writeBack disk s.freeMapFile garbage.freeMapBuf
          pure (disk, true)

/-- `FileSystem::Open`; `none` is the result NULL. -/
def openFile (name : Image) (garbage : Garbage) : Except Fault (Option OpenFile) := do
  let directory ← s.fetchDirectory garbage
  let sector := directory.find name
  if sector ≥ 0 then
    let file ← OpenFile.new s.disk sector
    pure (some file)
  else pure none

/-- `FileSystem::Remove`: the disk and, for the result TRUE, the sector of the header. -/
def remove (name : Image) (garbage : Garbage) : Except Fault (Disk × Option Int) := do
  let directory ← s.fetchDirectory garbage
  let sector := directory.find name
  if sector = -1 then pure (s.disk, none)
  else
    let fileHdr ← readSector s.disk sector
    let freeMap ← s.fetchFreeMap
    let freeMap ← FileHeader.deallocate fileHdr freeMap
    match freeMap.clear? sector with
    | none => .error .assertion
    | some freeMap =>
      let directory := (directory.remove name).getD directory
      let disk ← freeMap.writeBack s.disk s.freeMapFile garbage.freeMapBuf
      let disk ← directory.writeBack disk s.directoryFile garbage.directoryBuf
      pure (disk, some sector)

/-- The handles after the file with its header in the given sector was removed. -/
def forget (sector : Int) : List Handle :=
  s.handles.map fun h => if h.file.fileID = sector then { h with removed := true } else h

end State

/-! ### Starting -/

/-- The part of `FileSystem::FileSystem(TRUE)` that formats the disk; `mapHdr` and `dirHdr` are
the memory of the two headers. -/
def format (disk : Disk) (mapHdr dirHdr : Image) (garbage : Garbage) : Except Fault State := do
  let freeMap := ((BitMap.new numSectors).mark freeMapSector).mark directorySector
  let directory := Directory.new garbage.table
  match ← FileHeader.allocate mapHdr freeMap freeMapFileSize with
  | none => .error .assertion
  | some (mapHdr, freeMap) =>
    match ← FileHeader.allocate dirHdr freeMap directoryFileSize with
    | none => .error .assertion
    | some (dirHdr, freeMap) =>
      let disk ← writeSector disk freeMapSector mapHdr
      let disk ← writeSector disk directorySector dirHdr
      let freeMapFile ← OpenFile.new disk freeMapSector
      let directoryFile ← OpenFile.new disk directorySector
      let disk ← freeMap.writeBack disk freeMapFile garbage.freeMapBuf
      let disk ← directory.writeBack disk directoryFile garbage.directoryBuf
      pure { disk, freeMapFile, directoryFile, handles := [], stopped := none }

/-- The memory of a string literal. -/
def literal (str : String) : Image := fun k => BitVec.ofNat 8 ((str.toList.map Char.toNat).getD k 0)

/-- What a call of the file system returned, as the next state. -/
def State.after {α : Type} (s : State) (result : Except Fault α) (next : α → State) : State :=
  match result with
  | .ok a => next a
  | .error f => { s with stopped := some f }

/-! ### Calls -/

inductive Call
  | create (name : Image) (initialSize : Int)
  | remove (name : Image)
  | openFile (name : Image)
  | readAt (handle : Nat) (numBytes position : Int)
  | writeAt (handle : Nat) (bytes : List Byte) (numBytes position : Int)

/-- A call, the memory it gets, and the memory of the buffer of `WriteAt`. -/
structure Label where
  call : Call
  garbage : Garbage
  buf : Image

/-- The handle with the given number, if its file was not removed. -/
def State.live (s : State) (handle : Nat) : Option OpenFile :=
  match s.handles[handle]? with
  | some h => if h.removed then none else some h.file
  | none => none

def State.perform (s : State) (l : Label) : Option State :=
  match l.call with
  | .create name initialSize =>
    if 0 ≤ initialSize ∧ initialSize ≤ maxFileSize then
      some (s.after (s.create name initialSize l.garbage) fun r => { s with disk := r.1 })
    else none
  | .remove name =>
    some (s.after (s.remove name l.garbage) fun
      | (disk, some sector) => { s with disk := disk, handles := s.forget sector }
      | (disk, none) => { s with disk := disk })
  | .openFile name =>
    some (s.after (s.openFile name l.garbage) fun
      | some file => { s with handles := s.handles ++ [{ file, removed := false }] }
      | none => s)
  | .readAt handle numBytes position =>
    match s.live handle with
    | some file => some (s.after (readAt s.disk file.hdr numBytes position) fun _ => s)
    | none => none
  | .writeAt handle bytes numBytes position =>
    match s.live handle with
    | some file =>
      some (s.after (writeAt s.disk file.hdr bytes numBytes position l.buf)
        fun r => { s with disk := r.1 })
    | none => none

/-- A call of the file system. A size that no header can describe is not asked for, and a file
that was removed is not used any more. -/
def step (s : State) (l : Label) : Option State :=
  if s.stopped.isSome then none else s.perform l

/-- `FileSystem::FileSystem(TRUE)`. The garbage of the four calls at its end is indexed by the
call. -/
def fileSystem (disk : Disk) (mapHdr dirHdr : Image) (garbage : Nat → Garbage) :
    Except Fault State := do
  let s ← format disk mapHdr dirHdr (garbage 0)
  let (disk, _) ← s.create (literal "stdin") 2 (garbage 1)
  let s := { s with disk := disk }
  let (disk, _) ← s.create (literal "stdout") 3 (garbage 2)
  let s := { s with disk := disk }
  let stdin ← s.openFile (literal "stdin") (garbage 3)
  let stdout ← s.openFile (literal "stdout") (garbage 4)
  let handles := (stdin.toList ++ stdout.toList).map fun file => { file, removed := false }
  pure { s with handles := handles }

end Filesys

end Nachos
