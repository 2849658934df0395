import Nachos.Devices.DiskLatency
import Nachos.Filesys.FileHeader
import Nachos.Lib.HostFile
import Nachos.Lib.Matching

/-!
# The disk in its UNIX file

The `Disk` of `machine/disk.cc` over a file of the host, with `Read`, `WriteFile` and `Lseek` of
`machine/sysdep.cc`. `Disk::Disk` makes the file when there is none: the magic number, and a word at
its end, so that all sectors are there and hold zeros. An ASSERT that fails, the destructor and a
`Disk::Disk` later on are steps too, so a run is about all the processes that have used the file.

The other parts of the file system see a `Store`: its sectors and the pending request. `disk_persists`
says that it is what the file implements: the same calls are answered in the same way, with the data
written last, by this process or an earlier one, and the file is at any time that of the sectors
(`Backs`).
-/

namespace Nachos.Devices.DiskFile

open Bytes (Image load store toList)
open Filesys (sectorSize numSectors readSector writeSector)
open HostFile

abbrev Byte := BitVec 8

def magicNumber : BitVec 32 := 0x456789ab

/-- `sizeof(int)`. -/
def magicSize : Nat := 4

def diskSize : Nat := magicSize + numSectors * sectorSize

/-- The memory of an `int`. -/
def wordBytes (v : BitVec 32) : List Byte := toList (store (fun _ => 0) 0 4 v) 4

/-- The `int` in a buffer of four bytes. -/
def wordOf (bytes : List Byte) : BitVec 32 := load (fun i => bytes.getD i 0) 0 4

/-! ### The file -/

/-- The UNIX file behind a descriptor, and the place of the descriptor in it. -/
structure OpenFile where
  bytes : List Byte
  position : Nat

namespace OpenFile

/-- `Lseek` from the start of the file. -/
def lseek (f : OpenFile) (offset : Int) : Except Fault OpenFile :=
  if 0 ≤ offset then .ok { f with position := offset.toNat } else .error .assertion

/-- `Read`, which asserts that all the bytes are there. -/
def read (f : OpenFile) (nBytes : Nat) : Except Fault (OpenFile × List Byte) :=
  let bytes := pread f.bytes f.position nBytes
  if bytes.length = nBytes then .ok ({ f with position := f.position + nBytes }, bytes)
  else .error .assertion

/-- `WriteFile`, on a host that has room. -/
def writeFile (f : OpenFile) (data : List Byte) : OpenFile :=
  { bytes := pwrite f.bytes f.position data, position := f.position + data.length }

/-- `Disk::Disk`; there may be no file. -/
def newDisk : Option (List Byte) → Except Fault OpenFile
  | some bytes => do
    let (f, magicNum) ← read ⟨bytes, 0⟩ magicSize
    if wordOf magicNum = magicNumber then .ok f else .error .assertion
  | none => do
    let f := writeFile ⟨[], 0⟩ (wordBytes magicNumber)
    let f ← f.lseek (diskSize - 4)
    .ok (f.writeFile (wordBytes 0))

/-- The transfer of `Disk::ReadRequest`. -/
def readRequest (f : OpenFile) (sectorNumber : Int) : Except Fault (OpenFile × List Byte) := do
  let f ← f.lseek (sectorSize * sectorNumber + magicSize)
  f.read sectorSize

/-- The transfer of `Disk::WriteRequest`. -/
def writeRequest (f : OpenFile) (sectorNumber : Int) (data : Image) : Except Fault OpenFile := do
  let f ← f.lseek (sectorSize * sectorNumber + magicSize)
  .ok (f.writeFile (toList data sectorSize))

end OpenFile

/-! ### The calls -/

/-- A new process makes a `Disk`, deletes it, calls it, is called back; or time passes. -/
inductive Label
  | newDisk (totalTicks : Nat)
  | deleteDisk
  | readRequest (sectorNumber : Int)
  | writeRequest (sectorNumber : Int) (data : Image)
  | handleInterrupt
  | wait (ticks : Nat)

/-- What a call has done: the buffer is filled, or the process is gone. -/
inductive Reply
  | done
  | data (bytes : List Byte)
  | aborted
  deriving DecidableEq

/-- The `Disk` object of a process: the place of its descriptor, the head, the active request, and the
numbers in `stats`. -/
structure Device where
  position : Nat
  timing : DiskLatency.State
  numDiskReads : Nat := 0
  numDiskWrites : Nat := 0

/-- The host, with the history of the replies. -/
structure State where
  file : Option (List Byte)
  disk : Option Device
  replies : List Reply

namespace State

variable (s : State)

/-- The call returns. -/
def reply (file : Option (List Byte)) (disk : Device) (r : Reply) : State :=
  { file := file, disk := some disk, replies := s.replies ++ [r] }

/-- An ASSERT fails: the process ends, and the file stays. -/
def abort (file : Option (List Byte)) : State :=
  { file := file, disk := none, replies := s.replies ++ [.aborted] }

/-- `Disk::Disk`. -/
def newDisk (totalTicks : Nat) : State :=
  match OpenFile.newDisk s.file with
  | .ok f =>
    s.reply (some f.bytes) { position := f.position, timing := DiskLatency.start totalTicks } .done
  | .error _ => s.abort s.file

/-- `interrupt->Schedule` at the end of a request asserts that the interrupt is in the future. -/
def schedule (file : List Byte) (before disk : Device) (r : Reply) : State :=
  if before.timing.totalTicks < disk.timing.due then s.reply (some file) disk r
  else s.abort (some file)

/-- `Disk::ReadRequest`. -/
def readRequest (file : List Byte) (d : Device) (sectorNumber : Int) : State :=
  match d.timing.request sectorNumber false with
  | none => s.abort (some file)
  | some timing =>
    match OpenFile.readRequest ⟨file, d.position⟩ sectorNumber with
    | .error _ => s.abort (some file)
    | .ok (f, data) =>
      s.schedule f.bytes d
        { d with position := f.position, timing := timing, numDiskReads := d.numDiskReads + 1 }
        (.data data)

/-- `Disk::WriteRequest`. -/
def writeRequest (file : List Byte) (d : Device) (sectorNumber : Int) (data : Image) : State :=
  match d.timing.request sectorNumber true with
  | none => s.abort (some file)
  | some timing =>
    match OpenFile.writeRequest ⟨file, d.position⟩ sectorNumber data with
    | .error _ => s.abort (some file)
    | .ok f =>
      s.schedule f.bytes d
        { d with position := f.position, timing := timing, numDiskWrites := d.numDiskWrites + 1 }
        .done

end State

/-- The step function. A process makes one disk, and the calls are to its disk. -/
def step (s : State) (l : Label) : Option State :=
  match l, s.disk, s.file with
  | .newDisk totalTicks, none, _ => some (s.newDisk totalTicks)
  | .deleteDisk, some _, _ => some { s with disk := none, replies := s.replies ++ [.done] }
  | .readRequest n, some d, some file => some (s.readRequest file d n)
  | .writeRequest n data, some d, some file => some (s.writeRequest file d n data)
  | .handleInterrupt, some d, some file =>
    d.timing.handleInterrupt.map fun timing => s.reply (some file) { d with timing := timing } .done
  | .wait ticks, some d, some file =>
    (DiskLatency.step d.timing (.wait ticks)).map fun timing =>
      s.reply (some file) { d with timing := timing } .done
  | _, _, _ => none

/-- No process has run yet. -/
def new : State := { file := none, disk := none, replies := [] }

/-! ### What it implements -/

/-- The disk as the file system sees it. -/
structure Store where
  sectors : Filesys.Disk
  /-- The head and the active request, while a process has the disk. -/
  timing : Option DiskLatency.State
  replies : List Reply

namespace Store

variable (t : Store)

def reply (sectors : Filesys.Disk) (timing : DiskLatency.State) (r : Reply) : Store :=
  { sectors := sectors, timing := some timing, replies := t.replies ++ [r] }

def abort : Store := { t with timing := none, replies := t.replies ++ [.aborted] }

/-- A request is refused while another one is active, and when there is no such sector. -/
def readRequest (timing : DiskLatency.State) (n : Int) : Store :=
  match timing.request n false, readSector t.sectors n with
  | some timing', .ok data => t.reply t.sectors timing' (.data (toList data sectorSize))
  | _, _ => t.abort

def writeRequest (timing : DiskLatency.State) (n : Int) (data : Image) : Store :=
  match timing.request n true, writeSector t.sectors n data with
  | some timing', .ok sectors => t.reply sectors timing' .done
  | _, _ => t.abort

def step (t : Store) (l : Label) : Option Store :=
  match l, t.timing with
  | .newDisk totalTicks, none => some (t.reply t.sectors (DiskLatency.start totalTicks) .done)
  | .deleteDisk, some _ => some { t with timing := none, replies := t.replies ++ [.done] }
  | .readRequest n, some timing => some (t.readRequest timing n)
  | .writeRequest n data, some timing => some (t.writeRequest timing n data)
  | .handleInterrupt, some timing =>
    timing.handleInterrupt.map fun timing => t.reply t.sectors timing .done
  | .wait ticks, some timing =>
    (DiskLatency.step timing (.wait ticks)).map fun timing => t.reply t.sectors timing .done
  | _, _ => none

/-- All sectors hold zeros. -/
def new : Store := { sectors := fun _ _ => 0, timing := none, replies := [] }

end Store

/-- The file is that of a disk with these sectors. -/
structure Holds (file : List Byte) (sectors : Filesys.Disk) : Prop where
  size : file.length = diskSize
  magic : wordOf (pread file 0 magicSize) = magicNumber
  sector : ∀ n < numSectors,
    pread file (sectorSize * n + magicSize) sectorSize = toList (sectors n) sectorSize

/-- The host has the file of the store, or none yet. -/
structure Backs (s : State) (t : Store) : Prop where
  file : (∃ file, s.file = some file ∧ Holds file t.sectors) ∨
    s.file = none ∧ s.disk = none ∧ t.sectors = Store.new.sectors
  timing : s.disk.map Device.timing = t.timing
  head : ∀ timing, t.timing = some timing → DiskLatency.Inv timing
  replies : s.replies = t.replies

theorem length_wordBytes (v : BitVec 32) : (wordBytes v).length = 4 := by
  rw [wordBytes, toList, List.length_map, List.length_range]

theorem wordBytes_ne_nil (v : BitVec 32) : wordBytes v ≠ [] := by
  intro hnil
  have hlen := length_wordBytes v
  rw [hnil] at hlen
  cases hlen

theorem length_sector (data : Image) : (toList data sectorSize).length = sectorSize := by
  rw [toList, List.length_map, List.length_range]

theorem sector_ne_nil (data : Image) : toList data sectorSize ≠ [] := by
  intro hnil
  have hlen := length_sector data
  rw [hnil] at hlen
  cases hlen

/-! ### The new file -/

/-- The file that `Disk::Disk` makes. -/
def newFile : List Byte := wordBytes magicNumber ++ List.replicate (numSectors * sectorSize) 0

theorem wordBytes_zero : wordBytes 0 = List.replicate 4 0 := by decide

theorem wordOf_magicNumber : wordOf (wordBytes magicNumber) = magicNumber := by decide

/-- The write at the end of the file fills what is before it with zeros. -/
theorem newDisk_none : ∃ position, OpenFile.newDisk none = .ok ⟨newFile, position⟩ := by
  have hfirst : pwrite [] 0 (wordBytes magicNumber) = wordBytes magicNumber := by
    rw [pwrite_eq (wordBytes_ne_nil _)]
    simp
  have hlen := length_wordBytes magicNumber
  have hfile : pwrite (wordBytes magicNumber) (diskSize - 4) (wordBytes 0) = newFile := by
    rw [pwrite_eq (wordBytes_ne_nil 0), List.take_of_length_le (by rw [hlen]; decide),
      List.drop_of_length_le (by rw [hlen]; exact Nat.le_add_left ..), hlen, wordBytes_zero,
      List.append_nil, List.append_assoc, ← List.replicate_add]
    rfl
  refine ⟨diskSize - 4 + 4, ?_⟩
  unfold OpenFile.newDisk OpenFile.writeFile OpenFile.lseek
  simp only [hfirst]
  rw [if_pos (by decide)]
  show Except.ok (OpenFile.mk (pwrite _ (diskSize - 4) (wordBytes 0)) _) = _
  rw [hfile, length_wordBytes]
  rfl

theorem holds_newFile : Holds newFile Store.new.sectors := by
  refine ⟨?_, ?_, fun n hn => ?_⟩
  · rw [newFile, List.length_append, List.length_replicate, length_wordBytes]
    rfl
  · have hmagic : pread newFile 0 magicSize = wordBytes magicNumber :=
      List.take_left' (length_wordBytes magicNumber)
    rw [hmagic, wordOf_magicNumber]
  · have hzeros : toList (Store.new.sectors n) sectorSize = List.replicate sectorSize 0 := by
      show (List.range sectorSize).map (fun _ => (0 : Byte)) = _
      rw [List.map_const', List.length_range]
    have hsectors : sectorSize * n + sectorSize ≤ numSectors * sectorSize := by
      unfold sectorSize numSectors at *
      omega
    have hcount : min sectorSize (numSectors * sectorSize - (sectorSize * n + magicSize - 4)) =
        sectorSize := by
      unfold magicSize
      omega
    rw [hzeros, pread, newFile, List.drop_append, List.drop_of_length_le
      (by rw [length_wordBytes]; exact Nat.le_add_left ..), List.nil_append, length_wordBytes,
      List.drop_replicate, List.take_replicate, hcount]

/-! ### The transfers -/

theorem toNat_offset {n : Int} (hn : 0 ≤ n) :
    (sectorSize * n + magicSize : Int).toNat = sectorSize * n.toNat + magicSize := by
  unfold sectorSize magicSize
  omega

theorem offset_nonneg {n : Int} (hn : 0 ≤ n) : (0 : Int) ≤ sectorSize * n + magicSize := by
  unfold sectorSize magicSize
  omega

theorem sector_inside {n : Nat} (hn : n < numSectors) :
    sectorSize * n + magicSize + sectorSize ≤ diskSize := by
  unfold diskSize sectorSize magicSize numSectors at *
  omega

theorem Holds.readRequest {file : List Byte} {sectors : Filesys.Disk} (h : Holds file sectors)
    (position : Nat) {n : Int} (hn : 0 ≤ n ∧ n < numSectors) :
    ∃ position', OpenFile.readRequest ⟨file, position⟩ n =
      .ok (⟨file, position'⟩, toList (sectors n.toNat) sectorSize) := by
  have hread := h.sector n.toNat (by omega)
  refine ⟨sectorSize * n.toNat + magicSize + sectorSize, ?_⟩
  unfold OpenFile.readRequest OpenFile.lseek
  rw [if_pos (offset_nonneg hn.1)]
  show OpenFile.read ⟨file, _⟩ sectorSize = _
  unfold OpenFile.read
  rw [toNat_offset hn.1, hread]
  exact if_pos (length_sector _)

/-- Sectors do not overlap. -/
theorem Holds.sector_pwrite {file : List Byte} {sectors : Filesys.Disk} (h : Holds file sectors)
    {n m : Nat} (hm : m < numSectors) (data : Image) :
    pread (pwrite file (sectorSize * n + magicSize) (toList data sectorSize))
        (sectorSize * m + magicSize) sectorSize =
      toList (Function.update sectors n data m) sectorSize := by
  have hlen := length_sector data
  rcases Nat.lt_trichotomy m n with hlt | rfl | hgt
  · have hend : sectorSize * m + magicSize + sectorSize ≤ sectorSize * n + magicSize := by
      unfold sectorSize magicSize
      omega
    have hin : sectorSize * m + magicSize + sectorSize ≤ file.length := by
      rw [h.size]
      exact sector_inside hm
    rw [pread_pwrite_before (sector_ne_nil data) hend hin, h.sector m hm,
      Function.update_of_ne hlt.ne]
  · have hself : pread (pwrite file (sectorSize * m + magicSize) (toList data sectorSize))
        (sectorSize * m + magicSize) (toList data sectorSize).length = toList data sectorSize :=
      pread_pwrite_self (sector_ne_nil data)
    rw [hlen] at hself
    rw [hself, Function.update_self]
  · have hstart : sectorSize * n + magicSize + (toList data sectorSize).length ≤
        sectorSize * m + magicSize := by
      rw [hlen]
      unfold sectorSize magicSize
      omega
    rw [pread_pwrite_after (sector_ne_nil data) hstart, h.sector m hm,
      Function.update_of_ne hgt.ne']

theorem Holds.written {file : List Byte} {sectors : Filesys.Disk} (h : Holds file sectors)
    {n : Nat} (hn : n < numSectors) (data : Image) :
    Holds (pwrite file (sectorSize * n + magicSize) (toList data sectorSize))
      (Function.update sectors n data) := by
  refine ⟨?_, ?_, fun m hm => h.sector_pwrite hm data⟩
  · rw [length_pwrite (sector_ne_nil data), length_sector, h.size]
    exact Nat.max_eq_left (sector_inside hn)
  · rw [pread_pwrite_before (sector_ne_nil data) (by omega) (by rw [h.size]; decide)]
    exact h.magic

theorem Holds.writeRequest {file : List Byte} {sectors : Filesys.Disk} (h : Holds file sectors)
    (position : Nat) {n : Int} (hn : 0 ≤ n ∧ n < numSectors) (data : Image) :
    ∃ file' position', OpenFile.writeRequest ⟨file, position⟩ n data = .ok ⟨file', position'⟩ ∧
      Holds file' (Function.update sectors n.toNat data) := by
  refine ⟨_, sectorSize * n.toNat + magicSize + sectorSize, ?_, h.written (by omega) data⟩
  unfold OpenFile.writeRequest OpenFile.lseek
  rw [if_pos (offset_nonneg hn.1)]
  show Except.ok (OpenFile.writeFile ⟨file, _⟩ (toList data sectorSize)) = _
  rw [toNat_offset hn.1, OpenFile.writeFile, length_sector]

theorem Holds.newDisk {file : List Byte} {sectors : Filesys.Disk} (h : Holds file sectors) :
    ∃ position, OpenFile.newDisk (some file) = .ok ⟨file, position⟩ := by
  have hlen : (pread file 0 magicSize).length = magicSize :=
    length_pread (by rw [h.size]; decide)
  refine ⟨0 + magicSize, ?_⟩
  show (OpenFile.read ⟨file, 0⟩ magicSize >>= _) = _
  unfold OpenFile.read
  rw [if_pos hlen]
  exact if_pos h.magic

/-! ### The steps -/

/-- A request that the disk accepts is for one of its sectors, and ends later. -/
theorem request_spec {timing timing' : DiskLatency.State} {n : Int} {writing : Bool}
    (hinv : DiskLatency.Inv timing) (h : timing.request n writing = some timing') :
    (0 ≤ n ∧ n < numSectors) ∧ timing.totalTicks < timing'.due ∧ DiskLatency.Inv timing' := by
  have hinv' := hinv.request h
  obtain ⟨⟨-, hsector⟩, rfl⟩ := Option.ite_some_none_eq_some.mp h
  have hlatency := (hinv.physical hsector writing).atLeast
  refine ⟨hsector, ?_, hinv'⟩
  show timing.totalTicks < timing.totalTicks + timing.disk.computeLatency timing.totalTicks n writing
  unfold DiskLatency.rotationTime at hlatency
  omega

section Steps

variable {s : State} {t : Store} {file file' : List Byte} {d : Device}

theorem Backs.holds (h : Backs s t) (hfile : s.file = some file) : Holds file t.sectors := by
  rcases h.file with ⟨bytes, hbytes, hholds⟩ | ⟨hnone, -⟩
  · rw [hfile] at hbytes
    cases hbytes
    exact hholds
  · rw [hfile] at hnone
    cases hnone

/-- The relation after an ASSERT. -/
theorem Backs.abort (h : Backs s t) (hfile : s.file = some file) :
    Backs (s.abort (some file)) t.abort := by
  refine ⟨.inl ⟨file, rfl, h.holds hfile⟩, rfl, fun timing hnone => ?_, ?_⟩
  · cases hnone
  · show s.replies ++ _ = t.replies ++ _
    rw [h.replies]

/-- The relation after a call that returns. -/
theorem Backs.reply (h : Backs s t) {sectors : Filesys.Disk} (hholds : Holds file sectors)
    (hinv : DiskLatency.Inv d.timing) (r : Reply) :
    Backs (s.reply (some file) d r) (t.reply sectors d.timing r) := by
  refine ⟨.inl ⟨file, rfl, hholds⟩, rfl, fun timing htiming => ?_, ?_⟩
  · cases htiming
    exact hinv
  · show s.replies ++ _ = t.replies ++ _
    rw [h.replies]

theorem Backs.inv (h : Backs s t) (hdisk : s.disk = some d) :
    t.timing = some d.timing ∧ DiskLatency.Inv d.timing := by
  have htiming := h.timing
  rw [hdisk] at htiming
  exact ⟨htiming.symm, h.head _ htiming.symm⟩

theorem Backs.readRequest (h : Backs s t) (hfile : s.file = some file) (hdisk : s.disk = some d)
    (n : Int) : Backs (s.readRequest file d n) (t.readRequest d.timing n) := by
  have hholds := h.holds hfile
  obtain ⟨-, hinv⟩ := h.inv hdisk
  unfold State.readRequest Store.readRequest
  cases hrequest : d.timing.request n false with
  | none => exact h.abort hfile
  | some timing =>
    obtain ⟨hn, hdue, hinv'⟩ := request_spec hinv hrequest
    obtain ⟨position, hread⟩ := hholds.readRequest d.position hn
    have hsector : readSector t.sectors n = .ok (t.sectors n.toNat) := if_pos hn
    simp only [hread, hsector]
    rw [State.schedule, if_pos hdue]
    exact h.reply hholds hinv' _

theorem Backs.writeRequest (h : Backs s t) (hfile : s.file = some file) (hdisk : s.disk = some d)
    (n : Int) (data : Image) :
    Backs (s.writeRequest file d n data) (t.writeRequest d.timing n data) := by
  have hholds := h.holds hfile
  obtain ⟨-, hinv⟩ := h.inv hdisk
  unfold State.writeRequest Store.writeRequest
  cases hrequest : d.timing.request n true with
  | none => exact h.abort hfile
  | some timing =>
    obtain ⟨hn, hdue, hinv'⟩ := request_spec hinv hrequest
    obtain ⟨file', position, hwrite, hholds'⟩ := hholds.writeRequest d.position hn data
    have hsector : writeSector t.sectors n data = .ok (Function.update t.sectors n.toNat data) :=
      if_pos hn
    simp only [hwrite, hsector]
    rw [State.schedule, if_pos hdue]
    exact h.reply hholds' hinv' _

theorem Backs.newDisk (h : Backs s t) (totalTicks : Nat) :
    Backs (s.newDisk totalTicks) (t.reply t.sectors (DiskLatency.start totalTicks) .done) := by
  have hinv := DiskLatency.inv_start totalTicks
  unfold State.newDisk
  rcases h.file with ⟨file, hfile, hholds⟩ | ⟨hnone, -, hzero⟩
  · obtain ⟨position, hnew⟩ := hholds.newDisk
    rw [hfile, hnew]
    exact h.reply (d := ⟨position, DiskLatency.start totalTicks, 0, 0⟩) hholds hinv .done
  · obtain ⟨position, hnew⟩ := newDisk_none
    rw [hnone, hnew, hzero]
    exact h.reply (d := ⟨position, DiskLatency.start totalTicks, 0, 0⟩) holds_newFile hinv .done

theorem Backs.step (s : State) (t : Store) (l : Label) (h : Backs s t) :
    Option.Rel Backs (step s l) (t.step l) := by
  cases hdisk : s.disk with
  | none =>
    have htiming : t.timing = none := by rw [← h.timing, hdisk]; rfl
    unfold DiskFile.step Store.step
    rw [hdisk, htiming]
    cases l with
    | newDisk totalTicks => exact .some (h.newDisk totalTicks)
    | _ => exact .none
  | some d =>
    obtain ⟨htiming, hinv⟩ := h.inv hdisk
    -- A process that has a disk has its file.
    obtain ⟨file, hfile, hholds⟩ : ∃ file, s.file = some file ∧ Holds file t.sectors := by
      rcases h.file with hfile | ⟨-, hnone, -⟩
      · exact hfile
      · rw [hdisk] at hnone
        cases hnone
    unfold DiskFile.step Store.step
    rw [hdisk, htiming, hfile]
    cases l with
    | newDisk totalTicks => exact .none
    | deleteDisk =>
      refine .some ⟨.inl ⟨file, rfl, hholds⟩, rfl, fun timing hnone => ?_, ?_⟩
      · cases hnone
      · show s.replies ++ _ = t.replies ++ _
        rw [h.replies]
    | readRequest n => exact .some (h.readRequest hfile hdisk n)
    | writeRequest n data => exact .some (h.writeRequest hfile hdisk n data)
    | handleInterrupt =>
      cases hdone : d.timing.handleInterrupt with
      | none =>
        simp only [hdone]
        exact .none
      | some timing =>
        have hinv' : DiskLatency.Inv timing := DiskLatency.inv_step (l := .handleInterrupt) hinv hdone
        simp only [hdone]
        exact .some (h.reply (d := { d with timing := timing }) hholds hinv' .done)
    | wait ticks =>
      have hinv' := hinv.wait ticks
      exact .some (h.reply (d := { d with timing := _ }) hholds hinv' .done)

end Steps

theorem backs_new : Backs new Store.new where
  file := .inr ⟨rfl, rfl, rfl⟩
  timing := rfl
  head _ hnone := by cases hnone
  replies := rfl

/-- In every run from a host without the file, through any number of processes, the disk answers as
the store does, and the file holds its sectors. -/
theorem disk_persists (ls : List Label) :
    Option.Rel Backs (Runs.run step new ls) (Runs.run Store.step Store.new ls) :=
  Runs.run_rel (fun s t l h => h.step s t l) backs_new ls

/-! ### Other files -/

/-- A file that does not start with the magic number is refused by every process, and left as it is. -/
theorem foreign_file_kept {bytes : List Byte}
    (hforeign : bytes.length < magicSize ∨ wordOf (pread bytes 0 magicSize) ≠ magicNumber)
    (ls : List Label) :
    Runs.AllStates step
      (fun s => s.file = some bytes ∧ s.disk = none ∧ ∀ r ∈ s.replies, r = .aborted)
      { file := some bytes, disk := none, replies := [] } ls := by
  have hrefused : ∃ fault, OpenFile.newDisk (some bytes) = .error fault := by
    show ∃ fault, (OpenFile.read ⟨bytes, 0⟩ magicSize >>= _) = .error fault
    unfold OpenFile.read
    by_cases hlen : (pread bytes 0 magicSize).length = magicSize
    · rw [if_pos hlen]
      rcases hforeign with hshort | hmagic
      · rw [pread, List.length_take] at hlen
        simp only [List.drop_zero] at hlen
        omega
      · exact ⟨.assertion, if_neg hmagic⟩
    · rw [if_neg hlen]
      exact ⟨.assertion, rfl⟩
  obtain ⟨fault, hrefused⟩ := hrefused
  refine Runs.allStates_of_invariant (fun s l s' hs h => ?_) ⟨rfl, rfl, fun r hr => ?_⟩ ls
  · obtain ⟨hfile, hdisk, hreplies⟩ := hs
    unfold step at h
    rw [hdisk] at h
    cases l with
    | newDisk totalTicks =>
      cases h
      unfold State.newDisk
      rw [hfile, hrefused]
      refine ⟨rfl, rfl, fun r hr => ?_⟩
      rcases List.mem_append.mp hr with hr | hr
      · exact hreplies r hr
      · exact List.mem_singleton.mp hr
    | _ => cases h
  · cases hr

end Nachos.Devices.DiskFile
