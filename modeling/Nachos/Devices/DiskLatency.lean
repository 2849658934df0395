import Nachos.Lib.Runs

/-!
# The latency of the disk

`Disk::ComputeLatency` of `machine/disk.cc`. The disk turns by one sector in `RotationTime` ticks, and
in the time slot from `k * RotationTime` to `(k + 1) * RotationTime` sector `k mod SectorsPerTrack`
of the current track passes under the head. The times are the `int`s of the source in runs in which
none of them overflows.

A run is a sequence of requests, of their interrupts, and of waiting. `seeks` records the moves of
the head; `headTrack` tells the track under the head at a time.

`latency_physical`: in every state of every run the latency is that of the disk described here. It
rests on `Inv`: the track buffer starts at a slot, and since then the head has been on the track
of the last sector.
-/

namespace Nachos.Devices.DiskLatency

open Runs

def rotationTime : Int := 500
def seekTime : Int := 500
def sectorsPerTrack : Int := 32
def numTracks : Int := 32
def numSectors : Int := sectorsPerTrack * numTracks

/-- The fields of `Disk` that the latency depends on. -/
structure Disk where
  lastSector : Int := 0
  bufferInit : Int := 0
  active : Bool := false

namespace Disk

variable (d : Disk) (totalTicks newSector : Int)

/-- `Disk::TimeToSeek`: the seek and the rest of the slot in which it ends. -/
def timeToSeek : Int × Int :=
  let newTrack := newSector.tdiv sectorsPerTrack
  let oldTrack := d.lastSector.tdiv sectorsPerTrack
  let seek := ((newTrack - oldTrack).natAbs : Int) * seekTime
  let overBy := (totalTicks + seek).tmod rotationTime
  (seek, if overBy > 0 then rotationTime - overBy else 0)

def seek : Int := (d.timeToSeek totalTicks newSector).1

def rotation : Int := (d.timeToSeek totalTicks newSector).2

end Disk

/-- `Disk::ModuloDiff`. -/
def moduloDiff (toSector fromSector : Int) : Int :=
  let toOffset := toSector.tmod sectorsPerTrack
  let fromOffset := fromSector.tmod sectorsPerTrack
  ((toOffset - fromOffset) + sectorsPerTrack).tmod sectorsPerTrack

namespace Disk

variable (d : Disk) (totalTicks newSector : Int) (writing : Bool)

/-- The time after the seek, at the start of a slot. -/
def timeAfter : Int := totalTicks + d.seek totalTicks newSector + d.rotation totalTicks newSector

/-- The test of `ComputeLatency` whether the track buffer applies. -/
def TrackBuffer : Prop :=
  writing = false ∧ d.seek totalTicks newSector = 0 ∧
    (d.timeAfter totalTicks newSector - d.bufferInit).tdiv rotationTime >
      moduloDiff newSector (d.bufferInit.tdiv rotationTime)

instance : Decidable (d.TrackBuffer totalTicks newSector writing) :=
  inferInstanceAs (Decidable (_ ∧ _ ∧ _))

/-- `Disk::ComputeLatency`. -/
def computeLatency : Int :=
  if d.TrackBuffer totalTicks newSector writing then rotationTime
  else
    let rotation := d.rotation totalTicks newSector +
      moduloDiff newSector ((d.timeAfter totalTicks newSector).tdiv rotationTime) * rotationTime
    d.seek totalTicks newSector + rotation + rotationTime

/-- `Disk::UpdateLast`. -/
def updateLast : Disk :=
  { d with
    bufferInit :=
      if d.seek totalTicks newSector ≠ 0 then d.timeAfter totalTicks newSector else d.bufferInit
    lastSector := newSector }

end Disk

/-- A move of the head. -/
structure Seek where
  start : Int
  arrival : Int
  track : Int

/-- The track under the head at a time, if it is not moving then; the last move is first. At the
start the head is on track 0. -/
def headTrack : List Seek → Int → Option Int
  | [], _ => some 0
  | m :: ms, time =>
    if time < m.start then headTrack ms time
    else if time < m.arrival then none
    else some m.track

/-- The disk and the clock. `due` is the time of the interrupt of the active request. -/
structure State where
  disk : Disk := {}
  totalTicks : Int
  due : Int := 0
  seeks : List Seek := []

inductive Label
  | wait (ticks : Nat)
  | request (newSector : Int) (writing : Bool)
  | handleInterrupt

namespace State

variable (s : State)

/-- `Disk::ReadRequest` and `Disk::WriteRequest`. -/
def request (newSector : Int) (writing : Bool) : Option State :=
  let ticks := s.disk.computeLatency s.totalTicks newSector writing
  let seek := s.disk.seek s.totalTicks newSector
  if s.disk.active = false ∧ 0 ≤ newSector ∧ newSector < numSectors then
    some { s with
      disk := { s.disk.updateLast s.totalTicks newSector with active := true }
      due := s.totalTicks + ticks
      seeks :=
        if seek ≠ 0 then
          ⟨s.totalTicks, s.totalTicks + seek, newSector.tdiv sectorsPerTrack⟩ :: s.seeks
        else s.seeks }
  else none

/-- `Disk::HandleInterrupt`, called when the time has come. -/
def handleInterrupt : Option State :=
  if s.disk.active = true ∧ s.due ≤ s.totalTicks then
    some { s with disk := { s.disk with active := false } }
  else none

end State

def step (s : State) : Label → Option State
  | .wait ticks => some { s with totalTicks := s.totalTicks + ticks }
  | .request newSector writing => s.request newSector writing
  | .handleInterrupt => s.handleInterrupt

/-- The disk is created at some time. -/
def start (ticks : Nat) : State := { totalTicks := ticks }

/-! ### The arithmetic of one request -/

/-- A sector of the disk. -/
def Sector (x : Int) : Prop := 0 ≤ x ∧ x < numSectors

/-- The distance of the slots, forwards. -/
theorem moduloDiff_spec {x y : Int} (hx : 0 ≤ x) (hy : 0 ≤ y) :
    0 ≤ moduloDiff x y ∧ (y + moduloDiff x y) % sectorsPerTrack = x % sectorsPerTrack := by
  have hnonneg : 0 ≤ x % 32 - y % 32 + 32 := by omega
  unfold moduloDiff sectorsPerTrack
  dsimp only
  rw [Int.tmod_eq_emod_of_nonneg hx, Int.tmod_eq_emod_of_nonneg hy,
    Int.tmod_eq_emod_of_nonneg hnonneg]
  omega

section Request

variable {d : Disk} {totalTicks newSector : Int} {writing : Bool}

theorem seek_eq (hlast : 0 ≤ d.lastSector) (hnew : 0 ≤ newSector) :
    d.seek totalTicks newSector =
      ((newSector / sectorsPerTrack - d.lastSector / sectorsPerTrack).natAbs : Int) * seekTime := by
  unfold Disk.seek Disk.timeToSeek
  dsimp only
  rw [Int.tdiv_eq_ediv_of_nonneg hlast, Int.tdiv_eq_ediv_of_nonneg hnew]

theorem seek_nonneg : 0 ≤ d.seek totalTicks newSector := by
  unfold Disk.seek Disk.timeToSeek seekTime
  dsimp only
  omega

/-- Without a seek the sector is on the current track. -/
theorem seek_eq_zero_iff (hlast : 0 ≤ d.lastSector) (hnew : 0 ≤ newSector) :
    d.seek totalTicks newSector = 0 ↔
      newSector / sectorsPerTrack = d.lastSector / sectorsPerTrack := by
  rw [seek_eq hlast hnew]
  unfold seekTime
  omega

/-- The head waits for the start of the next slot. -/
theorem rotation_spec (d : Disk) (newSector : Int) (hticks : 0 ≤ totalTicks) :
    0 ≤ d.rotation totalTicks newSector ∧ d.rotation totalTicks newSector < rotationTime ∧
      d.timeAfter totalTicks newSector % rotationTime = 0 := by
  have hseek : 0 ≤ d.seek totalTicks newSector := seek_nonneg
  have hrotation : d.rotation totalTicks newSector =
      if (totalTicks + d.seek totalTicks newSector) % rotationTime > 0 then
        rotationTime - (totalTicks + d.seek totalTicks newSector) % rotationTime
      else 0 := by
    have hover := Int.tmod_eq_emod_of_nonneg (b := rotationTime) (Int.add_nonneg hticks hseek)
    show (if (totalTicks + d.seek totalTicks newSector).tmod rotationTime > 0 then
      rotationTime - (totalTicks + d.seek totalTicks newSector).tmod rotationTime else 0) = _
    rw [hover]
  unfold Disk.timeAfter
  rw [hrotation]
  unfold rotationTime
  split
  · omega
  · omega

/-- The latency without the track buffer: the last slot of it is that of the sector. -/
theorem computeLatency_direct (hticks : 0 ≤ totalTicks) (hnew : 0 ≤ newSector)
    (hbuffer : ¬ d.TrackBuffer totalTicks newSector writing) :
    rotationTime ≤ d.computeLatency totalTicks newSector writing ∧
      (totalTicks + d.computeLatency totalTicks newSector writing) % rotationTime = 0 ∧
      ((totalTicks + d.computeLatency totalTicks newSector writing) / rotationTime - 1) %
        sectorsPerTrack = newSector % sectorsPerTrack := by
  obtain ⟨hrotation, -, hslot⟩ := rotation_spec d newSector hticks
  have hseek : 0 ≤ d.seek totalTicks newSector := seek_nonneg
  have hafter : 0 ≤ d.timeAfter totalTicks newSector :=
    Int.add_nonneg (Int.add_nonneg hticks hseek) hrotation
  have hsum : d.timeAfter totalTicks newSector =
    totalTicks + d.seek totalTicks newSector + d.rotation totalTicks newSector := rfl
  unfold Disk.computeLatency
  rw [if_neg hbuffer, Int.tdiv_eq_ediv_of_nonneg hafter]
  dsimp only
  have hdiff := moduloDiff_spec hnew (Int.ediv_nonneg hafter (b := rotationTime) (by decide))
  unfold rotationTime sectorsPerTrack at *
  omega

/-- The track buffer holds a slot of the sector. -/
theorem slot_of_trackBuffer (hticks : 0 ≤ totalTicks) (hnew : 0 ≤ newSector)
    (hinit : 0 ≤ d.bufferInit) (hslot : d.bufferInit % rotationTime = 0)
    (hbuffer : d.TrackBuffer totalTicks newSector writing) :
    ∃ k, k % sectorsPerTrack = newSector % sectorsPerTrack ∧ d.bufferInit ≤ k * rotationTime ∧
      (k + 1) * rotationTime ≤ totalTicks + rotationTime := by
  obtain ⟨-, hseek, htest⟩ := hbuffer
  obtain ⟨-, hrotation, hafter⟩ := rotation_spec d newSector hticks
  have hsum : d.timeAfter totalTicks newSector =
    totalTicks + d.seek totalTicks newSector + d.rotation totalTicks newSector := rfl
  rw [Int.tdiv_eq_ediv_of_nonneg hinit] at htest
  have hdiff := moduloDiff_spec hnew (Int.ediv_nonneg hinit (b := rotationTime) (by decide))
  have hloaded : 0 ≤ d.timeAfter totalTicks newSector - d.bufferInit := by
    by_contra hneg
    have hquot : (d.timeAfter totalTicks newSector - d.bufferInit).tdiv rotationTime ≤
        Int.tdiv 0 rotationTime :=
      Int.tdiv_le_tdiv (by decide) (Int.le_of_lt (Int.not_le.mp hneg))
    rw [Int.zero_tdiv] at hquot
    omega
  rw [Int.tdiv_eq_ediv_of_nonneg hloaded] at htest
  refine ⟨d.bufferInit / rotationTime + moduloDiff newSector (d.bufferInit / rotationTime),
    hdiff.2, ?_, ?_⟩
  · unfold rotationTime at *
    omega
  · unfold rotationTime at *
    omega

end Request

/-! ### The invariant of the requests -/

/-- Since the track buffer is loaded, from the start of a slot, the head is on the track of the last
sector. -/
structure Inv (s : State) : Prop where
  clock : 0 ≤ s.totalTicks
  last : Sector s.disk.lastSector
  init : 0 ≤ s.disk.bufferInit
  slot : s.disk.bufferInit % rotationTime = 0
  head : ∀ time, s.disk.bufferInit ≤ time →
    headTrack s.seeks time = some (s.disk.lastSector / sectorsPerTrack)

theorem inv_start (ticks : Nat) : Inv (start ticks) where
  clock := Int.natCast_nonneg ticks
  last := by simp [Sector, start, numSectors, sectorsPerTrack, numTracks]
  init := Int.le_refl 0
  slot := rfl
  head := fun _ _ => rfl

theorem Inv.wait {s : State} (hs : Inv s) (ticks : Nat) :
    Inv { s with totalTicks := s.totalTicks + ticks } := by
  refine ⟨?_, hs.last, hs.init, hs.slot, hs.head⟩
  have hclock := hs.clock
  show 0 ≤ s.totalTicks + ticks
  omega

/-- After a move the buffer is loaded once the head has arrived. -/
theorem headTrack_cons {m : Seek} {ms : List Seek} {time : Int} (hstart : m.start ≤ time)
    (harrival : m.arrival ≤ time) : headTrack (m :: ms) time = some m.track := by
  rw [headTrack, if_neg (Int.not_lt.mpr hstart), if_neg (Int.not_lt.mpr harrival)]

theorem Inv.request {s s' : State} {newSector : Int} {writing : Bool} (hs : Inv s)
    (h : s.request newSector writing = some s') : Inv s' := by
  unfold State.request at h
  dsimp only at h
  split at h
  · rename_i hguard
    obtain ⟨-, hnew⟩ := hguard
    cases h
    have hclock := hs.clock
    have hseek : 0 ≤ s.disk.seek s.totalTicks newSector := seek_nonneg
    obtain ⟨hrotation, -, hslot⟩ := rotation_spec s.disk newSector hclock
    by_cases hmove : s.disk.seek s.totalTicks newSector ≠ 0
    · have hafter : s.disk.timeAfter s.totalTicks newSector =
        s.totalTicks + s.disk.seek s.totalTicks newSector +
          s.disk.rotation s.totalTicks newSector := rfl
      refine ⟨hclock, hnew, ?_, ?_, ?_⟩
      · simp only [Disk.updateLast, if_pos hmove]
        omega
      · simp only [Disk.updateLast, if_pos hmove]
        exact hslot
      · simp only [Disk.updateLast, if_pos hmove]
        intro time htime
        rw [headTrack_cons (by dsimp only; omega) (by dsimp only; omega),
          Int.tdiv_eq_ediv_of_nonneg hnew.1]
    · have hstay := (seek_eq_zero_iff hs.last.1 hnew.1).mp (not_not.mp hmove)
      refine ⟨hclock, hnew, ?_, ?_, ?_⟩
      · simp only [Disk.updateLast, if_neg hmove]
        exact hs.init
      · simp only [Disk.updateLast, if_neg hmove]
        exact hs.slot
      · simp only [Disk.updateLast, if_neg hmove]
        rw [hstay]
        exact hs.head
  · cases h

theorem inv_step {s s' : State} {l : Label} (hs : Inv s) (h : step s l = some s') : Inv s' := by
  cases l with
  | wait ticks =>
    cases h
    exact hs.wait ticks
  | request newSector writing => exact hs.request h
  | handleInterrupt =>
    simp only [step, State.handleInterrupt] at h
    split_ifs at h
    cases h
    exact ⟨hs.clock, hs.last, hs.init, hs.slot, hs.head⟩

/-! ### Every run -/

/-- What the latency of a request says about the disk. -/
structure Physical (s : State) (newSector : Int) (writing : Bool) (latency : Int) : Prop where
  atLeast : rotationTime ≤ latency
  /-- Without the track buffer, the request ends with the slot of the sector. -/
  ends : ¬ s.disk.TrackBuffer s.totalTicks newSector writing →
    (s.totalTicks + latency) % rotationTime = 0 ∧
      ((s.totalTicks + latency) / rotationTime - 1) % sectorsPerTrack = newSector % sectorsPerTrack
  /-- With it, a whole slot of the sector has passed under the head on its track. -/
  passed : s.disk.TrackBuffer s.totalTicks newSector writing →
    ∃ k, k % sectorsPerTrack = newSector % sectorsPerTrack ∧
      s.disk.bufferInit ≤ k * rotationTime ∧ (k + 1) * rotationTime ≤ s.totalTicks + latency ∧
      ∀ time, s.disk.bufferInit ≤ time → time ≤ s.totalTicks + latency →
        headTrack s.seeks time = some (newSector / sectorsPerTrack)

theorem Inv.physical {s : State} (hs : Inv s) {newSector : Int} (hnew : Sector newSector)
    (writing : Bool) :
    Physical s newSector writing (s.disk.computeLatency s.totalTicks newSector writing) := by
  by_cases hbuffer : s.disk.TrackBuffer s.totalTicks newSector writing
  · have hlatency : s.disk.computeLatency s.totalTicks newSector writing = rotationTime :=
      if_pos hbuffer
    rw [hlatency]
    refine ⟨Int.le_refl _, fun hnot => absurd hbuffer hnot, fun _ => ?_⟩
    obtain ⟨k, hk, hafter, hbefore⟩ :=
      slot_of_trackBuffer hs.clock hnew.1 hs.init hs.slot hbuffer
    refine ⟨k, hk, hafter, hbefore, fun time htime _ => ?_⟩
    rw [(seek_eq_zero_iff hs.last.1 hnew.1).mp hbuffer.2.1]
    exact hs.head time htime
  · obtain ⟨hleast, hslot⟩ := computeLatency_direct hs.clock hnew.1 hbuffer
    exact ⟨hleast, fun _ => hslot, fun h => absurd h hbuffer⟩

/-- After any requests and at any time, for every sector. -/
theorem latency_physical (ticks : Nat) (ls : List Label) :
    AllStates step (fun s => ∀ newSector writing, Sector newSector →
      Physical s newSector writing (s.disk.computeLatency s.totalTicks newSector writing))
      (start ticks) ls := by
  have hinv : AllStates step Inv (start ticks) ls :=
    allStates_of_invariant (fun s l s' hs h => inv_step hs h) (inv_start ticks) ls
  exact hinv.mono fun s hs newSector writing hnew => hs.physical hnew writing

end Nachos.Devices.DiskLatency
