import Nachos.Devices.Clients
import Nachos.Filesys.FileHeader

/-!
# One disk request at a time

`SynchDisk::ReadSector` and `SynchDisk::WriteSector` (`filesys/synchdisk.cc`) over the disk of
`machine/disk.cc`. They rely on a lock for "only one disk I/O at a time", but `Lock::Acquire` and
`Lock::Release` of `threads/synch.cc` have empty bodies. A call is thus one piece of code, from its
start to the `P` in which it waits for the interrupt.

* `oneAtATime`: when no call starts while another thread is in its `P`, the disk is never called
  while it is active, and each call returns after the interrupt of its own request.
* `not_oneAtATime`: a second call before the interrupt of the first one fails the ASSERT of
  `Disk::ReadRequest` (`overlap`); one between that interrupt and the dispatch of the first thread
  takes the unit, and returns before the interrupt of its own request (`steal`).
-/

namespace Nachos.Devices.SynchDisk

open Bytes (Image)
open Function (update update_of_ne update_self)
open Threads (SemId Tid)

/-! ## The code -/

/-- The one semaphore of a `SynchDisk`. -/
inductive Sem
  | semaphore
  deriving DecidableEq

instance : Fintype Sem := ⟨{.semaphore}, fun x => by cases x; decide⟩

/-- The requests that the disk has accepted, numbered in their order. -/
abbrev Request := Nat

structure Disk where
  sectors : Filesys.Disk
  active : Bool
  /-- The request whose `DiskInt` interrupt is pending. -/
  scheduled : Option Request
  /-- An ASSERT has failed. -/
  aborted : Bool
  /-- History: the disk was called while it was active. -/
  overlapped : Bool
  /-- History: how many requests were accepted. -/
  requests : Nat
  /-- History: the requests whose interrupt has come. -/
  completed : List Request
  /-- History: the calls that have returned, with their buffer. -/
  returned : List (Request × Image)

/-- `new SynchDisk`. -/
def Disk.new (sectors : Filesys.Disk) : Disk where
  sectors := sectors
  active := false
  scheduled := none
  aborted := false
  overlapped := false
  requests := 0
  completed := []
  returned := []

inductive Point
  | outside
  /-- In `semaphore->P()`; `data` is the caller's buffer. -/
  | inP (r : Request) (data : Image)

inductive Act
  | readSector (sectorNumber : Int)
  | writeSector (sectorNumber : Int) (data : Image)
  /-- The call returns after its `P`. -/
  | ret

/-- `Disk::ReadRequest` or `Disk::WriteRequest` followed by `semaphore->P()`. The transfer, with
the ASSERT on the sector number, is done at once. -/
def Disk.request (d : Disk) (transfer : Except Fault (Filesys.Disk × Image)) :
    Move Sem Point Disk :=
  if d.active then ⟨{ d with aborted := true, overlapped := true }, .none, .outside⟩
  else
    match transfer with
    | .error _ => ⟨{ d with aborted := true }, .none, .outside⟩
    | .ok (sectors, data) =>
      ⟨{ d with
          sectors := sectors
          active := true
          scheduled := some d.requests
          requests := d.requests + 1 }, .p .semaphore, .inP d.requests data⟩

def next : Act → Tid → Point → Disk → Option (Move Sem Point Disk)
  | .readSector n, _, .outside, d =>
    some (d.request ((Filesys.readSector d.sectors n).map fun data => (d.sectors, data)))
  | .writeSector n data, _, .outside, d =>
    some (d.request ((Filesys.writeSector d.sectors n data).map fun sectors => (sectors, data)))
  | .ret, _, .inP r data, d => some ⟨{ d with returned := d.returned ++ [(r, data)] }, .none, .outside⟩
  | _, _, _, _ => none

inductive Irq
  | handleInterrupt

/-- `Disk::HandleInterrupt`, which calls `SynchDisk::RequestDone`. -/
def irq : Irq → Disk → Option (Disk × Option Sem)
  | .handleInterrupt, d => d.scheduled.map fun r =>
    ({ d with active := false, scheduled := none, completed := d.completed ++ [r] },
      some .semaphore)

def Point.isOutside : Point → Bool
  | .outside => true
  | .inP _ _ => false

def Point.awaits : Point → Option Sem
  | .outside => none
  | .inP _ _ => some .semaphore

theorem awaits_request (d : Disk) (transfer : Except Fault (Filesys.Disk × Image)) :
    (d.request transfer).point.awaits = (d.request transfer).op.awaits := by
  unfold Disk.request
  split
  · rfl
  · split
    · rfl
    · rfl

/-- The threads that call a `SynchDisk`. -/
def client : Client Sem Point Disk Act Irq where
  outside := Point.isOutside
  awaits := Point.awaits
  stopped := Disk.aborted
  next := next
  taken _ _ _ d := d
  irq := irq
  awaits_next x t pt d m h := by
    cases x with
    | readSector n =>
      cases pt with
      | outside =>
        cases h
        exact awaits_request d _
      | inP r data => cases h
    | writeSector n data =>
      cases pt with
      | outside =>
        cases h
        exact awaits_request d _
      | inP r data => cases h
    | ret =>
      cases pt with
      | outside => cases h
      | inP r data =>
        cases h
        rfl

/-! ## Calls that do not meet -/

/-- Who waits for the disk. -/
inductive Phase (a : Shared Sem Point Disk) : Prop
  | idle (waiting : ∀ t, a.waiting t = false) (value : a.value .semaphore = 0)
    (active : a.device.active = false) (scheduled : a.device.scheduled = none)
  | busy (t : Tid) (r : Request) (data : Image) (waiting : ∀ u, a.waiting u = true ↔ u = t)
    (point : a.point t = .inP r data) (value : a.value .semaphore = 0)
    (scheduled : a.device.scheduled = some r)
  | served (t : Tid) (r : Request) (data : Image) (waiting : ∀ u, a.waiting u = true ↔ u = t)
    (point : a.point t = .inP r data) (value : a.value .semaphore = 1)
    (active : a.device.active = false) (scheduled : a.device.scheduled = none)
    (completed : r ∈ a.device.completed)

/-- The invariant of calls that do not meet. -/
structure Quiet (a : Shared Sem Point Disk) : Prop where
  phase : Phase a
  overlapped : a.device.overlapped = false
  /-- A `P` has ended after the interrupt of its request. -/
  past : ∀ t r data, a.point t = .inP r data → a.waiting t = false → r ∈ a.device.completed
  returned : ∀ x ∈ a.device.returned, x.1 ∈ a.device.completed

/-- A call of `ReadSector` or `WriteSector`. -/
def Act.calls : Act → Bool
  | .readSector _ | .writeSector _ _ => true
  | .ret => false

/-- A call starts only when no thread waits. -/
def Alone (a : Shared Sem Point Disk) : SharedLabel Act Irq → Prop
  | .act _ x => x.calls = true → ∀ t, a.waiting t = false
  | _ => True

variable {a : Shared Sem Point Disk}

theorem Quiet.idle_of_nobody (h : Quiet a) (hw : ∀ t, a.waiting t = false) :
    a.value .semaphore = 0 ∧ a.device.active = false ∧ a.device.scheduled = none := by
  cases h.phase with
  | idle _ hv ha hs => exact ⟨hv, ha, hs⟩
  | busy t r data hwt => exact absurd ((hwt t).mpr rfl) (by simp [hw t])
  | served t r data hwt => exact absurd ((hwt t).mpr rfl) (by simp [hw t])

/-- A request while nobody waits. -/
theorem Quiet.request (h : Quiet a) {t : Tid} (hw : ∀ u, a.waiting u = false)
    (transfer : Except Fault (Filesys.Disk × Image)) :
    Quiet (a.move client t (a.device.request transfer)) := by
  obtain ⟨hv, ha, hs⟩ := h.idle_of_nobody hw
  unfold Disk.request
  rw [if_neg (by simp [ha])]
  cases transfer with
  | error e =>
    refine ⟨.idle hw hv ha hs, h.overlapped, fun u r data hp _ => ?_, h.returned⟩
    by_cases hu : u = t
    · subst hu
      simp [Shared.move, Shared.goto] at hp
    · exact h.past u r data ((update_of_ne hu _ _).symm.trans hp) (hw u)
  | ok x =>
    obtain ⟨sectors, data⟩ := x
    -- the value is zero: the thread goes to sleep with the new request
    simp only [Shared.move, Shared.test, Shared.goto, hv, if_true]
    refine ⟨.busy t a.device.requests data (fun u => ?_) (update_self ..) hv rfl, h.overlapped,
      fun u r data' hp hwu => ?_, h.returned⟩
    · by_cases hu : u = t
      · simp [hu]
      · simp [hu, hw u]
    · have hu : u ≠ t := by
        rintro rfl
        simp at hwu
      exact h.past u r data' ((update_of_ne hu _ _).symm.trans hp) (hw u)

/-- A call returns. -/
theorem Quiet.ret (h : Quiet a) {t : Tid} (hw : a.waiting t = false) {r : Request} {data : Image}
    (hp : a.point t = .inP r data) :
    Quiet (a.goto t .outside { a.device with returned := a.device.returned ++ [(r, data)] }) := by
  have hpoint : ∀ u, a.waiting u = true → update a.point t .outside u = a.point u := by
    intro u hu
    have hne : u ≠ t := by
      rintro rfl
      simp [hw] at hu
    exact update_of_ne hne _ _
  refine ⟨?_, h.overlapped, fun u r' data' hpu hwu => ?_, fun x hx => ?_⟩
  · cases h.phase with
    | idle hwt hv ha hs => exact .idle hwt hv ha hs
    | busy u r' data' hwt hpu hv hs =>
      exact .busy u r' data' hwt ((hpoint u ((hwt u).mpr rfl)).trans hpu) hv hs
    | served u r' data' hwt hpu hv ha hs hc =>
      exact .served u r' data' hwt ((hpoint u ((hwt u).mpr rfl)).trans hpu) hv ha hs hc
  · by_cases hu : u = t
    · subst hu
      simp [Shared.goto] at hpu
    · exact h.past u r' data' ((update_of_ne hu _ _).symm.trans hpu) hwu
  · rcases List.mem_append.mp hx with hold | hnew
    · exact h.returned x hold
    · rw [List.mem_singleton.mp hnew]
      exact h.past t r data hp hw

/-- A thread that waits is dispatched. -/
theorem Quiet.retest (h : Quiet a) {t : Tid} (hw : a.waiting t = true) :
    Quiet (a.test client t .semaphore) := by
  unfold Shared.test
  cases h.phase with
  | idle hwt => simp [hwt t] at hw
  | busy u r data hwt hp hv hs =>
    obtain rfl := (hwt t).mp hw
    rw [if_pos hv, ← hw, Function.update_eq_self]
    exact h
  | served u r data hwt hp hv ha hs hc =>
    obtain rfl := (hwt t).mp hw
    rw [if_neg (by simp [hv])]
    refine ⟨.idle (fun u => ?_) ?_ ha hs, h.overlapped, fun u r' data' hpu hwu => ?_, h.returned⟩
    · by_cases hu : u = t
      · simp [hu]
      · simpa [hu] using mt (hwt u).mp hu
    · show update a.value .semaphore _ .semaphore = 0
      rw [update_self, hv]
      rfl
    · by_cases hu : u = t
      · subst hu
        cases hp.symm.trans hpu
        exact hc
      · exact h.past u r' data' hpu (by simpa [hu] using hwu)

theorem Quiet.irq (h : Quiet a) {r : Request} (hr : a.device.scheduled = some r) :
    Quiet (a.interrupt
      { a.device with active := false, scheduled := none, completed := a.device.completed ++ [r] }
      (some .semaphore)) := by
  have hmore : ∀ r' ∈ a.device.completed, r' ∈ a.device.completed ++ [r] :=
    fun r' hr' => List.mem_append_left _ hr'
  refine ⟨?_, h.overlapped, fun u r' data' hpu hwu => hmore r' (h.past u r' data' hpu hwu),
    fun x hx => hmore x.1 (h.returned x hx)⟩
  cases h.phase with
  | idle hwt hv ha hs => simp [hs] at hr
  | busy t r' data hwt hp hv hs =>
    obtain rfl : r' = r := Option.some.inj (hs.symm.trans hr)
    refine .served t r' data hwt hp ?_ rfl rfl (List.mem_append_right _ (List.mem_singleton.mpr rfl))
    show update a.value .semaphore (Threads.wrap32 (a.value .semaphore + 1)) .semaphore = 1
    rw [update_self, hv]
    rfl
  | served t r' data hwt hp hv ha hs hc => simp [hs] at hr

theorem quiet_step {l : SharedLabel Act Irq} {a' : Shared Sem Point Disk} (h : Quiet a)
    (halone : Alone a l) (hs : astep client a l = some a') : Quiet a' := by
  cases l with
  | act t x =>
    obtain ⟨⟨-, hw⟩, hs⟩ := Option.ite_none_right_eq_some.mp hs
    obtain ⟨m, hm, rfl⟩ := Option.map_eq_some_iff.mp hs
    cases hp : a.point t with
    | outside =>
      rw [hp] at hm
      cases x with
      | readSector n =>
        cases hm
        exact h.request (halone rfl) _
      | writeSector n data =>
        cases hm
        exact h.request (halone rfl) _
      | ret => cases hm
    | inP r data =>
      rw [hp] at hm
      cases x with
      | ret =>
        cases hm
        exact h.ret hw hp
      | _ => cases hm
  | retest t =>
    obtain ⟨⟨-, hw⟩, hs⟩ := Option.ite_none_right_eq_some.mp hs
    obtain ⟨r, -, rfl⟩ := Option.map_eq_some_iff.mp hs
    exact h.retest hw
  | irq i =>
    obtain ⟨-, hs⟩ := Option.ite_none_right_eq_some.mp hs
    obtain ⟨x, hx, rfl⟩ := Option.map_eq_some_iff.mp hs
    obtain ⟨r, hr, rfl⟩ := Option.map_eq_some_iff.mp hx
    exact h.irq hr

/-! ## On the thread system -/

/-- Until now the disk was called only while it was not active, and every call that has returned
did so after the interrupt of its own request. -/
structure OneAtATime (s : System Point Disk) : Prop where
  notActive : s.device.overlapped = false
  own : ∀ x ∈ s.device.returned, x.1 ∈ s.device.completed

/-- No thread is in the `P` of a call when a call starts. -/
def StartsAlone (ref : Sem → SemId) (s : System Point Disk) : Label Act Irq → Prop
  | .act x => x.calls = true →
    ∀ t < s.kernel.numThreads, s.kernel.view.waits t ≠ some (ref .semaphore)
  | _ => True

instance (ref : Sem → SemId) (s : System Point Disk) (l : Label Act Irq) :
    Decidable (StartsAlone ref s l) :=
  match l with
  | .act x => inferInstanceAs (Decidable (x.calls = true →
    ∀ t < s.kernel.numThreads, s.kernel.view.waits t ≠ some (ref .semaphore)))
  | .irq _ => isTrue trivial
  | .other _ => isTrue trivial

theorem alone_of_startsAlone {ref : Sem → SemId} (s : System Point Disk) (l : Label Act Irq)
    (l' : SharedLabel Act Irq) (hrel : Rel client ref s) (hs : StartsAlone ref s l)
    (hl : sharedLabel ref s l = some l') : Alone (abs ref s) l' := by
  cases l with
  | act x =>
    cases hl
    intro hx t
    refine decide_eq_false ?_
    rintro ⟨⟨⟩, hr⟩
    by_cases ht : t < s.kernel.numThreads
    · exact hs hx t ht hr
    · rw [waits_of_unused hrel.inv (Nat.not_lt.mp ht)] at hr
      cases hr
  | irq i =>
    cases hl
    trivial
  | other l =>
    obtain ⟨-, rfl⟩ := Option.ite_some_none_eq_some.mp hl
    trivial

theorem quiet_start {ref : Sem → SemId} {s : System Point Disk}
    (h : Start client ref (fun _ => 0) s) {sectors : Filesys.Disk}
    (hd : s.device = Disk.new sectors) : Quiet (abs ref s) := by
  have hdevice : (abs ref s).device = Disk.new sectors := hd
  refine ⟨.idle h.waiting (h.value .semaphore) ?_ ?_, ?_, fun t r data hp => ?_, ?_⟩
  · rw [hdevice]
    rfl
  · rw [hdevice]
    rfl
  · rw [hdevice]
    rfl
  · have hout := h.outside t
    rw [show s.point t = .inP r data from hp] at hout
    cases hout
  · rw [hdevice]
    simp [Disk.new]

/-- Any number of threads call `ReadSector` and `WriteSector`, in any interleaving with the
interrupts and with everything else that threads do. If no call starts while a thread is in the `P`
of another one, there is one request at a time. -/
theorem oneAtATime {ref : Sem → SemId} {s : System Point Disk}
    (h : Start client ref (fun _ => 0) s) {sectors : Filesys.Disk}
    (hd : s.device = Disk.new sectors) {ls : List (Label Act Irq)}
    (hls : Runs.AllSteps (step client ref) (StartsAlone ref) s ls) :
    Runs.AllStates (step client ref) OneAtATime s ls := by
  have hall := allStates_of_good (fun _ _ _ => quiet_step) alone_of_startsAlone h.rel
    (quiet_start h hd) hls
  exact hall.mono fun u hu => ⟨hu.2.overlapped, hu.2.returned⟩

/-- `new SynchDisk`, and a second thread. -/
def startKernel : List Threads.Label := [.newSemaphore 0, .newThread, .fork 1]

/-- Two threads and a blank disk. -/
def twoThreads : System Point Disk where
  kernel := kernelAfter startKernel
  point _ := .outside
  device := .new fun _ _ => 0

theorem start_twoThreads : Start client (fun _ => 0) (fun _ => 0) twoThreads where
  reachable := ⟨startKernel, run_kernelAfter (by decide)⟩
  injective := fun _ _ _ => rfl
  created := by decide
  value := by decide
  waits := by decide
  outside _ := rfl

/-- The main thread reads, the other one runs until the interrupt and lets the main thread
return; then it writes. -/
def turns : List (Label Act Irq) :=
  [.act (.readSector 5), .other .resume, .irq .handleInterrupt, .other .yield, .other .resume,
    .act .ret, .other .yield, .other .resume, .act (.writeSector 7 fun _ => 1), .other .resume]

theorem oneAtATime_turns :
    Runs.AllStates (step client fun _ => 0) OneAtATime twoThreads turns ∧
      ((Runs.run (step client fun _ => 0) twoThreads turns).map fun s => s.device.requests) =
        some 2 :=
  ⟨oneAtATime start_twoThreads rfl (by decide), by decide⟩

/-- The other thread reads while the first request is in the disk. -/
def overlap : List (Label Act Irq) := [.act (.readSector 5), .other .resume, .act (.readSector 7)]

/-- The other thread reads after the interrupt of the first request, and before the main thread
has tested the semaphore again. -/
def steal : List (Label Act Irq) :=
  [.act (.readSector 5), .other .resume, .irq .handleInterrupt, .act (.readSector 7), .act .ret]

/-- Two calls can meet in the disk, and a call can return with the interrupt of another one. -/
theorem not_oneAtATime :
    Start client (fun _ => 0) (fun _ => 0) twoThreads ∧ twoThreads.device = .new (fun _ _ => 0) ∧
      ¬ Runs.AllStates (step client fun _ => 0) (fun s => s.device.overlapped = false) twoThreads
        overlap ∧
      ¬ Runs.AllStates (step client fun _ => 0)
        (fun s => ∀ x ∈ s.device.returned, x.1 ∈ s.device.completed) twoThreads steal := by
  refine ⟨start_twoThreads, rfl, fun h => ?_, fun h => ?_⟩
  · have hrun : ((Runs.run (step client fun _ => 0) twoThreads overlap).map
        fun s => s.device.overlapped) = some true := by decide
    obtain ⟨s, hs, hover⟩ := Option.map_eq_some_iff.mp hrun
    rw [h.of_run hs] at hover
    cases hover
  · have hrun : ((Runs.run (step client fun _ => 0) twoThreads steal).map
        fun s => (s.device.returned.map Prod.fst, s.device.completed)) = some ([1], [0]) := by decide
    obtain ⟨s, hs, hlists⟩ := Option.map_eq_some_iff.mp hrun
    obtain ⟨hreturned, hcompleted⟩ := Prod.mk.inj hlists
    have hmem : 1 ∈ s.device.returned.map Prod.fst := by simp [hreturned]
    obtain ⟨x, hx, hx1⟩ := List.mem_map.mp hmem
    have hdone := h.of_run hs x hx
    rw [hcompleted, hx1] at hdone
    simp at hdone

end Nachos.Devices.SynchDisk
