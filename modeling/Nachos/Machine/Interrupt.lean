import Nachos.Lib.StableQueue
import Nachos.Threads.Kernel

/-!
# Interrupts

The simulated hardware interrupts of `machine/interrupt.cc`, with the sorted lists of
`threads/list.cc` and the clock of `machine/stats.h`.

A handler is any function of the state: it may call `Schedule` any number of times and ask for a
yield. The rest of the kernel is the type `W`, which the steps in between change at will. A step
that fails an ASSERT has no successor, and `OneTick` ends at its call of `Yield`: what the
other threads do then, and the line `status = old` after it, are steps of their own.

The times are `int`s. The flag `late` records that a time did not fit; every result is about
states in which none has. The calls of `Schedule` are numbered, and `fired` lists the interrupts
whose handlers were called.

`delivered`: an interrupt fires at most once, not early, and in the order of the times;
the clock does not go back and is the sum of its three parts; and the loop of `OneTick` ends, with
nothing due left. What the handlers themselves write down of their calls agrees with `fired`
(`log_eq_fired`).
-/

namespace Nachos.Interrupts

open Threads (IntStatus wrap32 wrap32_of_range)

inductive MachineStatus
  | idleMode | systemMode | userMode
  deriving DecidableEq

inductive IntType
  | timerInt | diskInt | consoleWriteInt | consoleReadInt | networkSendInt | networkRecvInt
  deriving DecidableEq

/-- `PendingInterrupt`; `handler` stands for the procedure and its argument. -/
structure PendingInterrupt (H : Type) where
  id : Nat
  handler : H
  when : Int
  type : IntType

/-- A call of a handler: the interrupt, its time, and the clock at the call. -/
structure Fired where
  id : Nat
  when : Int
  tick : Int

/-- `Interrupt`, the ticks of `Statistics`, and the history. -/
structure Interrupt (W H : Type) where
  world : W
  level : IntStatus := .intOff
  pending : List (PendingInterrupt H) := []
  inHandler : Bool := false
  yieldOnReturn : Bool := false
  status : MachineStatus := .systemMode
  totalTicks : Int := 0
  idleTicks : Int := 0
  systemTicks : Int := 0
  userTicks : Int := 0
  halted : Bool := false
  scheduled : Nat := 0
  fired : List Fired := []
  late : Bool := false

/-- A call of `Schedule`. -/
structure Request (H : Type) where
  handler : H
  fromNow : Int
  type : IntType

/-- What a handler does. -/
structure Response (W H : Type) where
  world : W
  requests : List (Request H)
  yieldOnReturn : Bool

def userTick : Int := 1
def systemTick : Int := 10

/-- `List::SortedInsert`: behind the elements with the same key. -/
def sortedInsert {H : Type} (x : PendingInterrupt H) :
    List (PendingInterrupt H) → List (PendingInterrupt H)
  | [] => [x]
  | y :: ys => if x.when < y.when then x :: y :: ys else y :: sortedInsert x ys

namespace Interrupt

variable {W H : Type} (run : H → Interrupt W H → Response W H)

/-- `Interrupt::Schedule`. -/
def schedule (r : Request H) (s : Interrupt W H) : Option (Interrupt W H) :=
  if 0 < r.fromNow then
    some { s with
      pending := sortedInsert
        { id := s.scheduled, handler := r.handler, when := wrap32 (s.totalTicks + r.fromNow),
          type := r.type } s.pending
      scheduled := s.scheduled + 1
      late := s.late || decide (2 ^ 31 ≤ s.totalTicks + r.fromNow) }
  else none

/-- The calls of `Schedule` that a handler makes. -/
def scheduleAll : List (Request H) → Interrupt W H → Option (Interrupt W H)
  | [], s => some s
  | r :: rs, s => (s.schedule r).bind (scheduleAll rs)

/-- The machine when a handler is called; that it is, is recorded. -/
def enter (toOccur : PendingInterrupt H) (s : Interrupt W H) : Interrupt W H :=
  { s with
    inHandler := true
    status := .systemMode
    fired := s.fired ++ [⟨toOccur.id, toOccur.when, s.totalTicks⟩] }

/-- What a handler changes besides its calls of `Schedule`. -/
def answer (response : Response W H) (s : Interrupt W H) : Interrupt W H :=
  { s with
    world := response.world
    yieldOnReturn := s.yieldOnReturn || response.yieldOnReturn }

/-- The call of a handler. -/
def fire (toOccur : PendingInterrupt H) (s : Interrupt W H) : Option (Interrupt W H) :=
  let old := s.status
  let s := s.enter toOccur
  let response := run toOccur.handler s
  (scheduleAll response.requests (s.answer response)).map fun s =>
    { s with status := old, inHandler := false }

/-- `stats->idleTicks += when - stats->totalTicks; stats->totalTicks = when`. -/
def advanceTo (when : Int) (s : Interrupt W H) : Interrupt W H :=
  { s with
    idleTicks := wrap32 (s.idleTicks + wrap32 (when - s.totalTicks))
    totalTicks := when }

def putBack (toOccur : PendingInterrupt H) (s : Interrupt W H) : Interrupt W H :=
  { s with pending := sortedInsert toOccur s.pending }

/-- The second half of `CheckIfDue`, in which the interrupt is due. -/
def deliver (toOccur : PendingInterrupt H) (s : Interrupt W H) :
    Option (Bool × Interrupt W H) :=
  if s.status = .idleMode ∧ toOccur.type = .timerInt ∧ s.pending.isEmpty then
    some (false, s.putBack toOccur)
  else (s.fire run toOccur).map fun s => (true, s)

/-- `Interrupt::CheckIfDue`. -/
def checkIfDue (advanceClock : Bool) (s : Interrupt W H) : Option (Bool × Interrupt W H) :=
  if s.level ≠ .intOff then none
  else
    match s.pending with
    | [] => some (false, s)
    | toOccur :: rest =>
      let s := { s with pending := rest }
      if advanceClock ∧ s.totalTicks < toOccur.when then
        (s.advanceTo toOccur.when).deliver run toOccur
      else if s.totalTicks < toOccur.when then some (false, s.putBack toOccur)
      else s.deliver run toOccur

/-- `while (CheckIfDue(FALSE))`, in at most `rounds` rounds. -/
def drain : Nat → Interrupt W H → Option (Interrupt W H)
  | 0, _ => none
  | rounds + 1, s =>
    (s.checkIfDue run false).bind fun r => if r.1 then drain rounds r.2 else some r.2

/-- The clock in `OneTick`. -/
def tick (s : Interrupt W H) : Interrupt W H :=
  if s.status = .systemMode then
    { s with
      totalTicks := wrap32 (s.totalTicks + systemTick)
      systemTicks := wrap32 (s.systemTicks + systemTick)
      late := s.late || decide (2 ^ 31 ≤ s.totalTicks + systemTick) }
  else
    { s with
      totalTicks := wrap32 (s.totalTicks + userTick)
      userTicks := wrap32 (s.userTicks + userTick)
      late := s.late || decide (2 ^ 31 ≤ s.totalTicks + userTick) }

/-- The end of `OneTick`, up to the call of `Yield`. -/
def enable (s : Interrupt W H) : Interrupt W H :=
  if s.yieldOnReturn then
    { s with level := .intOn, yieldOnReturn := false, status := .systemMode }
  else { s with level := .intOn }

/-- `Interrupt::OneTick`. -/
def oneTick (rounds : Nat) (s : Interrupt W H) : Option (Interrupt W H) :=
  (drain run rounds { s.tick with level := .intOff }).map enable

/-- `Interrupt::SetLevel`. -/
def setLevel (now : IntStatus) (rounds : Nat) (s : Interrupt W H) : Option (Interrupt W H) :=
  if now = .intOff ∨ s.inHandler = false then
    if now = .intOn ∧ s.level = .intOff then oneTick run rounds { s with level := now }
    else some { s with level := now }
  else none

/-- `Interrupt::Idle`. -/
def idle (rounds : Nat) (s : Interrupt W H) : Option (Interrupt W H) :=
  (checkIfDue run true { s with status := .idleMode }).bind fun r =>
    if r.1 then
      (drain run rounds r.2).map fun s =>
        { s with yieldOnReturn := false, status := .systemMode }
    else some { r.2 with halted := true }

end Interrupt

/-- A step: a call of one of the routines, or the rest of the kernel. A loop is given the number
of rounds it may take. -/
inductive Label (W H : Type)
  | schedule (r : Request H)
  | oneTick (rounds : Nat)
  | setLevel (now : IntStatus) (rounds : Nat)
  | idle (rounds : Nat)
  | setStatus (st : MachineStatus)
  | kernel (w : W)

variable {W H : Type} (run : H → Interrupt W H → Response W H)

/-- The steps between two calls; `setStatus` is never given `IdleMode`. -/
def step (s : Interrupt W H) : Label W H → Option (Interrupt W H)
  | .schedule r => if s.halted then none else s.schedule r
  | .oneTick rounds => if s.halted then none else s.oneTick run rounds
  | .setLevel now rounds => if s.halted then none else s.setLevel run now rounds
  | .idle rounds => if s.halted then none else s.idle run rounds
  | .setStatus st =>
    if s.halted ∨ st = .idleMode then none else some { s with status := st }
  | .kernel w => if s.halted then none else some { s with world := w }

/-! ### Sorted lists -/

section Sorted

variable {x : PendingInterrupt H} {l : List (PendingInterrupt H)}

/-- By increasing times. -/
def Sorted (l : List (PendingInterrupt H)) : Prop := l.Pairwise fun p q => p.when ≤ q.when

/-- `SortedInsert` is the insertion of a stable queue. -/
theorem sortedInsert_eq (x : PendingInterrupt H) (l : List (PendingInterrupt H)) :
    sortedInsert x l = StableQueue.insert PendingInterrupt.when x l := by
  induction l with
  | nil => rfl
  | cons y ys ih =>
    rw [sortedInsert, ih]
    exact (StableQueue.insert_cons PendingInterrupt.when x y ys).symm

theorem sortedInsert_perm (x : PendingInterrupt H) (l : List (PendingInterrupt H)) :
    (sortedInsert x l).Perm (x :: l) :=
  sortedInsert_eq x l ▸ StableQueue.insert_perm PendingInterrupt.when x l

theorem mem_sortedInsert {p : PendingInterrupt H} : p ∈ sortedInsert x l ↔ p = x ∨ p ∈ l := by
  rw [(sortedInsert_perm x l).mem_iff, List.mem_cons]

theorem sorted_sortedInsert (h : Sorted l) : Sorted (sortedInsert x l) := by
  have hqueue : StableQueue.Sorted PendingInterrupt.when l := h
  rw [sortedInsert_eq]
  exact StableQueue.sorted_insert hqueue

end Sorted

/-! ### The invariant -/

/-- The interrupts and the clock while no time is late. -/
structure Sound (pending : List (PendingInterrupt H)) (fired : List Fired) (scheduled : Nat)
    (total idle system user : Int) : Prop where
  sorted : Sorted pending
  issued : (fired.map Fired.id ++ pending.map PendingInterrupt.id).Perm (List.range scheduled)
  onTime : ∀ f ∈ fired, f.when ≤ f.tick ∧ f.tick ≤ total
  ordered : fired.Pairwise fun f g => f.when ≤ g.when
  ahead : ∀ f ∈ fired, ∀ p ∈ pending, f.when ≤ p.when
  fits : ∀ p ∈ pending, p.when < 2 ^ 31
  clock : total = idle + system + user ∧ 0 ≤ idle ∧ 0 ≤ system ∧ 0 ≤ user ∧ total < 2 ^ 31

namespace Sound

variable {pending rest : List (PendingInterrupt H)} {fired : List Fired} {scheduled : Nat}
  {total idle system user : Int} {p : PendingInterrupt H}

/-- Only the order of the pending interrupts changes. -/
theorem perm (h : Sound pending fired scheduled total idle system user)
    {pending' : List (PendingInterrupt H)} (hperm : pending'.Perm pending)
    (hsorted : Sorted pending') : Sound pending' fired scheduled total idle system user := by
  have hids := (hperm.map PendingInterrupt.id).append_left (fired.map Fired.id)
  exact ⟨hsorted, hids.trans h.issued, h.onTime, h.ordered,
    fun f hf p hp => h.ahead f hf p (hperm.mem_iff.mp hp),
    fun p hp => h.fits p (hperm.mem_iff.mp hp), h.clock⟩

/-- An interrupt that was taken off is put back. -/
theorem putBack (h : Sound (p :: rest) fired scheduled total idle system user) :
    Sound (sortedInsert p rest) fired scheduled total idle system user :=
  h.perm (sortedInsert_perm p rest) (sorted_sortedInsert (List.pairwise_cons.mp h.sorted).2)

/-- A new interrupt is later than all that fired. -/
theorem schedule (h : Sound pending fired scheduled total idle system user) (hid : p.id = scheduled)
    (hwhen : total < p.when) (hfits : p.when < 2 ^ 31) :
    Sound (sortedInsert p pending) fired (scheduled + 1) total idle system user := by
  refine ⟨sorted_sortedInsert h.sorted, ?_, h.onTime, h.ordered, ?_, ?_, h.clock⟩
  · have hinsert := ((sortedInsert_perm p pending).map PendingInterrupt.id).append_left
      (fired.map Fired.id)
    refine (hinsert.trans List.perm_middle).trans ?_
    rw [hid, List.range_succ]
    exact (h.issued.cons scheduled).trans (List.perm_append_singleton scheduled _).symm
  · intro f hf q hq
    rcases mem_sortedInsert.mp hq with rfl | hq
    · have hf' := h.onTime f hf
      omega
    · exact h.ahead f hf q hq
  · intro q hq
    rcases mem_sortedInsert.mp hq with rfl | hq
    · exact hfits
    · exact h.fits q hq

/-- The first interrupt fires. -/
theorem fire (h : Sound (p :: rest) fired scheduled total idle system user)
    (hdue : p.when ≤ total) :
    Sound rest (fired ++ [⟨p.id, p.when, total⟩]) scheduled total idle system user := by
  obtain ⟨hp, hrest⟩ := List.pairwise_cons.mp h.sorted
  have hids : (fired ++ [Fired.mk p.id p.when total]).map Fired.id ++ rest.map PendingInterrupt.id =
      fired.map Fired.id ++ (p :: rest).map PendingInterrupt.id := by simp
  refine ⟨hrest, hids ▸ h.issued, ?_, ?_, ?_, ?_, h.clock⟩
  · intro f hf
    rcases List.mem_append.mp hf with hf | hf
    · exact h.onTime f hf
    · rw [List.mem_singleton.mp hf]
      exact ⟨hdue, Int.le_refl total⟩
  · refine List.pairwise_append.mpr ⟨h.ordered, List.pairwise_singleton _ _, ?_⟩
    intro f hf g hg
    rw [List.mem_singleton.mp hg]
    exact h.ahead f hf p (List.mem_cons_self ..)
  · intro f hf q hq
    rcases List.mem_append.mp hf with hf | hf
    · exact h.ahead f hf q (List.mem_cons_of_mem p hq)
    · rw [List.mem_singleton.mp hf]
      exact hp q hq
  · exact fun q hq => h.fits q (List.mem_cons_of_mem p hq)

/-- The clock moves on. -/
theorem advance (h : Sound pending fired scheduled total idle system user)
    {total' idle' system' user' : Int} (hle : total ≤ total')
    (hclock : total' = idle' + system' + user' ∧ 0 ≤ idle' ∧ 0 ≤ system' ∧ 0 ≤ user' ∧
      total' < 2 ^ 31) : Sound pending fired scheduled total' idle' system' user' := by
  refine ⟨h.sorted, h.issued, fun f hf => ?_, h.ordered, h.ahead, h.fits, hclock⟩
  have hf' := h.onTime f hf
  exact ⟨hf'.1, Int.le_trans hf'.2 hle⟩

end Sound

namespace Interrupt

def Good (s : Interrupt W H) : Prop :=
  Sound s.pending s.fired s.scheduled s.totalTicks s.idleTicks s.systemTicks s.userTicks

/-- Handlers were called: the clock stands, and while no time is late the invariant is kept. -/
structure Handled (s s' : Interrupt W H) : Prop where
  totalTicks : s'.totalTicks = s.totalTicks
  status : s'.status = s.status
  level : s'.level = s.level
  halted : s'.halted = s.halted
  late : s'.late = false → s.late = false
  good : s'.late = false → s.Good → s'.Good

theorem Handled.refl (s : Interrupt W H) : Handled s s := ⟨rfl, rfl, rfl, rfl, id, fun _ => id⟩

theorem Handled.trans {s s' s'' : Interrupt W H} (h : Handled s s') (h' : Handled s' s'') :
    Handled s s'' :=
  ⟨h'.totalTicks.trans h.totalTicks, h'.status.trans h.status, h'.level.trans h.level,
    h'.halted.trans h.halted, fun hl => h.late (h'.late hl),
    fun hl hg => h'.good hl (h.good (h'.late hl) hg)⟩

theorem handled_schedule {r : Request H} {s s' : Interrupt W H} (h : s.schedule r = some s') :
    Handled s s' := by
  unfold schedule at h
  split at h
  · rename_i hpos
    cases h
    refine ⟨rfl, rfl, rfl, rfl, fun hl => (Bool.or_eq_false_iff.mp hl).1, fun hl hg => ?_⟩
    have hfits := of_decide_eq_false (Bool.or_eq_false_iff.mp hl).2
    have hclock := hg.clock
    have hwrap := wrap32_of_range (n := s.totalTicks + r.fromNow) (by omega) (by omega)
    refine Sound.schedule hg rfl ?_ ?_
    · show s.totalTicks < wrap32 _
      omega
    · show wrap32 _ < 2 ^ 31
      omega
  · cases h

theorem handled_scheduleAll {rs : List (Request H)} {s s' : Interrupt W H}
    (h : scheduleAll rs s = some s') : Handled s s' := by
  induction rs generalizing s with
  | nil =>
    cases h
    exact Handled.refl _
  | cons r rs ih =>
    obtain ⟨t, ht, hrest⟩ := Option.bind_eq_some_iff.mp h
    exact (handled_schedule ht).trans (ih hrest)

variable {run}

/-- The interrupt that was taken off is due and fires. -/
theorem handled_fire {p : PendingInterrupt H} {rest : List (PendingInterrupt H)}
    {s s' : Interrupt W H} (hpending : s.pending = p :: rest) (hdue : p.when ≤ s.totalTicks)
    (h : fire run p { s with pending := rest } = some s') : Handled s s' := by
  obtain ⟨t, ht, rfl⟩ := Option.map_eq_some_iff.mp h
  have hall := handled_scheduleAll ht
  refine ⟨hall.totalTicks, rfl, hall.level, hall.halted, hall.late, fun hl hg => ?_⟩
  refine hall.good hl ?_
  unfold Good at hg
  rw [hpending] at hg
  exact hg.fire hdue

/-- A put-back interrupt changes nothing but the order. -/
theorem handled_putBack {p : PendingInterrupt H} {rest : List (PendingInterrupt H)}
    {s : Interrupt W H} (hpending : s.pending = p :: rest) :
    Handled s (putBack p { s with pending := rest }) := by
  refine ⟨rfl, rfl, rfl, rfl, id, fun hl hg => ?_⟩
  unfold Good at hg
  rw [hpending] at hg
  exact hg.putBack

theorem handled_deliver {p : PendingInterrupt H} {rest : List (PendingInterrupt H)}
    {s s' : Interrupt W H} {b : Bool} (hpending : s.pending = p :: rest)
    (hdue : p.when ≤ s.totalTicks)
    (h : deliver run p { s with pending := rest } = some (b, s')) : Handled s s' := by
  unfold deliver at h
  split at h
  · cases h
    exact handled_putBack hpending
  · obtain ⟨t, ht, heq⟩ := Option.map_eq_some_iff.mp h
    cases heq
    exact handled_fire hpending hdue ht

theorem handled_checkIfDue {s s' : Interrupt W H} {b : Bool}
    (h : checkIfDue run false s = some (b, s')) : Handled s s' := by
  unfold checkIfDue at h
  split at h
  · cases h
  split at h
  · cases h
    exact Handled.refl s
  · rename_i p rest hpending
    simp only [Bool.false_eq_true, false_and, if_false] at h
    split at h
    · cases h
      exact handled_putBack hpending
    · rename_i hdue
      exact handled_deliver hpending (Int.not_lt.mp hdue) h

theorem handled_drain {rounds : Nat} {s s' : Interrupt W H} (h : drain run rounds s = some s') :
    Handled s s' := by
  induction rounds generalizing s with
  | zero => cases h
  | succ rounds ih =>
    obtain ⟨⟨b, t⟩, ht, hrest⟩ := Option.bind_eq_some_iff.mp h
    refine (handled_checkIfDue ht).trans ?_
    cases b with
    | false =>
      cases hrest
      exact Handled.refl t
    | true => exact ih hrest

/-! ### The clock -/

/-- While no time is late, the invariant is kept and the clock does not go back. -/
structure Advances (s s' : Interrupt W H) : Prop where
  late : s'.late = false → s.late = false
  good : s'.late = false → s.Good → s'.Good ∧ s.totalTicks ≤ s'.totalTicks

/-- A change of the other fields. -/
theorem Advances.of_eq {s s' : Interrupt W H} (hlate : s'.late = s.late)
    (htotal : s'.totalTicks = s.totalTicks) (hgood : s.Good → s'.Good) : Advances s s' :=
  ⟨fun hl => hlate ▸ hl, fun _ hg => ⟨hgood hg, Int.le_of_eq htotal.symm⟩⟩

theorem Advances.refl (s : Interrupt W H) : Advances s s := .of_eq rfl rfl id

theorem Advances.trans {s s' s'' : Interrupt W H} (h : Advances s s') (h' : Advances s' s'') :
    Advances s s'' := by
  refine ⟨fun hl => h.late (h'.late hl), fun hl hg => ?_⟩
  obtain ⟨hg', hle⟩ := h.good (h'.late hl) hg
  obtain ⟨hg'', hle'⟩ := h'.good hl hg'
  exact ⟨hg'', Int.le_trans hle hle'⟩

theorem Handled.advances {s s' : Interrupt W H} (h : Handled s s') : Advances s s' :=
  ⟨h.late, fun hl hg => ⟨h.good hl hg, Int.le_of_eq h.totalTicks.symm⟩⟩

theorem advances_tick (s : Interrupt W H) : Advances s s.tick := by
  unfold tick systemTick userTick
  split
  · refine ⟨fun hl => (Bool.or_eq_false_iff.mp hl).1, fun hl hg => ?_⟩
    have hfits := of_decide_eq_false (Bool.or_eq_false_iff.mp hl).2
    have hclock := hg.clock
    have htotal := wrap32_of_range (n := s.totalTicks + 10) (by omega) (by omega)
    have hsystem := wrap32_of_range (n := s.systemTicks + 10) (by omega) (by omega)
    have hle : s.totalTicks ≤ wrap32 (s.totalTicks + 10) := by omega
    have hclock' : wrap32 (s.totalTicks + 10) =
        s.idleTicks + wrap32 (s.systemTicks + 10) + s.userTicks ∧ 0 ≤ s.idleTicks ∧
        0 ≤ wrap32 (s.systemTicks + 10) ∧ 0 ≤ s.userTicks ∧
        wrap32 (s.totalTicks + 10) < 2 ^ 31 := by omega
    exact ⟨Sound.advance hg hle hclock', hle⟩
  · refine ⟨fun hl => (Bool.or_eq_false_iff.mp hl).1, fun hl hg => ?_⟩
    have hfits := of_decide_eq_false (Bool.or_eq_false_iff.mp hl).2
    have hclock := hg.clock
    have htotal := wrap32_of_range (n := s.totalTicks + 1) (by omega) (by omega)
    have huser := wrap32_of_range (n := s.userTicks + 1) (by omega) (by omega)
    have hle : s.totalTicks ≤ wrap32 (s.totalTicks + 1) := by omega
    have hclock' : wrap32 (s.totalTicks + 1) =
        s.idleTicks + s.systemTicks + wrap32 (s.userTicks + 1) ∧ 0 ≤ s.idleTicks ∧
        0 ≤ s.systemTicks ∧ 0 ≤ wrap32 (s.userTicks + 1) ∧
        wrap32 (s.totalTicks + 1) < 2 ^ 31 := by omega
    exact ⟨Sound.advance hg hle hclock', hle⟩

/-- The idle clock jumps to the first pending interrupt. -/
theorem advances_advanceTo {p : PendingInterrupt H} {s : Interrupt W H} (hp : p ∈ s.pending)
    (hlt : s.totalTicks < p.when) : Advances s (s.advanceTo p.when) := by
  refine ⟨id, fun _ hg => ?_⟩
  have hclock := hg.clock
  have hfits := hg.fits p hp
  have hjump := wrap32_of_range (n := p.when - s.totalTicks) (by omega) (by omega)
  have hidle := wrap32_of_range (n := s.idleTicks + wrap32 (p.when - s.totalTicks)) (by omega)
    (by omega)
  have hclock' : p.when =
      wrap32 (s.idleTicks + wrap32 (p.when - s.totalTicks)) + s.systemTicks + s.userTicks ∧
      0 ≤ wrap32 (s.idleTicks + wrap32 (p.when - s.totalTicks)) ∧ 0 ≤ s.systemTicks ∧
      0 ≤ s.userTicks ∧ p.when < 2 ^ 31 := by omega
  exact ⟨Sound.advance hg (Int.le_of_lt hlt) hclock', Int.le_of_lt hlt⟩

/-- `CheckIfDue` from `Idle`. -/
theorem advances_checkIfDue {s s' : Interrupt W H} {b : Bool}
    (h : checkIfDue run true s = some (b, s')) :
    Advances s s' ∧ s'.status = s.status ∧ s'.halted = s.halted := by
  unfold checkIfDue at h
  split at h
  · cases h
  split at h
  · cases h
    exact ⟨Advances.refl s, rfl, rfl⟩
  · rename_i p rest hpending
    simp only [true_and] at h
    split at h
    · rename_i hlt
      have hmem : p ∈ s.pending := by simp [hpending]
      have hhandled := handled_deliver (s := s.advanceTo p.when) hpending (Int.le_refl p.when) h
      exact ⟨(advances_advanceTo hmem hlt).trans hhandled.advances, hhandled.status,
        hhandled.halted⟩
    · rename_i hdue
      have hhandled := handled_deliver hpending (Int.not_lt.mp hdue) h
      exact ⟨hhandled.advances, hhandled.status, hhandled.halted⟩

theorem advances_enable (s : Interrupt W H) : Advances s s.enable := by
  unfold enable
  split
  · exact .of_eq rfl rfl id
  · exact .of_eq rfl rfl id

theorem advances_oneTick {rounds : Nat} {s s' : Interrupt W H}
    (h : oneTick run rounds s = some s') : Advances s s' := by
  obtain ⟨t, ht, rfl⟩ := Option.map_eq_some_iff.mp h
  have hoff : Advances s { s.tick with level := .intOff } :=
    (advances_tick s).trans (.of_eq rfl rfl id)
  exact (hoff.trans (handled_drain ht).advances).trans (advances_enable t)

theorem advances_setLevel {now : IntStatus} {rounds : Nat} {s s' : Interrupt W H}
    (h : setLevel run now rounds s = some s') : Advances s s' := by
  unfold setLevel at h
  split_ifs at h
  · have hlevel : Advances s { s with level := now } := .of_eq rfl rfl id
    exact hlevel.trans (advances_oneTick h)
  · cases h
    exact .of_eq rfl rfl id

theorem advances_idle {rounds : Nat} {s s' : Interrupt W H} (h : idle run rounds s = some s') :
    Advances s s' := by
  obtain ⟨⟨b, t⟩, ht, hrest⟩ := Option.bind_eq_some_iff.mp h
  have hstatus : Advances s { s with status := .idleMode } := .of_eq rfl rfl id
  have hfirst : Advances s t := hstatus.trans (advances_checkIfDue ht).1
  refine hfirst.trans ?_
  cases b with
  | false =>
    cases hrest
    exact .of_eq rfl rfl id
  | true =>
    obtain ⟨u, hu, rfl⟩ := Option.map_eq_some_iff.mp hrest
    exact (handled_drain hu).advances.trans (.of_eq rfl rfl id)

/-! ### The loop of `OneTick` -/

/-- No pending interrupt is due. -/
def NothingDue (s : Interrupt W H) : Prop := ∀ p ∈ s.pending, s.totalTicks < p.when

/-- The loop is left when nothing is due, unless the machine idles. -/
theorem nothingDue_checkIfDue {s s' : Interrupt W H} (h : checkIfDue run false s = some (false, s'))
    (hstatus : s.status ≠ .idleMode) (hg : s.Good) : s'.NothingDue := by
  unfold checkIfDue at h
  split at h
  · cases h
  split at h
  · rename_i hpending
    cases h
    intro p hp
    rw [hpending] at hp
    cases hp
  · rename_i p rest hpending
    simp only [Bool.false_eq_true, false_and, if_false] at h
    split at h
    · rename_i hlt
      cases h
      have hsorted := hg.sorted
      rw [hpending] at hsorted
      intro q hq
      rcases mem_sortedInsert.mp hq with rfl | hq
      · exact hlt
      · exact Int.lt_of_lt_of_le hlt ((List.pairwise_cons.mp hsorted).1 q hq)
    · unfold deliver at h
      rw [if_neg fun hidle => hstatus hidle.1] at h
      obtain ⟨t, -, heq⟩ := Option.map_eq_some_iff.mp h
      cases heq

theorem nothingDue_drain {rounds : Nat} {s s' : Interrupt W H} (h : drain run rounds s = some s')
    (hstatus : s.status ≠ .idleMode) (hl : s'.late = false) (hg : s.Good) : s'.NothingDue := by
  induction rounds generalizing s with
  | zero => cases h
  | succ rounds ih =>
    obtain ⟨⟨b, t⟩, ht, hrest⟩ := Option.bind_eq_some_iff.mp h
    cases b with
    | false =>
      cases hrest
      exact nothingDue_checkIfDue ht hstatus hg
    | true =>
      have hhandled := handled_checkIfDue ht
      have hlt := (handled_drain hrest).late hl
      exact ih hrest (hhandled.status ▸ hstatus) (hhandled.good hlt hg)

theorem tick_status (s : Interrupt W H) : s.tick.status = s.status := by
  unfold tick
  split
  · rfl
  · rfl

theorem nothingDue_oneTick {rounds : Nat} {s s' : Interrupt W H}
    (h : oneTick run rounds s = some s') (hstatus : s.status ≠ .idleMode) (hl : s'.late = false)
    (hg : s.Good) : s'.NothingDue := by
  obtain ⟨t, ht, rfl⟩ := Option.map_eq_some_iff.mp h
  have hlt : t.late = false := (advances_enable t).late hl
  have htick := (advances_tick s).good ((handled_drain ht).late hlt) hg
  have hdue := nothingDue_drain ht (fun hidle => hstatus ((tick_status s).symm.trans hidle)) hlt
    htick.1
  unfold enable
  split
  · exact hdue
  · exact hdue

/-! ### The loop ends -/

/-- The handlers called at time `now` only schedule what is later, and in time. -/
def Timely (run : H → Interrupt W H → Response W H) (now : Int) : Prop :=
  ∀ h (s : Interrupt W H), s.totalTicks = now →
    ∀ r ∈ (run h s).requests, 0 < r.fromNow ∧ now + r.fromNow < 2 ^ 31

/-- The number of pending interrupts that are due. -/
def numDue (s : Interrupt W H) : Nat := s.pending.countP fun p => decide (p.when ≤ s.totalTicks)

theorem schedule_timely {r : Request H} {s : Interrupt W H} (hlow : -2 ^ 31 ≤ s.totalTicks)
    (hpos : 0 < r.fromNow) (hfits : s.totalTicks + r.fromNow < 2 ^ 31) :
    ∃ s', s.schedule r = some s' ∧ s'.numDue = s.numDue := by
  refine ⟨_, if_pos hpos, ?_⟩
  have hwrap := wrap32_of_range (n := s.totalTicks + r.fromNow) (by omega) (by omega)
  unfold numDue
  refine ((sortedInsert_perm _ s.pending).countP_eq _).trans ?_
  rw [List.countP_cons_of_neg]
  simp only [decide_eq_true_eq]
  omega

theorem scheduleAll_timely {rs : List (Request H)} {s : Interrupt W H}
    (hlow : -2 ^ 31 ≤ s.totalTicks)
    (hrs : ∀ r ∈ rs, 0 < r.fromNow ∧ s.totalTicks + r.fromNow < 2 ^ 31) :
    ∃ s', scheduleAll rs s = some s' ∧ s'.numDue = s.numDue := by
  induction rs generalizing s with
  | nil => exact ⟨s, rfl, rfl⟩
  | cons r rs ih =>
    obtain ⟨hpos, hfits⟩ := hrs r (List.mem_cons_self ..)
    obtain ⟨t, ht, hdue⟩ := schedule_timely hlow hpos hfits
    have htotal := (handled_schedule ht).totalTicks
    obtain ⟨u, hu, hdue'⟩ := ih (htotal ▸ hlow) fun r' hr' => by
      rw [htotal]
      exact hrs r' (List.mem_cons_of_mem r hr')
    exact ⟨u, Option.bind_eq_some_iff.mpr ⟨t, ht, hu⟩, hdue'.trans hdue⟩

/-- A due interrupt fires, and no other becomes due. -/
theorem fire_timely {p : PendingInterrupt H} {rest : List (PendingInterrupt H)}
    {s : Interrupt W H} (hpending : s.pending = p :: rest) (hdue : p.when ≤ s.totalTicks)
    (hlow : -2 ^ 31 ≤ s.totalTicks) (htimely : Timely run s.totalTicks) :
    ∃ s', fire run p { s with pending := rest } = some s' ∧ s'.numDue < s.numDue := by
  have hnum : s.numDue = rest.countP (fun q => decide (q.when ≤ s.totalTicks)) + 1 := by
    unfold numDue
    rw [hpending]
    exact List.countP_cons_of_pos (decide_eq_true hdue)
  let entered := enter p { s with pending := rest }
  obtain ⟨t, ht, hdue'⟩ := scheduleAll_timely (s := entered.answer (run p.handler entered)) hlow
    (htimely p.handler entered rfl)
  refine ⟨{ t with status := s.status, inHandler := false },
    Option.map_eq_some_iff.mpr ⟨t, ht, rfl⟩, ?_⟩
  have hsame : t.numDue = rest.countP fun q => decide (q.when ≤ s.totalTicks) := hdue'
  show t.numDue < s.numDue
  omega

/-- Also when the machine idles, the interrupt fires or the check ends. -/
theorem deliver_timely {p : PendingInterrupt H} {rest : List (PendingInterrupt H)}
    {s : Interrupt W H} (hpending : s.pending = p :: rest) (hdue : p.when ≤ s.totalTicks)
    (hlow : -2 ^ 31 ≤ s.totalTicks) (htimely : Timely run s.totalTicks) :
    ∃ b s', deliver run p { s with pending := rest } = some (b, s') ∧
      (b = true → s'.numDue < s.numDue) := by
  unfold deliver
  split
  · exact ⟨false, _, rfl, fun hb => by cases hb⟩
  · obtain ⟨t, ht, hnum⟩ := fire_timely hpending hdue hlow htimely
    exact ⟨true, t, Option.map_eq_some_iff.mpr ⟨t, ht, rfl⟩, fun _ => hnum⟩

theorem checkIfDue_timely {s : Interrupt W H} (hlevel : s.level = .intOff)
    (hlow : -2 ^ 31 ≤ s.totalTicks) (htimely : Timely run s.totalTicks) :
    ∃ b s', checkIfDue run false s = some (b, s') ∧ (b = true → s'.numDue < s.numDue) := by
  unfold checkIfDue
  rw [if_neg fun hne => hne hlevel]
  split
  · exact ⟨false, s, rfl, fun hb => by cases hb⟩
  · rename_i p rest hpending
    simp only [Bool.false_eq_true, false_and, if_false]
    split
    · exact ⟨false, _, rfl, fun hb => by cases hb⟩
    · rename_i hdue
      exact deliver_timely hpending (Int.not_lt.mp hdue) hlow htimely

/-- One round for each interrupt that is due, and one to see that there is none left. -/
theorem drain_timely {rounds : Nat} {s : Interrupt W H} (hrounds : s.numDue < rounds)
    (hlevel : s.level = .intOff) (hlow : -2 ^ 31 ≤ s.totalTicks)
    (htimely : Timely run s.totalTicks) : ∃ s', drain run rounds s = some s' := by
  induction rounds generalizing s with
  | zero => omega
  | succ rounds ih =>
    obtain ⟨b, t, ht, hb⟩ := checkIfDue_timely hlevel hlow htimely
    have hhandled := handled_checkIfDue ht
    unfold drain
    rw [ht]
    cases b with
    | false => exact ⟨t, rfl⟩
    | true =>
      have hnum := hb rfl
      show ∃ s', drain run rounds t = some s'
      exact ih (by omega) (hhandled.level.trans hlevel) (hhandled.totalTicks ▸ hlow)
        (hhandled.totalTicks ▸ htimely)

theorem tick_pending (s : Interrupt W H) : s.tick.pending = s.pending := by
  unfold tick
  split
  · rfl
  · rfl

/-- The loop of `OneTick`, in any state. -/
theorem oneTick_timely {s : Interrupt W H} (hlow : -2 ^ 31 ≤ s.tick.totalTicks)
    (htimely : Timely run s.tick.totalTicks) :
    ∃ s', oneTick run (s.pending.length + 1) s = some s' := by
  have hnum : s.tick.numDue ≤ s.pending.length := tick_pending s ▸ List.countP_le_length
  have hdrain : ∃ t, drain run (s.pending.length + 1) { s.tick with level := .intOff } = some t :=
    drain_timely (Nat.lt_succ_of_le hnum) rfl hlow htimely
  obtain ⟨t, ht⟩ := hdrain
  exact ⟨t.enable, Option.map_eq_some_iff.mpr ⟨t, ht, rfl⟩⟩

/-! ### Every run -/

/-- What holds between two steps. -/
structure Inv (s : Interrupt W H) : Prop where
  awake : s.halted = false → s.status ≠ .idleMode
  good : s.late = false → s.Good

theorem oneTick_awake {rounds : Nat} {s s' : Interrupt W H} (h : oneTick run rounds s = some s')
    (hs : s.status ≠ .idleMode) : s'.status ≠ .idleMode := by
  obtain ⟨t, ht, rfl⟩ := Option.map_eq_some_iff.mp h
  have hstatus : t.status = s.status := (handled_drain ht).status.trans (tick_status s)
  unfold enable
  split
  · simp
  · exact hstatus ▸ hs

theorem setLevel_awake {now : IntStatus} {rounds : Nat} {s s' : Interrupt W H}
    (h : setLevel run now rounds s = some s') (hs : s.status ≠ .idleMode) :
    s'.status ≠ .idleMode := by
  unfold setLevel at h
  split_ifs at h
  · exact oneTick_awake h hs
  · cases h
    exact hs

theorem idle_awake {rounds : Nat} {s s' : Interrupt W H} (h : idle run rounds s = some s')
    (hhalted : s'.halted = false) : s'.status ≠ .idleMode := by
  obtain ⟨⟨b, t⟩, -, hrest⟩ := Option.bind_eq_some_iff.mp h
  cases b with
  | false =>
    cases hrest
    cases hhalted
  | true =>
    obtain ⟨u, -, rfl⟩ := Option.map_eq_some_iff.mp hrest
    simp

end Interrupt

open Interrupt Runs

variable {run}

/-- A step is the call of its routine on a machine that has not halted. -/
theorem step_cases {s s' : Interrupt W H} {l : Label W H} (h : step run s l = some s') :
    s.halted = false ∧ Advances s s' ∧
      (s.status ≠ .idleMode → s'.halted = false → s'.status ≠ .idleMode) := by
  cases l with
  | schedule r =>
    simp only [step] at h
    split_ifs at h with hhalted
    have hhandled := handled_schedule h
    exact ⟨by simpa using hhalted, hhandled.advances, fun hs _ => hhandled.status ▸ hs⟩
  | oneTick rounds =>
    simp only [step] at h
    split_ifs at h with hhalted
    exact ⟨by simpa using hhalted, advances_oneTick h, fun hs _ => oneTick_awake h hs⟩
  | setLevel now rounds =>
    simp only [step] at h
    split_ifs at h with hhalted
    exact ⟨by simpa using hhalted, advances_setLevel h, fun hs _ => setLevel_awake h hs⟩
  | idle rounds =>
    simp only [step] at h
    split_ifs at h with hhalted
    exact ⟨by simpa using hhalted, advances_idle h, fun _ hh => idle_awake h hh⟩
  | setStatus st =>
    simp only [step] at h
    split_ifs at h with hhalted
    cases h
    rw [not_or] at hhalted
    exact ⟨by simpa using hhalted.1, .of_eq rfl rfl id, fun _ _ => hhalted.2⟩
  | kernel w =>
    simp only [step] at h
    split_ifs at h with hhalted
    cases h
    exact ⟨by simpa using hhalted, .of_eq rfl rfl id, fun hs _ => hs⟩

theorem inv_step {s s' : Interrupt W H} {l : Label W H} (hs : s.Inv)
    (h : step run s l = some s') : s'.Inv := by
  obtain ⟨hhalted, hadvances, hawake⟩ := step_cases h
  refine ⟨hawake (hs.awake hhalted), fun hl => ?_⟩
  exact (hadvances.good hl (hs.good (hadvances.late hl))).1

/-- `Interrupt::Interrupt`, at time 0. -/
def start (w : W) : Interrupt W H := { world := w }

theorem inv_start (w : W) : (start w : Interrupt W H).Inv := by
  refine ⟨fun _ => by simp [start], fun _ => ?_⟩
  constructor
  case issued => exact List.Perm.refl _
  case clock => simp [start]
  all_goals simp [start, Sorted]

/-- Whether the step calls `OneTick`. -/
def Label.ticks (s : Interrupt W H) : Label W H → Bool
  | .oneTick _ => true
  | .setLevel now _ => decide (now = .intOn ∧ s.level = .intOff)
  | _ => false

/-- Every interrupt fires at most once, not early, and in order; the clock is the sum of its
parts. -/
structure Interrupt.Delivered (s : Interrupt W H) : Prop where
  once : (s.fired.map Fired.id).Nodup
  notAgain : ∀ f ∈ s.fired, ∀ p ∈ s.pending, f.id ≠ p.id
  onTime : ∀ f ∈ s.fired, f.when ≤ f.tick
  ordered : s.fired.Pairwise fun f g => f.when ≤ g.when
  clock : s.totalTicks = s.idleTicks + s.systemTicks + s.userTicks

theorem Interrupt.Good.toDelivered {s : Interrupt W H} (h : s.Good) : s.Delivered := by
  have hnodup := h.issued.nodup_iff.mpr List.nodup_range
  rw [List.nodup_append] at hnodup
  refine ⟨hnodup.1, fun f hf p hp => ?_, fun f hf => (h.onTime f hf).1, h.ordered, h.clock.1⟩
  exact hnodup.2.2 f.id (List.mem_map_of_mem hf) p.id (List.mem_map_of_mem hp)

/-- After a step that calls `OneTick` nothing is due. -/
theorem nothingDue_step {s s' : Interrupt W H} {l : Label W H} (hs : s.Inv)
    (h : step run s l = some s') (hticks : l.ticks s = true) (hl : s'.late = false) :
    s'.NothingDue := by
  obtain ⟨hhalted, hadvances, -⟩ := step_cases h
  have hg := hs.good (hadvances.late hl)
  have hstatus := hs.awake hhalted
  cases l with
  | oneTick rounds =>
    simp only [step] at h
    split_ifs at h
    exact nothingDue_oneTick h hstatus hl hg
  | setLevel now rounds =>
    have hon := of_decide_eq_true hticks
    simp only [step, setLevel, if_pos hon] at h
    split_ifs at h
    exact nothingDue_oneTick h hstatus hl hg
  | _ => cases hticks

/-- The loop of `OneTick` ends, whatever handlers are called in it, if these schedule in time. -/
theorem oneTick_ends {s : Interrupt W H} (hs : s.Inv) (hhalted : s.halted = false)
    (hl : s.tick.late = false) (htimely : Timely run s.tick.totalTicks) :
    ∃ s', step run s (.oneTick (s.pending.length + 1)) = some s' := by
  have hadvances := advances_tick s
  have hclock := (hadvances.good hl (hs.good (hadvances.late hl))).1.clock
  have hlow : -2 ^ 31 ≤ s.tick.totalTicks := by omega
  simp only [step, hhalted, Bool.false_eq_true, if_false]
  exact oneTick_timely hlow htimely

/-- In every run, as long as no time is late: interrupts are delivered once, in time and in
order, and the clock is accounted for; no step sets the clock back, and a step that ticks leaves
nothing due; and the loop of the ticks ends. -/
theorem delivered (run : H → Interrupt W H → Response W H) (w : W) (ls : List (Label W H)) :
    AllStates (step run) (fun s => s.late = false → s.Delivered) (start w) ls ∧
    AllSteps (step run) (fun s l => ∀ s', step run s l = some s' → s'.late = false →
      s.totalTicks ≤ s'.totalTicks ∧ (l.ticks s = true → s'.NothingDue)) (start w) ls ∧
    AllStates (step run) (fun s => s.halted = false → s.tick.late = false →
      Timely run s.tick.totalTicks →
      ∃ s', step run s (.oneTick (s.pending.length + 1)) = some s') (start w) ls := by
  have hinv : AllStates (step run) Inv (start w) ls :=
    allStates_of_invariant (fun s l s' hs h => inv_step hs h) (inv_start w) ls
  refine ⟨hinv.mono fun s hs hl => (hs.good hl).toDelivered, hinv.allSteps fun s l hs => ?_,
    hinv.mono fun s hs hhalted hl htimely => oneTick_ends hs hhalted hl htimely⟩
  intro s' h hl
  obtain ⟨-, hadvances, -⟩ := step_cases h
  exact ⟨(hadvances.good hl (hs.good (hadvances.late hl))).2,
    fun hticks => nothingDue_step hs h hticks hl⟩

/-- A timer that asks for a yield and schedules itself again. -/
def timerHandler (_ : Unit) (s : Interrupt Unit Unit) : Response Unit Unit where
  world := s.world
  requests := [⟨(), 100, .timerInt⟩]
  yieldOnReturn := true

/-- The timer goes off once in the second tick and is pending again. -/
theorem delivered_timer :
    (∃ s, Runs.run (step timerHandler) (start ())
        [.schedule ⟨(), 15, .timerInt⟩, .oneTick 2, .oneTick 2] = some s ∧ s.late = false ∧
      s.fired = [⟨0, 15, 20⟩] ∧ s.pending.map PendingInterrupt.when = [120]) ∧
    AllStates (step timerHandler) (fun s => s.late = false → s.Delivered) (start ())
      [.schedule ⟨(), 15, .timerInt⟩, .oneTick 2, .oneTick 2] :=
  ⟨⟨_, rfl, rfl, rfl, rfl⟩, (delivered timerHandler () _).1⟩

/-! ### What the handlers write down -/

/-- Each handler appends the time at which it is called to the part `log` of the kernel. -/
def Logs (run : H → Interrupt W H → Response W H) (log : W → List Int) : Prop :=
  ∀ h s, log (run h s).world = log s.world ++ [s.totalTicks]

section Log

variable {log : W → List Int} {s s' : Interrupt W H} {p : PendingInterrupt H}

/-- The handlers have written down the calls in `fired`. -/
def Interrupt.Logged (log : W → List Int) (s : Interrupt W H) : Prop :=
  log s.world = s.fired.map Fired.tick

theorem logged_scheduleAll {rs : List (Request H)} (hs : s.Logged log)
    (h : scheduleAll rs s = some s') : s'.Logged log := by
  induction rs generalizing s with
  | nil =>
    cases h
    exact hs
  | cons r rs ih =>
    obtain ⟨t, ht, hrest⟩ := Option.bind_eq_some_iff.mp h
    refine ih ?_ hrest
    unfold schedule at ht
    split at ht
    · cases ht
      exact hs
    · cases ht

/-- The handler is called once, at the time that is recorded. -/
theorem logged_fire (hlog : Logs run log) (hs : s.Logged log) (h : fire run p s = some s') :
    s'.Logged log := by
  obtain ⟨t, ht, rfl⟩ := Option.map_eq_some_iff.mp h
  have hanswer : ((s.enter p).answer (run p.handler (s.enter p))).Logged log := by
    have hworld : log s.world = s.fired.map Fired.tick := hs
    show log (run p.handler (s.enter p)).world = (s.fired ++ [_]).map Fired.tick
    rw [hlog, List.map_append, ← hworld]
    rfl
  have hall := logged_scheduleAll hanswer ht
  exact hall

theorem logged_deliver (hlog : Logs run log) (hs : s.Logged log) {b : Bool}
    (h : deliver run p s = some (b, s')) : s'.Logged log := by
  unfold deliver at h
  split at h
  · cases h
    exact hs
  · obtain ⟨t, ht, heq⟩ := Option.map_eq_some_iff.mp h
    cases heq
    exact logged_fire hlog hs ht

theorem logged_checkIfDue (hlog : Logs run log) (hs : s.Logged log) {advanceClock b : Bool}
    (h : checkIfDue run advanceClock s = some (b, s')) : s'.Logged log := by
  unfold checkIfDue at h
  split at h
  · cases h
  split at h
  · cases h
    exact hs
  rename_i p rest _
  have hrest : ({ s with pending := rest } : Interrupt W H).Logged log := hs
  dsimp only at h
  split at h
  · have hadvance : (advanceTo p.when { s with pending := rest }).Logged log := hs
    exact logged_deliver hlog hadvance h
  split at h
  · cases h
    exact hs
  · exact logged_deliver hlog hrest h

theorem logged_drain (hlog : Logs run log) (hs : s.Logged log) {rounds : Nat}
    (h : drain run rounds s = some s') : s'.Logged log := by
  induction rounds generalizing s with
  | zero => cases h
  | succ rounds ih =>
    obtain ⟨⟨b, t⟩, ht, hrest⟩ := Option.bind_eq_some_iff.mp h
    have hcheck := logged_checkIfDue hlog hs ht
    cases b with
    | false =>
      cases hrest
      exact hcheck
    | true => exact ih hcheck hrest

theorem logged_oneTick (hlog : Logs run log) (hs : s.Logged log) {rounds : Nat}
    (h : oneTick run rounds s = some s') : s'.Logged log := by
  obtain ⟨t, ht, rfl⟩ := Option.map_eq_some_iff.mp h
  have htick : ({ s.tick with level := .intOff } : Interrupt W H).Logged log := by
    unfold tick
    split
    · exact hs
    · exact hs
  have hdrain := logged_drain hlog htick ht
  unfold enable
  split
  · exact hdrain
  · exact hdrain

theorem logged_step (hlog : Logs run log) (hs : s.Logged log) {l : Label W H}
    (hkernel : ∀ w, l = .kernel w → log w = log s.world) (h : step run s l = some s') :
    s'.Logged log := by
  cases l with
  | schedule r =>
    simp only [step] at h
    split_ifs at h
    have hall : scheduleAll [r] s = some s' := Option.bind_eq_some_iff.mpr ⟨s', h, rfl⟩
    exact logged_scheduleAll hs hall
  | oneTick rounds =>
    simp only [step] at h
    split_ifs at h
    exact logged_oneTick hlog hs h
  | setLevel now rounds =>
    simp only [step, setLevel] at h
    split_ifs at h
    · have hlevel : ({ s with level := now } : Interrupt W H).Logged log := hs
      exact logged_oneTick hlog hlevel h
    · cases h
      exact hs
  | idle rounds =>
    simp only [step] at h
    split_ifs at h
    obtain ⟨⟨b, t⟩, ht, hrest⟩ := Option.bind_eq_some_iff.mp h
    have hidle : ({ s with status := .idleMode } : Interrupt W H).Logged log := hs
    have hcheck := logged_checkIfDue hlog hidle ht
    cases b with
    | false =>
      cases hrest
      exact hcheck
    | true =>
      obtain ⟨u, hu, rfl⟩ := Option.map_eq_some_iff.mp hrest
      have hdrain := logged_drain hlog hcheck hu
      exact hdrain
  | setStatus st =>
    simp only [step] at h
    split_ifs at h
    cases h
    exact hs
  | kernel w =>
    simp only [step] at h
    split_ifs at h
    cases h
    exact (hkernel w rfl).trans hs

/-- In every run in which only handlers write to the log, the calls of handlers in it are those in
`fired`, in this order. -/
theorem log_eq_fired (hlog : Logs run log) {w : W} (hw : log w = []) {ls : List (Label W H)}
    (hkernel : AllSteps (step run) (fun s l => ∀ w, l = .kernel w → log w = log s.world) (start w) ls) :
    AllStates (step run) (fun s => log s.world = s.fired.map Fired.tick) (start w) ls := by
  have h0 : (start w : Interrupt W H).Logged log := hw
  exact allStates_of_allSteps (fun _ _ _ hs hk h => logged_step hlog hs hk h) h0 hkernel

end Log

end Nachos.Interrupts
