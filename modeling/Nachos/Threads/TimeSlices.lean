import Nachos.Machine.Interrupt
import Nachos.Threads.Levels

/-!
# Time slices

The timer of `machine/timer.cc` with its handler in `threads/system.cc`, as `nachos -rs` starts it, on
the interrupts of `machine/interrupt.cc` and the threads of `threads/`. A `State` is the hardware with
the kernel as its world, and a step is one of the thread system, a request to a device, `OneTick` with
the `Yield` at its end, or `Idle`. The handlers of the devices call `V` and ask for more interrupts.

The timer puts itself back on the list of pending interrupts before it calls its handler, so it is on
this list once, at most `2 * TimerTicks` ahead (`Armed`), and when it rings in `OneTick` the first
thread of the ready list gets the CPU (`Slice`). Hence a thread with `k` threads ahead of it waits for
at most `200 + 210 * k` ticks, whatever the running threads and the devices do
(`dispatched_in_time`).
-/

namespace Nachos.TimeSlices

open Threads (Kernel SemId Inv inv_step)
open Interrupts

/-! ### The machine with a timer -/

def timerTicks : Nat := 100

/-- `Timer::TimeOfNextInterrupt`, where `Random()` is `random`. -/
def timeOfNextInterrupt (randomize : Bool) (random : Nat) : Int :=
  if randomize then 1 + ((random % (timerTicks * 2) : Nat) : Int) else timerTicks

theorem timeOfNextInterrupt_range (randomize : Bool) (random : Nat) :
    0 < timeOfNextInterrupt randomize random ∧ timeOfNextInterrupt randomize random ≤ 200 := by
  have hmod : random % (timerTicks * 2) < 200 := Nat.mod_lt random (by decide)
  unfold timeOfNextInterrupt
  split
  · omega
  · decide

/-- The procedures that an interrupt calls: `Timer::TimerExpired`, or one of the devices `D`. -/
inductive Handler (D : Type)
  | timerExpired
  | device (d : D)

abbrev State (D : Type) := Interrupt Kernel (Handler D)

/-- What the thread system does not decide: the timer's mode and the values of `Random()`, and the calls
of `V` and `Schedule` by the handlers of the devices. -/
structure Environment (D : Type) where
  randomize : Bool
  random : Nat → Nat
  signals : D → State D → List SemId
  requests : D → State D → List (Request D)

/-- A handler calls `V`. -/
def signal (k : Kernel) (s : SemId) : Kernel := (Threads.step k (.handlerV s)).getD k

def deviceRequest {D : Type} (r : Request D) : Request (Handler D) :=
  { handler := .device r.handler, fromNow := r.fromNow, type := r.type }

namespace Environment

variable {D : Type} (env : Environment D)

/-- The request of the timer, when `scheduled` requests were made before. -/
def timerRequest (scheduled : Nat) : Request (Handler D) where
  handler := .timerExpired
  fromNow := timeOfNextInterrupt env.randomize (env.random scheduled)
  type := .timerInt

/-- `Timer::TimerExpired` with `TimerInterruptHandler`, and the handlers of the devices. -/
def run : Handler D → State D → Response Kernel (Handler D)
  | .timerExpired, s =>
    { world := s.world
      requests := [env.timerRequest s.scheduled]
      yieldOnReturn := decide (s.status ≠ .idleMode) }
  | .device d, s =>
    { world := (env.signals d s).foldl signal s.world
      requests := (env.requests d s).map deviceRequest
      yieldOnReturn := false }

/-- The end of `OneTick`, with its call of `Yield`. -/
def yieldIfAsked (s : State D) : State D :=
  if s.yieldOnReturn then { s.enable with world := s.world.yield, level := s.world.yield.level }
  else s.enable

/-- `Interrupt::OneTick`. -/
def oneTick (rounds : Nat) (s : State D) : Option (State D) :=
  (Interrupt.drain env.run rounds { s.tick with level := .intOff }).map yieldIfAsked

end Environment

/-- Steps of the thread system that are the hardware's. -/
def ofHardware : Threads.Label → Bool
  | .handlerV _ | .timerYield | .halt => true
  | _ => false

inductive Label (D : Type)
  /-- The current thread runs, or `Sleep` looks at the ready list again. -/
  | thread (l : Threads.Label)
  /-- The kernel starts a device. -/
  | request (r : Request D)
  | oneTick (rounds : Nat)
  | idle (rounds : Nat)
  /-- Between user mode and system mode. -/
  | setStatus (st : MachineStatus)

/-- The step function. -/
def step {D : Type} (env : Environment D) (s : State D) : Label D → Option (State D)
  | .thread l =>
    if s.halted ∨ ofHardware l then none
    else (Threads.step s.world l).map fun w => { s with world := w, level := w.level }
  | .request r => if s.halted then none else s.schedule (deviceRequest r)
  | .oneTick rounds =>
    if s.halted = false ∧ s.world.inCode ∧ s.world.level = .intOn then env.oneTick rounds s else none
  | .idle rounds =>
    if s.halted = false ∧ s.world.mode = .idling ∧ s.world.readyList = [] then
      s.idle env.run rounds
    else none
  | .setStatus st =>
    if s.halted ∨ st = .idleMode then none else some { s with status := st }

/-- After `new Timer` in `Initialize`. -/
def start {D : Type} (env : Environment D) : State D :=
  { world := Threads.boot
    level := .intOn
    pending :=
      [{ id := 0
         handler := .timerExpired
         when := timeOfNextInterrupt env.randomize (env.random 0)
         type := .timerInt }]
    scheduled := 1 }

/-! ### The histories of the thread system -/

/-- What was put on the ready list and what was dispatched stays so. -/
structure Grows (k k' : Kernel) : Prop where
  put : k.put <+: k'.put
  dispatched : k.dispatched <+: k'.dispatched

namespace Grows

variable {k k' k'' : Kernel}

theorem of_eq (hput : k'.put = k.put) (hdispatched : k'.dispatched = k.dispatched) : Grows k k' :=
  ⟨hput ▸ List.prefix_refl k.put, hdispatched ▸ List.prefix_refl k.dispatched⟩

theorem refl (k : Kernel) : Grows k k := of_eq rfl rfl

theorem trans (h : Grows k k') (h' : Grows k' k'') : Grows k k'' :=
  ⟨h.put.trans h'.put, h.dispatched.trans h'.dispatched⟩

theorem readyToRun (k : Kernel) (t : Threads.Tid) : Grows k (k.readyToRun t) :=
  ⟨List.prefix_append .., List.prefix_refl _⟩

theorem run (k : Kernel) (t : Threads.Tid) : Grows k (k.run t) :=
  ⟨List.prefix_refl _, List.prefix_append ..⟩

theorem dispatch (k : Kernel) : Grows k k.dispatch := by
  unfold Kernel.dispatch
  split
  · exact of_eq rfl rfl
  · rename_i next rest _
    have hlist : Grows k { k with readyList := rest } := of_eq rfl rfl
    exact hlist.trans (run _ next)

theorem sleep (k : Kernel) (r : Threads.Resume) : Grows k (k.sleep r) := by
  have hblocked : Grows k (k.setThread k.currentThread
      { k.current with status := .blocked, resume := r }) := of_eq rfl rfl
  exact hblocked.trans (dispatch _)

theorem testP (k : Kernel) (s : SemId) (l : Threads.IntStatus) : Grows k (k.testP s l) := by
  unfold Kernel.testP
  split
  · have hqueue : Grows k (k.setSem s ((k.sems s).enqueue k.currentThread)) := of_eq rfl rfl
    exact hqueue.trans (sleep _ _)
  · exact of_eq rfl rfl

theorem give (k : Kernel) (s : SemId) : Grows k (k.V s) := by
  have hsem : Grows k (k.setSem s (k.sems s).give) := of_eq rfl rfl
  cases hqueue : (k.sems s).queue with
  | nil =>
    rw [Threads.Kernel.V_of_nil hqueue]
    exact hsem
  | cons t rest =>
    rw [Threads.Kernel.V_of_cons hqueue]
    exact hsem.trans (readyToRun _ t)

theorem yield (k : Kernel) : Grows k k.yield := by
  cases hlist : k.readyList with
  | nil =>
    unfold Kernel.yield
    rw [hlist]
    exact refl k
  | cons next rest =>
    rw [Threads.yield_eq hlist]
    have hoff : Grows k ({ k with level := .intOff }.setThread k.currentThread
        { k.current with resume := .inYield k.level }) := of_eq rfl rfl
    exact (hoff.trans (readyToRun _ _)).trans (dispatch _)

theorem reap (k : Kernel) : Grows k k.reap := by
  unfold Kernel.reap
  split
  · exact refl k
  · split
    · exact of_eq rfl rfl
    · exact of_eq rfl rfl

theorem resume (h : k.resume = some k') : Grows k k' := by
  unfold Kernel.resume at h
  split at h
  · cases h
    exact of_eq rfl rfl
  · split at h
    · cases h
      exact (reap k).trans (testP ..)
    · cases h
      exact reap k
  · split at h
    · cases h
      exact (reap k).trans (of_eq rfl rfl)
    · cases h
      exact reap k
  · cases h
  · cases h

theorem step {l : Threads.Label} (h : Threads.step k l = some k') : Grows k k' := by
  cases l with
  | newThread =>
    obtain ⟨-, rfl⟩ := Option.ite_some_none_eq_some.mp h
    exact of_eq rfl rfl
  | fork t =>
    obtain ⟨-, rfl⟩ := Option.ite_some_none_eq_some.mp h
    have hroot : Grows k (k.setThread t { k.threads t with resume := .root }) := of_eq rfl rfl
    exact hroot.trans (readyToRun _ t)
  | newSemaphore v =>
    obtain ⟨-, rfl⟩ := Option.ite_some_none_eq_some.mp h
    exact of_eq rfl rfl
  | p s =>
    obtain ⟨-, rfl⟩ := Option.ite_some_none_eq_some.mp h
    have hoff : Grows k { k with level := .intOff } := of_eq rfl rfl
    exact hoff.trans (testP ..)
  | v s | handlerV s =>
    obtain ⟨-, rfl⟩ := Option.ite_some_none_eq_some.mp h
    exact give k s
  | yield | timerYield =>
    obtain ⟨-, rfl⟩ := Option.ite_some_none_eq_some.mp h
    exact yield k
  | finish =>
    obtain ⟨-, rfl⟩ := Option.ite_some_none_eq_some.mp h
    have hoff : Grows k { k with level := .intOff, threadToBeDestroyed := some k.currentThread } :=
      of_eq rfl rfl
    exact hoff.trans (sleep ..)
  | resume => exact resume (Option.ite_none_right_eq_some.mp h).2
  | idle =>
    obtain ⟨-, rfl⟩ := Option.ite_some_none_eq_some.mp h
    exact dispatch k
  | halt =>
    obtain ⟨-, rfl⟩ := Option.ite_some_none_eq_some.mp h
    exact of_eq rfl rfl

end Grows

/-- The runs of the thread system. -/
def Reaches (k k' : Kernel) : Prop := ∃ ls, Runs.run Threads.step k ls = some k'

namespace Reaches

variable {k k' k'' : Kernel}

theorem refl (k : Kernel) : Reaches k k := ⟨[], rfl⟩

theorem of_step {l : Threads.Label} (h : Threads.step k l = some k') : Reaches k k' :=
  ⟨[l], Option.bind_eq_some_iff.mpr ⟨k', h, rfl⟩⟩

theorem trans (h : Reaches k k') (h' : Reaches k' k'') : Reaches k k'' := by
  obtain ⟨ls, hrun⟩ := h
  obtain ⟨ls', hrun'⟩ := h'
  exact ⟨ls ++ ls', (Runs.run_append hrun ls').trans hrun'⟩

theorem inv (h : Reaches k k') (hi : Inv k) : Inv k' := by
  obtain ⟨ls, hrun⟩ := h
  exact (Runs.allStates_of_invariant (fun _ _ _ hi hs => Threads.inv_step hi hs) hi ls).of_run hrun

theorem grows (h : Reaches k k') : Grows k k' := by
  obtain ⟨ls, hrun⟩ := h
  exact (Runs.allStates_of_invariant (fun _ _ _ hg hs => Grows.trans hg (Grows.step hs))
    (Grows.refl k) ls).of_run hrun

end Reaches

/-! ### Handlers -/

/-- Handlers wake threads by steps of the thread system, and dispatch none. -/
structure Woken (k k' : Kernel) : Prop where
  reaches : Reaches k k'
  dispatched : k'.dispatched = k.dispatched
  inCode : k'.inCode = k.inCode
  level : k'.level = k.level

theorem Woken.refl (k : Kernel) : Woken k k := ⟨Reaches.refl k, rfl, rfl, rfl⟩

theorem Woken.trans {k k' k'' : Kernel} (h : Woken k k') (h' : Woken k' k'') : Woken k k'' :=
  ⟨h.reaches.trans h'.reaches, h'.dispatched.trans h.dispatched, h'.inCode.trans h.inCode,
    h'.level.trans h.level⟩

theorem dispatched_V (k : Kernel) (s : SemId) : (k.V s).dispatched = k.dispatched := by
  cases hqueue : (k.sems s).queue with
  | nil =>
    rw [Threads.Kernel.V_of_nil hqueue]
    rfl
  | cons t rest =>
    rw [Threads.Kernel.V_of_cons hqueue]
    rfl

theorem inCode_V (k : Kernel) (s : SemId) : (k.V s).inCode = k.inCode := by
  obtain ⟨hcurrent, hmode, -⟩ := Threads.V_same (k := k) s
  unfold Kernel.inCode Kernel.current
  rw [hmode, hcurrent, Threads.V_resume]

theorem woken_signal (k : Kernel) (s : SemId) : Woken k (signal k s) := by
  unfold signal
  cases h : Threads.step k (.handlerV s) with
  | none => exact Woken.refl k
  | some k' =>
    have hreaches := Reaches.of_step h
    obtain ⟨-, rfl⟩ := Option.ite_some_none_eq_some.mp h
    exact ⟨hreaches, dispatched_V k s, inCode_V k s, (Threads.V_same s).2.2⟩

theorem woken_signals (sems : List SemId) (k : Kernel) : Woken k (sems.foldl signal k) := by
  induction sems generalizing k with
  | nil => exact Woken.refl k
  | cons s sems ih => exact (woken_signal k s).trans (ih _)

section Handlers

variable {D : Type} {env : Environment D}

theorem world_schedule {r : Request (Handler D)} {s s' : State D} (h : s.schedule r = some s') :
    s'.world = s.world := by
  obtain ⟨-, rfl⟩ := Option.ite_some_none_eq_some.mp h
  rfl

theorem world_scheduleAll {rs : List (Request (Handler D))} {s s' : State D}
    (h : Interrupt.scheduleAll rs s = some s') : s'.world = s.world := by
  induction rs generalizing s with
  | nil =>
    cases h
    rfl
  | cons r rs ih =>
    obtain ⟨t, ht, hrest⟩ := Option.bind_eq_some_iff.mp h
    exact (ih hrest).trans (world_schedule ht)

theorem woken_run (handler : Handler D) (s : State D) : Woken s.world (env.run handler s).world := by
  cases handler with
  | timerExpired => exact Woken.refl s.world
  | device d => exact woken_signals (env.signals d s) s.world

theorem woken_deliver {p : PendingInterrupt (Handler D)} {s s' : State D} {b : Bool}
    (h : Interrupt.deliver env.run p s = some (b, s')) : Woken s.world s'.world := by
  unfold Interrupt.deliver at h
  split at h
  · cases h
    exact Woken.refl s.world
  · obtain ⟨t, ht, heq⟩ := Option.map_eq_some_iff.mp h
    cases heq
    obtain ⟨u, hu, rfl⟩ := Option.map_eq_some_iff.mp ht
    have hwoken : Woken (s.enter p).world (env.run p.handler (s.enter p)).world :=
      woken_run p.handler (s.enter p)
    rw [show u.world = _ from world_scheduleAll hu]
    exact hwoken

theorem woken_checkIfDue {s s' : State D} {advance b : Bool}
    (h : Interrupt.checkIfDue env.run advance s = some (b, s')) : Woken s.world s'.world := by
  unfold Interrupt.checkIfDue at h
  split at h
  · cases h
  split at h
  · cases h
    exact Woken.refl s.world
  · dsimp only at h
    split at h
    · have hwoken := woken_deliver h
      exact hwoken
    · split at h
      · cases h
        exact Woken.refl s.world
      · have hwoken := woken_deliver h
        exact hwoken

theorem woken_drain {rounds : Nat} {s s' : State D}
    (h : Interrupt.drain env.run rounds s = some s') : Woken s.world s'.world := by
  induction rounds generalizing s with
  | zero => cases h
  | succ rounds ih =>
    obtain ⟨⟨b, t⟩, ht, hrest⟩ := Option.bind_eq_some_iff.mp h
    cases b with
    | false =>
      cases hrest
      exact woken_checkIfDue ht
    | true => exact (woken_checkIfDue ht).trans (ih hrest)

theorem woken_idle {rounds : Nat} {s s' : State D} (h : s.idle env.run rounds = some s') :
    Woken s.world s'.world := by
  obtain ⟨⟨b, t⟩, ht, hrest⟩ := Option.bind_eq_some_iff.mp h
  have hfirst := woken_checkIfDue ht
  cases b with
  | false =>
    cases hrest
    exact hfirst
  | true =>
    obtain ⟨u, hu, rfl⟩ := Option.map_eq_some_iff.mp hrest
    have hdrain := woken_drain hu
    exact hfirst.trans hdrain

theorem tick_world (s : State D) : s.tick.world = s.world := by
  unfold Interrupt.tick
  split
  · rfl
  · rfl

/-- What `enable` and the `Yield` after it leave as it was. -/
theorem yieldIfAsked_same (s : State D) :
    (Environment.yieldIfAsked s).pending = s.pending ∧
      (Environment.yieldIfAsked s).totalTicks = s.totalTicks ∧
      (Environment.yieldIfAsked s).halted = s.halted ∧ (Environment.yieldIfAsked s).late = s.late ∧
      (Environment.yieldIfAsked s).world = if s.yieldOnReturn then s.world.yield else s.world := by
  unfold Environment.yieldIfAsked Interrupt.enable
  split
  · exact ⟨rfl, rfl, rfl, rfl, rfl⟩
  · exact ⟨rfl, rfl, rfl, rfl, rfl⟩

/-- What `OneTick` does to the threads: the handlers' calls of `V`, and at most one yield. -/
theorem reaches_oneTick {rounds : Nat} {s s' : State D} (hcode : s.world.inCode = true)
    (hlevel : s.world.level = .intOn) (h : env.oneTick rounds s = some s') :
    Reaches s.world s'.world := by
  obtain ⟨t, ht, rfl⟩ := Option.map_eq_some_iff.mp h
  have hdrain := woken_drain ht
  have hdrain : Woken s.world t.world := tick_world s ▸ hdrain
  rw [(yieldIfAsked_same t).2.2.2.2]
  split
  · have hyield : Threads.step t.world .timerYield = some t.world.yield :=
      if_pos ⟨hdrain.inCode.trans hcode, hdrain.level.trans hlevel⟩
    exact hdrain.reaches.trans (Reaches.of_step hyield)
  · exact hdrain.reaches

/-- The threads of the machine with a timer are those of the thread system: what the hardware does to
them is a run of its steps `handlerV` and `timerYield`. -/
theorem simulates (env : Environment D) : Runs.Simulates (step env) Threads.step Interrupt.world := by
  intro s l s' h
  show Reaches s.world s'.world
  cases l with
  | thread l =>
    obtain ⟨w, hw, rfl⟩ := Option.map_eq_some_iff.mp (Option.ite_none_left_eq_some.mp h).2
    exact Reaches.of_step hw
  | request r =>
    rw [world_schedule (Option.ite_none_left_eq_some.mp h).2]
    exact Reaches.refl s.world
  | oneTick rounds =>
    obtain ⟨⟨-, hcode, hlevel⟩, h⟩ := Option.ite_none_right_eq_some.mp h
    exact reaches_oneTick hcode hlevel h
  | idle rounds => exact (woken_idle (Option.ite_none_right_eq_some.mp h).2).reaches
  | setStatus st =>
    cases (Option.ite_none_left_eq_some.mp h).2
    exact Reaches.refl s.world

end Handlers

/-! ### The timer on the list of pending interrupts -/

section Alarms

variable {D : Type} {env : Environment D}

def isTimer (p : PendingInterrupt (Handler D)) : Bool :=
  match p.handler with
  | .timerExpired => true
  | .device _ => false

/-- The times at which the timer is going to ring. -/
def alarms (pending : List (PendingInterrupt (Handler D))) : List Int :=
  (pending.filter isTimer).map PendingInterrupt.when

theorem alarms_sortedInsert {p : PendingInterrupt (Handler D)} {l : List (PendingInterrupt (Handler D))}
    {w : Int} (h : alarms (p :: l) = [w]) : alarms (sortedInsert p l) = [w] := by
  have hperm := ((sortedInsert_perm p l).filter isTimer).map PendingInterrupt.when
  exact List.perm_singleton.mp (hperm.trans (.of_eq h))

theorem alarms_device {p : PendingInterrupt (Handler D)} (hp : isTimer p = false)
    (l : List (PendingInterrupt (Handler D))) : alarms (p :: l) = alarms l := by
  unfold alarms
  rw [List.filter_cons_of_neg (by simp [hp])]

theorem alarms_timer {p : PendingInterrupt (Handler D)} (hp : isTimer p = true)
    (l : List (PendingInterrupt (Handler D))) : alarms (p :: l) = p.when :: alarms l := by
  unfold alarms
  rw [List.filter_cons_of_pos hp, List.map_cons]

/-! ### What a handler does to the timer -/

theorem schedule_pending {r : Request (Handler D)} {s s' : State D} (h : s.schedule r = some s')
    (hl : s'.late = false) (hnonneg : 0 ≤ s.totalTicks) :
    s'.pending = sortedInsert
      { id := s.scheduled, handler := r.handler, when := s.totalTicks + r.fromNow, type := r.type }
      s.pending := by
  unfold Interrupt.schedule at h
  split at h
  · rename_i hpos
    cases h
    have hfits := of_decide_eq_false (Bool.or_eq_false_iff.mp hl).2
    have hwrap := Threads.wrap32_of_range (n := s.totalTicks + r.fromNow) (by omega) (by omega)
    show sortedInsert _ _ = _
    rw [hwrap]
  · cases h

theorem schedule_yield {r : Request (Handler D)} {s s' : State D} (h : s.schedule r = some s') :
    s'.yieldOnReturn = s.yieldOnReturn := by
  obtain ⟨-, rfl⟩ := Option.ite_some_none_eq_some.mp h
  rfl

/-- The devices' requests leave the timer alone. -/
theorem alarms_schedule {r : Request D} {s s' : State D} (h : s.schedule (deviceRequest r) = some s')
    (hl : s'.late = false) (hnonneg : 0 ≤ s.totalTicks) {w : Int} (hw : alarms s.pending = [w]) :
    alarms s'.pending = [w] := by
  rw [schedule_pending h hl hnonneg]
  exact alarms_sortedInsert ((alarms_device rfl s.pending).trans hw)

theorem alarms_scheduleAll {rs : List (Request D)} {s s' : State D}
    (h : Interrupt.scheduleAll (rs.map deviceRequest) s = some s') (hl : s'.late = false)
    (hnonneg : 0 ≤ s.totalTicks) :
    s'.yieldOnReturn = s.yieldOnReturn ∧
      ∀ w, alarms s.pending = [w] → alarms s'.pending = [w] := by
  induction rs generalizing s with
  | nil =>
    cases h
    exact ⟨rfl, fun _ => id⟩
  | cons r rs ih =>
    obtain ⟨t, ht, hrest⟩ := Option.bind_eq_some_iff.mp h
    have hhandled := Interrupt.handled_schedule ht
    have hlt := (Interrupt.handled_scheduleAll hrest).late hl
    obtain ⟨hyield, halarm⟩ := ih hrest (hhandled.totalTicks ▸ hnonneg)
    exact ⟨hyield.trans (schedule_yield ht),
      fun w hw => halarm w (alarms_schedule ht hlt hnonneg hw)⟩

/-- Handlers were called: the timer was left alone, or it rang and is set anew. -/
structure Rings (s s' : State D) : Prop where
  yield : s.yieldOnReturn = true → s'.yieldOnReturn = true
  alarm : ∀ w, alarms s.pending = [w] → ∃ w', alarms s'.pending = [w'] ∧
    (w' = w ∨ s.totalTicks < w' ∧ w' ≤ s.totalTicks + 200 ∧ s'.yieldOnReturn = true)

theorem Rings.of_eq {s s' : State D} (hyield : s'.yieldOnReturn = s.yieldOnReturn)
    (halarm : ∀ w, alarms s.pending = [w] → alarms s'.pending = [w]) : Rings s s' :=
  ⟨fun h => hyield.trans h, fun w hw => ⟨w, halarm w hw, .inl rfl⟩⟩

theorem Rings.trans {s s' s'' : State D} (h : Rings s s') (h' : Rings s' s'')
    (htotal : s'.totalTicks = s.totalTicks) : Rings s s'' := by
  refine ⟨fun hy => h'.yield (h.yield hy), fun w hw => ?_⟩
  obtain ⟨w', hw', hcase⟩ := h.alarm w hw
  obtain ⟨w'', hw'', hcase'⟩ := h'.alarm w' hw'
  refine ⟨w'', hw'', ?_⟩
  rw [htotal] at hcase'
  rcases hcase' with rfl | hrang
  · rcases hcase with rfl | ⟨hlo, hhi, hy⟩
    · exact .inl rfl
    · exact .inr ⟨hlo, hhi, h'.yield hy⟩
  · exact .inr hrang

theorem rings_fire {p : PendingInterrupt (Handler D)} {rest : List (PendingInterrupt (Handler D))}
    {s s' : State D} (hpending : s.pending = p :: rest)
    (h : Interrupt.fire env.run p { s with pending := rest } = some s') (hl : s'.late = false)
    (hnonneg : 0 ≤ s.totalTicks) : Rings s s' := by
  obtain ⟨t, ht, rfl⟩ := Option.map_eq_some_iff.mp h
  obtain ⟨id, handler, when, type⟩ := p
  cases handler with
  | timerExpired =>
    -- `TimerExpired` asks for the next interrupt first, and then for a yield.
    obtain ⟨u, hu, hrest⟩ := Option.bind_eq_some_iff.mp ht
    cases hrest
    have hpend := schedule_pending hu hl hnonneg
    have hyes : t.yieldOnReturn = true := (schedule_yield hu).trans (Bool.or_true _)
    refine ⟨fun _ => hyes, fun w hw => ?_⟩
    rw [hpending, alarms_timer rfl] at hw
    obtain ⟨hpos, hle⟩ := timeOfNextInterrupt_range env.randomize (env.random s.scheduled)
    refine ⟨s.totalTicks + timeOfNextInterrupt env.randomize (env.random s.scheduled), ?_,
      .inr ⟨by omega, by omega, hyes⟩⟩
    show alarms t.pending = _
    rw [hpend]
    refine alarms_sortedInsert ?_
    rw [alarms_timer rfl]
    exact congrArg _ (List.cons.inj hw).2
  | device d =>
    obtain ⟨hyield, halarm⟩ := alarms_scheduleAll ht hl hnonneg
    refine ⟨fun hy => ?_, fun w hw => ⟨w, halarm w ?_, .inl rfl⟩⟩
    · show t.yieldOnReturn = true
      rw [hyield]
      exact (Bool.or_false _).trans hy
    · rw [hpending] at hw
      exact (alarms_device rfl rest).symm.trans hw

theorem rings_putBack {p : PendingInterrupt (Handler D)} {rest : List (PendingInterrupt (Handler D))}
    {s : State D} (hpending : s.pending = p :: rest) :
    Rings s (Interrupt.putBack p { s with pending := rest }) := by
  refine .of_eq rfl fun w hw => ?_
  rw [hpending] at hw
  exact alarms_sortedInsert hw

theorem rings_deliver {p : PendingInterrupt (Handler D)} {rest : List (PendingInterrupt (Handler D))}
    {s s' : State D} {b : Bool} (hpending : s.pending = p :: rest)
    (h : Interrupt.deliver env.run p { s with pending := rest } = some (b, s'))
    (hl : s'.late = false) (hnonneg : 0 ≤ s.totalTicks) : Rings s s' := by
  unfold Interrupt.deliver at h
  split at h
  · cases h
    exact rings_putBack hpending
  · obtain ⟨t, ht, heq⟩ := Option.map_eq_some_iff.mp h
    cases heq
    exact rings_fire hpending ht hl hnonneg

theorem rings_checkIfDue {s s' : State D} {b : Bool}
    (h : Interrupt.checkIfDue env.run false s = some (b, s')) (hl : s'.late = false)
    (hnonneg : 0 ≤ s.totalTicks) : Rings s s' := by
  unfold Interrupt.checkIfDue at h
  split at h
  · cases h
  split at h
  · cases h
    exact .of_eq rfl fun _ => id
  · rename_i p rest hpending
    simp only [Bool.false_eq_true, false_and, if_false] at h
    split at h
    · cases h
      exact rings_putBack hpending
    · exact rings_deliver hpending h hl hnonneg

theorem rings_drain {rounds : Nat} {s s' : State D}
    (h : Interrupt.drain env.run rounds s = some s') (hl : s'.late = false)
    (hnonneg : 0 ≤ s.totalTicks) : Rings s s' := by
  induction rounds generalizing s with
  | zero => cases h
  | succ rounds ih =>
    obtain ⟨⟨b, t⟩, ht, hrest⟩ := Option.bind_eq_some_iff.mp h
    have htotal := (Interrupt.handled_checkIfDue ht).totalTicks
    cases b with
    | false =>
      cases hrest
      exact rings_checkIfDue ht hl hnonneg
    | true =>
      have hlt := (Interrupt.handled_drain hrest).late hl
      exact (rings_checkIfDue ht hlt hnonneg).trans (ih hrest (htotal ▸ hnonneg)) htotal

/-! ### What a step does to the timer -/

/-- The timer is on the list once, at most `2 * TimerTicks` ahead. -/
def TimerSet (s : State D) : Prop :=
  ∃ w, alarms s.pending = [w] ∧ s.totalTicks ≤ w ∧ w ≤ s.totalTicks + 200

/-- Between two steps. -/
structure Armed (s : State D) : Prop where
  good : s.Good
  status : s.halted = false → s.status ≠ .idleMode
  alarm : TimerSet s

theorem Armed.nonneg {s : State D} (h : Armed s) : 0 ≤ s.totalTicks := by
  have hclock := h.good.clock
  omega

/-- A step: when the timer rings, a thread that is ready gets the CPU. -/
def Slice (s s' : State D) : Prop :=
  ∀ w, alarms s.pending = [w] → ∃ w', alarms s'.pending = [w'] ∧
    (w' = w ∨ s.world.readyList = [] ∨
      w' ≤ w + 210 ∧ s.world.dispatched.length < s'.world.dispatched.length)

theorem Slice.of_eq {s s' : State D}
    (halarm : ∀ w, alarms s.pending = [w] → alarms s'.pending = [w]) : Slice s s' :=
  fun w hw => ⟨w, halarm w hw, .inl rfl⟩

/-- The clock in `OneTick`. -/
theorem tick_clock {s : State D} (hnonneg : 0 ≤ s.totalTicks) (hl : s.tick.late = false) :
    s.totalTicks ≤ s.tick.totalTicks ∧ s.tick.totalTicks ≤ s.totalTicks + 10 := by
  unfold Interrupt.tick systemTick userTick at *
  split at hl
  · rename_i hstatus
    have hfits := of_decide_eq_false (Bool.or_eq_false_iff.mp hl).2
    have hwrap := Threads.wrap32_of_range (n := s.totalTicks + 10) (by omega) (by omega)
    rw [if_pos hstatus]
    show s.totalTicks ≤ Threads.wrap32 _ ∧ Threads.wrap32 _ ≤ _
    omega
  · rename_i hstatus
    have hfits := of_decide_eq_false (Bool.or_eq_false_iff.mp hl).2
    have hwrap := Threads.wrap32_of_range (n := s.totalTicks + 1) (by omega) (by omega)
    rw [if_neg hstatus]
    show s.totalTicks ≤ Threads.wrap32 _ ∧ Threads.wrap32 _ ≤ _
    omega

/-- A yield dispatches the first thread that is ready. -/
theorem dispatched_yield {k : Kernel} (h : k.readyList ≠ []) :
    k.yield.dispatched.length = k.dispatched.length + 1 := by
  cases hlist : k.readyList with
  | nil => exact absurd hlist h
  | cons next rest =>
    unfold Kernel.yield
    rw [hlist]
    exact List.length_append

/-- The ready list is what was put on it and was not dispatched yet. -/
theorem length_put {k : Kernel} (h : Inv k) :
    k.put.length = k.dispatched.length + k.readyList.length := by
  rw [h.places.fifo]
  exact List.length_append

theorem Woken.ready {k k' : Kernel} (h : Woken k k') (hi : Inv k) (hready : k.readyList ≠ []) :
    k'.readyList ≠ [] := by
  intro hnil
  have hput := h.reaches.grows.put.length_le
  have hbefore := length_put hi
  have hafter := length_put (h.reaches.inv hi)
  rw [h.dispatched, hnil] at hafter
  have hpos := List.length_pos_iff.mpr hready
  simp only [List.length_nil] at hafter
  omega

theorem yieldIfAsked_good {s : State D} (h : s.Good) : (Environment.yieldIfAsked s).Good := by
  unfold Environment.yieldIfAsked Interrupt.enable
  split
  · exact h
  · exact h

theorem yieldIfAsked_status {s : State D} (h : s.status ≠ .idleMode) :
    (Environment.yieldIfAsked s).status ≠ .idleMode := by
  unfold Environment.yieldIfAsked Interrupt.enable
  split
  · intro hidle
    cases hidle
  · exact h

/-- The thread that runs when the handlers are done gives way to the first one that is ready. -/
theorem Woken.dispatched_yield {k k' : Kernel} (h : Woken k k') (hi : Inv k)
    (hready : k.readyList ≠ []) : k'.yield.dispatched.length = k.dispatched.length + 1 := by
  rw [TimeSlices.dispatched_yield (h.ready hi hready), h.dispatched]

/-- After the loop of `OneTick` the timer is set for a later time. If it has been due, the current
thread is to yield. -/
theorem alarm_drain {rounds : Nat} {s t : State D} (harmed : Armed s) (hhalted : s.halted = false)
    (h : Interrupt.drain env.run rounds { s.tick with level := .intOff } = some t)
    (hl : t.late = false) {w : Int} (hw : alarms s.pending = [w]) :
    ∃ w', alarms t.pending = [w'] ∧ t.totalTicks < w' ∧
      (w' = w ∨ w' ≤ t.totalTicks + 200 ∧ t.yieldOnReturn = true) := by
  have hhandled := Interrupt.handled_drain h
  have htick : s.tick.late = false := hhandled.late hl
  have hclock : t.totalTicks = s.tick.totalTicks := hhandled.totalTicks
  have hnonneg : 0 ≤ s.tick.totalTicks := harmed.nonneg.trans (tick_clock harmed.nonneg htick).1
  have hidle : s.tick.status ≠ .idleMode :=
    (Interrupt.tick_status s).symm ▸ harmed.status hhalted
  have hgood : s.tick.Good := ((Interrupt.advances_tick s).good htick harmed.good).1
  have hdue := Interrupt.nothingDue_drain h hidle hl hgood
  obtain ⟨w', hw', hcase⟩ :=
    (rings_drain h hl hnonneg).alarm w ((Interrupt.tick_pending s).symm ▸ hw)
  -- Nothing is due any more, the timer in particular.
  have hafter : t.totalTicks < w' := by
    have hmem : w' ∈ alarms t.pending := hw' ▸ List.mem_singleton_self w'
    obtain ⟨p, hp, rfl⟩ := List.mem_map.mp hmem
    exact hdue p (List.mem_filter.mp hp).1
  refine ⟨w', hw', hafter, hcase.imp_right fun hrung => ?_⟩
  rw [hclock]
  exact ⟨hrung.2.1, hrung.2.2⟩

/-- `OneTick` fires what is due; when the timer is among it, the current thread yields. -/
theorem oneTick_slice {rounds : Nat} {s s' : State D} (hinv : Inv s.world) (harmed : Armed s)
    (hhalted : s.halted = false) (h : env.oneTick rounds s = some s') (hl : s'.late = false) :
    Armed s' ∧ Slice s s' := by
  obtain ⟨t, ht, rfl⟩ := Option.map_eq_some_iff.mp h
  obtain ⟨hpending, htotal, hhalted', hlate, hworld⟩ := yieldIfAsked_same t
  rw [hlate] at hl
  have hhandled := Interrupt.handled_drain ht
  have htick : s.tick.late = false := hhandled.late hl
  obtain ⟨hlo, hhi⟩ := tick_clock harmed.nonneg htick
  have hclock : t.totalTicks = s.tick.totalTicks := hhandled.totalTicks
  obtain ⟨v, hv, hle, hge⟩ := harmed.alarm
  obtain ⟨v', hv', hlater, hcase⟩ := alarm_drain harmed hhalted ht hl hv
  constructor
  · have hgood : s.tick.Good := ((Interrupt.advances_tick s).good htick harmed.good).1
    have hidle : s.tick.status ≠ .idleMode :=
      (Interrupt.tick_status s).symm ▸ harmed.status hhalted
    refine ⟨yieldIfAsked_good (hhandled.good hl hgood), fun _ => ?_, v', hpending ▸ hv', by omega, ?_⟩
    · exact yieldIfAsked_status (hhandled.status ▸ hidle)
    · rcases hcase with rfl | ⟨hle', -⟩
      · omega
      · omega
  · intro w hw
    obtain rfl : v = w := (List.cons.inj (hv.symm.trans hw)).1
    refine ⟨v', hpending ▸ hv', ?_⟩
    rcases hcase with rfl | ⟨hle', hyield⟩
    · exact .inl rfl
    · refine .inr ?_
      by_cases hready : s.world.readyList = []
      · exact .inl hready
      · have hdrain := woken_drain ht
        have hwoken : Woken s.world t.world := tick_world s ▸ hdrain
        rw [hworld, if_pos hyield, hwoken.dispatched_yield hinv hready]
        exact .inr ⟨by omega, Nat.lt_succ_self _⟩

theorem Rings.timerSet {s s' : State D} (h : Rings s s') (htotal : s'.totalTicks = s.totalTicks)
    (hset : TimerSet s) : TimerSet s' := by
  obtain ⟨w, hw, hle, hge⟩ := hset
  obtain ⟨w', hw', hcase⟩ := h.alarm w hw
  refine ⟨w', hw', ?_⟩
  rw [htotal]
  rcases hcase with rfl | ⟨hlo, hhi, -⟩
  · exact ⟨hle, hge⟩
  · exact ⟨by omega, hhi⟩

/-- The first `CheckIfDue` of `Idle` does not advance the clock past the timer. -/
theorem timerSet_idleCheck {s s' : State D} {b : Bool}
    (h : Interrupt.checkIfDue env.run true s = some (b, s')) (hl : s'.late = false) (hg : s.Good)
    (hset : TimerSet s) : TimerSet s' := by
  have hclock := hg.clock
  unfold Interrupt.checkIfDue at h
  split at h
  · cases h
  split at h
  · cases h
    exact hset
  · rename_i p rest hpending
    simp only [true_and] at h
    split at h
    · rename_i hlt
      have hrings := rings_deliver (s := s.advanceTo p.when) hpending h hl
        (show 0 ≤ p.when by omega)
      have hhandled := Interrupt.handled_deliver (s := s.advanceTo p.when) hpending
        (Int.le_refl p.when) h
      refine hrings.timerSet hhandled.totalTicks ?_
      obtain ⟨w, hw, hle, hge⟩ := hset
      have hmem : w ∈ alarms s.pending := hw ▸ List.mem_singleton_self w
      obtain ⟨q, hq, rfl⟩ := List.mem_map.mp hmem
      have hq' := (List.mem_filter.mp hq).1
      have hsorted := hg.sorted
      rw [hpending] at hq' hsorted
      refine ⟨q.when, hw, ?_, show q.when ≤ p.when + 200 by omega⟩
      rcases List.mem_cons.mp hq' with rfl | hrest
      · exact Int.le_refl _
      · exact (List.pairwise_cons.mp hsorted).1 q hrest
    · rename_i hdue
      have hhandled := Interrupt.handled_deliver hpending (Int.not_lt.mp hdue) h
      have hrings := rings_deliver hpending h hl (show 0 ≤ s.totalTicks by omega)
      exact hrings.timerSet hhandled.totalTicks hset

/-- `Idle` leaves the timer set. -/
theorem armed_idle {rounds : Nat} {s s' : State D} (harmed : Armed s)
    (h : s.idle env.run rounds = some s') (hl : s'.late = false) : Armed s' := by
  have hgood' := ((Interrupt.advances_idle h).good hl harmed.good).1
  obtain ⟨⟨b, t⟩, ht, hrest⟩ := Option.bind_eq_some_iff.mp h
  cases b with
  | false =>
    cases hrest
    refine ⟨hgood', ?_, ?_⟩
    · intro hhalted
      cases hhalted
    · have hset := timerSet_idleCheck ht hl harmed.good harmed.alarm
      exact hset
  | true =>
    obtain ⟨u, hu, rfl⟩ := Option.map_eq_some_iff.mp hrest
    have hhandled := Interrupt.handled_drain hu
    have hlt : t.late = false := hhandled.late hl
    have hset := timerSet_idleCheck ht hlt harmed.good harmed.alarm
    have hfirst := (Interrupt.advances_checkIfDue ht).1.good hlt harmed.good
    have hclock := hfirst.1.clock
    have hrings := rings_drain hu hl (show 0 ≤ t.totalTicks by omega)
    refine ⟨hgood', ?_, ?_⟩
    · intro _ hidle
      cases hidle
    · exact hrings.timerSet hhandled.totalTicks hset

/-- Every step keeps the timer running, and lets it end a time slice. -/
theorem step_slice {s s' : State D} {l : Label D} (hinv : Inv s.world) (harmed : Armed s)
    (h : step env s l = some s') (hl : s'.late = false) : Armed s' ∧ Slice s s' := by
  cases l with
  | thread l =>
    obtain ⟨w, -, rfl⟩ := Option.map_eq_some_iff.mp (Option.ite_none_left_eq_some.mp h).2
    exact ⟨⟨harmed.good, harmed.status, harmed.alarm⟩, .of_eq fun _ => id⟩
  | request r =>
    obtain ⟨-, h⟩ := Option.ite_none_left_eq_some.mp h
    have hhandled := Interrupt.handled_schedule h
    have halarm : ∀ w, alarms s.pending = [w] → alarms s'.pending = [w] :=
      fun w hw => alarms_schedule h hl harmed.nonneg hw
    refine ⟨⟨hhandled.good hl harmed.good, ?_, ?_⟩, .of_eq halarm⟩
    · rw [hhandled.halted, hhandled.status]
      exact harmed.status
    · obtain ⟨w, hw, hle⟩ := harmed.alarm
      exact ⟨w, halarm w hw, hhandled.totalTicks.symm ▸ hle⟩
  | oneTick rounds =>
    obtain ⟨⟨hhalted, -, -⟩, h⟩ := Option.ite_none_right_eq_some.mp h
    exact oneTick_slice hinv harmed hhalted h hl
  | idle rounds =>
    obtain ⟨⟨-, -, hready⟩, h⟩ := Option.ite_none_right_eq_some.mp h
    have harmed' := armed_idle harmed h hl
    refine ⟨harmed', fun w hw => ?_⟩
    obtain ⟨w', hw', -, -⟩ := harmed'.alarm
    exact ⟨w', hw', .inr (.inl hready)⟩
  | setStatus st =>
    obtain ⟨hne, h⟩ := Option.ite_none_left_eq_some.mp h
    cases h
    exact ⟨⟨harmed.good, fun _ hidle => hne (.inr hidle), harmed.alarm⟩, .of_eq fun _ => id⟩

theorem armed_start : Armed (start env) := by
  obtain ⟨hpos, hle⟩ := timeOfNextInterrupt_range env.randomize (env.random 0)
  have hgood : (start env).Good := by
    refine ⟨List.pairwise_singleton _ _, .refl _, ?_, .nil, ?_, ?_,
      ⟨rfl, Int.le_refl 0, Int.le_refl 0, Int.le_refl 0, (by decide : (0 : Int) < 2 ^ 31)⟩⟩
    · intro f hf
      cases hf
    · intro f hf
      cases hf
    · intro p hp
      rw [List.mem_singleton.mp hp]
      exact Int.lt_of_le_of_lt hle (by decide)
  refine ⟨hgood, ?_, _, rfl, Int.le_of_lt hpos, ?_⟩
  · intro _ hidle
    cases hidle
  · exact (Int.zero_add 200).symm ▸ hle

/-! ### Waiting -/

/-- The thread that was put on the ready list as the `i`-th was dispatched, or will be by the time
`bound`. -/
def InTime (i : Nat) (bound : Int) (s : State D) : Prop :=
  i < s.world.dispatched.length ∨ i < s.world.put.length ∧
    ∃ w, alarms s.pending = [w] ∧ w + 210 * ((i : Int) - s.world.dispatched.length) ≤ bound

theorem Slice.inTime {s s' : State D} {i : Nat} {bound : Int} (h : Slice s s')
    (hgrows : Grows s.world s'.world) (hinv : Inv s.world) (hwaits : InTime i bound s) :
    InTime i bound s' := by
  have hdispatched := hgrows.dispatched.length_le
  rcases hwaits with hdone | ⟨hput, w, hw, hbound⟩
  · exact .inl (by omega)
  by_cases hdone : i < s'.world.dispatched.length
  · exact .inl hdone
  have hput' := hgrows.put.length_le
  have hready : s.world.readyList ≠ [] := by
    intro hnil
    have hlen := length_put hinv
    rw [hnil, List.length_nil] at hlen
    omega
  obtain ⟨w', hw', hcase⟩ := h w hw
  refine .inr ⟨by omega, w', hw', ?_⟩
  rcases hcase with rfl | hnil | ⟨hle, hlt⟩
  · omega
  · exact absurd hnil hready
  · omega

/-- A step's clock is late when an earlier one was. -/
theorem late_of_step {s s' : State D} {l : Label D} (h : step env s l = some s')
    (hl : s'.late = false) : s.late = false := by
  cases l with
  | thread l =>
    obtain ⟨w, -, rfl⟩ := Option.map_eq_some_iff.mp (Option.ite_none_left_eq_some.mp h).2
    exact hl
  | request r => exact (Interrupt.handled_schedule (Option.ite_none_left_eq_some.mp h).2).late hl
  | oneTick rounds =>
    obtain ⟨t, ht, rfl⟩ := Option.map_eq_some_iff.mp (Option.ite_none_right_eq_some.mp h).2
    rw [(yieldIfAsked_same t).2.2.2.1] at hl
    exact (Interrupt.advances_tick s).late ((Interrupt.handled_drain ht).late hl)
  | idle rounds => exact (Interrupt.advances_idle (Option.ite_none_right_eq_some.mp h).2).late hl
  | setStatus st =>
    cases (Option.ite_none_left_eq_some.mp h).2
    exact hl

theorem late_of_run {s s' : State D} {ls : List (Label D)} (h : Runs.run (step env) s ls = some s')
    (hl : s'.late = false) : s.late = false := by
  induction ls generalizing s with
  | nil =>
    cases h
    exact hl
  | cons l ls ih =>
    obtain ⟨t, ht, hrest⟩ := Option.bind_eq_some_iff.mp h
    exact late_of_step ht (ih hrest)

/-- A run on time keeps the timer running and the waiting threads in time. -/
theorem run_inTime {s s' : State D} {ls : List (Label D)} (h : Runs.run (step env) s ls = some s')
    (hl : s'.late = false) (hinv : Inv s.world) (harmed : Armed s) :
    Reaches s.world s'.world ∧ Armed s' ∧ ∀ i bound, InTime i bound s → InTime i bound s' := by
  induction ls generalizing s with
  | nil =>
    cases h
    exact ⟨Reaches.refl _, harmed, fun _ _ => id⟩
  | cons l ls ih =>
    obtain ⟨t, ht, hrest⟩ := Option.bind_eq_some_iff.mp h
    have hreaches : Reaches s.world t.world := simulates env s l t ht
    obtain ⟨harmed', hslice⟩ := step_slice hinv harmed ht (late_of_run hrest hl)
    obtain ⟨hreaches', harmed'', hinTime⟩ := ih hrest (hreaches.inv hinv) harmed'
    exact ⟨hreaches.trans hreaches', harmed'',
      fun i bound hi => hinTime i bound (hslice.inTime hreaches.grows hinv hi)⟩

end Alarms

/-- A thread with `k` threads ahead of it on the ready list waits for at most `200 + 210 * k` ticks:
once the clock has passed them, it and the threads ahead were dispatched, in this order and before all
others. -/
theorem dispatched_in_time {D : Type} {env : Environment D} {ls ls' : List (Label D)} {s s' : State D}
    (hs : Runs.run (step env) (start env) ls = some s) (hs' : Runs.run (step env) s ls' = some s')
    (hlate : s'.late = false) {k : Nat} (hk : k < s.world.readyList.length)
    (htime : s.totalTicks + (200 + 210 * k) < s'.totalTicks) :
    s.world.dispatched ++ s.world.readyList.take (k + 1) <+: s'.world.dispatched := by
  obtain ⟨hreaches, harmed, -⟩ := run_inTime hs (late_of_run hs' hlate) Threads.inv_boot armed_start
  have hinv := hreaches.inv Threads.inv_boot
  obtain ⟨hreaches', harmed', hinTime⟩ := run_inTime hs' hlate hinv harmed
  have hinv' := hreaches'.inv hinv
  have hput := length_put hinv
  have hbefore : InTime (s.world.dispatched.length + k) (s.totalTicks + (200 + 210 * k)) s := by
    obtain ⟨w, hw, -, hle⟩ := harmed.alarm
    exact .inr ⟨by omega, w, hw, by omega⟩
  have hdone : s.world.dispatched.length + k < s'.world.dispatched.length := by
    rcases hinTime _ _ hbefore with hdone | ⟨hput', w, hw, hbound⟩
    · exact hdone
    · by_contra hnot
      obtain ⟨w', hw', hle, -⟩ := harmed'.alarm
      have hsame : w' = w := by
        rw [hw] at hw'
        exact (List.cons.inj hw').1.symm
      omega
  -- Both are prefixes of what was put on the ready list.
  have hprefix : s.world.dispatched ++ s.world.readyList.take (k + 1) <+: s'.world.put := by
    refine List.IsPrefix.trans ?_ hreaches'.grows.put
    rw [hinv.places.fifo]
    exact (List.prefix_append_right_inj _).mpr (List.take_prefix _ _)
  have hprefix' : s'.world.dispatched <+: s'.world.put := by
    rw [hinv'.places.fifo]
    exact List.prefix_append _ _
  refine List.prefix_of_prefix_length_le hprefix hprefix' ?_
  rw [List.length_append, List.length_take]
  omega

/-- No device but the timer, which rings every 100 ticks. -/
def timerOnly : Environment Empty where
  randomize := false
  random _ := 0
  signals d _ := d.elim
  requests d _ := d.elim

/-- The main thread forks one that does not yield either, and the clock runs on. -/
def twoThreads : List (Label Empty) := [.thread .newThread, .thread (.fork 1)]

def turns : List (Label Empty) :=
  List.replicate 10 (.oneTick 2) ++ .thread .resume ::
    (List.replicate 10 (.oneTick 2) ++ [.thread .resume, .oneTick 2])

theorem dispatched_in_time_timerOnly :
    ∃ s s' : State Empty, Runs.run (step timerOnly) (start timerOnly) twoThreads = some s ∧
      Runs.run (step timerOnly) s turns = some s' ∧
      s.world.dispatched ++ s.world.readyList.take 1 <+: s'.world.dispatched := by
  let s := (Runs.run (step timerOnly) (start timerOnly) twoThreads).get (by decide +kernel)
  let s' := (Runs.run (step timerOnly) s turns).get (by decide +kernel)
  have hs : Runs.run (step timerOnly) (start timerOnly) twoThreads = some s := (Option.some_get _).symm
  have hs' : Runs.run (step timerOnly) s turns = some s' := (Option.some_get _).symm
  have hlate : s'.late = false := by decide +kernel
  have hready : 0 < s.world.readyList.length := by decide +kernel
  have htime : s.totalTicks + (200 + 210 * ((0 : Nat) : Int)) < s'.totalTicks := by decide +kernel
  exact ⟨s, s', hs, hs', dispatched_in_time hs hs' hlate hready htime⟩

end Nachos.TimeSlices
