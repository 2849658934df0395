import Nachos.Machine.Interrupt

/-!
# The loop of the due interrupts

`while (CheckIfDue(FALSE))` calls handlers that may schedule interrupts and signal semaphores. A
handler is here a list of such acts, chosen in the state in which it is called. Interrupts are
off, so the two calls of `SetLevel` in `Semaphore::V` neither tick nor turn them on
(`semaphoreV_off`), and the acts amount to a response of `Machine.Interrupt` (`fire_respond`).

The clock stands still, so an interrupt that a handler schedules is later than the clock as long as
its time fits in an `int`. When `totalTicks + fromNow` overflows, the time is negative and
due at once, and a handler that schedules itself again keeps the loop going for ever
(`loopsEnd_iff`).
-/

namespace Nachos.Interrupts

open Threads (IntStatus wrap32 wrap32_of_range)

variable {W H : Type}

/-- What a handler may do: `Interrupt::Schedule`, `Semaphore::V`, which wakes a thread or counts,
a change of the device, and `Interrupt::YieldOnReturn`. -/
inductive Act (W H : Type)
  | schedule (r : Request H)
  | semaphoreV (wake : W → W)
  | device (f : W → W)
  | yieldOnReturn

namespace Interrupt

variable (run : H → Interrupt W H → Response W H) (rounds : Nat)

/-- `Semaphore::V`, between two calls of `SetLevel`. -/
def semaphoreV (wake : W → W) (s : Interrupt W H) : Option (Interrupt W H) :=
  let oldLevel := s.level
  (s.setLevel run .intOff rounds).bind fun s =>
    { s with world := wake s.world }.setLevel run oldLevel rounds

def perform (s : Interrupt W H) : Act W H → Option (Interrupt W H)
  | .schedule r => s.schedule r
  | .semaphoreV wake => s.semaphoreV run rounds wake
  | .device f => some { s with world := f s.world }
  | .yieldOnReturn => if s.inHandler then some { s with yieldOnReturn := true } else none

/-- The body of a handler. -/
def performAll : List (Act W H) → Interrupt W H → Option (Interrupt W H)
  | [], s => some s
  | a :: as, s => (s.perform run rounds a).bind (performAll as)

end Interrupt

/-! ### Acts and responses -/

namespace Act

def world : Act W H → W → W
  | .semaphoreV wake, w => wake w
  | .device f, w => f w
  | _, w => w

def request : Act W H → Option (Request H)
  | .schedule r => some r
  | _ => none

def yields : Act W H → Bool
  | .yieldOnReturn => true
  | _ => false

end Act

/-- The acts together. -/
def response (acts : List (Act W H)) (w : W) : Response W H where
  world := acts.foldl (fun w a => a.world w) w
  requests := acts.filterMap Act.request
  yieldOnReturn := acts.any Act.yields

def respond (handlers : H → Interrupt W H → List (Act W H)) (h : H) (s : Interrupt W H) :
    Response W H :=
  response (handlers h s) s.world

namespace Interrupt

variable {run : H → Interrupt W H → Response W H} {rounds : Nat} {s s' : Interrupt W H}

theorem setLevel_off (hlevel : s.level = .intOff) : s.setLevel run .intOff rounds = some s := by
  have hsame : { s with level := .intOff } = s := by
    rw [← hlevel]
  unfold setLevel
  rw [if_pos (Or.inl rfl), if_neg fun hon => by cases hon.1]
  exact congrArg some hsame

/-- With interrupts off, `V` does nothing but wake. -/
theorem semaphoreV_off (wake : W → W) (hlevel : s.level = .intOff) :
    s.semaphoreV run rounds wake = some { s with world := wake s.world } := by
  have hoff : setLevel run .intOff rounds { s with world := wake s.world } =
      some { s with world := wake s.world } := setLevel_off hlevel
  unfold semaphoreV
  dsimp only
  rw [setLevel_off hlevel, Option.bind_some]
  exact (congrArg (fun level => setLevel run level rounds _) hlevel).trans hoff

theorem schedule_answer (r : Request H) (R : Response W H) :
    (s.answer R).schedule r = (s.schedule r).map (answer R) := by
  unfold schedule answer
  split
  · rfl
  · rfl

theorem schedule_frame {r : Request H} (h : s.schedule r = some s') :
    s'.level = s.level ∧ s'.inHandler = s.inHandler ∧ s'.world = s.world := by
  unfold schedule at h
  split at h
  · cases h
    exact ⟨rfl, rfl, rfl⟩
  · cases h

/-- A handler's calls of `Schedule` can be made after its other acts. -/
theorem performAll_eq (acts : List (Act W H)) (hlevel : s.level = .intOff)
    (hin : s.inHandler = true) :
    performAll run rounds acts s =
      scheduleAll (response acts s.world).requests (s.answer (response acts s.world)) := by
  induction acts generalizing s with
  | nil => simp [performAll, response, scheduleAll, answer]
  | cons a acts ih =>
    cases a with
    | schedule r =>
      show (s.schedule r).bind (performAll run rounds acts) =
        ((s.answer (response acts s.world)).schedule r).bind
          (scheduleAll (response acts s.world).requests)
      rw [schedule_answer]
      cases ht : s.schedule r with
      | none => rfl
      | some t =>
        obtain ⟨hl, hi, hw⟩ := schedule_frame ht
        have hrest := ih (hl.trans hlevel) (hi.trans hin)
        rw [hw] at hrest
        exact hrest
    | semaphoreV wake =>
      rw [performAll, perform, semaphoreV_off wake hlevel, Option.bind_some]
      exact ih hlevel hin
    | device f => exact ih hlevel hin
    | yieldOnReturn =>
      have hrest : performAll run rounds acts { s with yieldOnReturn := true } =
          scheduleAll (response acts s.world).requests
            (answer (response acts s.world) { s with yieldOnReturn := true }) := ih hlevel hin
      have hyield : true =
          (s.yieldOnReturn || (response (Act.yieldOnReturn :: acts) s.world).yieldOnReturn) := by
        show true = (s.yieldOnReturn || true)
        rw [Bool.or_true]
      have hanswer : answer (response acts s.world) { s with yieldOnReturn := true } =
          answer (response (Act.yieldOnReturn :: acts) s.world) s :=
        congrArg (fun b => { s with world := (response acts s.world).world, yieldOnReturn := b }) hyield
      rw [performAll, perform, if_pos hin, Option.bind_some, hrest]
      exact congrArg (scheduleAll (response acts s.world).requests) hanswer

/-- The call of a handler, with interrupts off, performs its acts. -/
theorem fire_respond (handlers : H → Interrupt W H → List (Act W H)) (p : PendingInterrupt H)
    (hlevel : s.level = .intOff) :
    fire (respond handlers) p s =
      (performAll run rounds (handlers p.handler (s.enter p)) (s.enter p)).map fun t =>
        { t with status := s.status, inHandler := false } := by
  have hperform : performAll run rounds (handlers p.handler (s.enter p)) (s.enter p) = _ :=
    performAll_eq _ hlevel rfl
  rw [hperform]
  rfl

/-! ### The loops end -/

/-- The clock in the loop of `Idle`: `CheckIfDue(TRUE)` moves it to the first interrupt. -/
def idleClock (s : Interrupt W H) : Int :=
  match s.pending with
  | [] => s.totalTicks
  | p :: _ => max s.totalTicks p.when

theorem idleClock_cons {p : PendingInterrupt H} {rest : List (PendingInterrupt H)}
    (hpending : s.pending = p :: rest) : s.idleClock = max s.totalTicks p.when := by
  unfold idleClock
  rw [hpending]

theorem checkIfDue_idle_timely (hlevel : s.level = .intOff) (hlow : -2 ^ 31 ≤ s.idleClock)
    (htimely : Timely run s.idleClock) :
    ∃ b s', checkIfDue run true s = some (b, s') ∧
      (b = true → s'.level = .intOff ∧ s'.totalTicks = s.idleClock) := by
  unfold checkIfDue
  rw [if_neg fun hne => hne hlevel]
  split
  · exact ⟨false, s, rfl, fun hb => by cases hb⟩
  · rename_i p rest hpending
    have hclock := idleClock_cons hpending
    simp only [true_and]
    split
    · rename_i hlt
      have hwhen : s.idleClock = p.when := hclock.trans (max_eq_right (Int.le_of_lt hlt))
      rw [hwhen] at hlow htimely ⊢
      obtain ⟨b, t, ht, -⟩ := deliver_timely (s := s.advanceTo p.when) hpending (Int.le_refl p.when)
        hlow htimely
      have hhandled := handled_deliver (s := s.advanceTo p.when) hpending (Int.le_refl p.when) ht
      exact ⟨b, t, ht, fun _ => ⟨hhandled.level.trans hlevel, hhandled.totalTicks⟩⟩
    · rename_i hdue
      have hle : p.when ≤ s.totalTicks := Int.not_lt.mp hdue
      have hnow : s.idleClock = s.totalTicks := hclock.trans (max_eq_left hle)
      rw [hnow] at hlow htimely ⊢
      obtain ⟨b, t, ht, -⟩ := deliver_timely hpending hle hlow htimely
      have hhandled := handled_deliver hpending hle ht
      exact ⟨b, t, ht, fun _ => ⟨hhandled.level.trans hlevel, hhandled.totalTicks⟩⟩

/-- The loop of `Idle`, in any state with interrupts off. -/
theorem idle_timely (hlevel : s.level = .intOff) (hlow : -2 ^ 31 ≤ s.idleClock)
    (htimely : Timely run s.idleClock) : ∃ rounds s', idle run rounds s = some s' := by
  obtain ⟨b, t, ht, hb⟩ := checkIfDue_idle_timely (s := { s with status := .idleMode }) hlevel hlow
    htimely
  unfold idle
  rw [ht]
  cases b with
  | false => exact ⟨0, _, rfl⟩
  | true =>
    obtain ⟨hlevel', htotal⟩ := hb rfl
    have hlow' : -2 ^ 31 ≤ t.totalTicks := le_of_le_of_eq hlow htotal.symm
    obtain ⟨u, hu⟩ := drain_timely (Nat.lt_succ_self t.numDue) hlevel' hlow' (htotal ▸ htimely)
    exact ⟨t.numDue + 1, _, Option.map_eq_some_iff.mpr ⟨u, hu, rfl⟩⟩

end Interrupt

open Interrupt

section Delays

variable {handlers : H → Interrupt W H → List (Act W H)} {longest now : Int}

/-- The handlers call `Schedule` with `fromNow > 0`, and at most `longest`. -/
def Delays (handlers : H → Interrupt W H → List (Act W H)) (longest : Int) : Prop :=
  ∀ h s r, Act.schedule r ∈ handlers h s → 0 < r.fromNow ∧ r.fromNow ≤ longest

theorem Delays.timely (h : Delays handlers longest) (hfits : now + longest < 2 ^ 31) :
    Timely (respond handlers) now := by
  intro p s _ r hr
  obtain ⟨a, ha, hra⟩ := List.mem_filterMap.mp hr
  have hschedule : a = .schedule r := by
    cases a with
    | schedule r' => exact congrArg Act.schedule (Option.some.inj hra)
    | _ => cases hra
  have hdelay := h p s r (hschedule ▸ ha)
  exact ⟨hdelay.1, by omega⟩

end Delays

/-- The loop of `OneTick` ends, from every state whose clock after the tick is `now`, with any
handlers that schedule at most `longest` ticks ahead. -/
def OneTickEnds (now longest : Int) : Prop :=
  ∀ (W H : Type) (handlers : H → Interrupt W H → List (Act W H)), Delays handlers longest →
    ∀ s : Interrupt W H, s.tick.totalTicks = now →
      ∃ rounds s', oneTick (respond handlers) rounds s = some s'

/-- The same of `Idle`, which is called with interrupts off. -/
def IdleEnds (now longest : Int) : Prop :=
  ∀ (W H : Type) (handlers : H → Interrupt W H → List (Act W H)), Delays handlers longest →
    ∀ s : Interrupt W H, s.level = .intOff → s.idleClock = now →
      ∃ rounds s', idle (respond handlers) rounds s = some s'

theorem oneTickEnds_of_fits {now longest : Int} (hlow : -2 ^ 31 ≤ now)
    (hfits : now + longest < 2 ^ 31) : OneTickEnds now longest := by
  intro W H handlers hdelays s hnow
  subst hnow
  obtain ⟨s', hs'⟩ := oneTick_timely hlow (hdelays.timely hfits)
  exact ⟨_, s', hs'⟩

theorem idleEnds_of_fits {now longest : Int} (hlow : -2 ^ 31 ≤ now)
    (hfits : now + longest < 2 ^ 31) : IdleEnds now longest := by
  intro W H handlers hdelays s hlevel hnow
  subst hnow
  exact idle_timely hlevel hlow (hdelays.timely hfits)

/-! ### A time that overflows -/

/-- `Console::CheckCharAvail` with no character to read: it schedules the next poll. -/
def poll (fromNow : Int) (_ : Unit) (_ : Interrupt Unit Unit) : List (Act Unit Unit) :=
  [.schedule ⟨(), fromNow, .consoleReadInt⟩]

theorem delays_poll {fromNow longest : Int} (hpos : 0 < fromNow) (hle : fromNow ≤ longest) :
    Delays (poll fromNow) longest := by
  intro h s r hr
  cases List.mem_singleton.mp hr
  exact ⟨hpos, hle⟩

/-- Interrupts are off and the next poll is due. -/
def PollDue (now : Int) (s : Interrupt Unit Unit) : Prop :=
  s.level = .intOff ∧ s.totalTicks = now ∧
    ∃ p, s.pending = [p] ∧ p.when ≤ now ∧ p.type = .consoleReadInt

/-- When the time of the next poll has overflowed, it is due at once. -/
theorem pollDue_checkIfDue {now fromNow : Int} {s : Interrupt Unit Unit} (hs : PollDue now s)
    (hpos : 0 < fromNow) (hwrap : wrap32 (now + fromNow) ≤ now) (advanceClock : Bool) :
    ∃ s', s.checkIfDue (respond (poll fromNow)) advanceClock = some (true, s') ∧ PollDue now s' := by
  obtain ⟨hlevel, htotal, p, hpending, hdue, htype⟩ := hs
  subst htotal
  have hnot : ¬ s.totalTicks < p.when := Int.not_lt.mpr hdue
  have htimer : p.type ≠ .timerInt := by
    rw [htype]
    exact fun h => by cases h
  have hfire : ∃ s', fire (respond (poll fromNow)) p { s with pending := [] } = some s' ∧
      PollDue s.totalTicks s' := by
    refine ⟨_, Option.map_eq_some_iff.mpr
      ⟨_, Option.bind_eq_some_iff.mpr ⟨_, if_pos hpos, rfl⟩, rfl⟩, hlevel, rfl, ?_⟩
    exact ⟨_, rfl, hwrap, rfl⟩
  obtain ⟨t, ht, hdue'⟩ := hfire
  refine ⟨t, ?_, hdue'⟩
  unfold checkIfDue deliver
  rw [if_neg fun hne => hne hlevel, hpending]
  dsimp only
  rw [if_neg fun h => hnot h.2, if_neg hnot, if_neg fun h => htimer h.2.1, ht]
  rfl

theorem drain_pollDue {now fromNow : Int} {s : Interrupt Unit Unit} (hs : PollDue now s)
    (hpos : 0 < fromNow) (hwrap : wrap32 (now + fromNow) ≤ now) (rounds : Nat) :
    drain (respond (poll fromNow)) rounds s = none := by
  induction rounds generalizing s with
  | zero => rfl
  | succ rounds ih =>
    obtain ⟨s', hcheck, hs'⟩ := pollDue_checkIfDue hs hpos hwrap false
    rw [drain, hcheck]
    exact ih hs'

/-- A user program runs, and the poll is due after the tick. -/
def ticking (now : Int) : Interrupt Unit Unit where
  world := ()
  level := .intOn
  status := .userMode
  pending := [⟨0, (), now, .consoleReadInt⟩]
  totalTicks := now - userTick
  scheduled := 1

/-- Nothing runs, and the poll is due. -/
def idling (now : Int) : Interrupt Unit Unit where
  world := ()
  pending := [⟨0, (), now, .consoleReadInt⟩]
  totalTicks := now
  scheduled := 1

theorem ticking_clock {now : Int} (hlow : -2 ^ 31 ≤ now) (hhigh : now < 2 ^ 31) :
    (ticking now).tick.totalTicks = now := by
  show wrap32 (now - 1 + 1) = now
  have hnow : now - 1 + 1 = now := by omega
  rw [hnow, wrap32_of_range hlow hhigh]

theorem oneTick_ticking {now fromNow : Int} (hlow : -2 ^ 31 ≤ now) (hhigh : now < 2 ^ 31)
    (hpos : 0 < fromNow) (hwrap : wrap32 (now + fromNow) ≤ now) (rounds : Nat) :
    oneTick (respond (poll fromNow)) rounds (ticking now) = none := by
  have hdue : PollDue now { (ticking now).tick with level := .intOff } :=
    ⟨rfl, ticking_clock hlow hhigh, _, rfl, Int.le_refl now, rfl⟩
  rw [oneTick, drain_pollDue hdue hpos hwrap rounds]
  rfl

theorem idle_idling {now fromNow : Int} (hpos : 0 < fromNow)
    (hwrap : wrap32 (now + fromNow) ≤ now) (rounds : Nat) :
    idle (respond (poll fromNow)) rounds (idling now) = none := by
  have hdue : PollDue now { idling now with status := .idleMode } :=
    ⟨rfl, rfl, _, rfl, Int.le_refl now, rfl⟩
  obtain ⟨s', hcheck, hs'⟩ := pollDue_checkIfDue hdue hpos hwrap true
  rw [idle, hcheck]
  show (drain (respond (poll fromNow)) rounds s').map _ = none
  rw [drain_pollDue hs' hpos hwrap rounds]
  rfl

/-- Exactly when the loops of `OneTick` and of `Idle` end at a clock, from every state and with any
handlers that schedule at most `longest` ticks ahead: the times must fit in an `int`. -/
theorem loopsEnd_iff {now longest : Int} (hnow : -2 ^ 31 ≤ now ∧ now < 2 ^ 31)
    (hlongest : 0 < longest ∧ longest < 2 ^ 31) :
    (OneTickEnds now longest ↔ now + longest < 2 ^ 31) ∧
    (IdleEnds now longest ↔ now + longest < 2 ^ 31) := by
  have hwrap : ¬ now + longest < 2 ^ 31 → wrap32 (now + longest) ≤ now := by
    intro hover
    unfold wrap32
    omega
  have hdelays : Delays (poll longest) longest := delays_poll hlongest.1 (Int.le_refl longest)
  refine ⟨⟨fun hends => ?_, oneTickEnds_of_fits hnow.1⟩,
    ⟨fun hends => ?_, idleEnds_of_fits hnow.1⟩⟩
  · by_contra hover
    obtain ⟨rounds, s', hs'⟩ := hends Unit Unit (poll longest) hdelays (ticking now)
      (ticking_clock hnow.1 hnow.2)
    rw [oneTick_ticking hnow.1 hnow.2 hlongest.1 (hwrap hover)] at hs'
    cases hs'
  · by_contra hover
    obtain ⟨rounds, s', hs'⟩ := hends Unit Unit (poll longest) hdelays (idling now) rfl
      (max_self now)
    rw [idle_idling hlongest.1 (hwrap hover)] at hs'
    cases hs'

/-- A poll every 100 ticks, at time 500. -/
theorem loopsEnd_iff_poll : OneTickEnds 500 100 ∧ IdleEnds 500 100 :=
  ⟨(loopsEnd_iff (by decide) (by decide)).1.mpr (by decide),
    (loopsEnd_iff (by decide) (by decide)).2.mpr (by decide)⟩

/-- At the last time that fits, the next poll is scheduled for a negative time, and the loop goes on. -/
theorem not_loopsEnd :
    Delays (poll 100) 100 ∧ (∀ rounds,
      oneTick (respond (poll 100)) rounds (ticking (2 ^ 31 - 1)) = none ∧
      idle (respond (poll 100)) rounds (idling (2 ^ 31 - 1)) = none) :=
  ⟨delays_poll (by decide) (by decide), fun rounds =>
    ⟨oneTick_ticking (by decide) (by decide) (by decide) (by decide) rounds,
      idle_idling (by decide) (by decide) rounds⟩⟩

end Nachos.Interrupts
