import Nachos.Devices.LineBlock
import Nachos.Lib.Bytes

/-!
# Console input

`SynchConsole::Read` (`threads/synchcons.cc`) over the keyboard of `machine/console.cc`. The
keyboard has room for one character, and EOF stands for "none" there. `synchReadAvail` counts the
polls that have found a character, and a typed byte that equals EOF is counted too, so its value
says little about the buffer: a reader that finds EOF waits again.

* `inputDelivered`: in every run whose calls ask for at least one byte, the characters that the calls
  consume, in the order in which they got `RLineBlock`, are a beginning of the typed stream without
  the bytes that equal EOF; and each call returns what `Result.Correct` says.

The invariant `Reading` says nothing about the value of `synchReadAvail`.
-/

namespace Nachos.Devices.SynchRead

open Function (update update_of_ne update_self)
open Threads (SemId Tid)

/-! ## The code -/

/-- The semaphores of `Read`. -/
inductive Sem
  | rLineBlock
  | synchReadAvail
  deriving DecidableEq

instance : Fintype Sem := ⟨{.rLineBlock, .synchReadAvail}, fun x => by cases x <;> decide⟩

/-- `(char) EOF`. -/
def eof : BitVec 8 := 0xff

/-- The characters that end a line: newline and control-A. -/
def ends (ch : BitVec 8) : Bool := ch = 0x0a ∨ ch = 0x01

/-- A call that has got `RLineBlock`: its argument and its variables. -/
structure Call where
  numBytes : Int
  into : List (BitVec 8)
  loop : Nat
  /-- History: the characters it has consumed. -/
  consumed : List (BitVec 8)

/-- A call that has returned. -/
structure Result where
  thread : Tid
  numBytes : Int
  consumed : List (BitVec 8)
  into : List (BitVec 8)
  ret : Int

structure Console where
  incoming : BitVec 8
  /-- The ASSERT of the system call `Read` has failed. -/
  aborted : Bool
  /-- History: the bytes that the polls have read. -/
  typed : List (BitVec 8)
  /-- History: the calls that have got `RLineBlock`, in order. -/
  obtained : List (Tid × Int)
  /-- History: the calls that have returned. -/
  finished : List Result

/-- The keyboard of `new Console`. -/
def Console.new : Console := ⟨eof, false, [], [], []⟩

inductive Point
  | outside
  /-- In `RLineBlock->P()`; `ch` is what the variable holds before its first assignment. -/
  | inLine (numBytes : Int) (ch : BitVec 8)
  /-- In `synchReadAvail->P()`. -/
  | inAvail (c : Call)

inductive Act
  | read (numBytes : Int) (ch : BitVec 8)
  /-- The call goes on after a `P`. -/
  | goOn

/-- The state of the call after its buffer was cleared. -/
def Call.start (numBytes : Int) : Call := ⟨numBytes, List.replicate numBytes.toNat 0, 0, []⟩

/-- `into[loop] = ch; loop++`. -/
def Call.store (c : Call) (ch : BitVec 8) : Call :=
  { c with into := c.into.set c.loop ch, loop := c.loop + 1, consumed := c.consumed ++ [ch] }

/-- `eolncond = TRUE`. -/
def Call.eoln (c : Call) (ch : BitVec 8) : Call := { c with consumed := c.consumed ++ [ch] }

/-- What the call returns, and its buffer. -/
def Call.result (c : Call) (t : Tid) (ch : BitVec 8) : Result where
  thread := t
  numBytes := c.numBytes
  consumed := c.consumed
  into := c.into
  ret := if ch = 0x01 then -1 else c.loop

/-- The code after the loop. -/
def Console.leave (d : Console) (t : Tid) (c : Call) (ch : BitVec 8) : Move Sem Point Console :=
  ⟨{ d with finished := d.finished ++ [c.result t ch] }, .v .rLineBlock, .outside⟩

/-- The test of the `while` loop when `eolncond` is FALSE. -/
def Console.loopTest (d : Console) (t : Tid) (c : Call) (ch : BitVec 8) : Move Sem Point Console :=
  if c.loop < c.numBytes then ⟨d, .p .synchReadAvail, .inAvail c⟩ else d.leave t c ch

/-- The body of the `while` loop from `GetChar` on. -/
def Console.body (d : Console) (t : Tid) (c : Call) : Move Sem Point Console :=
  let ch := d.incoming
  let d' := { d with incoming := eof }
  if ch = eof then ⟨d', .p .synchReadAvail, .inAvail c⟩
  else if ends ch then d'.leave t (c.eoln ch) ch
  else d'.loopTest t (c.store ch) ch

def next : Act → Tid → Point → Console → Option (Move Sem Point Console)
  | .read numBytes ch, _, .outside, d => some ⟨d, .p .rLineBlock, .inLine numBytes ch⟩
  | .goOn, t, .inLine numBytes ch, d => some (d.loopTest t (.start numBytes) ch)
  | .goOn, t, .inAvail c, d => some (d.body t c)
  | _, _, _, _ => none

/-- What a poll finds on the keyboard's file. -/
inductive Poll
  | nothing
  | char (c : BitVec 8)
  | endOfFile

/-- `Console::CheckCharAvail`, which calls `SynchReadFunct` when it has read a character. -/
def irq : Poll → Console → Option (Console × Option Sem)
  | poll, d =>
    if d.incoming ≠ eof then some (d, none)
    else
      match poll with
      | .nothing => some (d, none)
      | .char c => some ({ d with incoming := c, typed := d.typed ++ [c] }, some .synchReadAvail)
      | .endOfFile => some ({ d with aborted := true }, none)

def Point.isOutside : Point → Bool
  | .outside => true
  | _ => false

def Point.awaits : Point → Option Sem
  | .outside => none
  | .inLine _ _ => some .rLineBlock
  | .inAvail _ => some .synchReadAvail

/-- A call that gets `RLineBlock` is recorded. -/
def taken : Sem → Tid → Point → Console → Console
  | .rLineBlock, t, .inLine numBytes _, d => { d with obtained := d.obtained ++ [(t, numBytes)] }
  | _, _, _, d => d

theorem awaits_loopTest (d : Console) (t : Tid) (c : Call) (ch : BitVec 8) :
    (d.loopTest t c ch).point.awaits = (d.loopTest t c ch).op.awaits := by
  unfold Console.loopTest
  split
  · rfl
  · rfl

theorem awaits_body (d : Console) (t : Tid) (c : Call) :
    (d.body t c).point.awaits = (d.body t c).op.awaits := by
  unfold Console.body
  dsimp only
  split
  · rfl
  · split
    · rfl
    · exact awaits_loopTest ..

/-- The threads that call `Read`. -/
def client : Client Sem Point Console Act Poll where
  outside := Point.isOutside
  awaits := Point.awaits
  stopped := Console.aborted
  next := next
  taken := taken
  irq := irq
  awaits_next x t pt d m h := by
    cases x with
    | read numBytes ch =>
      cases pt with
      | outside =>
        cases h
        rfl
      | _ => cases h
    | goOn =>
      cases pt with
      | outside => cases h
      | inLine numBytes ch =>
        cases h
        exact awaits_loopTest ..
      | inAvail c =>
        cases h
        exact awaits_body ..

/-! ## What a call does -/

/-- The call consumed some characters that do not end a line, and then either filled its buffer
with them or met one that does; the buffer has them and zeros; and it returns their number, or -1
after control-A. -/
inductive Result.Correct (r : Result) : Prop
  | full (consumed : ∀ c ∈ r.consumed, ends c = false) (length : r.consumed.length = r.numBytes)
    (into : r.into = r.consumed) (ret : r.ret = r.consumed.length)
  | line (stored : List (BitVec 8)) (ch : BitVec 8) (consumed : r.consumed = stored ++ [ch])
    (plain : ∀ c ∈ stored, ends c = false) (last : ends ch = true)
    (length : stored.length < r.numBytes)
    (into : r.into = stored ++ List.replicate (r.numBytes.toNat - stored.length) 0)
    (ret : r.ret = if ch = 0x01 then -1 else (stored.length : Int))

/-- What the variables hold at the head of the loop. -/
structure Filled (c : Call) : Prop where
  loop : c.loop = c.consumed.length
  bound : c.loop ≤ c.numBytes
  into : c.into = c.consumed ++ List.replicate (c.numBytes.toNat - c.loop) 0
  plain : ∀ ch ∈ c.consumed, ends ch = false

theorem filled_start {numBytes : Int} (h : 1 ≤ numBytes) : Filled (.start numBytes) := by
  refine ⟨rfl, ?_, ?_, ?_⟩
  · show ((0 : Nat) : Int) ≤ numBytes
    omega
  · simp [Call.start]
  · simp [Call.start]

variable {c : Call} {ch : BitVec 8}

theorem Filled.store (h : Filled c) (hlt : c.loop < c.numBytes) (hch : ends ch = false) :
    Filled (c.store ch) := by
  refine ⟨?_, ?_, ?_, ?_⟩
  · simp [Call.store, h.loop]
  · simp only [Call.store]
    omega
  · obtain ⟨m, hm⟩ : ∃ m, c.numBytes.toNat - c.loop = m + 1 :=
      Nat.exists_eq_add_of_lt (show 0 < c.numBytes.toNat - c.loop by omega) |>.imp fun m h => by omega
    have hrest : c.numBytes.toNat - (c.loop + 1) = m := by omega
    simp only [Call.store]
    rw [h.into, hm, hrest, List.replicate_succ, h.loop, List.set_append_right _ _ (Nat.le_refl _)]
    simp
  · intro x hx
    rcases List.mem_append.mp hx with hold | hnew
    · exact h.plain x hold
    · rw [List.mem_singleton.mp hnew]
      exact hch

/-- The buffer is full. -/
theorem Filled.full (h : Filled c) (hge : ¬ c.loop < c.numBytes) (hch : ends ch = false) (t : Tid) :
    (c.result t ch).Correct := by
  have hbound := h.bound
  have hctrl : ch ≠ 0x01 := by
    rintro rfl
    cases hch
  refine .full h.plain ?_ ?_ ?_
  · show (c.consumed.length : Int) = c.numBytes
    rw [← h.loop]
    omega
  · show c.into = c.consumed
    rw [h.into, show c.numBytes.toNat - c.loop = 0 by omega]
    simp
  · show (if ch = 0x01 then (-1 : Int) else c.loop) = c.consumed.length
    rw [if_neg hctrl, h.loop]

/-- The line ends. -/
theorem Filled.line (h : Filled c) (hlt : c.loop < c.numBytes) (hch : ends ch = true) (t : Tid) :
    ((c.eoln ch).result t ch).Correct := by
  refine .line c.consumed ch rfl h.plain hch ?_ ?_ ?_
  · show (c.consumed.length : Int) < c.numBytes
    rw [← h.loop]
    exact hlt
  · show c.into = c.consumed ++ List.replicate (c.numBytes.toNat - c.consumed.length) 0
    rw [← h.loop]
    exact h.into
  · show (if ch = 0x01 then (-1 : Int) else c.loop) = _
    rw [h.loop]

/-! ## The invariant -/

/-- Where the thread that has the line is in its call, and what it has consumed. -/
inductive Consumes (a : Shared Sem Point Console) (t : Tid) (numBytes : Int) :
    List (BitVec 8) → Prop
  | start (ch : BitVec 8) (point : a.point t = .inLine numBytes ch) (waiting : a.waiting t = false) :
    Consumes a t numBytes []
  | char (c : Call) (point : a.point t = .inAvail c) (hn : c.numBytes = numBytes) (filled : Filled c)
    (more : c.loop < c.numBytes) : Consumes a t numBytes c.consumed

/-- The call in progress, if there is one, has consumed the characters. -/
def InProgress (a : Shared Sem Point Console) : Option (Tid × Int) → List (BitVec 8) → Prop
  | none, part => part = []
  | some (t, numBytes), part => Consumes a t numBytes part

/-- The character in the keyboard's buffer. -/
def Console.buffered (d : Console) : List (BitVec 8) := [d.incoming].filter (· ≠ eof)

/-- The call of a result. -/
def Result.call (r : Result) : Tid × Int := (r.thread, r.numBytes)

/-- The invariant: `cur` is the call in progress. -/
structure Reading (a : Shared Sem Point Console) (cur : Option (Tid × Int)) : Prop where
  held : Held client .rLineBlock a (cur.map Prod.fst)
  asked : ∀ t numBytes ch, a.point t = .inLine numBytes ch → 1 ≤ numBytes
  obtained : a.device.obtained = a.device.finished.map Result.call ++ cur.toList
  correct : ∀ r ∈ a.device.finished, r.Correct
  stream : ∃ part, a.device.finished.flatMap Result.consumed ++ part ++ a.device.buffered =
      a.device.typed.filter (· ≠ eof) ∧
    InProgress a cur part

variable {a a' : Shared Sem Point Console} {cur : Option (Tid × Int)} {t : Tid} {numBytes : Int}
  {part : List (BitVec 8)}

/-- Another thread's steps. -/
theorem Consumes.congr (h : Consumes a t numBytes part) (hp : a'.point t = a.point t)
    (hw : a'.waiting t = a.waiting t) : Consumes a' t numBytes part := by
  cases h with
  | start ch h₁ h₂ => exact .start ch (hp.trans h₁) (hw.trans h₂)
  | char c h₁ hn hf hm => exact .char c (hp.trans h₁) hn hf hm

/-- The thread that has the line is in the client, and does not wait for the line. -/
theorem Consumes.not_lacks (h : Consumes a t numBytes part) : ¬ Lacks client .rLineBlock a t := by
  rintro (hout | ⟨hawaits, hwait⟩)
  · cases h with
    | start ch hp =>
      rw [hp] at hout
      cases hout
    | char c hp =>
      rw [hp] at hout
      cases hout
  · cases h with
    | start ch _ hw =>
      rw [hw] at hwait
      cases hwait
    | char c hp =>
      rw [hp] at hawaits
      cases hawaits

theorem Reading.consumes (h : Reading a (some (t, numBytes))) :
    ∃ part, a.device.finished.flatMap Result.consumed ++ part ++ a.device.buffered =
      a.device.typed.filter (· ≠ eof) ∧ Consumes a t numBytes part :=
  h.stream

/-- A thread that does not lack the line is the one of the call in progress. -/
theorem Reading.eq_of_not_lacks (h : Reading a cur) (ht : ¬ Lacks client .rLineBlock a t) :
    ∃ numBytes, cur = some (t, numBytes) := by
  have hholder : cur.map Prod.fst = some t := by
    by_contra hne
    exact ht (h.held.others t hne)
  obtain ⟨x, hx, rfl⟩ := Option.map_eq_some_iff.mp hholder
  exact ⟨x.2, hx⟩

/-- The points of the threads after one of them has moved. -/
theorem Reading.asked_update (h : Reading a cur) (pt : Point)
    (hpt : ∀ numBytes ch, pt = .inLine numBytes ch → 1 ≤ numBytes) (u : Tid) (n : Int)
    (ch : BitVec 8) (hu : update a.point t pt u = .inLine n ch) : 1 ≤ n := by
  by_cases hut : u = t
  · subst hut
    rw [update_self] at hu
    exact hpt n ch hu
  · rw [update_of_ne hut] at hu
    exact h.asked u n ch hu

/-! ## The steps -/

/-- A thread tests the value of `RLineBlock`, for the first time or again. -/
theorem Reading.ask (h : Reading a cur) (ht : Lacks client .rLineBlock a t) (hn : 1 ≤ numBytes)
    (ch : BitVec 8) :
    ∃ cur', Reading ((a.goto t (.inLine numBytes ch) a.device).test client t .rLineBlock) cur' := by
  have hasked := h.asked_update (t := t) (.inLine numBytes ch) (by rintro _ _ ⟨⟩; exact hn)
  cases cur with
  | none =>
    obtain ⟨htest, hheld⟩ := h.held.ask_free (t := t) (.inLine numBytes ch) a.device
    obtain ⟨part, hstream, rfl⟩ := h.stream
    rw [htest] at hheld ⊢
    refine ⟨some (t, numBytes), hheld, hasked, ?_, h.correct, [], hstream,
      .start ch (update_self ..) (update_self ..)⟩
    show a.device.obtained ++ [(t, numBytes)] = _
    rw [h.obtained, Option.toList_none, List.append_nil]
    rfl
  | some x =>
    obtain ⟨u, n⟩ := x
    obtain ⟨htest, hheld⟩ := Held.ask_taken (t := t) h.held (.inLine numBytes ch) rfl a.device
    obtain ⟨part, hstream, hconsumes⟩ := h.consumes
    have hut : u ≠ t := by
      rintro rfl
      exact hconsumes.not_lacks ht
    rw [htest] at hheld ⊢
    exact ⟨some (u, n), hheld, hasked, h.obtained, h.correct, part, hstream,
      hconsumes.congr (update_of_ne hut _ _) (update_of_ne hut _ _)⟩

/-- The thread that has the line tests the value of `synchReadAvail`, whatever that is. -/
theorem Reading.await (h : Reading a (some (t, numBytes))) {d : Console}
    (hobtained : d.obtained = a.device.obtained) (hfinished : d.finished = a.device.finished)
    (hc : c.numBytes = numBytes) (hf : Filled c) (hm : c.loop < c.numBytes)
    (hstream : d.finished.flatMap Result.consumed ++ c.consumed ++ d.buffered =
      d.typed.filter (· ≠ eof)) :
    Reading ((a.goto t (.inAvail c) d).test client t .synchReadAvail) (some (t, numBytes)) := by
  have hasked := h.asked_update (t := t) (.inAvail c) (by rintro _ _ ⟨⟩)
  have hne : ∀ u, some t ≠ some u → u ≠ t := fun u hu heq => hu (congrArg some heq.symm)
  have hread : ∀ value waiting, value .rLineBlock = a.value .rLineBlock →
      (∀ u ≠ t, waiting u = a.waiting u) →
      Reading ⟨value, waiting, update a.point t (.inAvail c), d⟩ (some (t, numBytes)) := by
    intro value waiting hv hw
    refine ⟨?_, hasked, ?_, ?_, _, hstream, .char c (update_self ..) hc hf hm⟩
    · exact h.held.congr hv (fun u hu => update_of_ne (hne u hu) _ _) fun u hu => hw u (hne u hu)
    · show d.obtained = d.finished.map Result.call ++ _
      rw [hobtained, hfinished]
      exact h.obtained
    · show ∀ r ∈ d.finished, r.Correct
      rw [hfinished]
      exact h.correct
  unfold Shared.test
  split
  · exact hread _ _ rfl fun u hu => update_of_ne hu _ _
  · exact hread _ _ rfl fun u hu => update_of_ne hu _ _

/-- The thread that has the line returns. -/
theorem Reading.leave (h : Reading a (some (t, numBytes))) {d : Console}
    (hobtained : d.obtained = a.device.obtained) (hfinished : d.finished = a.device.finished)
    (hc : c.numBytes = numBytes) (hcorrect : (c.result t ch).Correct)
    (hstream : d.finished.flatMap Result.consumed ++ c.consumed ++ d.buffered =
      d.typed.filter (· ≠ eof)) :
    Reading (a.move client t (d.leave t c ch)) none := by
  refine ⟨h.held.give rfl _, h.asked_update _ (by rintro _ _ ⟨⟩), ?_, ?_, [], ?_, rfl⟩
  · show d.obtained = (d.finished ++ [c.result t ch]).map Result.call ++ []
    rw [hobtained, hfinished, h.obtained, ← hc]
    simp [Result.call, Call.result]
  · intro r hr
    rcases List.mem_append.mp hr with hold | hnew
    · exact h.correct r (by rwa [← hfinished])
    · rw [List.mem_singleton.mp hnew]
      exact hcorrect
  · show (d.finished ++ [c.result t ch]).flatMap Result.consumed ++ [] ++ d.buffered =
      d.typed.filter (· ≠ eof)
    rw [List.flatMap_append, List.append_nil]
    simpa [Call.result] using hstream

/-- The test of the `while` loop, after a character that does not end the line. -/
theorem Reading.loopTest (h : Reading a (some (t, numBytes))) {d : Console}
    (hobtained : d.obtained = a.device.obtained) (hfinished : d.finished = a.device.finished)
    (hc : c.numBytes = numBytes) (hf : Filled c) (hch : c.loop < c.numBytes ∨ ends ch = false)
    (hstream : d.finished.flatMap Result.consumed ++ c.consumed ++ d.buffered =
      d.typed.filter (· ≠ eof)) :
    ∃ cur', Reading (a.move client t (d.loopTest t c ch)) cur' := by
  unfold Console.loopTest
  split
  · rename_i hm
    exact ⟨_, h.await hobtained hfinished hc hf hm hstream⟩
  · rename_i hm
    exact ⟨none, h.leave hobtained hfinished hc (hf.full hm (hch.resolve_left hm) t) hstream⟩

theorem buffered_of_ne (d : Console) (h : d.incoming ≠ eof) : d.buffered = [d.incoming] := by
  unfold Console.buffered
  rw [List.filter_cons_of_pos (by simpa using h), List.filter_nil]

theorem buffered_of_eq {d : Console} (h : d.incoming = eof) : d.buffered = [] := by
  unfold Console.buffered
  rw [List.filter_cons_of_neg (by simpa using h), List.filter_nil]

/-- `GetChar`, and what the loop does with the character. -/
theorem Reading.body (h : Reading a (some (t, numBytes))) (hc : c.numBytes = numBytes)
    (hf : Filled c) (hm : c.loop < c.numBytes)
    (hstream : a.device.finished.flatMap Result.consumed ++ c.consumed ++ a.device.buffered =
      a.device.typed.filter (· ≠ eof)) :
    ∃ cur', Reading (a.move client t (a.device.body t c)) cur' := by
  let d : Console := { a.device with incoming := eof }
  have hempty : d.buffered = [] := buffered_of_eq rfl
  unfold Console.body
  dsimp only
  by_cases heof : a.device.incoming = eof
  · -- nothing was there: the same characters, one unit less
    rw [if_pos heof]
    refine ⟨_, h.await (d := d) rfl rfl hc hf hm ?_⟩
    rw [hempty, ← buffered_of_eq heof]
    exact hstream
  · rw [if_neg heof]
    rw [buffered_of_ne _ heof, List.append_assoc] at hstream
    have hconsumed : d.finished.flatMap Result.consumed ++ (c.consumed ++ [a.device.incoming]) ++
        d.buffered = d.typed.filter (· ≠ eof) := by
      rw [hempty, List.append_nil]
      exact hstream
    by_cases hends : ends a.device.incoming = true
    · rw [if_pos hends]
      exact ⟨none, h.leave (d := d) (c := c.eoln a.device.incoming) rfl rfl hc (hf.line hm hends t)
        hconsumed⟩
    · rw [if_neg hends]
      have hplain : ends a.device.incoming = false := Bool.eq_false_iff.mpr hends
      exact h.loopTest (d := d) (c := c.store a.device.incoming) rfl rfl hc (hf.store hm hplain)
        (Or.inr hplain) hconsumed

/-- A thread goes on after a `P`: it is the one that has the line. -/
theorem Reading.goOn (h : Reading a cur) (hw : a.waiting t = false) {m : Move Sem Point Console}
    (hm : next .goOn t (a.point t) a.device = some m) : ∃ cur', Reading (a.move client t m) cur' := by
  have hlacks : ¬ Lacks client .rLineBlock a t := by
    rintro (hout | ⟨-, hwait⟩)
    · cases hp : a.point t with
      | outside =>
        rw [hp] at hm
        cases hm
      | _ =>
        rw [hp] at hout
        cases hout
    · rw [hw] at hwait
      cases hwait
  obtain ⟨numBytes, rfl⟩ := h.eq_of_not_lacks hlacks
  obtain ⟨part, hstream, hconsumes⟩ := h.consumes
  cases hconsumes with
  | start ch hp =>
    rw [hp] at hm
    cases hm
    have hn := h.asked t numBytes ch hp
    exact h.loopTest (c := .start numBytes) rfl rfl rfl (filled_start hn) (Or.inl hn) hstream
  | char c hp hc hf hmore =>
    rw [hp] at hm
    cases hm
    exact h.body hc hf hmore hstream

/-- A thread that waits for a character is dispatched. -/
theorem Reading.retest (h : Reading a cur) (hp : a.point t = .inAvail c) :
    Reading (a.test client t .synchReadAvail) cur := by
  have hlacks : ¬ Lacks client .rLineBlock a t := by
    rintro (hout | ⟨hawaits, -⟩)
    · rw [hp] at hout
      cases hout
    · rw [hp] at hawaits
      cases hawaits
  obtain ⟨numBytes, rfl⟩ := h.eq_of_not_lacks hlacks
  obtain ⟨part, hstream, hconsumes⟩ := h.consumes
  cases hconsumes with
  | start ch hp' =>
    rw [hp] at hp'
    cases hp'
  | char c' hp' hc hf hmore =>
    have hagain := h.await (d := a.device) rfl rfl hc hf hmore hstream
    rwa [← hp', Shared.goto_self] at hagain

/-- Steps of the keyboard. -/
theorem Reading.device (h : Reading a cur) {d : Console} {r : Option Sem} (hr : r ≠ some .rLineBlock)
    (hobtained : d.obtained = a.device.obtained) (hfinished : d.finished = a.device.finished)
    (hstream : ∀ xs, xs ++ a.device.buffered = a.device.typed.filter (· ≠ eof) →
      xs ++ d.buffered = d.typed.filter (· ≠ eof)) : Reading (a.interrupt d r) cur := by
  obtain ⟨part, hpart, hprogress⟩ := h.stream
  have hread : ∀ value, value .rLineBlock = a.value .rLineBlock →
      Reading ⟨value, a.waiting, a.point, d⟩ cur := by
    intro value hv
    refine ⟨h.held.congr hv (fun _ _ => rfl) fun _ _ => rfl, h.asked, ?_, ?_, part, ?_, ?_⟩
    · show d.obtained = d.finished.map Result.call ++ _
      rw [hobtained, hfinished]
      exact h.obtained
    · show ∀ r ∈ d.finished, r.Correct
      rw [hfinished]
      exact h.correct
    · show d.finished.flatMap Result.consumed ++ part ++ d.buffered = d.typed.filter (· ≠ eof)
      rw [hfinished]
      exact hstream _ hpart
    · cases cur with
      | none => exact hprogress
      | some x => exact Consumes.congr hprogress rfl rfl
  cases r with
  | none => exact hread a.value rfl
  | some r =>
    refine hread _ (update_of_ne ?_ _ _)
    rintro rfl
    exact hr rfl

/-- A poll. -/
theorem Reading.poll (h : Reading a cur) {poll : Poll} {x : Console × Option Sem}
    (hx : irq poll a.device = some x) : Reading (a.interrupt x.1 x.2) cur := by
  by_cases heof : a.device.incoming = eof
  · have hx' := (if_neg (not_not.mpr heof)).symm.trans hx
    cases poll with
    | nothing =>
      cases hx'
      exact h.device (by simp) rfl rfl fun _ => id
    | char c =>
      cases hx'
      refine h.device (by simp) rfl rfl fun xs hxs => ?_
      rw [buffered_of_eq heof, List.append_nil] at hxs
      rw [hxs]
      exact (List.filter_append ..).symm
    | endOfFile =>
      cases hx'
      exact h.device (by simp) rfl rfl fun _ => id
  · cases (if_pos heof).symm.trans hx
    exact h.device (by simp) rfl rfl fun _ => id

/-- A call asks for at least one byte. -/
def Act.asks : Act → Prop
  | .read numBytes _ => 1 ≤ numBytes
  | .goOn => True

theorem reading_step {l : SharedLabel Act Poll} (h : Reading a cur)
    (hasks : ∀ t x, l = .act t x → x.asks) (hs : astep client a l = some a') :
    ∃ cur', Reading a' cur' := by
  cases l with
  | act t x =>
    obtain ⟨⟨-, hw⟩, hs⟩ := Option.ite_none_right_eq_some.mp hs
    obtain ⟨m, hm, rfl⟩ := Option.map_eq_some_iff.mp hs
    cases x with
    | read numBytes ch =>
      cases hp : a.point t with
      | outside =>
        rw [hp] at hm
        cases hm
        exact h.ask (Or.inl (by rw [hp]; rfl)) (hasks t _ rfl) ch
      | _ =>
        rw [hp] at hm
        cases hm
    | goOn => exact h.goOn hw hm
  | retest t =>
    obtain ⟨⟨-, hw⟩, hs⟩ := Option.ite_none_right_eq_some.mp hs
    obtain ⟨r, hr, rfl⟩ := Option.map_eq_some_iff.mp hs
    cases hp : a.point t with
    | outside =>
      rw [hp] at hr
      cases hr
    | inLine numBytes ch =>
      have hlacks : Lacks client .rLineBlock a t := Or.inr ⟨by rw [hp]; rfl, hw⟩
      obtain ⟨cur', hask⟩ := h.ask hlacks (h.asked t numBytes ch hp) ch
      rw [← hp, Shared.goto_self] at hask
      rw [hp] at hr
      cases hr
      exact ⟨cur', hask⟩
    | inAvail c =>
      rw [hp] at hr
      cases hr
      exact ⟨cur, h.retest hp⟩
  | irq i =>
    obtain ⟨-, hs⟩ := Option.ite_none_right_eq_some.mp hs
    obtain ⟨x, hx, rfl⟩ := Option.map_eq_some_iff.mp hs
    exact ⟨cur, h.poll hx⟩

/-! ## On the thread system -/

/-- The call that has `RLineBlock`. -/
def Console.inProgress (d : Console) : Option (Tid × Int) := d.obtained[d.finished.length]?

/-- The characters that a call has consumed so far. -/
def Point.consumed : Point → List (BitVec 8)
  | .inAvail c => c.consumed
  | _ => []

/-- The calls that got `RLineBlock` have returned in that order, except for one at most, and no
other thread has consumed anything; the characters they consumed, in this order, are a beginning of
the typed stream without the bytes that equal EOF; and each has returned what it has to. -/
structure Delivered (s : System Point Console) : Prop where
  order : s.device.finished.map Result.call = s.device.obtained.take s.device.finished.length
  alone : s.device.obtained.length ≤ s.device.finished.length + 1
  nothing : ∀ t, (∀ numBytes, s.device.inProgress ≠ some (t, numBytes)) → (s.point t).consumed = []
  stream : s.device.finished.flatMap Result.consumed ++
      s.device.inProgress.elim [] (fun x => (s.point x.1).consumed) <+:
    s.device.typed.filter (· ≠ eof)
  correct : ∀ r ∈ s.device.finished, r.Correct

theorem Consumes.eq (h : Consumes a t numBytes part) : part = (a.point t).consumed := by
  cases h with
  | start ch hp =>
    rw [hp]
    rfl
  | char c hp =>
    rw [hp]
    rfl

theorem consumed_of_lacks (h : Lacks client .rLineBlock a t) : (a.point t).consumed = [] := by
  cases hp : a.point t with
  | inAvail c =>
    unfold Lacks at h
    rw [hp] at h
    rcases h with hout | ⟨hawaits, -⟩
    · cases hout
    · cases hawaits
  | _ => rfl

theorem Reading.toDelivered {ref : Sem → SemId} {s : System Point Console}
    (h : Reading (abs ref s) cur) : Delivered s := by
  have hobtained : s.device.obtained = s.device.finished.map Result.call ++ cur.toList := h.obtained
  have hcur : s.device.inProgress = cur := by
    unfold Console.inProgress
    rw [hobtained]
    cases cur with
    | none => simp
    | some x => simp
  obtain ⟨part, hstream, hpart⟩ := h.stream
  have helim : part = cur.elim [] fun x => (s.point x.1).consumed := by
    cases cur with
    | none => exact hpart
    | some x => exact Consumes.eq hpart
  refine ⟨?_, ?_, fun t ht => ?_, ?_, h.correct⟩
  · rw [hobtained, List.take_left' (by simp)]
  · rw [hobtained, List.length_append, List.length_map]
    exact Nat.add_le_add_left Option.length_toList_le _
  · rw [hcur] at ht
    refine consumed_of_lacks (h.held.others t fun heq => ?_)
    obtain ⟨x, hx, rfl⟩ := Option.map_eq_some_iff.mp heq
    exact ht x.2 hx
  · rw [hcur, ← helim]
    exact ⟨_, hstream⟩

/-- The initial values of the semaphores. -/
def init : Sem → Int
  | .rLineBlock => 1
  | .synchReadAvail => 0

theorem reading_start {ref : Sem → SemId} {s : System Point Console} (h : Start client ref init s)
    (hd : s.device = .new) : Reading (abs ref s) none := by
  have hdevice : (abs ref s).device = .new := hd
  refine ⟨⟨h.value .rLineBlock, fun t _ => Or.inl (h.outside t)⟩, fun t n ch hp => ?_, ?_, ?_, [], ?_,
    rfl⟩
  · have hout := h.outside t
    rw [show s.point t = .inLine n ch from hp] at hout
    cases hout
  · rw [hdevice]
    rfl
  · rw [hdevice]
    simp [Console.new]
  · rw [hdevice]
    rfl

/-- Any number of threads call `Read`, each for at least one byte, in any interleaving with the
polls of the keyboard and with everything else that threads do: the input is delivered once and in
order. -/
theorem inputDelivered {ref : Sem → SemId} {s : System Point Console} (h : Start client ref init s)
    (hd : s.device = .new) {ls : List (Label Act Poll)} (hls : ∀ x, .act x ∈ ls → x.asks) :
    Runs.AllStates (step client ref) Delivered s ls := by
  have hkeep : ∀ a l a', (∃ cur, Reading a cur) → (∀ t x, l = .act t x → x.asks) →
      astep client a l = some a' → ∃ cur, Reading a' cur := by
    rintro a l a' ⟨cur, hreading⟩ hasks hs
    exact reading_step hreading hasks hs
  have hgood : ∀ (s : System Point Console) (l : Label Act Poll) (l' : SharedLabel Act Poll),
      Rel client ref s → (∀ x, l = .act x → x.asks) → sharedLabel ref s l = some l' →
      ∀ t x, l' = .act t x → x.asks := by
    rintro s l l' - hasks hl t x rfl
    cases l with
    | act x' =>
      cases hl
      exact hasks x rfl
    | irq i => cases hl
    | other l =>
      obtain ⟨-, hl⟩ := Option.ite_some_none_eq_some.mp hl
      cases hl
  have hasks : ∀ l ∈ ls, ∀ _ : System Point Console, ∀ x, l = .act x → x.asks := by
    rintro l hl - x rfl
    exact hls x hl
  have hall := allStates_of_good hkeep hgood h.rel ⟨none, reading_start h hd⟩
    (Runs.allSteps_of_forall_mem hasks s)
  refine hall.mono fun u hu => ?_
  obtain ⟨-, cur, hreading⟩ := hu
  exact hreading.toDelivered

/-- Two threads, and nothing typed. -/
def twoThreads : System Point Console where
  kernel := kernelAfter newSynchConsole
  point _ := .outside
  device := .new

/-- The order in which `SynchConsole` makes its semaphores. -/
def refs : Sem → SemId
  | .rLineBlock => 2
  | .synchReadAvail => 0

theorem start_twoThreads : Start client refs init twoThreads where
  reachable := ⟨newSynchConsole, run_kernelAfter (by decide)⟩
  injective := by decide
  created := by decide
  value := by decide
  waits := by decide
  outside _ := rfl

/-- The main thread reads two bytes while "H", EOF and a newline are typed. The unit of the EOF is
still there when the main thread takes the newline. -/
def eofTyped : List (Label Act Poll) :=
  [.act (.read 2 0), .irq (.char eof), .irq (.char 0x48), .act .goOn, .act .goOn, .irq (.char 0x0a),
    .act .goOn]

theorem inputDelivered_eofTyped :
    Runs.AllStates (step client refs) Delivered twoThreads eofTyped ∧
      ((Runs.run (step client refs) twoThreads eofTyped).map fun s =>
        s.device.finished.map fun r => (r.consumed, r.into, r.ret)) =
      some [([0x48, 0x0a], [0x48, 0], 1)] :=
  ⟨inputDelivered start_twoThreads rfl (by simp [eofTyped, Act.asks]), by decide +kernel⟩

end Nachos.Devices.SynchRead
