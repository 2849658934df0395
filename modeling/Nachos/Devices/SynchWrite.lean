import Nachos.Devices.LineBlock
import Nachos.Lib.Bytes

/-!
# Console output

`SynchConsole::Write` (`threads/synchcons.cc`) over the display of `machine/console.cc`. A writer
holds `WLineBlock` from its first character to its last one; `synchWriteAvail` makes it wait for
the interrupt of each character.

* `notInterleaved`: in every run, `Console::PutChar` is never called while `putBusy` is TRUE, and
  the display shows the buffers of the finished calls in the order in which they got `WLineBlock`,
  then the beginning of the buffer of the call that has it.

The invariant is `Writing`: who has the line (`Held`), and where that thread is in its buffer.
-/

namespace Nachos.Devices.SynchWrite

open Bytes (Image)
open Function (update update_of_ne update_self)
open Threads (SemId Tid)

/-! ## The code -/

/-- The semaphores of `Write`. -/
inductive Sem
  | wLineBlock
  | synchWriteAvail
  deriving DecidableEq

instance : Fintype Sem := ⟨{.wLineBlock, .synchWriteAvail}, fun x => by cases x <;> decide⟩

/-- The arguments of `Write`. -/
structure Buffer where
  bytes : Image
  numBytes : Int

/-- The characters that `Write` has to put. -/
def Buffer.chars (b : Buffer) : List (BitVec 8) := Bytes.toList b.bytes b.numBytes.toNat

structure Console where
  putBusy : Bool
  /-- The characters put on the display. -/
  display : List (BitVec 8)
  /-- The ASSERT of `PutChar` has failed. -/
  aborted : Bool
  /-- History: the calls that have got `WLineBlock`, in order. -/
  obtained : List (Tid × Buffer)
  /-- History: the calls that have given it back, with what they return. -/
  finished : List (Tid × Int)

/-- The display of `new Console`. -/
def Console.new : Console := ⟨false, [], false, [], []⟩

inductive Point
  | outside
  /-- In `WLineBlock->P()`. -/
  | inLine (b : Buffer)
  /-- In `synchWriteAvail->P()`, after the character `loop`. -/
  | inChar (b : Buffer) (loop : Nat)

inductive Act
  | write (b : Buffer)
  /-- The call goes on after a `P`. -/
  | goOn

/-- The test of the `for` loop, and what follows it: `PutChar` and the next `P`, or the end of the
call. -/
def Console.loopTest (d : Console) (t : Tid) (b : Buffer) (loop : Nat) : Move Sem Point Console :=
  if loop < b.numBytes then
    if d.putBusy then ⟨{ d with aborted := true }, .none, .outside⟩
    else
      ⟨{ d with display := d.display ++ [b.bytes loop], putBusy := true }, .p .synchWriteAvail,
        .inChar b loop⟩
  else ⟨{ d with finished := d.finished ++ [(t, b.numBytes)] }, .v .wLineBlock, .outside⟩

def next : Act → Tid → Point → Console → Option (Move Sem Point Console)
  | .write b, _, .outside, d => some ⟨d, .p .wLineBlock, .inLine b⟩
  | .goOn, t, .inLine b, d => some (d.loopTest t b 0)
  | .goOn, t, .inChar b loop, d => some (d.loopTest t b (loop + 1))
  | _, _, _, _ => none

inductive Irq
  | writeDone

/-- `Console::WriteDone`, which calls `SynchWriteFunct`. -/
def irq : Irq → Console → Option (Console × Option Sem)
  | .writeDone, d => if d.putBusy then some ({ d with putBusy := false }, some .synchWriteAvail) else none

def Point.isOutside : Point → Bool
  | .outside => true
  | _ => false

def Point.awaits : Point → Option Sem
  | .outside => none
  | .inLine _ => some .wLineBlock
  | .inChar _ _ => some .synchWriteAvail

/-- A call that gets `WLineBlock` is recorded. -/
def taken : Sem → Tid → Point → Console → Console
  | .wLineBlock, t, .inLine b, d => { d with obtained := d.obtained ++ [(t, b)] }
  | _, _, _, d => d

theorem awaits_loopTest (d : Console) (t : Tid) (b : Buffer) (loop : Nat) :
    (d.loopTest t b loop).point.awaits = (d.loopTest t b loop).op.awaits := by
  unfold Console.loopTest
  split
  · split
    · rfl
    · rfl
  · rfl

/-- The threads that call `Write`. -/
def client : Client Sem Point Console Act Irq where
  outside := Point.isOutside
  awaits := Point.awaits
  stopped := Console.aborted
  next := next
  taken := taken
  irq := irq
  awaits_next x t pt d m h := by
    cases x with
    | write b =>
      cases pt with
      | outside =>
        cases h
        rfl
      | _ => cases h
    | goOn =>
      cases pt with
      | outside => cases h
      | inLine b =>
        cases h
        exact awaits_loopTest d t b 0
      | inChar b loop =>
        cases h
        exact awaits_loopTest d t b (loop + 1)

/-! ## The invariant -/

/-- The hand-shake of a character: the thread waits for the interrupt, the interrupt has come, or
the thread has noticed. -/
inductive Shake (a : Shared Sem Point Console) (t : Tid) : Prop
  | sent (waiting : a.waiting t = true) (busy : a.device.putBusy = true)
    (value : a.value .synchWriteAvail = 0)
  | came (waiting : a.waiting t = true) (busy : a.device.putBusy = false)
    (value : a.value .synchWriteAvail = 1)
  | noticed (waiting : a.waiting t = false) (busy : a.device.putBusy = false)
    (value : a.value .synchWriteAvail = 0)

/-- Where the thread that has the line is in its call, and what it has put. -/
inductive Puts (a : Shared Sem Point Console) (t : Tid) (b : Buffer) : List (BitVec 8) → Prop
  | start (point : a.point t = .inLine b) (waiting : a.waiting t = false)
    (busy : a.device.putBusy = false) (value : a.value .synchWriteAvail = 0) : Puts a t b []
  | char (loop : Nat) (hloop : loop < b.numBytes) (point : a.point t = .inChar b loop)
    (shake : Shake a t) : Puts a t b (b.chars.take (loop + 1))

/-- The call in progress, if there is one, has put the characters. -/
def InProgress (a : Shared Sem Point Console) : Option (Tid × Buffer) → List (BitVec 8) → Prop
  | none, part => part = [] ∧ a.device.putBusy = false ∧ a.value .synchWriteAvail = 0
  | some (t, b), part => Puts a t b part

/-- The invariant: `done` are the finished calls and `cur` is the one in progress. -/
structure Writing (a : Shared Sem Point Console) (done : List (Tid × Buffer))
    (cur : Option (Tid × Buffer)) : Prop where
  held : Held client .wLineBlock a (cur.map Prod.fst)
  running : a.device.aborted = false
  obtained : a.device.obtained = done ++ cur.toList
  finished : a.device.finished = done.map fun x => (x.1, x.2.numBytes)
  display : ∃ part, a.device.display = done.flatMap (fun x => x.2.chars) ++ part ∧
    InProgress a cur part

variable {a a' : Shared Sem Point Console} {done : List (Tid × Buffer)}
  {cur : Option (Tid × Buffer)} {t u : Tid} {b : Buffer} {part : List (BitVec 8)}

theorem Shake.congr (h : Shake a t) (hw : a'.waiting t = a.waiting t)
    (hb : a'.device.putBusy = a.device.putBusy)
    (hv : a'.value .synchWriteAvail = a.value .synchWriteAvail) : Shake a' t := by
  cases h with
  | sent h₁ h₂ h₃ => exact .sent (hw.trans h₁) (hb.trans h₂) (hv.trans h₃)
  | came h₁ h₂ h₃ => exact .came (hw.trans h₁) (hb.trans h₂) (hv.trans h₃)
  | noticed h₁ h₂ h₃ => exact .noticed (hw.trans h₁) (hb.trans h₂) (hv.trans h₃)

/-- Another thread's steps. -/
theorem Puts.congr (h : Puts a t b part) (hp : a'.point t = a.point t)
    (hw : a'.waiting t = a.waiting t) (hb : a'.device.putBusy = a.device.putBusy)
    (hv : a'.value .synchWriteAvail = a.value .synchWriteAvail) : Puts a' t b part := by
  cases h with
  | start h₁ h₂ h₃ h₄ => exact .start (hp.trans h₁) (hw.trans h₂) (hb.trans h₃) (hv.trans h₄)
  | char loop hloop h₁ h₂ => exact .char loop hloop (hp.trans h₁) (h₂.congr hw hb hv)

/-- The thread that has the line is in the client, and does not wait for the line. -/
theorem Puts.not_lacks (h : Puts a t b part) : ¬ Lacks client .wLineBlock a t := by
  rintro (hout | ⟨hawaits, hwait⟩)
  · cases h with
    | start hp =>
      rw [hp] at hout
      cases hout
    | char loop _ hp =>
      rw [hp] at hout
      cases hout
  · cases h with
    | start _ hw =>
      rw [hw] at hwait
      cases hwait
    | char loop _ hp =>
      rw [hp] at hawaits
      cases hawaits

theorem Writing.puts (h : Writing a done (some (t, b))) :
    ∃ part, a.device.display = done.flatMap (fun x => x.2.chars) ++ part ∧ Puts a t b part :=
  h.display

/-- A thread that does not lack the line is the one of the call in progress. -/
theorem Writing.eq_of_not_lacks (h : Writing a done cur) (ht : ¬ Lacks client .wLineBlock a t) :
    ∃ b, cur = some (t, b) := by
  have hholder : cur.map Prod.fst = some t := by
    by_contra hne
    exact ht (h.held.others t hne)
  obtain ⟨x, hx, rfl⟩ := Option.map_eq_some_iff.mp hholder
  exact ⟨x.2, hx⟩

/-! ## The steps -/

/-- A thread tests the value of `WLineBlock`, for the first time or again. -/
theorem Writing.ask (h : Writing a done cur) (ht : Lacks client .wLineBlock a t) :
    ∃ cur', Writing ((a.goto t (.inLine b) a.device).test client t .wLineBlock) done cur' := by
  cases cur with
  | none =>
    obtain ⟨htest, hheld⟩ := h.held.ask_free (t := t) (.inLine b) a.device
    obtain ⟨part, hdisplay, rfl, hbusy, havail⟩ := h.display
    refine ⟨some (t, b), hheld, ?_, ?_, ?_, [], ?_, ?_⟩
    · rw [htest]
      exact h.running
    · rw [htest]
      show a.device.obtained ++ [(t, b)] = done ++ [(t, b)]
      rw [h.obtained, Option.toList_none, List.append_nil]
    · rw [htest]
      exact h.finished
    · rw [htest]
      exact hdisplay
    · rw [htest]
      exact .start (update_self ..) (update_self ..) hbusy havail
  | some x =>
    obtain ⟨u, b'⟩ := x
    obtain ⟨htest, hheld⟩ := Held.ask_taken (t := t) h.held (.inLine b) rfl a.device
    obtain ⟨part, hdisplay, hputs⟩ := h.puts
    have hut : u ≠ t := by
      rintro rfl
      exact hputs.not_lacks ht
    refine ⟨some (u, b'), hheld, ?_, ?_, ?_, part, ?_, ?_⟩
    · rw [htest]
      exact h.running
    · rw [htest]
      exact h.obtained
    · rw [htest]
      exact h.finished
    · rw [htest]
      exact hdisplay
    · rw [htest]
      exact hputs.congr (update_of_ne hut _ _) (update_of_ne hut _ _) rfl rfl

theorem take_chars_succ {loop : Nat} (hloop : loop < b.numBytes) :
    b.chars.take (loop + 1) = b.chars.take loop ++ [b.bytes loop] := by
  have hlt : loop < b.chars.length := by
    simp [Buffer.chars, Bytes.toList]
    omega
  rw [List.take_succ_eq_append_getElem hlt]
  simp [Buffer.chars, Bytes.toList]

theorem take_chars_all {loop : Nat} (hloop : ¬ loop < b.numBytes) : b.chars.take loop = b.chars := by
  apply List.take_of_length_le
  simp [Buffer.chars, Bytes.toList]
  omega

/-- The loop goes on after the character `loop - 1` was put and its interrupt has come. -/
theorem Writing.loop (h : Writing a done (some (t, b))) {loop : Nat}
    (hbusy : a.device.putBusy = false) (havail : a.value .synchWriteAvail = 0)
    (hdisplay : a.device.display = done.flatMap (fun x => x.2.chars) ++ b.chars.take loop) :
    ∃ done' cur', Writing (a.move client t (a.device.loopTest t b loop)) done' cur' := by
  unfold Console.loopTest
  by_cases hloop : loop < b.numBytes
  · rw [if_pos hloop, if_neg (by simp [hbusy])]
    have hothers : ∀ u, some t ≠ some u → u ≠ t := fun u hne heq => hne (congrArg some heq.symm)
    simp only [Shared.move, Shared.test, Shared.goto, havail, if_true]
    refine ⟨done, some (t, b), ?_, h.running, h.obtained, h.finished, b.chars.take (loop + 1), ?_, ?_⟩
    · exact h.held.congr rfl (fun u hu => update_of_ne (hothers u hu) _ _)
        fun u hu => update_of_ne (hothers u hu) _ _
    · rw [take_chars_succ hloop, ← List.append_assoc, ← hdisplay]
    · exact .char loop hloop (update_self ..) (.sent (update_self ..) rfl havail)
  · rw [if_neg hloop]
    refine ⟨done ++ [(t, b)], none, h.held.give rfl _, h.running, ?_, ?_, [], ?_, rfl, hbusy, havail⟩
    · show a.device.obtained = _
      rw [h.obtained]
      simp
    · show a.device.finished ++ [(t, b.numBytes)] = _
      rw [h.finished]
      simp
    · show a.device.display = _
      rw [hdisplay, take_chars_all hloop]
      simp

/-- A thread that waits for the interrupt of its character is dispatched. -/
theorem Writing.retest (h : Writing a done cur) (hw : a.waiting t = true) {loop : Nat}
    (hp : a.point t = .inChar b loop) : Writing (a.test client t .synchWriteAvail) done cur := by
  have hlacks : ¬ Lacks client .wLineBlock a t := by
    rintro (hout | ⟨hawaits, -⟩)
    · rw [hp] at hout
      cases hout
    · rw [hp] at hawaits
      cases hawaits
  obtain ⟨b', rfl⟩ := h.eq_of_not_lacks hlacks
  obtain ⟨part, hdisplay, hputs⟩ := h.puts
  have hothers : ∀ u, some t ≠ some u → u ≠ t := fun u hne heq => hne (congrArg some heq.symm)
  unfold Shared.test
  cases hputs with
  | start _ hnot =>
    rw [hnot] at hw
    cases hw
  | char loop' hloop hp' hshake =>
    cases hshake with
    | sent _ hbusy hv =>
      rw [if_pos hv, ← hw, Function.update_eq_self]
      exact h
    | came _ hbusy hv =>
      rw [if_neg (by simp [hv]), hv]
      refine ⟨?_, h.running, h.obtained, h.finished, _, hdisplay, ?_⟩
      · exact h.held.congr rfl (fun _ _ => rfl) fun u hu => update_of_ne (hothers u hu) _ _
      · have hzero : update a.value .synchWriteAvail (Threads.wrap32 (1 - 1)) .synchWriteAvail = 0 :=
          update_self ..
        exact .char loop' hloop hp' (.noticed (update_self ..) hbusy hzero)
    | noticed hnot =>
      rw [hnot] at hw
      cases hw

theorem Writing.writeDone (h : Writing a done cur) (hbusy : a.device.putBusy = true) :
    Writing (a.interrupt { a.device with putBusy := false } (some .synchWriteAvail)) done cur := by
  obtain ⟨part, hdisplay, hpart⟩ := h.display
  refine ⟨h.held.congr rfl (fun _ _ => rfl) fun _ _ => rfl, h.running, h.obtained, h.finished,
    part, hdisplay, ?_⟩
  cases cur with
  | none =>
    rw [hpart.2.1] at hbusy
    cases hbusy
  | some x =>
    cases hpart with
    | start _ _ hnot =>
      rw [hnot] at hbusy
      cases hbusy
    | char loop hloop hp hshake =>
      cases hshake with
      | sent hw _ hv =>
        refine .char loop hloop hp (.came hw rfl ?_)
        show update a.value .synchWriteAvail (Threads.wrap32 (a.value .synchWriteAvail + 1))
          .synchWriteAvail = 1
        rw [update_self, hv]
        rfl
      | came _ hnot =>
        rw [hnot] at hbusy
        cases hbusy
      | noticed _ hnot =>
        rw [hnot] at hbusy
        cases hbusy

/-- A thread goes on after a `P`: it is the one that has the line. -/
theorem Writing.goOn (h : Writing a done cur) (hw : a.waiting t = false)
    {m : Move Sem Point Console} (hm : next .goOn t (a.point t) a.device = some m) :
    ∃ done' cur', Writing (a.move client t m) done' cur' := by
  have hlacks : ¬ Lacks client .wLineBlock a t := by
    rintro (hout | ⟨-, hwait⟩)
    · cases hp : a.point t with
      | outside =>
        rw [hp] at hm
        cases hm
      | _ =>
        rw [hp] at hout
        cases hout
    · rw [hw] at hwait
      cases hwait
  obtain ⟨b, rfl⟩ := h.eq_of_not_lacks hlacks
  obtain ⟨part, hdisplay, hputs⟩ := h.puts
  cases hputs with
  | start hp _ hbusy hv =>
    rw [hp] at hm
    cases hm
    exact h.loop hbusy hv (by simpa using hdisplay)
  | char loop hloop hp hshake =>
    rw [hp] at hm
    cases hm
    cases hshake with
    | noticed _ hbusy hv => exact h.loop hbusy hv hdisplay
    | sent hwait =>
      rw [hw] at hwait
      cases hwait
    | came hwait =>
      rw [hw] at hwait
      cases hwait

theorem writing_step {l : SharedLabel Act Irq} (h : Writing a done cur)
    (hs : astep client a l = some a') : ∃ done' cur', Writing a' done' cur' := by
  cases l with
  | act t x =>
    obtain ⟨⟨-, hw⟩, hs⟩ := Option.ite_none_right_eq_some.mp hs
    obtain ⟨m, hm, rfl⟩ := Option.map_eq_some_iff.mp hs
    cases x with
    | write b =>
      cases hp : a.point t with
      | outside =>
        rw [hp] at hm
        cases hm
        exact ⟨done, h.ask (Or.inl (by rw [hp]; rfl))⟩
      | _ =>
        rw [hp] at hm
        cases hm
    | goOn => exact h.goOn hw hm
  | retest t =>
    obtain ⟨⟨-, hw⟩, hs⟩ := Option.ite_none_right_eq_some.mp hs
    obtain ⟨r, hr, rfl⟩ := Option.map_eq_some_iff.mp hs
    cases hp : a.point t with
    | outside =>
      rw [hp] at hr
      cases hr
    | inLine b =>
      have hlacks : Lacks client .wLineBlock a t := Or.inr ⟨by rw [hp]; rfl, hw⟩
      obtain ⟨cur', hask⟩ := h.ask (b := b) hlacks
      rw [← hp, Shared.goto_self] at hask
      rw [hp] at hr
      cases hr
      exact ⟨done, cur', hask⟩
    | inChar b loop =>
      rw [hp] at hr
      cases hr
      exact ⟨done, cur, h.retest hw hp⟩
  | irq i =>
    obtain ⟨-, hs⟩ := Option.ite_none_right_eq_some.mp hs
    obtain ⟨x, hx, rfl⟩ := Option.map_eq_some_iff.mp hs
    obtain ⟨hbusy, rfl⟩ := Option.ite_some_none_eq_some.mp hx
    exact ⟨done, cur, h.writeDone hbusy⟩

/-! ## On the thread system -/

/-- The call that has `WLineBlock`. -/
def Console.inProgress (d : Console) : Option (Tid × Buffer) := d.obtained[d.finished.length]?

/-- `PutChar` was called only while `putBusy` was FALSE; the calls that got `WLineBlock` have
finished in that order, except for one at most; and the display shows their whole buffers and the
beginning of the buffer of that one. -/
structure NotInterleaved (d : Console) : Prop where
  running : d.aborted = false
  finished : d.finished = (d.obtained.take d.finished.length).map fun x => (x.1, x.2.numBytes)
  alone : d.obtained.length ≤ d.finished.length + 1
  display : ∃ part, d.display =
      (d.obtained.take d.finished.length).flatMap (fun x => x.2.chars) ++ part ∧
    part <+: d.inProgress.elim [] fun x => x.2.chars

theorem Puts.isPrefix (h : Puts a t b part) : part <+: b.chars := by
  cases h with
  | start => exact List.nil_prefix
  | char loop => exact List.take_prefix ..

theorem Writing.toNotInterleaved (h : Writing a done cur) : NotInterleaved a.device := by
  have hlength : a.device.finished.length = done.length := by simp [h.finished]
  have htake : a.device.obtained.take a.device.finished.length = done := by
    rw [hlength, h.obtained, List.take_left]
  have hcur : a.device.inProgress = cur := by
    unfold Console.inProgress
    rw [hlength, h.obtained]
    cases cur with
    | none => simp
    | some x => simp
  obtain ⟨part, hdisplay, hpart⟩ := h.display
  refine ⟨h.running, ?_, ?_, part, ?_, ?_⟩
  · rw [htake]
    exact h.finished
  · rw [hlength, h.obtained, List.length_append]
    exact Nat.add_le_add_left (Option.length_toList_le) _
  · rw [htake]
    exact hdisplay
  · rw [hcur]
    cases cur with
    | none =>
      rw [hpart.1]
      exact List.nil_prefix
    | some x => exact Puts.isPrefix hpart

/-- The initial values of the semaphores. -/
def init : Sem → Int
  | .wLineBlock => 1
  | .synchWriteAvail => 0

theorem writing_start {ref : Sem → SemId} {s : System Point Console} (h : Start client ref init s)
    (hd : s.device = .new) : Writing (abs ref s) [] none := by
  have hdevice : (abs ref s).device = .new := hd
  refine ⟨⟨h.value .wLineBlock, fun t _ => Or.inl (h.outside t)⟩, ?_, ?_, ?_, [], ?_, rfl, ?_,
    h.value .synchWriteAvail⟩
  all_goals
    rw [hdevice]
    rfl

/-- Any number of threads call `Write`, with any buffers and in any interleaving with the
interrupts and with everything else that threads do: no output is interleaved or lost. -/
theorem notInterleaved {ref : Sem → SemId} {s : System Point Console} (h : Start client ref init s)
    (hd : s.device = .new) (ls : List (Label Act Irq)) :
    Runs.AllStates (step client ref) (fun s => NotInterleaved s.device) s ls := by
  have hkeep : ∀ a l a', (∃ done cur, Writing a done cur) → astep client a l = some a' →
      ∃ done cur, Writing a' done cur := by
    rintro a l a' ⟨done, cur, hwriting⟩ hs
    exact writing_step hwriting hs
  have hall := allStates_of_shared hkeep h.rel ⟨[], none, writing_start h hd⟩ ls
  refine hall.mono fun u hu => ?_
  obtain ⟨-, done, cur, hwriting⟩ := hu
  exact hwriting.toNotInterleaved

/-- Two threads and a blank display. -/
def twoThreads : System Point Console where
  kernel := kernelAfter newSynchConsole
  point _ := .outside
  device := .new

/-- The order in which `SynchConsole` makes its semaphores. -/
def refs : Sem → SemId
  | .wLineBlock => 3
  | .synchWriteAvail => 1

theorem start_twoThreads : Start client refs init twoThreads where
  reachable := ⟨newSynchConsole, run_kernelAfter (by decide)⟩
  injective := by decide
  created := by decide
  value := by decide
  waits := by decide
  outside _ := rfl

/-- The main thread writes "Hi" while the other one, with "yo", waits for the line. -/
def twoWriters : List (Label Act Irq) :=
  [.act (.write ⟨fun k => [0x48, 0x69].getD k 0, 2⟩), .act .goOn, .other .resume,
    .act (.write ⟨fun k => [0x79, 0x6f].getD k 0, 2⟩), .irq .writeDone, .other .idle, .other .resume,
    .act .goOn, .irq .writeDone, .other .idle, .other .resume, .act .goOn, .other .yield,
    .other .resume, .act .goOn]

theorem notInterleaved_twoWriters :
    Runs.AllStates (step client refs) (fun s => NotInterleaved s.device) twoThreads twoWriters ∧
      ((Runs.run (step client refs) twoThreads twoWriters).map fun s => s.device.display) =
        some [0x48, 0x69, 0x79] :=
  ⟨notInterleaved start_twoThreads rfl twoWriters, by decide +kernel⟩

end Nachos.Devices.SynchWrite
