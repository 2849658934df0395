import Mathlib.Algebra.Order.Ring.Int
import Mathlib.Data.List.Basic
import Mathlib.Tactic.Simps.Basic

/-!
# Two processes taking turns

The abstract model of `test/Ping.c` and `test/Pong.c`: one process repeats `Down("First")`,
print `A`, `Up("Second")`, the other `Down("Second")`, print `B`, `Up("First")`. Printing goes
through `SynchConsole::Write`: it takes the line lock, puts the character, waits until the
console has taken it and frees the lock. Nothing is left of the scheduler but that a process
whose `P` found the value zero waits, and tests again at some time later.

One token moves around: it is in `First`, with the first process, in `Second` or with the
second process (`TurnsInv.token`). Where it is determines what has been written.
-/

namespace Nachos.Userprog.Alternation

open Function (update update_of_ne update_self)

inductive Side where
  | ping | pong
  deriving DecidableEq, Repr

/-- The semaphores that the two processes use. -/
inductive Ref where
  | first | second | wLineBlock | synchWriteAvail
  deriving DecidableEq, Repr

/-- The semaphore a process takes the token from. -/
def Side.takes : Side → Ref
  | .ping => .first
  | .pong => .second

/-- The semaphore a process gives the token to. -/
def Side.gives : Side → Ref
  | .ping => .second
  | .pong => .first

def Side.char : Side → Char
  | .ping => 'A'
  | .pong => 'B'

def Side.other : Side → Side
  | .ping => .pong
  | .pong => .ping

/-- What the number of characters leaves when divided by two when it is the turn of `x`. -/
def Side.due : Side → Nat
  | .ping => 0
  | .pong => 1

/-- Where a process is in the body of its loop. A point named after a `P` is inside it or right
after it. -/
inductive Point where
  /-- In user code, before `Down`. -/
  | down
  /-- In the `P` of `Down`. -/
  | inDown
  /-- In user code, before the character is printed. -/
  | print
  /-- In `WLineBlock->P()`. -/
  | inLock
  /-- After `PutChar`, in `synchWriteAvail->P()`. -/
  | inWait
  /-- After `WLineBlock->V()`. -/
  | unlocked
  /-- In user code, before `Up`. -/
  | up
  /-- After the `V` of `Up`. -/
  | inUp
  deriving DecidableEq, Repr

/-- The semaphore in whose `P` a process can be. -/
def Point.awaits (x : Side) : Point → Option Ref
  | .inDown => some x.takes
  | .inLock => some .wLineBlock
  | .inWait => some .synchWriteAvail
  | _ => none

@[ext] structure Proc where
  point : Point
  /-- The last test of the `P` at `point` found the value zero. -/
  waiting : Bool
  /-- The turns of the loop that are left, the present one included. -/
  left : Nat
  /-- History: the print calls that have returned. -/
  printed : Nat
  deriving DecidableEq, Repr

@[ext] structure Turns where
  value : Ref → Int
  proc : Side → Proc
  putBusy : Bool
  output : List Char
  /-- The `ASSERT` of `Console::PutChar` has failed. -/
  aborted : Bool

namespace Turns

variable (s : Turns) (x : Side)

@[simps -fullyApplied] def setProc (p : Proc) : Turns := { s with proc := update s.proc x p }

/-- A test of the value in the `P` at point `pt`. -/
def test (r : Ref) (pt : Point) : Turns :=
  if s.value r = 0 then s.setProc x { s.proc x with point := pt, waiting := true }
  else
    { s with value := update s.value r (s.value r - 1) }.setProc x
      { s.proc x with point := pt, waiting := false }

/-- `V`, after which the process is at point `pt`. -/
def give (r : Ref) (pt : Point) : Turns :=
  { s with value := update s.value r (s.value r + 1) }.setProc x { s.proc x with point := pt }

@[simp] theorem give_value (r : Ref) (pt : Point) :
    (s.give x r pt).value = update s.value r (s.value r + 1) := rfl

/-- What process `x`, which is not waiting, does next. -/
def act : Turns :=
  match (s.proc x).point with
  | .down => s.test x x.takes .inDown
  | .inDown => s.setProc x { s.proc x with point := .print }
  | .print => s.test x .wLineBlock .inLock
  | .inLock =>
    if s.putBusy then { s with aborted := true }
    else
      { s with putBusy := true, output := s.output ++ [x.char] }.test x .synchWriteAvail .inWait
  | .inWait => s.give x .wLineBlock .unlocked
  | .unlocked => s.setProc x { s.proc x with point := .up, printed := (s.proc x).printed + 1 }
  | .up => s.give x x.gives .inUp
  | .inUp => s.setProc x { s.proc x with point := .down, left := (s.proc x).left - 1 }

/-- The console interrupt: `Console::WriteDone`. -/
def writeDone : Turns :=
  { s with
    putBusy := false
    value := update s.value .synchWriteAvail (s.value .synchWriteAvail + 1) }

end Turns

/-! ## The token -/

/-- What a process has at a point of its loop, each of them zero or one. -/
structure Share where
  /-- It has the token. -/
  holds : Nat
  /-- It has the token and has put its character. -/
  ahead : Nat
  /-- It has put its character and not returned from the print call. -/
  wrote : Nat
  /-- It has the line lock. -/
  locks : Nat
  /-- It waits for the console. -/
  awaits : Nat
  deriving DecidableEq, Repr

/-- The share of a process at a point, by whether it waits there. -/
def share : Point → Bool → Share
  | .down, _ => ⟨0, 0, 0, 0, 0⟩
  | .inDown, true => ⟨0, 0, 0, 0, 0⟩
  | .inDown, false => ⟨1, 0, 0, 0, 0⟩
  | .print, _ => ⟨1, 0, 0, 0, 0⟩
  | .inLock, true => ⟨1, 0, 0, 0, 0⟩
  | .inLock, false => ⟨1, 0, 0, 1, 0⟩
  | .inWait, true => ⟨1, 1, 1, 1, 1⟩
  | .inWait, false => ⟨1, 1, 1, 1, 0⟩
  | .unlocked, _ => ⟨1, 1, 1, 0, 0⟩
  | .up, _ => ⟨1, 1, 0, 0, 0⟩
  | .inUp, _ => ⟨0, 0, 0, 0, 0⟩

def Proc.share (p : Proc) : Share := Alternation.share p.point p.waiting

/-- One if the process makes the number of characters written odd. -/
def Side.odd (h : Share) : Side → Int
  | .ping => h.ahead
  | .pong => h.holds - h.ahead

/-- The first `n` characters of `ABABAB…`. -/
def alternation : Nat → List Char
  | 0 => []
  | n + 1 => alternation n ++ [if n % 2 = 0 then 'A' else 'B']

/-- What is written, and where the token is. -/
structure TurnsInv (s : Turns) : Prop where
  nonneg : ∀ r, 0 ≤ s.value r
  token : s.value .first + s.value .second + (s.proc .ping).share.holds +
    (s.proc .pong).share.holds = 1
  line : s.value .wLineBlock + (s.proc .ping).share.locks + (s.proc .pong).share.locks = 1
  avail : s.value .synchWriteAvail + s.putBusy.toNat =
    (s.proc .ping).share.awaits + (s.proc .pong).share.awaits
  output : s.output = alternation s.output.length
  parity : ((s.output.length % 2 : Nat) : Int) =
    s.value .second + Side.odd (s.proc .ping).share .ping + Side.odd (s.proc .pong).share .pong
  printed : ∀ x, s.output.count x.char = (s.proc x).printed + (s.proc x).share.wrote
  running : s.aborted = false

section Steps

variable {s : Turns} {x : Side}

/-- A process moves to `p` and the values change with it, while nothing is written. -/
theorem TurnsInv.move (h : TurnsInv s) {s' : Turns} {p : Proc} {a b : Share}
    (hproc : s'.proc = update s.proc x p) (hbusy : s'.putBusy = s.putBusy)
    (hout : s'.output = s.output) (hrun : s'.aborted = s.aborted) (hnonneg : ∀ r, 0 ≤ s'.value r)
    (ha : (s.proc x).share = a) (hb : p.share = b)
    (htoken : s'.value .first + s'.value .second + b.holds =
      s.value .first + s.value .second + a.holds)
    (hline : s'.value .wLineBlock + b.locks = s.value .wLineBlock + a.locks)
    (havail : s'.value .synchWriteAvail + a.awaits = s.value .synchWriteAvail + b.awaits)
    (hodd : s'.value .second + Side.odd b x = s.value .second + Side.odd a x)
    (hprinted : p.printed + b.wrote = (s.proc x).printed + a.wrote) : TurnsInv s' := by
  subst ha hb
  have htoken0 := h.token
  have hline0 := h.line
  have havail0 := h.avail
  have hparity0 := h.parity
  refine ⟨hnonneg, ?_, ?_, ?_, ?_, ?_, ?_, ?_⟩
  · rw [hproc]
    cases x <;> simp <;> omega
  · rw [hproc]
    cases x <;> simp <;> omega
  · rw [hproc, hbusy]
    cases x <;> simp <;> omega
  · rw [hout]
    exact h.output
  · rw [hproc, hout]
    cases x <;> simp <;> omega
  · intro y
    rw [hproc, hout, h.printed]
    by_cases hy : y = x
    · subst hy
      rw [update_self]
      exact hprinted.symm
    · rw [update_of_ne hy]
  · rw [hrun]
    exact h.running

/-- Taking one unit of a semaphore that is not zero leaves no value negative. -/
theorem nonneg_take (h : ∀ r, 0 ≤ s.value r) {r : Ref} (hr : s.value r ≠ 0) (r' : Ref) :
    0 ≤ update s.value r (s.value r - 1) r' := by
  have hpos := h r
  by_cases hrr : r' = r
  · subst hrr
    rw [update_self]
    omega
  · rw [update_of_ne hrr]
    exact h r'

theorem nonneg_give (h : ∀ r, 0 ≤ s.value r) (r r' : Ref) :
    0 ≤ update s.value r (s.value r + 1) r' := by
  have hpos := h r
  by_cases hrr : r' = r
  · subst hrr
    rw [update_self]
    omega
  · rw [update_of_ne hrr]
    exact h r'

/-- The `P` of `Down`. -/
theorem TurnsInv.testTakes (h : TurnsInv s) (hp : (s.proc x).share = ⟨0, 0, 0, 0, 0⟩) :
    TurnsInv (s.test x x.takes .inDown) := by
  unfold Turns.test
  split
  · exact h.move rfl rfl rfl rfl h.nonneg hp rfl rfl rfl rfl rfl rfl
  · rename_i hvalue
    refine h.move (b := ⟨1, 0, 0, 0, 0⟩) rfl rfl rfl rfl (nonneg_take h.nonneg hvalue) hp rfl ?_ ?_ ?_ ?_ rfl
    · cases x <;> simp [Side.takes] <;> omega
    · cases x <;> simp [Side.takes]
    · cases x <;> simp [Side.takes]
    · cases x <;> simp [Side.takes, Side.odd]

/-- The `P` of the line lock. -/
theorem TurnsInv.testLock (h : TurnsInv s) (hp : (s.proc x).share = ⟨1, 0, 0, 0, 0⟩) :
    TurnsInv (s.test x .wLineBlock .inLock) := by
  unfold Turns.test
  split
  · exact h.move rfl rfl rfl rfl h.nonneg hp rfl rfl rfl rfl rfl rfl
  · rename_i hvalue
    refine h.move (b := ⟨1, 0, 0, 1, 0⟩) rfl rfl rfl rfl (nonneg_take h.nonneg hvalue) hp rfl ?_ ?_ ?_ ?_ rfl
    · simp
    · simp
    · simp
    · cases x <;> simp [Side.odd]

/-- The `P` that waits for the console, tested again. -/
theorem TurnsInv.testAvail (h : TurnsInv s) (hp : (s.proc x).share = ⟨1, 1, 1, 1, 1⟩) :
    TurnsInv (s.test x .synchWriteAvail .inWait) := by
  unfold Turns.test
  split
  · exact h.move rfl rfl rfl rfl h.nonneg hp rfl rfl rfl rfl rfl rfl
  · rename_i hvalue
    refine h.move (b := ⟨1, 1, 1, 1, 0⟩) rfl rfl rfl rfl (nonneg_take h.nonneg hvalue) hp rfl ?_ ?_ ?_ ?_ rfl
    · simp
    · simp
    · simp
    · cases x <;> simp [Side.odd]

/-- The line lock is freed. -/
theorem TurnsInv.giveLock (h : TurnsInv s) (hp : (s.proc x).share = ⟨1, 1, 1, 1, 0⟩) :
    TurnsInv (s.give x .wLineBlock .unlocked) := by
  refine h.move (b := ⟨1, 1, 1, 0, 0⟩) rfl rfl rfl rfl (nonneg_give h.nonneg _) hp rfl ?_ ?_ ?_ ?_ rfl
  · simp
  · simp
  · simp
  · cases x <;> simp [Side.odd]

/-- The token is given on. -/
theorem TurnsInv.giveToken (h : TurnsInv s) (hp : (s.proc x).share = ⟨1, 1, 0, 0, 0⟩) :
    TurnsInv (s.give x x.gives .inUp) := by
  refine h.move (b := ⟨0, 0, 0, 0, 0⟩) rfl rfl rfl rfl (nonneg_give h.nonneg _) hp rfl ?_ ?_ ?_ ?_ rfl
  · cases x <;> simp [Side.gives] <;> omega
  · cases x <;> simp [Side.gives]
  · cases x <;> simp [Side.gives]
  · cases x <;> simp [Side.gives, Side.odd]

/-- A process moves on inside its own code. -/
theorem TurnsInv.goOn (h : TurnsInv s) {p : Proc} (hhave : p.share = (s.proc x).share ∨
      (s.proc x).share = ⟨1, 1, 1, 0, 0⟩ ∧ p.share = ⟨1, 1, 0, 0, 0⟩)
    (hprinted : p.printed + p.share.wrote = (s.proc x).printed + (s.proc x).share.wrote) :
    TurnsInv (s.setProc x p) := by
  rcases hhave with heq | ⟨ha, hb⟩
  · exact h.move rfl rfl rfl rfl h.nonneg rfl heq rfl rfl rfl rfl (by rw [← heq, hprinted, heq])
  · refine h.move rfl rfl rfl rfl h.nonneg ha hb rfl rfl rfl ?_ (by rw [← ha, ← hb, hprinted])
    cases x <;> simp [Side.odd]

theorem share_bounds (pt : Point) (w : Bool) :
    (share pt w).awaits ≤ (share pt w).locks ∧ (share pt w).ahead ≤ (share pt w).holds := by
  cases pt <;> cases w <;> decide

theorem TurnsInv.value_le (h : TurnsInv s) (r : Ref) : s.value r ≤ 1 := by
  have htoken := h.token
  have hline := h.line
  have havail := h.avail
  have hping := (share_bounds (s.proc .ping).point (s.proc .ping).waiting).1
  have hpong := (share_bounds (s.proc .pong).point (s.proc .pong).waiting).1
  have hfirst := h.nonneg .first
  have hsecond := h.nonneg .second
  have hlock := h.nonneg .wLineBlock
  change (s.proc .ping).share.awaits ≤ (s.proc .ping).share.locks at hping
  change (s.proc .pong).share.awaits ≤ (s.proc .pong).share.locks at hpong
  cases r <;> omega

/-- The process that has the line lock finds the console idle. -/
theorem TurnsInv.console_idle (h : TurnsInv s) (hp : (s.proc x).share = ⟨1, 0, 0, 1, 0⟩) :
    s.putBusy = false ∧ s.value .synchWriteAvail = 0 := by
  have hline := h.line
  have havail := h.avail
  have hping := (share_bounds (s.proc .ping).point (s.proc .ping).waiting).1
  have hpong := (share_bounds (s.proc .pong).point (s.proc .pong).waiting).1
  have hnonneg := h.nonneg .wLineBlock
  have hnonneg' := h.nonneg .synchWriteAvail
  change (s.proc .ping).share.awaits ≤ (s.proc .ping).share.locks at hping
  change (s.proc .pong).share.awaits ≤ (s.proc .pong).share.locks at hpong
  have hzero : s.putBusy.toNat = 0 ∧ s.value .synchWriteAvail = 0 := by
    cases x <;> rw [hp] at hline havail <;> simp only at hline havail <;> omega
  exact ⟨by simpa using hzero.1, hzero.2⟩

/-- While the process that has the line lock has put no character, the other one has nothing of
the token, and the number of characters written is even or odd as it should be. -/
theorem TurnsInv.turn (h : TurnsInv s) (hp : (s.proc x).share = ⟨1, 0, 0, 1, 0⟩) :
    s.value .second = 0 ∧ Side.odd (s.proc x.other).share x.other = 0 ∧
      s.output.length % 2 = x.due := by
  have htoken := h.token
  have hparity := h.parity
  have hother : (s.proc x.other).share.ahead ≤ (s.proc x.other).share.holds :=
    (share_bounds (s.proc x.other).point (s.proc x.other).waiting).2
  have hfirst := h.nonneg .first
  have hsecond := h.nonneg .second
  cases x <;> rw [hp] at htoken hparity <;>
    simp only [Side.odd, Side.other, Side.due] at htoken hparity hother ⊢ <;> omega

/-- The character that is due. -/
theorem TurnsInv.char_due (h : TurnsInv s) (hp : (s.proc x).share = ⟨1, 0, 0, 1, 0⟩) :
    alternation (s.output.length + 1) = s.output ++ [x.char] := by
  unfold alternation
  rw [← h.output, (h.turn hp).2.2]
  cases x <;> rfl

/-- `PutChar`, and the first test of the `P` after it, which finds the value zero. -/
theorem TurnsInv.putChar (h : TurnsInv s) (hp : (s.proc x).share = ⟨1, 0, 0, 1, 0⟩) :
    TurnsInv ({ s with putBusy := true, output := s.output ++ [x.char] }.test x
      .synchWriteAvail .inWait) := by
  obtain ⟨hbusy, hvalue⟩ := h.console_idle hp
  have htoken := h.token
  have hline := h.line
  have havail := h.avail
  have hparity := h.parity
  have hdue := h.char_due hp
  have hturn := h.turn hp
  have hwrote : (s.proc x).share.wrote = 0 := by rw [hp]
  unfold Turns.test
  rw [if_pos hvalue]
  -- the share of `x` becomes `⟨1, 1, 1, 1, 1⟩`
  refine ⟨h.nonneg, ?_, ?_, ?_, ?_, ?_, ?_, h.running⟩
  · cases x <;> rw [hp] at htoken <;> simpa [Proc.share, share] using htoken
  · cases x <;> rw [hp] at hline <;> simpa [Proc.share, share] using hline
  · rw [hbusy, hvalue] at havail
    cases x <;> rw [hp] at havail <;> simp [Proc.share, share, hvalue] at havail ⊢ <;> omega
  · simpa using hdue.symm
  · obtain ⟨hsecond, hother, hlength⟩ := hturn
    have hnew : ∀ left printed, Proc.share ⟨.inWait, true, left, printed⟩ = ⟨1, 1, 1, 1, 1⟩ :=
      fun _ _ => rfl
    cases x with
    | ping =>
      simp only [Turns.setProc_proc, Turns.setProc_value, Turns.setProc_output, update_self,
        update_of_ne (show Side.pong ≠ .ping by decide), hnew, Side.odd, Side.other, Side.due,
        List.length_append, List.length_singleton] at hother hlength ⊢
      omega
    | pong =>
      simp only [Turns.setProc_proc, Turns.setProc_value, Turns.setProc_output, update_self,
        update_of_ne (show Side.ping ≠ .pong by decide), hnew, Side.odd, Side.other, Side.due,
        List.length_append, List.length_singleton] at hother hlength ⊢
      omega
  · intro y
    have hold := h.printed y
    by_cases hy : y = x
    · subst hy
      rw [hwrote] at hold
      simp [Proc.share, share, hold]
    · have hchar : x.char ≠ y.char := by
        cases x <;> cases y <;> first | decide | exact absurd rfl hy
      simp [hy, hold, hchar]

/-- The console interrupt. -/
theorem TurnsInv.writeDone (h : TurnsInv s) (hbusy : s.putBusy = true) : TurnsInv s.writeDone := by
  have havail := h.avail
  have hnonneg := h.nonneg .synchWriteAvail
  refine ⟨?_, h.token, h.line, ?_, h.output, h.parity, h.printed, h.running⟩
  · exact nonneg_give h.nonneg .synchWriteAvail
  · rw [hbusy] at havail
    simp [Turns.writeDone] at havail ⊢
    omega

/-- Every step of a process that is not waiting. -/
theorem TurnsInv.act (h : TurnsInv s) (hw : (s.proc x).waiting = false) : TurnsInv (s.act x) := by
  have hshare : (s.proc x).share = share (s.proc x).point false := by
    unfold Proc.share
    rw [hw]
  unfold Turns.act
  cases hp : (s.proc x).point with
  | down =>
    rw [hp] at hshare
    exact h.testTakes hshare
  | inDown =>
    rw [hp] at hshare
    refine h.goOn (Or.inl ?_) ?_
    · rw [hshare]
      simp [Proc.share, share]
    · rw [hshare]
      simp [Proc.share, share]
  | print =>
    rw [hp] at hshare
    exact h.testLock hshare
  | inLock =>
    rw [hp] at hshare
    simp only
    rw [if_neg (by rw [(h.console_idle hshare).1]; decide)]
    exact h.putChar hshare
  | inWait =>
    rw [hp] at hshare
    exact h.giveLock hshare
  | unlocked =>
    rw [hp] at hshare
    refine h.goOn (Or.inr ⟨hshare, by simp [Proc.share, share]⟩) ?_
    rw [hshare]
    simp [Proc.share, share]
  | up =>
    rw [hp] at hshare
    exact h.giveToken hshare
  | inUp =>
    rw [hp] at hshare
    refine h.goOn (Or.inl ?_) ?_
    · rw [hshare]
      simp [Proc.share, share]
    · rw [hshare]
      simp [Proc.share, share]

/-- A process that waits tests the value again. -/
theorem TurnsInv.retest (h : TurnsInv s) (hw : (s.proc x).waiting = true) {r : Ref}
    (hr : (s.proc x).point.awaits x = some r) : TurnsInv (s.test x r (s.proc x).point) := by
  have hshare : (s.proc x).share = share (s.proc x).point true := by
    unfold Proc.share
    rw [hw]
  cases hp : (s.proc x).point with
  | inDown =>
    rw [hp] at hshare hr
    obtain rfl := Option.some.inj hr
    exact h.testTakes hshare
  | inLock =>
    rw [hp] at hshare hr
    obtain rfl := Option.some.inj hr
    exact h.testLock hshare
  | inWait =>
    rw [hp] at hshare hr
    obtain rfl := Option.some.inj hr
    exact h.testAvail hshare
  | _ =>
    rw [hp] at hr
    cases hr

end Steps

end Nachos.Userprog.Alternation
