import Mathlib.Tactic.IntervalCases
import Nachos.Userprog.ReadCalls

/-!
# `SC_Write`

The call copies the buffer of the user program as a string of at most `MaxString` characters. For
the console it prints this string, whatever size it was given; for a file it writes as many bytes as
it was asked to, and then compares their number with `size - 1`.

`writesAll_iff`: exactly when the call writes what it is asked to and reports it.
-/

namespace Nachos.Syscalls

open Programs Program CInt Machine

/-! ### Statement -/

/-- The id is `ConsoleOutput`, or the one of a file that was opened for reading and writing. -/
def Writable (k : Kernel) : Prop := k.fID = 1 ∨ ∃ f, ReadsFile k f ∧ f.type = 0

/-- The user program has these bytes in its buffer. -/
def Requested (k : Kernel) (bytes : List Byte) : Prop :=
  (bytes.length : Int) = k.length ∧ ∀ (j : Nat) (h : j < bytes.length),
    k.machine.userByte (k.machine.registers r4 + BitVec.ofNat 32 j) = some bytes[j]

/-- The console, or the file at its offset, has got the bytes, and nothing else has changed. -/
def Sent (k : Kernel) (bytes : List Byte) (k' : Kernel) : Prop :=
  if k.fID = 1 then
    k'.output = k.output ++ bytes ∧ k'.hostFiles = k.hostFiles ∧ k'.openFileList = k.openFileList
  else ∃ f, k.openFileList k.fID.toNat = some f ∧ k'.output = k.output ∧
    k'.hostFiles = Function.update k.hostFiles f.file
      (hostWrite (k.hostFiles f.file) f.currentOffset.toNat bytes) ∧
    k'.openFileList = Function.update k.openFileList k.fID.toNat
      (some { f with currentOffset := f.currentOffset + bytes.length })

/-- The call has sent the bytes of the buffer, read nothing outside its copy, and returned the
size. -/
def WritesAll (k : Kernel) (o : Outcome Kernel Stop Abort Unit) : Prop :=
  ∃ bytes k', Requested k bytes ∧ o = .done () k' ∧ Sent k bytes k' ∧ Inside k'.buffer ∧
    (k'.machine.registers resultReg).toInt = k.length

/-- The size is the length of the string at the address of the buffer. -/
def WholeString (k : Kernel) : Prop :=
  k.length ≤ maxString ∧
    (∀ j : Nat, (j : Int) < k.length →
      k.machine.userByte (k.machine.registers r4 + BitVec.ofNat 32 j) ≠ none ∧
      k.machine.userByte (k.machine.registers r4 + BitVec.ofNat 32 j) ≠ some 0) ∧
    (k.length < maxString →
      k.machine.userByte (k.machine.registers r4 + BitVec.ofNat 32 k.length.toNat) = some 0)

/-! ### Strings of the user program -/

section Strings

variable {m : Machine} {addr : Word} {n i : Nat} {s : List Byte}

theorem userString_bytes (h : userString m addr n i = some s) :
    (∀ (j : Nat) (h : j < s.length), m.userByte (addr + BitVec.ofNat 32 (i + j)) = some s[j]) ∧
      (s.length < n → m.userByte (addr + BitVec.ofNat 32 (i + s.length)) = some 0) := by
  induction n generalizing i s with
  | zero =>
    cases h
    exact ⟨fun j h => absurd h (Nat.not_lt_zero j), fun h => absurd h (Nat.lt_irrefl 0)⟩
  | succ n ih =>
    unfold userString at h
    split at h
    · cases h
    rename_i b hb
    by_cases hzero : b = 0
    · rw [if_pos hzero] at h
      cases h
      refine ⟨fun j h => absurd h (Nat.not_lt_zero j), fun _ => ?_⟩
      rw [List.length_nil, Nat.add_zero, hb, hzero]
    · rw [if_neg hzero] at h
      obtain ⟨s', hs', rfl⟩ := Option.map_eq_some_iff.mp h
      obtain ⟨hbytes, hend⟩ := ih hs'
      refine ⟨fun j hj => ?_, fun hlt => ?_⟩
      · cases j with
        | zero => exact hb
        | succ j =>
          rw [List.getElem_cons_succ, ← hbytes j, Nat.add_right_comm, Nat.add_assoc]
      · rw [List.length_cons, ← hend (Nat.lt_of_succ_lt_succ hlt), Nat.add_right_comm, Nat.add_assoc]

theorem userString_eq_some (hlen : s.length ≤ n) (hzero : 0 ∉ s)
    (hbytes : ∀ (j : Nat) (h : j < s.length), m.userByte (addr + BitVec.ofNat 32 (i + j)) = some s[j])
    (hend : s.length < n → m.userByte (addr + BitVec.ofNat 32 (i + s.length)) = some 0) :
    userString m addr n i = some s := by
  induction s generalizing n i with
  | nil =>
    cases n with
    | zero => rfl
    | succ n =>
      have hb : m.userByte (addr + BitVec.ofNat 32 i) = some 0 := hend (Nat.succ_pos n)
      rw [userString, hb]
      rfl
  | cons c s ih =>
    cases n with
    | zero => cases hlen
    | succ n =>
      have hb : m.userByte (addr + BitVec.ofNat 32 i) = some c := hbytes 0 (Nat.succ_pos _)
      obtain ⟨hne, hmem⟩ := List.ne_and_not_mem_of_not_mem_cons hzero
      have hrest : userString m addr n (i + 1) = some s := by
        refine ih (Nat.le_of_succ_le_succ hlen) hmem (fun j hj => ?_) fun hlt => ?_
        · have hbyte := hbytes (j + 1) (Nat.succ_lt_succ hj)
          rwa [List.getElem_cons_succ, ← Nat.add_assoc, Nat.add_right_comm] at hbyte
        · have hbyte := hend (Nat.succ_lt_succ hlt)
          rwa [List.length_cons, ← Nat.add_assoc, Nat.add_right_comm] at hbyte
      rw [userString, hb, hrest]
      exact if_neg hne.symm

end Strings

/-! ### The console -/

section Console

variable {k : Kernel} {u : Uninit}

/-- The loop prints a string up to its end. -/
theorem printLoop_eq (count : Int) {n : Nat} {s : List Byte} {i : Nat} {k : Kernel} (hlen : s.length ≤ n)
    (hzero : 0 ∉ s) (hbytes : ∀ j ≤ n, k.buffer.bytes (i + j : Nat) = s.getD j 0)
    (hsize : (i + n : Nat) < k.buffer.size) (hinside : Inside k.buffer) :
    ∃ b, printLoop n i count k =
        .done (count + s.length) { k with output := k.output ++ s, buffer := b } ∧ Inside b := by
  induction n generalizing s i count k with
  | zero =>
    obtain rfl := List.length_eq_zero_iff.mp (Nat.le_zero.mp hlen)
    refine ⟨k.buffer.read i 1, ?_, hinside.read (Int.natCast_nonneg i) (by omega)⟩
    rw [List.append_nil, List.length_nil, Nat.cast_zero, Int.add_zero]
    rfl
  | succ n ih =>
    have hget : get i k = .done (s.getD 0 0) { k with buffer := k.buffer.read i 1 } := by
      rw [← hbytes 0 (Nat.zero_le _)]
      rfl
    have hread : Inside (k.buffer.read i 1) := hinside.read (Int.natCast_nonneg i) (by omega)
    rw [printLoop, bind_done hget]
    cases s with
    | nil =>
      refine ⟨k.buffer.read i 1, ?_, hread⟩
      rw [List.append_nil, List.length_nil, Nat.cast_zero, Int.add_zero]
      rfl
    | cons c s =>
      obtain ⟨hne, hmem⟩ := List.ne_and_not_mem_of_not_mem_cons hzero
      have hc : k.buffer.bytes i = c := hbytes 0 (Nat.zero_le _)
      have hwrite : consoleWrite i 1 { k with buffer := k.buffer.read i 1 } = .done 1
          { k with output := k.output ++ [c], buffer := (k.buffer.read i 1).read i 1 } := by
        rw [← hc]
        rfl
      have hcount : count + ((c :: s).length : Int) = count + 1 + s.length := by
        rw [List.length_cons]
        push_cast
        ring
      rw [List.getD_cons_zero, if_neg hne.symm, bind_done hwrite, hcount]
      have hread' : Inside ((k.buffer.read i 1).read i 1) := by
        refine hread.read (Int.natCast_nonneg i) ?_
        rw [Buffer.size_read]
        omega
      have hsize' : ((i + 1 + n : Nat) : Int) < k.buffer.size := by
        rw [Nat.add_right_comm]
        exact hsize
      have hbytes' : ∀ j ≤ n, k.buffer.bytes (i + 1 + j : Nat) = s.getD j 0 := by
        intro j hj
        have hbyte := hbytes (j + 1) (Nat.succ_le_succ hj)
        rwa [List.getD_cons_succ, ← Nat.add_assoc, Nat.add_right_comm] at hbyte
      obtain ⟨b, hloop, hb⟩ := ih (count + 1)
        (k := { k with output := k.output ++ [c], buffer := (k.buffer.read i 1).read i 1 })
        (Nat.le_of_succ_le_succ hlen) hmem hbytes' hsize' hread'
      refine ⟨b, ?_, hb⟩
      rw [Nat.cast_succ] at hloop
      rw [hloop, List.append_assoc]
      rfl

/-- Printing the string at an address of the user program. -/
def printString (virtAddr : Word) (heap : Int → Byte) : Call Unit := do
  user2System virtAddr maxString heap
  let count ← printLoop maxString 0 0
  returnValue count

theorem printString_cases (hm : UserSpace k.machine) (addr : Word) (heap : Int → Byte) :
    (∃ s m' b, userString k.machine addr maxString 0 = some s ∧
      printString addr heap k = .done () (({ k with machine := m', output := k.output ++ s, buffer := b } :
        Kernel).returned s.length) ∧ Inside b) ∨
    (userString k.machine addr maxString 0 = none ∧ ∃ e k', printString addr heap k = .trap (.halted e) k') := by
  unfold printString
  rcases user2System_cases addr hm maxString heap with
    ⟨s, m', b, hs, hcopy, -, hholds⟩ | ⟨hnone, e, k', htrap⟩
  · obtain ⟨hlen, hzero⟩ := length_userString hs
    obtain ⟨b', hloop, hb'⟩ := printLoop_eq 0 (n := maxString) (s := s) (i := 0)
      (k := { k with machine := m', buffer := b }) hlen hzero
      (fun j hj => by rw [Nat.zero_add]; exact hholds.bytes j hj)
      (by rw [hholds.size]; omega) hholds.inside
    refine Or.inl ⟨s, m', b', hs, ?_, hb'⟩
    rw [Int.zero_add] at hloop
    rw [bind_done hcopy]
    exact bind_done hloop
  · exact Or.inr ⟨hnone, e, k', bind_trap htrap⟩

/-- The call for the console prints the string of the user program. -/
theorem scWrite_console (hm : UserSpace k.machine) (h : k.fID = 1) :
    (∃ s m' b, userString k.machine (k.machine.registers r4) maxString 0 = some s ∧
      scWrite u k = .done () (({ k with machine := m', output := k.output ++ s, buffer := b } :
        Kernel).returned s.length) ∧ Inside b) ∨
    (userString k.machine (k.machine.registers r4) maxString 0 = none ∧
      ∃ e k', scWrite u k = .trap (.halted e) k') := by
  have hcall : scWrite u k = printString (k.machine.registers r4) u.heap k := by
    show (if k.fID = 1 then _ else _ : Call Unit) k = _
    rw [if_pos h]
    rfl
  rw [hcall]
  exact printString_cases hm (k.machine.registers r4) u.heap

/-- A string of the right length is what was requested. -/
theorem requested_of_userString {s : List Byte}
    (hs : userString k.machine (k.machine.registers r4) maxString 0 = some s)
    (hlen : (s.length : Int) = k.length) : Requested k s ∧ WholeString k := by
  obtain ⟨hle, hzero⟩ := length_userString hs
  obtain ⟨hbytes, hend⟩ := userString_bytes hs
  simp only [Nat.zero_add] at hbytes hend
  refine ⟨⟨hlen, hbytes⟩, by omega, fun j hj => ?_, fun hlt => ?_⟩
  · rw [hbytes j (by omega)]
    refine ⟨Option.some_ne_none _, fun h => hzero ?_⟩
    rw [← Option.some.inj h]
    exact List.getElem_mem _
  · rw [← hlen, Int.toNat_natCast]
    exact hend (by omega)

theorem exists_userString (h : WholeString k) (hn : 0 ≤ k.length) :
    ∃ s, userString k.machine (k.machine.registers r4) maxString 0 = some s ∧
      (s.length : Int) = k.length := by
  obtain ⟨hle, hbytes, hend⟩ := h
  let s := (List.range k.length.toNat).map fun j : Nat =>
    (k.machine.userByte (k.machine.registers r4 + BitVec.ofNat 32 j)).getD 0
  have hlen : s.length = k.length.toNat := by simp [s]
  have hget : ∀ (j : Nat) (h : j < s.length),
      k.machine.userByte (k.machine.registers r4 + BitVec.ofNat 32 j) = some s[j] := by
    intro j hj
    obtain ⟨hne, -⟩ := hbytes j (by omega)
    obtain ⟨b, hb⟩ := Option.ne_none_iff_exists'.mp hne
    simp [s, hb]
  refine ⟨s, userString_eq_some (by omega) (fun hzero => ?_) (fun j hj => ?_) (fun hlt => ?_), by omega⟩
  · obtain ⟨j, hj, heq⟩ := List.getElem_of_mem hzero
    refine (hbytes j (by omega)).2 ?_
    rw [hget j hj, heq]
  · rw [Nat.zero_add]
    exact hget j hj
  · rw [Nat.zero_add, hlen]
    exact hend (by omega)

theorem writesAll_console (hm : UserSpace k.machine) (hn : 0 ≤ k.length) (h : k.fID = 1) :
    WritesAll k (scWrite u k) ↔ WholeString k := by
  constructor
  · rintro ⟨bytes, k', hrequested, hdone, -, -, hresult⟩
    rcases scWrite_console (u := u) hm h with ⟨s, m', b, hs, hcall, -⟩ | ⟨-, e, k'', htrap⟩
    · rw [hcall] at hdone
      obtain ⟨-, rfl⟩ := Outcome.done.inj hdone
      obtain ⟨hlen, -⟩ := length_userString hs
      have hcount : (BitVec.ofInt 32 s.length).toInt = s.length := by
        rw [BitVec.toInt_ofInt]
        exact s32_of_bounds (by omega) (by unfold maxString at hlen; omega)
      refine (requested_of_userString hs ?_).2
      rw [← hcount, ← hresult]
      exact congrArg BitVec.toInt
        (Function.update_self resultReg (BitVec.ofInt 32 s.length) m'.registers).symm
    · rw [htrap] at hdone
      cases hdone
  · intro hwhole
    obtain ⟨s, hs, hlen⟩ := exists_userString hwhole hn
    rcases scWrite_console (u := u) hm h with ⟨s', m', b, hs', hcall, hb⟩ | ⟨hnone, -⟩
    · rw [hs] at hs'
      obtain rfl := Option.some.inj hs'
      obtain ⟨hle, -⟩ := length_userString hs
      refine ⟨s, _, (requested_of_userString hs hlen).1, hcall, ?_, hb, ?_⟩
      · unfold Sent
        rw [if_pos h]
        exact ⟨rfl, rfl, rfl⟩
      · rw [← hlen]
        refine (congrArg BitVec.toInt
          (Function.update_self resultReg (BitVec.ofInt 32 s.length) m'.registers)).trans ?_
        rw [BitVec.toInt_ofInt]
        exact s32_of_bounds (by omega) (by unfold maxString at hle; omega)
    · rw [hs] at hnone
      cases hnone

end Console

/-! ### Files -/

section File

variable {k : Kernel} {u : Uninit} {f : OpenFile}

/-- A call for a file never returns the size: it halts, or it returns -2. -/
theorem scWrite_file (hm : UserSpace k.machine) (hf : ReadsFile k f) (htype : f.type = 0)
    {k' : Kernel} (h : scWrite u k = .done () k') : (k'.machine.registers resultReg).toInt = -2 := by
  have hcall : scWrite u k = (do
      user2System (k.machine.registers r4) maxString u.heap
      let len ← fileWrite k.fID f k.length
      returnValue (if len ≠ k.length - 1 then -2 else len)) k := by
    show (if k.fID = 1 then _ else if k.fID < 2 ∨ k.fID > 9 then _ else _ : Call Unit) k = _
    have hlower := hf.lower
    have hupper := hf.upper
    rw [if_neg (by omega), if_neg (by omega)]
    refine (bind_done (openFile_of_some hf.isOpen)).trans ?_
    show (if f.type = 1 then _ else _ : Call Unit) k = _
    rw [if_neg (by omega)]
    rfl
  rw [hcall] at h
  rcases user2System_cases (k.machine.registers r4) hm maxString u.heap with
    ⟨s, m', b, hs, hcopy, -, hholds⟩ | ⟨hnone, e, k'', htrap⟩
  · rw [bind_done hcopy] at h
    by_cases hoffset : f.currentOffset < 0
    · have hfault : fileWrite k.fID f k.length { k with machine := m', buffer := b } =
          .fault (.machine .assertion) := by
        unfold fileWrite lseek
        rw [if_pos hoffset]
        rfl
      rw [bind_fault hfault] at h
      cases h
    · have hwrite : (∃ k₁, fileWrite k.fID f k.length { k with machine := m', buffer := b } =
          .done k.length k₁) ∨ fileWrite k.fID f k.length { k with machine := m', buffer := b } =
          .fault (.machine .assertion) := by
        unfold fileWrite lseek
        rw [if_neg hoffset]
        by_cases hneg : k.length < 0
        · rw [if_pos hneg]
          by_cases hone : k.length = -1
          · rw [if_pos hone]
            exact Or.inl ⟨_, rfl⟩
          · rw [if_neg hone]
            exact Or.inr rfl
        · rw [if_neg hneg]
          exact Or.inl ⟨_, rfl⟩
      rcases hwrite with ⟨k₁, hwrite⟩ | hfault
      swap
      · rw [bind_fault hfault] at h
        cases h
      rw [bind_done hwrite, if_pos (by omega)] at h
      obtain ⟨-, rfl⟩ := Outcome.done.inj h
      exact congrArg BitVec.toInt
        (Function.update_self resultReg (BitVec.ofInt 32 (-2)) k₁.machine.registers)
  · rw [bind_trap htrap] at h
    cases h

end File

/-- `Write` does what it is asked to exactly for the console and a size that is the length of the
string in the buffer. -/
theorem writesAll_iff (k : Kernel) (u : Uninit) (hm : UserSpace k.machine) (hn : 0 ≤ k.length)
    (hid : Writable k) : WritesAll k (scWrite u k) ↔ k.fID = 1 ∧ WholeString k := by
  rcases hid with hconsole | ⟨f, hf, htype⟩
  · rw [and_iff_right hconsole]
    exact writesAll_console hm hn hconsole
  · refine iff_of_false ?_ fun h => ?_
    · rintro ⟨bytes, k', -, hdone, -, -, hresult⟩
      have hneg := scWrite_file hm hf htype hdone
      omega
    · have hlower := hf.lower
      omega

/-- Writing the two bytes `a` and `b` into a file returns -2. -/
theorem not_writesAll_file :
    ¬ WritesAll (callingWithFile (onePage (fun a => if a < 2 then 97 else 0) 0 2 2) [] [])
      (scWrite zeroed (callingWithFile (onePage (fun a => if a < 2 then 97 else 0) 0 2 2) [] [])) := by
  rintro ⟨bytes, k', -, hdone, -, -, hresult⟩
  have hf : ReadsFile (callingWithFile (onePage (fun a => if a < 2 then 97 else 0) 0 2 2) [] [])
      ⟨0, 0, 0⟩ := ⟨by decide, by decide, rfl⟩
  rw [scWrite_file (userSpace_onePage _ _ _ _) hf rfl hdone] at hresult
  exact absurd hresult (by decide)

/-- Printing a string of two bytes. -/
theorem writesAll_console_two :
    let k := calling (onePage (fun a => if a < 2 then 97 else 0) 0 2 1) []
    UserSpace k.machine ∧ Writable k ∧ WritesAll k (scWrite zeroed k) := by
  intro k
  have hm : UserSpace k.machine := userSpace_onePage _ _ _ _
  have hid : Writable k := Or.inl (by decide)
  refine ⟨hm, hid, (writesAll_iff k zeroed hm (by decide) hid).mpr ⟨by decide, by decide, ?_, ?_⟩⟩
  · intro j hj
    have hlt : j < 2 := by
      have hlength : k.length = 2 := rfl
      omega
    interval_cases j <;> decide
  · intro _
    decide

end Nachos.Syscalls
