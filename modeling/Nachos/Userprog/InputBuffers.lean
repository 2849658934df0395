import Nachos.Userprog.CallSpecs

/-!
# Kernel buffers of the calls for input

`SC_ReadString`, `SC_ReadInt`, `SC_ReadChar` and `SC_ReadFloat` read a line from the console into a
buffer of their own. `SC_ReadString` uses the result of `SynchConsole::Read`, which is -1 after
control-A, as an index, and takes the size of the buffer from a register; `SC_ReadFloat` passes its
buffer to `atof` although it may hold no zero byte.

`inside_iff`: exactly when each of them stays inside its buffer.
-/

namespace Nachos.Syscalls

open Programs Program CInt Machine

/-! ### Statement -/

/-- The call has made a buffer and stayed inside it. -/
def Safe : Outcome Kernel Stop Abort Unit → Prop
  | .done _ k => Inside k.buffer
  | .trap _ k => Inside k.buffer
  | .fault _ => False

/-- The length that `SC_ReadString` is given. -/
def Kernel.length (k : Kernel) : Int := (k.machine.registers r5).toInt

/-- The length is one that a buffer can have, and the line does not end with control-A. -/
def StringInside (k : Kernel) (u : Uninit) : Prop :=
  0 ≤ k.length ∧ k.length < 2 ^ 31 - 1 ∧ (line k.length.toNat k.input).ending ≠ .controlA ∧
    ¬ (k.length = 0 ∧ u.ch = controlA)

/-- The bytes of the buffer that `SC_ReadFloat` does not write. -/
def Uninit.tail (u : Uninit) : List Byte := (List.range 216).map fun i : Nat => u.heap (40 + i)

/-- How far a numeral has come after the given bytes, if it goes on through all of them. -/
def goesOn (state : Numeral) (bytes : List Byte) : Option Numeral :=
  bytes.foldlM (fun s c => Numeral.next s (charOf c)) state

/-- A line of 40 characters together with the rest of the buffer is not one numeral. -/
def FloatInside (k : Kernel) (u : Uninit) : Prop :=
  (line 40 k.input).ending = .full →
    goesOn .start ((line 40 k.input).chars ++ u.tail) = none

/-! ### The buffer with a line -/

/-- The buffer when `SynchConsole::Read` has put the line into it. -/
def filled (size : Int) (heap : Int → Byte) (numBytes : Int) (l : Line) : Buffer :=
  ((Buffer.mk size heap []).write 0 (List.replicate numBytes.toNat 0)).write 0 l.chars

theorem Inside.filled {size numBytes : Int} (heap : Int → Byte) (hfit : numBytes.toNat ≤ size)
    (input : List Byte) : Inside (filled size heap numBytes (line numBytes.toNat input)) := by
  obtain ⟨hlen, -, -⟩ := line_chars numBytes.toNat input
  have hzeros : Inside ((Buffer.mk size heap []).write 0 (List.replicate numBytes.toNat 0)) := by
    refine (Inside.new size heap).write (Int.le_refl 0) ?_
    rw [List.length_replicate, zero_add]
    exact hfit
  refine hzeros.write (Int.le_refl 0) ?_
  rw [Buffer.size_write, zero_add]
  exact le_trans (by exact_mod_cast hlen) hfit

/-- A call that makes a buffer and reads a line: it waits, or it goes on with the line. -/
theorem newBuffer_consoleRead {size : Int} (hsize : 0 ≤ size) (heap : Int → Byte) (numBytes : Int)
    (ch : Byte) (f : Int → Call Unit) (k : Kernel) :
    (do newBuffer size heap; let n ← consoleRead numBytes ch; f n) k =
      let l := line numBytes.toNat k.input
      let k' := { k with input := l.rest, buffer := filled size heap numBytes l }
      if l.ending = .waiting then .trap .waiting k' else f (l.result ch) k' := by
  have hnew : newBuffer size heap k = .done () { k with buffer := ⟨size, heap, []⟩ } := by
    unfold newBuffer
    rw [if_neg (by omega)]
    rfl
  rw [bind_done hnew]
  have hread := consoleRead_eq numBytes ch { k with buffer := ⟨size, heap, []⟩ }
  split at hread
  · rename_i hending
    rw [bind_trap hread]
    exact (if_pos hending).symm
  · rename_i hending
    rw [bind_done hread]
    exact (if_neg hending).symm

/-! ### The calls -/

section Calls

variable {k : Kernel} {u : Uninit}

theorem Kernel.length_bounds (k : Kernel) : -2 ^ 31 ≤ k.length ∧ k.length < 2 ^ 31 := by
  have hlo := BitVec.le_toInt (k.machine.registers r5)
  have hhi := BitVec.toInt_lt (x := k.machine.registers r5)
  exact ⟨hlo, hhi⟩

/-- `new char[len + 1]` succeeds. -/
theorem s32_succ_nonneg {len : Int} (hlo : -2 ^ 31 ≤ len) (hhi : len < 2 ^ 31) :
    0 ≤ s32 (len + 1) ↔ -1 ≤ len ∧ len < 2 ^ 31 - 1 := by
  by_cases hmax : len = 2 ^ 31 - 1
  · subst hmax
    decide
  · rw [s32_of_bounds (by omega) (by omega)]
    omega

/-- What `deliver` does to the buffer, for a count. -/
theorem safe_deliver (addr : Word) (hm : UserSpace k.machine) {n : Nat} (hn : n + 1 < 2 ^ 31)
    (hb : Inside k.buffer) : Safe (deliver addr n k) ↔ (n : Int) < k.buffer.size := by
  have hread : ∀ r ≤ n + 1, Inside ((k.buffer.write n [0]).read 0 r) ↔ (n : Int) < k.buffer.size := by
    intro r hr
    constructor
    · intro h
      by_contra hout
      exact not_inside_write (fun hin => hout hin.2) h.of_read
    · intro h
      refine (hb.write (Int.natCast_nonneg n) ?_).read (Int.le_refl 0) ?_
      · rw [List.length_singleton]
        omega
      · rw [Buffer.size_write]
        omega
  have hlen := length_copied (k.buffer.write n [0]).bytes (n + 1) 0
  rw [deliver_eq]
  rcases sendString_cases addr n (k := { k with buffer := k.buffer.write n [0] }) hm hn with
    ⟨m', hdone, -, -⟩ | ⟨j, e, m', htrap, hj, -, -⟩
  · rw [hdone]
    exact hread _ hlen
  · rw [htrap]
    exact hread (j + 1) (Nat.le_trans hj hlen)

theorem newBuffer_neg {size : Int} (h : size < 0) (heap : Int → Byte) (f : Unit → Call Unit) (k : Kernel) :
    (newBuffer size heap >>= f) k = .fault .allocation := by
  refine bind_fault ?_
  unfold newBuffer
  rw [if_pos h]
  rfl

theorem scReadString_eq (u : Uninit) (k : Kernel) : scReadString u k = (do
    newBuffer (s32 (k.length + 1)) u.heap
    let n ← consoleRead k.length u.ch
    deliver (k.machine.registers r4) n) k := by
  unfold scReadString
  rfl

theorem safe_scReadString (hm : UserSpace k.machine) :
    Safe (scReadString u k) ↔ StringInside k u := by
  obtain ⟨hlo, hhi⟩ := k.length_bounds
  have hnonneg := s32_succ_nonneg hlo hhi
  unfold StringInside
  by_cases hsize : 0 ≤ s32 (k.length + 1)
  · obtain ⟨hneg, hmax⟩ := hnonneg.mp hsize
    rw [scReadString_eq, newBuffer_consoleRead hsize]
    simp only
    obtain ⟨hlen, hfull, -⟩ := line_chars k.length.toNat k.input
    have hs32 : s32 (k.length + 1) = k.length + 1 := s32_of_bounds (by omega) (by omega)
    have hfilled : Inside (filled (s32 (k.length + 1)) u.heap k.length (line k.length.toNat k.input)) :=
      Inside.filled u.heap (by omega) k.input
    by_cases hwaiting : (line k.length.toNat k.input).ending = .waiting
    · rw [if_pos hwaiting]
      have hpos : 0 < k.length.toNat := by
        rcases Nat.eq_zero_or_pos k.length.toNat with hzero | hpos
        · rw [hzero, line] at hwaiting
          cases hwaiting
        · exact hpos
      refine iff_of_true hfilled ⟨by omega, hmax, by rw [hwaiting]; simp, by omega⟩
    · rw [if_neg hwaiting]
      rcases result_cases hwaiting u.ch with ⟨hends, hresult⟩ | ⟨hends, hch, hresult⟩
      · rw [hresult, deliver_neg_one]
        refine iff_of_false (not_inside_write (by omega)) ?_
        rintro ⟨h0, -, hne, hgarbage⟩
        rcases hends with hends | ⟨hzero, hch⟩
        · exact hne hends
        · exact hgarbage ⟨by omega, hch⟩
      · rw [hresult]
        have hsafe := safe_deliver (k.machine.registers r4)
          (k := { k with
            input := (line k.length.toNat k.input).rest
            buffer := filled (s32 (k.length + 1)) u.heap k.length (line k.length.toNat k.input) })
          hm (n := (line k.length.toNat k.input).chars.length) (by omega) hfilled
        refine hsafe.trans ?_
        show ((line k.length.toNat k.input).chars.length : Int) < s32 (k.length + 1) ↔ _
        rw [hs32]
        constructor
        · intro h
          exact ⟨by omega, hmax, hends, fun hzero => hch ⟨by omega, hzero.2⟩⟩
        · rintro ⟨h0, -⟩
          omega
  · have hfault : scReadString u k = .fault .allocation := by
      rw [scReadString_eq, newBuffer_neg (Int.not_le.mp hsize)]
    rw [hfault]
    exact iff_of_false id fun h => hsize (hnonneg.mpr ⟨by omega, h.2.1⟩)

/-- `SC_ReadInt` reads characters that `SynchConsole::Read` has written. -/
theorem readIntLoop_inside (n : Nat) {i numOfChars : Int} (number multiplier : Int) {k : Kernel}
    (hb : Inside k.buffer) (hi : 0 ≤ i) (hsize : numOfChars ≤ k.buffer.size) :
    ∃ r k', readIntLoop n i numOfChars number multiplier k = .done r k' ∧ Inside k'.buffer := by
  induction n generalizing i numOfChars number multiplier k with
  | zero => exact ⟨_, k, rfl, hb⟩
  | succ n ih =>
    unfold readIntLoop
    by_cases hlt : i < numOfChars
    · have hget : get i k = .done (k.buffer.bytes i) { k with buffer := k.buffer.read i 1 } := rfl
      have hb' : Inside (k.buffer.read i 1) := hb.read hi (by omega)
      rw [if_pos hlt, bind_done hget]
      split
      · exact ih _ _ hb' (by omega) hsize
      · split
        · exact ih _ _ hb' (by omega) hsize
        · have hnum : (if i = 0 ∧ numOfChars = 11 then 10 else numOfChars) ≤ k.buffer.size := by
            split
            · omega
            · exact hsize
          generalize (if i = 0 ∧ numOfChars = 11 then 10 else numOfChars) = num at hnum ⊢
          dsimp only
          split
          · exact ⟨_, { k with buffer := k.buffer.read i 1 }, rfl, hb'⟩
          · exact ih _ _ hb' (by omega) hnum
    · rw [if_neg hlt]
      exact ⟨_, k, rfl, hb⟩

/-- What `SynchConsole::Read` returns is at most the length of the buffer. -/
theorem result_le {n : Nat} {input : List Byte} (h : (line n input).ending ≠ .waiting) (ch : Byte) :
    (line n input).result ch ≤ n := by
  obtain ⟨hlen, -, -⟩ := line_chars n input
  rcases result_cases h ch with ⟨-, hresult⟩ | ⟨-, -, hresult⟩ <;> omega

theorem safe_scReadInt (k : Kernel) (u : Uninit) : Safe (scReadInt u k) := by
  have hfilled : Inside (filled 12 u.heap 11 (line (11 : Int).toNat k.input)) :=
    Inside.filled u.heap (by decide) k.input
  unfold scReadInt
  rw [newBuffer_consoleRead (by decide)]
  simp only
  split
  · exact hfilled
  · rename_i hwaiting
    split
    · have hle := result_le hwaiting u.ch
      have hsize : (line (11 : Int).toNat k.input).result u.ch ≤
          (filled 12 u.heap 11 (line (11 : Int).toNat k.input)).size :=
        Int.le_trans hle (show (11 : Int) ≤ 12 by decide)
      obtain ⟨r, k', hloop, hinside⟩ := readIntLoop_inside
        ((line (11 : Int).toNat k.input).result u.ch).toNat 0 1
        (k := { k with
          input := (line (11 : Int).toNat k.input).rest
          buffer := filled 12 u.heap 11 (line (11 : Int).toNat k.input) })
        hfilled (Int.le_refl 0) hsize
      rw [bind_done hloop]
      exact hinside
    · exact hfilled

theorem safe_scReadChar (k : Kernel) (u : Uninit) : Safe (scReadChar u k) := by
  have hfilled : Inside (filled maxString u.heap maxString (line (maxString : Int).toNat k.input)) :=
    Inside.filled u.heap (by decide) k.input
  unfold scReadChar
  rw [newBuffer_consoleRead (by decide)]
  simp only
  split
  · exact hfilled
  · split
    · exact hfilled
    · split
      · exact hfilled
      · exact hfilled.read (Int.le_refl 0) (show (0 : Int) + (1 : Nat) ≤ maxString by decide)

/-- `atof` reads as long as the numeral goes on. -/
theorem atofLoop_eq (n : Nat) (i : Int) (state : Numeral) (k : Kernel) :
    ∃ r ≤ n + 1, atofLoop (n + 1) i state k = .done () { k with buffer := k.buffer.read i r } ∧
      (r = n + 1 ↔ goesOn state (k.buffer.slice i n) ≠ none) := by
  have hget : get i k = .done (k.buffer.bytes i) { k with buffer := k.buffer.read i 1 } := rfl
  induction n generalizing i state k with
  | zero =>
    refine ⟨1, Nat.le_refl 1, ?_, iff_of_true rfl (Option.some_ne_none state)⟩
    rw [atofLoop, bind_done hget]
    cases state.next (charOf (k.buffer.bytes i)) with
    | none => rfl
    | some state' => rfl
  | succ n ih =>
    rw [atofLoop, bind_done hget, Buffer.slice_succ]
    unfold goesOn
    rw [List.foldlM_cons]
    cases hnext : state.next (charOf (k.buffer.bytes i)) with
    | none =>
      refine ⟨1, by omega, rfl, iff_of_false (by omega) ?_⟩
      exact fun h => h rfl
    | some state' =>
      obtain ⟨r, hr, hloop, hfull⟩ := ih (i + 1) state' { k with buffer := k.buffer.read i 1 } rfl
      refine ⟨r + 1, by omega, ?_, ?_⟩
      · refine hloop.trans ?_
        rw [← Buffer.read_succ k.buffer i r]
      · rw [Nat.succ_inj]
        exact hfull

/-- No numeral has a zero byte. -/
theorem next_zero (state : Numeral) : state.next (charOf 0) = none := by
  have hword : ∀ (l : List Char) (n : Nat), (charOf 0).toLower ∉ l →
      l[n]? ≠ some (charOf 0).toLower := fun l n hl h => hl (List.mem_of_getElem? h)
  cases state with
  | start => decide
  | signed => decide
  | zero => decide
  | hexPrefix => decide
  | integer hex => cases hex <;> decide
  | point hex => cases hex <;> decide
  | fraction hex => cases hex <;> decide
  | exponent => decide
  | exponentSigned => decide
  | power => decide
  | infinity n => exact if_neg (hword _ n (by decide))
  | nan n => exact if_neg (hword _ n (by decide))
  | payload => decide

theorem goesOn_append (state : Numeral) (bytes bytes' : List Byte) :
    goesOn state (bytes ++ bytes') = (goesOn state bytes).bind fun s => goesOn s bytes' :=
  List.foldlM_append ..

/-- The bytes of the buffer of `SC_ReadFloat`. -/
theorem slice_filled (heap : Int → Byte) (input : List Byte) {n size : Nat} (hn : n ≤ size) :
    (filled size heap n (line n input)).slice 0 size =
      (line n input).chars ++ List.replicate (n - (line n input).chars.length) 0 ++
        (List.range (size - n)).map fun i : Nat => heap (n + i) := by
  obtain ⟨hlen, -, -⟩ := line_chars n input
  unfold Buffer.slice filled
  apply List.ext_getElem
  · simp
    omega
  · intro j hj hj'
    rw [List.getElem_map, List.getElem_range, zero_add]
    rw [List.length_map, List.length_range] at hj
    by_cases hchar : j < (line n input).chars.length
    · rw [Buffer.bytes_write_of_mem _ _ _ (by simp) (by simpa using hchar)]
      simp [hchar]
    · rw [Buffer.bytes_write_of_not_mem _ _ _ (by simp; omega)]
      by_cases hzero : j < n
      · rw [Buffer.bytes_write_of_mem _ _ _ (by simp) (by simpa using hzero),
          List.getElem_append_left (by simp; omega), List.getElem_append_right (by omega),
          List.getElem_replicate]
        exact List.getD_replicate 0 (by simpa using hzero)
      · rw [Buffer.bytes_write_of_not_mem _ _ _ (by simp; omega),
          List.getElem_append_right (by simp; omega), List.getElem_map, List.getElem_range]
        refine congrArg heap ?_
        simp only [List.length_append, List.length_replicate]
        omega

/-- A buffer with a zero byte ends every numeral. -/
theorem goesOn_zero {bytes bytes' : List Byte} (state : Numeral) {n : Nat} (hn : 0 < n) :
    goesOn state (bytes ++ List.replicate n 0 ++ bytes') = none := by
  obtain ⟨n, rfl⟩ := Nat.exists_eq_succ_of_ne_zero hn.ne'
  rw [goesOn_append, goesOn_append, List.replicate_succ]
  cases goesOn state bytes with
  | none => rfl
  | some s =>
    have hzero : goesOn s (0 :: List.replicate n 0) = none := by
      unfold goesOn
      rw [List.foldlM_cons, next_zero]
      rfl
    rw [Option.bind_some, hzero, Option.bind_none]

/-- `atof` runs out of the buffer exactly when all of it is one numeral. -/
theorem goesOn_slice (k : Kernel) (u : Uninit) :
    goesOn .start ((filled maxString u.heap 40 (line 40 k.input)).slice 0 maxString) ≠ none ↔
      ¬ FloatInside k u := by
  obtain ⟨hlen, hfull, -⟩ := line_chars 40 k.input
  have hslice := slice_filled u.heap k.input (n := 40) (show 40 ≤ maxString by decide)
  unfold FloatInside
  by_cases hends : (line 40 k.input).ending = .full
  · rw [hfull.mp hends, Nat.sub_self, List.replicate_zero, List.append_nil] at hslice
    rw [show filled maxString u.heap 40 = filled (maxString : Nat) u.heap (40 : Nat) from rfl, hslice]
    rw [Classical.not_imp, and_iff_right hends]
    rfl
  · rw [show filled maxString u.heap 40 = filled (maxString : Nat) u.heap (40 : Nat) from rfl, hslice]
    refine iff_of_false (fun h => h (goesOn_zero .start ?_)) fun h => h fun hfull => absurd hfull hends
    have hne : (line 40 k.input).chars.length ≠ 40 := fun h => hends (hfull.mpr h)
    omega

theorem safe_scReadFloat (k : Kernel) (u : Uninit) : Safe (scReadFloat u k) ↔ FloatInside k u := by
  have hfilled : Inside (filled maxString u.heap 40 (line 40 k.input)) :=
    Inside.filled u.heap (by decide) k.input
  obtain ⟨hlen, hfull, -⟩ := line_chars 40 k.input
  unfold scReadFloat
  rw [newBuffer_consoleRead (by decide), show (40 : Int).toNat = 40 from rfl]
  simp only
  by_cases hwaiting : (line 40 k.input).ending = .waiting
  · rw [if_pos hwaiting]
    refine iff_of_true hfilled fun hends => ?_
    rw [hwaiting] at hends
    cases hends
  rw [if_neg hwaiting]
  let k₁ : Kernel :=
    { k with input := (line 40 k.input).rest, buffer := filled maxString u.heap 40 (line 40 k.input) }
  by_cases hpos : (line 40 k.input).result u.ch > 0
  · obtain ⟨r, hr, hloop, hrest⟩ := atofLoop_eq maxString 0 .start k₁
    have hsafe : Inside (k₁.buffer.read 0 r) ↔ r ≠ maxString + 1 := by
      constructor
      · rintro hinside rfl
        have hlast := hinside ⟨false, maxString⟩
          (List.mem_append_right _ (mem_accessesFrom.mpr ⟨rfl, by decide, by decide⟩))
        exact absurd hlast.2 (Int.lt_irrefl maxString)
      · intro hne
        refine hfilled.read (Int.le_refl 0) ?_
        show (0 : Int) + r ≤ maxString
        omega
    have hatof := goesOn_slice k u
    rw [if_pos hpos, bind_done hloop]
    refine hsafe.trans ?_
    rw [← not_iff_not, not_not, hrest]
    exact hatof
  · rw [if_neg hpos]
    refine iff_of_true hfilled fun hends => ?_
    -- 40 characters are a positive result
    have hlength := hfull.mp hends
    rcases result_cases hwaiting u.ch with ⟨hctrl, -⟩ | ⟨-, -, hresult⟩
    · rcases hctrl with hctrl | ⟨hzero, -⟩
      · rw [hends] at hctrl
        cases hctrl
      · cases hzero
    · omega

/-- Exactly when the calls for input stay inside their buffers. -/
theorem inside_iff (k : Kernel) (u : Uninit) (hm : UserSpace k.machine) :
    (Safe (scReadString u k) ↔ StringInside k u) ∧ Safe (scReadInt u k) ∧ Safe (scReadChar u k) ∧
      (Safe (scReadFloat u k) ↔ FloatInside k u) :=
  ⟨safe_scReadString hm, safe_scReadInt k u, safe_scReadChar k u, safe_scReadFloat k u⟩

end Calls

/-- `ReadString` into a buffer of 5 characters, for the line `hi`. -/
theorem inside_readString_hi :
    UserSpace (onePage (fun _ => 0) 0 5 0) ∧
      Safe (scReadString zeroed (calling (onePage (fun _ => 0) 0 5 0) [104, 105, newline])) := by
  have hm := userSpace_onePage (fun _ => 0) 0 5 0
  have hinside : StringInside (calling (onePage (fun _ => 0) 0 5 0) [104, 105, newline]) zeroed := by
    unfold StringInside
    decide
  obtain ⟨hstring, -⟩ := inside_iff (calling (onePage (fun _ => 0) 0 5 0) _) zeroed hm
  rw [hstring]
  exact ⟨hm, hinside⟩

/-- Control-A makes `ReadString` write in front of its buffer. -/
theorem not_safe_readString_controlA :
    ¬ Safe (scReadString zeroed (calling (onePage (fun _ => 0) 0 5 0) [controlA])) := by
  rw [safe_scReadString (userSpace_onePage _ _ _ _)]
  rintro ⟨-, -, hending, -⟩
  exact hending (by decide)

end Nachos.Syscalls
