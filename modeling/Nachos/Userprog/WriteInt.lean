import Nachos.Userprog.NumberStream
import Nachos.Userprog.WriteCall

/-!
# `SC_WriteInt2File`

For a file the call counts the digits of the number in one loop and writes as many of them in
another. The first loop ends at a number that is not positive, so that it counts no digits of a
negative one. For the console the call takes the number for the address of a string.

`writesNumeral_iff`: exactly when the call writes the numeral of its argument.
-/

namespace Nachos.Syscalls

open Programs Program CInt Machine

/-! ### The call -/

/-- The loop that counts the digits. -/
def countLoop (temp len : Int) : Int :=
  if temp > 0 then countLoop (temp.tdiv 10) (len + 1) else len
termination_by temp.toNat
decreasing_by
  rw [Int.tdiv_eq_ediv_of_nonneg (by omega)]
  omega

/-- The loop that writes the digits, for `n` more of them. -/
def digitLoop (len : Int) : Nat → Int → Int → Call Unit
  | 0, _, _ => pure ()
  | n + 1, i, number => do
    put (len - i - 1) [BitVec.ofInt 8 (number.tmod 10 + 48)]
    digitLoop len n (i + 1) (number.tdiv 10)

/-- `SC_WriteInt2File`. -/
def scWriteInt2File (u : Uninit) : Call Unit := do
  let virtAddr ← addressIn r4
  let fID ← intIn r5
  if fID = 1 then
    user2System virtAddr maxString u.heap
    let count ← printLoop maxString 0 0
    returnValue count
  else if fID < 2 ∨ fID > 9 then returnValue (-1)
  else
    match ← openFile fID with
    | none => returnValue (-1)
    | some file =>
      if file.type = 1 then returnValue (-1)
      else
        let len := if virtAddr.toInt = 0 then 1 else countLoop virtAddr.toInt 0
        newBuffer (s32 (len + 1)) u.heap
        digitLoop len len.toNat 0 virtAddr.toInt
        let size ← fileWrite fID file len
        returnValue (if len ≠ size then -2 else size)

/-! ### Statement -/

/-- The argument `id` of `WriteInt2File`. -/
def Kernel.target (k : Kernel) : Int := (k.machine.registers r5).toInt

/-- The id is the one of a file that was opened for reading and writing. -/
structure WritesFile (k : Kernel) (f : OpenFile) : Prop where
  lower : 2 ≤ k.target
  upper : k.target ≤ 9
  isOpen : k.openFileList k.target.toNat = some f
  type : f.type = 0

/-- The bytes are in the file at its offset, and nothing else has changed. -/
structure Appends (k : Kernel) (f : OpenFile) (bytes : List Byte) (k' : Kernel) : Prop where
  output : k'.output = k.output
  hostFiles : k'.hostFiles = Function.update k.hostFiles f.file
    (hostWrite (k.hostFiles f.file) f.currentOffset.toNat bytes)
  openFileList : ∀ i, i ≠ k.target.toNat → k'.openFileList i = k.openFileList i
  result : (k'.machine.registers resultReg).toInt = bytes.length

/-- The call has printed the numeral of its argument, or written it to the file. -/
def WritesNumeral (k : Kernel) (o : Outcome Kernel Stop Abort Unit) : Prop :=
  ∃ k', o = .done () k' ∧ if k.target = 1 then k'.output = k.output ++ numeral k.number
    else ∃ f, k.openFileList k.target.toNat = some f ∧ Appends k f (numeral k.number) k'

/-- The number is not negative and the host can go to the offset; for the console the number is the
address of its own numeral. -/
def Writes (k : Kernel) : Prop :=
  if k.target = 1 then
    userString k.machine (k.machine.registers r4) maxString 0 = some (numeral k.number)
  else 0 ≤ k.number ∧ ∀ f, k.openFileList k.target.toNat = some f → 0 ≤ f.currentOffset

/-! ### The loops -/

/-- The characters that the second loop writes, the last one first. -/
def emitted : Nat → Int → List Byte
  | 0, _ => []
  | n + 1, number => BitVec.ofInt 8 (number.tmod 10 + 48) :: emitted n (number.tdiv 10)

section Loops

theorem countLoop_of_nonpos {temp : Int} (h : temp ≤ 0) (len : Int) : countLoop temp len = len := by
  rw [countLoop, if_neg (by omega)]

theorem countLoop_natCast (m : Nat) (len : Int) : countLoop m len = len + (Nat.digits 10 m).length := by
  induction m using Nat.strongRecOn generalizing len with
  | ind m ih =>
    by_cases hzero : m = 0
    · subst hzero
      rw [countLoop_of_nonpos (by omega), Nat.digits_zero, List.length_nil, Nat.cast_zero, Int.add_zero]
    · rw [countLoop, if_pos (by omega), tdiv_natCast, ih (m / 10) (by omega),
        Nat.digits_def' (by decide) (Nat.pos_of_ne_zero hzero), List.length_cons]
      push_cast
      ring

theorem emitted_natCast (m : Nat) :
    emitted (Nat.digits 10 m).length m = (Nat.digits 10 m).map digitChar := by
  induction m using Nat.strongRecOn with
  | ind m ih =>
    by_cases hzero : m = 0
    · subst hzero
      rw [Nat.digits_zero]
      rfl
    · rw [Nat.digits_def' (by decide) (Nat.pos_of_ne_zero hzero), List.length_cons, List.map_cons, emitted]
      refine congrArg₂ List.cons (lowDigit_natCast m) ?_
      rw [tdiv_natCast]
      exact ih (m / 10) (by omega)

theorem digitLoop_eq (len : Int) (n : Nat) (i number : Int) (k : Kernel) :
    digitLoop len n i number k =
      .done () { k with buffer := k.buffer.writeDown (len - i - 1) (emitted n number) } := by
  induction n generalizing i number k with
  | zero => rfl
  | succ n ih =>
    refine (ih (i + 1) (number.tdiv 10) { k with
      buffer := k.buffer.write (len - i - 1) [BitVec.ofInt 8 (number.tmod 10 + 48)] }).trans ?_
    rw [emitted, Buffer.writeDown, show len - (i + 1) - 1 = len - i - 1 - 1 by ring]

theorem length_emitted (n : Nat) (number : Int) : (emitted n number).length = n := by
  induction n generalizing number with
  | zero => rfl
  | succ n ih => rw [emitted, List.length_cons, ih]

/-- Both loops agree for a number that is not negative. -/
theorem emitted_eq_numeral {number : Int} (h : 0 ≤ number) (hhi : number < 2 ^ 31) :
    (if number = 0 then 1 else countLoop number 0) = ((numeral number).length : Int) ∧
      (numeral number).length ≤ 10 ∧ (emitted (numeral number).length number).reverse = numeral number := by
  obtain ⟨m, rfl⟩ := Int.eq_ofNat_of_zero_le h
  unfold numeral numeral.unsigned
  rw [if_neg (Int.not_lt.mpr h)]
  by_cases hzero : m = 0
  · subst hzero
    exact ⟨rfl, by decide, rfl⟩
  · have hlen : (Nat.digits 10 m).length ≤ 10 := (Nat.digits_length_le_iff (by decide) m).mpr (by omega)
    rw [if_neg (by exact_mod_cast hzero), if_neg (by exact_mod_cast hzero), Int.natAbs_natCast,
      countLoop_natCast, List.length_reverse, List.length_map, zero_add]
    exact ⟨rfl, hlen, congrArg List.reverse (emitted_natCast m)⟩

end Loops

/-! ### Files -/

section File

variable {k : Kernel} {u : Uninit} {f : OpenFile}

theorem fileWrite_of_neg (fID numBytes : Int) (k : Kernel) (h : f.currentOffset < 0) :
    fileWrite fID f numBytes k = .fault (.machine .assertion) := by
  unfold fileWrite lseek
  rw [if_pos h]
  rfl

theorem fileWrite_of_nonneg (fID : Int) {numBytes : Int} (k : Kernel) (h : 0 ≤ f.currentOffset)
    (hnum : 0 ≤ numBytes) : fileWrite fID f numBytes k = .done numBytes (advance fID f numBytes
      (store f (k.buffer.slice 0 numBytes.toNat) { k with buffer := k.buffer.read 0 numBytes.toNat })) := by
  unfold fileWrite lseek
  rw [if_neg (Int.not_lt.mpr h), if_neg (Int.not_lt.mpr hnum)]
  rfl

/-- The number of digits that the first loop finds. -/
def Kernel.digitCount (k : Kernel) : Int := if k.number = 0 then 1 else countLoop k.number 0

theorem scWriteInt2File_file (hf : WritesFile k f) : scWriteInt2File u k = (do
    newBuffer (s32 (k.digitCount + 1)) u.heap
    digitLoop k.digitCount k.digitCount.toNat 0 k.number
    let size ← fileWrite k.target f k.digitCount
    returnValue (if k.digitCount ≠ size then -2 else size)) k := by
  show (if k.target = 1 then _ else if k.target < 2 ∨ k.target > 9 then _ else _ : Call Unit) k = _
  have hlower := hf.lower
  have hupper := hf.upper
  rw [if_neg (by omega), if_neg (by omega)]
  refine (bind_done (openFile_of_some hf.isOpen)).trans ?_
  show (if f.type = 1 then _ else _ : Call Unit) k = _
  have htype := hf.type
  rw [if_neg (by omega)]
  rfl

/-- The buffer with the digits. -/
def digitBuffer (k : Kernel) (u : Uninit) (len : Nat) : Buffer :=
  (Buffer.mk (len + 1) u.heap []).writeDown (len - 1) (emitted len k.number)

/-- The call up to `file->Write`. -/
theorem scWriteInt2File_write (hf : WritesFile k f) {len : Nat} (hlen : k.digitCount = len)
    (hle : len ≤ 10) : scWriteInt2File u k = (do
      let size ← fileWrite k.target f len
      returnValue (if (len : Int) ≠ size then -2 else size)) { k with buffer := digitBuffer k u len } := by
  have hnew : newBuffer (s32 (len + 1)) u.heap k = .done () { k with buffer := ⟨len + 1, u.heap, []⟩ } := by
    rw [s32_of_bounds (by omega) (by omega)]
    unfold newBuffer
    rw [if_neg (by omega)]
    rfl
  have hdigits := digitLoop_eq len len 0 k.number { k with buffer := ⟨len + 1, u.heap, []⟩ }
  rw [Int.sub_zero] at hdigits
  rw [scWriteInt2File_file hf, hlen, bind_done hnew, Int.toNat_natCast, bind_done hdigits]
  rfl

theorem slice_digitBuffer (k : Kernel) (u : Uninit) (len : Nat) :
    (digitBuffer k u len).slice 0 len = (emitted len k.number).reverse := by
  have hlen : len ≤ (emitted len k.number).length := by rw [length_emitted]
  have hslice := slice_writeDown (b := ⟨len + 1, u.heap, []⟩) (i := len - 1) (emitted len k.number) hlen
  rw [show (len : Int) - 1 + 1 - len = 0 by ring,
    List.take_of_length_le (by rw [length_emitted])] at hslice
  exact hslice

/-- The digits that the first loop has counted are written. -/
theorem scWriteInt2File_done (hf : WritesFile k f) {len : Nat} (hlen : k.digitCount = len)
    (hle : len ≤ 10) (hoffset : 0 ≤ f.currentOffset) :
    ∃ k', scWriteInt2File u k = .done () k' ∧ Appends k f (emitted len k.number).reverse k' := by
  have hwrite := fileWrite_of_nonneg k.target { k with buffer := digitBuffer k u len } hoffset
    (Int.natCast_nonneg len)
  rw [Int.toNat_natCast, slice_digitBuffer] at hwrite
  rw [scWriteInt2File_write hf hlen hle, bind_done hwrite, if_neg (not_not.mpr rfl)]
  refine ⟨_, rfl, rfl, rfl, fun i hi => Function.update_of_ne hi _ _, ?_⟩
  rw [List.length_reverse, length_emitted]
  refine (congrArg BitVec.toInt (result_returned _ _)).trans ?_
  rw [BitVec.toInt_ofInt]
  exact s32_of_bounds (by omega) (by omega)

theorem digitCount_of_nonneg (h : 0 ≤ k.number) : k.digitCount = ((numeral k.number).length : Int) ∧
    (numeral k.number).length ≤ 10 ∧
    (emitted (numeral k.number).length k.number).reverse = numeral k.number :=
  emitted_eq_numeral h (number_bounds k).2

theorem digitCount_of_neg (h : k.number < 0) : k.digitCount = ((0 : Nat) : Int) := by
  unfold Kernel.digitCount
  rw [if_neg (by omega), countLoop_of_nonpos (by omega), Nat.cast_zero]

/-- Nothing is written when the host cannot go to the offset. -/
theorem scWriteInt2File_fault (hf : WritesFile k f) (hoffset : f.currentOffset < 0) :
    ∃ e, scWriteInt2File u k = .fault e := by
  have hcall : ∀ {len : Nat}, k.digitCount = len → len ≤ 10 → ∃ e, scWriteInt2File u k = .fault e := by
    intro len hlen hle
    rw [scWriteInt2File_write hf hlen hle]
    exact ⟨_, bind_fault (fileWrite_of_neg _ _ _ hoffset)⟩
  by_cases hneg : k.number < 0
  · exact hcall (digitCount_of_neg hneg) (by omega)
  · obtain ⟨hlen, hle, -⟩ := digitCount_of_nonneg (Int.not_lt.mp hneg)
    exact hcall hlen hle

theorem numeral_ne_nil (n : Int) : numeral n ≠ [] := by
  intro h
  have hvalue := intOf_numeral n
  rw [h] at hvalue
  cases hvalue

/-- For a file. -/
theorem writesNumeral_file (hf : WritesFile k f) : WritesNumeral k (scWriteInt2File u k) ↔
    0 ≤ k.number ∧ ∀ f, k.openFileList k.target.toNat = some f → 0 ≤ f.currentOffset := by
  have hne : k.target ≠ 1 := by
    have := hf.lower
    omega
  constructor
  · rintro ⟨k', hdone, hwrites⟩
    rw [if_neg hne, hf.isOpen] at hwrites
    obtain ⟨f', hf', happends⟩ := hwrites
    obtain rfl := Option.some.inj hf'
    have hoffset : 0 ≤ f.currentOffset := by
      by_contra hneg
      obtain ⟨e, hfault⟩ := scWriteInt2File_fault (u := u) hf (Int.not_le.mp hneg)
      rw [hfault] at hdone
      cases hdone
    refine ⟨?_, fun f' hf' => ?_⟩
    · by_contra hneg
      obtain ⟨k'', hdone', happends'⟩ := scWriteInt2File_done (u := u) hf
        (digitCount_of_neg (Int.not_le.mp hneg)) (by omega) hoffset
      rw [hdone] at hdone'
      cases hdone'
      have hlen := happends.result.symm.trans happends'.result
      exact numeral_ne_nil k.number (List.length_eq_zero_iff.mp (by exact_mod_cast hlen))
    · rw [hf.isOpen] at hf'
      obtain rfl := Option.some.inj hf'
      exact hoffset
  · rintro ⟨hnonneg, hoffset⟩
    obtain ⟨hlen, hle, hdigits⟩ := digitCount_of_nonneg hnonneg
    obtain ⟨k', hdone, happends⟩ := scWriteInt2File_done (u := u) hf hlen hle (hoffset f hf.isOpen)
    rw [hdigits] at happends
    exact ⟨k', hdone, by rw [if_neg hne]; exact ⟨f, hf.isOpen, happends⟩⟩

end File

/-! ### The console -/

section Console

variable {k : Kernel} {u : Uninit}

theorem writesNumeral_console (hm : UserSpace k.machine) (h : k.target = 1) :
    WritesNumeral k (scWriteInt2File u k) ↔
      userString k.machine (k.machine.registers r4) maxString 0 = some (numeral k.number) := by
  have hcall : scWriteInt2File u k = printString (k.machine.registers r4) u.heap k := by
    show (if k.target = 1 then _ else _ : Call Unit) k = _
    rw [if_pos h]
    rfl
  unfold WritesNumeral
  simp only [hcall, if_pos h]
  rcases printString_cases hm (k.machine.registers r4) u.heap with
    ⟨s, m', b, hs, hdone, -⟩ | ⟨hnone, e, k', htrap⟩
  · rw [hdone, hs, Option.some.injEq]
    constructor
    · rintro ⟨k', hk', houtput⟩
      cases hk'
      exact List.append_cancel_left houtput
    · rintro rfl
      exact ⟨_, rfl, rfl⟩
  · rw [htrap, hnone]
    refine iff_of_false ?_ (by simp)
    rintro ⟨k'', hk'', -⟩
    cases hk''

end Console

/-- `WriteInt2File` writes the numeral of its argument exactly for a number that is not negative and a
file, and for the console when the program has this numeral at the number as an address. -/
theorem writesNumeral_iff (k : Kernel) (u : Uninit) (hm : UserSpace k.machine)
    (hid : k.target = 1 ∨ ∃ f, WritesFile k f) :
    WritesNumeral k (scWriteInt2File u k) ↔ Writes k := by
  unfold Writes
  rcases hid with hconsole | ⟨f, hf⟩
  · rw [if_pos hconsole]
    exact writesNumeral_console hm hconsole
  · have hlower := hf.lower
    rw [if_neg (by omega)]
    exact writesNumeral_file hf

/-- The number -5 leaves the file empty. -/
theorem not_writesNumeral_neg :
    ¬ WritesNumeral (callingWithFile (onePage (fun _ => 0) (-5) 2 0) [] [])
      (scWriteInt2File zeroed (callingWithFile (onePage (fun _ => 0) (-5) 2 0) [] [])) := by
  have hf : WritesFile (callingWithFile (onePage (fun _ => 0) (-5) 2 0) [] []) ⟨0, 0, 0⟩ :=
    ⟨by decide, by decide, rfl, rfl⟩
  rw [writesNumeral_file hf]
  exact fun h => absurd h.1 (by decide)

/-- The number 42 in a file that has three bytes. -/
theorem writesNumeral_fortyTwo :
    WritesNumeral (callingWithFile (onePage (fun _ => 0) 42 2 0) [] [97, 98, 99])
      (scWriteInt2File zeroed (callingWithFile (onePage (fun _ => 0) 42 2 0) [] [97, 98, 99])) := by
  have hf : WritesFile (callingWithFile (onePage (fun _ => 0) 42 2 0) [] [97, 98, 99]) ⟨0, 0, 0⟩ :=
    ⟨by decide, by decide, rfl, rfl⟩
  refine (writesNumeral_iff _ zeroed (userSpace_onePage _ _ _ _) (Or.inr ⟨_, hf⟩)).mpr ?_
  unfold Writes
  rw [if_neg (by decide)]
  refine ⟨by decide, fun f hf' => ?_⟩
  rw [hf.isOpen] at hf'
  cases hf'
  decide

end Nachos.Syscalls
