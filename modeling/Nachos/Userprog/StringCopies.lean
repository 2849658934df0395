import Nachos.Machine.ByteMemory
import Nachos.Userprog.CallSpecs

/-!
# Strings from the kernel to the user program and back

`System2User` and `User2System` (exception.cc) copy a string one byte at a time through the page
table. The one stops behind the zero byte or after `len` bytes, the other at the zero byte or after
`limit` bytes.

`string_crosses`: a string that was sent to the user program comes back as it was, for any page
table that maps different pages to different frames.
-/

/-! ### Single bytes -/

namespace Nachos.Machine

open Bytes Programs

/-- The user program has the address and may write there. -/
def WritableAt (m : Machine) (va : Word) : Prop := ∃ e, m.validEntry va = some e ∧ e.readOnly = false

/-- Main memory has the byte `b` at the virtual address, and nothing else has changed. -/
structure ByteStored (m : Machine) (va : Word) (b : Byte) (m' : Machine) : Prop where
  same : SameSpace m m'
  byte : m'.virtualByte va = some b
  other : ∀ pa, m.mappedAddress va ≠ some pa → m'.mainMemory pa = m.mainMemory pa

section Bytes

variable {m m' : Machine} {va : Word}

theorem aligned_byte (va : Word) : Aligned va 1 := Nat.mod_one _

theorem WritableAt.congr (h : WritableAt m va) (hsame : SameSpace m m') : WritableAt m' va := by
  unfold WritableAt
  rw [hsame.validEntry]
  exact h

/-- `ReadMem` of one byte. -/
theorem DistinctFrames.readMem_byte (hm : DistinctFrames m) {b : Byte}
    (hb : m.virtualByte va = some b) :
    ∃ m', readMem va 1 m = .done (b.signExtend 32) m' ∧ Touched m m' := by
  obtain ⟨pa, hpa, rfl⟩ := Option.map_eq_some_iff.mp hb
  obtain ⟨e, he, rfl⟩ := Option.map_eq_some_iff.mp hpa
  unfold readMem
  rcases hm.translate_cases (Or.inl rfl) va false with
    ⟨e', m', -, he', -, htr, ht⟩ | ⟨hforbidden, -⟩
  · obtain rfl : e' = e := Option.some.inj (he'.symm.trans he)
    refine ⟨m', ?_, ht⟩
    rw [bind_done htr, ← ht.memory]
    rfl
  · rcases hforbidden with hna | hnone
    · exact absurd (aligned_byte va) hna
    · have hfalse := hnone e he
      rw [Bool.and_false] at hfalse
      cases hfalse

/-- `WriteMem` of one byte. -/
theorem DistinctFrames.writeMem_byte (hm : DistinctFrames m) (hw : WritableAt m va) (v : Word) :
    ∃ m', writeMem va 1 v m = .done () m' ∧ ByteStored m va (v.setWidth 8) m' := by
  obtain ⟨e, he, hwritable⟩ := hw
  rcases hm.translate_cases (Or.inl rfl) va true with
    ⟨e', m', -, he', -, htr, ht⟩ | ⟨hforbidden, -⟩
  · obtain rfl : e' = e := Option.some.inj (he'.symm.trans he)
    generalize hpa : e'.physicalPage.toNat * pageSize + va.toNat % pageSize = pa at htr
    have haddress : m.mappedAddress va = some pa := by
      unfold mappedAddress
      rw [he, Option.map_some, hpa]
    let m'' : Machine := { m' with mainMemory := store m'.mainMemory pa 1 v }
    have hsame : SameSpace m m'' := ⟨ht.mapping, ht.size, ht.registers⟩
    refine ⟨m'', ?_, hsame, ?_, fun pa' hne => ?_⟩
    · unfold writeMem
      rw [bind_done htr]
      rfl
    · unfold virtualByte
      rw [hsame.mappedAddress, haddress]
      simp [m'', store]
    · have hne' : ¬ (pa ≤ pa' ∧ pa' < pa + 1) := by
        intro hmem
        obtain rfl : pa' = pa := by omega
        exact hne haddress
      rw [← ht.memory]
      exact store_of_not_mem v hne'
  · rcases hforbidden with hna | hreadOnly
    · exact absurd (aligned_byte va) hna
    · have hfalse := hreadOnly e he
      rw [hwritable, Bool.false_and] at hfalse
      cases hfalse

end Bytes

end Nachos.Machine

namespace Nachos.Syscalls

open Programs Program CInt Machine

/-! ### `System2User` with its result -/

/-- The loop of `System2User` for at most `n` more characters from index `i` on: the number of
characters written. -/
def system2UserFrom (virtAddr : Word) : Nat → Nat → Call Int
  | 0, i => pure i
  | n + 1, i => do
    let oneChar ← get i
    onMachine (writeMem (virtAddr + BitVec.ofNat 32 i) 1 (oneChar.signExtend 32))
    if oneChar = 0 then pure ((i + 1 : Nat) : Int) else system2UserFrom virtAddr n (i + 1)

/-- `System2User` of the buffer. -/
def system2UserCount (virtAddr : Word) (len : Int) : Call Int :=
  if len < 0 then pure (-1)
  else if len = 0 then pure len
  else system2UserFrom virtAddr len.toNat 0

/-- The calls that do not use the result. -/
theorem system2UserLoop_eq (addr : Word) (n i : Nat) :
    system2UserLoop addr n i = system2UserFrom addr n i >>= fun _ => pure () := by
  induction n generalizing i with
  | zero => rfl
  | succ n ih =>
    unfold system2UserLoop system2UserFrom
    rw [bind_bind]
    refine congrArg _ (funext fun oneChar => ?_)
    rw [bind_bind]
    refine congrArg _ (funext fun _ => ?_)
    by_cases hzero : oneChar = 0
    · rw [if_pos hzero, if_pos hzero]
      rfl
    · rw [if_neg hzero, if_neg hzero]
      exact ih (i + 1)

theorem system2User_eq (addr : Word) (len : Int) :
    system2User addr len = system2UserCount addr len >>= fun _ => pure () := by
  unfold system2User system2UserCount
  by_cases hneg : len < 0
  · rw [if_pos hneg, if_pos hneg]
    rfl
  · rw [if_neg hneg, if_neg hneg, system2UserLoop_eq]
    by_cases hzero : len = 0
    · rw [if_pos hzero, hzero]
      rfl
    · rw [if_neg hzero]

/-! ### Strings -/

/-- The virtual addresses from `addr + i` on have the bytes `s`. -/
def ReadsAs (m : Machine) (addr : Word) (i : Nat) (s : List Byte) : Prop :=
  ∀ (j : Nat) (h : j < s.length), m.virtualByte (addr + BitVec.ofNat 32 (i + j)) = some s[j]

/-- The bytes `s` are at the virtual addresses from `addr + i` on, and nothing else in main memory
has changed. -/
structure Placed (m : Machine) (addr : Word) (i : Nat) (s : List Byte) (m' : Machine) : Prop where
  same : SameSpace m m'
  byte : ReadsAs m' addr i s
  other : ∀ pa, (∀ j < s.length, m.mappedAddress (addr + BitVec.ofNat 32 (i + j)) ≠ some pa) →
    m'.mainMemory pa = m.mainMemory pa

section Strings

variable {m m' m'' : Machine} {addr : Word} {i : Nat} {b : Byte} {s : List Byte}

theorem Placed.one (h : ByteStored m (addr + BitVec.ofNat 32 i) b m') : Placed m addr i [b] m' := by
  refine ⟨h.same, fun j hj => ?_, fun pa hpa => h.other pa (hpa 0 (by simp))⟩
  obtain rfl : j = 0 := by simpa using hj
  exact h.byte

theorem Placed.cons (hm : DistinctFrames m) (h : ByteStored m (addr + BitVec.ofNat 32 i) b m')
    (hs : Placed m' addr (i + 1) s m'') (hi : i + s.length < 2 ^ 32) :
    Placed m addr i (b :: s) m'' := by
  refine ⟨h.same.trans hs.same, fun j hj => ?_, fun pa hpa => ?_⟩
  · cases j with
    | zero =>
      obtain ⟨pa, hpa, hb⟩ := Option.map_eq_some_iff.mp h.byte
      have hkept : m''.mainMemory pa = m'.mainMemory pa := by
        refine hs.other pa fun j hj hat => ?_
        have haddr := (hm.congr h.same).mappedAddress_inj hpa hat
        have := ofNat_add_inj (by omega) (by omega) haddr
        omega
      unfold virtualByte
      rw [Nat.add_zero, hs.same.mappedAddress, hpa, Option.map_some, hkept, hb]
      rfl
    | succ j =>
      have hj' : j < s.length := Nat.lt_of_succ_lt_succ hj
      rw [← Nat.add_assoc, Nat.add_right_comm, hs.byte j hj']
      rfl
  · rw [hs.other pa fun j hj hat => ?_, h.other pa (hpa 0 (Nat.succ_pos _))]
    rw [h.same.mappedAddress] at hat
    refine hpa (j + 1) (Nat.succ_lt_succ hj) ?_
    rw [← Nat.add_assoc, Nat.add_right_comm]
    exact hat

theorem ReadsAs.tail (h : ReadsAs m addr i (b :: s)) : ReadsAs m addr (i + 1) s := by
  intro j hj
  rw [Nat.add_assoc, Nat.add_comm 1 j]
  exact h (j + 1) (Nat.succ_lt_succ hj)

theorem ReadsAs.congr (h : ReadsAs m addr i s) (ht : Touched m m') : ReadsAs m' addr i s := by
  intro j hj
  rw [ht.virtualByte]
  exact h j hj

/-- The loop of `System2User` writes a string and the zero behind it. -/
theorem system2UserFrom_done {k : Kernel} (hm : DistinctFrames k.machine) (hs : 0 ∉ s)
    (hbuffer : ∀ j ≤ s.length, k.buffer.bytes (i + j : Nat) = s.getD j 0)
    (hw : ∀ j ≤ s.length, WritableAt k.machine (addr + BitVec.ofNat 32 (i + j)))
    (hi : i + s.length + 1 < 2 ^ 32) :
    ∃ k', system2UserFrom addr (s.length + 1) i k = .done ((i + s.length + 1 : Nat) : Int) k' ∧
      Placed k.machine addr i (s ++ [0]) k'.machine := by
  induction s generalizing i k with
  | nil =>
    have hzero : k.buffer.bytes i = 0 := hbuffer 0 (Nat.le_refl 0)
    have hwritable : WritableAt k.machine (addr + BitVec.ofNat 32 i) := hw 0 (Nat.le_refl 0)
    obtain ⟨m', hwrite, hstored⟩ := hm.writeMem_byte hwritable ((0 : Byte).signExtend 32)
    rw [setWidth_signExtend] at hstored
    let k₁ : Kernel := { k with buffer := k.buffer.read i 1 }
    have hstep : system2UserFrom addr 1 i k =
        (onMachine (writeMem (addr + BitVec.ofNat 32 i) 1 ((k.buffer.bytes i).signExtend 32)) >>=
          fun _ => if k.buffer.bytes i = 0 then pure ((i + 1 : Nat) : Int)
            else system2UserFrom addr 0 (i + 1)) k₁ := rfl
    refine ⟨{ k₁ with machine := m' }, ?_, Placed.one hstored⟩
    rw [List.length_nil, hstep, hzero, bind_done (onMachine_done (k := k₁) hwrite)]
    rfl
  | cons b s ih =>
    have hb : k.buffer.bytes i = b := hbuffer 0 (Nat.zero_le _)
    have hne : b ≠ 0 := fun h => hs (h ▸ List.mem_cons_self)
    have hwritable : WritableAt k.machine (addr + BitVec.ofNat 32 i) := hw 0 (Nat.zero_le _)
    obtain ⟨m', hwrite, hstored⟩ := hm.writeMem_byte hwritable (b.signExtend 32)
    rw [setWidth_signExtend] at hstored
    let k₁ : Kernel := { k with buffer := k.buffer.read i 1 }
    have hstep : system2UserFrom addr (s.length + 1 + 1) i k =
        (onMachine (writeMem (addr + BitVec.ofNat 32 i) 1 ((k.buffer.bytes i).signExtend 32)) >>=
          fun _ => if k.buffer.bytes i = 0 then pure ((i + 1 : Nat) : Int)
            else system2UserFrom addr (s.length + 1) (i + 1)) k₁ := rfl
    obtain ⟨k', hloop, hplaced⟩ := ih (k := { k₁ with machine := m' }) (i := i + 1)
      (hm.congr hstored.same) (fun h => hs (List.mem_cons_of_mem b h))
      (fun j hj => by
        have hnext := hbuffer (j + 1) (Nat.succ_le_succ hj)
        rwa [← Nat.add_assoc, Nat.add_right_comm] at hnext)
      (fun j hj => by
        have hnext := hw (j + 1) (Nat.succ_le_succ hj)
        rw [← Nat.add_assoc, Nat.add_right_comm] at hnext
        exact hnext.congr hstored.same)
      (by rw [List.length_cons] at hi; omega)
    refine ⟨k', ?_, Placed.cons hm hstored hplaced (by simp at hi ⊢; omega)⟩
    rw [List.length_cons, hstep, hb, bind_done (onMachine_done (k := k₁) hwrite), if_neg hne]
    exact hloop.trans (by rw [Nat.add_right_comm i 1, Nat.add_assoc i])

/-- The loop of `User2System` reads a string up to the zero behind it or to its limit. -/
theorem user2SystemLoop_done {k : Kernel} (hm : DistinctFrames k.machine) (hs : 0 ∉ s)
    (hreads : ReadsAs k.machine addr i (s ++ [0])) {n : Nat} (hn : s.length ≤ n) :
    ∃ m', user2SystemLoop addr n i k =
      .done () { k with machine := m', buffer := k.buffer.write i (terminated n s) } ∧
      Touched k.machine m' := by
  induction s generalizing i k n with
  | nil =>
    cases n with
    | zero =>
      refine ⟨k.machine, ?_, Touched.refl _⟩
      rw [show terminated 0 [] = [] from rfl, Buffer.write_nil]
      rfl
    | succ n =>
      have hzero : k.machine.virtualByte (addr + BitVec.ofNat 32 i) = some 0 := hreads 0 (Nat.succ_pos _)
      obtain ⟨m', hread, ht⟩ := hm.readMem_byte hzero
      refine ⟨m', ?_, ht⟩
      rw [user2SystemLoop, bind_done (onMachine_done hread)]
      rfl
  | cons b s ih =>
    obtain ⟨n, rfl⟩ : ∃ n', n = n' + 1 := ⟨n - 1, by rw [List.length_cons] at hn; omega⟩
    have hne : ¬ b.signExtend 32 = 0 := fun h => hs (signExtend_eq_zero.mp h ▸ List.mem_cons_self)
    have hb : k.machine.virtualByte (addr + BitVec.ofNat 32 i) = some b := hreads 0 (Nat.succ_pos _)
    obtain ⟨m₁, hread, ht⟩ := hm.readMem_byte hb
    let k₁ : Kernel := { k with machine := m₁, buffer := k.buffer.write i [b] }
    obtain ⟨m₂, hloop, ht'⟩ := ih (k := k₁) (i := i + 1) (n := n) (hm.congr ht.sameSpace)
      (fun h => hs (List.mem_cons_of_mem b h)) (hreads.tail.congr ht) (Nat.le_of_succ_le_succ hn)
    have hwrite : k₁.buffer.write (i + 1 : Nat) (terminated n s) =
        k.buffer.write i (terminated (n + 1) (b :: s)) := by
      rw [terminated_cons, Nat.cast_succ]
      exact Buffer.write_cons _ _ _ _
    refine ⟨m₂, ?_, ht.trans ht'⟩
    have hput : (do
          put i [(b.signExtend 32).setWidth 8]
          if b.signExtend 32 = 0 then pure () else user2SystemLoop addr n (i + 1) : Call Unit)
        { k with machine := m₁ } = user2SystemLoop addr n (i + 1) k₁ := by
      rw [if_neg hne, setWidth_signExtend]
      rfl
    rw [user2SystemLoop, bind_done (onMachine_done hread)]
    exact hput.trans (hloop.trans (by rw [hwrite]))

/-- A string that `System2User` has written comes back from `User2System` as it was, up to the
length `limit` and wherever its pages are. Nothing else in main memory has changed. -/
theorem string_crosses {k : Kernel} {limit : Nat} (hm : DistinctFrames k.machine) (hs : 0 ∉ s)
    (hlen : s.length ≤ limit) (hlimit : limit + 1 < 2 ^ 31)
    (hbuffer : ∀ j ≤ s.length, k.buffer.bytes (j : Nat) = s.getD j 0)
    (hw : ∀ j ≤ s.length, WritableAt k.machine (addr + BitVec.ofNat 32 j)) (heap : Int → Byte) :
    ∃ k' k'', system2UserCount addr (s.length + 1) k = .done (s.length + 1) k' ∧
      Placed k.machine addr 0 (s ++ [0]) k'.machine ∧
      user2System addr limit heap k' = .done () k'' ∧ Holds k''.buffer limit s ∧
      Touched k'.machine k''.machine := by
  have hcount : system2UserCount addr (s.length + 1) = system2UserFrom addr (s.length + 1) 0 := by
    unfold system2UserCount
    rw [if_neg (by omega), if_neg (by omega)]
    rfl
  have hbuffer' : ∀ j ≤ s.length, k.buffer.bytes (0 + j : Nat) = s.getD j 0 := by
    simpa only [Nat.zero_add] using hbuffer
  have hw' : ∀ j ≤ s.length, WritableAt k.machine (addr + BitVec.ofNat 32 (0 + j)) := by
    simpa only [Nat.zero_add] using hw
  obtain ⟨k', hsent, hplaced⟩ := system2UserFrom_done hm hs hbuffer' hw' (by omega)
  obtain ⟨m', hloop, ht⟩ := user2SystemLoop_done (i := 0) (n := limit)
    (k := { k' with buffer := clearedBuffer limit heap }) (hm.congr hplaced.same) hs hplaced.byte hlen
  let k'' : Kernel := { k' with
    machine := m', buffer := (clearedBuffer limit heap).write (0 : Nat) (terminated limit s) }
  refine ⟨k', k'', ?_, hplaced, ?_, holds_terminated heap hlen, ht⟩
  · rw [hcount, hsent, Nat.zero_add, Nat.cast_succ]
  · rw [user2System_eq]
    exact hloop

end Strings

/-- A string of exactly `limit` characters, the last one negative as a `char`, that begins in frame 3
and ends in frame 1. -/
theorem string_crosses_twoPages :
    ∃ k' k'', system2UserCount 510 4
        { calling (twoPages false) [] with
          buffer := ⟨4, fun j => [0x61, 0x62, 0xE9].getD j.toNat 0, []⟩ } = .done 4 k' ∧
      Placed (twoPages false) 510 0 [0x61, 0x62, 0xE9, 0] k'.machine ∧
      user2System 510 3 (fun _ => 0xFF) k' = .done () k'' ∧ Holds k''.buffer 3 [0x61, 0x62, 0xE9] ∧
      Touched k'.machine k''.machine := by
  have hentry : (twoPages false).validEntry 510 = some ⟨0, 3, true, false, false, false⟩ := by decide
  have hnext : (twoPages false).validEntry 511 = some ⟨0, 3, true, false, false, false⟩ := by decide
  have hsecond : (twoPages false).validEntry 512 = some ⟨1, 1, true, false, false, false⟩ := by decide
  have hlast : (twoPages false).validEntry 513 = some ⟨1, 1, true, false, false, false⟩ := by decide
  have hw : ∀ j ≤ 3, WritableAt (twoPages false) (510 + BitVec.ofNat 32 j) := by
    intro j hj
    interval_cases j
    · exact ⟨_, hentry, rfl⟩
    · exact ⟨_, hnext, rfl⟩
    · exact ⟨_, hsecond, rfl⟩
    · exact ⟨_, hlast, rfl⟩
  exact string_crosses (s := [0x61, 0x62, 0xE9]) (distinctFrames_twoPages false)
    (by decide) (by decide) (by omega) (fun j hj => rfl) hw (fun _ => 0xFF)

end Nachos.Syscalls
