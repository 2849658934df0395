import Mathlib.Tactic.IntervalCases
import Nachos.Userprog.ReadCalls

/-!
# Reading a file from its start to its end

A user program reads a file with one `SC_Read` after another, until the result is 0 or -2. The
kernel moves the offset of the file by all the bytes that it has read, but it delivers them only up
to a zero byte, and a byte that equals `EOF` ends everything.

`readsAll_iff`: what the program has read is the whole file exactly when no such byte is met where
it does harm.
-/

namespace Nachos.Syscalls

open Programs Program CInt Machine

/-! ### Statement -/

/-- A call of `SC_Read`: the machine of the program that makes it. -/
structure Request where
  machine : Machine
  uninit : Uninit

def Request.addr (r : Request) : Word := r.machine.registers r4

def Request.size (r : Request) : Int := (r.machine.registers r5).toInt

/-- The calls of one program for one open file. -/
structure Requests (fID : Int) (q : Nat → Request) : Prop where
  file : ∀ i, ((q i).machine.registers r6).toInt = fID
  lower : 2 ≤ fID
  upper : fID ≤ 9
  space : ∀ i, UserSpace (q i).machine
  size : ∀ i, 1 ≤ (q i).size

/-- The first `n` bytes of the user's buffer. -/
def userBytes (m : Machine) (addr : Word) (n : Nat) : List Byte :=
  (List.range n).map fun j => (m.userByte (addr + BitVec.ofNat 32 j)).getD 0

/-- `SC_Read` until the result is 0 or -2, in at most `fuel` calls from the `i`-th one on: the
concatenation of what the calls with a positive result have read. -/
def session (q : Nat → Request) : Nat → Nat → Kernel → Option (List Byte)
  | 0, _, _ => none
  | fuel + 1, i, k =>
    match scRead (q i).uninit { k with machine := (q i).machine } with
    | .done _ k' =>
      let r := (k'.machine.registers resultReg).toInt
      if r = 0 ∨ r = -2 then some []
      else (session q fuel (i + 1) k').map fun rest => userBytes k'.machine (q i).addr r.toNat ++ rest
    | .trap _ _ => none
    | .fault _ => none

section Condition

variable (content : List Byte) (q : Nat → Request)

/-- The offset in the file at which the `i`-th call reads. -/
def offsetAt : Nat → Nat
  | 0 => 0
  | i + 1 => min (offsetAt i + (q i).size.toNat) content.length

/-- The bytes that the `i`-th call reads. -/
def bytesAt (i : Nat) : List Byte := hostRead content (offsetAt content q i) (q i).size.toNat

/-- No byte that equals `EOF`, and no zero byte but the last one. -/
def Clean (bytes : List Byte) : Prop := eof ∉ bytes ∧ 0 ∉ bytes.dropLast

/-- The `i`-th call loses nothing: the buffer can be made, what is read is clean, and the program
has the memory for it and for the zero behind it. -/
structure Harmless (i : Nat) : Prop where
  size : (q i).size < 2 ^ 31 - 1
  clean : Clean (bytesAt content q i)
  memory : ∀ j ≤ (chunk (bytesAt content q i)).length,
    (q i).machine.userByte ((q i).addr + BitVec.ofNat 32 j) ≠ none

/-- All the calls up to the one that finds the end of the file lose nothing, and the offset stays an
`int`. -/
def Lossless : Prop :=
  content.length < 2 ^ 31 ∧
    ∀ i, (∀ j < i, offsetAt content q j < content.length) → Harmless content q i

end Condition

/-! ### One call -/

/-- A zero byte does no harm when nothing follows it. -/
theorem concat_zero_eq_iff {s : List Byte} (hzero : 0 ∉ s) (heof : eof ∉ s) (rest : List Byte) :
    s ++ [0] = s ++ 0 :: rest ↔ Clean (s ++ 0 :: rest) := by
  cases rest with
  | nil =>
    refine iff_of_true rfl ⟨fun h => ?_, by rwa [List.dropLast_concat]⟩
    rcases List.mem_append.mp h with h | h
    · exact heof h
    · exact absurd (List.mem_singleton.mp h) (by decide)
  | cons c rest =>
    refine iff_of_false (fun h => ?_) fun h => h.2 ?_
    · have hlen := congrArg List.length h
      simp at hlen
    · rw [List.dropLast_append_of_ne_nil (List.cons_ne_nil _ _), List.dropLast_cons_cons]
      exact List.mem_append_right s List.mem_cons_self

/-- What `SC_Read` does with the bytes that it has read. -/
theorem endOf_cases (bytes : List Byte) :
    (bytes = [] ∧ endOf 0 bytes = 0) ∨ (eof ∈ bytes ∧ endOf 0 bytes = -2) ∨
      ∃ d, endOf 0 bytes = (d.length : Nat) ∧ d ≠ [] ∧ d <+: bytes ∧ d <+: chunk bytes ++ [0] ∧
        (d = bytes ↔ Clean bytes) := by
  have hpre : chunk bytes <+: bytes := List.takeWhile_prefix _
  have hzero := not_mem_chunk (Or.inl rfl) bytes
  have heof := not_mem_chunk (Or.inr rfl) bytes
  rcases Nat.lt_or_eq_of_le hpre.length_le with hlt | heq
  · have hend := not_getElem_length_takeWhile hlt
    rw [decide_eq_true_eq, ← not_or, not_not] at hend
    have hget : bytes[(chunk bytes).length]? = some bytes[(chunk bytes).length] :=
      List.getElem?_eq_getElem hlt
    have hresult : endOf 0 bytes =
        if bytes[(chunk bytes).length] = eof then -2 else 0 + ((chunk bytes).length : Int) + 1 := by
      unfold endOf
      rw [hget]
    by_cases hc : bytes[(chunk bytes).length] = eof
    · refine Or.inr (Or.inl ⟨?_, by rw [hresult, if_pos hc]⟩)
      rw [← hc]
      exact List.getElem_mem hlt
    · have hc' : bytes[(chunk bytes).length] = 0 := hend.resolve_right hc
      rw [if_neg hc] at hresult
      have hsplit : bytes = chunk bytes ++ 0 :: bytes.drop ((chunk bytes).length + 1) := by
        rw [← hc', ← List.drop_eq_getElem_cons hlt]
        exact (List.prefix_append_drop hpre)
      refine Or.inr (Or.inr ⟨chunk bytes ++ [0], ?_, by simp,
        ⟨bytes.drop ((chunk bytes).length + 1), ?_⟩, List.prefix_rfl, ?_⟩)
      · rw [hresult, List.length_append, List.length_singleton]
        push_cast
        ring
      · rw [List.append_assoc, List.singleton_append]
        exact hsplit.symm
      · have hclean := concat_zero_eq_iff hzero heof (bytes.drop ((chunk bytes).length + 1))
        rwa [← hsplit] at hclean
  · obtain heq : chunk bytes = bytes := hpre.eq_of_length heq
    have hnone : endOf 0 bytes = (bytes.length : Nat) := by
      unfold endOf
      rw [heq, List.getElem?_length, Int.zero_add]
    by_cases hnil : bytes = []
    · subst hnil
      exact Or.inl ⟨rfl, rfl⟩
    · refine Or.inr (Or.inr ⟨bytes, hnone, hnil, List.prefix_rfl, ?_, iff_of_true rfl ⟨?_, ?_⟩⟩)
      · rw [heq]
        exact List.prefix_append bytes [0]
      · rw [← heq]
        exact not_mem_chunk (Or.inr rfl) bytes
      · intro hzero
        have hmem : 0 ∈ bytes := List.mem_of_mem_dropLast hzero
        rw [← heq] at hmem
        exact not_mem_chunk (Or.inl rfl) bytes hmem

theorem userBytes_eq {m m' : Machine} {addr : Word} {s d : List Byte} (h : Copied m addr 0 s m')
    (hd : d <+: s) : userBytes m' addr d.length = d := by
  unfold userBytes
  apply List.ext_getElem
  · simp
  · intro j hj hj'
    have hbyte := h.byte j (Nat.lt_of_lt_of_le hj' hd.length_le)
    rw [Nat.zero_add] at hbyte
    rw [List.getElem_map, List.getElem_range, hbyte, Option.getD_some]
    exact (hd.getElem hj').symm

/-- The file is open at an offset. -/
def OpenAt (content : List Byte) (fID : Int) (offset : Int) (k : Kernel) : Prop :=
  ∃ f, k.openFileList fID.toNat = some f ∧ k.hostFiles f.file = content ∧ f.currentOffset = offset

section Step

variable {content : List Byte} {q : Nat → Request} {fID : Int} {k : Kernel} {i : Nat}

theorem Requests.readsFile (hq : Requests fID q) (i : Nat) {f : OpenFile}
    (h : k.openFileList fID.toNat = some f) : ReadsFile { k with machine := (q i).machine } f := by
  have hid : ((q i).machine.registers r6).toInt = fID := hq.file i
  refine ⟨?_, ?_, ?_⟩
  · show 2 ≤ ((q i).machine.registers r6).toInt
    rw [hid]
    exact hq.lower
  · show ((q i).machine.registers r6).toInt ≤ 9
    rw [hid]
    exact hq.upper
  · show k.openFileList ((q i).machine.registers r6).toInt.toNat = some f
    rw [hid]
    exact h

theorem toInt_ofInt_result {v : Int} (hlo : -2 ≤ v) (hhi : v < 2 ^ 31) : (BitVec.ofInt 32 v).toInt = v := by
  rw [BitVec.toInt_ofInt]
  exact s32_of_bounds (by omega) hhi

/-- What one call of the session does. -/
theorem session_succ (hq : Requests fID q) (hk : OpenAt content fID (offsetAt content q i) k) :
    ((∀ fuel, session q (fuel + 1) i k = none) ∧ ¬ Harmless content q i) ∨
    ((∀ fuel, session q (fuel + 1) i k = some []) ∧ eof ∈ bytesAt content q i) ∨
    ((∀ fuel, session q (fuel + 1) i k = some []) ∧ bytesAt content q i = [] ∧ Harmless content q i) ∨
    ∃ k' d,
      (∀ fuel, session q (fuel + 1) i k = (session q fuel (i + 1) k').map fun rest => d ++ rest) ∧
      OpenAt content fID (s32 (offsetAt content q i + (bytesAt content q i).length)) k' ∧
      d <+: bytesAt content q i ∧ d ≠ [] ∧ (d = bytesAt content q i ↔ Harmless content q i) := by
  obtain ⟨f, hopen, hfile, hoffset⟩ := hk
  let k₁ : Kernel := { k with machine := (q i).machine }
  have hid : k₁.fID = fID := hq.file i
  have hf : ReadsFile k₁ f := hq.readsFile i hopen
  have hbytes : k₁.nextBytes f = bytesAt content q i := by
    unfold Kernel.nextBytes bytesAt
    rw [hoffset, Int.toNat_natCast, ← hfile]
    rfl
  have hsize : 1 ≤ k₁.length := hq.size i
  by_cases hmax : k₁.length < 2 ^ 31 - 1
  · have hlen : (bytesAt content q i).length ≤ k₁.length.toNat := hbytes ▸ length_nextBytes k₁ f
    have hcases := scRead_cases (u := (q i).uninit) (hq.space i) hf (by omega) (by omega) hmax
    rw [hbytes, hid] at hcases
    rcases hcases with ⟨m', b, hdone, hsame, hcopied⟩ | ⟨j, e, m', b, htrap, hj, hnone, -⟩
    · have hmemory : ∀ j ≤ (chunk (bytesAt content q i)).length,
          (q i).machine.userByte ((q i).addr + BitVec.ofNat 32 j) ≠ none := by
        intro j hj hnone
        have hbyte := hcopied.byte j (by simp; omega)
        rw [Nat.zero_add] at hbyte
        exact Option.some_ne_none _ (hbyte.symm.trans (hsame.userByte_eq_none.mpr hnone))
      have hharmless : Harmless content q i ↔ Clean (bytesAt content q i) :=
        ⟨fun h => h.clean, fun h => ⟨hmax, h, hmemory⟩⟩
      generalize hk' : (({ advance fID f (bytesAt content q i).length k₁ with
        machine := m', buffer := b } : Kernel).returned (endOf 0 (bytesAt content q i))) = k' at hdone
      have hk'open : OpenAt content fID (s32 (offsetAt content q i + (bytesAt content q i).length)) k' := by
        subst hk'
        refine ⟨{ f with currentOffset := s32 (f.currentOffset + (bytesAt content q i).length) }, ?_,
          hfile, by rw [hoffset]⟩
        exact Function.update_self _ _ _
      have hk'bytes : ∀ va, k'.machine.userByte va = m'.userByte va := by
        subst hk'
        exact fun va => rfl
      have hresult : k'.machine.registers resultReg = BitVec.ofInt 32 (endOf 0 (bytesAt content q i)) := by
        subst hk'
        exact Function.update_self resultReg (BitVec.ofInt 32 _) m'.registers
      have hsession : ∀ fuel, session q (fuel + 1) i k =
          if (k'.machine.registers resultReg).toInt = 0 ∨ (k'.machine.registers resultReg).toInt = -2
          then some []
          else (session q fuel (i + 1) k').map fun rest =>
            userBytes k'.machine (q i).addr (k'.machine.registers resultReg).toInt.toNat ++ rest := by
        intro fuel
        rw [session]
        rw [show scRead (q i).uninit { k with machine := (q i).machine } = .done () k' from hdone]
      rw [hresult] at hsession
      rcases endOf_cases (bytesAt content q i) with ⟨hnil, hend⟩ | ⟨heof, hend⟩ |
        ⟨d, hend, hne, hpre, hsent, hclean⟩
      · refine Or.inr (Or.inr (Or.inl ⟨fun fuel => ?_, hnil, hharmless.mpr ?_⟩))
        · rw [hsession, hend, if_pos (Or.inl (toInt_ofInt_result (by omega) (by omega)))]
        rw [hnil]
        exact ⟨List.not_mem_nil, List.not_mem_nil⟩
      · refine Or.inr (Or.inl ⟨fun fuel => ?_, heof⟩)
        rw [hsession, hend, if_pos (Or.inr (toInt_ofInt_result (by omega) (by omega)))]
      · have hpos := List.length_pos_iff.mpr hne
        have hdlen := hpre.length_le
        have huser : userBytes k'.machine (q i).addr d.length = d := by
          refine userBytes_eq (m := (q i).machine) ⟨fun j hj => ?_, fun va hva => ?_⟩ hsent
          · rw [hk'bytes]
            exact hcopied.byte j hj
          · rw [hk'bytes]
            exact hcopied.other va hva
        refine Or.inr (Or.inr (Or.inr
          ⟨k', d, fun fuel => ?_, hk'open, hpre, hne, hclean.trans hharmless.symm⟩))
        rw [hsession, hend, toInt_ofInt_result (by omega) (by omega), if_neg (by omega),
          Int.toNat_natCast, huser]
    · refine Or.inl ⟨?_, fun h => h.memory j ?_ hnone⟩
      · intro fuel
        rw [session]
        rw [show scRead (q i).uninit { k with machine := (q i).machine } = _ from htrap]
      · rw [List.length_append, List.length_singleton] at hj
        omega
  · refine Or.inl ⟨?_, fun h => hmax h.size⟩
    have hfault : scRead (q i).uninit k₁ = .fault .allocation := by
      obtain ⟨hlo, hhi⟩ := k₁.length_bounds
      rw [scRead_file hf, newBuffer_neg]
      exact Int.not_le.mp fun h => hmax ((s32_succ_nonneg hlo hhi).mp h).2
    intro fuel
    rw [session]
    rw [show scRead (q i).uninit { k with machine := (q i).machine } = _ from hfault]

theorem offsetAt_succ (content : List Byte) (q : Nat → Request) (i : Nat)
    (h : offsetAt content q i ≤ content.length) :
    offsetAt content q (i + 1) = offsetAt content q i + (bytesAt content q i).length := by
  unfold bytesAt hostRead
  rw [offsetAt, List.length_take, List.length_drop]
  omega

/-- A call with an offset that is not an `int` fails. -/
theorem session_of_neg (hq : Requests fID q) {offset : Int} (hoffset : offset < 0)
    (hk : OpenAt content fID offset k) (fuel : Nat) : session q fuel i k = none := by
  obtain ⟨f, hopen, -, rfl⟩ := hk
  cases fuel with
  | zero => rfl
  | succ fuel =>
    obtain ⟨a, hfault⟩ := scRead_neg (u := (q i).uninit) (hq.readsFile i hopen) hoffset
    rw [session, hfault]

end Step

/-! ### The session -/

section Session

variable {content : List Byte} {q : Nat → Request} {fID : Int}

/-- From the `i`-th call on nothing is lost. -/
def LosslessFrom (content : List Byte) (q : Nat → Request) (i : Nat) : Prop :=
  content.length < 2 ^ 31 ∧ ∀ j ≥ i, (∀ l, i ≤ l → l < j → offsetAt content q l < content.length) →
    Harmless content q j

theorem offsetAt_le (content : List Byte) (q : Nat → Request) (i : Nat) :
    offsetAt content q i ≤ content.length := by
  cases i with
  | zero => exact Nat.zero_le _
  | succ i => exact Nat.min_le_right _ _

theorem losslessFrom_iff (i : Nat) : LosslessFrom content q i ↔
    content.length < 2 ^ 31 ∧ Harmless content q i ∧
      (offsetAt content q i < content.length → LosslessFrom content q (i + 1)) := by
  constructor
  · rintro ⟨hlen, h⟩
    refine ⟨hlen, h i (Nat.le_refl i) fun l hl hl' => by omega, fun hlt => ⟨hlen, fun j hj hcalled => ?_⟩⟩
    refine h j (by omega) fun l hl hl' => ?_
    rcases Nat.lt_or_eq_of_le hl with hl | rfl
    · exact hcalled l hl hl'
    · exact hlt
  · rintro ⟨hlen, hi, h⟩
    refine ⟨hlen, fun j hj hcalled => ?_⟩
    rcases Nat.lt_or_eq_of_le hj with hj | rfl
    · exact (h (hcalled i (Nat.le_refl i) hj)).2 j hj fun l hl hl' => hcalled l (by omega) hl'
    · exact hi

theorem bytesAt_eq_nil_iff (hq : Requests fID q) (i : Nat) :
    bytesAt content q i = [] ↔ offsetAt content q i = content.length := by
  have hsize := hq.size i
  have hle := offsetAt_le content q i
  unfold bytesAt hostRead
  rw [← List.length_eq_zero_iff, List.length_take, List.length_drop]
  omega

/-- What is read is never more than the rest of the file, and less when something is lost. -/
theorem session_length (hq : Requests fID q) {fuel i : Nat} {k : Kernel} {l : List Byte}
    (hk : OpenAt content fID (offsetAt content q i) k) (hint : offsetAt content q i < 2 ^ 31)
    (h : session q fuel i k = some l) :
    l.length ≤ content.length - offsetAt content q i ∧
      (l.length = content.length - offsetAt content q i → LosslessFrom content q i) := by
  induction fuel generalizing i k l with
  | zero => cases h
  | succ fuel ih =>
    have hle := offsetAt_le content q i
    rcases session_succ hq hk with ⟨hnone, -⟩ | ⟨hsome, heof⟩ | ⟨hsome, hnil, hharmless⟩ |
      ⟨k', d, hsome, hk', hpre, hne, hlossless⟩
    · rw [hnone] at h
      cases h
    · rw [hsome] at h
      cases h
      refine ⟨Nat.zero_le _, fun hlen => ?_⟩
      rw [List.length_nil] at hlen
      rw [(bytesAt_eq_nil_iff hq i).mpr (by omega)] at heof
      cases heof
    · rw [hsome] at h
      cases h
      have hend := (bytesAt_eq_nil_iff hq i).mp hnil
      refine ⟨Nat.zero_le _, fun _ => (losslessFrom_iff i).mpr ⟨by omega, hharmless, fun hlt => ?_⟩⟩
      omega
    · rw [hsome] at h
      obtain ⟨rest, hrest, rfl⟩ := Option.map_eq_some_iff.mp h
      have hsucc := offsetAt_succ content q i hle
      have hle' := offsetAt_le content q (i + 1)
      by_cases hnext : offsetAt content q (i + 1) < 2 ^ 31
      · have hs32 : s32 (offsetAt content q i + (bytesAt content q i).length) =
            (offsetAt content q (i + 1) : Nat) := by
          rw [s32_of_bounds (by omega) (by omega), hsucc]
          push_cast
          rfl
        rw [hs32] at hk'
        obtain ⟨hlen, heq⟩ := ih hk' hnext hrest
        have hdlen := hpre.length_le
        rw [List.length_append]
        refine ⟨by omega, fun hall => ?_⟩
        have hd : d = bytesAt content q i := hpre.eq_of_length (by omega)
        have hfrom := heq (by omega)
        exact (losslessFrom_iff i).mpr ⟨hfrom.1, hlossless.mp hd, fun _ => hfrom⟩
      · -- the offset overflows, and the next call fails
        have hneg : s32 (offsetAt content q i + (bytesAt content q i).length) < 0 := by
          have hlen : (bytesAt content q i).length ≤ (q i).size.toNat := List.length_take_le _ _
          have hsize : (q i).size < 2 ^ 31 := BitVec.toInt_lt
          unfold s32
          rw [Int.bmod_def]
          split <;> omega
        rw [session_of_neg hq hneg hk'] at hrest
        cases hrest

theorem exists_session (hq : Requests fID q) {i : Nat} {k : Kernel}
    (hk : OpenAt content fID (offsetAt content q i) k) (h : LosslessFrom content q i) :
    ∃ fuel, session q fuel i k = some (content.drop (offsetAt content q i)) := by
  -- every call but the last one moves the offset
  induction hrest : content.length - offsetAt content q i using Nat.strong_induction_on
    generalizing i k with
  | _ n ih =>
    have hle := offsetAt_le content q i
    obtain ⟨hlen, hharmless, hfrom⟩ := (losslessFrom_iff i).mp h
    have hsucc := offsetAt_succ content q i hle
    have hnil : bytesAt content q i = [] ↔ offsetAt content q i = content.length :=
      bytesAt_eq_nil_iff hq i
    rcases session_succ hq hk with ⟨-, hnot⟩ | ⟨-, heof⟩ | ⟨hsome, hempty, -⟩ |
      ⟨k', d, hsome, hk', -, hne, hlossless⟩
    · exact absurd hharmless hnot
    · exact absurd heof hharmless.clean.1
    · refine ⟨1, ?_⟩
      rw [hsome, hnil.mp hempty, List.drop_length]
    · obtain rfl := hlossless.mpr hharmless
      have hle' := offsetAt_le content q (i + 1)
      have hlt : offsetAt content q i < content.length :=
        Nat.lt_of_le_of_ne hle fun heq => hne (hnil.mpr heq)
      have hpos := List.length_pos_iff.mpr hne
      have hs32 : s32 (offsetAt content q i + (bytesAt content q i).length) =
          (offsetAt content q (i + 1) : Nat) := by
        rw [s32_of_bounds (by omega) (by omega), hsucc]
        push_cast
        rfl
      rw [hs32] at hk'
      obtain ⟨fuel, hfuel⟩ := ih _ (by omega) hk' (hfrom hlt) rfl
      refine ⟨fuel + 1, ?_⟩
      rw [hsome, hfuel, Option.map_some, hsucc, ← List.drop_drop]
      refine congrArg some ?_
      exact (List.prefix_append_drop (List.take_prefix _ _)).symm

/-- Reading a file loses nothing exactly when no call meets a byte that does harm. -/
theorem readsAll_iff {k : Kernel} {f : OpenFile} (hq : Requests fID q)
    (hopen : k.openFileList fID.toNat = some f) (hfresh : f.currentOffset = 0) :
    (∃ fuel, session q fuel 0 k = some (k.hostFiles f.file)) ↔ Lossless (k.hostFiles f.file) q := by
  have hk : OpenAt (k.hostFiles f.file) fID (offsetAt (k.hostFiles f.file) q 0) k :=
    ⟨f, hopen, rfl, hfresh⟩
  have hfrom : LosslessFrom (k.hostFiles f.file) q 0 ↔ Lossless (k.hostFiles f.file) q := by
    unfold LosslessFrom Lossless
    simp
  rw [← hfrom]
  constructor
  · rintro ⟨fuel, h⟩
    exact (session_length hq hk (by simp [offsetAt]) h).2 rfl
  · exact exists_session hq hk

end Session

/-- A program that reads two bytes at a time. -/
def twoBytes (_ : Nat) : Request := ⟨onePage (fun _ => 0) 0 2 2, zeroed⟩

theorem requests_twoBytes : Requests 2 twoBytes := by
  have hsize : (1 : Int) ≤ (2 : Word).toInt := by decide
  exact ⟨fun _ => rfl, by decide, by decide, fun _ => userSpace_onePage _ _ _ _, fun _ => hsize⟩

/-- A zero byte in front of another one: the second byte is lost. -/
theorem not_readsAll_zero :
    ¬ ∃ fuel, session twoBytes fuel 0 (callingWithFile (onePage (fun _ => 0) 0 2 2) [] [0, 97]) =
      some [0, 97] := by
  rintro ⟨fuel, h⟩
  have hk : OpenAt [0, 97] 2 (offsetAt [0, 97] twoBytes 0)
      (callingWithFile (onePage (fun _ => 0) 0 2 2) [] [0, 97]) := ⟨⟨0, 0, 0⟩, rfl, rfl, rfl⟩
  obtain ⟨-, hfrom⟩ := (session_length requests_twoBytes hk (by decide) h).2 rfl
  have hharmless := hfrom 0 (Nat.le_refl 0) fun l _ hl => absurd hl (Nat.not_lt_zero l)
  exact hharmless.clean.2 (by decide)

/-- Three bytes are read with three calls. -/
theorem readsAll_abc :
    Requests 2 twoBytes ∧
      ∃ fuel, session twoBytes fuel 0
        (callingWithFile (onePage (fun _ => 0) 0 2 2) [] [97, 98, 99]) = some [97, 98, 99] := by
  refine ⟨requests_twoBytes, (readsAll_iff (f := ⟨0, 0, 0⟩) requests_twoBytes rfl rfl).mpr ?_⟩
  refine ⟨by decide, fun i hcalled => ?_⟩
  have hi : i ≤ 2 := by
    by_contra hlt
    exact absurd (hcalled 2 (by omega)) (by decide)
  interval_cases i
  · exact ⟨by decide, by unfold Clean; decide, by decide⟩
  · exact ⟨by decide, by unfold Clean; decide, by decide⟩
  · exact ⟨by decide, by unfold Clean; decide, by decide⟩

end Nachos.Syscalls
