import Nachos.Userprog.Loader

/-!
# What `AddrSpace(char*)` uses and writes

`addrSpaceLog` lists the entries of the page table that the constructor uses and the bytes of main
memory that it writes, up to its return, to a failed `ASSERT` or to the first index outside the page
table. Every byte that `addrSpace` changes is in it (`addrSpace_changes`).

A list of copies keeps to the frames of the address space, for every bitmap and every file, exactly
when it fits (`CopiesFit.within`, `copiesFit_of_within`): each copy that is reached uses a page below
`numPages` and stays inside it. For a write that leaves its page there is a bitmap with one marked
bit such that the write leaves the frames (`exists_escape`). Only an address space that has all
frames can be written across the ends of its pages.
-/

namespace Nachos

open CInt Machine

/-- The constructor uses `pageTable[i]`, or it writes `length` bytes from `into` on. -/
inductive Access
  | pageTable (i : Nat)
  | write (into : Int) (length : Nat)
  deriving DecidableEq

/-- The loop that sets up the translation, from page `i` on. -/
def buildLog : Nat → Nat → BitMap → List Access
  | _, 0, _ => []
  | i, n + 1, b =>
    match b.find with
    | (none, _) => [.pageTable i]
    | (some f, b') => .pageTable i :: .write (f * pageSize : Nat) pageSize :: buildLog (i + 1) n b'

/-- The entry of the page table that a target uses. -/
def Target.accesses : Target → List Access
  | .physical _ => []
  | .page i _ => [.pageTable i]

/-- The `ReadAt`s. What follows an index outside the page table has no defined outcome. -/
def copyLog (executable : List Byte) (frames : List Word) : List Copy → List Access
  | [] => []
  | c :: cs =>
    c.target.accesses ++
      match c.target.resolve frames with
      | none => []
      | some into =>
        match readAt executable c.numBytes c.position with
        | none => []
        | some bytes => .write into bytes.length :: copyLog executable frames cs

/-- What `addrSpace` does with the page table and with main memory. -/
def addrSpaceLog (executable : List Byte) (physPageBitMap : BitMap) : List Access :=
  let noffH := readHeader executable
  if noffH.noffMagic ≠ noffMagic then []
  else if physPageBitMap.numClear < noffH.numPages then []
  else
    buildLog 0 noffH.numPages physPageBitMap ++
      match allocFrames physPageBitMap noffH.numPages with
      | (some frames, _) => copyLog executable (framesOf (newTable frames)) noffH.pageCopies
      | (none, _) => []

/-- The frames that `n` calls of `Find` obtain. -/
def obtained : Nat → BitMap → List Nat
  | 0, _ => []
  | n + 1, b =>
    match b.find with
    | (none, _) => []
    | (some f, b') => f :: obtained n b'

/-- The index is below `numPages`, or every byte written lies in one of the frames. -/
def Access.Within (numPages : Nat) (frames : List Nat) : Access → Prop
  | .pageTable i => i < numPages
  | .write into length => ∀ k : Nat, k < length →
      ∃ f ∈ frames, (f * pageSize : Nat) ≤ into + k ∧ into + k < ((f + 1) * pageSize : Nat)

/-- Every index is below `numPages`, and every byte written lies in a frame that this call obtained
from `Find`. -/
def OwnFramesOnly (executable : List Byte) (physPageBitMap : BitMap) : Prop :=
  ∀ x ∈ addrSpaceLog executable physPageBitMap,
    x.Within (readHeader executable).numPages
      (obtained (readHeader executable).numPages physPageBitMap)

/-! ## The log and the constructor -/

theorem obtained_of_allocFrames {n : Nat} {b b' : BitMap} {fs : List Nat}
    (h : allocFrames b n = (some fs, b')) : obtained n b = fs := by
  induction n generalizing b fs with
  | zero =>
    obtain ⟨rfl, -⟩ : [] = fs ∧ b = b' := by simpa [allocFrames] using h
    rfl
  | succ n ih =>
    rcases b.find_cases with ⟨f, -, -, hfind⟩ | ⟨-, hfind⟩
    · simp only [allocFrames, hfind] at h
      split at h
      next gs b'' hrest =>
        obtain ⟨rfl, rfl⟩ : f :: gs = fs ∧ b'' = b' := by simpa using h
        simp only [obtained, hfind, ih hrest]
      next => simp at h
    · simp [allocFrames, hfind] at h

/-- The first loop uses the entries below `i + n` and clears the frames that it obtains. -/
theorem mem_buildLog {i n : Nat} {b : BitMap} {x : Access} (h : x ∈ buildLog i n b) :
    (∃ j, j < i + n ∧ x = .pageTable j) ∨
      ∃ f ∈ obtained n b, x = .write (f * pageSize : Nat) pageSize := by
  induction n generalizing i b with
  | zero => cases h
  | succ n ih =>
    rcases b.find_cases with ⟨f, -, -, hfind⟩ | ⟨-, hfind⟩
    · simp only [buildLog, hfind, List.mem_cons] at h
      simp only [obtained, hfind, List.mem_cons, exists_eq_or_imp]
      rcases h with rfl | rfl | hrest
      · exact .inl ⟨i, by omega, rfl⟩
      · exact .inr (.inl rfl)
      · rcases ih hrest with ⟨j, hj, rfl⟩ | hwrite
        · exact .inl ⟨j, by omega, rfl⟩
        · exact .inr (.inr hwrite)
    · simp only [buildLog, hfind, List.mem_singleton] at h
      exact .inl ⟨i, by omega, h⟩

theorem write_mem_buildLog {i n : Nat} {b : BitMap} {f : Nat} (h : f ∈ obtained n b) :
    .write (f * pageSize : Nat) pageSize ∈ buildLog i n b := by
  induction n generalizing i b with
  | zero => cases h
  | succ n ih =>
    rcases b.find_cases with ⟨g, -, -, hfind⟩ | ⟨-, hfind⟩
    · simp only [obtained, hfind, List.mem_cons] at h
      simp only [buildLog, hfind, List.mem_cons]
      rcases h with rfl | hrest
      · exact .inr (.inl rfl)
      · exact .inr (.inr (ih hrest))
    · simp [obtained, hfind] at h

/-- A write of the log that contains the address. -/
def Logged (log : List Access) (a : Nat) : Prop :=
  ∃ (into : Int) (length : Nat), .write into length ∈ log ∧ into ≤ a ∧ (a : Int) < into + length

theorem runCopies_changes {executable : List Byte} {frames : List Word} {cs : List Copy}
    {memory memory' : Nat → Byte} (h : runCopies executable frames cs memory = .ok memory') {a : Nat}
    (ha : memory' a ≠ memory a) : Logged (copyLog executable frames cs) a := by
  induction cs generalizing memory with
  | nil =>
    obtain rfl : memory = memory' := by simpa [runCopies] using h
    exact absurd rfl ha
  | cons c cs ih =>
    simp only [runCopies] at h
    split at h
    next => cases h
    next into hresolve =>
      split at h
      next => cases h
      next bytes hread =>
        split at h
        next => cases h
        next written hwritten =>
        obtain ⟨rfl, -⟩ := writeMemory_ok hwritten
        simp only [copyLog, hresolve, hread]
        by_cases hwrite : into ≤ a ∧ (a : Int) < into + bytes.length
        · exact ⟨into, bytes.length, by simp, hwrite.1, hwrite.2⟩
        · have hkeep : writeBytes memory into bytes a = memory a := if_neg hwrite
          obtain ⟨into', length, hmem, hin⟩ := ih h (by rw [hkeep]; exact ha)
          exact ⟨into', length, by simp [hmem], hin⟩

/-- Every byte of main memory that the constructor changes is in the log. -/
theorem addrSpace_changes {executable : List Byte} {isNull : Bool} {b b' : BitMap}
    {memory memory' : Nat → Byte} {space : AddrSpace}
    (h : addrSpace executable isNull b memory = .ok (space, b', memory')) {a : Nat}
    (ha : memory' a ≠ memory a) : Logged (addrSpaceLog executable b) a := by
  by_cases hmagic : (readHeader executable).noffMagic ≠ noffMagic
  · simp [addrSpace, hmagic] at h
  simp only [addrSpace, if_neg hmagic] at h
  by_cases hfew : b.numClear < (readHeader executable).numPages
  · obtain ⟨-, -, rfl⟩ : _ ∧ b = b' ∧ memory = memory' := by simpa [hfew] using h
    exact absurd rfl ha
  · rw [if_neg hfew] at h
    obtain ⟨fs, b₁, memory₁, hbuild⟩ := buildPages_of_le (Nat.le_of_not_lt hfew) memory
    obtain ⟨halloc, hzero⟩ := buildPages_some hbuild
    simp only [hbuild] at h
    unfold addrSpaceLog
    rw [if_neg hmagic, if_neg hfew, halloc]
    cases hrun : runCopies executable (framesOf (newTable fs)) (readHeader executable).pageCopies
        memory₁ with
    | error f => simp [hrun, Except.map] at h
    | ok memory₂ =>
      obtain ⟨-, -, rfl⟩ : _ ∧ b₁ = b' ∧ memory₂ = memory' := by simpa [hrun, Except.map] using h
      by_cases hcopied : memory₂ a = memory₁ a
      · -- the byte was cleared with its frame
        have hcleared : a / pageSize ∈ fs := by
          by_contra hnot
          have hsame := hzero a
          rw [if_neg hnot] at hsame
          exact ha (hcopied.trans hsame)
        have hwrite := write_mem_buildLog (i := 0) (by rwa [obtained_of_allocFrames halloc])
        refine ⟨_, _, List.mem_append_left _ hwrite, ?_, ?_⟩
        · unfold pageSize
          omega
        · unfold pageSize
          omega
      · obtain ⟨into, length, hmem, hin⟩ := runCopies_changes hrun hcopied
        exact ⟨into, length, List.mem_append_right _ hmem, hin⟩

/-! ## Frames that leave a gap -/

/-- The numbers other than `m`, in order. -/
def skip (m j : Nat) : Nat := if j < m then j else j + 1

theorem skip_ne (m j : Nat) : skip m j ≠ m := by
  unfold skip
  split_ifs <;> omega

/-- With only bit `m` marked, page `j` gets the frame `skip m j`. -/
theorem allocFrames_skip {b : BitMap} {m k n : Nat}
    (h : ∀ i, i < b.numBits → b.test i = decide (i = m ∨ i < skip m k))
    (hn : ∀ j, j < k + n → skip m j < b.numBits) :
    ∃ b', allocFrames b n = (some ((List.range' k n).map (skip m)), b') := by
  induction n generalizing b k with
  | zero => exact ⟨b, rfl⟩
  | succ n ih =>
    have hk := hn k (by omega)
    have hfind := BitMap.find_of_least hk (by simp [h _ hk, skip_ne])
      fun i hi => by simp [h i (hi.trans hk), hi]
    have hmark : ∀ i, i < (b.mark (skip m k)).numBits →
        (b.mark (skip m k)).test i = decide (i = m ∨ i < skip m (k + 1)) := by
      intro i hi
      rw [BitMap.test_mark b hk, h i hi, ← Bool.decide_or, decide_eq_decide]
      unfold skip
      split_ifs <;> omega
    obtain ⟨b', hrest⟩ := ih hmark fun j hj => hn j (by omega)
    exact ⟨b', by simp [allocFrames, hfind, hrest, List.range'_succ]⟩

theorem le_numClear_of_allocFrames {b b' : BitMap} {n : Nat} {fs : List Nat}
    (h : allocFrames b n = (some fs, b')) : n ≤ b.numClear := by
  obtain ⟨halloc, hlen⟩ := allocFrames_some h
  have hbits := halloc.numBits
  have hmarked := halloc.marked
  have hbefore := b.numMarked_add_numClear
  have hafter := b'.numMarked_add_numClear
  omega

/-- Who obtains all frames gets frame `i` for page `i`. -/
theorem frames_of_all {b b' : BitMap} {fs : List Nat} (hbits : b.numBits = numPhysPages)
    (h : allocFrames b numPhysPages = (some fs, b')) : fs = List.range numPhysPages := by
  have hclear : b.numMarked = 0 := by
    have hle := le_numClear_of_allocFrames h
    have hsum := b.numMarked_add_numClear
    omega
  have hbelow : b.MarkedBelow 0 := by
    intro i hi
    have hnot := List.countP_eq_zero.mp hclear i (List.mem_range.mpr hi)
    simpa using hnot
  obtain ⟨b'', halloc⟩ := allocFrames_markedBelow (n := numPhysPages) hbelow (by omega)
  rw [h] at halloc
  rw [List.range_eq_range']
  exact Option.some.inj (Prod.mk.inj halloc).1

/-! ## Where a copy may go -/

/-- `numBytes` bytes at `offset` of page `i` lie in the frames of an address space of `n` pages,
whichever frames these are. -/
def Placed (n i : Nat) (offset numBytes : Int) : Prop :=
  if n = numPhysPages then 0 ≤ i * pageSize + offset ∧ i * pageSize + offset + numBytes ≤ memorySize
  else 0 ≤ offset ∧ offset + numBytes ≤ pageSize

instance (n i : Nat) (offset numBytes : Int) : Decidable (Placed n i offset numBytes) :=
  inferInstanceAs (Decidable (@ite Prop _ _ _ _))

theorem within_of_placed {b b' : BitMap} {n : Nat} {fs : List Nat}
    (hbits : b.numBits = numPhysPages) (halloc : allocFrames b n = (some fs, b')) {i : Nat}
    (hi : i < fs.length) {offset : Int} {length : Nat} (h : Placed n i offset length) :
    (Access.write ((fs[i] * pageSize : Nat) + offset) length).Within n fs := by
  unfold Placed at h
  intro k hk
  split_ifs at h with hall
  · subst hall
    obtain rfl := frames_of_all hbits halloc
    rw [List.getElem_range] at *
    refine ⟨((i * pageSize + offset + k) / pageSize).toNat, List.mem_range.mpr ?_, ?_, ?_⟩
    all_goals
      unfold memorySize numPhysPages pageSize at *
      omega
  · refine ⟨fs[i], List.getElem_mem hi, ?_, ?_⟩
    all_goals
      unfold pageSize at *
      omega

/-- A byte that is not placed lies outside the frames, for some bitmap with at most one marked bit. -/
theorem exists_gap {n i : Nat} (hn : n ≤ numPhysPages) (hi : i < n) {q : Int}
    (hout : if n = numPhysPages then (i : Int) + q < 0 ∨ numPhysPages ≤ (i : Int) + q else q ≠ 0) :
    ∃ m, (∀ j, j < n → skip m j < numPhysPages) ∧
      (skip m i + q = m ∨ skip m i + q < 0 ∨ numPhysPages ≤ skip m i + q) := by
  unfold numPhysPages at *
  unfold skip
  split_ifs at hout with hall
  · refine ⟨128, fun j hj => ?_, ?_⟩
    · split_ifs <;> omega
    · rw [if_pos (by omega)]
      exact .inr hout
  · by_cases hbefore : q < 0
    · by_cases hlow : 0 ≤ i + 1 + q
      · refine ⟨(i + 1 + q).toNat, fun j hj => ?_, .inl ?_⟩
        · split_ifs <;> omega
        · rw [if_neg (by omega)]
          omega
      · refine ⟨127, fun j hj => ?_, .inr (.inl ?_)⟩
        · split_ifs <;> omega
        · rw [if_pos (by omega)]
          omega
    · by_cases hhigh : i + q ≤ 127
      · refine ⟨(i + q).toNat, fun j hj => ?_, .inl ?_⟩
        · split_ifs <;> omega
        · rw [if_pos (by omega)]
          omega
      · refine ⟨127, fun j hj => ?_, .inr (.inr ?_)⟩
        · split_ifs <;> omega
        · rw [if_pos (by omega)]
          omega

theorem exists_onlyMarked (m : Nat) : ∃ b : BitMap, b.numBits = numPhysPages ∧
    ∀ i, i < b.numBits → b.test i = decide (i = m ∨ i < skip m 0) := by
  have hfirst : ∀ i, i = m ∨ i < skip m 0 ↔ i = m := by
    intro i
    unfold skip
    split_ifs <;> omega
  by_cases hm : m < numPhysPages
  · refine ⟨(BitMap.new numPhysPages).mark m, rfl, fun i hi => ?_⟩
    rw [BitMap.test_mark _ hm, BitMap.test_new, Bool.or_false, decide_eq_decide, hfirst]
  · refine ⟨BitMap.new numPhysPages, rfl, fun i hi => ?_⟩
    have hne : i ≠ m := fun h => hm (h ▸ hi)
    rw [BitMap.test_new]
    exact (decide_eq_false fun h => hne ((hfirst i).mp h)).symm

theorem exists_byte_of_not_placed {n i length : Nat} {offset : Int} (hlen : 0 < length)
    (h : ¬ Placed n i offset length) : ∃ k, k < length ∧
      if n = numPhysPages then
        (i : Int) + (offset + k) / pageSize < 0 ∨ numPhysPages ≤ (i : Int) + (offset + k) / pageSize
      else (offset + k) / pageSize ≠ 0 := by
  unfold Placed at h
  unfold memorySize numPhysPages pageSize at *
  split_ifs at h ⊢ with hall
  · by_cases hlow : 0 ≤ i * 512 + offset
    · exact ⟨length - 1, by omega, .inr (by omega)⟩
    · exact ⟨0, hlen, .inl (by omega)⟩
  · by_cases hlow : 0 ≤ offset
    · exact ⟨length - 1, by omega, by omega⟩
    · exact ⟨0, hlen, by omega⟩

/-- A write that is not placed leaves the frames that some bitmap gives. -/
theorem exists_escape {n i length : Nat} {offset : Int} (hn : n ≤ numPhysPages) (hi : i < n)
    (hlen : 0 < length) (h : ¬ Placed n i offset length) :
    ∃ b fs b', b.numBits = numPhysPages ∧ allocFrames b n = (some fs, b') ∧
      ∀ f, fs[i]? = some f → ¬ (Access.write ((f * pageSize : Nat) + offset) length).Within n fs := by
  obtain ⟨k, hk, hout⟩ := exists_byte_of_not_placed hlen h
  obtain ⟨m, hrange, hgap⟩ := exists_gap hn hi hout
  obtain ⟨b, hbits, htest⟩ := exists_onlyMarked m
  obtain ⟨b', halloc⟩ := allocFrames_skip htest (n := n) (by simpa [hbits] using hrange)
  refine ⟨b, _, b', hbits, halloc, fun f hf hwithin => ?_⟩
  obtain rfl : skip m i = f := by simpa [List.getElem?_range', hi] using hf
  obtain ⟨g, hg, hge, hlt⟩ := hwithin k hk
  obtain ⟨j, hj, rfl⟩ := List.mem_map.mp hg
  have hjn : j < n := by simpa using hj
  have hne := skip_ne m j
  have hjlt := hrange j hjn
  unfold pageSize at *
  omega

/-- The copy uses a page of the address space and stays in the frames if it reads the file at all. -/
def Copy.Fits (n : Nat) (c : Copy) : Prop :=
  ∃ i offset, c.target = .page i offset ∧ i < n ∧ (0 ≤ c.position → Placed n i offset c.numBytes)

/-- The copies fit, up to the first one at which `Lseek` fails. -/
def CopiesFit (n : Nat) : List Copy → Prop
  | [] => True
  | c :: cs => c.Fits n ∧ (0 ≤ c.position → CopiesFit n cs)

/-- Each copy goes into a page and asks for some bytes. -/
def Copy.IsPage (c : Copy) : Prop :=
  (∃ i offset, c.target = .page i offset) ∧ 0 < c.numBytes ∧ c.numBytes < 2 ^ 32

theorem resolve_page {fs : List Nat} (hrange : ∀ f ∈ fs, f < numPhysPages) {i f : Nat}
    (hf : fs[i]? = some f) (offset : Int) :
    (Target.page i offset).resolve (framesOf (newTable fs)) =
      some ((f * pageSize : Nat) + offset) := by
  have hlt := hrange f (List.mem_of_getElem? hf)
  unfold numPhysPages at hlt
  simp only [Target.resolve, framesOf_newTable, List.getElem?_map, hf, Option.map_some,
    BitVec.toNat_ofNat]
  rw [Nat.mod_eq_of_lt (by omega)]
  push_cast
  rfl

theorem copyLog_cons {executable : List Byte} {fs : List Nat}
    (hrange : ∀ f ∈ fs, f < numPhysPages) {c : Copy} {cs : List Copy} {i f : Nat} {offset : Int}
    (htarget : c.target = .page i offset) (hf : fs[i]? = some f) (hpos : 0 ≤ c.position) :
    copyLog executable (framesOf (newTable fs)) (c :: cs) =
      .pageTable i :: .write ((f * pageSize : Nat) + offset)
        ((executable.drop c.position.toNat).take (u32 c.numBytes)).length ::
        copyLog executable (framesOf (newTable fs)) cs := by
  have hread : readAt executable c.numBytes c.position =
      some ((executable.drop c.position.toNat).take (u32 c.numBytes)) := if_neg (by omega)
  simp only [copyLog, htarget, Target.accesses, resolve_page hrange hf, hread,
    List.singleton_append]

theorem Placed.mono {n i : Nat} {offset numBytes numBytes' : Int} (h : Placed n i offset numBytes)
    (hle : numBytes' ≤ numBytes) : Placed n i offset numBytes' := by
  unfold Placed at *
  split_ifs at h ⊢
  · exact ⟨h.1, by omega⟩
  · exact ⟨h.1, by omega⟩

/-- Copies that fit keep to the frames, whatever the bitmap and the file are. -/
theorem CopiesFit.within {b b' : BitMap} {n : Nat} {fs : List Nat}
    (hbits : b.numBits = numPhysPages) (halloc : allocFrames b n = (some fs, b'))
    (executable : List Byte) {cs : List Copy} (hpage : ∀ c ∈ cs, c.IsPage) (h : CopiesFit n cs) :
    ∀ x ∈ copyLog executable (framesOf (newTable fs)) cs, x.Within n fs := by
  obtain ⟨hallocated, hlen⟩ := allocFrames_some halloc
  have hrange : ∀ f ∈ fs, f < numPhysPages := fun f hf => hbits ▸ hallocated.range f hf
  induction cs with
  | nil => intro x hx; cases hx
  | cons c cs ih =>
    obtain ⟨⟨i, offset, htarget, hi, hplaced⟩, hrest⟩ := h
    have hfs : i < fs.length := hlen ▸ hi
    have hnum := (hpage c (List.mem_cons_self ..)).2
    by_cases hpos : 0 ≤ c.position
    · rw [copyLog_cons hrange htarget (List.getElem?_eq_getElem hfs) hpos]
      intro x hx
      rcases List.mem_cons.mp hx with rfl | hx
      · exact hi
      rcases List.mem_cons.mp hx with rfl | hx
      · refine within_of_placed hbits halloc hfs ((hplaced hpos).mono ?_)
        have hu32 := u32_of_nonneg (Int.le_of_lt hnum.1) hnum.2
        have hlength := List.length_take_le (u32 c.numBytes) (executable.drop c.position.toNat)
        omega
      · exact ih (fun c' hc' => hpage c' (List.mem_cons_of_mem c hc')) (hrest hpos) x hx
    · -- `Lseek` asserts
      have hread : readAt executable c.numBytes c.position = none := if_pos (by omega)
      intro x hx
      simp only [copyLog, htarget, Target.accesses,
        resolve_page hrange (List.getElem?_eq_getElem hfs), hread, List.append_nil,
        List.mem_singleton] at hx
      subst hx
      exact hi

/-- Copies that keep to the frames, for every bitmap and for the file at any length, fit. -/
theorem copiesFit_of_within (content : List Byte) {n : Nat} (hn : n ≤ numPhysPages)
    {cs : List Copy} (hpage : ∀ c ∈ cs, c.IsPage)
    (h : ∀ k b fs b', b.numBits = numPhysPages → allocFrames b n = (some fs, b') →
      ∀ x ∈ copyLog (content ++ List.replicate k 0) (framesOf (newTable fs)) cs, x.Within n fs) :
    CopiesFit n cs := by
  induction cs with
  | nil => trivial
  | cons c cs ih =>
    obtain ⟨⟨i, offset, htarget⟩, hpositive, hbound⟩ := hpage c (List.mem_cons_self ..)
    have hi : i < n := by
      obtain ⟨b', halloc⟩ := allocFrames_new hn
      refine h 0 _ _ b' rfl halloc (.pageTable i) ?_
      rw [copyLog, htarget]
      exact List.mem_append_left _ (List.mem_singleton.mpr rfl)
    -- the frame of page `i`
    have hframe : ∀ {b b' : BitMap} {fs : List Nat}, b.numBits = numPhysPages →
        allocFrames b n = (some fs, b') →
        (∀ f ∈ fs, f < numPhysPages) ∧ ∃ f, fs[i]? = some f := by
      intro b b' fs hbits halloc
      obtain ⟨hallocated, hlen⟩ := allocFrames_some halloc
      exact ⟨fun f hf => hbits ▸ hallocated.range f hf, _, List.getElem?_eq_getElem (hlen ▸ hi)⟩
    refine ⟨⟨i, offset, htarget, hi, fun hpos => ?_⟩, fun hpos => ?_⟩
    · by_contra hnot
      have hcast : (c.numBytes.toNat : Int) = c.numBytes := Int.toNat_of_nonneg (by omega)
      have hlen : 0 < c.numBytes.toNat := by omega
      obtain ⟨b, fs, b', hbits, halloc, hescape⟩ := exists_escape hn hi hlen (by rwa [hcast])
      obtain ⟨hrange, f, hf⟩ := hframe hbits halloc
      refine hescape f hf (h (c.position.toNat + c.numBytes.toNat) b fs b' hbits halloc _ ?_)
      have hu32 := u32_of_nonneg (Int.le_of_lt hpositive) hbound
      have hlength : (((content ++ List.replicate (c.position.toNat + c.numBytes.toNat) 0).drop
          c.position.toNat).take (u32 c.numBytes)).length = c.numBytes.toNat := by
        rw [List.length_take, List.length_drop, List.length_append, List.length_replicate]
        omega
      rw [copyLog_cons hrange htarget hf hpos, hlength]
      exact List.mem_cons_of_mem _ (List.mem_cons_self ..)
    · refine ih (fun c' hc' => hpage c' (List.mem_cons_of_mem c hc')) ?_
      intro k b fs b' hbits halloc x hx
      obtain ⟨hrange, f, hf⟩ := hframe hbits halloc
      refine h k b fs b' hbits halloc x ?_
      rw [copyLog_cons hrange htarget hf hpos]
      exact List.mem_cons_of_mem _ (List.mem_cons_of_mem _ hx)

theorem copiesFit_append {n : Nat} {cs ds : List Copy} : CopiesFit n (cs ++ ds) ↔
    CopiesFit n cs ∧ ((∀ c ∈ cs, 0 ≤ c.position) → CopiesFit n ds) := by
  induction cs with
  | nil => simp [CopiesFit]
  | cons c cs ih =>
    simp only [List.cons_append, CopiesFit, ih, List.forall_mem_cons]
    tauto

end Nachos
