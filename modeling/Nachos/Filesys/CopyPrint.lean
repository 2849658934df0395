import Nachos.Filesys.FullNames

/-!
# `Copy` and `Print`

`OpenFile::Read` and `OpenFile::Write` in the `FILESYS` build, and the two routines of fstest.cc
that use them: `Copy` writes a UNIX file into a new Nachos file and `Print` prints a Nachos file,
both `TransferSize` bytes at a time.

The contents of a file are a list of bytes. A `Read` gives the next bytes of it (`read_eq`) and
a `Write` replaces them (`write_spec`), so that what was written in pieces of any sizes is read
back in chunks of any other sizes. There is one exception: `ReadAt` computes the end of a request
as an `int`, and a request whose end is not an `int` is not cut off at the end of the file.
-/

namespace Nachos.Filesys

open Bytes CInt Runs

def transferSize : Nat := 10

/-! ### Reading and writing from the current position -/

/-- An open file and its `seekPosition`. -/
structure Stream where
  hdr : FileHeader
  seekPosition : Int

namespace Stream

/-- `OpenFile::Read`: the bytes that are put into the buffer. -/
def read (f : Stream) (disk : Disk) (numBytes : Int) : Except Fault (List Byte × Stream) := do
  let bytes ← readAt disk f.hdr numBytes f.seekPosition
  pure (bytes, { f with seekPosition := s32 (f.seekPosition + bytes.length) })

/-- `OpenFile::Write`: the disk, the result and the file. -/
def write (f : Stream) (disk : Disk) (bytes : List Byte) (numBytes : Int) (junk : Image) :
    Except Fault (Disk × Int × Stream) := do
  let (disk, result) ← writeAt disk f.hdr bytes numBytes f.seekPosition junk
  pure (disk, result, { f with seekPosition := s32 (f.seekPosition + result) })

/-- A `Read` of each of the given sizes. -/
def reads (f : Stream) (disk : Disk) : List Word → Except Fault (List (List Byte))
  | [] => .ok []
  | n :: sizes => do
    let (bytes, f) ← f.read disk n.toInt
    let results ← f.reads disk sizes
    pure (bytes :: results)

/-- A `Write` of each of the given buffers. The memory that a call gets is indexed by the number
of calls after it. -/
def writes (f : Stream) (disk : Disk) (junk : Nat → Image) : List (List Byte) → Except Fault Disk
  | [] => .ok disk
  | bytes :: pieces => do
    let (disk, _, f) ← f.write disk bytes bytes.length (junk pieces.length)
    f.writes disk junk pieces

end Stream

/-! ### `Copy` and `Print` -/

/-- The loop of `Copy`, when `fread` has not yet read the bytes `rest`. -/
def copyLoop (disk : Disk) (f : Stream) (junk : Nat → Image) (rest : List Byte) :
    Except Fault Disk :=
  if 0 < (rest.take transferSize).length then do
    let buffer := rest.take transferSize
    let (disk, _, f) ← f.write disk buffer buffer.length (junk rest.length)
    copyLoop disk f junk (rest.drop transferSize)
  else .ok disk
termination_by rest.length
decreasing_by
  simp only [List.length_take, List.length_drop, transferSize] at *
  omega

/-- The loop of `Print`, as far as it comes in `fuel` rounds: the bytes that it prints when it ends
in these. -/
def printLoop (disk : Disk) : Nat → Stream → Except Fault (Option (List Byte))
  | 0, _ => .ok none
  | fuel + 1, f => do
    let (buffer, f) ← f.read disk transferSize
    if 0 < buffer.length then do
      let printed ← printLoop disk fuel f
      pure (printed.map fun bytes => buffer ++ bytes)
    else pure (some [])

/-- `Copy` of a UNIX file with the given content: the disk after it. -/
def State.copy (s : State) (content : List Byte) (name : Image) (garbage : Nat → Garbage)
    (junk : Nat → Image) : Except Fault Disk := do
  let (disk, created) ← s.create name content.length (garbage 0)
  if created then
    match ← State.openFile { s with disk := disk } name (garbage 1) with
    | none => .error .assertion
    | some file => copyLoop disk ⟨file.hdr, 0⟩ junk content
  else pure disk

/-- `Print`: the bytes of the file that it prints, if it ends in `fuel` rounds. A file that cannot
be opened has none. -/
def State.print (s : State) (name : Image) (garbage : Garbage) (fuel : Nat) :
    Except Fault (Option (List Byte)) := do
  match ← s.openFile name garbage with
  | none => pure (some [])
  | some file => printLoop s.disk fuel ⟨file.hdr, 0⟩

/-! ### Statement -/

/-- `Copy` returns, and `Print` after it ends and has printed the content. -/
def CopyPrints (s : State) (content : List Byte) (name : Image) (garbage : Nat → Garbage)
    (junk : Nat → Image) : Prop :=
  ∃ disk', s.copy content name garbage junk = .ok disk' ∧
    ∃ rounds, ∀ fuel ≥ rounds,
      State.print { s with disk := disk' } name (garbage 2) fuel = .ok (some content)

/-- What `Read`s of the given sizes have to give: each the next bytes of the content, as many as it
asks for or as there are. -/
def chunksOf (content : List Byte) : List Word → List (List Byte)
  | [] => []
  | n :: sizes => content.take n.toInt.toNat :: chunksOf (content.drop n.toInt.toNat) sizes

/-- The pieces can be written one after the other, and what is read from position 0 then is their
content. -/
def ReadsBack (disk : Disk) (hdr : FileHeader) (junk : Nat → Image) (pieces : List (List Byte))
    (sizes : List Word) : Prop :=
  ∃ disk', Stream.writes ⟨hdr, 0⟩ disk junk pieces = .ok disk' ∧
    Stream.reads ⟨hdr, 0⟩ disk' sizes = .ok (chunksOf pieces.flatten sizes)

/-- The end of every request that starts inside the file is an `int`. -/
def EndsFit (fileLength : Nat) : Nat → List Word → Prop
  | _, [] => True
  | pos, n :: sizes =>
    (pos < fileLength → pos + n.toInt < 2 ^ 31) ∧
      EndsFit fileLength (min fileLength (pos + n.toInt.toNat)) sizes

/-- The chunks are the content, as far as it was asked for. -/
theorem flatten_chunksOf (content : List Byte) (sizes : List Word) :
    (chunksOf content sizes).flatten =
      content.take (sizes.map fun n => n.toInt.toNat).sum := by
  induction sizes generalizing content with
  | nil => simp [chunksOf]
  | cons n sizes ih =>
    rw [chunksOf, List.flatten_cons, ih, List.map_cons, List.sum_cons, List.take_add]

/-! ### One `Read` and one `Write` -/

/-- The bytes of a file. -/
def contentOf (disk : Disk) (h : FileHeader) : List Byte :=
  toList (fileByte disk h) h.numBytes.toNat

/-- The content with some of its bytes replaced, from the position `pos` on. -/
def replaced (content : List Byte) (pos : Nat) (bytes : List Byte) : List Byte :=
  content.take pos ++ bytes ++ content.drop (pos + bytes.length)

theorem replaced_append (content : List Byte) {pos : Nat} {bytes : List Byte}
    (hfit : pos + bytes.length ≤ content.length) (bytes' : List Byte) :
    replaced (replaced content pos bytes) (pos + bytes.length) bytes' =
      replaced content pos (bytes ++ bytes') := by
  have hlow : (content.take pos ++ bytes).length = pos + bytes.length := by
    rw [List.length_append, List.length_take]
    omega
  unfold replaced
  rw [List.take_append_of_le_length (by omega), List.take_of_length_le (by omega),
    List.drop_append, List.drop_of_length_le (by omega), hlow, List.nil_append, List.drop_drop,
    List.length_append]
  simp only [List.append_assoc]
  congr 4
  omega

theorem replaced_all {content bytes : List Byte} (hlen : content.length = bytes.length) :
    replaced content 0 bytes = bytes := by
  unfold replaced
  rw [List.take_zero, List.nil_append, List.drop_of_length_le (by omega), List.append_nil]

section Content

variable {disk : Disk} {h : FileHeader} {len : Nat}

theorem length_contentOf (hlen : h.numBytes = len) : (contentOf disk h).length = len := by
  unfold contentOf
  rw [length_toList, hlen, Int.toNat_natCast]

theorem getElem?_contentOf (hlen : h.numBytes = len) {k : Nat} (hk : k < len) :
    (contentOf disk h)[k]? = some (fileByte disk h k) := by
  unfold contentOf toList
  rw [hlen, Int.toNat_natCast, List.getElem?_map, List.getElem?_range hk]
  rfl

theorem length_le (hv : h.Valid) (hlen : h.numBytes = len) : len ≤ maxFileSize := by
  have hdirect := hv.direct
  have hbytes := hv.length
  unfold maxFileSize numDirect sectorSize at *
  omega

/-- A request that starts inside the file is cut off at its end, if its own end is an `int`. -/
theorem clip_eq {n : Int} {pos : Nat} (hn : 0 < n) (hpos : pos < len) (hend : pos + n < 2 ^ 31) :
    clip len n pos = (min n.toNat (len - pos) : Nat) := by
  unfold clip
  rw [if_neg (by omega), s32_of_bounds (by omega) hend]
  split <;> omega

theorem readAt_eq_content (hv : h.Valid) (hlen : h.numBytes = len) {n : Int} {pos : Nat}
    (hend : pos < len → pos + n < 2 ^ 31) :
    readAt disk h n pos = .ok (((contentOf disk h).drop pos).take n.toNat) := by
  by_cases hn : n ≤ 0
  · have hclip : clip h.numBytes n pos = 0 := if_pos (Or.inl hn)
    unfold readAt
    simp only [hclip, if_true]
    rw [Int.toNat_of_nonpos hn, List.take_zero]
  by_cases hpos : pos < len
  · have hclip := clip_eq (by omega) hpos (hend hpos)
    rw [← hlen] at hclip
    rw [readAt_inside hv (by omega) (by omega) hclip]
    congr 1
    apply List.ext_getElem?
    intro k
    by_cases hk : k < min n.toNat (len - pos)
    · rw [List.getElem?_map, List.getElem?_range hk, List.getElem?_take_of_lt (by omega),
        List.getElem?_drop, getElem?_contentOf hlen (by omega)]
      rfl
    · rw [List.getElem?_eq_none (by rw [List.length_map, List.length_range]; omega),
        List.getElem?_eq_none]
      rw [List.length_take, List.length_drop, length_contentOf hlen]
      omega
  · have hclip : clip h.numBytes n pos = 0 := if_pos (Or.inr (by omega))
    unfold readAt
    simp only [hclip, if_true]
    rw [List.drop_of_length_le (by rw [length_contentOf hlen]; omega), List.take_nil]

theorem readAt_overflow (hv : h.Valid) (hlen : h.numBytes = len) {n : Int} {pos : Nat}
    (hn : n < 2 ^ 31) (hpos : pos < len) (hend : 2 ^ 31 ≤ pos + n) :
    readAt disk h n pos = .error .outOfBounds := by
  have hsmall := length_le hv hlen
  have hclip : clip len n pos = n := clip_overflow hn (by omega) (by omega) hend
  rw [← hlen] at hclip
  unfold readAt
  unfold maxFileSize numDirect sectorSize at hsmall
  simp only [hclip]
  rw [if_neg (by omega), if_pos (by omega)]

/-- A `Read` gives the next bytes of the file. -/
theorem read_eq (hv : h.Valid) (hlen : h.numBytes = len) {n : Int} {pos : Nat} (hpos : pos ≤ len)
    (hend : pos < len → pos + n < 2 ^ 31) :
    Stream.read ⟨h, pos⟩ disk n =
      .ok (((contentOf disk h).drop pos).take n.toNat, ⟨h, (min len (pos + n.toNat) : Nat)⟩) := by
  have hsmall := length_le hv hlen
  have hcount : (((contentOf disk h).drop pos).take n.toNat).length = min n.toNat (len - pos) := by
    rw [List.length_take, List.length_drop, length_contentOf hlen]
  unfold Stream.read
  simp only [readAt_eq_content hv hlen hend, ok_bind, hcount]
  have hseek : s32 ((pos : Int) + (min n.toNat (len - pos) : Nat)) =
      (min len (pos + n.toNat) : Nat) := by
    unfold maxFileSize numDirect sectorSize at hsmall
    rw [s32_of_bounds (by omega) (by omega)]
    omega
  rw [hseek]
  rfl

/-- A `Write` that does not go beyond the end of the file replaces the next bytes. -/
theorem write_spec (hv : h.Valid) (hlen : h.numBytes = len) (disk : Disk) {bytes : List Byte}
    {pos : Nat} (hfit : pos + bytes.length ≤ len) (junk : Image) :
    ∃ disk', Stream.write ⟨h, pos⟩ disk bytes bytes.length junk =
        .ok (disk', bytes.length, ⟨h, (pos + bytes.length : Nat)⟩) ∧
      (∀ x, x ∉ h.sectors → disk' x = disk x) ∧
      contentOf disk' h = replaced (contentOf disk h) pos bytes := by
  have hsmall := length_le hv hlen
  unfold maxFileSize numDirect sectorSize at hsmall
  have hseek : s32 ((pos : Int) + (bytes.length : Nat)) = (pos + bytes.length : Nat) := by
    rw [s32_of_bounds (by omega) (by omega)]
    omega
  unfold Stream.write replaced
  by_cases hnil : bytes.length = 0
  · -- nothing is asked for
    obtain rfl := List.length_eq_zero_iff.mp hnil
    have hzero : writeAt disk h [] (([] : List Byte).length : Nat) pos junk = .ok (disk, 0) := by
      have hclip : clip h.numBytes (([] : List Byte).length : Nat) pos = 0 :=
        if_pos (Or.inl (le_refl _))
      unfold writeAt
      simp only [hclip, if_true]
    refine ⟨disk, ?_, fun _ _ => rfl, ?_⟩
    · simp only [hzero, ok_bind]
      exact congrArg (fun p => Except.ok (disk, (0 : Int), Stream.mk h p)) hseek
    · simp
  · have hclip : clip h.numBytes (bytes.length : Nat) pos = (bytes.length : Nat) := by
      rw [hlen, clip_eq (by omega) (by omega) (by omega)]
      omega
    obtain ⟨disk', hwrite, hframe, hdata⟩ :
        ∃ disk', writeAt disk h bytes (bytes.length : Nat) pos junk = .ok (disk', _) ∧ _ :=
      writeAt_spec hv (by omega) (by omega) hclip (le_refl _) junk
    refine ⟨disk', ?_, hframe, ?_⟩
    · simp only [hwrite, ok_bind, hseek]
      rfl
    · apply List.ext_getElem?
      intro k
      have hold : (contentOf disk h).length = len := length_contentOf hlen
      by_cases hk : k < len
      · rw [getElem?_contentOf hlen hk, hdata k (by omega)]
        by_cases hlow : k < pos
        · rw [if_neg (by omega), List.append_assoc,
            List.getElem?_append_left (by rw [List.length_take]; omega),
            List.getElem?_take_of_lt hlow, getElem?_contentOf hlen hk]
        · by_cases hmid : k < pos + bytes.length
          · rw [if_pos (by omega), List.append_assoc,
              List.getElem?_append_right (by rw [List.length_take]; omega), List.length_take, hold,
              Nat.min_eq_left (by omega), List.getElem?_append_left (by omega),
              List.getD_eq_getElem?_getD, List.getElem?_eq_getElem (by omega), Option.getD_some]
          · rw [if_neg (by omega), List.getElem?_append_right (by
                rw [List.length_append, List.length_take]
                omega), List.length_append, List.length_take, hold, Nat.min_eq_left (by omega),
              List.getElem?_drop, Nat.add_sub_cancel' (by omega), getElem?_contentOf hlen hk]
      · rw [List.getElem?_eq_none (by rw [length_contentOf hlen]; omega), List.getElem?_eq_none]
        rw [List.length_append, List.length_append, List.length_take, List.length_drop, hold]
        omega

/-! ### One after the other -/

theorem writes_spec (hv : h.Valid) (hlen : h.numBytes = len) (junk : Nat → Image)
    {pieces : List (List Byte)} {pos : Nat} (hfit : pos + pieces.flatten.length ≤ len)
    (disk : Disk) :
    ∃ disk', Stream.writes ⟨h, pos⟩ disk junk pieces = .ok disk' ∧
      contentOf disk' h = replaced (contentOf disk h) pos pieces.flatten := by
  induction pieces generalizing pos disk with
  | nil =>
    refine ⟨disk, rfl, ?_⟩
    simp [replaced]
  | cons bytes pieces ih =>
    rw [List.flatten_cons, List.length_append] at hfit
    obtain ⟨disk₁, hwrite, -, hcontent₁⟩ := write_spec hv hlen disk
      (show pos + bytes.length ≤ len by omega) (junk pieces.length)
    obtain ⟨disk₂, hwrites, hcontent₂⟩ :=
      ih (show pos + bytes.length + pieces.flatten.length ≤ len by omega) disk₁
    refine ⟨disk₂, ?_, ?_⟩
    · simp only [Stream.writes, hwrite, ok_bind]
      exact hwrites
    · rw [hcontent₂, hcontent₁, replaced_append _ (by rw [length_contentOf hlen]; omega),
        List.flatten_cons]

/-- The loop of `Copy` puts the rest of the UNIX file at the current position. -/
theorem copyLoop_spec (hv : h.Valid) (hlen : h.numBytes = len) (junk : Nat → Image)
    (rest : List Byte) {pos : Nat} (hfit : pos + rest.length ≤ len) (disk : Disk) :
    ∃ disk', copyLoop disk ⟨h, pos⟩ junk rest = .ok disk' ∧
      (∀ x, x ∉ h.sectors → disk' x = disk x) ∧
      contentOf disk' h = replaced (contentOf disk h) pos rest := by
  -- by the number of bytes that are left
  induction hn : rest.length using Nat.strong_induction_on generalizing rest pos disk with
  | _ n ih =>
    rw [copyLoop]
    have hcut : (rest.take transferSize).length + (rest.drop transferSize).length = rest.length := by
      rw [← List.length_append, List.take_append_drop]
    by_cases hmore : 0 < (rest.take transferSize).length
    · obtain ⟨disk₁, hwrite, hframe₁, hcontent₁⟩ := write_spec hv hlen disk
        (show pos + (rest.take transferSize).length ≤ len by omega) (junk rest.length)
      have hrest : pos + (rest.take transferSize).length + (rest.drop transferSize).length ≤ len := by
        omega
      obtain ⟨disk₂, hloop, hframe₂, hcontent₂⟩ := ih (rest.drop transferSize).length (by omega)
        (rest.drop transferSize) hrest disk₁ rfl
      refine ⟨disk₂, ?_, fun x hx => (hframe₂ x hx).trans (hframe₁ x hx), ?_⟩
      · rw [if_pos hmore]
        simp only [hwrite, ok_bind]
        exact hloop
      · rw [hcontent₂, hcontent₁, replaced_append _ (by rw [length_contentOf hlen]; omega),
          List.take_append_drop]
    · have hnil : rest = [] := by
        rw [List.length_take] at hmore
        unfold transferSize at hmore
        exact List.length_eq_zero_iff.mp (by omega)
      subst hnil
      refine ⟨disk, if_neg hmore, fun _ _ => rfl, ?_⟩
      simp [replaced]

theorem drop_min (hlen : h.numBytes = len) (pos n : Nat) :
    (contentOf disk h).drop (min len (pos + n)) = ((contentOf disk h).drop pos).drop n := by
  rw [List.drop_drop]
  rcases Nat.le_total len (pos + n) with hle | hle
  · rw [Nat.min_eq_left hle, List.drop_of_length_le (by rw [length_contentOf hlen]),
      List.drop_of_length_le (by rw [length_contentOf hlen]; exact hle)]
  · rw [Nat.min_eq_right hle]

/-- The loop of `Print` ends, and prints the rest of the file. -/
theorem printLoop_spec (hv : h.Valid) (hlen : h.numBytes = len) {fuel pos : Nat} (hpos : pos ≤ len)
    (hfuel : len - pos < fuel) :
    printLoop disk fuel ⟨h, pos⟩ = .ok (some ((contentOf disk h).drop pos)) := by
  have hsmall := length_le hv hlen
  unfold maxFileSize numDirect sectorSize at hsmall
  induction fuel generalizing pos with
  | zero => omega
  | succ fuel ih =>
    have hread : Stream.read ⟨h, pos⟩ disk transferSize = _ :=
      read_eq hv hlen hpos (by unfold transferSize; omega)
    have hcount : (((contentOf disk h).drop pos).take transferSize).length =
        min transferSize (len - pos) := by
      rw [List.length_take, List.length_drop, length_contentOf hlen]
    rw [Int.toNat_natCast] at hread
    unfold printLoop
    simp only [hread, ok_bind, hcount]
    by_cases hmore : pos < len
    · have hrest := ih (show min len (pos + transferSize) ≤ len by omega)
        (by unfold transferSize; omega)
      rw [if_pos (by unfold transferSize; omega), hrest, ok_bind, Option.map_some]
      rw [drop_min hlen, List.take_append_drop]
      rfl
    · rw [if_neg (by omega), List.drop_of_length_le (by rw [length_contentOf hlen]; omega)]
      rfl

/-- The `Read`s give the chunks of the file if the ends of the requests are `int`s; otherwise one of
them indexes out of bounds. -/
theorem reads_cases (hv : h.Valid) (hlen : h.numBytes = len) (disk : Disk) (sizes : List Word)
    {pos : Nat} (hpos : pos ≤ len) :
    (EndsFit len pos sizes ∧ Stream.reads ⟨h, pos⟩ disk sizes =
        .ok (chunksOf ((contentOf disk h).drop pos) sizes)) ∨
      (¬ EndsFit len pos sizes ∧ Stream.reads ⟨h, pos⟩ disk sizes = .error .outOfBounds) := by
  induction sizes generalizing pos with
  | nil => exact Or.inl ⟨trivial, rfl⟩
  | cons n sizes ih =>
    unfold Stream.reads
    by_cases hend : pos < len → pos + n.toInt < 2 ^ 31
    · simp only [read_eq hv hlen hpos hend, ok_bind]
      have hnext : min len (pos + n.toInt.toNat) ≤ len := by omega
      rcases ih hnext with ⟨hfits, hreads⟩ | ⟨hnot, hreads⟩
      · refine Or.inl ⟨⟨hend, hfits⟩, ?_⟩
        rw [hreads, drop_min hlen]
        rfl
      · refine Or.inr ⟨fun hfits => hnot hfits.2, ?_⟩
        rw [hreads]
        rfl
    · refine Or.inr ⟨fun hfits => hend hfits.1, ?_⟩
      have hover : readAt disk h n.toInt pos = .error .outOfBounds :=
        readAt_overflow hv hlen BitVec.toInt_lt (by omega) (by omega)
      unfold Stream.read
      simp only [hover]
      rfl

end Content

theorem readsBack_iff {disk : Disk} {h : FileHeader} (hv : h.Valid) {pieces : List (List Byte)}
    (hlen : h.numBytes = pieces.flatten.length) (junk : Nat → Image) (sizes : List Word) :
    ReadsBack disk h junk pieces sizes ↔ EndsFit pieces.flatten.length 0 sizes := by
  obtain ⟨disk', hwrites, hcontent⟩ := writes_spec hv hlen junk
    (show 0 + pieces.flatten.length ≤ _ by omega) disk
  have hall : contentOf disk' h = pieces.flatten := by
    rw [hcontent, replaced_all (length_contentOf hlen)]
  have hcases := reads_cases hv hlen disk' sizes (Nat.zero_le _)
  rw [hall, List.drop_zero] at hcases
  constructor
  · rintro ⟨disk₁, hwrites₁, hreads₁⟩
    rw [show (0 : Int) = (0 : Nat) from rfl, hwrites] at hwrites₁
    obtain rfl := Except.ok.inj hwrites₁
    rcases hcases with ⟨hfits, -⟩ | ⟨-, hreads⟩
    · exact hfits
    · exact absurd (hreads₁.symm.trans hreads) (by simp)
  · intro hfits
    rcases hcases with ⟨-, hreads⟩ | ⟨hnot, -⟩
    · exact ⟨disk', hwrites, hreads⟩
    · exact absurd hfits hnot

/-! ### A new file -/

section NewFile

variable {s : State} {name : Image} {content : List Byte}

theorem Added.alive_new {disk disk' : Disk} {e x : Nat} {hdr : FileHeader}
    (ha : Added disk name e x hdr disk') : Alive disk' ⟨hdr, x⟩ := by
  refine ⟨e, ha.index, by rw [ha.entry_new], by rw [ha.entry_new], ?_⟩
  rw [Int.toNat_natCast]
  exact ha.header.symm

/-- The file that was just created is found again after its data was written. -/
theorem Added.openFile_written {e x : Nat} {hdr : FileHeader} {disk₁ disk₂ : Disk} (hm : Mounted s)
    (ha : Added s.disk name e x hdr disk₁) (hframe : ∀ y, y ∉ hdr.sectors → disk₂ y = disk₁ y)
    (garbage : Garbage) :
    State.openFile { s with disk := disk₂ } name garbage = .ok (some ⟨hdr, x⟩) := by
  have hinv : Inv { s with disk := disk₁, handles := [], stopped := none } :=
    ⟨⟨ha.consistent, (ha.mounted hm).freeMapHdr, (ha.mounted hm).directoryHdr⟩, by simp, by simp⟩
  have hm₂ := (hinv.write ha.alive_new hframe).mounted
  have hm₂' : Mounted { s with disk := disk₂ } :=
    ⟨hm₂.consistent, hm₂.freeMapHdr, hm₂.directoryHdr⟩
  rw [← ha.header] at hframe
  have hentry := ha.consistent.directoryOn_write (by simp) ha.header_new hframe e ha.index
  have hheader : disk₂ x = hdr := by
    rw [(ha.consistent.write ha.header_new hframe).2 ha.header_new, ha.header]
  exact hm₂'.openFile_entry ha.index (hentry.trans ha.entry_new) hheader garbage

/-- With a new name, a free entry and enough sectors, the content is copied and printed. -/
theorem Mounted.copyPrints (hm : Mounted s) (hmax : content.length ≤ maxFileSize)
    (hnot : ¬ Refused s.disk name content.length) (garbage : Nat → Garbage) (junk : Nat → Image) :
    CopyPrints s content name garbage junk := by
  rcases hm.create_cases name (Int.natCast_nonneg content.length) (by omega) (garbage 0) with
    ⟨-, hrefused⟩ | ⟨e, x, hdr, disk₁, hcreate, hchosen, ha⟩
  · exact absurd hrefused hnot
  obtain ⟨disk₂, hloop, hframe, hcontent⟩ := copyLoop_spec ha.valid hchosen.numBytes junk content
    (show 0 + content.length ≤ _ by omega) disk₁
  have hall : contentOf disk₂ hdr = content := by
    rw [hcontent, replaced_all (length_contentOf hchosen.numBytes)]
  refine ⟨disk₂, ?_, content.length + 1, fun fuel hfuel => ?_⟩
  · unfold State.copy
    simp only [hcreate, ok_bind, if_true, ha.openFile hm]
    exact hloop
  · unfold State.print
    simp only [ha.openFile_written hm hframe, ok_bind]
    have hprint : printLoop disk₂ fuel ⟨hdr, (0 : Nat)⟩ = _ :=
      printLoop_spec ha.valid hchosen.numBytes (Nat.zero_le _) (by omega)
    rw [hall, List.drop_zero] at hprint
    exact hprint

end NewFile

/-- From `FileSystem(TRUE)` on and after any calls: a UNIX file of at most `MaxFileSize` bytes that
is copied to a new name, when there is an entry and there are sectors for it, is printed as it was;
and what is written to any file of that length in pieces is read back in chunks exactly when the
ends of the requests are `int`s. -/
theorem roundTrip_iff {disk : Disk} {mapHdr dirHdr : Image} {garbage : Nat → Garbage} {s₀ s : State}
    (hstart : fileSystem disk mapHdr dirHdr garbage = .ok s₀) {ls : List Label}
    (hrun : run step s₀ ls = some s) :
    (∀ (content : List Byte) (name : Image) (garbage : Nat → Garbage) (junk : Nat → Image),
      content.length ≤ maxFileSize →
      (∀ i < numDirEntries, ((directoryOn s.disk).entry i).inUse = true →
        ((directoryOn s.disk).entry i).name ≠ compared name) →
      (∃ i < numDirEntries, ((directoryOn s.disk).entry i).inUse = false) →
      1 + divRoundUp content.length sectorSize ≤ (freeMapOn s.disk).numClear →
      CopyPrints s content name garbage junk) ∧
    ∀ (file : OpenFile) (pieces : List (List Byte)) (sizes : List Word) (junk : Nat → Image),
      Alive s.disk file → file.hdr.numBytes = pieces.flatten.length →
      (ReadsBack s.disk file.hdr junk pieces sizes ↔ EndsFit pieces.flatten.length 0 sizes) := by
  obtain ⟨s₁, hstart₁, hinv₁⟩ := fileSystem_spec disk mapHdr dirHdr garbage
  rw [hstart] at hstart₁
  obtain rfl := Except.ok.inj hstart₁
  have hinv : Inv s := (allStates_of_invariant (fun _ _ _ => Inv.step) hinv₁ ls).of_run hrun
  refine ⟨?_, ?_⟩
  · intro content name garbage junk hmax hnew hentry hspace
    refine hinv.mounted.copyPrints hmax (fun hrefused => ?_) garbage junk
    cases hrefused with
    | named i hi hui hname => exact hnew i hi hui hname
    | entries hall =>
      obtain ⟨i, hi, hui⟩ := hentry
      rw [hall i hi] at hui
      cases hui
    | space hclear =>
      rw [Int.toNat_natCast] at hclear
      omega
  · intro file pieces sizes junk halive hlen
    exact readsBack_iff (hinv.valid halive) hlen junk sizes

/-- A file of at most one sector, created after `FileSystem(TRUE)`. -/
theorem exists_file {n : Int} (h0 : 0 ≤ n) (hn : n ≤ sectorSize) :
    ∃ s₀ s file,
      fileSystem (fun _ _ => 0) (fun _ => 0) (fun _ => 0) (fun _ => zeroGarbage) = .ok s₀ ∧
      run step s₀ [zeroLabel (.create (literal "a") n)] = some s ∧ Inv s ∧ Alive s.disk file ∧
      file.hdr.numBytes = n ∧ Room s.disk [compared (literal "a"), compared (literal "stdout"),
        compared (literal "stdin")] 10 := by
  obtain ⟨s₀, hstart, hinv, hstop, hroom⟩ := room_fileSystem (fun _ _ => 0) (fun _ => 0)
    (fun _ => 0) fun _ => zeroGarbage
  obtain ⟨e, x, hdr, disk', hcreate, hchosen, ha⟩ :
      ∃ e x hdr disk', s₀.create (literal "a") n zeroGarbage = .ok (disk', true) ∧
        Chosen s₀.disk n zeroGarbage.header x hdr ∧ Added s₀.disk (literal "a") e x hdr disk' :=
    hroom.creates hinv.mounted h0 hn zeroGarbage (by decide) (by decide) (by decide)
  have hmax : n ≤ maxFileSize := hn.trans (by decide)
  have hstep : step s₀ (zeroLabel (.create (literal "a") n)) = some { s₀ with disk := disk' } :=
    (step_eq hstop _).trans (perform_create h0 hmax hcreate fun _ => 0)
  refine ⟨s₀, _, ⟨hdr, x⟩, hstart, Option.bind_eq_some_iff.mpr ⟨_, hstep, rfl⟩, hinv.step hstep,
    ha.alive_new, hchosen.numBytes, ha.room hroom ?_⟩
  rw [hchosen.length]
  exact one_sector hn

/-- Three bytes are copied to the file `b`, and three bytes are written to the file `a` in two
pieces and read in chunks of two and of five bytes. -/
theorem roundTrip_abc :
    ∃ (s : State) (file : OpenFile),
      CopyPrints s [0x61, 0x62, 0x63] (literal "b") (fun _ => zeroGarbage) (fun _ _ => 0) ∧
      ReadsBack s.disk file.hdr (fun _ _ => 0) [[0x61], [0x62, 0x63]] [2, 5, 1] := by
  obtain ⟨s₀, s, file, hstart, hrun, hinv, halive, hlen, hroom⟩ :=
    exists_file (show (0 : Int) ≤ 3 by decide) (by decide)
  obtain ⟨e, x, hdr, disk', hcreate, hchosen, ha⟩ :
      ∃ e x hdr disk', s.create (literal "b") 3 zeroGarbage = .ok (disk', true) ∧
        Chosen s.disk 3 zeroGarbage.header x hdr ∧ Added s.disk (literal "b") e x hdr disk' :=
    hroom.creates hinv.mounted (by decide) (by decide) zeroGarbage (by decide) (by decide)
      (by decide)
  obtain ⟨hcopy, hreads⟩ := roundTrip_iff hstart hrun
  refine ⟨s, file, hcopy _ _ _ _ (by decide) ha.new ⟨e, ha.index, ha.unused⟩ hchosen.clear,
    (hreads file [[0x61], [0x62, 0x63]] [2, 5, 1] _ halive hlen).mpr ?_⟩
  refine ⟨fun _ => by decide, fun _ => by decide, fun h => absurd h (by decide), trivial⟩

/-- Two bytes, read by a `Read` of one byte and one of `INT_MAX` bytes. -/
theorem not_readsBack_intMax :
    ∃ s₀ s file,
      fileSystem (fun _ _ => 0) (fun _ => 0) (fun _ => 0) (fun _ => zeroGarbage) = .ok s₀ ∧
      run step s₀ [zeroLabel (.create (literal "a") 2)] = some s ∧ Alive s.disk file ∧
      file.hdr.numBytes = [[0x61, 0x62]].flatten.length ∧
      ¬ ReadsBack s.disk file.hdr (fun _ _ => 0) [[0x61, 0x62]] [1, 0x7fffffff] := by
  obtain ⟨s₀, s, file, hstart, hrun, hinv, halive, hlen, -⟩ :=
    exists_file (show (0 : Int) ≤ 2 by decide) (by decide)
  refine ⟨s₀, s, file, hstart, hrun, halive, hlen, fun hreads => ?_⟩
  have hlen' : file.hdr.numBytes = [[0x61, 0x62]].flatten.length := hlen
  obtain ⟨-, hfits, -⟩ := (readsBack_iff (hinv.valid halive) hlen' _ _).mp hreads
  exact absurd (hfits (by decide)) (by decide)

end Nachos.Filesys
