import Nachos.Filesys.FileStore

/-!
# The file system refines the store

`Shows` relates a state of the file system to a store: the names and the contents are those that the
directory, the headers and the data sectors have, and a live handle is a handle of the name that its
header has in the directory. The number of marked sectors is not part of it: the holders of a
consistent disk divide them (`Shows.numMarked`).

`store_refinement`: from a disk that was just formatted on, and whatever the calls and the restarts
are, what the calls return is a path of the store, and no call fails.
-/

namespace Nachos.Filesys

open Bytes Shares Runs

/-! ### The files of a disk -/

/-- The entries of the directory that are in use. -/
def filesOn (disk : Disk) : Finset Nat :=
  (Finset.range numDirEntries).filter fun i => ((directoryOn disk).entry i).inUse = true

/-- The name of an entry. -/
def nameOn (disk : Disk) (i : Nat) : Name := ((directoryOn disk).entry i).name

/-- The header of an entry. -/
def headerOn (disk : Disk) (i : Nat) : FileHeader :=
  disk ((directoryOn disk).entry i).sector.toNat

/-- A handle is open on a file that is there, or its file was removed. -/
def Linked (disk : Disk) (h : Handle) (name : Option Name) : Prop :=
  (h.removed = true ∧ name = none) ∨
    (h.removed = false ∧ ∃ i ∈ filesOn disk, ((directoryOn disk).entry i).sector = h.file.fileID ∧
      name = some (nameOn disk i))

/-- The disk has the files of the store, in as few sectors as they need. -/
structure Holds (disk : Disk) (S : Store) : Prop where
  consistent : Consistent disk
  names : S.names = (filesOn disk).image (nameOn disk)
  content : ∀ i ∈ filesOn disk, S.content (nameOn disk i) = contentOf disk (headerOn disk i)
  lengths : ∀ i ∈ filesOn disk, ∃ len : Nat, (headerOn disk i).numBytes = len ∧
    (headerOn disk i).sectors.length = divRoundUp len sectorSize
  system : (FileHeader.sectors (disk freeMapSector)).length +
    (FileHeader.sectors (disk directorySector)).length = 2

/-- What the state of the file system means. -/
structure Shows (s : State) (S : Store) : Prop where
  inv : Inv s
  stopped : s.stopped = none
  holds : Holds s.disk S
  handles : List.Forall₂ (Linked s.disk) s.handles S.handles

section Files

variable {disk disk' : Disk} {S : Store} {i j : Nat} {name : Name}

theorem mem_filesOn :
    i ∈ filesOn disk ↔ i < numDirEntries ∧ ((directoryOn disk).entry i).inUse = true := by
  unfold filesOn
  rw [Finset.mem_filter, Finset.mem_range]

theorem headerSectors_of_mem (hi : i ∈ filesOn disk) :
    headerSectors (directoryOn disk).entry (.entry i) =
      some ((directoryOn disk).entry i).sector.toNat := by
  obtain ⟨hlt, huse⟩ := mem_filesOn.mp hi
  exact headerSectors_entry hlt huse

theorem Consistent.valid_of_mem (hc : Consistent disk) (hi : i ∈ filesOn disk) :
    (headerOn disk i).Valid := hc.laid.valid (headerSectors_of_mem hi)

/-- The sectors in use are on the disk. -/
theorem Consistent.lt_of_test (hc : Consistent disk) {x : Nat} (hx : (freeMapOn disk).test x = true) :
    x < numSectors := by
  obtain ⟨o, ho⟩ := (hc.laid.divided.used_iff x).mp hx
  obtain ⟨u, hu⟩ := hc.exists_use ho
  have hrange := (hc.sectorOf_some hu).2.1
  omega

theorem Consistent.name_inj (hc : Consistent disk) (hi : i ∈ filesOn disk) (hj : j ∈ filesOn disk)
    (h : nameOn disk i = nameOn disk j) : i = j := by
  obtain ⟨hilt, hiuse⟩ := mem_filesOn.mp hi
  obtain ⟨hjlt, hjuse⟩ := mem_filesOn.mp hj
  exact hc.names i hilt j hjlt hiuse hjuse h

theorem Consistent.sector_inj (hc : Consistent disk) (hi : i ∈ filesOn disk) (hj : j ∈ filesOn disk)
    (h : ((directoryOn disk).entry i).sector = ((directoryOn disk).entry j).sector) : i = j := by
  have hheader := headerSectors_of_mem hi
  rw [h] at hheader
  have hholder := hc.laid.divided.unique (Laid.mem_header hheader)
    (Laid.mem_header (headerSectors_of_mem hj))
  exact Holder.entry.inj hholder

/-- The bitmap file marks the sectors of all holders. -/
theorem Consistent.numMarked (hc : Consistent disk) : (freeMapOn disk).numMarked =
    2 + (FileHeader.sectors (disk freeMapSector)).length +
      (FileHeader.sectors (disk directorySector)).length +
      ∑ i ∈ filesOn disk,
        (holdings (headerSectors (directoryOn disk).entry) disk (.entry i)).length := by
  let holders : Finset Holder :=
    insert .freeMap (insert .directory ((filesOn disk).image .entry))
  have hholders : ∀ o ∉ holders, holdings (headerSectors (directoryOn disk).entry) disk o = [] := by
    intro o ho
    apply holdings_of_none
    cases o with
    | freeMap => simp [holders] at ho
    | directory => simp [holders] at ho
    | entry i =>
      apply if_neg
      intro hi
      refine ho ?_
      simp only [holders, Finset.mem_insert, Finset.mem_image]
      exact Or.inr (Or.inr ⟨i, mem_filesOn.mpr hi, rfl⟩)
  have hused : ∀ x, x ∈ (Finset.range numSectors).filter (fun x => (freeMapOn disk).test x = true) ↔
      (freeMapOn disk).test x = true := by
    intro x
    rw [Finset.mem_filter, Finset.mem_range]
    exact ⟨And.right, fun hx => ⟨hc.lt_of_test hx, hx⟩⟩
  have hmarked : (freeMapOn disk).numMarked =
      ((Finset.range numSectors).filter fun x => (freeMapOn disk).test x = true).card := by
    unfold BitMap.numMarked
    rw [List.countP_eq_length_filter, Finset.card_def, Finset.filter_val, Finset.range_val,
      ← Multiset.coe_range, Multiset.filter_coe, Multiset.coe_card]
    refine congrArg _ (List.filter_congr fun i _ => ?_)
    simp
  rw [hmarked, hc.laid.divided.card_used hholders hused, Finset.sum_insert (by simp),
    Finset.sum_insert (by simp), Finset.sum_image fun i _ j _ hij => Holder.entry.inj hij,
    holdings_of_some (o := .freeMap) rfl, holdings_of_some (o := .directory) rfl, List.length_cons,
    List.length_cons]
  omega

namespace Holds

theorem mem_names (h : Holds disk S) : name ∈ S.names ↔ ∃ i ∈ filesOn disk, nameOn disk i = name := by
  rw [h.names, Finset.mem_image]

theorem name_mem (h : Holds disk S) (hi : i ∈ filesOn disk) : nameOn disk i ∈ S.names :=
  h.mem_names.mpr ⟨i, hi, rfl⟩

theorem card_names (h : Holds disk S) : S.names.card = (filesOn disk).card := by
  rw [h.names]
  apply Finset.card_image_of_injOn
  intro i hi j hj hij
  exact h.consistent.name_inj hi hj hij

theorem length_content (h : Holds disk S) (hi : i ∈ filesOn disk) :
    (headerOn disk i).numBytes = (S.content (nameOn disk i)).length := by
  obtain ⟨len, hlen, -⟩ := h.lengths i hi
  rw [h.content i hi, length_contentOf hlen, hlen]

/-- The sectors that an entry holds are those that its file needs. -/
theorem length_holdings (h : Holds disk S) (hi : i ∈ filesOn disk) :
    (holdings (headerSectors (directoryOn disk).entry) disk (.entry i)).length =
      Store.fileSectors (S.content (nameOn disk i)).length := by
  obtain ⟨len, hlen, hsectors⟩ := h.lengths i hi
  obtain rfl : (S.content (nameOn disk i)).length = len := by
    have hcontent := h.length_content hi
    omega
  rw [holdings_of_some (headerSectors_of_mem hi), List.length_cons, Nat.add_comm]
  exact congrArg (1 + ·) hsectors

/-- The bitmap file marks four sectors for the system and those of the files. -/
theorem numMarked (h : Holds disk S) : (freeMapOn disk).numMarked = 4 + S.sectors := by
  have hentries : ∑ i ∈ filesOn disk, (holdings (headerSectors (directoryOn disk).entry) disk
      (.entry i)).length = S.sectors := by
    unfold Store.sectors
    rw [h.names, Finset.sum_image fun i hi j hj hij => h.consistent.name_inj hi hj hij]
    apply Finset.sum_congr rfl
    intro i hi
    exact h.length_holdings hi
  have hsystem := h.system
  rw [h.consistent.numMarked, hentries]
  omega

end Holds

end Files

/-! ### Contents -/

section Contents

variable {disk disk' : Disk} {h : FileHeader} {len : Nat}

theorem contentOf_congr
    (hdata : ∀ k : Nat, (k : Int) < h.numBytes → fileByte disk' h k = fileByte disk h k) :
    contentOf disk' h = contentOf disk h := by
  unfold contentOf toList
  apply List.map_congr_left
  intro k hk
  rw [List.mem_range] at hk
  exact hdata k (by omega)

/-- The content of a file of which some bytes were written. -/
theorem contentOf_replaced (hlen : h.numBytes = len) {pos n : Nat} {bytes : List Byte}
    (hbytes : n ≤ bytes.length) (hfit : pos + n ≤ len)
    (hdata : ∀ k : Nat, (k : Int) < h.numBytes → fileByte disk' h k =
      if pos ≤ k ∧ k < pos + n then bytes.getD (k - pos) 0 else fileByte disk h k) :
    contentOf disk' h = replaced (contentOf disk h) pos (bytes.take n) := by
  have hold : (contentOf disk h).length = len := length_contentOf hlen
  have htake : (bytes.take n).length = n := by
    rw [List.length_take]
    omega
  have hfirst : ((contentOf disk h).take pos).length = pos := by
    rw [List.length_take]
    omega
  unfold replaced
  rw [htake, List.append_assoc]
  apply List.ext_getElem?
  intro k
  by_cases hk : k < len
  · rw [getElem?_contentOf hlen hk, hdata k (by omega)]
    by_cases hlow : k < pos
    · rw [if_neg (by omega), List.getElem?_append_left (by omega), List.getElem?_take_of_lt hlow,
        getElem?_contentOf hlen hk]
    · rw [List.getElem?_append_right (by omega), hfirst]
      by_cases hmid : k < pos + n
      · rw [if_pos (by omega), List.getElem?_append_left (by omega),
          List.getElem?_take_of_lt (by omega), List.getD_eq_getElem?_getD,
          List.getElem?_eq_getElem (by omega), Option.getD_some]
      · rw [if_neg (by omega), List.getElem?_append_right (by omega), htake, List.getElem?_drop,
          show pos + n + (k - pos - n) = k by omega, getElem?_contentOf hlen hk]
  · rw [List.getElem?_eq_none (by rw [length_contentOf hlen]; omega), List.getElem?_eq_none]
    rw [List.length_append, List.length_append, List.length_drop, hfirst, htake, hold]
    omega

/-- `WriteAt` replaces as many bytes as there are. -/
theorem writeAt_replaces (hv : h.Valid) (hlen : h.numBytes = len) (disk : Disk) {numBytes : Int}
    {pos : Nat} (hend : pos + numBytes < 2 ^ 31) {bytes : List Byte}
    (hbytes : numBytes ≤ bytes.length) (junk : Image) :
    ∃ disk', writeAt disk h bytes numBytes pos junk =
        .ok (disk', (Store.transferred len numBytes pos : Nat)) ∧
      (∀ x, x ∉ h.sectors → disk' x = disk x) ∧
      contentOf disk' h =
        replaced (contentOf disk h) pos (bytes.take (Store.transferred len numBytes pos)) := by
  have hclip : clip h.numBytes numBytes pos = (Store.transferred len numBytes pos : Nat) := by
    rw [clip_eq_max (by omega) hend, hlen]
    unfold Store.transferred
    omega
  rcases Nat.eq_zero_or_pos (Store.transferred len numBytes pos) with hzero | hpos
  · -- nothing is transferred
    rw [hzero] at hclip ⊢
    refine ⟨disk, writeAt_nothing hclip bytes junk, fun _ _ => rfl, ?_⟩
    unfold replaced
    simp
  · have hle : pos + Store.transferred len numBytes pos ≤ len ∧
        Store.transferred len numBytes pos ≤ bytes.length := by
      unfold Store.transferred at *
      omega
    obtain ⟨disk', hwrite, hframe, hdata⟩ :=
      writeAt_spec hv hpos (by omega) hclip hle.2 junk
    exact ⟨disk', hwrite, hframe, contentOf_replaced hlen hle.2 hle.1 hdata⟩

end Contents

/-! ### Calls -/

/-- A file is as it was. -/
structure FileKept (disk disk' : Disk) (i : Nat) : Prop where
  entry : (directoryOn disk').entry i = (directoryOn disk).entry i
  header : headerOn disk' i = headerOn disk i
  content : contentOf disk' (headerOn disk i) = contentOf disk (headerOn disk i)

/-- The file system answers a call as the store can. -/
def Answered (s : State) (S : Store) (l : Label) : Prop :=
  ∃ e t S', s.event l = some e ∧ step s l = some t ∧ S.Step e S' ∧ Shows t S'

section Disks

variable {disk disk' : Disk} {S : Store} {i : Nat}

theorem Kept.fileKept {own : Holder → Prop} (h : Kept own disk disk') (hown : ¬ own (.entry i))
    (hi : i ∈ filesOn disk) (hentry : (directoryOn disk').entry i = (directoryOn disk).entry i) :
    FileKept disk disk' i where
  entry := hentry
  header := by
    unfold headerOn
    rw [hentry]
    exact h.headers (headerSectors_of_mem hi)
  content := contentOf_congr fun k hk => h.data hown (headerSectors_of_mem hi) k hk

theorem nameOn_of_entry (h : (directoryOn disk').entry i = (directoryOn disk).entry i) :
    nameOn disk' i = nameOn disk i := congrArg Entry.name h

theorem mem_filesOn_of_entry (h : (directoryOn disk').entry i = (directoryOn disk).entry i) :
    i ∈ filesOn disk' ↔ i ∈ filesOn disk := by
  rw [mem_filesOn, mem_filesOn, h]

namespace FileKept

theorem name (h : FileKept disk disk' i) : nameOn disk' i = nameOn disk i := nameOn_of_entry h.entry

/-- The file has its content in the store, if the store kept it. -/
theorem content_eq (h : FileKept disk disk' i) {S' : Store} (hS : Holds disk S) (hi : i ∈ filesOn disk)
    (hkeep : S'.content (nameOn disk i) = S.content (nameOn disk i)) :
    S'.content (nameOn disk' i) = contentOf disk' (headerOn disk' i) := by
  rw [h.name, hkeep, hS.content i hi, h.header, h.content]

theorem length_eq (h : FileKept disk disk' i) (hS : Holds disk S) (hi : i ∈ filesOn disk) :
    ∃ len : Nat, (headerOn disk' i).numBytes = len ∧
      (headerOn disk' i).sectors.length = divRoundUp len sectorSize := by
  rw [h.header]
  exact hS.lengths i hi

end FileKept

/-- A handle stays linked while the entry does. -/
theorem Linked.kept
    (hentries : ∀ i ∈ filesOn disk, (directoryOn disk').entry i = (directoryOn disk).entry i)
    {hd : Handle} {o : Option Name} (h : Linked disk hd o) : Linked disk' hd o := by
  rcases h with hdead | ⟨hremoved, i, hi, hsector, rfl⟩
  · exact Or.inl hdead
  · have hentry := hentries i hi
    refine Or.inr ⟨hremoved, i, (mem_filesOn_of_entry hentry).mpr hi, ?_, ?_⟩
    · rw [hentry, hsector]
    · rw [nameOn_of_entry hentry]

/-- The disk after a write to a file. -/
theorem Holds.write (h : Holds disk S) (hi : i ∈ filesOn disk)
    (hframe : ∀ x, x ∉ (headerOn disk i).sectors → disk' x = disk x) :
    Holds disk' (S.put (nameOn disk i) (contentOf disk' (headerOn disk i))) ∧
      ∀ j < numDirEntries, (directoryOn disk').entry j = (directoryOn disk).entry j := by
  have hc := h.consistent
  have ho := headerSectors_of_mem hi
  have hkept := hc.kept_of_write ho hframe
  have hentries := hc.directoryOn_write (by simp) ho hframe
  have hfiles : filesOn disk' = filesOn disk := by
    ext j
    rw [mem_filesOn, mem_filesOn]
    refine and_congr_right fun hj => ?_
    rw [hentries j hj]
  have hname : ∀ j ∈ filesOn disk, nameOn disk' j = nameOn disk j := fun j hj =>
    nameOn_of_entry (hentries j (mem_filesOn.mp hj).1)
  have hheader : ∀ j ∈ filesOn disk, headerOn disk' j = headerOn disk j := by
    intro j hj
    unfold headerOn
    rw [hentries j (mem_filesOn.mp hj).1]
    exact hkept.headers (headerSectors_of_mem hj)
  refine ⟨⟨hkept.consistent hc (by simp) (by simp), ?_, ?_, ?_, ?_⟩, hentries⟩
  · rw [hfiles]
    show insert (nameOn disk i) S.names = _
    rw [Finset.insert_eq_of_mem (h.name_mem hi), h.names]
    exact Finset.image_congr fun j hj => (hname j hj).symm
  · intro j hj
    rw [hfiles] at hj
    rw [hname j hj, hheader j hj]
    show Function.update S.content (nameOn disk i) _ (nameOn disk j) = _
    by_cases hji : j = i
    · rw [hji, Function.update_self]
    · rw [Function.update_of_ne fun heq => hji (hc.name_inj hj hi heq), h.content j hj]
      have hfile := hkept.fileKept (fun heq => hji (Holder.entry.inj heq)) hj
        (hentries j (mem_filesOn.mp hj).1)
      exact hfile.content.symm
  · intro j hj
    rw [hfiles] at hj
    rw [hheader j hj]
    exact h.lengths j hj
  · rw [hkept.headers (o := .freeMap) rfl, hkept.headers (o := .directory) rfl]
    exact h.system

/-- The store has room when the file system has no reason to refuse. -/
theorem Holds.refused_iff (h : Holds disk S) (name : Image) (initialSize : Int) :
    Refused disk name initialSize ↔ ¬ S.Room (compared name) initialSize.toNat := by
  have hmarked := h.numMarked
  have hcount := (freeMapOn disk).numMarked_add_numClear
  have hbits : (freeMapOn disk).numBits = 1024 := rfl
  have hcapacity : Store.capacity = 1020 := rfl
  have hsize : Store.fileSectors initialSize.toNat = 1 + divRoundUp initialSize.toNat sectorSize := rfl
  constructor
  · rintro hrefused ⟨hnew, hentry, hspace⟩
    cases hrefused with
    | named i hi hui hname => exact hnew (h.mem_names.mpr ⟨i, mem_filesOn.mpr ⟨hi, hui⟩, hname⟩)
    | entries hall =>
      have hfiles : filesOn disk = Finset.range numDirEntries := by
        ext i
        rw [mem_filesOn, Finset.mem_range]
        exact ⟨And.left, fun hi => ⟨hi, hall i hi⟩⟩
      rw [h.card_names, hfiles, Finset.card_range] at hentry
      exact absurd hentry (Nat.lt_irrefl _)
    | space hclear => omega
  · intro hroom
    by_contra hnot
    refine hroom ⟨fun hmem => ?_, ?_, ?_⟩
    · obtain ⟨i, hi, hname⟩ := h.mem_names.mp hmem
      obtain ⟨hlt, huse⟩ := mem_filesOn.mp hi
      exact hnot (.named i hlt huse hname)
    · by_contra hfull
      refine hnot (.entries fun i hi => ?_)
      rw [h.card_names] at hfull
      have hsub : filesOn disk ⊆ Finset.range numDirEntries := Finset.filter_subset _ _
      have hall : filesOn disk = Finset.range numDirEntries :=
        Finset.eq_of_subset_of_card_le hsub (by rw [Finset.card_range]; omega)
      exact (mem_filesOn.mp (hall ▸ Finset.mem_range.mpr hi)).2
    · by_contra hfew
      exact hnot (.space (by omega))

section Change

variable {name : Image} {e x : Nat} {hdr : FileHeader}

/-- The other files are kept by `Create`. -/
theorem Added.fileKept (ha : Added disk name e x hdr disk') (hkept : Kept Holder.System disk disk')
    (hi : i ∈ filesOn disk) : i ≠ e ∧ FileKept disk disk' i := by
  obtain ⟨hlt, huse⟩ := mem_filesOn.mp hi
  have hie : i ≠ e := by
    rintro rfl
    rw [ha.unused] at huse
    cases huse
  exact ⟨hie, hkept.fileKept (by simp [Holder.System]) hi (by rw [ha.entries i hlt, if_neg hie])⟩

theorem Added.mem_filesOn (ha : Added disk name e x hdr disk') :
    i ∈ filesOn disk' ↔ i = e ∨ i ∈ filesOn disk := by
  rw [Filesys.mem_filesOn, Filesys.mem_filesOn]
  by_cases hie : i = e
  · rw [hie, ha.entry_new]
    exact iff_of_true ⟨ha.index, rfl⟩ (Or.inl rfl)
  · refine (and_congr_right fun hi => ?_).trans (or_iff_right hie).symm
    rw [ha.entries i hi, if_neg hie]

theorem Holds.added (h : Holds disk S) (ha : Added disk name e x hdr disk')
    (hkept : Kept Holder.System disk disk') {len : Nat} (hlen : hdr.numBytes = len)
    (hsectors : hdr.sectors.length = divRoundUp len sectorSize) :
    Holds disk' (S.put (compared name) (contentOf disk' hdr)) := by
  have hname : nameOn disk' e = compared name := congrArg Entry.name ha.entry_new
  have hheader : headerOn disk' e = hdr := by
    unfold headerOn
    rw [ha.entry_new, Int.toNat_natCast, ha.header]
  have hnew : compared name ∉ S.names := by
    intro hmem
    obtain ⟨i, hi, hn⟩ := h.mem_names.mp hmem
    obtain ⟨hlt, huse⟩ := Filesys.mem_filesOn.mp hi
    exact ha.new i hlt huse hn
  refine ⟨ha.consistent, ?_, ?_, ?_, ?_⟩
  · ext n
    show n ∈ insert (compared name) S.names ↔ _
    rw [Finset.mem_insert, Finset.mem_image, h.mem_names]
    constructor
    · rintro (rfl | ⟨i, hi, rfl⟩)
      · exact ⟨e, ha.mem_filesOn.mpr (Or.inl rfl), hname⟩
      · exact ⟨i, ha.mem_filesOn.mpr (Or.inr hi), (ha.fileKept hkept hi).2.name⟩
    · rintro ⟨i, hi, rfl⟩
      rcases ha.mem_filesOn.mp hi with rfl | hi
      · exact Or.inl hname
      · exact Or.inr ⟨i, hi, (ha.fileKept hkept hi).2.name.symm⟩
  · intro i hi
    rcases ha.mem_filesOn.mp hi with rfl | hi
    · rw [hname, hheader]
      exact Function.update_self ..
    · refine (ha.fileKept hkept hi).2.content_eq h hi (Function.update_of_ne ?_ _ _)
      rintro heq
      exact hnew (heq ▸ h.name_mem hi)
  · intro i hi
    rcases ha.mem_filesOn.mp hi with rfl | hi
    · rw [hheader]
      exact ⟨len, hlen, hsectors⟩
    · exact (ha.fileKept hkept hi).2.length_eq h hi
  · rw [hkept.headers (o := .freeMap) rfl, hkept.headers (o := .directory) rfl]
    exact h.system

/-- The other files are kept by `Remove`. -/
theorem Removed.mem_filesOn (hr : Removed disk name e disk') :
    i ∈ filesOn disk' ↔ i ≠ e ∧ i ∈ filesOn disk := by
  rw [Filesys.mem_filesOn, Filesys.mem_filesOn]
  by_cases hie : i = e
  · refine iff_of_false (fun hi => ?_) fun hi => hi.1 hie
    have huse := hi.2
    rw [hr.entries i hi.1, if_pos hie] at huse
    cases huse
  · refine (and_congr_right fun hi => ?_).trans (and_iff_right hie).symm
    rw [hr.entries i hi, if_neg hie]

theorem Removed.fileKept (hr : Removed disk name e disk') (hkept : Kept Holder.System disk disk')
    (hie : i ≠ e) (hi : i ∈ filesOn disk) : FileKept disk disk' i := by
  refine hkept.fileKept (by simp [Holder.System]) hi ?_
  rw [hr.entries i (Filesys.mem_filesOn.mp hi).1, if_neg hie]

theorem Holds.removed (h : Holds disk S) (hr : Removed disk name e disk')
    (hkept : Kept Holder.System disk disk') : Holds disk' (S.erase (compared name)) := by
  have he : e ∈ filesOn disk := Filesys.mem_filesOn.mpr ⟨hr.index, hr.inUse⟩
  refine ⟨hr.consistent, ?_, ?_, ?_, ?_⟩
  · ext n
    show n ∈ S.names.erase (compared name) ↔ _
    rw [Finset.mem_erase, Finset.mem_image, h.mem_names]
    constructor
    · rintro ⟨hn, i, hi, rfl⟩
      have hie : i ≠ e := by
        rintro rfl
        exact hn hr.named
      exact ⟨i, hr.mem_filesOn.mpr ⟨hie, hi⟩, (hr.fileKept hkept hie hi).name⟩
    · rintro ⟨i, hi, rfl⟩
      obtain ⟨hie, hi⟩ := hr.mem_filesOn.mp hi
      rw [(hr.fileKept hkept hie hi).name]
      refine ⟨fun heq => hie ?_, i, hi, rfl⟩
      exact h.consistent.name_inj hi he (heq.trans hr.named.symm)
  · intro i hi
    obtain ⟨hie, hi⟩ := hr.mem_filesOn.mp hi
    exact (hr.fileKept hkept hie hi).content_eq h hi rfl
  · intro i hi
    obtain ⟨hie, hi⟩ := hr.mem_filesOn.mp hi
    exact (hr.fileKept hkept hie hi).length_eq h hi
  · rw [hkept.headers (o := .freeMap) rfl, hkept.headers (o := .directory) rfl]
    exact h.system

/-- The handles of the file are dead, the others stay. -/
theorem Linked.forget (hc : Consistent disk) (hr : Removed disk name e disk')
    (hkept : Kept Holder.System disk disk') {hd : Handle} {o : Option Name} (h : Linked disk hd o) :
    Linked disk'
      (if hd.file.fileID = ((directoryOn disk).entry e).sector then { hd with removed := true } else hd)
      (if o = some (compared name) then none else o) := by
  have he : e ∈ filesOn disk := Filesys.mem_filesOn.mpr ⟨hr.index, hr.inUse⟩
  rcases h with ⟨hremoved, rfl⟩ | ⟨hremoved, i, hi, hsector, rfl⟩
  · left
    refine ⟨?_, if_neg (by simp)⟩
    split
    · rfl
    · exact hremoved
  · rw [← hsector]
    by_cases hie : i = e
    · subst hie
      have hname : nameOn disk i = compared name := hr.named
      rw [if_pos rfl, if_pos (congrArg some hname)]
      exact Or.inl ⟨rfl, rfl⟩
    · have hentry := (hr.fileKept hkept hie hi).entry
      rw [if_neg fun heq => hie (hc.sector_inj hi he heq), if_neg fun heq => hie (hc.name_inj hi he
        ((Option.some.inj heq).trans hr.named.symm))]
      refine Or.inr ⟨hremoved, i, hr.mem_filesOn.mpr ⟨hie, hi⟩, ?_, ?_⟩
      · rw [hentry, hsector]
      · rw [nameOn_of_entry hentry]

end Change

end Disks

/-- `Remove` writes to the two files of the system only. -/
theorem Mounted.remove_kept {s : State} (hm : Mounted s) {name : Image} {garbage : Garbage}
    {disk' : Disk} {sector : Int} (hremove : s.remove name garbage = .ok (disk', some sector)) :
    Kept Holder.System s.disk disk' := by
  have hc := hm.consistent
  have hvmap : s.freeMapFile.hdr.Valid := hm.freeMapHdr ▸ hc.valid_freeMap
  have hvdir : s.directoryFile.hdr.Valid := hm.directoryHdr ▸ hc.valid_directory
  have hlast : (freeMapOn s.disk).test numSectors = false := by
    apply Bool.eq_false_iff.mpr
    intro hused
    exact absurd (hc.lt_of_test hused) (Nat.lt_irrefl _)
  refine hc.kept_of_system hlast fun z _ hdir hmap => ?_
  rw [← hm.directoryHdr] at hdir
  rw [← hm.freeMapHdr] at hmap
  obtain ⟨directory, -, hrest⟩ := bind_eq_ok hremove
  dsimp only at hrest
  split at hrest
  · cases hrest
  · obtain ⟨fileHdr, -, hrest⟩ := bind_eq_ok hrest
    obtain ⟨freeMap, -, hrest⟩ := bind_eq_ok hrest
    obtain ⟨freeMap', -, hrest⟩ := bind_eq_ok hrest
    split at hrest
    · cases hrest
    · obtain ⟨disk₁, hwrite₁, hrest⟩ := bind_eq_ok hrest
      obtain ⟨disk₂, hwrite₂, hrest⟩ := bind_eq_ok hrest
      cases hrest
      exact (storeFrom_frame hvdir hwrite₂ hdir).trans (storeFrom_frame hvmap hwrite₁ hmap)

section Calls

variable {s : State} {S : Store}

theorem getElem?_of_forall₂ {α β : Type} {R : α → β → Prop} {as : List α} {bs : List β}
    (h : List.Forall₂ R as bs) {k : Nat} {a : α} (ha : as[k]? = some a) :
    ∃ b, bs[k]? = some b ∧ R a b := by
  induction h generalizing k with
  | nil => simp at ha
  | cons hab _ ih =>
    cases k with
    | zero =>
      obtain rfl := Option.some.inj ha
      exact ⟨_, rfl, hab⟩
    | succ k => exact ih ha

namespace Shows

/-- The file of a live handle. -/
theorem live (h : Shows s S) {handle : Nat} {file : OpenFile} (hlive : s.live handle = some file) :
    ∃ i ∈ filesOn s.disk, S.handles[handle]? = some (some (nameOn s.disk i)) ∧
      file.hdr = headerOn s.disk i := by
  obtain ⟨j, hj, huse, hsector, hhdr⟩ := h.inv.alive hlive
  unfold State.live at hlive
  split at hlive
  · rename_i hd hget
    split at hlive
    · cases hlive
    · rename_i hremoved
      obtain rfl := Option.some.inj hlive
      obtain ⟨o, hgetS, hlinked⟩ := getElem?_of_forall₂ h.handles hget
      rcases hlinked with ⟨hdead, -⟩ | ⟨-, i, hi, hsector', rfl⟩
      · exact absurd hdead hremoved
      · refine ⟨i, hi, hgetS, ?_⟩
        unfold headerOn
        rw [hhdr, hsector']
  · cases hlive

theorem step_eq (h : Shows s S) (l : Label) : step s l = s.perform l := by
  unfold step
  rw [h.stopped]
  rfl

theorem readAt (h : Shows s S) {handle : Nat} {file : OpenFile} (hlive : s.live handle = some file)
    {numBytes position : Int} (hpos : 0 ≤ position) (hend : position + numBytes < 2 ^ 31)
    (garbage : Garbage) (buf : Image) :
    Answered s S ⟨.readAt handle numBytes position, garbage, buf⟩ := by
  obtain ⟨i, hi, hget, hhdr⟩ := h.live hlive
  obtain ⟨pos, rfl⟩ := Int.eq_ofNat_of_zero_le hpos
  obtain ⟨len, hlen, -⟩ := h.holds.lengths i hi
  have hread : Filesys.readAt s.disk file.hdr numBytes pos =
      .ok (((S.content (nameOn s.disk i)).drop pos).take numBytes.toNat) := by
    rw [hhdr, h.holds.content i hi]
    exact readAt_eq_content (h.holds.consistent.valid_of_mem hi) hlen fun _ => hend
  refine ⟨_, s, S, ?_, ?_, .read hget numBytes pos, h⟩
  · unfold State.event
    simp only [hlive, Option.bind_some, hread, Int.toNat_natCast]
  · rw [h.step_eq]
    unfold State.perform
    simp only [hlive, hread]
    rfl

theorem writeAt (h : Shows s S) {handle : Nat} {file : OpenFile} (hlive : s.live handle = some file)
    {bytes : List Byte} {numBytes position : Int} (hpos : 0 ≤ position)
    (hend : position + numBytes < 2 ^ 31) (hbytes : numBytes ≤ bytes.length) (garbage : Garbage)
    (buf : Image) : Answered s S ⟨.writeAt handle bytes numBytes position, garbage, buf⟩ := by
  obtain ⟨i, hi, hget, hhdr⟩ := h.live hlive
  obtain ⟨pos, rfl⟩ := Int.eq_ofNat_of_zero_le hpos
  have hlen := h.holds.length_content hi
  obtain ⟨disk', hwrite, hframe, hcontent⟩ := writeAt_replaces
    (h.holds.consistent.valid_of_mem hi) hlen s.disk hend hbytes buf
  obtain ⟨hholds, hentries⟩ := h.holds.write hi hframe
  rw [hcontent, ← h.holds.content i hi] at hholds
  rw [← hhdr] at hwrite hframe
  refine ⟨_, { s with disk := disk' }, _, ?_, ?_, .write hget bytes numBytes pos, ?_, h.stopped,
    hholds, ?_⟩
  · unfold State.event
    simp only [hlive, Option.bind_some, hwrite, Int.toNat_natCast]
  · rw [h.step_eq]
    unfold State.perform
    simp only [hlive, hwrite]
    rfl
  · exact h.inv.write (h.inv.alive hlive) hframe
  · exact h.handles.imp fun _ _ hlinked =>
      hlinked.kept fun j hj => hentries j (mem_filesOn.mp hj).1

theorem openFile (h : Shows s S) (name : Image) (garbage : Garbage) (buf : Image) :
    Answered s S ⟨.openFile name, garbage, buf⟩ := by
  rcases h.inv.mounted.openFile_cases name garbage with ⟨hopen, hnone⟩ | ⟨i, hlt, huse, hname, hopen⟩
  · refine ⟨.openFile (compared name) none, s, S, ?_, ?_, .notOpened fun hmem => ?_, h⟩
    · unfold State.event
      simp only [hopen, Option.map_none]
    · rw [h.step_eq]
      unfold State.perform
      simp only [hopen]
      rfl
    · obtain ⟨i, hi, hname⟩ := h.holds.mem_names.mp hmem
      obtain ⟨hlt, huse⟩ := mem_filesOn.mp hi
      exact hnone i hlt huse hname
  · have hi : i ∈ filesOn s.disk := mem_filesOn.mpr ⟨hlt, huse⟩
    have hmem : compared name ∈ S.names := h.holds.mem_names.mpr ⟨i, hi, hname⟩
    have hlen : s.handles.length = S.handles.length := h.handles.length_eq
    have hstep := h.step_eq ⟨.openFile name, garbage, buf⟩
    unfold State.perform at hstep
    simp only [hopen] at hstep
    refine ⟨.openFile (compared name) (some S.handles.length), _, _, ?_, hstep, .opened hmem, ?_,
      h.stopped, ⟨h.holds.consistent, h.holds.names, h.holds.content, h.holds.lengths, h.holds.system⟩, ?_⟩
    · unfold State.event
      simp only [hopen, Option.map_some, hlen]
    · exact h.inv.perform ((h.step_eq _).symm.trans hstep)
    · refine List.rel_append h.handles (.cons (Or.inr ⟨rfl, i, hi, rfl, ?_⟩) .nil)
      exact congrArg some hname.symm

theorem create (h : Shows s S) (name : Image) {initialSize : Int} (h0 : 0 ≤ initialSize)
    (hmax : initialSize ≤ maxFileSize) (garbage : Garbage) (buf : Image) :
    Answered s S ⟨.create name initialSize, garbage, buf⟩ := by
  have hm := h.inv.mounted
  have hrefused := h.holds.refused_iff name initialSize
  have hstep := h.step_eq ⟨.create name initialSize, garbage, buf⟩
  unfold State.perform at hstep
  simp only [h0, hmax, and_self, if_true] at hstep
  rcases hm.create_cases name h0 hmax garbage with ⟨hfalse, hno⟩ | ⟨e, x, hdr, disk', htrue, hchosen, ha⟩
  · rw [hfalse] at hstep
    refine ⟨.create (compared name) initialSize.toNat false, _, S, ?_, hstep,
      .notCreated (hrefused.mp hno), h⟩
    unfold State.event
    simp only [hfalse]
  · have hkept := hm.create_kept htrue
    obtain ⟨len, rfl⟩ := Int.eq_ofNat_of_zero_le h0
    have hholds := h.holds.added ha hkept hchosen.numBytes hchosen.length
    have hroom : S.Room (compared name) len := by
      by_contra hnone
      exact ha.not_refused hchosen (hrefused.mpr hnone)
    have hcontent : (contentOf disk' hdr).length = len := length_contentOf hchosen.numBytes
    rw [htrue] at hstep
    refine ⟨.create (compared name) len true, _, _, ?_, hstep, .created hroom _ hcontent, ?_,
      h.stopped, hholds, ?_⟩
    · unfold State.event
      simp only [htrue, Int.toNat_natCast]
    · exact ⟨ha.mounted hm, fun g hg hlive => ha.alive (h.inv.handles g hg hlive), h.inv.stopped⟩
    · exact h.handles.imp fun _ _ hlinked =>
        hlinked.kept fun i hi => (ha.fileKept hkept hi).2.entry

theorem remove (h : Shows s S) (name : Image) (garbage : Garbage) (buf : Image) :
    Answered s S ⟨.remove name, garbage, buf⟩ := by
  have hm := h.inv.mounted
  have hstep := h.step_eq ⟨.remove name, garbage, buf⟩
  unfold State.perform at hstep
  simp only at hstep
  rcases hm.remove_spec name garbage with ⟨hnone, hno⟩ | ⟨e, disk', hsome, hr⟩
  · rw [hnone] at hstep
    refine ⟨.remove (compared name) false, _, S, ?_, hstep, .notRemoved fun hmem => ?_, h⟩
    · unfold State.event
      simp only [hnone]
      rfl
    · obtain ⟨i, hi, hname⟩ := h.holds.mem_names.mp hmem
      obtain ⟨hlt, huse⟩ := mem_filesOn.mp hi
      exact hno i hlt huse hname
  · have hkept := hm.remove_kept hsome
    have he : e ∈ filesOn s.disk := mem_filesOn.mpr ⟨hr.index, hr.inUse⟩
    have hmem : compared name ∈ S.names := h.holds.mem_names.mpr ⟨e, he, hr.named⟩
    rw [hsome] at hstep
    refine ⟨.remove (compared name) true, _, _, ?_, hstep, .removed hmem, ?_, h.stopped,
      h.holds.removed hr hkept, ?_⟩
    · unfold State.event
      simp only [hsome]
      rfl
    · exact h.inv.perform ((h.step_eq _).symm.trans hstep)
    · apply List.rel_map _ h.handles
      intro hd o hlinked
      exact hlinked.forget h.holds.consistent hr hkept

end Shows

/-! ### Runs -/

/-- `FileSystem(FALSE)` finds the files that are on the disk. -/
theorem Shows.mount (h : Shows s S) :
    ∃ t, Filesys.mount s.disk = .ok t ∧ Shows t { S with handles := [] } := by
  have hmap : readSector s.disk freeMapSector = .ok (s.disk freeMapSector) :=
    readSector_eq s.disk (by decide) (by decide)
  have hdir : readSector s.disk directorySector = .ok (s.disk directorySector) :=
    readSector_eq s.disk (by decide) (by decide)
  refine ⟨⟨s.disk, ⟨s.disk freeMapSector, freeMapSector⟩, ⟨s.disk directorySector, directorySector⟩, [],
    none⟩, ?_, ⟨⟨h.holds.consistent, rfl, rfl⟩, ?_, ?_⟩, rfl, ?_, .nil⟩
  · unfold Filesys.mount OpenFile.new
    simp only [hmap, hdir, ok_bind]
    rfl
  · intro g hg
    cases hg
  · simp
  · exact ⟨h.holds.consistent, h.holds.names, h.holds.content, h.holds.lengths, h.holds.system⟩

theorem Shows.answered (h : Shows s S) {l : Label} {es : List Event}
    (hproper : Proper ⟨s, es⟩ (.call l)) : Answered s S l := by
  obtain ⟨call, garbage, buf⟩ := l
  cases call with
  | create name initialSize => exact h.create name hproper.1 hproper.2 garbage buf
  | remove name => exact h.remove name garbage buf
  | openFile name => exact h.openFile name garbage buf
  | readAt handle numBytes position =>
    obtain ⟨file, hlive⟩ := Option.isSome_iff_exists.mp hproper.1
    exact h.readAt hlive hproper.2.1 hproper.2.2 garbage buf
  | writeAt handle bytes numBytes position =>
    obtain ⟨file, hlive⟩ := Option.isSome_iff_exists.mp hproper.1
    exact h.writeAt hlive hproper.2.1 hproper.2.2.1 hproper.2.2.2 garbage buf

/-- A step is one of the store. -/
theorem Shows.tracedStep (h : Shows s S) {es : List Event} {a : Action} (hproper : Proper ⟨s, es⟩ a) :
    ∃ e t S', Filesys.tracedStep ⟨s, es⟩ a = some ⟨t, es ++ [e]⟩ ∧ S.Step e S' ∧ Shows t S' := by
  cases a with
  | call l =>
    obtain ⟨e, t, S', hevent, hstep, hS, ht⟩ := h.answered hproper
    refine ⟨e, t, S', ?_, hS, ht⟩
    unfold Filesys.tracedStep
    simp only [hevent, hstep, Option.bind_some, Option.map_some]
  | restart =>
    obtain ⟨t, hmount, ht⟩ := h.mount
    refine ⟨.restart, t, _, ?_, .restart S, ht⟩
    unfold Filesys.tracedStep
    simp only [hmount]

/-- The disk that `FileSystem(TRUE)` formats has no files. -/
theorem shows_format (hm : Mounted s) (hhandles : s.handles = []) (hstopped : s.stopped = none)
    (hempty : ∀ i < numDirEntries, ((directoryOn s.disk).entry i).inUse = false)
    (hmarked : (freeMapOn s.disk).numMarked = 4) : Shows s Store.empty := by
  have hfiles : filesOn s.disk = ∅ := by
    ext i
    rw [mem_filesOn]
    refine iff_of_false (fun hi => ?_) (Finset.notMem_empty i)
    have huse := hi.2
    rw [hempty i hi.1] at huse
    cases huse
  have hinv : Inv s := by
    refine ⟨hm, fun g hg => ?_, ?_⟩
    · rw [hhandles] at hg
      cases hg
    · rw [hstopped]
      simp
  refine ⟨hinv, hstopped, ⟨hm.consistent, ?_, ?_, ?_, ?_⟩, ?_⟩
  · rw [hfiles]
    rfl
  · intro i hi
    rw [hfiles] at hi
    cases hi
  · intro i hi
    rw [hfiles] at hi
    cases hi
  · have hcount := hm.consistent.numMarked
    rw [hfiles, Finset.sum_empty, hmarked] at hcount
    omega
  · rw [hhandles]
    exact .nil

end Calls

/-- What the file system and the store have in common after a run. -/
structure Refines (p : Traced) : Prop where
  /-- The store can have returned what the calls returned, and the disk shows it then. -/
  path : ∃ S, Path Store.Step Store.empty p.events S ∧ Shows p.state S
  /-- No call that the store answers fails. -/
  enabled : ∀ a, Proper p a → ∃ q, tracedStep p a = some q

/-- From a disk that was just formatted on, every run of calls and restarts is one of the store. -/
theorem store_refinement (disk : Disk) (mapHdr dirHdr : Image) (garbage : Garbage) :
    ∃ s, format disk mapHdr dirHdr garbage = .ok s ∧
      ∀ as, AllSteps tracedStep Proper ⟨s, []⟩ as → AllStates tracedStep Refines ⟨s, []⟩ as := by
  obtain ⟨s, hformat, hm, hhandles, hstopped, hempty, hmarked⟩ := format_empty disk mapHdr dirHdr garbage
  refine ⟨s, hformat, fun as hproper => ?_⟩
  have hrun : AllStates tracedStep
      (fun p => ∃ S, Path Store.Step Store.empty p.events S ∧ Shows p.state S) ⟨s, []⟩ as := by
    refine allStates_of_allSteps (fun p a p' hp hgood hstep => ?_)
      ⟨Store.empty, .nil _, shows_format hm hhandles hstopped hempty hmarked⟩ hproper
    obtain ⟨S, hpath, hshows⟩ := hp
    obtain ⟨e, t, S', hstep', hS, ht⟩ := hshows.tracedStep hgood
    obtain rfl := Option.some.inj (hstep.symm.trans hstep')
    exact ⟨S', hpath.append (.cons hS (.nil S')), ht⟩
  refine hrun.mono fun p hp => ⟨hp, fun a ha => ?_⟩
  obtain ⟨S, -, hshows⟩ := hp
  obtain ⟨e, t, S', hstep, -, -⟩ := hshows.tracedStep ha
  exact ⟨_, hstep⟩

/-- A file is made, and it is there after a restart. -/
theorem store_refinement_restart :
    ∃ s, format (fun _ _ => 0) (fun _ => 0) (fun _ => 0) zeroGarbage = .ok s ∧
      AllStates tracedStep Refines ⟨s, []⟩
        [.call (zeroLabel (.create (literal "a") 600)), .restart,
          .call (zeroLabel (.openFile (literal "a")))] := by
  obtain ⟨s, hformat, hrefines⟩ :=
    store_refinement (fun _ _ => 0) (fun _ => 0) (fun _ => 0) zeroGarbage
  refine ⟨s, hformat, hrefines _ ?_⟩
  apply allSteps_of_forall_mem
  intro a ha p
  simp only [List.mem_cons, List.not_mem_nil, or_false] at ha
  rcases ha with rfl | rfl | rfl
  · exact ⟨by decide, by decide⟩
  · exact trivial
  · exact trivial

end Nachos.Filesys
