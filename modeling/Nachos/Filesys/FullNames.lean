import Nachos.Filesys.StaleHandles

/-!
# The directory as a map

A system call passes the name of a file with up to `MaxFileLength + 1` characters, and `Directory`
keeps and compares the first nine of them. `Names` records what the calls should mean: for each
name, the file that the last successful `Create` with exactly this name has made, unless a `Remove`
of exactly this name has succeeded since.

`isMap_iff`: the directory is this map throughout a run exactly when every `Create` in it has a name
of at most eight characters or returns FALSE. `not_isMap`: two names of ten characters denote the
same file.
-/

namespace Nachos.Filesys

open Bytes Runs

/-! ### Statement -/

def maxFileLength : Nat := 32

/-- The name in a system call: `User2System` copies up to `MaxFileLength + 1` characters. -/
def fullName (name : Image) : List Byte := cstr name 0 (maxFileLength + 1)

/-- The files that were created and not removed since, by their names. -/
abbrev Names := List Byte → Option OpenFile

/-- The file that a successful `Create` has made: its header is in the sector that `Find` gave. -/
def State.created (s : State) (disk : Disk) : Option OpenFile :=
  match s.fetchFreeMap with
  | .ok freeMap => freeMap.find.1.map fun sector => { hdr := disk sector, fileID := sector }
  | .error _ => none

/-- The files after a call. -/
def Names.after (files : Names) (s : State) (l : Label) : Names :=
  match l.call with
  | .create name initialSize =>
    match s.create name initialSize l.garbage with
    | .ok (disk, true) => Function.update files (fullName name) (s.created disk)
    | _ => files
  | .remove name =>
    match s.remove name l.garbage with
    | .ok (_, some _) => Function.update files (fullName name) none
    | _ => files
  | _ => files

def namedStep (p : State × Names) (l : Label) : Option (State × Names) :=
  (step p.1 l).map fun s => (s, p.2.after p.1 l)

structure IsMap (p : State × Names) : Prop where
  /-- `Open` returns the file of exactly the given name, if there is one. -/
  opens : ∀ name garbage, p.1.openFile name garbage = .ok (p.2 (fullName name))
  /-- Different names denote different files. -/
  different : ∀ {n n' file file'}, p.2 n = some file → p.2 n' = some file' →
    file.fileID = file'.fileID → n = n'
  /-- `Create` finds a name in the directory only if there is a file with exactly this name. -/
  finds : ∀ name garbage directory, p.1.fetchDirectory garbage = .ok directory →
    directory.find name ≠ -1 → p.2 (fullName name) ≠ none

/-- A `Create` has a name of at most eight characters, or it returns FALSE. -/
def ShortNames (p : State × Names) (l : Label) : Prop :=
  match l.call with
  | .create name initialSize =>
    (fullName name).length < fileNameMaxLen ∨ Refused p.1.disk name initialSize
  | _ => True

/-! ### Names -/

section Names

variable {name : Image} {n : List Byte}

theorem compared_eq (name : Image) : compared name = (fullName name).take fileNameMaxLen :=
  cstr_eq_take name 0 (by decide)

/-- A short name is compared as a whole. -/
theorem compared_eq_iff (hn : n.length < fileNameMaxLen) : compared name = n ↔ fullName name = n := by
  rw [compared_eq]
  constructor
  · rintro rfl
    rw [List.length_take] at hn
    rw [List.take_of_length_le (by omega)]
  · rintro rfl
    exact List.take_of_length_le (by omega)

/-- For a long name there is another one that is compared equal. -/
theorem exists_compared_eq (hlen : fileNameMaxLen ≤ (fullName name).length) :
    ∃ name', compared name' = compared name ∧ fullName name' ≠ fullName name := by
  let c : Byte := if name fileNameMaxLen = 0#8 then 1 else 0
  refine ⟨Function.update name fileNameMaxLen c, ?_, ?_⟩
  · refine cstr_congr fun k hk => ?_
    exact Function.update_of_ne (by omega) _ _
  · intro heq
    have hhead : ∀ j ≤ 8, name j ≠ 0#8 := fun j hj => by
      have hbytes := (lt_length_cstr.mp (Nat.lt_of_succ_le hlen)).2 j hj
      rwa [Nat.zero_add] at hbytes
    have hnext : ∀ image : Image, (∀ j < fileNameMaxLen, image j = name j) →
        (fileNameMaxLen < (fullName image).length ↔ image fileNameMaxLen ≠ 0#8) := by
      intro image himage
      refine lt_length_cstr.trans ⟨fun h => ?_, fun h => ⟨by decide, fun j hj => ?_⟩⟩
      · have hbytes := h.2 fileNameMaxLen (Nat.le_refl _)
        rwa [Nat.zero_add] at hbytes
      · rw [Nat.zero_add]
        rcases Nat.lt_or_eq_of_le hj with hlt | rfl
        · rw [himage j hlt]
          exact hhead j (Nat.le_of_lt_succ hlt)
        · exact h
    have hself := hnext name fun _ _ => rfl
    have hother := hnext (Function.update name fileNameMaxLen c) fun j hj =>
      Function.update_of_ne (by omega) _ _
    rw [heq, hself, Function.update_self] at hother
    by_cases hzero : name fileNameMaxLen = 0#8
    · simp [c, hzero] at hother
    · simp [c, hzero] at hother

end Names

/-! ### What the directory records -/

/-- The file of an entry. -/
def fileOf (disk : Disk) (i : Nat) : OpenFile where
  hdr := disk ((directoryOn disk).entry i).sector.toNat
  fileID := ((directoryOn disk).entry i).sector

/-- The names in the directory are short, and they are the names of the files. -/
structure Recorded (disk : Disk) (files : Names) : Prop where
  short : ∀ i < numDirEntries, ((directoryOn disk).entry i).inUse = true →
    ((directoryOn disk).entry i).name.length < fileNameMaxLen
  files : ∀ {n file}, files n = some file ↔
    ∃ i < numDirEntries, ((directoryOn disk).entry i).inUse = true ∧
      ((directoryOn disk).entry i).name = n ∧ fileOf disk i = file

section Recorded

variable {s : State} {disk disk' : Disk} {files : Names} {name : Image} {e x i : Nat}
  {hdr : FileHeader}

namespace Recorded

theorem files_of_compared (h : Recorded disk files) (hi : i < numDirEntries)
    (hui : ((directoryOn disk).entry i).inUse = true)
    (hname : ((directoryOn disk).entry i).name = compared name) :
    files (fullName name) = some (fileOf disk i) := by
  have hfull := (compared_eq_iff (h.short i hi hui)).mp hname.symm
  exact h.files.mpr ⟨i, hi, hui, hfull.symm, rfl⟩

theorem files_none (h : Recorded disk files)
    (hnone : ∀ i < numDirEntries, ((directoryOn disk).entry i).inUse = true →
      ((directoryOn disk).entry i).name ≠ compared name) : files (fullName name) = none := by
  refine Option.eq_none_iff_forall_ne_some.mpr fun file hfile => ?_
  obtain ⟨i, hi, hui, hname, -⟩ := h.files.mp hfile
  exact hnone i hi hui ((compared_eq_iff (h.short i hi hui)).mpr hname.symm).symm

/-- No file has a long name. -/
theorem files_long (h : Recorded disk files) {n : List Byte} (hn : fileNameMaxLen ≤ n.length) :
    files n = none := by
  refine Option.eq_none_iff_forall_ne_some.mpr fun file hfile => ?_
  obtain ⟨i, hi, hui, hname, -⟩ := h.files.mp hfile
  have hshort := h.short i hi hui
  rw [hname] at hshort
  omega

theorem isMap (h : Recorded s.disk files) (hm : Mounted s) : IsMap (s, files) where
  opens := fun name garbage => by
    show s.openFile name garbage = .ok (files (fullName name))
    rcases hm.openFile_cases name garbage with ⟨hopen, hnone⟩ | ⟨i, hi, hui, hname, hopen⟩
    · rw [hopen, h.files_none hnone]
    · rw [hopen, h.files_of_compared hi hui hname]
      rfl
  different := fun {n n' file file'} hfile hfile' hid => by
    obtain ⟨i, hi, hui, rfl, rfl⟩ := h.files.mp hfile
    obtain ⟨j, hj, huj, rfl, rfl⟩ := h.files.mp hfile'
    have hsector : ((directoryOn s.disk).entry i).sector = ((directoryOn s.disk).entry j).sector :=
      hid
    have hheader := headerSectors_entry hi hui
    rw [hsector] at hheader
    have hholder := hm.consistent.laid.divided.unique (Laid.mem_header hheader)
      (Laid.mem_header (headerSectors_entry hj huj))
    rw [Holder.entry.inj hholder]
  finds := fun name garbage directory hfetch hfind => by
    obtain ⟨d, hfetch', hentries⟩ := hm.fetchDirectory_spec garbage
    rw [hfetch] at hfetch'
    obtain rfl := Except.ok.inj hfetch'
    cases hindex : directory.findIndex name with
    | none => exact absurd (find_of_none hindex) hfind
    | some i =>
      obtain ⟨hi, hui, hname⟩ := Directory.findIndex_some hindex
      rw [hentries i hi] at hui hname
      show files (fullName name) ≠ none
      rw [h.files_of_compared hi hui hname]
      exact Option.some_ne_none _

/-- The record stays while the entries and the headers do. -/
theorem congr (h : Recorded disk files)
    (hentries : ∀ i < numDirEntries, (directoryOn disk').entry i = (directoryOn disk).entry i)
    (hheaders : ∀ {o y}, headerSectors (directoryOn disk).entry o = some y → disk' y = disk y) :
    Recorded disk' files := by
  have hfile : ∀ i < numDirEntries, ((directoryOn disk).entry i).inUse = true →
      fileOf disk' i = fileOf disk i := by
    intro i hi hui
    unfold fileOf
    rw [hentries i hi, hheaders (headerSectors_entry hi hui)]
  refine ⟨fun i hi hui => ?_, fun {n file} => ?_⟩
  · rw [hentries i hi] at hui ⊢
    exact h.short i hi hui
  · rw [h.files]
    refine exists_congr fun i => and_congr_right fun hi => ?_
    rw [hentries i hi]
    refine and_congr_right fun hui => ?_
    rw [hfile i hi hui]

/-- A write through a handle. -/
theorem write (h : Recorded disk files) (hc : Consistent disk) {file : OpenFile}
    (halive : Alive disk file) (hframe : ∀ x, x ∉ file.hdr.sectors → disk' x = disk x) :
    Recorded disk' files := by
  obtain ⟨i, hi, hui, hsector, hhdr⟩ := halive
  have ho := headerSectors_entry hi hui
  rw [hsector] at ho
  rw [hhdr] at hframe
  have hkept := hc.kept_of_write ho hframe
  refine h.congr (fun j hj => ?_) hkept.headers
  exact Directory.entry_congr_of_lt (fun k hk => hkept.directory hc (by simp) hk) hj

/-- One entry is taken for a name, or given up. -/
theorem change (h : Recorded disk files) {n : List Byte} (hn : n.length < fileNameMaxLen)
    (he : e < numDirEntries)
    (hother : ∀ i < numDirEntries, i ≠ e →
      (directoryOn disk').entry i = (directoryOn disk).entry i ∧
        (((directoryOn disk).entry i).inUse = true →
          ((directoryOn disk).entry i).name ≠ n ∧ fileOf disk' i = fileOf disk i))
    (hold : ((directoryOn disk).entry e).inUse = true → ((directoryOn disk).entry e).name = n)
    (hnew : ((directoryOn disk').entry e).inUse = true → ((directoryOn disk').entry e).name = n) :
    Recorded disk' (Function.update files n
      (if ((directoryOn disk').entry e).inUse then some (fileOf disk' e) else none)) := by
  refine ⟨fun i hi hui => ?_, fun {m file} => ?_⟩
  · by_cases hie : i = e
    · subst hie
      rwa [hnew hui]
    · rw [(hother i hi hie).1] at hui ⊢
      exact h.short i hi hui
  by_cases hmn : m = n
  · subst hmn
    rw [Function.update_self]
    constructor
    · intro hfile
      obtain ⟨hue, hfile⟩ := Option.ite_none_right_eq_some.mp hfile
      exact ⟨e, he, hue, hnew hue, Option.some.inj hfile⟩
    · rintro ⟨i, hi, hui, hname, rfl⟩
      obtain rfl : i = e := by
        by_contra hie
        obtain ⟨hentry, hkept⟩ := hother i hi hie
        rw [hentry] at hui hname
        exact (hkept hui).1 hname
      exact if_pos hui
  · rw [Function.update_of_ne hmn, h.files]
    refine exists_congr fun i => and_congr_right fun hi => ?_
    by_cases hie : i = e
    · subst hie
      refine iff_of_false ?_ ?_
      · rintro ⟨hui, hname, -⟩
        exact hmn (hname.symm.trans (hold hui))
      · rintro ⟨hui, hname, -⟩
        exact hmn (hname.symm.trans (hnew hui))
    · obtain ⟨hentry, hkept⟩ := hother i hi hie
      rw [hentry]
      refine and_congr_right fun hui => ?_
      rw [(hkept hui).2]

theorem added (h : Recorded disk files) (ha : Added disk name e x hdr disk')
    (hname : (fullName name).length < fileNameMaxLen) :
    Recorded disk' (Function.update files (fullName name) (some ⟨hdr, x⟩)) := by
  have hcompared := (compared_eq_iff hname).mpr rfl
  have hself : (directoryOn disk').entry e = ⟨true, x, fullName name⟩ := by
    rw [ha.entries e ha.index, if_pos rfl, hcompared]
  have hfile : fileOf disk' e = ⟨hdr, x⟩ := by
    unfold fileOf
    rw [hself, Int.toNat_natCast, ha.header]
  have hchange : Recorded disk' _ := h.change hname ha.index ?_ ?_ fun _ => by rw [hself]
  · rwa [hself, if_pos rfl, hfile] at hchange
  · intro i hi hie
    have hentry : (directoryOn disk').entry i = (directoryOn disk).entry i := by
      rw [ha.entries i hi, if_neg hie]
    refine ⟨hentry, fun hui => ⟨?_, ?_⟩⟩
    · rw [← hcompared]
      exact ha.new i hi hui
    · unfold fileOf
      rw [hentry, ha.headers (headerSectors_entry hi hui)]
  · intro hue
    rw [ha.unused] at hue
    cases hue

theorem removed (h : Recorded disk files) (hc : Consistent disk) (hr : Removed disk name e disk') :
    Recorded disk' (Function.update files (fullName name) none) := by
  have hshort := h.short e hr.index hr.inUse
  have hfull : fullName name = ((directoryOn disk).entry e).name :=
    (compared_eq_iff hshort).mp hr.named.symm
  have hself : ((directoryOn disk').entry e).inUse = false := by
    rw [hr.entries e hr.index, if_pos rfl]
  have hchange : Recorded disk' _ := h.change (hfull ▸ hshort) hr.index ?_ (fun _ => hfull.symm) ?_
  · rwa [hself, if_neg Bool.false_ne_true] at hchange
  · intro i hi hie
    have hentry : (directoryOn disk').entry i = (directoryOn disk).entry i := by
      rw [hr.entries i hi, if_neg hie]
    refine ⟨hentry, fun hui => ⟨fun hname => ?_, ?_⟩⟩
    · exact hie (hc.names i hi e hr.index hui hr.inUse (hname.trans hfull))
    · have hie' : Holder.entry i ≠ .entry e := fun heq => hie (Holder.entry.inj heq)
      unfold fileOf
      rw [hentry, hr.headers hie' (headerSectors_entry hi hui)]
  · intro hue
    rw [hself] at hue
    cases hue

end Recorded

/-- The file that `Create` has made. -/
theorem Chosen.created {initialSize : Int} {header : Image} (hm : Mounted s)
    (hchosen : Chosen s.disk initialSize header x hdr) (ha : Added s.disk name e x hdr disk') :
    s.created disk' = some ⟨hdr, x⟩ := by
  unfold State.created
  rw [hm.fetchFreeMap_spec]
  show (freeMapOn s.disk).find.1.map _ = _
  rw [hchosen.find, Option.map_some, ha.header]

/-- A call in a state where the directory has recorded the files. -/
theorem Recorded.perform (h : Recorded s.disk files) (hinv : Inv s) {l : Label} {t : State}
    (hshort : ShortNames (s, files) l) (hstep : s.perform l = some t) :
    Recorded t.disk (files.after s l) := by
  have hm := hinv.mounted
  unfold State.perform at hstep
  unfold ShortNames at hshort
  unfold Names.after
  cases hcall : l.call with
  | create name initialSize =>
    simp only [hcall] at hstep hshort ⊢
    obtain ⟨hsize, hstep⟩ := Option.ite_none_right_eq_some.mp hstep
    obtain rfl := Option.some.inj hstep
    rcases hm.create_cases name hsize.1 hsize.2 l.garbage with
      ⟨hfalse, -⟩ | ⟨e, x, hdr, disk', htrue, hchosen, ha⟩
    · rw [hfalse]
      exact h
    · rw [htrue]
      have hname := hshort.resolve_right (ha.not_refused hchosen)
      have hadded := h.added ha hname
      rwa [← hchosen.created hm ha] at hadded
  | remove name =>
    simp only [hcall] at hstep ⊢
    obtain rfl := Option.some.inj hstep
    rcases hm.remove_spec name l.garbage with ⟨hnone, -⟩ | ⟨e, disk', hsome, hr⟩
    · rw [hnone]
      exact h
    · rw [hsome]
      exact h.removed hm.consistent hr
  | openFile name =>
    simp only [hcall] at hstep ⊢
    obtain rfl := Option.some.inj hstep
    obtain ⟨r, hopen, -⟩ := hm.openFile_alive name l.garbage
    rw [hopen]
    cases r with
    | none => exact h
    | some file => exact h
  | readAt handle numBytes position =>
    simp only [hcall] at hstep ⊢
    cases hlive : s.live handle with
    | none =>
      rw [hlive] at hstep
      cases hstep
    | some file =>
      rw [hlive] at hstep
      obtain rfl := Option.some.inj hstep
      rcases readAt_cases (hinv.valid (hinv.alive hlive)) numBytes position with ⟨bytes, hread⟩ | hread
      · rw [hread]
        exact h
      · rw [hread]
        exact h
  | writeAt handle bytes numBytes position =>
    simp only [hcall] at hstep ⊢
    cases hlive : s.live handle with
    | none =>
      rw [hlive] at hstep
      cases hstep
    | some file =>
      rw [hlive] at hstep
      obtain rfl := Option.some.inj hstep
      have halive := hinv.alive hlive
      rcases writeAt_cases (hinv.valid halive) bytes numBytes position l.buf with
        ⟨disk', result, hwrite, hframe⟩ | hwrite
      · rw [hwrite]
        exact h.write hm.consistent halive hframe
      · rw [hwrite]
        exact h

/-- When a file with a long name was made, another name denotes it. -/
theorem Recorded.not_isMap_added (h : Recorded disk files) {t : State} (hm : Mounted t)
    (ha : Added disk name e x hdr t.disk) (hlong : fileNameMaxLen ≤ (fullName name).length)
    (file : Option OpenFile) : ¬ IsMap (t, Function.update files (fullName name) file) := by
  intro hmap
  obtain ⟨name', hcompared, hne⟩ := exists_compared_eq hlong
  have hlong' : fileNameMaxLen ≤ (fullName name').length := by
    have hlen := congrArg List.length hcompared
    rw [compared_eq, compared_eq, List.length_take, List.length_take] at hlen
    omega
  have hopens : t.openFile name' ⟨hdr, hdr, hdr, hdr⟩ =
      .ok (Function.update files (fullName name) file (fullName name')) := hmap.opens name' _
  rw [Function.update_of_ne hne, h.files_long hlong'] at hopens
  rcases hm.openFile_cases name' ⟨hdr, hdr, hdr, hdr⟩ with ⟨-, hnone⟩ | ⟨i, -, -, -, hopen⟩
  · have hself := ha.entries e ha.index
    rw [if_pos rfl, ← hcompared] at hself
    exact hnone e ha.index (by rw [hself]) (by rw [hself])
  · rw [hopens] at hopen
    cases hopen

theorem Recorded.not_isMap (h : Recorded s.disk files) (hinv : Inv s) {l : Label} {t : State}
    (hlong : ¬ ShortNames (s, files) l) (hstep : s.perform l = some t) :
    ¬ IsMap (t, files.after s l) := by
  have hm := hinv.mounted
  have hinv' := hinv.perform hstep
  unfold State.perform at hstep
  unfold ShortNames at hlong
  unfold Names.after
  cases hcall : l.call with
  | create name initialSize =>
    simp only [hcall] at hstep hlong ⊢
    rw [not_or, Nat.not_lt] at hlong
    obtain ⟨hsize, hstep⟩ := Option.ite_none_right_eq_some.mp hstep
    obtain rfl := Option.some.inj hstep
    rcases hm.create_cases name hsize.1 hsize.2 l.garbage with
      ⟨-, hrefused⟩ | ⟨e, x, hdr, disk', htrue, hchosen, ha⟩
    · exact absurd hrefused hlong.2
    · rw [htrue] at hinv' ⊢
      exact h.not_isMap_added hinv'.mounted ha hlong.1 _
  | _ => exact absurd trivial (by simpa only [hcall] using hlong)

end Recorded

/-! ### Runs -/

/-- The states of the runs in which all names are short. -/
def Tracked (p : State × Names) : Prop := Inv p.1 ∧ Recorded p.1.disk p.2

section Runs

variable {p q : State × Names} {l : Label}

/-- A step is a call, and the record is the one after the call. -/
theorem perform_of_namedStep (hstep : namedStep p l = some q) :
    p.1.perform l = some q.1 ∧ q.2 = p.2.after p.1 l := by
  obtain ⟨t, ht, rfl⟩ := Option.map_eq_some_iff.mp hstep
  refine ⟨?_, rfl⟩
  unfold step at ht
  split at ht
  · cases ht
  · exact ht

theorem Tracked.step (hp : Tracked p) (hshort : ShortNames p l) (hstep : namedStep p l = some q) :
    Tracked q := by
  obtain ⟨hperform, hfiles⟩ := perform_of_namedStep hstep
  refine ⟨hp.1.perform hperform, ?_⟩
  rw [hfiles]
  exact hp.2.perform hp.1 hshort hperform

theorem Tracked.not_isMap (hp : Tracked p) (hlong : ¬ ShortNames p l)
    (hstep : namedStep p l = some q) : ¬ IsMap q := by
  obtain ⟨t, files⟩ := q
  obtain ⟨hperform, rfl⟩ := perform_of_namedStep hstep
  exact hp.2.not_isMap hp.1 hlong hperform

/-- A disk that was just formatted has no names. -/
theorem Room.tracked {s : State} {m : Nat} (hroom : Room s.disk [] m) (hinv : Inv s) :
    Tracked (s, fun _ => none) := by
  have hunused : ∀ i < numDirEntries, ((directoryOn s.disk).entry i).inUse ≠ true :=
    fun i hi hui => List.not_mem_nil (hroom.names i hi hui)
  refine ⟨hinv, fun i hi hui => absurd hui (hunused i hi), fun {n file} => ?_⟩
  refine iff_of_false (by simp) ?_
  rintro ⟨i, hi, hui, -⟩
  exact hunused i hi hui

end Runs

/-- After formatting the disk, in any sequence of calls with names as the system calls pass them:
the directory is a map on the full names throughout, exactly when every `Create` has a name of at
most eight characters or returns FALSE. -/
theorem isMap_iff (disk : Disk) (mapHdr dirHdr : Image) (garbage : Garbage) :
    ∃ s, format disk mapHdr dirHdr garbage = .ok s ∧ ∀ ls,
      (AllStates namedStep IsMap (s, fun _ => none) ls ↔
        AllSteps namedStep ShortNames (s, fun _ => none) ls) := by
  obtain ⟨s, hformat, hinv, -, hroom⟩ := room_format disk mapHdr dirHdr garbage
  refine ⟨s, hformat, fun ls => allStates_iff_allSteps ?_ ?_ ?_ (hroom.tracked hinv) ls⟩
  · exact fun p hp => hp.2.isMap hp.1.mounted
  · exact fun p l q hp hshort hstep => hp.step hshort hstep
  · exact fun p l q hp hlong hstep => hp.not_isMap hlong hstep

/-! ### Two names of one file -/

theorem openFile_congr {name name' : Image} (h : compared name = compared name') (s : State)
    (garbage : Garbage) : s.openFile name garbage = s.openFile name' garbage := by
  unfold State.openFile
  refine congrArg (fun f => s.fetchDirectory garbage >>= f) (funext fun d => ?_)
  rw [Directory.find_congr h d]

/-- The calls at the end of `FileSystem(TRUE)`. -/
def startCalls (garbage : Nat → Garbage) : List Label :=
  [⟨.create (literal "stdin") 2, garbage 1, fun _ => 0⟩,
    ⟨.create (literal "stdout") 3, garbage 2, fun _ => 0⟩,
    ⟨.openFile (literal "stdin"), garbage 3, fun _ => 0⟩,
    ⟨.openFile (literal "stdout"), garbage 4, fun _ => 0⟩]

section Start

variable {s t : State} {ls : List Label}

theorem step_eq (hs : s.stopped = none) (l : Label) : step s l = s.perform l := by
  unfold step
  rw [hs]
  rfl

/-- `FileSystem(TRUE)` formats the disk and makes these calls. -/
theorem run_startCalls (disk : Disk) (mapHdr dirHdr : Image) (garbage : Nat → Garbage) :
    ∃ s t, format disk mapHdr dirHdr (garbage 0) = .ok s ∧
      fileSystem disk mapHdr dirHdr garbage = .ok t ∧ run step s (startCalls garbage) = some t := by
  obtain ⟨s, hformat, -, hhandles, hstopped⟩ := format_spec disk mapHdr dirHdr (garbage 0)
  obtain ⟨t, hstart, -⟩ := fileSystem_spec disk mapHdr dirHdr garbage
  refine ⟨s, t, hformat, hstart, ?_⟩
  unfold fileSystem at hstart
  rw [hformat, ok_bind] at hstart
  obtain ⟨⟨disk₁, r₁⟩, hcreate₁, hstart⟩ := bind_eq_ok hstart
  obtain ⟨⟨disk₂, r₂⟩, hcreate₂, hstart⟩ := bind_eq_ok hstart
  obtain ⟨stdin, hstdin, hstart⟩ := bind_eq_ok hstart
  obtain ⟨stdout, hstdout, hstart⟩ := bind_eq_ok hstart
  obtain rfl := Except.ok.inj hstart
  have h₁ := perform_create (by decide) (by decide) hcreate₁ fun _ => 0
  have h₂ := perform_create (by decide) (by decide) hcreate₂ fun _ => 0
  have h₃ := perform_openFile hstdin fun _ => 0
  let s₃ : State :=
    { s with disk := disk₂, handles := s.handles ++ stdin.toList.map fun file => ⟨file, false⟩ }
  have hstdout₃ : s₃.openFile (literal "stdout") (garbage 4) = .ok stdout := hstdout
  have h₄ := perform_openFile hstdout₃ fun _ => 0
  rw [← step_eq hstopped] at h₁
  rw [← step_eq (by exact hstopped)] at h₂ h₃ h₄
  refine Option.bind_eq_some_iff.mpr ⟨_, h₁, ?_⟩
  refine Option.bind_eq_some_iff.mpr ⟨_, h₂, ?_⟩
  refine Option.bind_eq_some_iff.mpr ⟨_, h₃, ?_⟩
  refine Option.bind_eq_some_iff.mpr ⟨_, h₄, ?_⟩
  simp [run, s₃, hhandles]

/-- The record goes along with a run. -/
theorem run_namedStep (hrun : run step s ls = some t) (files : Names) :
    ∃ files', run namedStep (s, files) ls = some (t, files') := by
  induction ls generalizing s files with
  | nil =>
    cases hrun
    exact ⟨files, rfl⟩
  | cons l ls ih =>
    obtain ⟨s', hs, hrest⟩ := Option.bind_eq_some_iff.mp hrun
    obtain ⟨files', hfiles⟩ := ih hrest (files.after s l)
    refine ⟨files', Option.bind_eq_some_iff.mpr ⟨(s', files.after s l), ?_, hfiles⟩⟩
    exact Option.map_eq_some_iff.mpr ⟨s', hs, rfl⟩

end Start

/-- After a `Create` with the first of the names, `Open` of the second one returns the file. -/
theorem not_isMap :
    ∃ s t files file, format (fun _ _ => 0) (fun _ => 0) (fun _ => 0) zeroGarbage = .ok s ∧
      run namedStep (s, fun _ => none) (startCalls (fun _ => zeroGarbage) ++
        [zeroLabel (.create (literal "abcdefghi1") 1)]) = some (t, files) ∧
      t.openFile (literal "abcdefghi1") zeroGarbage = .ok (some file) ∧
      t.openFile (literal "abcdefghi2") zeroGarbage = .ok (some file) ∧
      files (fullName (literal "abcdefghi2")) = none ∧ ¬ IsMap (t, files) := by
  obtain ⟨s, t, hformat, hstart, hstarted⟩ := run_startCalls (fun _ _ => 0) (fun _ => 0) (fun _ => 0)
    (fun _ => zeroGarbage)
  obtain ⟨s', hformat', hinv₀, -, hempty⟩ := room_format (fun _ _ => 0) (fun _ => 0) (fun _ => 0)
    zeroGarbage
  rw [hformat] at hformat'
  obtain rfl := Except.ok.inj hformat'
  obtain ⟨t', hstart', hinv, hstopped, hroom⟩ := room_fileSystem (fun _ _ => 0) (fun _ => 0)
    (fun _ => 0) (fun _ => zeroGarbage)
  rw [hstart] at hstart'
  obtain rfl := Except.ok.inj hstart'
  obtain ⟨files, hrun⟩ := run_namedStep hstarted fun _ => none
  have hm := hinv.mounted
  have hshort : AllSteps namedStep ShortNames (s, fun _ => none)
      (startCalls fun _ => zeroGarbage) := by
    refine allSteps_of_forall_mem (fun l hl p => ?_) _
    simp only [startCalls, List.mem_cons, List.not_mem_nil, or_false] at hl
    rcases hl with rfl | rfl | rfl | rfl
    · exact Or.inl (by decide)
    · exact Or.inl (by decide)
    · exact trivial
    · exact trivial
  have htracked : Tracked (t, files) := by
    have hall := allStates_of_allSteps (fun p l q hp hshort hstep => hp.step hshort hstep)
      (hempty.tracked hinv₀) hshort
    exact hall.of_run hrun
  obtain ⟨e, x, hdr, disk', hcreate, hchosen, ha⟩ :
      ∃ e x hdr disk', t.create (literal "abcdefghi1") 1 zeroGarbage = .ok (disk', true) ∧
        Chosen t.disk 1 zeroGarbage.header x hdr ∧
        Added t.disk (literal "abcdefghi1") e x hdr disk' :=
    hroom.creates hm (by decide) (by decide) zeroGarbage (by decide) (by decide) (by decide)
  let l : Label := zeroLabel (.create (literal "abcdefghi1") 1)
  have hstep : namedStep (t, files) l = some ({ t with disk := disk' }, files.after t l) := by
    refine Option.map_eq_some_iff.mpr ⟨{ t with disk := disk' }, ?_, rfl⟩
    rw [step_eq hstopped]
    exact perform_create (by decide) (by decide) hcreate fun _ => 0
  have hnone : files.after t l (fullName (literal "abcdefghi2")) = none := by
    unfold Names.after
    simp only [l, zeroLabel, hcreate]
    rw [Function.update_of_ne (by decide)]
    exact htracked.2.files_long (by decide)
  have hopen := ha.openFile hm zeroGarbage
  have hopen' := hopen
  rw [openFile_congr (show compared (literal "abcdefghi1") = compared (literal "abcdefghi2") by
    decide)] at hopen'
  refine ⟨s, _, _, _, hformat, ?_, hopen, hopen', hnone, fun hmap => ?_⟩
  · rw [run_append hrun, run, hstep]
    rfl
  · have hopens : State.openFile { t with disk := disk' } (literal "abcdefghi2") zeroGarbage =
        .ok (files.after t l (fullName (literal "abcdefghi2"))) := hmap.opens _ _
    rw [hnone, hopen'] at hopens
    cases hopens

end Nachos.Filesys
