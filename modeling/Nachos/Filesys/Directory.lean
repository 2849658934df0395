import Nachos.Lib.CString
import Nachos.Filesys.FileHeader

/-!
# Directories

`Directory` (directory.cc): a table of `NumDirEntries` entries, as the byte image that is kept
in the directory file. A `DirectoryEntry` has 20 bytes: `inUse` at 0, `sector` at 4 and the ten
characters of `name` from 8 on.

The functions look at a table through the entries it describes (`Directory.entry`). What `Add`
and `Remove` do to the entries is said by `add_cases` and `entry_remove`.
-/

namespace Nachos.Filesys

open Bytes CInt

def numDirEntries : Nat := 10
def fileNameMaxLen : Nat := 9
def entrySize : Nat := 20
def directoryFileSize : Nat := entrySize * numDirEntries

/-- The memory of the table of a `Directory`. -/
abbrev Directory := Image

namespace Directory

def inUse (d : Directory) (i : Nat) : Bool := d (entrySize * i) != 0

def sector (d : Directory) (i : Nat) : Int := (load d (entrySize * i + 4) 4 : Word).toInt

def setInUse (d : Directory) (i : Nat) (b : Bool) : Directory :=
  Function.update d (entrySize * i) (if b then 1 else 0)

def setSector (d : Directory) (i : Nat) (sector : Int) : Directory :=
  store d (entrySize * i + 4) 4 (BitVec.ofInt 32 sector)

/-- `strncpy(table[i].name, name, FileNameMaxLen)`. -/
def setName (d : Directory) (i : Nat) (name : Image) : Directory :=
  strncpy d (entrySize * i + 8) name 0 fileNameMaxLen

/-- `Directory::Directory`; the memory of the table is not initialised otherwise. -/
def new (table : Image) : Directory :=
  (List.range numDirEntries).foldl (fun d i => d.setInUse i false) table

/-- `Directory::FindIndex`; `none` is the result `-1`. -/
def findIndex (d : Directory) (name : Image) : Option Nat :=
  (List.range numDirEntries).find? fun i =>
    d.inUse i && strncmp d (entrySize * i + 8) name 0 fileNameMaxLen == 0

/-- `Directory::Find`. -/
def find (d : Directory) (name : Image) : Int :=
  match d.findIndex name with
  | some i => d.sector i
  | none => -1

/-- The loop of `Directory::Add`: the first entry that is not in use. -/
def firstFree (d : Directory) : Option Nat := (List.range numDirEntries).find? fun i => !d.inUse i

/-- `Directory::Add`; `none` is the result FALSE. -/
def add (d : Directory) (name : Image) (newSector : Int) : Option Directory :=
  if (d.findIndex name).isSome then none
  else
    match d.firstFree with
    | some i => some (((d.setInUse i true).setName i name).setSector i newSector)
    | none => none

/-- `Directory::Remove`; `none` is the result FALSE. -/
def remove (d : Directory) (name : Image) : Option Directory :=
  (d.findIndex name).map fun i => d.setInUse i false

end Directory

/-! ### Entries -/

/-- The characters of a name that are compared. -/
def compared (name : Image) : List Byte := cstr name 0 fileNameMaxLen

/-- What an entry of a directory says. -/
structure Entry where
  inUse : Bool
  sector : Int
  name : List Byte
  deriving DecidableEq

namespace Directory

variable {d d' : Directory} {name : Image} {i j : Nat}

def entry (d : Directory) (i : Nat) : Entry where
  inUse := d.inUse i
  sector := d.sector i
  name := cstr d (entrySize * i + 8) fileNameMaxLen

@[simp] theorem inUse_entry (d : Directory) (i : Nat) : (d.entry i).inUse = d.inUse i := rfl

theorem entry_congr (h : ∀ k, entrySize * i ≤ k → k < entrySize * (i + 1) → d k = d' k) :
    d.entry i = d'.entry i := by
  have huse : d.inUse i = d'.inUse i := by
    unfold inUse
    rw [h _ (le_refl _) (by unfold entrySize; omega)]
  have hsector : d.sector i = d'.sector i := by
    apply congrArg BitVec.toInt
    apply load_congr
    intro k h1 h2
    exact h k (by omega) (by unfold entrySize at *; omega)
  have hname : cstr d (entrySize * i + 8) fileNameMaxLen =
      cstr d' (entrySize * i + 8) fileNameMaxLen := by
    apply cstr_congr
    intro k hk
    exact h _ (by omega) (by unfold entrySize fileNameMaxLen at *; omega)
  unfold entry
  rw [huse, hsector, hname]

/-- The entries of a table are in its first `DirectoryFileSize` bytes. -/
theorem entry_congr_of_lt (h : ∀ k < directoryFileSize, d k = d' k) (hi : i < numDirEntries) :
    d.entry i = d'.entry i := by
  apply entry_congr
  intro k _ hk
  apply h
  unfold directoryFileSize entrySize numDirEntries at *
  omega

theorem entry_setInUse (d : Directory) (i j : Nat) (b : Bool) :
    (d.setInUse i b).entry j = if j = i then { d.entry j with inUse := b } else d.entry j := by
  by_cases hji : j = i
  · subst hji
    have huse : (d.setInUse j b).inUse j = b := by
      unfold inUse setInUse
      cases b <;> simp
    have hsector : (d.setInUse j b).sector j = d.sector j := by
      apply congrArg BitVec.toInt
      apply load_congr
      intro k h1 h2
      exact Function.update_of_ne (by omega) ..
    have hname : cstr (d.setInUse j b) (entrySize * j + 8) fileNameMaxLen =
        cstr d (entrySize * j + 8) fileNameMaxLen := by
      apply cstr_congr
      intro k hk
      exact Function.update_of_ne (by omega) ..
    rw [if_pos rfl]
    unfold entry
    rw [huse, hsector, hname]
  · rw [if_neg hji]
    apply entry_congr
    intro k h1 h2
    apply Function.update_of_ne
    unfold entrySize at *
    omega

/-- A new table has no entry in use. -/
theorem inUse_new (table : Image) (hi : i < numDirEntries) : (new table).inUse i = false := by
  have hfold : ∀ l : List Nat, ∀ d : Directory, i ∈ l ∨ d.inUse i = false →
      (l.foldl (fun d i => d.setInUse i false) d).inUse i = false := by
    intro l
    induction l with
    | nil => simp
    | cons a l ih =>
      intro d h
      rw [List.foldl_cons]
      apply ih
      have hentry := congrArg Entry.inUse (entry_setInUse d a i false)
      by_cases hia : i = a
      · rw [if_pos hia] at hentry
        exact Or.inr hentry
      · rw [if_neg hia] at hentry
        rcases h with h | h
        · exact Or.inl ((List.mem_cons.mp h).resolve_left hia)
        · exact Or.inr (hentry.trans h)
  exact hfold _ table (Or.inl (List.mem_range.mpr hi))

/-! ### Operations -/

theorem matches_iff :
    (d.inUse i && strncmp d (entrySize * i + 8) name 0 fileNameMaxLen == 0) = true ↔
      (d.entry i).inUse = true ∧ (d.entry i).name = compared name := by
  rw [Bool.and_eq_true, beq_iff_eq, strncmp_eq_zero]
  rfl

theorem findIndex_some (h : d.findIndex name = some i) :
    i < numDirEntries ∧ (d.entry i).inUse = true ∧ (d.entry i).name = compared name := by
  have hmem := List.mem_of_find?_eq_some h
  have hmatch := List.find?_some h
  exact ⟨List.mem_range.mp hmem, matches_iff.mp hmatch⟩

theorem findIndex_none (h : d.findIndex name = none) (hi : i < numDirEntries)
    (huse : (d.entry i).inUse = true) : (d.entry i).name ≠ compared name := by
  intro hname
  exact List.find?_eq_none.mp h i (List.mem_range.mpr hi) (matches_iff.mpr ⟨huse, hname⟩)

/-- `Find` looks at the characters that are compared. -/
theorem find_congr {name' : Image} (h : compared name = compared name') (d : Directory) :
    d.find name = d.find name' := by
  have hindex : d.findIndex name = d.findIndex name' := by
    refine congrArg (fun p => (List.range numDirEntries).find? p) ?_
    ext1 i
    rw [Bool.eq_iff_iff, matches_iff, matches_iff, h]
  unfold find
  rw [hindex]

/-- The entry that `Add` writes. -/
theorem entry_written (d : Directory) (i j : Nat) (name : Image) {sector : Nat}
    (hs : sector < numSectors) :
    (((d.setInUse i true).setName i name).setSector i sector).entry j =
      if j = i then ⟨true, sector, compared name⟩ else d.entry j := by
  by_cases hji : j = i
  · subst hji
    unfold Filesys.numSectors at hs
    have huse : (((d.setInUse j true).setName j name).setSector j sector).inUse j = true := by
      unfold inUse setSector setName setInUse
      rw [store_of_not_mem _ (by omega), strncpy_of_not_mem (by omega), Function.update_self]
      rfl
    have hsector : (((d.setInUse j true).setName j name).setSector j sector).sector j = sector := by
      unfold Directory.sector setSector
      rw [load_store _ _ (by decide)]
      exact toInt_ofInt_of_bounds (by omega) (by omega)
    have hname : cstr (((d.setInUse j true).setName j name).setSector j sector)
        (entrySize * j + 8) fileNameMaxLen = compared name := by
      have hstore : ∀ k < fileNameMaxLen,
          ((d.setInUse j true).setName j name).setSector j sector (entrySize * j + 8 + k) =
            (d.setInUse j true).setName j name (entrySize * j + 8 + k) := by
        intro k hk
        exact store_of_not_mem _ (by omega)
      exact (cstr_congr hstore).trans (cstr_strncpy ..)
    rw [if_pos rfl]
    unfold entry
    rw [huse, hsector, hname]
  · rw [if_neg hji]
    apply entry_congr
    intro k h1 h2
    unfold setSector setName setInUse
    unfold entrySize fileNameMaxLen at *
    rw [store_of_not_mem _ (by omega), strncpy_of_not_mem (by omega),
      Function.update_of_ne (by omega)]

/-- `Add` of a name that is not in the directory: every entry is in use, or one that is not is
written. -/
theorem add_cases (hfind : d.findIndex name = none) {sector : Nat} (hs : sector < numSectors) :
    ((∀ i < numDirEntries, (d.entry i).inUse = true) ∧ d.add name sector = none) ∨
      ∃ i < numDirEntries, (d.entry i).inUse = false ∧ ∃ d', d.add name sector = some d' ∧
        ∀ j, d'.entry j = if j = i then ⟨true, sector, compared name⟩ else d.entry j := by
  unfold add
  rw [hfind]
  cases hfree : d.firstFree with
  | none =>
    refine Or.inl ⟨fun i hi => ?_, rfl⟩
    have huse := List.find?_eq_none.mp hfree i (List.mem_range.mpr hi)
    simpa using huse
  | some i =>
    have hmem := List.mem_of_find?_eq_some hfree
    have hnot := List.find?_some hfree
    refine Or.inr ⟨i, List.mem_range.mp hmem, by simpa using hnot, _, rfl, fun j => ?_⟩
    exact entry_written d i j name hs

theorem entry_remove (hfind : d.findIndex name = some i) :
    ∃ d', d.remove name = some d' ∧
      ∀ j, d'.entry j = if j = i then { d.entry j with inUse := false } else d.entry j := by
  refine ⟨d.setInUse i false, ?_, fun j => entry_setInUse d i j false⟩
  unfold remove
  rw [hfind]
  rfl

end Directory

end Nachos.Filesys
