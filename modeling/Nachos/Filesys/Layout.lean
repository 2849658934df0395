import Nachos.Lib.Shares
import Nachos.Filesys.FileSystem

/-!
# The layout of the disk

The bitmap file, the directory file and the files of the directory each hold a header sector and
the data sectors that the header names. `Laid` says that the headers are valid and that the
sectors in use are divided among these holders. It is kept by

* `Laid.write`: writing the data of one holder changes no header and no other file's data,
* `Laid.add`: writing a header for a new holder on sectors that were not in use,
* `Laid.drop`: giving up a holder.
-/

namespace Nachos

open Bytes Shares

/-! ### Bitmaps in memory -/

namespace BitMap

@[simp] theorem numBits_ofImage (n : Nat) (image : Image) : (ofImage n image).numBits = n := rfl

theorem ofImage_congr {n : Nat} {image image' : Image}
    (h : ∀ k < divRoundUp n 32 * 4, image k = image' k) : ofImage n image = ofImage n image' := by
  unfold ofImage
  congr 1
  apply List.map_congr_left
  intro i hi
  rw [List.mem_range] at hi
  apply load_congr
  intro k h1 h2
  exact h k (by omega)

/-- A word of the array is what its four bytes say. -/
theorem load_toImage (b : BitMap) (i : Nat) : load b.toImage (4 * i) 4 = b.map.getD i 0 := by
  apply BitVec.eq_of_getLsbD_eq
  intro j hj
  have hword : (4 * i + j / 8) / 4 = i := by omega
  have hbyte : (4 * i + j / 8) % 4 = j / 8 := by omega
  have hbit : 8 * (j / 8) + j % 8 = j := Nat.div_add_mod j 8
  have hmod : j % 8 < 8 := by omega
  rw [getLsbD_load _ _ _ hj]
  unfold toImage
  rw [hword, hbyte, BitVec.getLsbD_setWidth, BitVec.getLsbD_ushiftRight, hbit]
  simp [hj, hmod]

theorem ofImage_toImage (b : BitMap) : ofImage b.numBits b.toImage = b := by
  have hmap : (List.range (divRoundUp b.numBits 32)).map (fun i => load b.toImage (4 * i) 4) =
      b.map := by
    apply List.ext_getElem
    · rw [List.length_map, List.length_range, b.length_map]
    · intro i h1 h2
      rw [List.getElem_map, List.getElem_range, load_toImage, List.getD_eq_getElem?_getD,
        List.getElem?_eq_getElem h2, Option.getD_some]
  cases b with
  | mk numBits map length_map =>
    unfold ofImage
    congr 1

end BitMap

namespace Filesys

/-! ### Objects in files -/

section Objects

variable {disk : Disk} {file : OpenFile} {n : Nat}

theorem clip_whole (hv : file.hdr.Valid) (hn : 0 < n) (hlen : n ≤ file.hdr.numBytes) :
    clip file.hdr.numBytes n (0 : Nat) = n := by
  have hd := hv.direct
  have hl := hv.length
  unfold clip
  unfold numDirect sectorSize at *
  rw [if_neg (by omega), CInt.s32_of_bounds (by omega) (by omega), if_neg (by omega)]

/-- An object that fits in the file. -/
theorem fetchInto_spec (hv : file.hdr.Valid) (hn : 0 < n) (hlen : n ≤ file.hdr.numBytes)
    (image : Image) :
    ∃ image', fetchInto image disk file n = .ok image' ∧
      ∀ k < n, image' k = fileByte disk file.hdr k := by
  have hread : readAt disk file.hdr n 0 = .ok (toList (fun k => fileByte disk file.hdr k) n) := by
    have hinside : readAt disk file.hdr n (0 : Nat) =
        .ok ((List.range n).map fun k => fileByte disk file.hdr (0 + k)) :=
      readAt_inside hv hn (by omega) (clip_whole hv hn hlen)
    simp only [Nat.zero_add] at hinside
    exact hinside
  refine ⟨splice image 0 (toList (fun k => fileByte disk file.hdr k) n), ?_, ?_⟩
  · unfold fetchInto
    rw [hread]
    rfl
  · intro k hk
    rw [splice_toList, if_pos (by omega), Nat.sub_zero]

theorem storeFrom_spec (hv : file.hdr.Valid) (hn : 0 < n) (hlen : n ≤ file.hdr.numBytes)
    (image buf : Image) :
    ∃ disk', storeFrom image disk file n buf = .ok disk' ∧
      (∀ x, x ∉ file.hdr.sectors → disk' x = disk x) ∧
      ∀ k < n, fileByte disk' file.hdr k = image k := by
  have hbytes : n ≤ (toList image n).length := le_of_eq (length_toList image n).symm
  obtain ⟨disk', hwrite, hframe, hdata⟩ :
      ∃ disk', writeAt disk file.hdr (toList image n) n 0 buf = .ok (disk', (n : Int)) ∧ _ :=
    writeAt_spec hv hn (by omega) (clip_whole hv hn hlen) hbytes buf
  refine ⟨disk', ?_, hframe, ?_⟩
  · unfold storeFrom
    rw [hwrite]
    rfl
  · intro k hk
    rw [hdata k (by omega), if_pos (by omega), Nat.sub_zero, getD_toList hk]

end Objects

/-! ### Holders -/

/-- What holds sectors: the two files of the file system, and each entry of the directory. -/
inductive Holder
  | freeMap
  | directory
  | entry (i : Nat)
  deriving DecidableEq

/-- The sectors of each holder, when `hs` gives the sectors of the headers. -/
def holdings (hs : Holder → Option Nat) (disk : Disk) (o : Holder) : List Nat :=
  match hs o with
  | none => []
  | some x => x :: FileHeader.sectors (disk x)

structure Laid (hs : Holder → Option Nat) (disk : Disk) (used : Nat → Prop) : Prop where
  divided : Divided (holdings hs disk) used
  range : ∀ {o x}, hs o = some x → x < numSectors
  valid : ∀ {o x}, hs o = some x → FileHeader.Valid (disk x)

section Holders

variable {hs : Holder → Option Nat} {disk disk' : Disk} {used : Nat → Prop} {o p : Holder} {x y : Nat}

theorem holdings_of_some (h : hs o = some x) :
    holdings hs disk o = x :: FileHeader.sectors (disk x) := by
  unfold holdings
  rw [h]

theorem holdings_of_none (h : hs o = none) : holdings hs disk o = [] := by
  unfold holdings
  rw [h]

namespace Laid

theorem mem_header (h : hs o = some x) : x ∈ holdings hs disk o := by
  rw [holdings_of_some h]
  exact List.mem_cons_self ..

theorem mem_data (h : hs o = some x) (hy : y ∈ FileHeader.sectors (disk x)) :
    y ∈ holdings hs disk o := by
  rw [holdings_of_some h]
  exact List.mem_cons_of_mem _ hy

/-- A header is in no file's data. -/
theorem header_not_data (hlaid : Laid hs disk used) (ho : hs o = some x) (hp : hs p = some y) :
    y ∉ FileHeader.sectors (disk x) := by
  intro hy
  have hop : o = p := hlaid.divided.unique (mem_data ho hy) (mem_header hp)
  subst hop
  obtain rfl : x = y := by
    rw [ho] at hp
    exact Option.some.inj hp
  have hnodup := hlaid.divided.nodup o
  rw [holdings_of_some ho] at hnodup
  exact (List.nodup_cons.mp hnodup).1 hy

/-- Different files have different data sectors. -/
theorem data_disjoint (hlaid : Laid hs disk used) (hop : o ≠ p) (ho : hs o = some x)
    (hp : hs p = some y) {z : Nat} (hz : z ∈ FileHeader.sectors (disk y)) :
    z ∉ FileHeader.sectors (disk x) :=
  fun hz' => hop (hlaid.divided.unique (mem_data ho hz') (mem_data hp hz))

theorem congr_disk (hlaid : Laid hs disk used)
    (hheaders : ∀ {o x}, hs o = some x → disk' x = disk x) : Laid hs disk' used := by
  refine ⟨hlaid.divided.congr ?_ fun _ => Iff.rfl, hlaid.range, ?_⟩
  · intro o
    cases ho : hs o with
    | none => rw [holdings_of_none ho, holdings_of_none ho]
    | some x => rw [holdings_of_some ho, holdings_of_some ho, hheaders ho]
  · intro o x ho
    rw [hheaders ho]
    exact hlaid.valid ho

/-- Writing the data of one file: all headers stay, and the data of the other files. -/
theorem write (hlaid : Laid hs disk used) (ho : hs o = some x)
    (hframe : ∀ z, z ∉ FileHeader.sectors (disk x) → disk' z = disk z) :
    Laid hs disk' used ∧ (∀ {p y}, hs p = some y → disk' y = disk y) ∧
      ∀ {p y}, p ≠ o → hs p = some y → ∀ k : Nat, (k : Int) < FileHeader.numBytes (disk y) →
        fileByte disk' (disk y) k = fileByte disk (disk y) k := by
  have hheaders : ∀ {p y}, hs p = some y → disk' y = disk y := fun hp =>
    hframe _ (hlaid.header_not_data ho hp)
  refine ⟨hlaid.congr_disk hheaders, hheaders, ?_⟩
  intro p y hpo hp k hk
  have hmem := (hlaid.valid hp).mem_dataSector hk
  unfold fileByte
  rw [hframe]
  exact hlaid.data_disjoint (Ne.symm hpo) ho hp hmem

/-- A header for a new holder, on sectors that were not in use. -/
theorem add (hlaid : Laid hs disk used) (ho : hs o = none) {hdr : FileHeader} (hv : hdr.Valid)
    (hx : x < numSectors) (hnodup : (x :: hdr.sectors).Nodup)
    (hfree : ∀ y ∈ x :: hdr.sectors, ¬ used y) :
    Laid (Function.update hs o (some x)) (Function.update disk x hdr)
      fun y => used y ∨ y ∈ x :: hdr.sectors := by
  have hother : ∀ {p y}, hs p = some y → y ≠ x := by
    intro p y hp hyx
    subst hyx
    exact hfree y (List.mem_cons_self ..) (hlaid.divided.used_of_mem (mem_header hp))
  refine ⟨(hlaid.divided.give (holdings_of_none ho) hnodup hfree).congr ?_ fun _ => Iff.rfl, ?_, ?_⟩
  · intro p
    by_cases hpo : p = o
    · subst hpo
      rw [holdings_of_some (Function.update_self ..), Function.update_self, Function.update_self]
    · rw [Function.update_of_ne hpo]
      have hsame : Function.update hs o (some x) p = hs p := Function.update_of_ne hpo ..
      cases hp : hs p with
      | none => rw [holdings_of_none (hsame.trans hp), holdings_of_none hp]
      | some y =>
        rw [holdings_of_some (hsame.trans hp), holdings_of_some hp,
          Function.update_of_ne (hother hp)]
  · intro p y hp
    by_cases hpo : p = o
    · subst hpo
      rw [Function.update_self] at hp
      exact Option.some.inj hp ▸ hx
    · rw [Function.update_of_ne hpo] at hp
      exact hlaid.range hp
  · intro p y hp
    by_cases hpo : p = o
    · subst hpo
      rw [Function.update_self] at hp
      obtain rfl := Option.some.inj hp
      rwa [Function.update_self]
    · rw [Function.update_of_ne hpo] at hp
      rw [Function.update_of_ne (hother hp)]
      exact hlaid.valid hp

/-- A holder is given up. -/
theorem drop (hlaid : Laid hs disk used) (o : Holder) :
    Laid (Function.update hs o none) disk fun y => used y ∧ y ∉ holdings hs disk o := by
  have hother : ∀ {p y}, Function.update hs o none p = some y → hs p = some y := by
    intro p y hp
    by_cases hpo : p = o
    · subst hpo
      rw [Function.update_self] at hp
      cases hp
    · rwa [Function.update_of_ne hpo] at hp
  refine ⟨(hlaid.divided.take o).congr ?_ fun _ => Iff.rfl, fun hp => hlaid.range (hother hp),
    fun hp => hlaid.valid (hother hp)⟩
  intro p
  by_cases hpo : p = o
  · subst hpo
    rw [holdings_of_none (Function.update_self ..), Function.update_self]
  · rw [Function.update_of_ne hpo]
    unfold holdings
    rw [Function.update_of_ne hpo]

end Laid

end Holders

end Filesys

end Nachos
