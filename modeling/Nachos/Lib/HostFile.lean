import Mathlib.Data.List.Basic

/-!
# Files of the host

A regular file is the list of its elements. `pread` returns what there is of a range, and `pwrite` puts
data at an offset; a write behind the end fills the gap with zeros.

* `pread_pwrite_self`: what was written is read back.
* `pread_pwrite_before`, `pread_pwrite_after`: a write leaves the rest of the file as it was.
-/

namespace HostFile

variable {α : Type*}

/-- The elements from `offset` on, at most `n` of them. -/
def pread (file : List α) (offset n : Nat) : List α := (file.drop offset).take n

theorem getElem?_pread (file : List α) (offset n i : Nat) :
    (pread file offset n)[i]? = if i < n then file[offset + i]? else none := by
  rw [pread, List.getElem?_take, List.getElem?_drop]

theorem length_pread {file : List α} {offset n : Nat} (h : offset + n ≤ file.length) :
    (pread file offset n).length = n := by
  rw [pread, List.length_take, List.length_drop]
  omega

variable [Zero α] {file data : List α} {offset : Nat}

/-- The file after a write. Without data there is none. -/
def pwrite (file : List α) (offset : Nat) (data : List α) : List α :=
  if data.isEmpty then file
  else
    file.take offset ++ List.replicate (offset - file.length) 0 ++ data ++
      file.drop (offset + data.length)

theorem pwrite_eq (hdata : data ≠ []) :
    pwrite file offset data = file.take offset ++ List.replicate (offset - file.length) 0 ++ data ++
      file.drop (offset + data.length) := by
  rw [pwrite, if_neg]
  simpa using hdata

/-- The part in front of the data. -/
theorem length_front (file : List α) (offset : Nat) :
    (file.take offset ++ List.replicate (offset - file.length) 0).length = offset := by
  rw [List.length_append, List.length_take, List.length_replicate]
  omega

theorem length_pwrite (hdata : data ≠ []) :
    (pwrite file offset data).length = max file.length (offset + data.length) := by
  rw [pwrite_eq hdata, List.length_append, List.length_append, length_front, List.length_drop]
  omega

theorem getElem?_pwrite_before (hdata : data ≠ []) {i : Nat} (hi : i < offset)
    (hlen : i < file.length) : (pwrite file offset data)[i]? = file[i]? := by
  have htake : i < (file.take offset).length := by
    rw [List.length_take]
    omega
  rw [pwrite_eq hdata, List.append_assoc, List.append_assoc, List.getElem?_append_left htake,
    List.getElem?_take, if_pos hi]

theorem getElem?_pwrite_after (hdata : data ≠ []) {i : Nat} (hi : offset + data.length ≤ i) :
    (pwrite file offset data)[i]? = file[i]? := by
  have hfront : (file.take offset ++ List.replicate (offset - file.length) 0 ++ data).length =
      offset + data.length := by rw [List.length_append, length_front]
  rw [pwrite_eq hdata, List.getElem?_append_right (by omega), hfront, List.getElem?_drop]
  congr 1
  omega

theorem pread_pwrite_self (hdata : data ≠ []) :
    pread (pwrite file offset data) offset data.length = data := by
  rw [pwrite_eq hdata, pread, List.append_assoc, List.drop_left' (length_front file offset)]
  exact List.take_left' rfl

theorem pread_pwrite_before (hdata : data ≠ []) {start n : Nat} (hend : start + n ≤ offset)
    (hlen : start + n ≤ file.length) :
    pread (pwrite file offset data) start n = pread file start n := by
  apply List.ext_getElem?
  intro i
  rw [getElem?_pread, getElem?_pread]
  split
  · rw [getElem?_pwrite_before hdata (by omega) (by omega)]
  · rfl

theorem pread_pwrite_after (hdata : data ≠ []) {start n : Nat} (hstart : offset + data.length ≤ start) :
    pread (pwrite file offset data) start n = pread file start n := by
  apply List.ext_getElem?
  intro i
  rw [getElem?_pread, getElem?_pread, getElem?_pwrite_after hdata (by omega)]

end HostFile
