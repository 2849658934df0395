import Nachos.Machine.Memory
import Nachos.Userprog.BitMap

/-!
# Executable headers and page frames

The part of `userprog/addrspace.cc` that both constructors of `AddrSpace` share: the size of
the address space that a NOFF header asks for, and the loop that takes one frame of
`gPhysPageBitMap` per page. With enough clear frames the loop succeeds (`allocFrames_of_le`), and
what it then took are distinct clear frames, of which it marked exactly these
(`allocFrames_some`).
-/

namespace Nachos

def userStackSize : Nat := 1024
def noffMagic : Int := 0xbadfad

/-- `Segment` of `bin/noff.h`. -/
structure Segment where
  virtualAddr : Int
  inFileAddr : Int
  size : Int
  deriving DecidableEq, Repr

/-- `NoffHeader` of `bin/noff.h`. -/
structure NoffHeader where
  noffMagic : Int
  code : Segment
  initData : Segment
  uninitData : Segment
  deriving DecidableEq, Repr

/-- The `unsigned int` sum of the segment sizes and `UserStackSize`. -/
def NoffHeader.size (h : NoffHeader) : Nat :=
  ((h.code.size + h.initData.size + h.uninitData.size + userStackSize) % 2 ^ 32).toNat

/-- `numPages` of the address space. -/
def NoffHeader.numPages (h : NoffHeader) : Nat := divRoundUp h.size pageSize

/-- The allocation loop: `n` calls of `Find`, which stop at the first `-1` and leave what they
have marked. -/
def allocFrames : BitMap → Nat → Option (List Nat) × BitMap
  | b, 0 => (some [], b)
  | b, n + 1 =>
    match b.find with
    | (none, b') => (none, b')
    | (some f, b') =>
      match allocFrames b' n with
      | (some fs, b'') => (some (f :: fs), b'')
      | (none, b'') => (none, b'')

/-- What the loop did: it took the frames `fs`, which were clear, and marked exactly these. -/
structure Allocated (b : BitMap) (fs : List Nat) (b' : BitMap) : Prop where
  numBits : b'.numBits = b.numBits
  nodup : fs.Nodup
  range : ∀ f ∈ fs, f < b.numBits
  clear : ∀ f ∈ fs, b.test f = false
  test : ∀ i, b'.test i = (decide (i ∈ fs) || b.test i)
  marked : b'.numMarked = b.numMarked + fs.length

theorem Allocated.nil (b : BitMap) : Allocated b [] b := by
  refine ⟨rfl, List.nodup_nil, ?_, ?_, ?_, ?_⟩ <;> simp

theorem Allocated.cons {b b' : BitMap} {f : Nat} {fs : List Nat} (hf : f < b.numBits)
    (hclear : b.test f = false) (h : Allocated (b.mark f) fs b') : Allocated b (f :: fs) b' := by
  have hnew : f ∉ fs := by
    intro hmem
    have := h.clear f hmem
    simp [BitMap.test_mark b hf] at this
  refine ⟨h.numBits, List.nodup_cons.mpr ⟨hnew, h.nodup⟩, ?_, ?_, ?_, ?_⟩
  · intro g hg
    rcases List.mem_cons.mp hg with rfl | hg
    · exact hf
    · exact h.range g hg
  · intro g hg
    rcases List.mem_cons.mp hg with rfl | hg
    · exact hclear
    · have := h.clear g hg
      rw [BitMap.test_mark b hf] at this
      simp at this
      exact this.2
  · intro i
    rw [h.test i, BitMap.test_mark b hf]
    by_cases hi : i = f
    · simp [hi]
    · simp [hi]
  · rw [h.marked, BitMap.numMarked_mark hf hclear, List.length_cons]
    omega

/-- When the loop ends with `n` frames, it has taken these. -/
theorem allocFrames_some {b b' : BitMap} {n : Nat} {fs : List Nat}
    (h : allocFrames b n = (some fs, b')) : Allocated b fs b' ∧ fs.length = n := by
  induction n generalizing b fs with
  | zero =>
    obtain ⟨rfl, rfl⟩ : [] = fs ∧ b = b' := by simpa [allocFrames] using h
    exact ⟨Allocated.nil b, rfl⟩
  | succ n ih =>
    rcases b.find_cases with ⟨f, hf, hclear, hfind⟩ | ⟨-, hfind⟩
    · simp only [allocFrames, hfind] at h
      split at h
      next gs b'' hrest =>
        obtain ⟨rfl, rfl⟩ : f :: gs = fs ∧ b'' = b' := by simpa using h
        obtain ⟨halloc, hlen⟩ := ih hrest
        exact ⟨Allocated.cons hf hclear halloc, by simp [hlen]⟩
      next => simp at h
    · simp [allocFrames, hfind] at h

theorem find_of_numClear_pos {b : BitMap} (h : 0 < b.numClear) :
    ∃ f, f < b.numBits ∧ b.test f = false ∧ b.find = (some f, b.mark f) := by
  rcases b.find_cases with hfound | ⟨hall, -⟩
  · exact hfound
  · have : b.numClear = 0 := by
      unfold BitMap.numClear
      rw [List.countP_eq_zero]
      intro i hi
      simp [hall i (List.mem_range.mp hi)]
    omega

theorem numClear_mark {b : BitMap} {f : Nat} (hf : f < b.numBits) (hclear : b.test f = false) :
    (b.mark f).numClear + 1 = b.numClear := by
  have h1 := b.numMarked_add_numClear
  have h2 := (b.mark f).numMarked_add_numClear
  rw [BitMap.numMarked_mark hf hclear, BitMap.numBits_mark] at h2
  omega

/-- With enough clear frames the loop succeeds. -/
theorem allocFrames_of_le {b : BitMap} {n : Nat} (h : n ≤ b.numClear) :
    ∃ fs b', allocFrames b n = (some fs, b') := by
  induction n generalizing b with
  | zero => exact ⟨[], b, rfl⟩
  | succ n ih =>
    obtain ⟨f, hf, hclear, hfind⟩ := find_of_numClear_pos (b := b) (by omega)
    have hcount := numClear_mark hf hclear
    obtain ⟨fs, b', hrest⟩ := ih (b := b.mark f) (by omega)
    exact ⟨f :: fs, b', by simp [allocFrames, hfind, hrest]⟩

end Nachos
