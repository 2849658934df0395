import Nachos.Bin.Conversion
import Nachos.Machine.Lockstep
import Nachos.Userprog.Loader

/-!
# From a COFF file to a running program

`coff2noff`, the loader and the simulator together. `Linked` is how the linker script of the test
programs lays a program out: the code at address 0, and the initialised data behind it. `processor`
is a MIPS I processor that is about to execute such a program, with the sections in its memory.

`converted_program_runs`: when the program has been converted and loaded, the simulator stands for
this processor, whatever frames the loader was given and whatever was in them; and it executes what
the processor executes, as long as the instructions are portable.
-/

namespace Nachos

open CInt Machine

/-- The loader takes the frames, and the address space shows the image. -/
theorem NoffImage.loads {executable : List Byte} (himage : NoffImage executable) (isNull : Bool)
    {physPageBitMap : BitMap} (hbits : physPageBitMap.numBits = numPhysPages)
    (hclear : (readHeader executable).numPages ≤ physPageBitMap.numClear) (mainMemory : Nat → Byte) :
    ∃ frames bitmap memory, addrSpace executable isNull physPageBitMap mainMemory =
        .ok (⟨some (newTable frames), (readHeader executable).numPages⟩, bitmap, memory) ∧
      Allocated physPageBitMap frames bitmap ∧ frames.length = (readHeader executable).numPages ∧
      ∀ va, va < (readHeader executable).numPages * pageSize →
        view frames memory va = imageByte executable va := by
  have hcount := physPageBitMap.numMarked_add_numClear
  have hfit : (readHeader executable).numPages ≤ numPhysPages := by omega
  obtain ⟨fs, bitmap, zeroed, hbuild⟩ := buildPages_of_le hclear mainMemory
  obtain ⟨halloc, hzero⟩ := buildPages_some hbuild
  obtain ⟨hallocated, hlen⟩ := allocFrames_some halloc
  have hrange : ∀ f ∈ fs, f < numPhysPages := fun f hf => hbits ▸ hallocated.range f hf
  obtain ⟨memory, hrun, hview⟩ := runCopies_faithful hallocated.nodup hlen hrange
    (himage.pageCopies_faithful hfit) zeroed
  refine ⟨fs, bitmap, memory, ?_, hallocated, hlen, fun va hva => (hview va hva).1 ?_⟩
  · simp only [addrSpace, himage.magic, hbuild, framesOf_newTable, hrun, Except.map]
    rw [if_neg (by simp), if_neg (by omega)]
  · rcases lt_or_ge (va : Int)
      ((readHeader executable).code.size + (readHeader executable).initData.size) with hin | hout
    · exact Or.inl (himage.pageCopies_cover hfit hin)
    · -- behind the segments there are the zeros of the loader
      right
      have hpage : va / pageSize < fs.length := by
        rw [hlen, Nat.div_lt_iff_lt_mul (by decide)]
        exact hva
      have hmem : fs.getD (va / pageSize) 0 ∈ fs := by
        rw [List.getD_eq_getElem?_getD, List.getElem?_eq_getElem hpage, Option.getD_some]
        exact List.getElem_mem hpage
      have hinit := himage.sized.init
      unfold imageByte view
      rw [if_neg (by omega), if_neg (by omega), hzero, Nat.mul_comm, Nat.mul_add_div (by decide),
        Nat.div_eq_of_lt (Nat.mod_lt _ (by decide)), Nat.add_zero, if_pos hmem]

namespace Coff

/-! ### Statement -/

/-- One section of code at address 0, and one of initialised data behind it. The uninitialised data may
be anywhere. -/
structure Linked (content : List Byte) (t d : Scnhdr) : Prop where
  text : textOf (sectionsOf content) = [t]
  data : dataOf (sectionsOf content) = [d]
  textAddr : t.sPaddr = 0
  dataAddr : d.sPaddr = t.sSize

section Program

variable (content : List Byte) (t d : Scnhdr)

/-- The number of pages that the sections and the stack take. -/
def programPages : Nat :=
  divRoundUp (t.sSize + d.sSize + total (bssOf (sectionsOf content)) + userStackSize).toNat pageSize

/-- The byte of the code, of the initialised data, or zero. -/
def programByte (a : Nat) : Byte :=
  if a < t.sSize.toNat then (t.bytes content).getD a 0
  else if a < t.sSize.toNat + d.sSize.toNat then (d.bytes content).getD (a - t.sSize.toNat) 0
  else 0

/-- The processor before the first instruction of the program. -/
def processor : Cpu where
  regs r := if r = stackReg then BitVec.ofInt 32 (programPages content t d * pageSize - 16) else 0
  pc := 0
  nextPC := 4
  memory va :=
    if va.toNat < programPages content t d * pageSize then some (programByte content t d va.toNat)
    else none
  writable va := va.toNat < programPages content t d * pageSize

end Program

/-- The machine after `InitRegisters` and `RestoreState` of an address space. -/
def started (space : AddrSpace) (memory : Nat → Byte) : Machine where
  mainMemory := memory
  registers := initRegisters space.numPages
  pageTable := space.pageTable
  pageTableSize := space.numPages

/-! ### The converted file -/

section Converted

variable {content : List Byte} {ss : List Scnhdr} {t d : Scnhdr} {c : Converter}

/-- The sections of the three kinds are not longer than all sections. -/
theorem total_kinds_le (h : ∀ s ∈ ss, s.WellFormed) :
    total (textOf ss) + total (dataOf ss) + total (bssOf ss) ≤ total ss := by
  induction ss with
  | nil => exact Int.le_refl 0
  | cons s ss ih =>
    have hs := (h s List.mem_cons_self).size
    have hss := ih fun t ht => h t (List.mem_cons_of_mem _ ht)
    unfold textOf dataOf bssOf total at *
    simp only [List.filter_cons, List.map_cons, List.sum_cons, decide_eq_true_eq]
    by_cases htext : s.IsText
    · rw [if_pos htext, if_neg htext.others.1, if_neg htext.others.2, List.map_cons, List.sum_cons]
      omega
    · rw [if_neg htext]
      by_cases hdata : s.IsData
      · rw [if_pos hdata, if_neg hdata.others.2, List.map_cons, List.sum_cons]
        omega
      · rw [if_neg hdata]
        split
        · rw [List.map_cons, List.sum_cons]
          omega
        · omega

theorem Linked.section_mem (hlinked : Linked content t d) : t ∈ sectionsOf content ∧ d ∈ sectionsOf content := by
  have htext : t ∈ textOf (sectionsOf content) := hlinked.text ▸ List.mem_singleton_self t
  have hdata : d ∈ dataOf (sectionsOf content) := hlinked.data ▸ List.mem_singleton_self d
  exact ⟨(List.mem_filter.mp htext).1, (List.mem_filter.mp hdata).1⟩

/-- The sizes of a linked program. -/
theorem Linked.sizes (hlinked : Linked content t d) (hw : CoffFile content) :
    0 ≤ t.sSize ∧ 0 ≤ d.sSize ∧ 0 ≤ total (bssOf (sectionsOf content)) ∧
      t.sSize + d.sSize + total (bssOf (sectionsOf content)) ≤ total (sectionsOf content) ∧
      total (sectionsOf content) + 40 < 2 ^ 31 := by
  have hkinds := total_kinds_le hw.sections
  have hsize := hw.size
  rw [hlinked.text, hlinked.data, total_singleton, total_singleton] at hkinds
  obtain ⟨ht, hd⟩ := hlinked.section_mem
  refine ⟨(hw.sections t ht).size, (hw.sections d hd).size, ?_, hkinds, ?_⟩
  · exact total_nonneg fun b hb => hw.sections b (mem_bssOf.mp hb).1
  · unfold noffHeaderSize at hsize
    omega

namespace Converter.Loaded

variable (h : c.Loaded content (sectionsOf content)) (hlinked : Linked content t d)

include h hlinked

/-- The segments are the two sections. -/
theorem segments : c.Holds content c.noffH.code t ∧ c.Holds content c.noffH.initData d := by
  have hlast : (textOf (sectionsOf content)).getLast? = some t := by
    rw [hlinked.text]
    rfl
  refine ⟨h.text t hlast, ?_⟩
  rcases h.data with ⟨hnil, -⟩ | ⟨d', hd', hholds⟩
  · rw [hlinked.data] at hnil
    cases hnil
  · rw [hlinked.data] at hd'
    obtain rfl : d = d' := by simpa using hd'
    exact hholds

omit hlinked in
theorem uninitSize : c.noffH.uninitData.size = total (bssOf (sectionsOf content)) := by
  rcases h.bss with ⟨hnil, hzero⟩ | ⟨-, -, htotal⟩
  · rw [hnil, hzero]
    rfl
  · exact htotal

/-- The converted file is one that the loader can load. -/
theorem noffImage (hw : CoffFile content) : NoffImage (c.noffH.bytes ++ c.body) := by
  obtain ⟨ht, hd, hbss, hsum, htotal⟩ := hlinked.sizes hw
  obtain ⟨⟨htva, htsize, k, htk, -, htend⟩, ⟨hdva, hdsize, l, hdl, -, hdend⟩⟩ := h.segments hlinked
  have huninit := h.uninitSize
  have hlength := h.length
  have hlen : (c.noffH.bytes ++ c.body).length = 40 + c.body.length := by
    rw [List.length_append, NoffHeader.length_bytes]
    rfl
  have hstack : userStackSize = 1024 := rfl
  unfold noffHeaderSize at htk hdl
  refine ⟨?_, ?_, ?_, ?_, ⟨?_, ?_, ?_, ?_⟩, ?_, ?_, ?_, ?_⟩ <;>
    simp only [readHeader_output h, hlen]
  · unfold noffHeaderSize
    omega
  · exact h.magic
  · rw [htva, hlinked.textAddr]
  · rw [hdva, hlinked.dataAddr, htsize]
  · omega
  · omega
  · omega
  · omega
  · omega
  · omega
  · omega
  · omega

theorem numPages_eq (hw : CoffFile content) : c.noffH.numPages = programPages content t d := by
  obtain ⟨ht, hd, hbss, hsum, htotal⟩ := hlinked.sizes hw
  obtain ⟨htext, hdata⟩ := h.segments hlinked
  have hstack : userStackSize = 1024 := rfl
  unfold NoffHeader.numPages NoffHeader.size programPages
  rw [htext.size, hdata.size, h.uninitSize, Int.emod_eq_of_lt (by omega) (by omega)]

/-- The image of the converted file has the bytes of the sections. -/
theorem imageByte_eq (hw : CoffFile content) (a : Nat) :
    imageByte (c.noffH.bytes ++ c.body) a = programByte content t d a := by
  obtain ⟨ht, hd, -⟩ := hlinked.sizes hw
  obtain ⟨htext, hdata⟩ := h.segments hlinked
  have hbytes : ∀ {seg s}, c.Holds content seg s → 0 ≤ s.sSize → ∀ i : Nat, i < s.sSize.toNat →
      (c.noffH.bytes ++ c.body).getD (seg.inFileAddr + i).toNat 0 = (s.bytes content).getD i 0 := by
    intro seg s hholds _ i hi
    have hseg := hholds.isSegment
    obtain ⟨-, -, k, hk, -, -⟩ := hholds
    rw [← hseg.bytes]
    unfold Segment.bytes
    unfold noffHeaderSize at hk
    rw [hseg.size, List.getD_eq_getElem?_getD, List.getD_eq_getElem?_getD,
      List.getElem?_take_of_lt hi, List.getElem?_drop]
    congr 3
    omega
  unfold imageByte programByte
  simp only [readHeader_output h, htext.size, hdata.size]
  by_cases hcode : a < t.sSize.toNat
  · rw [if_pos (by omega), if_pos hcode]
    exact hbytes htext ht a hcode
  · rw [if_neg (by omega), if_neg hcode]
    by_cases hinit : a < t.sSize.toNat + d.sSize.toNat
    · rw [if_pos (by omega), if_pos hinit, ← hbytes hdata hd (a - t.sSize.toNat) (by omega)]
      congr 2
      omega
    · rw [if_neg (by omega), if_neg hinit]

end Converter.Loaded

end Converted

/-! ### The loaded program -/

section Started

variable {frames : List Nat} {n : Nat} {memory : Nat → Byte}

/-- The valid pages of a new address space. -/
theorem validEntry_started (hlen : frames.length = n) (va : Word) :
    (started ⟨some (newTable frames), n⟩ memory).validEntry va =
      (frames[va.toNat / pageSize]?).map fun f => (newEntry (va.toNat / pageSize) f).mapping := by
  have htable : (started ⟨some (newTable frames), n⟩ memory).mapping =
      some ((newTable frames).map TranslationEntry.mapping) := rfl
  unfold validEntry
  rw [htable, Option.bind_some]
  show (if va.toNat / pageSize < n then _ else none) = _
  by_cases hlt : va.toNat / pageSize < n
  · have hentry : ((newTable frames).map TranslationEntry.mapping)[va.toNat / pageSize]? =
        some (newEntry (va.toNat / pageSize) frames[va.toNat / pageSize]).mapping := by
      rw [List.getElem?_map, newTable, List.getElem?_mapIdx, List.getElem?_eq_getElem (hlen ▸ hlt)]
      rfl
    rw [if_pos hlt, hentry, List.getElem?_eq_getElem (hlen ▸ hlt)]
    rfl
  · rw [if_neg hlt, List.getElem?_eq_none (by omega)]
    rfl

/-- The byte at a virtual address of a new address space. -/
theorem virtualByte_started (hlen : frames.length = n) (hrange : ∀ f ∈ frames, f < numPhysPages)
    (va : Word) : (started ⟨some (newTable frames), n⟩ memory).virtualByte va =
      if va.toNat < n * pageSize then some (view frames memory va.toNat) else none := by
  unfold virtualByte mappedAddress
  rw [validEntry_started hlen]
  by_cases hlt : va.toNat < n * pageSize
  · have hpage : va.toNat / pageSize < frames.length := by
      rw [hlen, Nat.div_lt_iff_lt_mul (by decide)]
      exact hlt
    have hframe := hrange frames[va.toNat / pageSize] (List.getElem_mem hpage)
    have hphysical : (newEntry (va.toNat / pageSize) frames[va.toNat / pageSize]).mapping.physicalPage.toNat =
        frames[va.toNat / pageSize] := by
      unfold numPhysPages at hframe
      simp only [newEntry, TranslationEntry.mapping, BitVec.toNat_ofNat]
      omega
    rw [if_pos hlt, List.getElem?_eq_getElem hpage]
    simp only [Option.map_some, hphysical]
    unfold view
    rw [List.getD_eq_getElem?_getD, List.getElem?_eq_getElem hpage, Option.getD_some]
    rfl
  · have hpage : frames.length ≤ va.toNat / pageSize := by
      rw [hlen, Nat.le_div_iff_mul_le (by decide)]
      omega
    rw [if_neg hlt, List.getElem?_eq_none hpage]
    rfl

theorem distinctFrames_started (hlen : frames.length = n) (hrange : ∀ f ∈ frames, f < numPhysPages)
    (hnodup : frames.Nodup) : DistinctFrames (started ⟨some (newTable frames), n⟩ memory) := by
  have hentry : ∀ {va e}, (started ⟨some (newTable frames), n⟩ memory).validEntry va = some e →
      ∃ f, frames[va.toNat / pageSize]? = some f ∧ e.physicalPage = BitVec.ofNat 32 f := by
    intro va e he
    rw [validEntry_started hlen] at he
    obtain ⟨f, hf, rfl⟩ := Option.map_eq_some_iff.mp he
    exact ⟨f, hf, rfl⟩
  have hsmall : ∀ {f}, f ∈ frames → (BitVec.ofNat 32 f).toNat = f := by
    intro f hf
    have hlt := hrange f hf
    unfold numPhysPages at hlt
    rw [BitVec.toNat_ofNat]
    omega
  refine ⟨loadOK_initRegisters n, ⟨_, rfl, ?_⟩, fun va e he => ?_, fun va va' e e' he he' heq => ?_⟩
  · show n ≤ _
    rw [List.length_map, length_newTable, hlen]
  · obtain ⟨f, hf, hphysical⟩ := hentry he
    have hmem := List.mem_of_getElem? hf
    rw [hphysical, hsmall hmem]
    exact hrange f hmem
  · obtain ⟨f, hf, hphysical⟩ := hentry he
    obtain ⟨f', hf', hphysical'⟩ := hentry he'
    rw [hphysical, hphysical'] at heq
    have hff : f = f' := by
      rw [← hsmall (List.mem_of_getElem? hf), ← hsmall (List.mem_of_getElem? hf'), heq]
    rw [← hff] at hf'
    obtain ⟨hlt, hget⟩ := List.getElem?_eq_some_iff.mp hf
    obtain ⟨hlt', hget'⟩ := List.getElem?_eq_some_iff.mp hf'
    exact hnodup.getElem_inj_iff.mp (hget.trans hget'.symm)

end Started

section Runs

variable {content memory output : List Byte} {t d : Scnhdr}

/-- The machine with a loaded program stands for the processor. -/
theorem represents_started {frames : List Nat} {n : Nat} {mainMemory : Nat → Byte}
    (hlen : frames.length = n) (hn : n = programPages content t d)
    (hrange : ∀ f ∈ frames, f < numPhysPages) (hnodup : frames.Nodup)
    (hview : ∀ va, va < n * pageSize → view frames mainMemory va = programByte content t d va) :
    Represents (started ⟨some (newTable frames), n⟩ mainMemory) (processor content t d) := by
  have hzero : initRegisters n 0 = 0 := rfl
  refine ⟨distinctFrames_started hlen hrange hnodup, hzero, fun r hr => ?_, rfl, rfl, fun va => ?_,
    fun va => ?_⟩
  · have hload : (initRegisters n loadReg).toNat = 0 := rfl
    rw [loaded_of_integerReg hr]
    show (if r = stackReg then _ else _) = if r.val = 0 then 0 else
      if r.val = (initRegisters n loadReg).toNat then _ else initRegisters n r
    rw [hload, hn]
    have hle : r.val ≤ 33 := hr
    by_cases hr0 : r.val = 0
    · rw [if_pos hr0, if_neg]
      rintro rfl
      exact absurd hr0 (by decide)
    · rw [if_neg hr0, if_neg hr0]
      unfold initRegisters
      by_cases hstack : r = stackReg
      · rw [hstack, if_pos rfl, Function.update_self]
      · have hpc : r ≠ pcReg := by
          rintro rfl
          exact absurd hle (by decide)
        have hnext : r ≠ nextPCReg := by
          rintro rfl
          exact absurd hle (by decide)
        rw [if_neg hstack, Function.update_of_ne hstack, Function.update_of_ne hnext,
          Function.update_of_ne hpc]
  · rw [virtualByte_started hlen hrange, hn]
    show (if va.toNat < programPages content t d * pageSize then _ else _) = _
    by_cases hlt : va.toNat < programPages content t d * pageSize
    · rw [if_pos hlt, if_pos hlt, hview va.toNat (hn ▸ hlt)]
    · rw [if_neg hlt, if_neg hlt]
  · show va.toNat < programPages content t d * pageSize ↔ _
    rw [validEntry_started hlen, ← hn, ← Nat.div_lt_iff_lt_mul (by decide), ← hlen]
    constructor
    · intro hlt
      rw [List.getElem?_eq_getElem hlt]
      exact ⟨_, rfl, rfl⟩
    · rintro ⟨e, he, -⟩
      obtain ⟨f, hf, -⟩ := Option.map_eq_some_iff.mp he
      exact (List.getElem?_eq_some_iff.mp hf).1

/-- A program that was linked for Nachos, converted and loaded: the machine stands for the processor
that has the sections in its memory, and it executes what the processor executes while the
instructions are portable, until one of them raises an exception. -/
theorem converted_program_runs (hw : CoffFile content) (hlinked : Linked content t d)
    (hconvert : coff2noff content memory = some output) (isNull : Bool) {physPageBitMap : BitMap}
    (hbits : physPageBitMap.numBits = numPhysPages)
    (hclear : programPages content t d ≤ physPageBitMap.numClear) (mainMemory : Nat → Byte) :
    ∃ space bitmap loaded, addrSpace output isNull physPageBitMap mainMemory = .ok (space, bitmap, loaded) ∧
      Represents (started space loaded) (processor content t d) ∧
      ∀ n, Runs.AllStates instructionStep PortableState (started space loaded) (List.replicate n ()) →
        ∃ k ≤ n, ∃ m c, Runs.run instructionStep (started space loaded) (List.replicate k ()) = some m ∧
          Runs.Path (fun c _ c' => Cpu.Step c c') (processor content t d) (List.replicate k ()) c ∧
          Represents m c ∧ (k < n → c.Raises ∧ ∃ e m', Machine.oneInstruction m = .trap e m') := by
  rcases coff2noff_cases memory hw with ⟨c, hout, hloaded, -⟩ | ⟨hnone, -⟩
  · rw [hconvert] at hout
    obtain rfl := Option.some.inj hout
    have himage := hloaded.noffImage hlinked hw
    have hpages : (readHeader (c.noffH.bytes ++ c.body)).numPages = programPages content t d := by
      rw [readHeader_output hloaded, hloaded.numPages_eq hlinked hw]
    obtain ⟨frames, bitmap, loaded, hspace, hallocated, hlen, hview⟩ :=
      himage.loads isNull hbits (by rwa [hpages]) mainMemory
    have hrep : Represents (started ⟨some (newTable frames), _⟩ loaded) (processor content t d) :=
      represents_started hlen hpages (fun f hf => hbits ▸ hallocated.range f hf) hallocated.nodup
        fun va hva => (hview va hva).trans (hloaded.imageByte_eq hlinked hw va)
    exact ⟨_, bitmap, loaded, hspace, hrep, fun n hok => hrep.run n hok⟩
  · rw [hconvert] at hnone
    cases hnone

/-- Four bytes of code at address 0 and four bytes of initialised data behind them. -/
def textData : List Byte :=
  headers 2 ++ sectionHeader [0x2e, 0x74, 0x65, 0x78, 0x74, 0, 0, 0] 0 4 156 ++
    sectionHeader [0x2e, 0x64, 0x61, 0x74, 0x61, 0, 0, 0] 4 4 160 ++
    [0x25, 0x10, 0x00, 0x00, 1, 2, 3, 4]

/-- The program is converted, and runs on a machine on which nothing else was loaded. -/
theorem converted_program_runs_textData :
    ∃ output, coff2noff textData [] = some output ∧ ∃ space bitmap loaded,
      addrSpace output false (BitMap.new numPhysPages) (fun _ => 0xff) = .ok (space, bitmap, loaded) ∧
      Represents (started space loaded) (processor textData ⟨chars ".text", 0, 4, 156⟩
        ⟨chars ".data", 4, 4, 160⟩) := by
  have hsections : sectionsOf textData = [⟨chars ".text", 0, 4, 156⟩, ⟨chars ".data", 4, 4, 160⟩] := by
    decide
  have hw : CoffFile textData := by
    refine ⟨?_, by decide⟩
    rw [hsections, List.forall_mem_cons, List.forall_mem_singleton]
    exact ⟨⟨by decide, by decide, by decide⟩, by decide, by decide, by decide⟩
  have hlinked : Linked textData ⟨chars ".text", 0, 4, 156⟩ ⟨chars ".data", 4, 4, 160⟩ :=
    ⟨by decide, by decide, rfl, rfl⟩
  have hconvert : (coff2noff textData []).isSome = true := by decide
  obtain ⟨output, houtput⟩ := Option.isSome_iff_exists.mp hconvert
  obtain ⟨space, bitmap, loaded, hspace, hrep, -⟩ := converted_program_runs hw hlinked houtput false
    (show (BitMap.new numPhysPages).numBits = numPhysPages from rfl) (by decide +kernel) fun _ => 0xff
  exact ⟨output, houtput, space, bitmap, loaded, hspace, hrep⟩

end Runs

end Coff

end Nachos
