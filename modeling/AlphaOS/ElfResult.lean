import AlphaOS.ProgramMap

/-! What `elf_load` reports and hands out, and what `process_load_data` makes of it. -/
namespace AlphaOS.Elf
open BlockHeap CString Kheap Tasks WordMemory

/-- The file has these bytes: `fstat` gives their number, `fread` stores them at the image and
`fclose` leaves them there. -/
structure FileCalls.Delivers (files : FileCalls) (s : Kmem) (file : List Byte) : Prop where
  small : file.length < 2 ^ 31
  size : ¬ (statStep files s).1 < 0 → (statStep files s).2.1 = BitVec.ofNat 32 file.length
  read : ¬ (readStep files s).1 < 0 → BytesAt (readStep files s).2.mem (imageStep files s).1 file
  close : BytesAt (closeStep files s).mem (imageStep files s).1 file →
    BytesAt (elfLoad files s).2.2.mem (imageStep files s).1 file

/-- An `elf_file` is handed out that holds the whole file and passes the validation. -/
structure Handed (files : FileCalls) (s : Kmem) (file : List Byte) : Prop where
  file_ne : (elfLoad files s).2.1 ≠ 0
  image_ne : elfMemory (elfLoad files s).2.2.mem (elfLoad files s).2.1 ≠ 0
  bytes : BytesAt (elfLoad files s).2.2.mem
    (elfMemory (elfLoad files s).2.2.mem (elfLoad files s).2.1) file
  valid : elfValidateLoaded (elfLoad files s).2.2.mem
    (elfHeader (elfLoad files s).2.2.mem (elfLoad files s).2.1) = 0

/-- Either 0 and a whole, valid file, or a negative error and nothing handed out. -/
def ElfLoadLaw (files : FileCalls) (s : Kmem) (file : List Byte) : Prop :=
  (elfLoad files s).1 = 0 ∧ Handed files s file ∨ (elfLoad files s).1 < 0 ∧ (elfLoad files s).2.1 = 0

/-- The file was opened and read but is no ELF file. -/
structure NotElf (files : FileCalls) (s : Kmem) : Prop where
  opened : 0 < (openStep files s).1
  stat : ¬ (statStep files s).1 < 0
  read : ¬ (readStep files s).1 < 0
  format : (loadStep files s).1 = -einformat

/-- The load found room for the `elf_file` and the image, and the file was opened, read and
accepted. -/
structure LoadsWhole (files : FileCalls) (s : Kmem) : Prop where
  file_ne : (fileStep s).1 ≠ 0
  image_ne : (imageStep files s).1 ≠ 0
  loads : Loads files s

variable {files : FileCalls} {s : Kmem} {file : List Byte}

/-- The size of a file that was read is not 0. -/
lemma Loads.size_ne (h : Loads files s) : (statStep files s).2.1 ≠ 0 := by
  intro hzero
  refine h.read ?_
  rw [readStep, FileCalls.fread, if_pos (.inl hzero)]
  exact neg_neg_of_pos (by decide)

/-- The bytes of the image lie in blocks that were free when it was allocated. -/
lemma FileCalls.Delivers.image_block (h : files.Delivers s file) (hloads : Loads files s)
    (hne : (imageStep files s).1 ≠ 0) : ∃ a < 25600, (imageStep files s).1 = blockAddr a ∧
      a ∈ imageBlocks files s ∧ ∀ n, n < file.length ∨ n < 4096 →
        ∃ b, pageOf (blockAddr a + BitVec.ofNat 32 n) = 4096 + b ∧
          (b < 25600 → IsFree (statStep files s).2.2.entries b) := by
  have hsmall := h.small
  have hsize := h.size hloads.stat
  have hnz := hloads.size_ne
  have hlen : (statStep files s).2.1.toNat = file.length := by
    rw [hsize, BitVec.toNat_ofNat]
    omega
  have hpos : 0 < file.length := by
    rcases Nat.eq_zero_or_pos file.length with hz | hp
    · exact absurd (BitVec.eq_of_toNat_eq (y := 0) (hlen.trans hz)) hnz
    · exact hp
  have hblocks := heapBlocksFor_eq (statStep files s).2.1
  rw [hlen] at hblocks
  obtain heq | ⟨a, ha, hfree, heq⟩ := kzalloc_shape (statStep files s).2.2 (statStep files s).2.1
  · exact absurd (congrArg Prod.fst heq) hne
  · have haddr : (imageStep files s).1 = blockAddr a := congrArg Prod.fst heq
    refine ⟨a, ha, haddr, ⟨a, haddr, le_rfl, ha, by omega⟩, fun n hn => ?_⟩
    refine ⟨a + n / 4096, ?_, fun hlt => hfree (a + n / 4096) (by omega) (by omega) hlt⟩
    rw [Processes.pageOf_blockAddr_byte (by omega) (by omega), Nat.add_assoc]

/-- The `elf_file` of a load is not among the blocks of its image. -/
lemma FileCalls.Spares.file_apart (h : files.Spares ∅ s) {f : ℕ} (hf : f < 25600)
    (hfile : (fileStep s).1 = blockAddr f) : ¬ IsFree (statStep files s).2.2.entries f := by
  exact h.statStep_taken (by simp) (.inr ⟨hf, hfile⟩)

lemma elfProcessLoaded_fst (mem : Mem) (ptr : Word) :
    (elfProcessLoaded mem ptr).1 = elfValidateLoaded mem (elfHeader mem ptr) := by
  unfold elfProcessLoaded
  dsimp only
  split_ifs with hneg
  · rfl
  · unfold elfValidateLoaded at hneg ⊢
    split_ifs at hneg ⊢
    · rfl
    · exact absurd (show (-einformat : ℤ) < 0 by decide) hneg

lemma elfValidateLoaded_cases (mem : Mem) (header : Word) :
    elfValidateLoaded mem header = 0 ∨ elfValidateLoaded mem header = -einformat := by
  unfold elfValidateLoaded
  split_ifs
  · exact .inl rfl
  · exact .inr rfl

/-- The image is none of the words the pass over the program headers writes. -/
lemma FileCalls.Delivers.image_apart (h : files.Delivers s file) (hspares : files.Spares ∅ s)
    (hwhole : LoadsWhole files s) {n : ℕ} (hn : n < file.length ∨ n < 4096) :
    ¬ InRange ((fileStep s).1 + 116) 16 ((imageStep files s).1 + BitVec.ofNat 32 n) := by
  obtain ⟨hfne, hine, hloads⟩ := hwhole
  obtain ⟨f, hf, -, hfeq, -⟩ := (fileStep_cases s).resolve_left fun heq => hfne (by rw [heq])
  have hfaddr : (fileStep s).1 = blockAddr f := by rw [hfeq]
  obtain ⟨a, ha, hiaddr, -, hpages⟩ := h.image_block hloads hine
  obtain ⟨b, hpage, hfree⟩ := hpages n hn
  intro hin
  have hfpage : pageOf ((imageStep files s).1 + BitVec.ofNat 32 n) = 4096 + f := by
    rw [hfaddr] at hin
    have hbase := blockAddr_toNat (b := f) (by omega)
    have hsum := toNat_add_ofNat (a := blockAddr f) (k := 116) (by omega)
    have hlt := ((imageStep files s).1 + BitVec.ofNat 32 n).isLt
    unfold InRange at hin
    rw [BitVec.toNat_sub] at hin
    change (2 ^ 32 - (blockAddr f + BitVec.ofNat 32 116).toNat + _) % 2 ^ 32 < 16 at hin
    unfold pageOf
    omega
  rw [hiaddr, hpage] at hfpage
  obtain rfl : b = f := by omega
  exact hspares.file_apart hf hfaddr (hfree hf)

/-- The image was validated. -/
lemma LoadsWhole.valid (h : LoadsWhole files s) (hspares : files.Spares ∅ s) :
    elfValidateLoaded (readStep files s).2.mem (imageStep files s).1 = 0 := by
  have hread : elfHeader (readStep files s).2.mem (fileStep s).1 = (imageStep files s).1 :=
    hspares.elfMemory_readStep h.file_ne
  have haccepted := h.loads.accepted
  rw [loadStep, elfProcessLoaded_fst, hread] at haccepted
  rcases elfValidateLoaded_cases (readStep files s).2.mem (imageStep files s).1 with hok | hbad
  · exact hok
  · rw [hbad] at haccepted
    exact absurd (show (-einformat : ℤ) < 0 by decide) haccepted

/-- A load with room for everything hands out the whole, valid file. -/
lemma LoadsWhole.handed (hwhole : LoadsWhole files s) (hspares : files.Spares ∅ s)
    (hfile : files.Delivers s file) : Handed files s file := by
  have hloads := hwhole.loads
  obtain ⟨a, ha, hiaddr, himage, -⟩ := hfile.image_block hloads hwhole.image_ne
  have hout : (elfLoad files s).2.1 = (fileStep s).1 := by rw [hloads.elfLoad_eq]
  have hpointer := hspares.elfMemory_eq hloads hwhole.file_ne
  have hprocessed : ∀ n, n < file.length ∨ n < 4096 →
      (loadStep files s).2 ((imageStep files s).1 + BitVec.ofNat 32 n) =
        (readStep files s).2.mem ((imageStep files s).1 + BitVec.ofNat 32 n) :=
    fun n hn => elfProcessLoaded_frame (hfile.image_apart hspares hwhole hn)
  have hbytes : BytesAt (loadStep files s).2 (imageStep files s).1 file :=
    (hfile.read hloads.read).congr fun n hn => hprocessed n (.inl hn)
  -- the header is in the image's first block, which `fclose` spares
  have hheader : ∀ n < 46, (elfLoad files s).2.2.mem ((imageStep files s).1 + BitVec.ofNat 32 n) =
      (readStep files s).2.mem ((imageStep files s).1 + BitVec.ofNat 32 n) := by
    intro n hn
    rw [← hprocessed n (.inr (by omega))]
    have hclosed : (closeStep files s).mem = (loadStep files s).2 := by rw [hloads.closeStep_eq]; rfl
    rw [← hclosed]
    refine hspares.fcloseImage.mem _ ⟨a, himage, ?_⟩
    rw [hiaddr, Processes.pageOf_blockAddr_byte (by omega) (by omega)]
    omega
  rw [← hout] at hpointer
  refine ⟨hout ▸ hwhole.file_ne, hpointer ▸ hwhole.image_ne, ?_, ?_⟩
  · rw [hpointer]
    refine hfile.close ?_
    rw [hloads.closeStep_eq]
    exact hbytes
  · change elfValidateLoaded _ (elfMemory (elfLoad files s).2.2.mem (elfLoad files s).2.1) = 0
    rw [hpointer, Processes.elfValidateLoaded_congr hheader, hwhole.valid hspares]

/-- What is handed out comes from a load with room for everything. -/
lemma Handed.loadsWhole (h : Handed files s file) (hspares : files.Spares ∅ s) :
    LoadsWhole files s := by
  obtain ⟨hloads, hout⟩ := Loads.of_handed h.file_ne
  have hfne : (fileStep s).1 ≠ 0 := by
    rw [← hout]
    exact h.file_ne
  have hpointer := hspares.elfMemory_eq hloads hfne
  rw [← hout] at hpointer
  refine ⟨hfne, ?_, hloads⟩
  rw [← hpointer]
  exact h.image_ne

/-- `elf_load` keeps to its law exactly when it loads the whole file. -/
lemma elfLoadLaw_iff (hspares : files.Spares ∅ s) (hfile : files.Delivers s file) :
    ElfLoadLaw files s file ↔ LoadsWhole files s := by
  have hzero := elfLoad_fst files s
  constructor
  · intro h
    rcases h with ⟨-, hhanded⟩ | ⟨hneg, -⟩
    · exact hhanded.loadsWhole hspares
    · omega
  · exact fun h => .inl ⟨hzero, h.handed hspares hfile⟩

end AlphaOS.Elf

namespace AlphaOS.Processes
open BlockHeap CString Elf Kheap Paging Tasks WordMemory

/-- A file is loaded as ELF exactly when it is accepted, as a flat binary exactly when it was
read and is no ELF file, and a success never leaves a null `elf_file`. -/
structure LoadDataLaw (files : FileCalls) (k : Kernel) (process : Word) : Prop where
  elf : (processLoadData files k process).1 = 0 ∧
      ((processLoadData files k process).2.procs process).fileType = processFiletypeElf ↔
    Loads files k.kmem
  binary : processLoadData files k process =
      processLoadBinary files (processLoadElf files k process).2 process ↔ NotElf files k.kmem
  file_ne : (processLoadData files k process).1 = 0 →
    ((processLoadData files k process).2.procs process).fileType = processFiletypeElf →
    ((processLoadData files k process).2.procs process).data ≠ 0

variable {files : FileCalls} {k : Kernel} {process : Word} {file : List Byte}

lemma processLoadElf_eq (files : FileCalls) (k : Kernel) (process : Word) :
    processLoadElf files k process = (0, (k.withKmem (elfLoad files k.kmem).2.2).setProcess process
      { k.procs process with
        fileType := processFiletypeElf
        data := (elfLoad files k.kmem).2.1 }) := by
  have hzero := elfLoad_fst files k.kmem
  rw [processLoadElf]
  simp only [hzero, lt_self_iff_false, if_false]
  rfl

/-- The binary loader is never reached. -/
lemma processLoadData_eq_elf (files : FileCalls) (k : Kernel) (process : Word) :
    processLoadData files k process = processLoadElf files k process := by
  rw [processLoadData, processLoadElf_eq]
  exact if_neg (show (0 : ℤ) ≠ -einformat by decide)

/-- A success of the binary loader leaves a binary. -/
lemma processLoadBinary_fileType (h : (processLoadBinary files k process).1 = 0) :
    ((processLoadBinary files k process).2.procs process).fileType = processFiletypeBinary := by
  unfold processLoadBinary at h ⊢
  dsimp only at h ⊢
  split_ifs at h ⊢ with hopen hstat hdata hread
  · exact absurd (show (-eio : ℤ) = 0 from h) (by decide)
  · exact absurd h hstat
  · exact absurd (show (-enomem : ℤ) = 0 from h) (by decide)
  · exact absurd (show (-eio : ℤ) = 0 from h) (by decide)
  · simp

/-- `elf_load` and `process_load_data` keep to their laws exactly when the whole file is
loaded. -/
theorem processLoadData_iff (hspares : files.Spares ∅ k.kmem)
    (hfile : files.Delivers k.kmem file) :
    (ElfLoadLaw files k.kmem file ∧ LoadDataLaw files k process) ↔ LoadsWhole files k.kmem := by
  have hlaw := elfLoadLaw_iff hspares hfile
  refine ⟨fun h => hlaw.1 h.1, fun h => ⟨hlaw.2 h, ?_⟩⟩
  have hloads := h.loads
  have hout : (elfLoad files k.kmem).2.1 = (fileStep k.kmem).1 := by rw [hloads.elfLoad_eq]
  have helf : (processLoadData files k process).1 = 0 ∧
      ((processLoadData files k process).2.procs process).fileType = processFiletypeElf ∧
      ((processLoadData files k process).2.procs process).data = (fileStep k.kmem).1 := by
    rw [processLoadData_eq_elf, processLoadElf_eq]
    simp [hout]
  refine ⟨iff_of_true ⟨helf.1, helf.2.1⟩ hloads, iff_of_false (fun heq => ?_) (fun hnot => ?_),
    fun _ _ => ?_⟩
  · have hbinary := @processLoadBinary_fileType files (processLoadElf files k process).2 process
      (by rw [← heq]; exact helf.1)
    rw [← heq, helf.2.1] at hbinary
    exact absurd hbinary (by decide)
  · have hformat := hnot.format
    have haccepted := hloads.accepted
    rw [hformat] at haccepted
    exact haccepted (by decide)
  · rw [helf.2.2]
    exact h.file_ne

/-- The served file is delivered. -/
lemma delivers_served {s : Kmem} {c : ℕ} (hfile : Sized file) (h : Frontier s c)
    (hroom : c + 1 + fileBlocks file ≤ 25600) : (serve file).Delivers s file := by
  have hsmall := hfile.small
  refine ⟨by omega, fun _ => rfl, fun _ => ?_, fun hbytes => hbytes⟩
  rw [(imageStep_served hfile h hroom).1]
  exact (readStep_bytes hfile h hroom).1

theorem processLoadData_iff_codeSegment :
    ElfLoadLaw (serve (oneSegment codeSegment)) emptyKmem (oneSegment codeSegment) ∧
    LoadDataLaw (serve (oneSegment codeSegment)) (zeroKernel emptyKmem) 0 := by
  have hfile := elfImage_oneSegment codeSegment
  have hblocks := fileBlocks_oneSegment codeSegment
  have hroom : 0 + 1 + fileBlocks (oneSegment codeSegment) ≤ 25600 := by omega
  refine (processLoadData_iff (spares_served hfile.sized emptyKmem_frontier hroom)
    (delivers_served hfile.sized emptyKmem_frontier hroom)).2 ⟨?_, ?_, ?_⟩
  · rw [(fileStep_frontier emptyKmem_frontier (by omega)).1]
    exact blockAddr_ne_zero (by omega)
  · rw [(imageStep_served hfile.sized emptyKmem_frontier hroom).1]
    exact blockAddr_ne_zero (by omega)
  · exact loads_served hfile emptyKmem_frontier hroom

/-- The calls on a file that does not exist. -/
def missing : FileCalls where
  fopen s := (0, s)
  fstat s _ := (-einvarg, 0, s)
  read s _ _ _ _ := (-einvarg, s)
  fclose s _ := s

/-- A missing file is reported as loaded, with a null `elf_file`. -/
theorem processLoadData_missing : (elfLoad missing emptyKmem).1 = 0 ∧
    (elfLoad missing emptyKmem).2.1 = 0 ∧
    (processLoadData missing (zeroKernel emptyKmem) 0).1 = 0 ∧
    ((processLoadData missing (zeroKernel emptyKmem) 0).2.procs 0).fileType = processFiletypeElf ∧
    ((processLoadData missing (zeroKernel emptyKmem) 0).2.procs 0).data = 0 := by
  have hout : elfLoad missing emptyKmem = (0, 0, (fileStep emptyKmem).2) := rfl
  have hload : (elfLoad missing (zeroKernel emptyKmem).kmem).2.1 = 0 := congrArg (·.2.1) hout
  rw [processLoadData_eq_elf, processLoadElf_eq, hload, hout]
  simp

end AlphaOS.Processes
