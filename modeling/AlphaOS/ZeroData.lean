import AlphaOS.BlockKeeps
import AlphaOS.ElfResult
import AlphaOS.ProgramReach

/-! Zero-initialised data: what a process reads behind the part of a segment that is in the file. -/
namespace AlphaOS.Elf
open BlockHeap Kheap Paging Tasks WordMemory

/-- The blocks of the image hold the bytes of `old` when they are allocated, and `fread` stores nothing
behind the bytes of the file. -/
structure FileCalls.KeepsSlack (files : FileCalls) (s : Kmem) (file : List Byte) (old : Mem) : Prop where
  found : ∀ b ∈ imageBlocks files s, ∀ x, pageOf x = 4096 + b → (statStep files s).2.2.mem x = old x
  read : ∀ x, ¬ InRange (imageStep files s).1 file.length x →
    (readStep files s).2.mem x = (storeStep files s).mem x

/-- A byte of the image: one of the file, and behind the file what the block held before. -/
def imageByte (file : List Byte) (old : Mem) (image : Word) (o : ℕ) : Byte :=
  file[o]?.getD (old (image + BitVec.ofNat 32 o))

end AlphaOS.Elf

namespace AlphaOS.Processes
open BlockHeap CString Elf Kheap Paging Tasks WordMemory

/-- A segment with more bytes in memory than in the file. -/
structure HasTail (h : Phdr) : Prop where
  load : h.type = ptLoad
  longer : h.filesz.toNat < h.memsz.toNat
  congruent : h.vaddr.toNat % 4096 = h.offset.toNat % 4096

/-- The address of a byte that is in memory only. -/
def TailByte (hs : List Phdr) (va : Word) : Prop :=
  ∃ g ∈ hs, HasTail g ∧ ∃ n, g.filesz.toNat ≤ n ∧ n < g.memsz.toNat ∧ va = g.vaddr + BitVec.ofNat 32 n

/-- The address lies in the user stack or in the blocks of the image. -/
def InsideProgram (image stack : Word) (blocks : ℕ) (x : Word) : Prop :=
  InRange stack 16384 x ∨ InRange image (4096 * blocks) x

/-- The address lies in the user stack, or in the image at a byte that is 0 in the file, or behind
the file and was 0 before. -/
def ZeroInside (file : List Byte) (old : Mem) (image stack : Word) (blocks : ℕ) (x : Word) : Prop :=
  InRange stack 16384 x ∨
    InRange image (4096 * blocks) x ∧ imageByte file old image (x - image).toNat = 0

section Bytes
variable {files : FileCalls} {k k' : Kernel} {slot : Fin maxProcesses} {process : Word}
  {file : List Byte} {old : Mem}

/-- An image block is not the block of the `elf_file`. -/
lemma imageBlocks_file (hspares : files.Spares ∅ (processStep k).2) {b f : ℕ} (hf : f < 25600)
    (hfile : (fileStep (processStep k).2).1 = blockAddr f)
    (hb : b ∈ imageBlocks files (processStep k).2) :
    b < 25600 ∧ ¬ IsFree (imageStep files (processStep k).2).2.entries b ∧ b ≠ f := by
  obtain ⟨a, ha, h1, h2, h3⟩ := hb
  have hmem : f ∈ ∅ ∪ fileBlock (processStep k).2 := .inr ⟨hf, hfile⟩
  have htaken := hspares.statStep_taken (by simp) hmem
  obtain heq | ⟨c, hc, hfree, heq⟩ := kzalloc_shape (statStep files (processStep k).2).2.2
    (statStep files (processStep k).2).2.1
  · rw [imageStep, heq] at ha
    exact absurd ha.symm (blockAddr_ne_zero (by omega))
  · obtain rfl : c = a := by
      rw [imageStep, heq] at ha
      exact blockAddr_inj (by omega) (by omega) ha
    refine ⟨h2, fun hnot => ?_, ?_⟩
    · rw [imageStep, heq] at hnot
      change heapGetEntryType (overwrite _ c _ _ (b : ℤ)) = _ at hnot
      rw [overwrite_natCast, if_pos ⟨h1, h3⟩, blockEntry_type] at hnot
      exact absurd hnot (by decide)
    · rintro rfl
      exact htaken (hfree b h1 h3 h2)

/-- An address in the blocks of the image. -/
lemma imageBlocks_inRange {s : Kmem} {x : Word}
    (hx : InRange (imageStep files s).1 (4096 * imageBlockCount files s) x) :
    ∃ b ∈ imageBlocks files s, pageOf x = 4096 + b := by
  have hlt : (x - (imageStep files s).1).toNat < 4096 * imageBlockCount files s := hx
  obtain heq | ⟨a, ha, -, heq⟩ := kzalloc_shape (statStep files s).2.2 (statStep files s).2.1
  · have hnull : (imageStep files s).1 = 0 := congrArg Prod.fst heq
    rw [imageBlockCount, if_pos hnull] at hlt
    omega
  · have himage : (imageStep files s).1 = blockAddr a := congrArg Prod.fst heq
    have hcount : imageBlockCount files s ≤ 25600 - a := by
      have haddr := blockAddr_toNat (b := a) (by omega)
      rw [imageBlockCount, himage, if_neg (blockAddr_ne_zero (by omega)), haddr]
      omega
    rw [himage] at hx
    obtain ⟨hlow, hhigh⟩ := pageOf_inRange (by omega) le_rfl hx
    exact ⟨pageOf x - 4096, (mem_imageBlocks ha himage).2 (by omega), by omega⟩

/-- The process finds the image as `fread` left it. -/
theorem ProgramLoaded.image_mem (h : ProgramLoaded files k slot process k') {b : ℕ}
    (hb : b ∈ imageBlocks files (processStep k).2) {x : Word} (hx : pageOf x = 4096 + b) :
    k'.kmem.mem x = (readStep files (processStep k).2).2.mem x := by
  obtain ⟨dir, table, hmem⟩ := h.memory
  obtain ⟨f, hf, -, hfeq, -⟩ := (fileStep_cases (processStep k).2).resolve_left fun heq =>
    hmem.file_ne (by rw [heq])
  have hfile : (fileStep (processStep k).2).1 = blockAddr f := by rw [hfeq]
  obtain ⟨hlt, htaken, hne⟩ := imageBlocks_file h.spares hf hfile hb
  replace htaken : ¬ IsFree (dataStep files k).2.2.entries b := by
    exact h.spares.image_taken hmem.loads hb htaken
  have hstack : ¬ IsFree (stackStep files k).2.entries b := by
    rw [IsFree, stackStep, kzalloc_taken _ _ hlt htaken]
    exact htaken
  have hkept : k'.kmem.mem x = (stackStep files k).2.mem x := by
    refine hmem.kept x ?_
    rw [hx]
    rintro (h0 | ⟨c, -, hc, heq⟩)
    · omega
    · obtain rfl : b = c := by omega
      exact hstack hc
  have hoff : ¬ InRange ((fileStep (processStep k).2).1 + 116) 16 x := by
    have hword := toNat_add_ofNat (a := blockAddr f) (k := 116) (by
      rw [blockAddr_toNat (by omega)]
      omega)
    rw [blockAddr_toNat (by omega)] at hword
    have hlt' := x.isLt
    rw [hfile, InRange, BitVec.toNat_sub]
    unfold pageOf at hx
    change ¬ (2 ^ 32 - (blockAddr f + BitVec.ofNat 32 116).toNat + x.toNat) % 2 ^ 32 < 16
    omega
  rw [hkept, stackStep, kzalloc_taken_mem _ (by decide) (by decide) hlt htaken hx]
  refine (h.spares.fcloseImage.mem x ⟨b, hb, hx⟩).trans ?_
  rw [hmem.loads.closeStep_eq]
  exact elfProcessLoaded_frame hoff

/-- The process has the stack that was allocated for it. -/
lemma ProgramLoaded.stack_eq (h : ProgramLoaded files k slot process k') :
    (stackStep files k).1 ≠ 0 ∧ (k'.procs process).stack = (stackStep files k).1 := by
  obtain ⟨res, hres, hload⟩ := h.load
  obtain ⟨slot', mem, hacc⟩ := processLoad_accepted hload hres
  obtain rfl : slot = slot' := Option.some.inj (h.slot_eq.symm.trans hacc.slot_eq)
  refine ⟨hacc.stack_ne, ?_⟩
  rw [hacc.procs h.task, hacc.process_eq, loadedKernel_procs]

/-- Its bytes are 0. -/
theorem ProgramLoaded.stack_mem (h : ProgramLoaded files k slot process k') {x : Word}
    (hx : InRange (stackStep files k).1 16384 x) : k'.kmem.mem x = 0 := by
  obtain ⟨dir, table, hmem⟩ := h.memory
  obtain ⟨d, hd, -, heq⟩ := stackStep_block h.stack_eq.1
  rw [heq] at hx
  have hpage := @pageOf_inRange d 4 16384 (by omega) (by omega) x hx
  have hkept : k'.kmem.mem x = (stackStep files k).2.mem x := by
    refine hmem.kept x ?_
    rintro (h0 | ⟨c, -, hfree, hc⟩)
    · omega
    · have hentry : (stackStep files k).2.entries c = blockEntry 4 (c - d) := by
        rw [heq]
        exact (overwrite_natCast _ d 4 _ c).trans (if_pos (by omega))
      rw [IsFree, hentry, blockEntry_type] at hfree
      exact absurd hfree (by decide)
  rw [hkept, heq]
  exact if_pos hx

/-- The process finds the bytes of the file in its image, and behind them what the blocks held
before. -/
theorem ProgramLoaded.image_byte (h : ProgramLoaded files k slot process k')
    (hfile : files.Delivers (processStep k).2 file)
    (hslack : files.KeepsSlack (processStep k).2 file old) {x : Word}
    (hx : InRange (loadedImage files k) (4096 * imageBlockCount files (processStep k).2) x) :
    k'.kmem.mem x = imageByte file old (loadedImage files k) (x - loadedImage files k).toNat := by
  obtain ⟨dir, table, hmem⟩ := h.memory
  have hsmall := hfile.small
  obtain ⟨b, hb, hpage⟩ := imageBlocks_inRange hx
  have hplace : loadedImage files k + BitVec.ofNat 32 (x - loadedImage files k).toNat = x := by
    rw [BitVec.ofNat_toNat, BitVec.setWidth_eq, add_sub_cancel]
  rw [h.image_mem hb hpage, imageByte]
  by_cases hin : (x - loadedImage files k).toNat < file.length
  · have hbyte := (hfile.read hmem.loads.read).get hin
    rw [List.getElem?_eq_getElem hin, Option.getD_some, ← hbyte]
    exact congrArg _ hplace.symm
  rw [List.getElem?_eq_none (not_lt.1 hin), Option.getD_none, hplace, hslack.read x hin]
  obtain ⟨f, hf, -, hfeq, -⟩ := (fileStep_cases (processStep k).2).resolve_left fun heq =>
    hmem.file_ne (by rw [heq])
  have hfaddr : (fileStep (processStep k).2).1 = blockAddr f := by rw [hfeq]
  obtain ⟨-, -, hne⟩ := imageBlocks_file h.spares hf hfaddr hb
  have hword : ¬ InRange ((fileStep (processStep k).2).1 + 112) 4 x := by
    intro hptr
    rw [hfaddr] at hptr
    have hfpage := elfMemory_page hf hptr
    omega
  have hlength : (statStep files (processStep k).2).2.1.toNat = file.length := by
    rw [hfile.size hmem.loads.stat, BitVec.toNat_ofNat]
    omega
  have himage : (imageStep files (processStep k).2).2.mem x =
      (statStep files (processStep k).2).2.2.mem x :=
    kzalloc_mem_of_not fun _ => by
      rw [hlength]
      exact hin
  exact (if_neg hword).trans (himage.trans (hslack.found b hb x hpage))

/-- Zero-initialised data reads as 0 if every byte of it leads to zeros inside the program, and when
all of it leads inside the program, only then. -/
theorem tailZero_iff (h : ProgramLoaded files k slot process k')
    (hfile : files.Delivers (processStep k).2 file)
    (hslack : files.KeepsSlack (processStep k).2 file old) :
    let hs := programHeaders files k slot
    let image := loadedImage files k
    let stack := (stackStep files k).1
    let blocks := imageBlockCount files (processStep k).2
    let reads := fun va =>
      k'.kmem.mem (pagingGetPhysicalAddress k'.kmem.mem (k'.directory process) va)
    ((∀ va, TailByte hs va → ZeroInside file old image stack blocks (programAddress image stack hs va)) →
      ∀ va, TailByte hs va → reads va = 0) ∧
    ((∀ va, TailByte hs va → InsideProgram image stack blocks (programAddress image stack hs va)) →
      (∀ va, TailByte hs va → reads va = 0) →
      ∀ va, TailByte hs va → ZeroInside file old image stack blocks (programAddress image stack hs va)) := by
  intro hs image stack blocks reads
  obtain ⟨dir, table, hmem⟩ := h.memory
  have hreads : ∀ va, reads va = k'.kmem.mem (programAddress image stack hs va) := by
    intro va
    change k'.kmem.mem (pagingGetPhysicalAddress _ _ va) = _
    rw [hmem.directory, hmem.mapped.address hmem.stack_aligned, h.stack_eq.2]
  constructor
  · intro hzero va htail
    rw [hreads]
    rcases hzero va htail with hin | ⟨hin, hbyte⟩
    · exact h.stack_mem hin
    · rw [h.image_byte hfile hslack hin]
      exact hbyte
  · intro hinside hzero va htail
    have hread := hzero va htail
    rw [hreads] at hread
    rcases hinside va htail with hin | hin
    · exact .inl hin
    · rw [h.image_byte hfile hslack hin] at hread
      exact .inr ⟨hin, hread⟩

end Bytes

/-- Where the addresses of a segment of one page at the usual address lead. -/
lemma programAddress_code {stack : Word} {g : Phdr} (hoffset : g.offset = 0)
    (hvaddr : g.vaddr = 0x400000) (hmaps : MapsPage (blockAddr 4) g 0x400000) {n : ℕ} (hn : n < 4096) :
    programAddress (blockAddr 4) stack [g] (g.vaddr + BitVec.ofNat 32 n) =
      blockAddr 4 + BitVec.ofNat 32 n := by
  have hsum : (0x400000 + BitVec.ofNat 32 n : Word).toNat = 0x400000 + n :=
    toNat_add_ofNat (a := 0x400000) (by change 0x400000 + n < 2 ^ 32; omega)
  have hpage : pagingAlignToLowerPage (g.vaddr + BitVec.ofNat 32 n) = 0x400000 := by
    apply BitVec.eq_of_toNat_eq
    rw [hvaddr, pagingAlignToLowerPage_toNat, hsum]
    change _ = 0x400000
    omega
  have hlast : lastMapping (blockAddr 4) [g] 0x400000 = some g := by
    rw [lastMapping, List.reverse_singleton]
    exact List.find?_cons_of_pos (by simpa using hmaps)
  rw [programAddress, hpage, if_neg (by decide), hlast]
  dsimp only
  rw [firstFrame, firstPage, hoffset, hvaddr]
  have hframe : pagingAlignToLowerPage (blockAddr 4 + 0) = blockAddr 4 := by decide
  have hfirst : pagingAlignToLowerPage (0x400000 : Word) = 0x400000 := by decide
  rw [hframe, hfirst]
  abel

/-- A served file leaves the rest of its blocks as it was. -/
lemma keepsSlack_served {s : Kmem} {c : ℕ} {file : List Byte} (hfile : Sized file) (h : Frontier s c)
    (hroom : c + 1 + fileBlocks file ≤ 25600) :
    (serve file).KeepsSlack s file (fileStep s).2.mem := by
  refine ⟨fun _ _ _ _ => rfl, fun x hx => ?_⟩
  have hsmall := hfile.small
  rw [(imageStep_served hfile h hroom).1] at hx
  rw [readStep_served hfile h hroom]
  refine writeBytes_of_not fun n hn heq => hx ?_
  rw [← heq, InRange, add_sub_cancel_left, BitVec.toNat_ofNat]
  omega

/-- Of the bytes behind its part of the file, four are zeros in the file and the rest lie behind it. -/
def zeroTailSegment : Phdr := ⟨ptLoad, 0, 0x400000, 0, 80, 200, 7⟩

theorem tailZero_iff_zeroTailSegment :
    let files := serve (oneSegment zeroTailSegment)
    let k := zeroKernel emptyKmem
    ∃ k', ProgramLoaded files k 0 (blockAddr 0) k' ∧ ∀ va, TailByte (programHeaders files k 0) va →
      k'.kmem.mem (pagingGetPhysicalAddress k'.kmem.mem (k'.directory (blockAddr 0)) va) = 0 := by
  have hordered : Ordered (blockAddr 4) zeroTailSegment := by
    unfold Ordered
    decide
  have hmaps : MapsPage (blockAddr 4) zeroTailSegment 0x400000 := by
    unfold MapsPage
    decide
  obtain ⟨k', hload, himage, hheaders⟩ := programLoaded_oneSegment hordered
  obtain ⟨-, hnext⟩ := processStep_frontier emptyKmem_frontier (by omega)
  have hblocks := fileBlocks_oneSegment zeroTailSegment
  have hsized := (elfImage_oneSegment zeroTailSegment).sized
  have hslack := keepsSlack_served hsized hnext (by omega)
  have hzero : ∀ x, (fileStep (processStep (zeroKernel emptyKmem)).2).2.mem x = 0 :=
    fun x => kzalloc_byte_zero (kzalloc_byte_zero rfl)
  refine ⟨k', hload, (tailZero_iff hload (delivers_served hsized hnext (by omega)) hslack).1 ?_⟩
  rw [himage, hheaders, imageBlockCount_oneSegment himage]
  rintro va ⟨g, hg, -, n, h1, h2, rfl⟩
  obtain rfl : g = zeroTailSegment := List.mem_singleton.1 hg
  have hlow : 80 ≤ n := h1
  have hhigh : n < 200 := h2
  rw [programAddress_code rfl rfl hmaps (by omega)]
  have hoffset : (blockAddr 4 + BitVec.ofNat 32 n - blockAddr 4).toNat = n := by
    rw [add_sub_cancel_left, BitVec.toNat_ofNat]
    omega
  refine .inr ⟨by rw [InRange, hoffset]; omega, ?_⟩
  rw [hoffset, imageByte, hzero]
  -- The file has 84 bytes.
  rcases Nat.lt_or_ge n 84 with hin | hout
  · interval_cases n <;> decide
  · rw [List.getElem?_eq_none hout]
    rfl

/-- No byte of this segment comes from the file. -/
def bssSegment : Phdr := ⟨ptLoad, 0, 0x400000, 0, 0, 84, 7⟩

/-- The process reads the first byte of the file instead of 0. -/
theorem tailZero_fails :
    let files := serve (oneSegment bssSegment)
    let k := zeroKernel emptyKmem
    ∃ k', ProgramLoaded files k 0 (blockAddr 0) k' ∧ bssSegment ∈ programHeaders files k 0 ∧
      HasTail bssSegment ∧ k'.kmem.mem (pagingGetPhysicalAddress k'.kmem.mem
        (k'.directory (blockAddr 0)) (bssSegment.vaddr + BitVec.ofNat 32 0)) ≠ 0 := by
  have hordered : Ordered (blockAddr 4) bssSegment := by
    unfold Ordered
    decide
  obtain ⟨k', hload, himage, hheaders⟩ := programLoaded_oneSegment hordered
  obtain ⟨dir, table, hmem⟩ := hload.memory
  have hmaps : MapsPage (blockAddr 4) bssSegment 0x400000 := by
    unfold MapsPage
    decide
  refine ⟨k', hload, by rw [hheaders]; simp, ⟨by decide, by decide, by decide⟩, ?_⟩
  rw [hmem.directory, hmem.mapped.address hmem.stack_aligned, himage, hheaders,
    programAddress_code rfl rfl hmaps (by omega)]
  have hblock : 4 ∈ imageBlocks (serve (oneSegment bssSegment))
      (processStep (zeroKernel emptyKmem)).2 := by
    rw [mem_imageBlocks (a := 4) (by omega) himage, imageBlockCount_oneSegment himage]
    omega
  have hlen : (oneSegment bssSegment).length = 84 := rfl
  rw [hload.image_mem hblock (pageOf_blockAddr_add (by omega) (by omega)),
    (readStep_oneSegment bssSegment).byte (by omega)]
  decide

end AlphaOS.Processes
