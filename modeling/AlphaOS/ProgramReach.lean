import AlphaOS.ProgramMap

/-! What a loaded program reaches through its segments, for any program headers: the frames
that are mapped, and the kernel's own pages. -/
namespace AlphaOS.Processes
open BlockHeap CString Elf Kheap Paging Tasks WordMemory

/-- How many bytes a header maps, by its own fields. -/
def segmentBytes (h : Phdr) : ℕ := (pagingAlignAddress (h.offset % 4096 + h.memsz)).toNat

/-- The frames `process_map_elf` maps for a header. -/
def mappedFrames (image : Word) (h : Phdr) : Set ℕ :=
  {p | ∃ i < mappedBytes image h / 4096, p = pageOf (firstFrame image h + BitVec.ofNat 32 (4096 * i))}

section Count
variable (files : FileCalls) (s : Kmem)

/-- How many blocks the image of the file has. -/
def imageBlockCount : ℕ :=
  if (imageStep files s).1 = 0 then 0
  else min (heapBlocksFor (statStep files s).2.1).toNat
    (25600 - ((imageStep files s).1.toNat - 16777216) / 4096)

variable {files s}

lemma mem_imageBlocks {a b : ℕ} (ha : a < 25600) (heq : (imageStep files s).1 = blockAddr a) :
    b ∈ imageBlocks files s ↔ a ≤ b ∧ b < a + imageBlockCount files s := by
  have haddr := blockAddr_toNat (b := a) (by omega)
  rw [imageBlockCount, if_neg (heq ▸ blockAddr_ne_zero (by omega)), heq, haddr]
  constructor
  · rintro ⟨c, hc, h1, h2, h3⟩
    rw [heq] at hc
    have hc' := congrArg BitVec.toNat hc
    rw [haddr] at hc'
    have hlt : c < 25600 := by omega
    rw [blockAddr_toNat (by omega)] at hc'
    omega
  · rintro ⟨h1, h2⟩
    exact ⟨a, heq, h1, by omega, by omega⟩

end Count

variable {image : Word} {h : Phdr}

/-- Rounding up commutes with a whole number of pages. -/
lemma pagingAlignAddress_add {a b : Word} (ha : a.toNat % 4096 = 0) :
    pagingAlignAddress (a + b) = a + pagingAlignAddress b := by
  have hmod : (a + b) % 4096 = b % 4096 := by
    apply BitVec.eq_of_toNat_eq
    simp only [BitVec.toNat_umod, BitVec.toNat_add]
    change (a.toNat + b.toNat) % 2 ^ 32 % 4096 = b.toNat % 4096
    omega
  unfold pagingAlignAddress
  rw [hmod]
  split_ifs
  · abel
  · rfl

/-- What a header maps depends on its own fields alone. -/
lemma mappedBytes_eq (himage : image.toNat % 4096 = 0) (hordered : Ordered image h) :
    mappedBytes image h = segmentBytes h := by
  have hmod : (image + h.offset) % 4096 = h.offset % 4096 := by
    apply BitVec.eq_of_toNat_eq
    simp only [BitVec.toNat_umod, BitVec.toNat_add]
    change (image.toNat + h.offset.toNat) % 2 ^ 32 % 4096 = h.offset.toNat % 4096
    omega
  have hsplit : image + h.offset + h.memsz = firstFrame image h + (h.offset % 4096 + h.memsz) := by
    rw [firstFrame, pagingAlignToLowerPage, hmod]
    abel
  have hend : pagingAlignAddress (image + h.offset + h.memsz) =
      firstFrame image h + pagingAlignAddress (h.offset % 4096 + h.memsz) := by
    rw [hsplit, pagingAlignAddress_add (firstFrame_aligned image h)]
  have hle : firstFrame image h ≤ pagingAlignAddress (image + h.offset + h.memsz) := hordered
  rw [mappedBytes, ← BitVec.toNat_sub_of_le hle, hend, add_sub_cancel_left, segmentBytes]

lemma segmentBytes_aligned (h : Phdr) : segmentBytes h % 4096 = 0 := pagingAlignAddress_aligned _

/-- The frames of a header are consecutive, and inside memory. -/
lemma mem_mappedFrames (himage : image.toNat % 4096 = 0) (hordered : Ordered image h) {p : ℕ} :
    p ∈ mappedFrames image h ↔ (firstFrame image h).toNat / 4096 ≤ p ∧
      p < (firstFrame image h).toNat / 4096 + segmentBytes h / 4096 := by
  have hbytes := mappedBytes_eq himage hordered
  have hlast : (firstFrame image h).toNat + segmentBytes h < 2 ^ 32 := by
    have hlt := (pagingAlignAddress (image + h.offset + h.memsz)).isLt
    have hle : (firstFrame image h).toNat ≤ _ := hordered
    rw [mappedBytes] at hbytes
    omega
  have hpage : ∀ i < segmentBytes h / 4096,
      pageOf (firstFrame image h + BitVec.ofNat 32 (4096 * i)) = (firstFrame image h).toNat / 4096 + i := by
    intro i hi
    rw [pageOf, toNat_add_ofNat (by omega)]
    omega
  rw [mappedFrames, Set.mem_ofPred_eq, hbytes]
  constructor
  · rintro ⟨i, hi, rfl⟩
    rw [hpage i hi]
    omega
  · rintro ⟨h1, h2⟩
    refine ⟨p - (firstFrame image h).toNat / 4096, by omega, ?_⟩
    rw [hpage _ (by omega)]
    omega

/-- The header stays within the blocks of the image. -/
def WithinImage (blocks : ℕ) (h : Phdr) : Prop :=
  segmentBytes h = 0 ∨ h.offset.toNat / 4096 * 4096 + segmentBytes h ≤ 4096 * blocks

lemma firstFrame_toNat (image : Word) (h : Phdr) :
    (firstFrame image h).toNat = (image + h.offset).toNat / 4096 * 4096 :=
  pagingAlignToLowerPage_toNat _

/-- The frames of a header are blocks of an image at block `a` exactly when it stays within. -/
lemma mappedFrames_within {a blocks : ℕ} (hblocks : a + blocks ≤ 25600)
    (hordered : Ordered (blockAddr a) h) (ha : a < 25600) :
    (∀ p ∈ mappedFrames (blockAddr a) h, 4096 + a ≤ p ∧ p < 4096 + a + blocks) ↔
      WithinImage blocks h := by
  have haddr := blockAddr_toNat (b := a) (by omega)
  have hmem := fun p => mem_mappedFrames (p := p) (blockAddr_aligned (b := a) (by omega)) hordered
  have hbytes := segmentBytes_aligned h
  have hframe := firstFrame_toNat (blockAddr a) h
  have hsum : (blockAddr a + h.offset).toNat = (16777216 + 4096 * a + h.offset.toNat) % 2 ^ 32 := by
    rw [BitVec.toNat_add, haddr]
  have hoff := h.offset.isLt
  constructor
  · intro hall
    by_cases hzero : segmentBytes h = 0
    · exact .inl hzero
    · have hfirst := hall _ ((hmem ((firstFrame (blockAddr a) h).toNat / 4096)).2 (by omega))
      have hlast := hall _ ((hmem ((firstFrame (blockAddr a) h).toNat / 4096 +
        segmentBytes h / 4096 - 1)).2 (by omega))
      exact .inr (by omega)
  · rintro hwithin p hp
    obtain ⟨h1, h2⟩ := (hmem p).1 hp
    rcases hwithin with hzero | hle
    · omega
    · omega

section Loaded
variable {files : FileCalls} {k k' : Kernel} {slot : Fin maxProcesses} {process : Word}

/-- Everything a loaded program's headers map lies in the blocks of its file exactly when
every header stays within them. -/
theorem mappedFrames_iff (h : ProgramLoaded files k slot process k') :
    (∀ g ∈ programHeaders files k slot, ∀ p ∈ mappedFrames (loadedImage files k) g,
      ∃ b ∈ imageBlocks files (processStep k).2, p = 4096 + b) ↔
    ∀ g ∈ programHeaders files k slot,
      WithinImage (imageBlockCount files (processStep k).2) g := by
  obtain ⟨dir, table, hmem⟩ := h.memory
  refine forall₂_congr fun g hg => ?_
  have hordered := hmem.mapped.ordered g hg
  obtain heq | ⟨a, ha, -, heq⟩ := kzalloc_shape (statStep files (processStep k).2).2.2
    (statStep files (processStep k).2).2.1
  · have hnull : loadedImage files k = 0 := congrArg Prod.fst heq
    have hcount : imageBlockCount files (processStep k).2 = 0 := if_pos hnull
    have hnone : ∀ b, b ∉ imageBlocks files (processStep k).2 := by
      rintro b ⟨c, hc, h1, h2, -⟩
      exact blockAddr_ne_zero (by omega) (hc.symm.trans hnull)
    have hbytes := segmentBytes_aligned g
    rw [hcount]
    constructor
    · intro hall
      refine .inl (by_contra fun hne => ?_)
      obtain ⟨b, hb, -⟩ := hall _ ((mem_mappedFrames hmem.image_aligned hordered
        (p := (firstFrame (loadedImage files k) g).toNat / 4096)).2 (by omega))
      exact hnone b hb
    · rintro hwithin p hp
      obtain ⟨h1, h2⟩ := (mem_mappedFrames hmem.image_aligned hordered).1 hp
      unfold WithinImage at hwithin
      omega
  · have himage : loadedImage files k = blockAddr a := congrArg Prod.fst heq
    have hcount : a + imageBlockCount files (processStep k).2 ≤ 25600 := by
      have haddr := blockAddr_toNat (b := a) (by omega)
      have hne : (imageStep files (processStep k).2).1 ≠ 0 := fun h0 =>
        blockAddr_ne_zero (by omega) (himage.symm.trans h0)
      rw [imageBlockCount, if_neg hne]
      change a + min _ (25600 - ((loadedImage files k).toNat - 16777216) / 4096) ≤ 25600
      rw [himage, haddr]
      omega
    rw [himage] at hordered ⊢
    rw [← mappedFrames_within hcount hordered ha]
    refine forall₂_congr fun p hp => ?_
    simp only [mem_imageBlocks ha himage]
    constructor
    · rintro ⟨b, hb, rfl⟩
      omega
    · rintro ⟨h1, h2⟩
      exact ⟨p - 4096, by omega, by omega⟩

end Loaded

/-- The file of one segment has one block. -/
lemma imageBlockCount_oneSegment {k : Kernel} (himage : loadedImage (serve (oneSegment h)) k = blockAddr 4) :
    imageBlockCount (serve (oneSegment h)) (processStep k).2 = 1 := by
  have haddr : (imageStep (serve (oneSegment h)) (processStep k).2).1 = blockAddr 4 := himage
  have hblocks : (heapBlocksFor (BitVec.ofNat 32 84)).toNat = 1 := by decide
  rw [imageBlockCount, haddr, if_neg (blockAddr_ne_zero (by omega)), blockAddr_toNat (by omega)]
  change min (heapBlocksFor (BitVec.ofNat 32 84)).toNat _ = 1
  rw [hblocks]
  rfl

theorem mappedFrames_iff_codeSegment :
    let files := serve (oneSegment codeSegment)
    let k := zeroKernel emptyKmem
    (∃ k', ProgramLoaded files k 0 (blockAddr 0) k') ∧
      ∀ g ∈ programHeaders files k 0, ∀ p ∈ mappedFrames (loadedImage files k) g,
        ∃ b ∈ imageBlocks files (processStep k).2, p = 4096 + b := by
  obtain ⟨k', hload, himage, hheaders⟩ := programLoaded_oneSegment codeSegment_ordered
  refine ⟨⟨k', hload⟩, (mappedFrames_iff hload).2 fun g hg => ?_⟩
  rw [hheaders, List.mem_singleton] at hg
  rw [hg, imageBlockCount_oneSegment himage]
  exact .inr (by decide)

/-- Data that is longer in memory than the whole file. -/
def longSegment : Phdr := ⟨ptLoad, 0, 0x400000, 0, 84, 0x2000, 7⟩

/-- The process gets the block after its file, writable. -/
theorem mappedFrames_fails :
    let files := serve (oneSegment longSegment)
    let k := zeroKernel emptyKmem
    ∃ k', ProgramLoaded files k 0 (blockAddr 0) k' ∧
      ¬ ∀ g ∈ programHeaders files k 0, ∀ p ∈ mappedFrames (loadedImage files k) g,
        ∃ b ∈ imageBlocks files (processStep k).2, p = 4096 + b := by
  have hordered : Ordered (blockAddr 4) longSegment := by
    unfold Ordered
    decide
  obtain ⟨k', hload, himage, hheaders⟩ := programLoaded_oneSegment hordered
  refine ⟨k', hload, fun hall => ?_⟩
  have hcount := imageBlockCount_oneSegment himage
  have hmem := (mem_mappedFrames (p := 4101) (blockAddr_aligned (b := 4) (by omega)) hordered).2
    (by decide)
  rw [← himage] at hmem
  obtain ⟨b, hb, heq⟩ := hall longSegment (by rw [hheaders]; simp) 4101 hmem
  rw [mem_imageBlocks (a := 4) (by omega) himage, hcount] at hb
  omega

/-! The address every virtual address is translated to. -/

/-- The header that maps a page last. -/
def lastMapping (image : Word) (hs : List Phdr) (page : Word) : Option Phdr :=
  hs.reverse.find? fun h => MapsPage image h page

/-- Where a virtual address of a loaded program leads. -/
def programAddress (image stack : Word) (hs : List Phdr) (va : Word) : Word :=
  let page := pagingAlignToLowerPage va
  if StackPage page then stack + (va - programVirtualStackAddressEnd)
  else match lastMapping image hs page with
    | some h => firstFrame image h + (va - firstPage h)
    | none => va

variable {mem : Mem} {chunk dir stack : Word} {table : ℕ → Word} {hs : List Phdr}

lemma mappedEntry_lastMapping (image : Word) (hs : List Phdr) (page entry : Word) :
    mappedEntry image hs page entry = match lastMapping image hs page with
      | some h => segmentEntry image h page
      | none => entry := by
  induction hs using List.reverseRecOn with
  | nil => rfl
  | append_singleton hs h ih =>
    rw [mappedEntry, List.foldl_append, List.foldl_cons, List.foldl_nil, lastMapping,
      List.reverse_append, List.reverse_singleton, List.singleton_append]
    by_cases hmaps : MapsPage image h page
    · rw [if_pos hmaps, List.find?_cons_of_pos (by simpa using hmaps)]
    · rw [if_neg hmaps, List.find?_cons_of_neg (by simpa using hmaps)]
      exact ih

theorem DirectoryMapped.address (hmap : DirectoryMapped mem chunk dir table image stack hs)
    (hstack : stack.toNat % 4096 = 0) (va : Word) :
    pagingGetPhysicalAddress mem dir va = programAddress image stack hs va := by
  have haligned := pagingAlignToLowerPage_aligned va
  rw [pagingGetPhysicalAddress, hmap.get _ haligned, programAddress]
  by_cases hin : StackPage (pagingAlignToLowerPage va)
  · rw [if_pos hin, if_pos hin, stackEntry, and_page_or_flags (stackFrame_aligned hstack haligned)
      (by decide)]
    abel
  · rw [if_neg hin, if_neg hin, mappedEntry_lastMapping]
    cases lastMapping image hs (pagingAlignToLowerPage va) with
    | none =>
      dsimp only
      rw [and_page_or_flags haligned (by decide)]
      abel
    | some h =>
      dsimp only
      rw [segmentEntry_frame image h haligned, segmentFrame]
      abel

/-- The pages of the kernel image, which ends at `imageEnd`, those of the ring-0 stack from
`stackBase` on, and the heap pool. -/
def KernelPage (imageEnd stackBase : ℕ) (page : Word) : Prop :=
  (0x100000 ≤ page.toNat ∧ page.toNat < imageEnd) ∨
  (stackBase ≤ page.toNat ∧ page.toNat < 0x600000) ∨
  (0x1000000 ≤ page.toNat ∧ page.toNat < 0x1000000 + heapSizeBytes)

lemma firstFrame_add_eq {page : Word} :
    firstFrame image h + (page - firstPage h) = page ↔ firstFrame image h = firstPage h := by
  constructor
  · intro heq
    have hsub : firstFrame image h + (page - firstPage h) = firstPage h + (page - firstPage h) := by
      rw [heq]
      abel
    exact add_right_cancel hsub
  · intro heq
    rw [heq]
    abel

section Identity
variable {files : FileCalls} {k k' : Kernel} {slot : Fin maxProcesses} {process : Word}

/-- A loaded program leaves the kernel's pages where they are exactly when they are not the
user stack's and the last header that maps one of them maps it to itself. -/
theorem kernelIdentity_iff (h : ProgramLoaded files k slot process k') (imageEnd stackBase : ℕ) :
    (∀ page : Word, page.toNat % 4096 = 0 → KernelPage imageEnd stackBase page →
      pagingGetPhysicalAddress k'.kmem.mem (k'.directory process) page = page) ↔
    ∀ page : Word, page.toNat % 4096 = 0 → KernelPage imageEnd stackBase page →
      ¬ StackPage page ∧ ∀ g, lastMapping (loadedImage files k) (programHeaders files k slot) page =
        some g → firstFrame (loadedImage files k) g = firstPage g := by
  obtain ⟨dir, table, hmem⟩ := h.memory
  obtain ⟨b, hb, -, hstack⟩ := hmem.stack
  refine forall₃_congr fun page hpage hkernel => ?_
  have hlower : pagingAlignToLowerPage page = page := by
    rw [pagingAlignToLowerPage, word_mod_eq_zero.2 hpage, sub_zero]
  rw [hmem.directory, hmem.mapped.address hmem.stack_aligned, programAddress, hlower]
  by_cases hin : StackPage page
  · rw [if_pos hin]
    refine iff_of_false (fun heq => ?_) fun hnot => hnot.1 hin
    have hbase : (k'.procs process).stack = programVirtualStackAddressEnd := by
      have hsub : (k'.procs process).stack + (page - programVirtualStackAddressEnd) =
          programVirtualStackAddressEnd + (page - programVirtualStackAddressEnd) := by
        rw [heq]
        abel
      exact add_right_cancel hsub
    have haddr := blockAddr_toNat (b := b) (by omega)
    rw [← hstack, hbase] at haddr
    change 0x3FB000 = _ at haddr
    omega
  · rw [if_neg hin]
    cases lastMapping (loadedImage files k) (programHeaders files k slot) page with
    | none => simp [hin]
    | some g =>
      dsimp only
      rw [firstFrame_add_eq]
      simp [hin]

end Identity

/-- Its page is the only one the code segment maps. -/
lemma codeSegment_page {image page : Word} (himage : image = blockAddr 4)
    (hpage : page.toNat % 4096 = 0) (hmaps : MapsPage image codeSegment page) : page = 0x400000 := by
  have hbytes : mappedBytes image codeSegment = 4096 := by
    rw [himage]
    decide
  have hfirst : (firstPage codeSegment).toNat = 0x400000 := by decide
  have hlt := page.isLt
  rw [MapsPage, hbytes, BitVec.toNat_sub, hfirst] at hmaps
  apply BitVec.eq_of_toNat_eq
  change page.toNat = 0x400000
  omega

theorem kernelIdentity_iff_codeSegment :
    let files := serve (oneSegment codeSegment)
    let k := zeroKernel emptyKmem
    ∃ k', ProgramLoaded files k 0 (blockAddr 0) k' ∧
      ∀ page : Word, page.toNat % 4096 = 0 → KernelPage 0x10D000 0x5FF000 page →
        pagingGetPhysicalAddress k'.kmem.mem (k'.directory (blockAddr 0)) page = page := by
  obtain ⟨k', hload, himage, hheaders⟩ := programLoaded_oneSegment codeSegment_ordered
  refine ⟨k', hload, (kernelIdentity_iff hload 0x10D000 0x5FF000).2 fun page hpage hkernel => ?_⟩
  unfold KernelPage at hkernel
  refine ⟨by unfold StackPage; omega, fun g hg => ?_⟩
  rw [hheaders, lastMapping] at hg
  have hmem := List.mem_of_find?_eq_some hg
  have hmaps := List.find?_some hg
  simp only [List.reverse_singleton, List.mem_singleton] at hmem
  subst hmem
  have heq := codeSegment_page himage hpage (by simpa using hmaps)
  rw [heq] at hkernel
  exact absurd hkernel (by decide)

/-- A segment over the kernel image. -/
def kernelSegment : Phdr := ⟨ptLoad, 0, 0x100000, 0, 84, 84, 7⟩

/-- The first page of the kernel leads to the file. -/
theorem kernelIdentity_fails :
    let files := serve (oneSegment kernelSegment)
    let k := zeroKernel emptyKmem
    ∃ k', ProgramLoaded files k 0 (blockAddr 0) k' ∧
      KernelPage 0x10D000 0x5FF000 0x100000 ∧
      pagingGetPhysicalAddress k'.kmem.mem (k'.directory (blockAddr 0)) 0x100000 ≠ 0x100000 := by
  have hordered : Ordered (blockAddr 4) kernelSegment := by
    unfold Ordered
    decide
  obtain ⟨k', hload, himage, hheaders⟩ := programLoaded_oneSegment hordered
  obtain ⟨dir, table, hmem⟩ := hload.memory
  refine ⟨k', hload, .inl (by decide), ?_⟩
  rw [hmem.directory, hmem.mapped.address hmem.stack_aligned, himage, hheaders, programAddress]
  rw [if_neg (by decide)]
  decide

end AlphaOS.Processes
