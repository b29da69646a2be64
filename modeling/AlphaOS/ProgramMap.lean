import AlphaOS.ServedFile

/-! What a program sees of its segments and its stack through the page directory of a
loaded process. -/
namespace AlphaOS.Processes
open BlockHeap Elf Kheap Paging Tasks WordMemory

/-- Every segment of `hs` is where the program asks for it, with the access it asks for, the
stack is on its block, and all other pages are as `paging_new_4gb` leaves them. -/
structure ProgramMapped (mem : Mem) (directory image stack : Word) (hs : List Phdr) : Prop where
  segment : ∀ h ∈ hs, ∀ n < h.memsz.toNat,
    pagingGetPhysicalAddress mem directory (h.vaddr + BitVec.ofNat 32 n) =
      image + h.offset + BitVec.ofNat 32 n
  access : ∀ h ∈ hs, ∀ n < h.memsz.toNat,
    let entry := pagingGet mem directory (pagingAlignToLowerPage (h.vaddr + BitVec.ofNat 32 n))
    entry &&& pagingIsPresent ≠ 0 ∧ entry &&& pagingAccessFromAll ≠ 0 ∧
      (entry &&& pagingIsWritable ≠ 0 ↔ h.flags &&& pfW ≠ 0)
  stack : ∀ n < 16384, pagingGetPhysicalAddress mem directory (0x3FB000 + BitVec.ofNat 32 n) =
    stack + BitVec.ofNat 32 n
  others : ∀ page : Word, page.toNat % 4096 = 0 → (∀ h ∈ hs, ¬ HasPage h page) → ¬ StackPage page →
    pagingGet mem directory page = page ||| (pagingIsPresent ||| pagingAccessFromAll)

variable {mem : Mem} {chunk dir : Word} {table : ℕ → Word} {image stack : Word} {h : Phdr}
  {hs : List Phdr}

/-- The flags of an entry do not depend on its frame. -/
lemma entry_and_flag {a f m : Word} (ha : a.toNat % 4096 = 0) (hm : m.toNat < 4096) :
    (a ||| f) &&& m = f &&& m := by
  have hframe : a &&& 0xFFFFF000#32 = a := by
    apply BitVec.eq_of_toNat_eq
    rw [toNat_and_page]
    omega
  have hmask : 0xFFFFF000#32 &&& m = 0 := by
    apply BitVec.eq_of_toNat_eq
    rw [BitVec.and_comm, toNat_and_page]
    change m.toNat / 4096 * 4096 = 0
    omega
  have hnone : a &&& m = 0 := by
    rw [← hframe, BitVec.and_assoc, hmask]
    exact BitVec.and_zero
  apply BitVec.eq_of_getLsbD_eq
  intro i hi
  have hbit := congrArg (fun x => x.getLsbD i) hnone
  simp only [BitVec.getLsbD_and, BitVec.getLsbD_or] at hbit ⊢
  change (a.getLsbD i && m.getLsbD i) = (0#32).getLsbD i at hbit
  rw [BitVec.getLsbD_zero] at hbit
  rw [Bool.and_or_distrib_right, hbit, Bool.false_or]

lemma segmentFlags_cases (h : Phdr) :
    (h.flags &&& pfW ≠ 0 ∧ segmentFlags h = 7) ∨ (h.flags &&& pfW = 0 ∧ segmentFlags h = 5) := by
  unfold segmentFlags
  split_ifs with hw
  · exact .inl ⟨hw, rfl⟩
  · exact .inr ⟨not_not.1 hw, rfl⟩

lemma segmentFlags_lt (h : Phdr) : (segmentFlags h).toNat < 4096 := by
  rcases segmentFlags_cases h with ⟨-, heq⟩ | ⟨-, heq⟩ <;> rw [heq] <;> decide

lemma firstPage_aligned (h : Phdr) : (firstPage h).toNat % 4096 = 0 :=
  pagingAlignToLowerPage_aligned _

lemma firstFrame_aligned (image : Word) (h : Phdr) : (firstFrame image h).toNat % 4096 = 0 :=
  pagingAlignToLowerPage_aligned _

/-- The frame of a page of the segment. -/
def segmentFrame (image : Word) (h : Phdr) (page : Word) : Word :=
  firstFrame image h + (page - firstPage h)

lemma segmentFrame_aligned (image : Word) (h : Phdr) {page : Word} (hpage : page.toNat % 4096 = 0) :
    (segmentFrame image h page).toNat % 4096 = 0 := by
  have hframe := firstFrame_aligned image h
  have hfirst := firstPage_aligned h
  have hlt := (firstPage h).isLt
  rw [segmentFrame, BitVec.toNat_add, BitVec.toNat_sub]
  omega

lemma segmentEntry_frame (image : Word) (h : Phdr) {page : Word} (hpage : page.toNat % 4096 = 0) :
    segmentEntry image h page &&& 0xFFFFF000#32 = segmentFrame image h page :=
  and_page_or_flags (segmentFrame_aligned image h hpage) (segmentFlags_lt h)

lemma segmentEntry_flag (image : Word) (h : Phdr) {page m : Word} (hpage : page.toNat % 4096 = 0)
    (hm : m.toNat < 4096) : segmentEntry image h page &&& m = segmentFlags h &&& m :=
  entry_and_flag (segmentFrame_aligned image h hpage) hm

lemma segmentFlags_writable (h : Phdr) :
    segmentFlags h &&& pagingIsWritable ≠ 0 ↔ h.flags &&& pfW ≠ 0 := by
  rcases segmentFlags_cases h with ⟨hw, heq⟩ | ⟨hw, heq⟩
  · rw [heq]
    exact iff_of_true (by decide) hw
  · rw [heq]
    exact iff_of_false (by decide) (not_not.2 hw)

/-- The frame of the page of an address, with the address's place in it. -/
lemma SegmentFits.segmentFrame_add (hfit : SegmentFits h) (himage : image.toNat % 4096 = 0)
    (va : Word) : segmentFrame image h (pagingAlignToLowerPage va) + (va - pagingAlignToLowerPage va) =
      image + h.offset + (va - h.vaddr) := by
  have hplace : h.vaddr - firstPage h = image + h.offset - firstFrame image h := by
    have hmod : h.vaddr % 4096 = (image + h.offset) % 4096 := by
      apply BitVec.eq_of_toNat_eq
      have hcongr := hfit.congruent
      simp only [BitVec.toNat_umod, BitVec.toNat_add]
      change h.vaddr.toNat % 4096 = (image.toNat + h.offset.toNat) % 2 ^ 32 % 4096
      omega
    simp only [firstPage, firstFrame, pagingAlignToLowerPage, sub_sub_cancel, hmod]
  calc segmentFrame image h (pagingAlignToLowerPage va) + (va - pagingAlignToLowerPage va)
    _ = firstFrame image h + (va - h.vaddr) + (h.vaddr - firstPage h) := by
      rw [segmentFrame]
      abel
    _ = image + h.offset + (va - h.vaddr) := by
      rw [hplace]
      abel

lemma SegmentFits.toNat_vaddr_add (hfit : SegmentFits h) {n : ℕ} (hn : n < h.memsz.toNat) :
    (h.vaddr + BitVec.ofNat 32 n).toNat = h.vaddr.toNat + n := by
  have hwrap := hfit.noWrap
  exact toNat_add_ofNat (by omega)

/-- An address of a segment lies in a page of its own. -/
lemma SegmentFits.hasPage (hfit : SegmentFits h) {n : ℕ} (hn : n < h.memsz.toNat) :
    HasPage h (pagingAlignToLowerPage (h.vaddr + BitVec.ofNat 32 n)) ∧
    ¬ StackPage (pagingAlignToLowerPage (h.vaddr + BitVec.ofNat 32 n)) := by
  have hpage := pagingAlignToLowerPage_toNat (h.vaddr + BitVec.ofNat 32 n)
  rw [hfit.toNat_vaddr_add hn] at hpage
  have hoff := hfit.offStack
  unfold HasPage StackPage
  unfold pageStart pageEnd at *
  omega

/-- Every page of a segment holds one of its addresses. -/
lemma HasPage.exists_address (hfit : SegmentFits h) {page : Word} (hpage : page.toNat % 4096 = 0)
    (hhas : HasPage h page) : ∃ n < h.memsz.toNat,
      pagingAlignToLowerPage (h.vaddr + BitVec.ofNat 32 n) = page := by
  obtain ⟨hpos, hstart, hend⟩ := hhas
  unfold pageStart pageEnd at *
  refine ⟨page.toNat - h.vaddr.toNat, by omega, BitVec.eq_of_toNat_eq ?_⟩
  rw [pagingAlignToLowerPage_toNat, hfit.toNat_vaddr_add (by omega)]
  omega

/-- Two entries of the mapping with one frame and one writable bit are the same. -/
lemma entry_eq {a b f g : Word} (ha : a.toNat % 4096 = 0) (hb : b.toNat % 4096 = 0)
    (hf : f = 5 ∨ f = 7) (hg : g = 5 ∨ g = 7)
    (hframe : (a ||| f) &&& 0xFFFFF000#32 = (b ||| g) &&& 0xFFFFF000#32)
    (hflag : (a ||| f) &&& pagingIsWritable ≠ 0 ↔ (b ||| g) &&& pagingIsWritable ≠ 0) :
    a ||| f = b ||| g := by
  have hlt : ∀ x : Word, x = 5 ∨ x = 7 → x.toNat < 4096 := by
    rintro x (rfl | rfl) <;> decide
  rw [and_page_or_flags ha (hlt f hf), and_page_or_flags hb (hlt g hg)] at hframe
  rw [entry_and_flag ha (by decide), entry_and_flag hb (by decide)] at hflag
  rcases hf with rfl | rfl <;> rcases hg with rfl | rfl
  · rw [hframe]
  · exact absurd (hflag.2 (by decide)) (by decide)
  · exact absurd (hflag.1 (by decide)) (by decide)
  · rw [hframe]

/-- An entry off the stack is that of a header or the identity. -/
lemma mappedEntry_form (image : Word) (hs : List Phdr) {page : Word} (hpage : page.toNat % 4096 = 0) :
    ∃ a f : Word, a.toNat % 4096 = 0 ∧ (f = 5 ∨ f = 7) ∧
      mappedEntry image hs page (page ||| (pagingIsPresent ||| pagingAccessFromAll)) = a ||| f := by
  rcases mappedEntry_cases image hs page (page ||| (pagingIsPresent ||| pagingAccessFromAll)) with
    ⟨-, heq⟩ | ⟨before, h, after, -, -, -, heq⟩
  · exact ⟨page, 5, hpage, .inl rfl, heq⟩
  · refine ⟨segmentFrame image h page, segmentFlags h, segmentFrame_aligned image h hpage, ?_, heq⟩
    rcases segmentFlags_cases h with ⟨-, hflags⟩ | ⟨-, hflags⟩
    · exact .inr hflags
    · exact .inl hflags

lemma stackPage_of_lt {n : ℕ} (hn : n < 16384) :
    StackPage (pagingAlignToLowerPage (0x3FB000 + BitVec.ofNat 32 n)) := by
  have hsum : (0x3FB000 + BitVec.ofNat 32 n : Word).toNat = 0x3FB000 + n :=
    toNat_add_ofNat (a := 0x3FB000) (by change 0x3FB000 + n < 2 ^ 32; omega)
  rw [StackPage, pagingAlignToLowerPage_toNat, hsum]
  omega

lemma stackFrame_aligned (hstack : stack.toNat % 4096 = 0) {page : Word}
    (hpage : page.toNat % 4096 = 0) :
    (stack + (page - programVirtualStackAddressEnd)).toNat % 4096 = 0 := by
  rw [BitVec.toNat_add, BitVec.toNat_sub]
  change (stack.toNat + (2 ^ 32 - 0x3FB000 + _) % 2 ^ 32) % 2 ^ 32 % 4096 = 0
  omega

/-- The stack is where it belongs in every mapped directory. -/
lemma DirectoryMapped.stack_address (hmap : DirectoryMapped mem chunk dir table image stack hs)
    (hstack : stack.toNat % 4096 = 0) {n : ℕ} (hn : n < 16384) :
    pagingGetPhysicalAddress mem dir (0x3FB000 + BitVec.ofNat 32 n) = stack + BitVec.ofNat 32 n := by
  have haligned := pagingAlignToLowerPage_aligned (0x3FB000 + BitVec.ofNat 32 n)
  rw [pagingGetPhysicalAddress, hmap.get _ haligned, if_pos (stackPage_of_lt hn), stackEntry,
    and_page_or_flags (stackFrame_aligned hstack haligned) (by decide)]
  change stack + (_ - 0x3FB000) + _ = _
  abel

/-- A well-formed program is mapped as it asks for exactly when no empty segment does harm. -/
theorem DirectoryMapped.lookup_iff
    (hmap : DirectoryMapped mem chunk dir table image stack hs) (hwf : WellFormed hs)
    (himage : image.toNat % 4096 = 0) (hstack : stack.toNat % 4096 = 0) :
    ProgramMapped mem dir image stack hs ↔ EmptyHarmless image hs := by
  rw [← hwf.mappedEntry_iff himage hmap.ordered]
  constructor
  · intro hprog page hpage hoff
    have hget := hmap.get page hpage
    rw [if_neg hoff] at hget
    by_cases hhas : ∃ h ∈ hs, HasPage h page
    · obtain ⟨h, hmem, hhas⟩ := hhas
      have hfit := hwf.fits h hmem hhas.1
      obtain ⟨n, hn, rfl⟩ := hhas.exists_address hfit hpage
      have hphys := hprog.segment h hmem n hn
      have hflag := (hprog.access h hmem n hn).2.2
      rw [pagingGetPhysicalAddress] at hphys
      have hplace := hfit.segmentFrame_add himage (h.vaddr + BitVec.ofNat 32 n)
      rw [add_sub_cancel_left, ← hphys] at hplace
      have hframe := add_right_cancel hplace
      rw [hget] at hframe hflag
      rw [hwf.wantedEntry_eq hmem hhas]
      obtain ⟨a, f, ha, hf, heq⟩ := mappedEntry_form image hs hpage
      rw [heq] at hframe hflag ⊢
      refine entry_eq ha (segmentFrame_aligned image h hpage) hf ?_ ?_ ?_
      · rcases segmentFlags_cases h with ⟨-, hflags⟩ | ⟨-, hflags⟩
        · exact .inr hflags
        · exact .inl hflags
      · exact hframe.symm.trans (segmentEntry_frame image h hpage).symm
      · rw [hflag, ← segmentFlags_writable h, ← segmentEntry_flag image h hpage (by decide)]
        rfl
    · have hnone : ∀ h ∈ hs, ¬ HasPage h page := fun h hmem hh => hhas ⟨h, hmem, hh⟩
      rw [wantedEntry_none hnone, ← hget]
      exact hprog.others page hpage hnone hoff
  · intro hall
    have hentry : ∀ page : Word, page.toNat % 4096 = 0 → ¬ StackPage page →
        pagingGet mem dir page = wantedEntry image hs page := by
      intro page hpage hoff
      rw [hmap.get page hpage, if_neg hoff, hall page hpage hoff]
    have hown : ∀ h ∈ hs, ∀ n < h.memsz.toNat,
        pagingGet mem dir (pagingAlignToLowerPage (h.vaddr + BitVec.ofNat 32 n)) =
          segmentEntry image h (pagingAlignToLowerPage (h.vaddr + BitVec.ofNat 32 n)) := by
      intro h hmem n hn
      obtain ⟨hhas, hoff⟩ := (hwf.fits h hmem (by omega)).hasPage hn
      rw [hentry _ (pagingAlignToLowerPage_aligned _) hoff, hwf.wantedEntry_eq hmem hhas]
    refine ⟨fun h hmem n hn => ?_, fun h hmem n hn => ?_, fun n hn => hmap.stack_address hstack hn,
      fun page hpage hnone hoff => ?_⟩
    · have hplace := (hwf.fits h hmem (by omega)).segmentFrame_add himage
        (h.vaddr + BitVec.ofNat 32 n)
      rw [add_sub_cancel_left] at hplace
      rw [pagingGetPhysicalAddress, hown h hmem n hn,
        segmentEntry_frame image h (pagingAlignToLowerPage_aligned _)]
      exact hplace
    · have hflags := fun m hm => @segmentEntry_flag image h
        (pagingAlignToLowerPage (h.vaddr + BitVec.ofNat 32 n)) m (pagingAlignToLowerPage_aligned _) hm
      dsimp only
      rw [hown h hmem n hn, hflags _ (by decide), hflags _ (by decide), hflags _ (by decide)]
      refine ⟨?_, ?_, segmentFlags_writable h⟩
      · rcases segmentFlags_cases h with ⟨-, heq⟩ | ⟨-, heq⟩ <;> rw [heq] <;> decide
      · rcases segmentFlags_cases h with ⟨-, heq⟩ | ⟨-, heq⟩ <;> rw [heq] <;> decide
    · rw [hentry page hpage hoff, wantedEntry_none hnone]

section Loaded
variable {files : FileCalls} {k k' : Kernel} {slot : Fin maxProcesses} {process : Word}
  {dir : Word} {table : ℕ → Word}

lemma ProgramMemory.stack_aligned (hmem : ProgramMemory files k slot process k' dir table) :
    (k'.procs process).stack.toNat % 4096 = 0 := by
  obtain ⟨b, hb, -, heq⟩ := hmem.stack
  rw [heq]
  exact blockAddr_aligned (by omega)

/-- A loaded program whose segments are disjoint and off the stack is mapped as it asks for
exactly when none of its empty segments does harm. -/
theorem programMapped_iff (h : ProgramLoaded files k slot process k')
    (hwf : WellFormed (programHeaders files k slot)) :
    ProgramMapped k'.kmem.mem (k'.directory process)
      (elfMemory k'.kmem.mem (k'.procs process).data) (k'.procs process).stack
      (programHeaders files k slot) ↔
    EmptyHarmless (loadedImage files k) (programHeaders files k slot) := by
  obtain ⟨dir, table, hmem⟩ := h.memory
  rw [hmem.directory, hmem.image_eq]
  exact hmem.mapped.lookup_iff hwf hmem.image_aligned hmem.stack_aligned

end Loaded

/-- Code of 84 bytes at the usual address. -/
def codeSegment : Phdr := ⟨ptLoad, 0, 0x400000, 0, 84, 84, 5⟩

lemma codeSegment_ordered : Ordered (blockAddr 4) codeSegment := by
  unfold Ordered
  decide

lemma codeSegment_wellFormed : WellFormed [codeSegment] := by
  refine ⟨fun h hmem _ => ?_, List.pairwise_singleton _ _⟩
  rw [List.mem_singleton.1 hmem]
  exact ⟨by decide, by decide, by decide⟩

theorem programMapped_iff_codeSegment :
    let files := serve (oneSegment codeSegment)
    let k := zeroKernel emptyKmem
    ∃ k', ProgramLoaded files k 0 (blockAddr 0) k' ∧
      ProgramMapped k'.kmem.mem (k'.directory (blockAddr 0))
        (elfMemory k'.kmem.mem (k'.procs (blockAddr 0)).data) (k'.procs (blockAddr 0)).stack
        (programHeaders files k 0) := by
  obtain ⟨k', hload, himage, hheaders⟩ := programLoaded_oneSegment codeSegment_ordered
  refine ⟨k', hload, (programMapped_iff hload (hheaders ▸ codeSegment_wellFormed)).2 ?_⟩
  rw [hheaders]
  intro before h after heq hzero
  have hmem : h ∈ [codeSegment] := by simp [heq]
  rw [List.mem_singleton.1 hmem] at hzero
  exact absurd hzero (by decide)

/-- A header that asks for nothing, at an odd place of the file. -/
def emptySegment : Phdr := ⟨0, 1, 0, 0, 0, 0, 0⟩

/-- It maps page 0 to the image of the file. -/
theorem programMapped_fails :
    let files := serve (oneSegment emptySegment)
    let k := zeroKernel emptyKmem
    ∃ k', ProgramLoaded files k 0 (blockAddr 0) k' ∧ WellFormed (programHeaders files k 0) ∧
      ¬ ProgramMapped k'.kmem.mem (k'.directory (blockAddr 0))
        (elfMemory k'.kmem.mem (k'.procs (blockAddr 0)).data) (k'.procs (blockAddr 0)).stack
        (programHeaders files k 0) := by
  have hordered : Ordered (blockAddr 4) emptySegment := by
    unfold Ordered
    decide
  obtain ⟨k', hload, himage, hheaders⟩ := programLoaded_oneSegment hordered
  obtain ⟨dir, table, hmem⟩ := hload.memory
  have hwf : WellFormed [emptySegment] := by
    refine ⟨fun h hmem hpos => ?_, List.pairwise_singleton _ _⟩
    rw [List.mem_singleton.1 hmem] at hpos
    exact absurd hpos (by decide)
  refine ⟨k', hload, hheaders ▸ hwf, fun hprog => ?_⟩
  rw [hmem.directory, hmem.image_eq, himage, hheaders] at hprog
  have hmapped := hmem.mapped
  rw [himage, hheaders] at hmapped
  have hharm := (hmapped.lookup_iff hwf (blockAddr_aligned (by omega)) hmem.stack_aligned).1
    hprog [] emptySegment [] rfl (by decide) (by decide) (by decide) (by simp)
  rw [wantedEntry_none (by
    intro h hmem hhas
    rw [List.mem_singleton.1 hmem] at hhas
    exact absurd hhas.1 (by decide))] at hharm
  exact absurd hharm (by decide)

end AlphaOS.Processes
