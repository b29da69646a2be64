import AlphaOS.FrontierLoad

/-! A load for which `task_new` gets no memory: the error pointer is kept as the task, and the
process is mapped through address 0. -/
namespace AlphaOS.Processes
open BlockHeap CString Elf Kheap Paging Tasks WordMemory

section NullChunk
variable {mem : Mem}

/-- Word `j` of page 0. -/
abbrev nullSlot (j : ℕ) : Word := BitVec.ofNat 32 (4 * j)

lemma nullSlot_toNat {j : ℕ} (hj : j < 1024) : (nullSlot j).toNat = 4 * j := by
  rw [BitVec.toNat_ofNat]
  omega

lemma nullSlot_page {j : ℕ} (hj : j < 1024) : pageOf (nullSlot j) = 0 := by
  rw [pageOf, nullSlot_toNat hj]
  omega

lemma nullSlot_ne {i j : ℕ} (hi : i < 1024) (hj : j < 1024) (hij : i ≠ j) : nullSlot i ≠ nullSlot j := by
  intro heq
  have hval := congrArg BitVec.toNat heq
  rw [nullSlot_toNat hi, nullSlot_toNat hj] at hval
  omega

/-- Through a null chunk, with a null directory, a page below 4 MB is mapped in page 0. -/
lemma pagingMap_null (hnull : read32 mem 0 = 0) {t : ℕ} (ht : t < 1024) {pa : Word}
    (hpa : pa.toNat % 4096 = 0) (flags : Word) :
    pagingMap mem 0 (BitVec.ofNat 32 (4096 * t)) pa flags =
      (0, write32 mem (nullSlot t) (pa ||| flags)) := by
  have hva : (BitVec.ofNat 32 (4096 * t)).toNat = 4096 * t := by
    rw [BitVec.toNat_ofNat]
    omega
  have haligned : (BitVec.ofNat 32 (4096 * t)).toNat % 4096 = 0 := by omega
  have hdir : 4 * (BitVec.ofNat 32 (4096 * t) / 0x400000) = (0 : Word) := by
    rw [four_mul_dirIndex, hva, Nat.div_eq_of_lt (by omega)]
    rfl
  have hslot : 4 * (BitVec.ofNat 32 (4096 * t) % 0x400000 / 4096) = nullSlot t := by
    rw [four_mul_tableIndex, hva]
    congr 2
    omega
  unfold pagingMap pagingSet
  rw [if_neg (by simp only [ne_eq, word_mod_eq_zero]; omega), pagingGetIndexes_aligned haligned]
  dsimp only
  have hmask : (0 : Word) &&& 0xFFFFF000#32 = 0 := rfl
  rw [hnull, hdir, hslot, zero_add, hnull, hmask, zero_add]

/-- Such pages in a row. -/
lemma pagingMapRangeLoop_null (hnull : read32 mem 0 = 0) (n t : ℕ) (ht : 0 < t) (hn : t + n ≤ 1024)
    {pa : Word} (hpa : pa.toNat % 4096 = 0) (flags : Word) (res : ℤ) :
    SameOff {0} mem (pagingMapRangeLoop 0 flags n res (BitVec.ofNat 32 (4096 * t)) pa mem).2 ∧
    ∀ j < 1024, read32 (pagingMapRangeLoop 0 flags n res (BitVec.ofNat 32 (4096 * t)) pa mem).2
        (nullSlot j) = if t ≤ j ∧ j < t + n then (pa + BitVec.ofNat 32 (4096 * (j - t))) ||| flags
          else read32 mem (nullSlot j) := by
  induction n generalizing mem t pa res with
  | zero => exact ⟨SameOff.refl _ _, fun j _ => (if_neg (by omega)).symm⟩
  | succ n ih =>
    have hwrite := write32_sameOff mem (a := nullSlot t) (by rw [nullSlot_toNat (by omega)]; omega)
      (pa ||| flags)
    rw [nullSlot_page (by omega)] at hwrite
    have hother : ∀ j < 1024, j ≠ t →
        read32 (write32 mem (nullSlot t) (pa ||| flags)) (nullSlot j) = read32 mem (nullSlot j) := by
      intro j hj hne
      refine read32_write32_of_ne ?_ ?_ (nullSlot_ne hj (by omega) hne)
      · rw [nullSlot_toNat (by omega)]
        omega
      · rw [nullSlot_toNat hj]
        omega
    have hnext : BitVec.ofNat 32 (4096 * t) + 4096 = BitVec.ofNat 32 (4096 * (t + 1)) := by
      rw [Nat.mul_add, BitVec.ofNat_add]
      rfl
    rw [pagingMapRangeLoop, pagingMap_null hnull (by omega) hpa, if_neg (lt_irrefl 0), hnext]
    obtain ⟨hsame, hwords⟩ := @ih (write32 mem (nullSlot t) (pa ||| flags))
      ((hother 0 (by omega) (by omega)).trans hnull) (t + 1) (by omega) (by omega) (pa + 4096)
      (by rw [BitVec.toNat_add]; change (pa.toNat + 4096) % 2 ^ 32 % 4096 = 0; omega) 0
    refine ⟨?_, fun j hj => ?_⟩
    · have hboth := hwrite.trans hsame
      rwa [Set.union_self] at hboth
    · rw [hwords j hj]
      rcases lt_trichotomy j t with hlt | rfl | hlt
      · rw [if_neg (by omega), if_neg (by omega), hother j hj (by omega)]
      · rw [if_neg (by omega), if_pos (by omega), Nat.sub_self, read32_write32, Nat.mul_zero,
          BitVec.add_zero]
      · by_cases hin : j < t + 1 + n
        · have hoff : 4096 * (j - t) = 4096 + 4096 * (j - (t + 1)) := by omega
          rw [if_pos ⟨hlt, hin⟩, if_pos (by omega), hoff, BitVec.ofNat_add, BitVec.add_assoc]
          rfl
        · rw [if_neg (by omega), if_neg (by omega), hother j hj (by omega)]

/-- `paging_map_to` of blocks of the pool. -/
lemma pagingMapTo_null (hnull : read32 mem 0 = 0) {b n t : ℕ} (hb : b + n ≤ 25600) (ht : 0 < t)
    (hn : t + n ≤ 1024) (flags : Word) :
    (pagingMapTo mem 0 (BitVec.ofNat 32 (4096 * t)) (blockAddr b) (blockAddr (b + n)) flags).1 = 0 ∧
    SameOff {0} mem
      (pagingMapTo mem 0 (BitVec.ofNat 32 (4096 * t)) (blockAddr b) (blockAddr (b + n)) flags).2 ∧
    ∀ j < 1024, read32 (pagingMapTo mem 0 (BitVec.ofNat 32 (4096 * t)) (blockAddr b)
        (blockAddr (b + n)) flags).2 (nullSlot j) =
      if t ≤ j ∧ j < t + n then blockAddr (b + (j - t)) ||| flags else read32 mem (nullSlot j) := by
  have hva : (BitVec.ofNat 32 (4096 * t)).toNat = 4096 * t := by
    rw [BitVec.toNat_ofNat]
    omega
  have hpa := blockAddr_aligned (b := b) (by omega)
  have hend := blockAddr_aligned (b := b + n) (by omega)
  have hstart := blockAddr_toNat (b := b) (by omega)
  have hstop := blockAddr_toNat (b := b + n) (by omega)
  refine ⟨pagingMapTo_res _ _ (by omega) hpa hend (by omega) _, ?_⟩
  have hpages : ((blockAddr (b + n) - blockAddr b) / 4096).toInt.toNat = n := by
    have hdiff : ((blockAddr (b + n) - blockAddr b) / 4096).toNat = n := by
      rw [BitVec.toNat_udiv, BitVec.toNat_sub, hstart, hstop]
      change (2 ^ 32 - _ + _) % 2 ^ 32 / 4096 = n
      omega
    rw [BitVec.toInt_eq_toNat_of_lt (by omega), hdiff, Int.toNat_natCast]
  obtain ⟨hsame, hwords⟩ := pagingMapRangeLoop_null hnull n t ht hn hpa flags 0
  unfold pagingMapTo pagingMapRange
  simp only [ne_eq, word_mod_eq_zero, hva, hpa, hend, Nat.mul_mod_right, not_true_eq_false, if_false]
  rw [if_neg (by rw [BitVec.lt_def]; omega), hpages]
  refine ⟨hsame, fun j hj => ?_⟩
  rw [hwords j hj]
  by_cases hin : t ≤ j ∧ j < t + n
  · rw [if_pos hin, if_pos hin]
    congr 1
    apply BitVec.eq_of_toNat_eq
    rw [toNat_add_ofNat (by omega), hstart, blockAddr_toNat (by omega)]
    omega
  · rw [if_neg hin, if_neg hin]

end NullChunk

section Starved
variable {file rest : List Byte} {k : Kernel} {s : Kmem} {c : ℕ} {slot : Fin maxProcesses}

/-- A file is still one with more bytes after it. -/
lemma elfImage_append (h : ElfImage file) (hsmall : (file ++ rest).length ≤ 2 ^ 30) :
    ElfImage (file ++ rest) := by
  have hlength : (file ++ rest).length = file.length + rest.length := List.length_append
  have hheader := h.header
  have htable := h.table
  have hbytes := (bytesAt_append.1 (@fileMem_bytesAt (file ++ rest) (by omega))).1
  have hsame := header_of_bytesAt hbytes (by omega) (by omega)
  refine ⟨by omega, hsmall, (elfValidateLoaded_congr hsame).trans h.valid, ?_⟩
  rw [elfPhoff_congr hsame, elfPhnum_congr hsame]
  omega

lemma HoldsFile.left {mem : Mem} {image : Word} (h : HoldsFile mem image (file ++ rest))
    (hfile : ElfImage file) : HoldsFile mem image file :=
  ⟨(bytesAt_append.1 h.bytes).1, hfile⟩

/-- The load of a served file writes nothing below the pool. -/
lemma elfLoad_served_high (hfile : ElfImage file) (h : Frontier s c)
    (hroom : c + 1 + fileBlocks file ≤ 25600) :
    SameOff highPages s.mem (elfLoad (serve file) s).2.2.mem := by
  obtain ⟨hpos, hlen⟩ := hfile.sized.blocks
  have hsmall := hfile.small
  have haddr := blockAddr_toNat (b := c) (by omega)
  have hfirst := (fileStep_frontier h (by omega)).1
  have hopened : SameOff highPages s.mem (fileStep s).2.mem := kzalloc_high _ (by decide)
  have himage : SameOff highPages (fileStep s).2.mem (imageStep (serve file) s).2.mem := by
    rw [imageStep_serve]
    refine kzalloc_high _ ?_
    rw [hfile.sized.length_toNat]
    omega
  have hfields : ∀ n m x, n + m ≤ 4096 → InRange (blockAddr c + BitVec.ofNat 32 n) m x →
      pageOf x ∈ highPages := by
    intro n m x hn hx
    have hsum := toNat_add_ofNat (a := blockAddr c) (k := n) (by omega)
    have hlt := x.isLt
    unfold InRange at hx
    rw [BitVec.toNat_sub, hsum] at hx
    rw [Set.mem_Ici, pageOf]
    omega
  rw [(loads_served hfile h hroom).elfLoad_eq]
  refine high_trans (high_trans hopened himage) fun x hx => ?_
  change (loadStep (serve file) s).2 x = _
  rw [loadStep, hfirst, elfProcessLoaded_frame fun hin => hx (hfields 116 16 x (by omega) hin),
    readStep_served hfile.sized h hroom]
  change writeBytes (storeStep (serve file) s).mem _ file x = _
  rw [writeBytes_of_not fun n hn heq => hx ?_]
  · rw [storeStep, hfirst]
    exact if_neg fun hin => hx (hfields 112 4 x (by omega) hin)
  · rw [← heq, pageOf_blockAddr_byte (by omega) (by omega), Set.mem_Ici]
    omega

lemma taskNew_full (h : Frontier k.kmem 25600) (process : Word) :
    taskNew k process = (errorPtr (-enomem), k) := by
  have hnull := (kzalloc_full h le_rfl 64).resolve_right (by decide)
  unfold taskNew
  rw [hnull]
  exact if_pos rfl

/-- A segment that is mapped as page `t`, to block `b` of the pool. -/
structure MapsBlock (h : Phdr) (image : Word) (b t : ℕ) : Prop where
  block : b + 1 ≤ 25600
  page : 0 < t ∧ t < 1024
  virtual : pagingAlignToLowerPage h.vaddr = BitVec.ofNat 32 (4096 * t)
  start : pagingAlignToLowerPage (image + h.offset) = blockAddr b
  stop : pagingAlignAddress (image + h.offset + h.memsz) = blockAddr (b + 1)

variable {mem : Mem} {h : Phdr} {image : Word} {b t : ℕ} {p : Process}

/-- One segment is mapped through a null chunk. -/
lemma processMapElf_null (hnull : read32 mem 0 = 0) (hseg : MapsBlock h image b t)
    (hfile : HoldsFile mem image (oneSegment h)) (hhigh : ∀ n < 84, pageOf (image + BitVec.ofNat 32 n) ≠ 0)
    (hheader : elfMemory mem p.data = image) :
    (processMapElf mem 0 p).1 = 0 ∧ SameOff {0} mem (processMapElf mem 0 p).2 ∧
    ∀ j < 1024, read32 (processMapElf mem 0 p).2 (nullSlot j) =
      if j = t then blockAddr b ||| segmentFlags h else read32 mem (nullSlot j) := by
  obtain ⟨hres, hsame, hwords⟩ := pagingMapTo_null hnull hseg.block hseg.page.1
    (show t + 1 ≤ 1024 from hseg.page.2) (segmentFlags h)
  have hphnum := hfile.phnum
  have hphdr := hfile.phdr (i := 0) (by rw [elfPhnum_oneSegment]; decide)
  have hheaders := fileHeaders_oneSegment h
  rw [fileHeaders, elfPhnum_oneSegment] at hheaders
  have hfirst : readPhdr mem (elfPheader mem image + BitVec.ofNat 32 (32 * 0)) = h := by
    rw [hfile.pheader, hphdr]
    exact (List.cons.inj hheaders).1
  have hmapped : mapSegment mem 0 (elfPhdrPhysAddress mem p.data h) h =
      pagingMapTo mem 0 (BitVec.ofNat 32 (4096 * t)) (blockAddr b) (blockAddr (b + 1))
        (segmentFlags h) := by
    rw [mapSegment, elfPhdrPhysAddress, hheader, hseg.virtual, hseg.start, hseg.stop]
  rw [elfPhnum_oneSegment] at hphnum
  have hloop : processMapElf mem 0 p = pagingMapTo mem 0 (BitVec.ofNat 32 (4096 * t)) (blockAddr b)
      (blockAddr (b + 1)) (segmentFlags h) := by
    have hnull : elfHeader mem p.data = image := hheader
    rw [processMapElf, hnull]
    change processMapElfLoop 0 p.data image (elfPheader mem image) (65534 + 1 + 1) 0 0 mem = _
    rw [processMapElfLoop, hphnum, if_pos (by decide), hfirst]
    dsimp only
    rw [hmapped]
    generalize pagingMapTo mem 0 (BitVec.ofNat 32 (4096 * t)) (blockAddr b) (blockAddr (b + 1))
      (segmentFlags h) = r at *
    have hphnum' := (hfile.same hsame hhigh).phnum
    rw [elfPhnum_oneSegment] at hphnum'
    rw [if_neg (by omega), processMapElfLoop, hphnum', if_neg (by decide)]
  rw [hloop]
  refine ⟨hres, hsame, fun j hj => ?_⟩
  rw [hwords j hj]
  by_cases hjt : j = t
  · rw [if_pos (by omega), if_pos hjt, hjt, Nat.sub_self, Nat.add_zero]
  · rw [if_neg (by omega), if_neg hjt]

/-- The memory is filled but for what a load of the file needs before its task is created. -/
structure Starving (k : Kernel) (file : List Byte) (h : Phdr) (c b t : ℕ) : Prop where
  frontier : Frontier k.kmem c
  full : c + 8 + fileBlocks file = 25600
  small : file.length ≤ 2 ^ 30
  segment : ∃ rest, file = oneSegment h ++ rest
  mapped : MapsBlock h (blockAddr (c + 4)) b t
  task : (k.tasks (errorPtr (-enomem))).pageDirectory = 0
  null : ∀ j < 1024, read32 k.kmem.mem (nullSlot j) = 0

/-- The kernel after the load. -/
structure Starved (k k' : Kernel) (slot : Fin maxProcesses) (file : List Byte) (h : Phdr)
    (c b t : ℕ) : Prop where
  processes : k'.processes = Function.update k.processes slot (blockAddr c)
  currentProcess : k'.currentProcess = k.currentProcess
  tasks : k'.tasks = k.tasks
  process : k'.procs (blockAddr c) = { zeroProcess with
    fileType := processFiletypeElf
    data := blockAddr (c + 3)
    stack := blockAddr (c + 4 + fileBlocks file)
    id := BitVec.ofNat 16 slot
    task := errorPtr (-enomem) }
  entries : k'.kmem.entries = (stackStep (serve file) k).2.entries
  image : elfMemory k'.kmem.mem (blockAddr (c + 3)) = blockAddr (c + 4)
  words : ∀ j < 1024, read32 k'.kmem.mem (nullSlot j) =
    if 1019 ≤ j ∧ j < 1019 + 4 then blockAddr (c + 4 + fileBlocks file + (j - 1019)) |||
      (pagingIsPresent ||| pagingAccessFromAll ||| pagingIsWritable)
    else if j = t then blockAddr b ||| segmentFlags h else 0

lemma Starving.elfImage (hs : Starving k file h c b t) : ElfImage file := by
  obtain ⟨rest, rfl⟩ := hs.segment
  exact elfImage_append (elfImage_oneSegment h) hs.small

lemma Starving.high (hs : Starving k file h c b t) :
    SameOff highPages k.kmem.mem (stackStep (serve file) k).2.mem := by
  have hfull := hs.full
  obtain ⟨-, hnext⟩ := processStep_frontier hs.frontier (by omega)
  have hstruct : SameOff highPages k.kmem.mem (processStep k).2.mem := kzalloc_high _ (by decide)
  exact high_trans (high_trans hstruct (elfLoad_served_high hs.elfImage hnext (by omega)))
    (kzalloc_high _ (by decide))

/-- The process is mapped through address 0. -/
lemma Starving.processMapMemory (hs : Starving k file h c b t) {p : Process}
    (helf : p.fileType = processFiletypeElf) (hdata : p.data = blockAddr (c + 3))
    (hstack : p.stack = blockAddr (c + 4 + fileBlocks file)) :
    ∃ mem, processMapMemory (stackStep (serve file) k).2.mem 0 p = some (0, mem) ∧
      SameOff {0} (stackStep (serve file) k).2.mem mem ∧
      ∀ j < 1024, read32 mem (nullSlot j) =
        if 1019 ≤ j ∧ j < 1019 + 4 then blockAddr (c + 4 + fileBlocks file + (j - 1019)) |||
          (pagingIsPresent ||| pagingAccessFromAll ||| pagingIsWritable)
        else if j = t then blockAddr b ||| segmentFlags h else 0 := by
  have hfull := hs.full
  have hpage := hs.mapped.page
  obtain ⟨-, -, -, -, hheader, hholds⟩ := loadedKernel_served hs.elfImage hs.frontier (by omega)
  have hnull : ∀ j < 1024, read32 (stackStep (serve file) k).2.mem (nullSlot j) = 0 := by
    intro j hj
    have hword := nullSlot_toNat hj
    rw [low_word hs.high (by omega) (by omega)]
    exact hs.null j hj
  generalize (stackStep (serve file) k).2.mem = mem at *
  have hfile : HoldsFile mem (blockAddr (c + 4)) (oneSegment h) := by
    obtain ⟨rest, rfl⟩ := hs.segment
    exact hholds.left (elfImage_oneSegment h)
  obtain ⟨hres, hsame, hwords⟩ := processMapElf_null (hnull 0 (by omega)) hs.mapped hfile
    (fun n hn => by
      rw [pageOf_blockAddr_byte (by omega) (by omega)]
      omega) (show elfMemory mem p.data = blockAddr (c + 4) by rw [hdata, hheader])
  have hnull' : read32 (processMapElf mem 0 p).2 0 = 0 := by
    have hzero := hwords 0 (by omega)
    rw [if_neg (by omega), hnull 0 (by omega)] at hzero
    exact hzero
  have hroom : c + 4 + fileBlocks file + 4 ≤ 25600 := by omega
  obtain ⟨-, hsame', hwords'⟩ := pagingMapTo_null hnull' hroom (show 0 < 1019 by omega)
    (show 1019 + 4 ≤ 1024 by omega)
    (pagingIsPresent ||| pagingAccessFromAll ||| pagingIsWritable)
  have hend : pagingAlignAddress (p.stack + userProgramStackSize) =
      blockAddr (c + 4 + fileBlocks file + 4) := by
    have hnext : blockAddr (c + 4 + fileBlocks file) + userProgramStackSize =
        blockAddr (c + 4 + fileBlocks file + 4) := by
      apply BitVec.eq_of_toNat_eq
      have hstart := blockAddr_toNat (b := c + 4 + fileBlocks file) (by omega)
      rw [BitVec.toNat_add, hstart, blockAddr_toNat (by omega)]
      change (_ + 16384) % 2 ^ 32 = _
      omega
    rw [hstack, hnext, pagingAlignAddress, if_neg]
    rw [not_not, word_mod_eq_zero]
    exact blockAddr_aligned (by omega)
  have hvirtual : programVirtualStackAddressEnd = BitVec.ofNat 32 (4096 * 1019) := by decide
  have hmap : Processes.processMapMemory mem 0 p = some (0, (pagingMapTo (processMapElf mem 0 p).2 0
      (BitVec.ofNat 32 (4096 * 1019)) (blockAddr (c + 4 + fileBlocks file))
      (blockAddr (c + 4 + fileBlocks file + 4))
      (pagingIsPresent ||| pagingAccessFromAll ||| pagingIsWritable)).2) := by
    rw [Processes.processMapMemory, if_pos helf, Option.map_some, hres, if_neg (lt_irrefl 0), hend,
      hstack, hvirtual]
  refine ⟨_, hmap, ?_, fun j hj => ?_⟩
  · have hboth := hsame.trans hsame'
    rwa [Set.union_self] at hboth
  · rw [hwords' j hj]
    split_ifs with hin hjt
    · rfl
    · rw [hwords j hj, if_pos hjt]
    · rw [hwords j hj, if_neg hjt, hnull j hj]

/-- The load does not notice that `task_new` failed and registers the process. -/
theorem Starving.processLoad (hs : Starving k file h c b t)
    (hslot : processGetFreeSlot k = some slot) :
    ∃ k', processLoad (serve file) k = some (0, blockAddr c, k') ∧ Starved k k' slot file h c b t := by
  have hfull := hs.full
  obtain ⟨hprocess, hdata, hstack, hend, hheader, -⟩ := loadedKernel_served hs.elfImage hs.frontier
    (by omega)
  have hne : ∀ b < 25600, blockAddr b ≠ 0 := fun b hb => blockAddr_ne_zero (by omega)
  have hcount : c + 4 + fileBlocks file + 4 = 25600 := by omega
  rw [hcount, ← loadedKernel_kmem (serve file) k slot] at hend
  have htask := taskNew_full hend (processStep k).1
  have hself := startedKernel_procs (loadedKernel (serve file) k slot) (processStep k).1
  rw [htask, loadedKernel_procs] at hself
  have hkmem := startedKernel_kmem (loadedKernel (serve file) k slot) (processStep k).1
  rw [htask, loadedKernel_kmem] at hkmem
  have htasks := startedKernel_tasks (loadedKernel (serve file) k slot) (processStep k).1
  rw [htask, loadedKernel_tasks] at htasks
  have htable : (startedKernel (loadedKernel (serve file) k slot) (processStep k).1).processes =
      k.processes ∧ (startedKernel (loadedKernel (serve file) k slot) (processStep k).1).currentProcess =
        k.currentProcess := by
    rw [startedKernel, htask]
    exact ⟨rfl, rfl⟩
  rw [processLoad_some hslot, processLoadForSlot_eq (processGetFreeSlot_free hslot), hstack,
    if_neg (by rw [hprocess]; exact hne c (by omega)), if_neg (hne _ (by omega)), processStart_eq]
  generalize startedKernel (loadedKernel (serve file) k slot) (processStep k).1 = started at *
  rw [hprocess] at hself ⊢
  have hprocs : started.procs (blockAddr c) = { zeroProcess with
      fileType := processFiletypeElf
      data := blockAddr (c + 3)
      stack := blockAddr (c + 4 + fileBlocks file)
      id := BitVec.ofNat 16 slot
      task := errorPtr (-enomem) } := by
    rw [hself, fileProcess, hdata, hstack]
  have hdirectory : started.pageDirectory (blockAddr c) = 0 := by
    rw [Kernel.pageDirectory, hprocs, htasks]
    exact hs.task
  obtain ⟨mem, hmap, hsame, hwords⟩ := hs.processMapMemory (p := started.procs (blockAddr c))
    (by rw [hprocs]) (by rw [hprocs]) (by rw [hprocs])
  rw [hkmem, hdirectory, hmap, Option.map_some, if_neg (lt_irrefl 0)]
  refine ⟨_, rfl, ⟨?_, htable.2, htasks, hprocs, ?_, ?_, hwords⟩⟩
  · rw [← htable.1]
    rfl
  · rw [← hkmem]
    rfl
  · rw [← hheader]
    refine read32_eq_of_same fun x hx => hsame x ?_
    rw [elfMemory_page (by omega) hx, Set.mem_singleton_iff]
    omega

/-! The termination of such a process. -/

lemma allocated_same {s s' : Kmem} {b n : ℕ} (h : Allocated s.kernelHeap b n)
    (hsame : ∀ j : ℕ, b ≤ j → j < b + n → s'.entries j = s.entries j) :
    Allocated s'.kernelHeap b n := by
  refine ⟨h.1, ?_, fun j hj => ?_⟩
  · rw [s'.total_toNat, ← s.total_toNat]
    exact h.2.1
  · rw [← h.2.2 j hj]
    exact hsame (b + j) (by omega) (by omega)

/-- The table holds `F` in the pool, and no chain runs into the pool from below. -/
structure Shows (s : Kmem) (mem : Mem) (F : ℕ → Byte) : Prop where
  mem : s.mem = mem
  low : Low s.entries
  entries : ∀ j : ℕ, j < 25600 → s.entries j = F j

section Shows
variable {mem : Mem} {F : ℕ → Byte} {b n : ℕ} {ptr : Word}

lemma Shows.kfree_far (hs : Shows s mem F) (hfar : heapAddressToBlock s.kernelHeap ptr ≤ -4096) :
    Shows (kfree s ptr) mem F :=
  ⟨hs.mem, hs.low.kfree, fun j hj => (hs.low.kfree_far hfar (by omega)).trans (hs.entries j hj)⟩

lemma Shows.kfree_null (hs : Shows s mem F) : Shows (kfree s 0) mem F :=
  hs.kfree_far (heapAddressToBlock_null s).le

/-- Freeing an allocation clears its entries. -/
lemma Shows.kfree_run (hs : Shows s mem F) (hn : 0 < n) (hb : b + n ≤ 25600)
    (hrun : ∀ j < n, F (b + j) = blockEntry n j) :
    Shows (kfree s (blockAddr b)) mem fun j => if b ≤ j ∧ j < b + n then entryFree else F j := by
  have hallocated : Allocated s.kernelHeap b n := by
    refine ⟨hn, by rw [s.total_toNat]; exact hb, fun j hj => ?_⟩
    rw [← hrun j hj, ← hs.entries (b + j) (by omega)]
  refine ⟨hs.mem, hs.low.kfree, fun j hj => ?_⟩
  rw [kfree_spec s hallocated, ← hs.entries j hj]
  exact overwrite_natCast s.entries b n (fun _ => entryFree) j

/-- Freeing a free block changes nothing. -/
lemma Shows.kfree_free (hs : Shows s mem F) (hb : b < 25600) (hfree : F b = entryFree) :
    Shows (kfree s (blockAddr b)) mem F := by
  rw [← hs.entries b hb] at hfree
  refine ⟨hs.mem, hs.low.kfree, fun j hj => ?_⟩
  rw [← hs.entries j hj]
  by_cases hjb : j = b
  · subst hjb
    obtain ⟨m, -, heq⟩ := BlockHeap.kfree_run s (blockAddr j)
    rw [heq, hfree]
    split_ifs <;> rfl
  · exact kfree_single (by omega) (noNext_free hfree) fun heq => hjb (Nat.cast_inj.1 heq)

end Shows

lemma elfLoad_served_entries (hfile : ElfImage file) (h : Frontier s c)
    (hroom : c + 1 + fileBlocks file ≤ 25600) :
    (elfLoad (serve file) s).2.2.entries = (imageStep (serve file) s).2.entries := by
  rw [(loads_served hfile h hroom).elfLoad_eq]
  change (readStep (serve file) s).2.entries = _
  rw [readStep_served hfile.sized h hroom]
  rfl

/-- The blocks of the process on the filled heap. -/
structure FilledBy (s s' : Kmem) (file : List Byte) (c : ℕ) : Prop where
  low : Low s.entries → Low s'.entries
  taken : ∀ b < 25600, ¬ IsFree s'.entries b
  before : ∀ b < c, s'.entries b = s.entries b
  elfFile : Allocated s'.kernelHeap (c + 3) 1
  image : Allocated s'.kernelHeap (c + 4) (fileBlocks file)
  stack : Allocated s'.kernelHeap (c + 4 + fileBlocks file) 4

lemma Starving.filled (hs : Starving k file h c b t) :
    FilledBy k.kmem (stackStep (serve file) k).2 file c := by
  have hfull := hs.full
  have hpos := hs.elfImage.sized.blocks.1
  obtain ⟨-, hprocess⟩ := processStep_frontier hs.frontier (by omega)
  obtain ⟨-, hfile⟩ := fileStep_frontier hprocess (by omega)
  obtain ⟨-, himage⟩ := imageStep_served hs.elfImage.sized hprocess (by omega)
  obtain ⟨-, -, -, hend, -⟩ := loadedKernel_served hs.elfImage hs.frontier (by omega)
  have hentries := elfLoad_served_entries hs.elfImage hprocess (by omega)
  have hdata : Frontier (dataStep (serve file) k).2.2 (c + 3 + 1 + fileBlocks file) := by
    refine ⟨fun b hb => ?_, fun b h1 h2 => ?_⟩ <;> rw [IsFree, dataStep, hentries]
    · exact himage.taken b hb
    · exact himage.free b h1 h2
  have hstack : Allocated (stackStep (serve file) k).2.kernelHeap (c + 3 + 1 + fileBlocks file) 4 :=
    frontier_allocated hdata (by decide) (by omega) (by omega)
  have himageRun : Allocated (imageStep (serve file) (processStep k).2).2.kernelHeap (c + 3 + 1)
      (fileBlocks file) := by
    rw [imageStep_serve]
    exact frontier_allocated hfile rfl hpos (by omega)
  have hfileRun : Allocated (fileStep (processStep k).2).2.kernelHeap (c + 3) 1 :=
    frontier_allocated hprocess (by decide) (by omega) (by omega)
  -- what is taken before a request stays as it is
  have hlast : ∀ b < c + 3 + 1 + fileBlocks file, (stackStep (serve file) k).2.entries b =
      (imageStep (serve file) (processStep k).2).2.entries b := by
    intro b hb
    rw [← hentries]
    exact kzalloc_taken _ _ (by omega) (hdata.taken b hb)
  have hkept : ∀ b < c + 4, (imageStep (serve file) (processStep k).2).2.entries b =
      (fileStep (processStep k).2).2.entries b := by
    intro b hb
    rw [imageStep_serve]
    exact kzalloc_taken _ _ (by omega) (hfile.taken b hb)
  refine ⟨fun hlow => ?_, fun b hb => hend.taken b (by omega), fun b hb => ?_, ?_, ?_, hstack⟩
  · have hlow₁ : Low (processStep k).2.entries := hlow.kzalloc 9364
    have hlow₂ : Low (fileStep (processStep k).2).2.entries := hlow₁.kzalloc 132
    have hlow₃ : Low (dataStep (serve file) k).2.2.entries := by
      rw [dataStep, hentries, imageStep_serve]
      exact hlow₂.kzalloc _
    exact hlow₃.kzalloc userProgramStackSize
  · rw [hlast b (by omega), hkept b (by omega)]
    have hsecond : (fileStep (processStep k).2).2.entries b = (processStep k).2.entries b :=
      kzalloc_taken _ _ (by omega) (hprocess.taken b (by omega))
    rw [hsecond]
    exact kzalloc_taken _ _ (by omega) (hs.frontier.taken b hb)
  · exact allocated_same hfileRun fun j h1 h2 => by rw [hlast j (by omega), hkept j (by omega)]
  · exact allocated_same himageRun fun j h1 h2 => hlast j h2

/-- The table once the data, the stack and the directory are freed. -/
def clearedFrom (c : ℕ) (F : ℕ → Byte) : ℕ → Byte := fun j => if c + 3 ≤ j then entryFree else F j

lemma Starved.data_freed (hs : Starving k file h c b t) (hstate : Starved k k' slot file h c b t)
    {F : ℕ → Byte} (hF : ∀ j : ℕ, j < 25600 → F j = k'.kmem.entries j) (htable : Shows s k'.kmem.mem F) :
    Shows (kfree (elfClose s (blockAddr (c + 3))) (blockAddr (c + 4 + fileBlocks file))) k'.kmem.mem
      (clearedFrom c F) := by
  have hfull := hs.full
  have hlayout := hs.filled
  have hpos := hs.elfImage.sized.blocks.1
  have hrun : ∀ {b n}, Allocated (stackStep (serve file) k).2.kernelHeap b n → b + n ≤ 25600 →
      ∀ j < n, F (b + j) = blockEntry n j := by
    intro b n halloc hbound j hj
    rw [hF (b + j) (by omega), hstate.entries]
    exact halloc.2.2 j hj
  have himage := htable.kfree_run hpos (by omega) (hrun hlayout.image (by omega))
  have hfile := himage.kfree_run (b := c + 3) one_pos (by omega) fun j hj => by
    rw [if_neg (by omega)]
    exact hrun hlayout.elfFile (by omega) j hj
  have hstack := hfile.kfree_run (b := c + 4 + fileBlocks file) (n := 4) (by omega) (by omega)
    fun j hj => by
      rw [if_neg (by omega), if_neg (by omega)]
      exact hrun hlayout.stack (by omega) j hj
  have himageWord : elfMemory s.mem (blockAddr (c + 3)) = blockAddr (c + 4) := by
    rw [htable.mem]
    exact hstate.image
  rw [elfClose, if_neg (blockAddr_ne_zero (by omega)), himageWord]
  refine ⟨hstack.mem, hstack.low, fun j hj => (hstack.entries j hj).trans ?_⟩
  unfold clearedFrom
  split_ifs <;> first | rfl | omega

/-- The tables that `paging_free_4gb` finds at address 0. -/
lemma Starved.tables (hs : Starving k file h c b t) (hstate : Starved k k' slot file h c b t) {j : ℕ}
    (hj : j < 1024) : pagingTable k'.kmem.mem 0 j =
      if 1019 ≤ j ∧ j < 1019 + 4 then blockAddr (c + 4 + fileBlocks file + (j - 1019))
      else if j = t then blockAddr b else 0 := by
  have hfull := hs.full
  have hblock := hs.mapped.block
  rw [pagingTable, zero_add, hstate.words j hj]
  split_ifs with hin hjt
  · exact and_page_or_flags (blockAddr_aligned (by omega)) (by decide)
  · exact and_page_or_flags (blockAddr_aligned (by omega)) (segmentFlags_lt h)
  · rfl

/-- The directory that the error pointer stands for is freed, and block 0 with it. -/
lemma Starved.directory_freed (hs : Starving k file h c 0 1) (hstate : Starved k k' slot file h c 0 1)
    {F : ℕ → Byte} (hfirst : ∀ j < 3, F j = blockEntry 3 j) (hc : 3 ≤ c)
    (hcleared : ∀ j, c + 3 ≤ j → F j = entryFree) (htable : Shows s k'.kmem.mem F) :
    Shows (pagingFree4gb s 0) k'.kmem.mem fun j => if j < 3 then entryFree else F j := by
  have hfull := hs.full
  have hnull : read32 k'.kmem.mem 0 = 0 := by
    have hzero := hstate.words 0 (by omega)
    rw [if_neg (by omega), if_neg (by omega)] at hzero
    exact hzero
  have htables := fun {j} => hstate.tables hs (j := j)
  have hstart : ∀ j, read32 k'.kmem.mem (read32 k'.kmem.mem 0 + BitVec.ofNat 32 (4 * j)) &&&
      0xFFFFF000#32 = pagingTable k'.kmem.mem 0 j := fun j => by
    rw [hnull, pagingTable]
  have htwo := (htable.kfree_null.kfree_run (b := 0) (n := 3) (by omega) (by omega) fun j hj => by
    rw [Nat.zero_add]
    exact hfirst j hj)
  obtain ⟨hrest, -⟩ := @pagingFreeTables_induct k'.kmem.mem 0
    (fun s => Shows s k'.kmem.mem fun j => if j < 3 then entryFree else F j) 1022 2
    (kfree (kfree s 0) (blockAddr 0)) htwo.mem
    ⟨htwo.mem, htwo.low, fun j hj => by
      rw [htwo.entries j hj]
      exact if_congr (by omega) rfl rfl⟩ fun s j h1 h2 hshows => by
    rw [hstart, htables (by omega)]
    split_ifs with hin hone
    · exact hshows.kfree_free (by omega) (by rw [if_neg (by omega)]; exact hcleared _ (by omega))
    · omega
    · exact hshows.kfree_null
  have hall : pagingFreeTables 0 1024 0 s =
      pagingFreeTables 0 1022 2 (kfree (kfree s 0) (blockAddr 0)) := by
    change pagingFreeTables 0 (1022 + 1 + 1) 0 s = _
    rw [pagingFreeTables, pagingFreeTables, kfree_mem, htable.mem]
    rw [hstart, hstart, htables (by omega), htables (by omega), if_neg (by omega), if_neg (by omega),
      if_neg (by omega), if_pos rfl]
  rw [pagingFree4gb, hall, hrest.mem, hnull]
  exact hrest.kfree_null.kfree_null

/-- `process_terminate` of the process frees block 0 of the pool. -/
theorem Starved.terminate (hs : Starving k file h c 0 1) (hstate : Starved k k' slot file h c 0 1)
    (hc : 3 ≤ c) (hlow : Low k.kmem.entries) (hfirst : ∀ j : ℕ, j < 3 → k.kmem.entries j = blockEntry 3 j)
    (hcurrent : k.currentProcess = 0) :
    ∃ k₁, processTerminate k' (blockAddr c) = some k₁ ∧
      k₁.processes = Function.update k'.processes slot 0 ∧
      Shows k₁.kmem k'.kmem.mem fun j => if j < 3 ∨ c + 3 ≤ j then entryFree else k'.kmem.entries j := by
  have hfull := hs.full
  have hlayout := hs.filled
  have hempty : ∀ i, k'.record (blockAddr c) i = ⟨0, 0⟩ := fun i => by
    rw [Kernel.record, hstate.process]
    rfl
  have hbefore : Shows k'.kmem k'.kmem.mem fun j => k'.kmem.entries j :=
    ⟨rfl, by rw [hstate.entries]; exact hlayout.low hlow, fun _ _ => rfl⟩
  obtain ⟨s, hrecords, hnulls⟩ := processTerminateAllocation_empty
    (P := fun s => Shows s k'.kmem.mem fun j => k'.kmem.entries j)
    (fun _ hs => hs.kfree_null) hempty hbefore
  have hdata := hstate.data_freed hs (fun _ _ => rfl) hnulls
  have hdirectory := hstate.directory_freed hs (fun j hj => by
    refine (if_neg (by omega)).trans ?_
    rw [hstate.entries, hlayout.before j (by omega)]
    exact hfirst j hj) hc (fun j hj => if_pos hj) hdata
  obtain ⟨s₁, hs₁⟩ : ∃ s₁, s₁ = kfree (elfClose s (blockAddr (c + 3)))
      (blockAddr (c + 4 + fileBlocks file)) := ⟨_, rfl⟩
  rw [← hs₁] at hdirectory
  have hchunk : (k'.tasks (errorPtr (-enomem))).pageDirectory = 0 := by
    rw [hstate.tasks]
    exact hs.task
  obtain ⟨hprocesses, hcur, -⟩ := taskFree_table (k'.withKmem s₁) (errorPtr (-enomem))
  obtain ⟨hkmem, hprocs⟩ := taskFree_memory (k'.withKmem s₁) (errorPtr (-enomem))
  have hfreed : (taskFree (k'.withKmem s₁) (errorPtr (-enomem))).kmem =
      kfree (pagingFree4gb s₁ 0) (errorPtr (-enomem)) := by
    rw [hkmem, Kernel.withKmem_tasks, hchunk]
    rfl
  have hfar : heapAddressToBlock (pagingFree4gb s₁ 0).kernelHeap (errorPtr (-enomem)) ≤ -4096 := by
    rw [heapAddressToBlock, Kmem.saddr_eq]
    decide
  have hend : processTerminate k' (blockAddr c) =
      processUnlik (taskFree (k'.withKmem s₁) (errorPtr (-enomem))) (blockAddr c) := by
    rw [processTerminate_elf (by rw [hstate.process]) hrecords, hstate.process, hs₁]
  rw [hend]
  generalize taskFree (k'.withKmem s₁) (errorPtr (-enomem)) = k₁ at *
  have hid : (k₁.procs (blockAddr c)).id.toNat = slot := by
    rw [hprocs, Kernel.withKmem_procs, hstate.process, BitVec.toNat_ofNat]
    have hlt : (slot : ℕ) < 12 := slot.isLt
    exact Nat.mod_eq_of_lt (by omega)
  have hother : k₁.currentProcess ≠ blockAddr c := by
    rw [hcur]
    change k'.currentProcess ≠ _
    rw [hstate.currentProcess, hcurrent]
    exact (blockAddr_ne_zero (by omega)).symm
  rw [processUnlik, clearSlot_eq hid]
  refine ⟨_, if_neg hother, ?_, ?_⟩
  · have hupdate : Function.update k₁.processes slot 0 = Function.update k'.processes slot 0 := by
      rw [hprocesses]
      rfl
    exact hupdate
  · have hlast := hdirectory.kfree_far hfar
    rw [← hfreed] at hlast
    refine ⟨hlast.mem, hlast.low, fun j hj => (hlast.entries j hj).trans ?_⟩
    split_ifs <;> first | rfl | omega

/-- The next process structure takes the blocks from 0 on. -/
lemma Starved.refilled {mem : Mem} {F : ℕ → Byte} (hfull : ∀ b < 25600, ¬ heapGetEntryType (F b) = entryFree)
    (hc : c + 3 ≤ 25600)
    (hs : Shows s mem fun j => if j < 3 ∨ c + 3 ≤ j then entryFree else F j) :
    (kzalloc s 9364).1 = blockAddr 0 ∧ Frontier (kzalloc s 9364).2 (c + 3) := by
  have hcount : (heapBlocksFor 9364).toNat = 3 := by decide
  have hfit : FitsAt s.entries 25600 (heapBlocksFor 9364).toNat 0 := by
    refine ⟨by omega, fun j _ hj => ?_⟩
    rw [IsFree, hs.entries j (by omega), if_pos (by omega)]
    decide
  obtain ⟨b, -, hleast, heq⟩ := kzalloc_room s (by omega) ⟨0, hfit⟩
  obtain rfl : b = 0 := by
    by_contra hne
    exact hleast 0 (by omega) hfit
  have hentries : ∀ j : ℕ, (kzalloc s 9364).2.entries j =
      if 0 ≤ j ∧ j < 0 + 3 then blockEntry 3 (j - 0) else s.entries j := by
    intro j
    rw [heq, hcount]
    exact overwrite_natCast s.entries 0 3 (blockEntry 3) j
  refine ⟨congrArg Prod.fst heq, fun j hj => ?_, fun j h1 h2 => ?_⟩ <;> rw [IsFree, hentries]
  · by_cases hj3 : j < 3
    · rw [if_pos (by omega), blockEntry_type]
      decide
    · rw [if_neg (by omega), hs.entries j (by omega), if_neg (by omega)]
      exact hfull j (by omega)
  · rw [if_neg (by omega), hs.entries j h2, if_pos (by omega)]
    decide

end Starved

end AlphaOS.Processes
