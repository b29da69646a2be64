import AlphaOS.DiskLoad
import AlphaOS.ProgramReach

/-! A program on a volume gets the memory it asks for: the process that is loaded from it reads the
segments of the file at their addresses. -/
namespace AlphaOS.Processes
open Elf Kheap Paging

variable {image : Word} {hs : List Phdr} {h : Phdr}

/-- Empty segments at page boundaries map no page. -/
lemma emptyHarmless_of_aligned (haligned : ∀ h ∈ hs, h.memsz.toNat = 0 → h.offset.toNat % 4096 = 0) :
    EmptyHarmless image hs := by
  rintro before h after rfl hzero hoff
  exact absurd (haligned h (by simp) hzero) hoff

/-- A segment that ends within 2 GiB of the file is not refused. -/
lemma ordered_of_fits {b : ℕ} (hb : b < 25600) (hfits : h.offset.toNat + h.memsz.toNat ≤ 2 ^ 31) :
    Ordered (blockAddr b) h := by
  have haddr := blockAddr_toNat (b := b) (by omega)
  have hstart : (blockAddr b + h.offset).toNat = (blockAddr b).toNat + h.offset.toNat := by
    rw [BitVec.toNat_add]
    omega
  have hend : (blockAddr b + h.offset + h.memsz).toNat =
      (blockAddr b).toNat + h.offset.toNat + h.memsz.toNat := by
    rw [BitVec.toNat_add, hstart]
    omega
  rw [Ordered, firstFrame, pagingAlignToLowerPage_toNat, pagingAlignAddress_toNat (by omega)]
  omega

end AlphaOS.Processes

namespace AlphaOS.Fat16
open BlockHeap CString Elf Files Kheap Paging PathParser Processes Streamer WordMemory

variable {fuel : ℕ} {disk : Disk} {v : Storage FatState} {C : Content} {p : FatPrivate}
  {b c m n j f a : ℕ} {k : FileState FatState} {T : Table} {i : Fin maxFiledescriptors} {s : Kmem}
  {args : LoadArguments} {name file : List Byte} {q : Kernel} {slot : Fin maxProcesses} {files : FileCalls}
  {process : Word}

/-- The pages of the file and of its `elf_file`. -/
def imagePages (file : List Byte) (f a : ℕ) : Set ℕ :=
  {x | x = 4096 + f ∨ ∃ d, a ≤ d ∧ d < a + fileBlocks file ∧ x = 4096 + d}

lemma ImageAt.page (h : ImageAt s file f a) (hsize : Sized file) (hn : n < file.length) :
    pageOf (blockAddr a + BitVec.ofNat 32 n) ∈ imagePages file f a := by
  have hpage := pageOf_image h.pool hsize (inRange_image hsize hn)
  exact .inr ⟨pageOf (blockAddr a + BitVec.ofNat 32 n) - 4096, by omega, by omega, by omega⟩

/-- They are taken. -/
lemma ImageAt.not_free (h : ImageAt s file f a) {x : ℕ} (hx : x ∈ imagePages file f a) :
    4096 ≤ x ∧ ¬ IsFree s.entries (x - 4096) := by
  rcases hx with rfl | ⟨d, hlow, hhigh, rfl⟩
  · rw [Nat.add_sub_cancel_left]
    exact ⟨by omega, h.filePinned.taken f le_rfl (by omega)⟩
  · rw [Nat.add_sub_cancel_left]
    exact ⟨by omega, h.imagePinned.taken d hlow hhigh⟩

lemma ImageAt.pointer_word (h : ImageAt s file f a) : (blockAddr f + 112).toNat % 4 = 0 ∧
    pageOf (blockAddr f + 112) ∈ imagePages file f a := by
  have hlt := h.lt
  have hword := toNat_add_ofNat (a := blockAddr f) (k := 112) (by
    rw [blockAddr_toNat (by omega)]
    omega)
  rw [blockAddr_toNat (by omega)] at hword
  have hpage : pageOf (blockAddr f + 112) = 4096 + f :=
    pageOf_blockAddr_add (k := 112) (by omega) (by omega)
  exact ⟨hword ▸ by omega, .inl hpage⟩

/-- The mapping of a process reads the headers of its file and refuses none. -/
lemma ImageAt.maps {q : Kernel} (h : ImageAt q.kmem file f a) (himage : ElfImage file)
    (htask : Tasks.isErr (Tasks.taskNew q process).1 = false) (hdata : (q.procs process).data = blockAddr f)
    (hordered : ∀ h ∈ fileHeaders file, Ordered (blockAddr a) h) :
    loadedHeaders (startedKernel q process).kmem.mem ((startedKernel q process).pageDirectory process)
        ((startedKernel q process).procs process) = fileHeaders file ∧
      (processMapElf (startedKernel q process).kmem.mem ((startedKernel q process).pageDirectory process)
        ((startedKernel q process).procs process)).1 = 0 := by
  have hsize := himage.sized
  obtain ⟨dir, table, B, hgrown, hdir, hpages, -⟩ := taskNew_directory q process htask
  -- The task's blocks were free, those of the file are not.
  have hnot : ∀ x ∈ imagePages file f a, ∀ d ∈ B, x ≠ 4096 + d := by
    rintro x hx d hd rfl
    obtain ⟨-, htaken⟩ := h.not_free hx
    rw [Nat.add_sub_cancel_left] at htaken
    exact htaken (hgrown.fresh d hd).2
  have hkept : ∀ x ∈ imagePages file f a, x ∉ insert 0 {p | ∃ d ∈ B, p = 4096 + d} := by
    rintro x hx (rfl | ⟨d, hd, heq⟩)
    · have hlow := (h.not_free hx).1
      omega
    · exact hnot x hx d hd heq
  have hoff : ∀ x ∈ imagePages file f a, x ∉ tablePages table := by
    intro x hx htable
    obtain ⟨d, hd, heq⟩ := hpages x (tablePages_subset htable)
    exact hnot x hx d hd heq
  obtain ⟨hptr, hptrPage⟩ := h.pointer_word
  have hprocs : ((startedKernel q process).procs process).data = blockAddr f := by
    rw [startedKernel_procs, taskNew_procs q process htask]
    exact hdata
  have hpointer : elfMemory (startedKernel q process).kmem.mem (blockAddr f) = blockAddr a := by
    rw [← h.pointer, startedKernel_kmem]
    exact hgrown.mem.read32 hptr (hkept _ hptrPage)
  have hholds : HoldsFile (startedKernel q process).kmem.mem (blockAddr a) file := by
    rw [startedKernel_kmem]
    exact HoldsFile.same ⟨h.bytes, himage⟩ hgrown.mem fun n hn => hkept _ (h.page hsize hn)
  rw [← startedKernel_pageDirectory, ← startedKernel_kmem] at hdir
  refine processMapElf_file hdir ?_ ?_ ?_ hholds (fun n hn => hoff _ (h.page hsize hn)) hordered
  · rw [hprocs]
    exact hptr
  · rw [hprocs]
    exact hoff _ hptrPage
  · rw [hprocs]
    exact hpointer

/-- A kernel whose process has a file in memory. -/
lemma ImageAt.elfLoaded {q : Kernel} (h : ImageAt q.kmem file f a)
    (htype : (q.procs process).fileType = Tasks.processFiletypeElf)
    (hdata : (q.procs process).data = blockAddr f)
    (hstack : ∃ b < 25600, (q.procs process).stack = blockAddr b) : ElfLoaded q process := by
  have hpool := h.pool
  refine ⟨htype, ⟨f, h.lt, hdata, h.filePinned.taken f le_rfl (by omega)⟩, ?_, hstack⟩
  rw [hdata, h.pointer]
  exact blockAddr_aligned (by omega)

/-- A program as a linker lays it out: its segments fit and lie apart, the empty ones at page boundaries. -/
structure Program (file : List Byte) : Prop where
  image : ElfImage file
  wellFormed : WellFormed (fileHeaders file)
  empty : ∀ h ∈ fileHeaders file, h.memsz.toNat = 0 → h.offset.toNat % 4096 = 0
  fits : ∀ h ∈ fileHeaders file, h.offset.toNat + h.memsz.toNat ≤ 2 ^ 31

/-- The process has the memory its file asks for, and reads the file's bytes at the addresses of the
segments. -/
structure ProgramReady (q : Kernel) (process : Word) (file : List Byte) : Prop where
  mapped : ProgramMapped q.kmem.mem (q.directory process) (elfMemory q.kmem.mem (q.procs process).data)
    (q.procs process).stack (fileHeaders file)
  reads : ∀ h ∈ fileHeaders file, ∀ n < h.memsz.toNat, ∀ hn : h.offset.toNat + n < file.length,
    q.kmem.mem (pagingGetPhysicalAddress q.kmem.mem (q.directory process) (h.vaddr + BitVec.ofNat 32 n)) =
      file[h.offset.toNat + n]

lemma programReady_of_mapped {mem : Mem} {chunk dir stack : Word} {table : ℕ → Word}
    (hprogram : Program file)
    (hmapped : DirectoryMapped mem chunk dir table (blockAddr a) stack (fileHeaders file))
    (ha : a < 25600) (hstack : stack.toNat % 4096 = 0) (hbytes : BytesAt mem (blockAddr a) file)
    (hmem : q.kmem.mem = mem) (hdirectory : q.directory process = dir)
    (hprocess : (q.procs process).stack = stack)
    (hpointer : elfMemory mem (q.procs process).data = blockAddr a) : ProgramReady q process file := by
  have hlookup := (hmapped.lookup_iff hprogram.wellFormed (blockAddr_aligned (by omega)) hstack).2
    (emptyHarmless_of_aligned hprogram.empty)
  refine ⟨by rw [hmem, hdirectory, hprocess, hpointer]; exact hlookup, fun h hin n hlt hn => ?_⟩
  have hplace : h.offset + BitVec.ofNat 32 n = BitVec.ofNat 32 (h.offset.toNat + n) := by
    rw [BitVec.ofNat_add, BitVec.ofNat_toNat, BitVec.setWidth_eq]
  rw [hmem, hdirectory, hlookup.segment h hin n hlt, BitVec.add_assoc, hplace]
  exact hbytes.get hn

/-- The stack leaves the file as it was read. -/
lemma ImageAt.loaded (h : ImageAt (dataStep files q).2.2 file f a) (hsize : Sized file)
    (hs : (stackStep files q).1 ≠ 0) (hdata : (dataStep files q).2.1 = blockAddr f) :
    ImageAt (loadedKernel files q slot).kmem file f a ∧
      ((loadedKernel files q slot).procs (processStep q).1).data = blockAddr f ∧
      ElfLoaded (loadedKernel files q slot) (processStep q).1 := by
  have hlt := h.lt
  have hstackSize : (userProgramStackSize : Word).toNat < 2 ^ 31 := by decide
  have hprocs := loadedKernel_procs files q slot
  have hloaded : ImageAt (loadedKernel files q slot).kmem file f a :=
    h.keeps hsize (keepsRun_kzalloc one_pos (by omega) hstackSize)
      (keepsRun_kzalloc hsize.blocks.1 h.pool hstackSize)
  have hfile : ((loadedKernel files q slot).procs (processStep q).1).data = blockAddr f := by
    rw [hprocs]
    exact hdata
  refine ⟨hloaded, hfile, hloaded.elfLoaded (by rw [hprocs]; rfl) hfile ?_⟩
  obtain ⟨d, hd, -, heq⟩ := stackStep_block hs
  exact ⟨d, hd, by rw [hprocs]; exact congrArg Prod.fst heq⟩

/-- Behind the file the load of a program succeeds. -/
lemma processLoad_program (hprogram : Program file) (hfreeSlot : processGetFreeSlot q = some slot)
    (hp : (processStep q).1 ≠ 0) (hs : (stackStep files q).1 ≠ 0)
    (htask : Tasks.isErr (Tasks.taskNew (loadedKernel files q slot) (processStep q).1).1 = false)
    (hdata : (dataStep files q).2.1 = blockAddr f) (hat : ImageAt (dataStep files q).2.2 file f a) : ∃ q',
    processLoad files q = some (0, (processStep q).1, q') ∧
      q'.processes = Function.update q.processes slot (processStep q).1 ∧
      ProgramReady q' (processStep q).1 file := by
  have hsize := hprogram.image.sized
  have hpool := hat.pool
  have hpos := hsize.blocks.1
  obtain ⟨hloaded, hfile, helf⟩ := @ImageAt.loaded f a file q slot files hat hsize hs hdata
  obtain ⟨d, hd, hstack⟩ := helf.stack
  obtain ⟨hheaders, hres⟩ := hloaded.maps hprogram.image htask hfile fun h hmem =>
    ordered_of_fits (by omega) (hprogram.fits h hmem)
  have hself := startedKernel_procs (loadedKernel files q slot) (processStep q).1
  rw [taskNew_procs _ _ htask] at hself
  obtain ⟨hprocesses, -⟩ := @startedKernel_table files q slot htask
  obtain ⟨mem', hmap⟩ := processMapMemory_ok (by rw [hself]; exact helf.fileType) hres
  obtain ⟨dir, table, hmapped, hkept, hpointer⟩ := helf.mapped htask hmap (lt_irrefl 0)
  rw [hheaders, hfile, hloaded.pointer] at hmapped
  rw [hfile, hloaded.pointer] at hpointer
  have hbytes : BytesAt mem' (blockAddr a) file := by
    refine hloaded.bytes.congr fun n hn => hkept _ ?_
    obtain ⟨hlow, htaken⟩ := hloaded.not_free (hloaded.page hsize hn)
    rintro (h0 | ⟨d, -, hfree, heq⟩)
    · omega
    · rw [heq, Nat.add_sub_cancel_left] at htaken
      exact htaken hfree
  refine ⟨registered (startedKernel (loadedKernel files q slot) (processStep q).1) slot (processStep q).1
    mem', ?_, ?_, programReady_of_mapped hprogram hmapped (by omega) ?_ hbytes (registered_mem _ _ _ _)
      ?_ ?_ ?_⟩
  · rw [processLoad_some hfreeSlot, processLoadForSlot_eq (processGetFreeSlot_free hfreeSlot), if_neg hp,
      if_neg hs, processStart_eq, hmap, Option.map_some, if_neg (lt_irrefl 0)]
  · rw [registered_processes, hprocesses]
  · exact hstack ▸ blockAddr_aligned (by omega)
  · rw [Kernel.directory, registered_pageDirectory, registered_mem]
    exact hmapped.pageDir.chunk_word
  · rw [registered_procs, hself]
  · rw [registered_procs, hself, hfile]
    exact hpointer

/-- A program on a volume is loaded into the first free slot, and its process reads at the addresses of
its segments the bytes of the file as the driver finds them on the disk. -/
theorem processLoad_disk_segments (hq : Registry q) (hfreeSlot : processGetFreeSlot q = some slot)
    (h : Holds fuel disk v p C b m k T) (hkmem : k.kmem = q.kmem) (hready : Ready disk p)
    (hserves : Serves fuel disk v) (hrequest : LoadRequest k args name) (hnamed : NamedFile fuel C name j)
    (hfile : FileBytes disk p C j file) (hprogram : Program file)
    (hslot : emptySlot k.fileDescriptors = some i) (hfd : slotOf ((i : ℤ) + 1) = some i)
    (hfree : TailFree k.kmem c) (hroom : c + 17 + fileBlocks file + 1028 ≤ 25600) : ∃ process q',
    processLoad (diskCalls v fuel (k.withKmem (processStep q).2) args) q = some (0, process, q') ∧
      process ≠ 0 ∧ q'.processes = Function.update q.processes slot process ∧
      ProgramReady q' process file := by
  have hheader := hprogram.image.header
  have hstage := h.diskStage hq hkmem hready hserves hrequest hnamed hfile hprogram.image.sized hslot hfd
    hfree hroom
  obtain ⟨hp, hs, -, hmeets, -, hclosed, himage⟩ := hstage
  obtain ⟨f, a, hdata, hat⟩ := himage (by omega) hprogram.image.valid
  rw [← hclosed] at hat
  obtain ⟨q', hload, hprocesses, hreads⟩ := processLoad_program hprogram hfreeSlot hp hs
    (hmeets.task slot hfreeSlot hp hs) hdata hat
  exact ⟨(processStep q).1, q', hload, hp, hprocesses, hreads⟩

lemma codeSegment_program : Program (oneSegment codeSegment) := by
  refine ⟨elfImage_oneSegment codeSegment, ?_, ?_, ?_⟩ <;> rw [fileHeaders_oneSegment]
  · exact codeSegment_wellFormed
  · decide
  · decide

theorem processLoad_disk_segments_code : ∃ (k : FileState FatState) (process : Word) (q' : Kernel),
    processLoad (diskCalls programStorage 110 (k.withKmem (processStep (zeroKernel k.kmem)).2)
        ⟨0x1000, 0x1005, 0x3000⟩) (zeroKernel k.kmem) = some (0, process, q') ∧
      process ≠ 0 ∧ q'.processes = Function.update (fun _ => 0) 0 process ∧
      ProgramReady q' process (oneSegment codeSegment) := by
  obtain ⟨k, b, hready, hlaid, hfree, hrequest, hslot, hholds⟩ := programKernel_holds
  have hblocks := fileBlocks_oneSegment codeSegment
  have hboot : Boot (zeroKernel k.kmem) := ⟨hholds.directory.linked, fun _ => rfl, rfl⟩
  have hfreeSlot : processGetFreeSlot (zeroKernel k.kmem) = some 0 :=
    Fin.find?_eq_some_iff.2 ⟨by simp [zeroKernel], fun i hi => absurd hi (Nat.not_lt_zero _)⟩
  obtain ⟨process, q', hload⟩ := processLoad_disk_segments hboot.registry hfreeSlot hholds rfl hready
    programStorage_serves hrequest programContent_named (programDisk_bytes hlaid) codeSegment_program hslot
    (by decide) hfree (by omega)
  exact ⟨k, process, q', hload⟩

end AlphaOS.Fat16
