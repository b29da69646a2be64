import AlphaOS.ElfLoad
import AlphaOS.ProcessMap

/-! The stages of `process_load_for_slot`, and the process a successful load leaves. -/
namespace AlphaOS.Processes
open BlockHeap Elf Kheap Paging Tasks WordMemory

section Stages
variable (files : FileCalls) (k : Kernel)

/-- The process structure is allocated. -/
def processStep : Word × Kmem := kzalloc k.kmem 9364

/-- The file is loaded. -/
def dataStep : ℤ × Word × Kmem := elfLoad files (processStep k).2

/-- The user stack is allocated. -/
def stackStep : Word × Kmem := kzalloc (dataStep files k).2.2 userProgramStackSize

/-- The process with its file. -/
def fileProcess : Process :=
  { zeroProcess with fileType := processFiletypeElf, data := (dataStep files k).2.1 }

/-- The kernel before the task is created. -/
def loadedKernel (slot : Fin maxProcesses) : Kernel :=
  (k.withKmem (stackStep files k).2).setProcess (processStep k).1 { fileProcess files k with
    stack := (stackStep files k).1
    id := BitVec.ofNat 16 slot }

end Stages

variable {files : FileCalls} {k k' : Kernel} {slot : Fin maxProcesses} {res : ℤ} {process : Word}

lemma setProcess_setProcess (k : Kernel) (a : Word) (p q : Process) :
    (k.setProcess a p).setProcess a q = k.setProcess a q := by
  simp [Kernel.setProcess]

lemma processLoadData_eq (files : FileCalls) (k : Kernel) :
    processLoadData files ((k.withKmem (processStep k).2).setProcess (processStep k).1 zeroProcess)
      (processStep k).1 =
    (0, (k.withKmem (dataStep files k).2.2).setProcess (processStep k).1 (fileProcess files k)) := by
  have hzero : (elfLoad files (processStep k).2).1 = 0 := elfLoad_fst _ _
  have helf : processLoadElf files
      ((k.withKmem (processStep k).2).setProcess (processStep k).1 zeroProcess) (processStep k).1 =
      (0, (k.withKmem (dataStep files k).2.2).setProcess (processStep k).1 (fileProcess files k)) := by
    rw [processLoadElf]
    simp only [Kernel.setProcess_kmem, Kernel.withKmem_kmem, hzero]
    rw [if_neg (lt_irrefl 0)]
    simp [Kernel.setProcess, Kernel.withKmem, fileProcess, dataStep]
  rw [processLoadData, helf]
  exact if_neg (show (0 : ℤ) ≠ -einformat by decide)

/-- A load for a free slot, stage by stage. -/
theorem processLoadForSlot_eq (hslot : k.processes slot = 0) : processLoadForSlot files k slot =
    if (processStep k).1 = 0 then some (-enomem, 0, k.withKmem (processStep k).2)
    else if (stackStep files k).1 = 0 then some (-enomem, 0,
      (k.withKmem (stackStep files k).2).setProcess (processStep k).1 (fileProcess files k))
    else processStart (loadedKernel files k slot) (processStep k).1 slot := by
  have hdata := processLoadData_eq files k
  rw [processLoadForSlot, if_neg (not_not.2 hslot)]
  change (if (processStep k).1 = 0 then _ else _) = _
  by_cases hp : (processStep k).1 = 0
  · rw [if_pos hp, if_pos hp]
    rfl
  · rw [if_neg hp, if_neg hp]
    simp only [processStep] at hdata ⊢
    rw [hdata]
    dsimp only
    rw [if_neg (lt_irrefl 0)]
    change (if (stackStep files k).1 = 0 then some (processLoadFailed
        ((k.withKmem (stackStep files k).2).setProcess (processStep k).1 (fileProcess files k))
        (processStep k).1 (-enomem))
      else processStart (((k.withKmem (stackStep files k).2).setProcess (processStep k).1
          (fileProcess files k)).setProcess (processStep k).1
        { ((k.withKmem (stackStep files k).2).setProcess (processStep k).1
            (fileProcess files k)).procs (processStep k).1 with
          stack := (stackStep files k).1
          id := BitVec.ofNat 16 slot }) (processStep k).1 slot) = _
    rw [setProcess_setProcess]
    simp only [Kernel.setProcess_procs, Function.update_self, processLoadFailed]
    rw [if_neg (not_not.2 (show (fileProcess files k).stack = 0 from rfl))]
    rfl

/-- `task_new` gives a task or an error, never null. -/
lemma taskNew_ne_zero (k : Kernel) (process : Word) : (taskNew k process).1 ≠ 0 := by
  intro hnull
  obtain herr | ⟨b, s₁, s, chunk, d, a, hb, -, -, -, heq⟩ := taskNew_cases k process
  · rw [hnull] at herr
    exact absurd herr (by decide)
  · rw [heq] at hnull
    exact blockAddr_ne_zero (by omega) hnull

/-- The kernel with the memory of its new process mapped and the process in its slot. -/
def registered (k : Kernel) (slot : Fin maxProcesses) (process : Word) (mem : Mem) : Kernel :=
  { k.withKmem (k.kmem.withMem mem) with
    processes := Function.update k.processes slot process }

section Registered
variable (k : Kernel) (slot : Fin maxProcesses) (process : Word) (mem : Mem)

@[simp] lemma registered_mem : (registered k slot process mem).kmem.mem = mem := rfl
@[simp] lemma registered_kmem :
    (registered k slot process mem).kmem = k.kmem.withMem mem := rfl
@[simp] lemma registered_tasks : (registered k slot process mem).tasks = k.tasks := rfl
@[simp] lemma registered_currentProcess :
    (registered k slot process mem).currentProcess = k.currentProcess := rfl
@[simp] lemma registered_processes : (registered k slot process mem).processes =
    Function.update k.processes slot process := rfl
@[simp] lemma registered_procs : (registered k slot process mem).procs = k.procs := rfl
@[simp] lemma registered_pageDirectory (a : Word) :
    (registered k slot process mem).pageDirectory a = k.pageDirectory a := rfl

end Registered

/-- The last stage registers the process unless the mapping fails. -/
theorem processStart_eq (k : Kernel) (process : Word) (slot : Fin maxProcesses) :
    processStart k process slot =
    (processMapMemory (startedKernel k process).kmem.mem
      ((startedKernel k process).pageDirectory process)
      ((startedKernel k process).procs process)).map fun r =>
      if r.1 < 0 then processLoadFailed
        ((startedKernel k process).withKmem ((startedKernel k process).kmem.withMem r.2)) process r.1
      else (r.1, process, registered (startedKernel k process) slot process r.2) := by
  rw [processStart, if_neg (taskNew_ne_zero k process)]
  rfl

/-- A load that does not report an error went through all stages. -/
structure Accepted (files : FileCalls) (k : Kernel) (slot : Fin maxProcesses) (res : ℤ)
    (process : Word) (k' : Kernel) (mem : Mem) : Prop where
  slot_eq : processGetFreeSlot k = some slot
  process_eq : process = (processStep k).1
  process_ne : (processStep k).1 ≠ 0
  stack_ne : (stackStep files k).1 ≠ 0
  mapped : processMapMemory (startedKernel (loadedKernel files k slot) process).kmem.mem
    ((startedKernel (loadedKernel files k slot) process).pageDirectory process)
    ((startedKernel (loadedKernel files k slot) process).procs process) = some (res, mem)
  result : k' = registered (startedKernel (loadedKernel files k slot) process) slot process mem

lemma processGetFreeSlot_free (h : processGetFreeSlot k = some slot) : k.processes slot = 0 := by
  unfold processGetFreeSlot at h
  simpa using (Fin.find?_eq_some_iff.1 h).1

lemma processLoad_none (hslot : processGetFreeSlot k = none) :
    processLoad files k = some (-eistkn, 0, k) := by
  unfold processLoad
  rw [hslot]

lemma processLoad_some (hslot : processGetFreeSlot k = some slot) :
    processLoad files k = processLoadForSlot files k slot := by
  unfold processLoad
  rw [hslot]

/-- A load for a slot that does not report an error went through all stages. -/
theorem processLoadForSlot_stages (hload : processLoadForSlot files k slot = some (res, process, k'))
    (hres : ¬ res < 0) : k.processes slot = 0 ∧ process = (processStep k).1 ∧
      (processStep k).1 ≠ 0 ∧ (stackStep files k).1 ≠ 0 ∧ ∃ mem,
      processMapMemory (startedKernel (loadedKernel files k slot) process).kmem.mem
        ((startedKernel (loadedKernel files k slot) process).pageDirectory process)
        ((startedKernel (loadedKernel files k slot) process).procs process) = some (res, mem) ∧
      k' = registered (startedKernel (loadedKernel files k slot) process) slot process mem := by
  have herr : ∀ value : ℤ, value = -enomem ∨ value = -eistkn → value < 0 := by
    rintro value (rfl | rfl) <;> decide
  by_cases hslot : k.processes slot = 0
  swap
  · rw [processLoadForSlot, if_pos hslot] at hload
    simp only [Option.some.injEq, Prod.mk.injEq] at hload
    exact absurd (herr res (.inr hload.1.symm)) hres
  rw [processLoadForSlot_eq hslot] at hload
  by_cases hp : (processStep k).1 = 0
  · rw [if_pos hp] at hload
    simp only [Option.some.injEq, Prod.mk.injEq] at hload
    exact absurd (herr res (.inl hload.1.symm)) hres
  rw [if_neg hp] at hload
  by_cases hs : (stackStep files k).1 = 0
  · rw [if_pos hs] at hload
    simp only [Option.some.injEq, Prod.mk.injEq] at hload
    exact absurd (herr res (.inl hload.1.symm)) hres
  rw [if_neg hs, processStart_eq] at hload
  obtain ⟨r, hmap, heq⟩ := Option.map_eq_some_iff.1 hload
  by_cases hneg : r.1 < 0
  · rw [if_pos hneg, processLoadFailed] at heq
    have hr : r.1 = res := congrArg Prod.fst heq
    rw [hr] at hneg
    exact absurd hneg hres
  · rw [if_neg hneg] at heq
    simp only [Prod.mk.injEq] at heq
    obtain ⟨hr, hproc, hk⟩ := heq
    rw [hproc] at hmap hk
    exact ⟨hslot, hproc.symm, hp, hs, r.2, by rw [hmap, ← hr], hk.symm⟩

theorem processLoad_accepted (hload : processLoad files k = some (res, process, k'))
    (hres : ¬ res < 0) : ∃ slot mem, Accepted files k slot res process k' mem := by
  cases hslot : processGetFreeSlot k with
  | none =>
    rw [processLoad_none hslot] at hload
    simp only [Option.some.injEq, Prod.mk.injEq] at hload
    rw [← hload.1] at hres
    exact absurd (by decide) hres
  | some slot =>
    rw [processLoad_some hslot] at hload
    obtain ⟨-, hproc, hp, hs, mem, hmap, hk⟩ := processLoadForSlot_stages hload hres
    exact ⟨slot, mem, hslot, hproc, hp, hs, hmap, hk⟩

/-- The stack of a loaded process, in blocks that were free. -/
lemma stackStep_block (hne : (stackStep files k).1 ≠ 0) : ∃ b < 25600,
    (∀ j, b ≤ j → j < b + 4 → j < 25600 → IsFree (dataStep files k).2.2.entries j) ∧
    stackStep files k = (blockAddr b, (dataStep files k).2.2.takeZeroed userProgramStackSize 4 b) := by
  obtain heq | ⟨b, hb, hfree, heq⟩ := kzalloc_shape (dataStep files k).2.2 userProgramStackSize
  · exact absurd (congrArg Prod.fst heq) hne
  · exact ⟨b, hb, hfree, heq⟩

variable {K : Set ℕ}

/-- The `elf_file` of a loaded ELF process is a taken block that points to the image. -/
theorem loadedKernel_elf (hspares : files.Spares K (processStep k).2)
    (hK : ∀ b ∈ K, b < 25600 ∧ ¬ IsFree (processStep k).2.entries b)
    (hstack : (stackStep files k).1 ≠ 0) (hfile : (dataStep files k).2.1 ≠ 0) :
    Loads files (processStep k).2 ∧ ElfLoaded (loadedKernel files k slot) (processStep k).1 ∧
    (dataStep files k).2.1 = (fileStep (processStep k).2).1 ∧
    elfMemory (stackStep files k).2.mem (dataStep files k).2.1 =
      (imageStep files (processStep k).2).1 := by
  obtain ⟨hload, hout⟩ := Loads.of_handed hfile
  have hdata : (dataStep files k).2.1 = (fileStep (processStep k).2).1 := hout
  rw [hdata] at hfile
  obtain ⟨f, hf, -, hfeq, hentry⟩ :=
    (fileStep_cases (processStep k).2).resolve_left fun heq => hfile (by rw [heq])
  have haddr : (fileStep (processStep k).2).1 = blockAddr f := by rw [hfeq]
  have hmem : f ∈ K ∪ fileBlock (processStep k).2 := .inr ⟨hf, haddr⟩
  have htaken : ¬ IsFree (dataStep files k).2.2.entries f := hspares.elfLoad_taken hK hmem
  have hpos : 0 < (heapBlocksFor userProgramStackSize).toNat := by decide
  have hword : elfMemory (stackStep files k).2.mem (fileStep (processStep k).2).1 =
      (imageStep files (processStep k).2).1 := by
    rw [← hspares.elfMemory_eq hload hfile]
    refine read32_eq_of_same fun x hx => kzalloc_taken_mem _ hpos (by decide) hf htaken ?_
    rw [haddr] at hx
    exact elfMemory_page hf hx
  refine ⟨hload, ⟨?_, ?_, ?_, ?_⟩, hdata, by rw [hdata, hword]⟩
  · simp [loadedKernel, fileProcess]
  · refine ⟨f, hf, by simp [loadedKernel, fileProcess, hdata, haddr], ?_⟩
    change ¬ IsFree (stackStep files k).2.entries f
    rw [IsFree, stackStep, kzalloc_taken _ _ hf htaken]
    exact htaken
  · have hproc : ((loadedKernel files k slot).procs (processStep k).1).data =
        (fileStep (processStep k).2).1 := by simp [loadedKernel, fileProcess, hdata]
    rw [hproc]
    change (elfMemory (stackStep files k).2.mem _).toNat % 4096 = 0
    rw [hword]
    obtain heq | ⟨b, hb, -, heq⟩ := kzalloc_shape (statStep files (processStep k).2).2.2
      (statStep files (processStep k).2).2.1
    · rw [imageStep, heq]
      rfl
    · rw [imageStep, heq]
      exact blockAddr_aligned (by omega)
  · obtain ⟨b, hb, -, heq⟩ := stackStep_block hstack
    exact ⟨b, hb, by simp [loadedKernel, heq]⟩

/-- Where the image of the file is. -/
def loadedImage (files : FileCalls) (k : Kernel) : Word := (imageStep files (processStep k).2).1

/-- The program headers of the file. -/
def programHeaders (files : FileCalls) (k : Kernel) (slot : Fin maxProcesses) : List Phdr :=
  let started := startedKernel (loadedKernel files k slot) (processStep k).1
  loadedHeaders started.kmem.mem (started.pageDirectory (processStep k).1)
    (started.procs (processStep k).1)

/-- `process_load` made a process with a task from an ELF file; the file layer did not touch
what the load allocated. -/
structure ProgramLoaded (files : FileCalls) (k : Kernel) (slot : Fin maxProcesses)
    (process : Word) (k' : Kernel) : Prop where
  spares : files.Spares ∅ (processStep k).2
  slot_eq : processGetFreeSlot k = some slot
  load : ∃ res, ¬ res < 0 ∧ processLoad files k = some (res, process, k')
  file : (k'.procs process).data ≠ 0
  task : isErr (k'.procs process).task = false

/-- The memory of a loaded program: its directory after the mapping, and its blocks. -/
structure ProgramMemory (files : FileCalls) (k : Kernel) (slot : Fin maxProcesses)
    (process : Word) (k' : Kernel) (dir : Word) (table : ℕ → Word) : Prop where
  loads : Loads files (processStep k).2
  file_ne : (fileStep (processStep k).2).1 ≠ 0
  directory : k'.directory process = dir
  mapped : DirectoryMapped k'.kmem.mem (k'.pageDirectory process) dir table (loadedImage files k)
    (k'.procs process).stack (programHeaders files k slot)
  image_eq : elfMemory k'.kmem.mem (k'.procs process).data = loadedImage files k
  image_aligned : (loadedImage files k).toNat % 4096 = 0
  stack : ∃ b < 25600, (∀ j, b ≤ j → j < b + 4 → j < 25600 → IsFree (dataStep files k).2.2.entries j) ∧
    (k'.procs process).stack = blockAddr b
  kept : SameOff (insert 0 {p | ∃ b < 25600, IsFree (stackStep files k).2.entries b ∧ p = 4096 + b})
    (stackStep files k).2.mem k'.kmem.mem

/-- The process of a load that succeeded. -/
lemma Accepted.procs {mem : Mem} (h : Accepted files k slot res process k' mem)
    (htask : isErr (k'.procs process).task = false) :
    k'.procs process = { (loadedKernel files k slot).procs process with
      task := (taskNew (loadedKernel files k slot) process).1 } := by
  have hstart : k'.procs process =
      (startedKernel (loadedKernel files k slot) process).procs process := by
    rw [h.result, registered_procs]
  rw [startedKernel_procs] at hstart
  rw [hstart] at htask ⊢
  rw [taskNew_procs _ _ htask]

lemma loadedKernel_procs (files : FileCalls) (k : Kernel) (slot : Fin maxProcesses) :
    (loadedKernel files k slot).procs (processStep k).1 = { fileProcess files k with
      stack := (stackStep files k).1
      id := BitVec.ofNat 16 slot } := by
  simp [loadedKernel]

theorem ProgramLoaded.memory (h : ProgramLoaded files k slot process k') :
    ∃ dir table, ProgramMemory files k slot process k' dir table := by
  obtain ⟨res, hres, hload⟩ := h.load
  obtain ⟨slot', mem, hacc⟩ := processLoad_accepted hload hres
  obtain rfl : slot = slot' := Option.some.inj (h.slot_eq.symm.trans hacc.slot_eq)
  have hprocs := hacc.procs h.task
  have htask := h.task
  have hdata := h.file
  rw [hprocs] at htask hdata
  have hmap := hacc.mapped
  have hproc := hacc.process_eq
  subst hproc
  rw [loadedKernel_procs] at hdata
  obtain ⟨hloads, helf, hfile, himage⟩ :=
    @loadedKernel_elf files k slot ∅ h.spares (by simp) hacc.stack_ne hdata
  obtain ⟨dir, table, hmapped, hkept, hword⟩ := helf.mapped htask hmap hres
  rw [loadedKernel_procs] at hmapped hword
  obtain ⟨b, hb, hfree, heq⟩ := stackStep_block hacc.stack_ne
  have hstack : (stackStep files k).1 = blockAddr b := congrArg Prod.fst heq
  have hloaded : elfMemory (loadedKernel files k slot).kmem.mem (dataStep files k).2.1 =
      loadedImage files k := himage
  have haligned := helf.image
  rw [loadedKernel_procs] at haligned hprocs
  change (elfMemory (loadedKernel files k slot).kmem.mem (dataStep files k).2.1).toNat % 4096 = 0
    at haligned
  change elfMemory mem (dataStep files k).2.1 =
    elfMemory (loadedKernel files k slot).kmem.mem (dataStep files k).2.1 at hword
  have hmem : k'.kmem.mem = mem := by rw [hacc.result, registered_mem]
  have hdirectory : k'.pageDirectory (processStep k).1 =
      (startedKernel (loadedKernel files k slot) (processStep k).1).pageDirectory
        (processStep k).1 := by rw [hacc.result, registered_pageDirectory]
  refine ⟨dir, table, ⟨hloads, hfile ▸ hdata, ?_, ?_, ?_, ?_, ⟨b, hb, hfree, ?_⟩, ?_⟩⟩
  · rw [Kernel.directory, hdirectory, hmem]
    exact hmapped.pageDir.chunk_word
  · rw [hprocs, hmem, hdirectory, ← hloaded]
    exact hmapped
  · rw [hprocs, hmem]
    exact hword.trans hloaded
  · rw [← hloaded]
    exact haligned
  · rw [hprocs]
    exact hstack
  · rw [hmem]
    exact hkept

end AlphaOS.Processes
