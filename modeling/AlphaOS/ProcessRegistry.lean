import AlphaOS.BlockKeeps
import AlphaOS.ElfLoad
import AlphaOS.ProcessLoad
import AlphaOS.ProcessMemory
import AlphaOS.TaskFailure

/-! The processes table: which blocks a registered process holds, and what the termination of one
process leaves of the others. -/
namespace AlphaOS.Processes
open BlockHeap Elf Kheap Paging Tasks WordMemory

/-- From `s` to `s'` pointers were passed to `kfree` that are none of the blocks of `K`. -/
structure Drops (K : Set ℕ) (s s' : Kmem) : Prop where
  keeps : Keeps K s s'
  mem : s'.mem = s.mem
  droppable : ∀ ptr, Droppable K s ptr → Droppable K s' ptr

variable {K : Set ℕ} {s s' s'' : Kmem} {ptr chunk : Word} {k k' : Kernel} {process : Word}

lemma Drops.refl (K : Set ℕ) (s : Kmem) : Drops K s s := ⟨Keeps.refl K s, rfl, fun _ h => h⟩

lemma Drops.trans (h : Drops K s s') (h' : Drops K s' s'') : Drops K s s'' :=
  ⟨h.keeps.trans h'.keeps, h'.mem.trans h.mem, fun ptr hp => h'.droppable ptr (h.droppable ptr hp)⟩

lemma drops_kfree (h : Droppable K s ptr) : Drops K s (kfree s ptr) :=
  ⟨keeps_kfree h, rfl, fun _ hp => hp.kfree ptr⟩

lemma Drops.kfree (h : Drops K s s') (hptr : Droppable K s ptr) : Drops K s (kfree s' ptr) :=
  h.trans (drops_kfree (h.droppable ptr hptr))

lemma drops_pagingFree4gb (hchunk : Droppable K s chunk) (hdir : Droppable K s (read32 s.mem chunk))
    (htables : ∀ j < 1024, Droppable K s (pagingTable s.mem (read32 s.mem chunk) j)) :
    Drops K s (pagingFree4gb s chunk) := by
  obtain ⟨htables', hmem⟩ := @pagingFreeTables_induct s.mem chunk (Drops K s) 1024 0 s rfl
    (Drops.refl K s) fun _ j _ hj hdrops => hdrops.kfree (htables j (by omega))
  rw [pagingFree4gb, hmem]
  exact (htables'.kfree hdir).kfree hchunk

lemma drops_elfClose {file : Word} (hfile : file ≠ 0 → Droppable K s file ∧
    Droppable K s (elfMemory s.mem file)) : Drops K s (elfClose s file) := by
  rw [elfClose]
  split_ifs with hnull
  · exact Drops.refl K s
  · exact (drops_kfree (hfile hnull).2).kfree (hfile hnull).1

/-- `process_free` of null in a process without allocations passes it on to `kfree`. -/
lemma processFree_empty (hempty : ∀ i, k.record process i = ⟨0, 0⟩) :
    processFree k process 0 = k.withKmem (kfree k.kmem 0) := by
  cases hfind : processGetAllocationByAddr (k.procs process) 0 with
  | none =>
    have hslot : ((k.procs process).allocations 0).ptr = 0 :=
      congrArg ProcessAllocation.ptr (hempty 0)
    exact absurd hslot (processGetAllocationByAddr_none.1 hfind 0)
  | some i =>
    have hslot : (k.procs process).allocations i = ⟨0, 0⟩ := hempty i
    have hmap : pagingMapTo k.kmem.mem (k.pageDirectory process) 0 0 (pagingAlignAddress (0 + 0)) 0 =
        (0, k.kmem.mem) := rfl
    have hsame : setAllocation (k.procs process) i ⟨0, 0⟩ = k.procs process := by
      rw [setAllocation, ← hslot, Function.update_eq_self]
    unfold processFree
    rw [hfind]
    dsimp only
    rw [hslot, hmap, processAllocationUnjoin_eq hfind, hsame, if_neg (lt_irrefl 0)]
    simp only [Kernel.setProcess, Kernel.withKmem, Function.update_eq_self]
    rfl

/-- Without allocations the loop only passes null to `kfree`. -/
lemma processTerminateAllocation_empty {P : Kmem → Prop} (hP : ∀ s, P s → P (kfree s 0))
    (hempty : ∀ i, k.record process i = ⟨0, 0⟩) (h : P k.kmem) :
    ∃ s, processTerminateAllocation k process = k.withKmem s ∧ P s := by
  unfold processTerminateAllocation
  generalize List.finRange maxProgramAllocations = is
  induction is generalizing k with
  | nil => exact ⟨k.kmem, rfl, h⟩
  | cons i is ih =>
    have hslot : ((k.procs process).allocations i).ptr = 0 :=
      congrArg ProcessAllocation.ptr (hempty i)
    rw [processTerminateAllocationLoop, hslot, processFree_empty hempty]
    exact @ih (k.withKmem (kfree k.kmem 0)) hempty (hP _ h)

/-- The pointers `process_terminate` passes to `kfree` for a process without allocations. -/
def terminatePointers (k : Kernel) (process : Word) : Set Word :=
  {w | w = (k.procs process).stack ∨ w = (k.procs process).task ∨ w = k.pageDirectory process ∨
    w = k.directory process ∨
    (∃ i < 1024, w = pagingTable k.kmem.mem (k.directory process) i) ∨
    (k.procs process).data ≠ 0 ∧ (w = (k.procs process).data ∨
      w = elfMemory k.kmem.mem (k.procs process).data)}

/-- These and the process structure itself. -/
def heldPointers (k : Kernel) (process : Word) : Set Word :=
  insert process (terminatePointers k process)

def pointerBlocks (k : Kernel) (process : Word) : Set ℕ :=
  {b | b < 25600 ∧ blockAddr b ∈ heldPointers k process}

/-- A process as a load leaves it, with its blocks allocated. -/
structure Live (k : Kernel) (process : Word) : Prop where
  elf : (k.procs process).fileType = processFiletypeElf
  empty : ∀ i, k.record process i = ⟨0, 0⟩
  block : ∀ w ∈ heldPointers k process, w ≠ 0 →
    ∃ b < 25600, w = blockAddr b ∧ Pinned k.kmem.entries b 1
  chunk_ne : k.pageDirectory process ≠ 0
  directory_ne : k.directory process ≠ 0

/-- A held pointer is null or the address of a pinned block of the process. -/
lemma Live.held (h : Live k process) {w : Word} (hw : w ∈ heldPointers k process) (hne : w ≠ 0) :
    ∃ b ∈ pointerBlocks k process, w = blockAddr b ∧ Pinned k.kmem.entries b 1 := by
  obtain ⟨b, hb, rfl, hpin⟩ := h.block w hw hne
  exact ⟨b, ⟨hb, hw⟩, rfl, hpin⟩

lemma Live.droppable (h : Live k process) (hK : Disjoint K (pointerBlocks k process)) {w : Word}
    (hw : w ∈ terminatePointers k process) : Droppable K k.kmem w := by
  by_cases hnull : w = 0
  · rw [hnull]
    exact droppable_null K _
  · obtain ⟨b, hb, rfl, hpin⟩ := h.held (Set.mem_insert_of_mem _ hw) hnull
    exact hpin.droppable hb.1 (Set.disjoint_right.1 hK hb)

/-- Whoever keeps the blocks of a process keeps its pointers. -/
theorem Live.frame (h : Live k process) (hkeep : Keeps (pointerBlocks k process) k.kmem k'.kmem)
    (hprocs : k'.procs process = k.procs process)
    (htask : k'.pageDirectory process = k.pageDirectory process) :
    heldPointers k' process = heldPointers k process ∧ Live k' process := by
  have hpointer : ∀ w ∈ terminatePointers k process, w ∈ heldPointers k process := fun w hw =>
    Set.mem_insert_of_mem _ hw
  have hdirectory : k'.directory process = k.directory process := by
    obtain ⟨c, hc, heq, hpin⟩ := h.held (hpointer _ (.inr (.inr (.inl rfl)))) h.chunk_ne
    rw [Kernel.directory, Kernel.directory, htask, heq]
    have hlt := hc.1
    refine hkeep.read32 hc hpin ?_ (pageOf_blockAddr (by omega))
    have := blockAddr_aligned (b := c) (by omega)
    omega
  have htable : ∀ i < 1024, pagingTable k'.kmem.mem (k.directory process) i =
      pagingTable k.kmem.mem (k.directory process) i := by
    intro i hi
    obtain ⟨d, hd, heq, hpin⟩ := h.held (hpointer _ (.inr (.inr (.inr (.inl rfl))))) h.directory_ne
    have hlt := hd.1
    have haddr := blockAddr_toNat (b := d) (by omega)
    have hslot := toNat_add_ofNat (a := blockAddr d) (k := 4 * i) (by omega)
    rw [pagingTable, pagingTable, heq]
    rw [hkeep.read32 hd hpin (by omega) (pageOf_blockAddr_add (by omega) (by omega))]
  have hdata : (k.procs process).data ≠ 0 → elfMemory k'.kmem.mem (k.procs process).data =
      elfMemory k.kmem.mem (k.procs process).data := by
    intro hne
    obtain ⟨f, hf, heq, hpin⟩ := h.held
      (hpointer _ (.inr (.inr (.inr (.inr (.inr ⟨hne, .inl rfl⟩)))))) hne
    rw [heq]
    exact read32_eq_of_same fun x hx => hkeep.mem f hf hpin x (elfMemory_page hf.1 hx)
  have hsame : heldPointers k' process = heldPointers k process := by
    unfold heldPointers terminatePointers
    rw [hprocs, htask, hdirectory]
    congr 1
    ext w
    simp only [Set.mem_ofPred_eq]
    refine or_congr_right (or_congr_right (or_congr_right (or_congr_right (or_congr ?_ ?_))))
    · exact exists_congr fun i => and_congr_right fun hi => by rw [htable i hi]
    · exact and_congr_right fun hne => by rw [hdata hne]
  refine ⟨hsame, ?_, fun i => ?_, fun w hw hne => ?_, ?_, ?_⟩
  · rw [hprocs]
    exact h.elf
  · rw [Kernel.record, hprocs]
    exact h.empty i
  · rw [hsame] at hw
    obtain ⟨b, hb, heq, hpin⟩ := h.held hw hne
    exact ⟨b, hb.1, heq, hkeep.pinned b hb hpin⟩
  · rw [htask]
    exact h.chunk_ne
  · rw [hdirectory]
    exact h.directory_ne

/-- The table, the ids and the current process agree, and the processes hold blocks of their own. -/
structure Registry (k : Kernel) : Prop where
  linked : Linked k.kmem.entries
  live : ∀ i, k.processes i ≠ 0 → Live k (k.processes i)
  id : ∀ i, k.processes i ≠ 0 → (k.procs (k.processes i)).id.toNat = i
  apart : ∀ i j, i ≠ j → k.processes i ≠ 0 → k.processes j ≠ 0 →
    ∀ w ∈ heldPointers k (k.processes i), w ∈ heldPointers k (k.processes j) → w = 0
  current : k.currentProcess ≠ 0 → ∃ i, k.processes i = k.currentProcess

variable {i j : Fin maxProcesses}

/-- No process is in two slots. -/
lemma Registry.injective (h : Registry k) (hi : k.processes i ≠ 0)
    (hij : k.processes i = k.processes j) : i = j := by
  by_contra hne
  have hj : k.processes j ≠ 0 := hij ▸ hi
  exact hi (h.apart i j hne hi hj _ (.inl rfl) (hij ▸ .inl rfl))

lemma Registry.blocks_apart (h : Registry k) (hij : i ≠ j) (hi : k.processes i ≠ 0)
    (hj : k.processes j ≠ 0) :
    Disjoint (pointerBlocks k (k.processes i)) (pointerBlocks k (k.processes j)) := by
  refine Set.disjoint_left.2 fun b hb hb' => ?_
  have hlt := hb.1
  exact blockAddr_ne_zero (by omega) (h.apart i j hij hi hj _ hb.2 hb'.2)

lemma taskListRemove_pageDirectory (k : Kernel) (task a : Word) :
    ((taskListRemove k task).tasks a).pageDirectory = (k.tasks a).pageDirectory := by
  have hunlink : ((taskUnlink k task).tasks a).pageDirectory = (k.tasks a).pageDirectory := by
    unfold taskUnlink
    dsimp only
    split_ifs
    · rw [Kernel.setTask_tasks, Function.update_apply]
      split_ifs with ha
      · rw [ha]
      · rfl
    · rfl
  exact hunlink

lemma taskListRemove_table (k : Kernel) (task : Word) :
    (taskListRemove k task).processes = k.processes ∧
    (taskListRemove k task).currentProcess = k.currentProcess := by
  unfold taskListRemove taskUnlink
  dsimp only
  split_ifs <;> exact ⟨rfl, rfl⟩

lemma taskFree_table (k : Kernel) (task : Word) :
    (taskFree k task).processes = k.processes ∧
    (taskFree k task).currentProcess = k.currentProcess ∧
    ∀ a, ((taskFree k task).tasks a).pageDirectory = (k.tasks a).pageDirectory := by
  rw [taskFree]
  generalize pagingFree4gb k.kmem (k.tasks task).pageDirectory = s
  obtain ⟨hprocesses, hcurrent⟩ := taskListRemove_table (k.withKmem s) task
  exact ⟨hprocesses, hcurrent, taskListRemove_pageDirectory (k.withKmem s) task⟩

/-- The chain of releases of a process with an ELF file, from when its allocations are freed. -/
lemma processTerminate_eq {k₁ : Kernel} (hrecords : processTerminateAllocation k process = k₁)
    (helf : (k₁.procs process).fileType = processFiletypeElf) :
    processTerminate k process = processUnlik (taskFree (k₁.withKmem
      (kfree (elfClose k₁.kmem (k₁.procs process).data) (k₁.procs process).stack))
        (k₁.procs process).task) process := by
  have hdata : processFreeProgramData k₁.kmem (k₁.procs process) =
      (0, elfClose k₁.kmem (k₁.procs process).data) := by
    rw [processFreeProgramData, if_neg (by rw [helf]; decide), if_pos helf]
  rw [processTerminate, hrecords]
  simp only [Kernel.withKmem_kmem, Kernel.withKmem_procs, hdata, Kernel.withKmem_withKmem]
  rw [if_neg (lt_irrefl 0)]

/-- The same without allocations. -/
lemma processTerminate_elf (helf : (k.procs process).fileType = processFiletypeElf)
    (hrecords : processTerminateAllocation k process = k.withKmem s) :
    processTerminate k process = processUnlik (taskFree (k.withKmem
      (kfree (elfClose s (k.procs process).data) (k.procs process).stack)) (k.procs process).task)
        process := by
  have hend := processTerminate_eq hrecords (by rw [Kernel.withKmem_procs]; exact helf)
  rwa [Kernel.withKmem_kmem, Kernel.withKmem_procs, Kernel.withKmem_withKmem] at hend

/-- All of `process_terminate` but the last step frees the blocks of the process. -/
theorem Live.terminate_eq (h : Live k process) : ∃ k₁, processTerminate k process =
    processUnlik k₁ process ∧ k₁.procs = k.procs ∧ k₁.processes = k.processes ∧
    k₁.currentProcess = k.currentProcess ∧
    (∀ a, (k₁.tasks a).pageDirectory = (k.tasks a).pageDirectory) ∧
    ∀ K, Disjoint K (pointerBlocks k process) → Keeps K k.kmem k₁.kmem := by
  obtain ⟨s, hrecords, hnulls⟩ := processTerminateAllocation_empty (P := fun s => ∀ K, Drops K k.kmem s)
    (fun s hs K => (hs K).kfree (droppable_null K _)) h.empty fun K => Drops.refl K _
  have hend := processTerminate_elf h.elf hrecords
  obtain ⟨s₁, hs₁⟩ : ∃ s₁, s₁ = kfree (elfClose s (k.procs process).data) (k.procs process).stack :=
    ⟨_, rfl⟩
  rw [← hs₁] at hend
  obtain ⟨hprocesses, hcurrent, htasks⟩ := taskFree_table (k.withKmem s₁) (k.procs process).task
  refine ⟨taskFree (k.withKmem s₁) (k.procs process).task, hend, (taskFree_memory _ _).2, hprocesses,
    hcurrent, htasks, fun K hK => ?_⟩
  have hdrops := hnulls K
  have hdrop : ∀ w ∈ terminatePointers k process, Droppable K k.kmem w := fun w hw =>
    h.droppable hK hw
  have hclose := hdrops.trans (drops_elfClose fun hne => ⟨hdrops.droppable _
    (hdrop _ (.inr (.inr (.inr (.inr (.inr ⟨hne, .inl rfl⟩)))))), by
      rw [hdrops.mem]
      exact hdrops.droppable _ (hdrop _ (.inr (.inr (.inr (.inr (.inr ⟨hne, .inr rfl⟩))))))⟩)
  have hstack := hclose.kfree (hdrop _ (.inl rfl))
  rw [← hs₁] at hstack
  have hword : read32 s₁.mem (k.pageDirectory process) = k.directory process := by
    rw [hstack.mem]
    rfl
  have hfree : Drops K s₁ (pagingFree4gb s₁ (k.pageDirectory process)) := by
    refine drops_pagingFree4gb (hstack.droppable _ (hdrop _ (.inr (.inr (.inl rfl))))) ?_ ?_
    · rw [hword]
      exact hstack.droppable _ (hdrop _ (.inr (.inr (.inr (.inl rfl)))))
    · intro i hi
      rw [hword, hstack.mem]
      exact hstack.droppable _ (hdrop _ (.inr (.inr (.inr (.inr (.inl ⟨i, hi, rfl⟩))))))
  rw [(taskFree_memory _ _).1]
  exact ((hstack.trans hfree).kfree (hdrop _ (.inr (.inl rfl)))).keeps

/-- The slot of an id below 12 is cleared. -/
lemma clearSlot_eq {processes : Fin maxProcesses → Word} {id : BitVec 16} (hid : id.toNat = i) :
    clearSlot processes id = Function.update processes i 0 := by
  funext j
  rw [clearSlot, hid, Function.update_apply]
  exact if_congr Fin.ext_iff.symm rfl rfl

lemma processSwitchToAny_some (h : processSwitchToAny k = some k') :
    ∃ i, k.processes i ≠ 0 ∧ k' = { k with currentProcess := k.processes i } := by
  obtain ⟨i, hfind, heq⟩ := Option.map_eq_some_iff.1 h
  exact ⟨i, by simpa using (Fin.find?_eq_some_iff.1 hfind).1, heq.symm⟩

/-- The last step clears the slot and leaves another process current. -/
lemma processUnlik_some (hid : (k.procs process).id.toNat = i)
    (h : processUnlik k process = some k') :
    k'.kmem = k.kmem ∧ k'.procs = k.procs ∧ k'.tasks = k.tasks ∧
    k'.processes = Function.update k.processes i 0 ∧
    (k'.currentProcess = k.currentProcess ∧ k.currentProcess ≠ process ∨
      ∃ j, k'.processes j ≠ 0 ∧ k'.currentProcess = k'.processes j) := by
  rw [processUnlik, clearSlot_eq hid] at h
  dsimp only at h
  split_ifs at h with hcurrent
  · obtain ⟨j, hj, rfl⟩ := processSwitchToAny_some h
    exact ⟨rfl, rfl, rfl, rfl, .inr ⟨j, hj, rfl⟩⟩
  · obtain rfl := Option.some.inj h
    exact ⟨rfl, rfl, rfl, rfl, .inl ⟨rfl, hcurrent⟩⟩

/-- The blocks of the registered processes. -/
def heldBlocks (k : Kernel) : Set ℕ :=
  {b | ∃ i, k.processes i ≠ 0 ∧ b ∈ pointerBlocks k (k.processes i)}

lemma Registry.held_pinned (h : Registry k) {b : ℕ} (hb : b ∈ heldBlocks k) :
    b < 25600 ∧ Pinned k.kmem.entries b 1 := by
  obtain ⟨i, hi, hlt, hmem⟩ := hb
  obtain ⟨c, hc, heq, hpin⟩ := (h.live i hi).held hmem (blockAddr_ne_zero (by omega))
  have hclt := hc.1
  obtain rfl : b = c := blockAddr_inj (by omega) (by omega) heq
  exact ⟨hlt, hpin⟩

/-- What the other processes need of a step on slot `i`. -/
structure OthersKept (k k' : Kernel) (i : Fin maxProcesses) : Prop where
  linked : Linked k'.kmem.entries
  keeps : ∀ j ≠ i, k.processes j ≠ 0 →
    Keeps (pointerBlocks k (k.processes j)) k.kmem k'.kmem
  procs : ∀ j ≠ i, k.processes j ≠ 0 → k'.procs (k.processes j) = k.procs (k.processes j)
  directory : ∀ j ≠ i, k.processes j ≠ 0 →
    k'.pageDirectory (k.processes j) = k.pageDirectory (k.processes j)
  processes : ∀ j ≠ i, k'.processes j = k.processes j

lemma OthersKept.live (h : OthersKept k k' i) (hk : Registry k) (hj : j ≠ i)
    (hne : k.processes j ≠ 0) :
    heldPointers k' (k.processes j) = heldPointers k (k.processes j) ∧ Live k' (k.processes j) :=
  (hk.live j hne).frame (h.keeps j hj hne) (h.procs j hj hne) (h.directory j hj hne)

/-- A process that is registered in the step holds blocks that were nobody's. -/
structure Joins (k k' : Kernel) (i : Fin maxProcesses) : Prop where
  live : Live k' (k'.processes i)
  id : (k'.procs (k'.processes i)).id.toNat = i
  fresh : ∀ b ∈ pointerBlocks k' (k'.processes i), b ∉ heldBlocks k

lemma Joins.apart (h : Joins k k' i) (hne : k.processes j ≠ 0) {w : Word} (hw : w ∈ heldPointers k' (k'.processes i))
    (hw' : w ∈ heldPointers k (k.processes j)) : w = 0 := by
  by_contra hw0
  obtain ⟨b, hb, rfl, -⟩ := h.live.held hw hw0
  exact h.fresh b hb ⟨j, hne, hb.1, hw'⟩

theorem OthersKept.registry (h : OthersKept k k' i) (hk : Registry k)
    (hnew : k'.processes i ≠ 0 → Joins k k' i)
    (hcurrent : k'.currentProcess ≠ 0 → ∃ j, k'.processes j = k'.currentProcess) : Registry k' := by
  refine ⟨h.linked, fun j hj => ?_, fun j hj => ?_, fun j l hjl hj hl w hw hw' => ?_, hcurrent⟩
  · by_cases hji : j = i
    · subst hji
      exact (hnew hj).live
    · rw [h.processes j hji] at hj ⊢
      exact (h.live hk hji hj).2
  · by_cases hji : j = i
    · subst hji
      exact (hnew hj).id
    · rw [h.processes j hji] at hj ⊢
      rw [h.procs j hji hj]
      exact hk.id j hj
  · by_cases hji : j = i
    · subst hji
      have hlj : l ≠ j := fun heq => hjl heq.symm
      rw [h.processes l hlj] at hl hw'
      rw [(h.live hk hlj hl).1] at hw'
      exact (hnew hj).apart hl hw hw'
    · rw [h.processes j hji] at hj hw
      rw [(h.live hk hji hj).1] at hw
      by_cases hli : l = i
      · subst hli
        exact (hnew hl).apart hj hw' hw
      · rw [h.processes l hli] at hl hw'
        rw [(h.live hk hli hl).1] at hw'
        exact hk.apart j l hjl hj hl w hw hw'

/-- With another process `process_terminate` returns. -/
lemma Registry.terminate_returns (h : Registry k) (hi : k.processes i ≠ 0) (hij : j ≠ i)
    (hj : k.processes j ≠ 0) : ∃ k', processTerminate k (k.processes i) = some k' := by
  obtain ⟨k₁, heq, hprocs, hprocesses, -⟩ := (h.live i hi).terminate_eq
  have hid : (k₁.procs (k.processes i)).id.toNat = i := by
    rw [hprocs]
    exact h.id i hi
  rw [heq, processUnlik, clearSlot_eq hid, hprocesses]
  dsimp only
  split_ifs
  · have hsome : (Fin.find? fun l => Function.update k.processes i 0 l ≠ 0).isSome := by
      refine Fin.isSome_find?_iff.2 ⟨j, ?_⟩
      rw [Function.update_of_ne hij]
      simpa using hj
    obtain ⟨l, hl⟩ := Option.isSome_iff_exists.1 hsome
    exact ⟨_, congrArg (Option.map _) hl⟩
  · exact ⟨_, rfl⟩

/-- `process_terminate` of a registered process clears its slot and leaves the others as they
were; without another process it does not return. -/
theorem Registry.terminate (h : Registry k) (hi : k.processes i ≠ 0)
    (hterm : processTerminate k (k.processes i) = some k') :
    k'.processes = Function.update k.processes i 0 ∧ Registry k' ∧
    (k.currentProcess ≠ 0 → k'.currentProcess ≠ 0) := by
  obtain ⟨k₁, heq, hprocs, hprocesses, hcurrent, htasks, hkeep⟩ := (h.live i hi).terminate_eq
  rw [heq] at hterm
  obtain ⟨hkmem', hprocs', htasks', hprocesses', hcurrent'⟩ := @processUnlik_some k₁ k' _ i
    (by rw [hprocs]; exact h.id i hi) hterm
  rw [hprocesses] at hprocesses'
  have hslot : ∀ j ≠ i, k'.processes j = k.processes j := fun j hj => by
    rw [hprocesses', Function.update_of_ne hj]
  have hothers : OthersKept k k' i := by
    refine ⟨?_, fun j hj hpj => ?_, fun j _ _ => by rw [hprocs', hprocs], fun j _ _ => ?_, hslot⟩
    · rw [hkmem']
      exact (hkeep ∅ (Set.empty_disjoint _)).linked h.linked
    · rw [hkmem']
      exact hkeep _ (h.blocks_apart hj hpj hi)
    · rw [Kernel.pageDirectory, Kernel.pageDirectory, hprocs', hprocs, htasks', htasks]
  refine ⟨hprocesses', hothers.registry h (fun hne => ?_) fun hcur => ?_, fun hcur => ?_⟩
  · rw [hprocesses', Function.update_self] at hne
    exact absurd rfl hne
  · rcases hcurrent' with ⟨hsame, hother⟩ | ⟨j, -, hj⟩
    · rw [hsame, hcurrent] at hcur
      obtain ⟨j, hj⟩ := h.current hcur
      have hji : j ≠ i := by
        rintro rfl
        rw [hcurrent] at hother
        exact hother hj.symm
      exact ⟨j, by rw [hslot j hji, hsame, hcurrent, hj]⟩
    · exact ⟨j, hj.symm⟩
  · rcases hcurrent' with ⟨hsame, -⟩ | ⟨j, hj, heq⟩
    · rw [hsame, hcurrent]
      exact hcur
    · rw [heq]
      exact hj

end AlphaOS.Processes
