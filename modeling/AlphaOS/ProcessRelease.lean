import AlphaOS.FrontierLoad
import AlphaOS.HeapRequests
import AlphaOS.ProcessAlloc

/-! What `process_terminate` gives back of a process that was loaded and allocated memory since. -/
namespace AlphaOS.Processes
open BlockHeap Elf Kheap Paging Tasks WordMemory

/-- The blocks of the allocation at `ptr`, along the chain that `kfree` follows. -/
def allocationBlocks (s : Kmem) (ptr : Word) : Set ℕ :=
  {i | ∃ b ≤ i, ptr = blockAddr b ∧ i < 25600 ∧ ∀ j : ℕ, b ≤ j → j < i → ¬ NoNext s.entries j}

/-- The pointers to what was allocated for a process by its load and by `process_malloc` since. -/
def ownedPointers (k : Kernel) (process : Word) : Set Word :=
  heldPointers k process ∪ {w | ∃ i, w = (k.record process i).ptr}

/-- From `k` to `k'` all blocks of the process were freed, and those of no other allocation were
touched. -/
structure GivenBack (k k' : Kernel) (process : Word) : Prop where
  freed : ∀ w ∈ ownedPointers k process, ∀ b ∈ allocationBlocks k.kmem w, IsFree k'.kmem.entries b
  others : ∀ b n, Allocated k.kmem.kernelHeap b n → blockAddr b ∉ ownedPointers k process →
    ∀ j < n, k'.kmem.entries (b + j : ℕ) = k.kmem.entries (b + j : ℕ)

/-- `process_terminate` returns and has given everything back. -/
def TerminateLaw (k : Kernel) (process : Word) : Prop :=
  ∃ k', processTerminate k process = some k' ∧ GivenBack k k' process

/-- What a process asks of the heap: sizes of at least one block that fit, and to free any pointer. -/
inductive HeapCall (process : Word) (k : Kernel) : Kernel → Prop
  | malloc (size : Word) (blocks : 0 < (heapBlocksFor size).toNat)
      (room : k.kmem.Room (heapBlocksFor size).toNat) :
      HeapCall process k (processMalloc k process size).2
  | free (ptr : Word) : HeapCall process k (processFree k process ptr)

/-- The structure, the `elf_file`, the task and the directory of a process are in the blocks of
`K`, which stay allocated, and nothing it passes to `kfree` is its structure. -/
structure Rooted (k : Kernel) (process dir : Word) (table : ℕ → Word) (K : Set ℕ) : Prop where
  pinned : ∀ b ∈ K, b < 25600 ∧ Pinned k.kmem.entries b 1
  pageDir : PageDir k.kmem.mem (k.pageDirectory process) dir table
  root : ∀ w, w = process ∨ w = k.pageDirectory process ∨ w = dir ∨ (∃ i < 1024, w = table i) →
    ∃ b ∈ K, w = blockAddr b
  elf : (k.procs process).fileType = processFiletypeElf
  file : (k.procs process).data ≠ 0 → ∃ f ∈ K, (k.procs process).data = blockAddr f ∧
    ∀ i < 1024, table i ≠ blockAddr f
  passed : ∀ w ∈ terminatePointers k process, w = 0 ∨ ∃ c < 25600, w = blockAddr c ∧ w ≠ process
  records : ∀ i, (k.record process i).ptr = 0 ∨
    ∃ c < 25600, (k.record process i).ptr = blockAddr c ∧ c ∉ K

variable {k k' : Kernel} {process dir ptr : Word} {table : ℕ → Word} {K : Set ℕ} {s : Kmem} {b p : ℕ}

/-- Whatever its size, a request is refused or starts at a free block. -/
lemma kzalloc_free (s : Kmem) (size : Word) : (kzalloc s size).1 = 0 ∨
    ∃ b < 25600, IsFree s.entries b ∧ (kzalloc s size).1 = blockAddr b := by
  rw [kzalloc_fst]
  obtain hnull | ⟨b, hb, hfree, heq⟩ := heapMalloc_free s.kernelHeap size
  · exact .inl hnull
  · rw [s.total_toNat] at hb
    exact .inr ⟨b, hb, hfree, heq.trans (heapBlockToAddress_eq s b)⟩

lemma Rooted.page (h : Rooted k process dir table K) {w : Word} (hw : w = process ∨
    w = k.pageDirectory process ∨ w = dir ∨ (∃ i < 1024, w = table i)) :
    ∃ b ∈ K, w = blockAddr b ∧ pageOf w = 4096 + b := by
  obtain ⟨b, hb, rfl⟩ := h.root w hw
  have hlt := (h.pinned b hb).1
  exact ⟨b, hb, rfl, pageOf_blockAddr (by omega)⟩

/-- Whoever keeps the blocks taken and writes to the tables only keeps the process rooted. -/
theorem Rooted.withKmem (h : Rooted k process dir table K) {S : Set ℕ}
    (hpin : ∀ b ∈ K, Pinned k.kmem.entries b 1 → Pinned s.entries b 1)
    (hmem : SameOff S k.kmem.mem s.mem) (hS : ∀ b ∈ K, 4096 + b ∈ S → 4096 + b ∈ tablePages table) :
    Rooted (k.withKmem s) process dir table K := by
  have hchunk : pageOf (k.pageDirectory process) ∉ S := by
    obtain ⟨b, hb, -, hpage⟩ := h.page (.inr (.inl rfl))
    rw [hpage]
    intro hin
    obtain ⟨i, hi, heq⟩ := hS b hb hin
    exact h.pageDir.chunk_off i hi (hpage.trans heq)
  have hdir : pageOf dir ∉ S := by
    obtain ⟨b, hb, -, hpage⟩ := h.page (.inr (.inr (.inl rfl)))
    rw [hpage]
    intro hin
    obtain ⟨i, hi, heq⟩ := hS b hb hin
    exact h.pageDir.dir_off i hi (hpage.trans heq)
  have hpageDir := h.pageDir.frame hmem hchunk hdir
  have himage : (k.procs process).data ≠ 0 → elfMemory s.mem (k.procs process).data =
      elfMemory k.kmem.mem (k.procs process).data := by
    intro hne
    obtain ⟨f, hf, heq, hnot⟩ := h.file hne
    rw [heq]
    refine read32_eq_of_same fun x hx => hmem x fun hin => ?_
    rw [elfMemory_page (h.pinned f hf).1 hx] at hin
    obtain ⟨i, hi, hpage⟩ := hS f hf hin
    obtain ⟨b, -, hb, hpage'⟩ := h.page (.inr (.inr (.inr ⟨i, hi, rfl⟩)))
    obtain rfl : f = b := by omega
    exact hnot i hi hb
  refine ⟨fun b hb => ⟨(h.pinned b hb).1, hpin b hb (h.pinned b hb).2⟩, hpageDir, h.root, h.elf,
    h.file, ?_, h.records⟩
  have hbefore := h.pageDir.chunk_word
  have hafter := hpageDir.chunk_word
  rintro w (hw | hw | hw | hw | ⟨i, hi, hw⟩ | ⟨hne, hw⟩)
  · exact h.passed w (.inl hw)
  · exact h.passed w (.inr (.inl hw))
  · exact h.passed w (.inr (.inr (.inl hw)))
  · refine h.passed w (.inr (.inr (.inr (.inl (hw.trans ?_)))))
    exact hafter.trans hbefore.symm
  · refine h.passed w (.inr (.inr (.inr (.inr (.inl ⟨i, hi, hw.trans ?_⟩)))))
    have hsame : (k.withKmem s).directory process = k.directory process := hafter.trans hbefore.symm
    have hdirectory : k.directory process = dir := hbefore
    rw [hsame, hdirectory]
    exact (hpageDir.entry i hi).trans (h.pageDir.entry i hi).symm
  · refine h.passed w (.inr (.inr (.inr (.inr (.inr ⟨hne, hw.imp_right fun hw => hw.trans ?_⟩)))))
    exact himage hne

lemma Rooted.mapTo (h : Rooted k process dir table K) (va pa paEnd flags : Word) :
    Rooted (k.withKmem (k.kmem.withMem
      (pagingMapTo k.kmem.mem (k.pageDirectory process) va pa paEnd flags).2)) process dir table K :=
  h.withKmem (fun _ _ hpin => hpin) (pagingMapTo_keeps h.pageDir va pa paEnd flags).off
    fun _ _ hin => hin

lemma Rooted.kfree (h : Rooted k process dir table K)
    (hptr : ptr = 0 ∨ ∃ c < 25600, ptr = blockAddr c ∧ c ∉ K) :
    Rooted (k.withKmem (kfree k.kmem ptr)) process dir table K := by
  refine h.withKmem (fun b hb hpin => hpin.kfree ?_) (SameOff.refl ∅ _) fun _ _ hin =>
    absurd hin (Set.notMem_empty _)
  rcases hptr with rfl | ⟨c, hc, rfl, hnot⟩
  · exact .inl (heapAddressToBlock_null _).le
  · have hne : c ≠ b := fun heq => hnot (heq ▸ hb)
    exact elsewhere_blockAddr (by omega) (by omega)

/-- A record is no pointer of the load. -/
lemma setAllocation_pointers (k : Kernel) (process : Word) (i : Fin maxProgramAllocations)
    (a : ProcessAllocation) :
    (k.setProcess process (setAllocation (k.procs process) i a)).pageDirectory process =
      k.pageDirectory process ∧
    terminatePointers (k.setProcess process (setAllocation (k.procs process) i a)) process =
      terminatePointers k process := by
  have hprocs : (k.setProcess process (setAllocation (k.procs process) i a)).procs process =
      setAllocation (k.procs process) i a := Function.update_self _ _ _
  have hdirectory : (k.setProcess process (setAllocation (k.procs process) i a)).pageDirectory
      process = k.pageDirectory process := by
    rw [Kernel.pageDirectory, hprocs]
    rfl
  refine ⟨hdirectory, ?_⟩
  unfold terminatePointers
  rw [hprocs, Kernel.directory, hdirectory]
  rfl

lemma Rooted.setRecord (h : Rooted k process dir table K) {a : ProcessAllocation}
    (ha : a.ptr = 0 ∨ ∃ c < 25600, a.ptr = blockAddr c ∧ c ∉ K) (i : Fin maxProgramAllocations) :
    Rooted (k.setProcess process (setAllocation (k.procs process) i a)) process dir table K := by
  obtain ⟨hdirectory, hpointers⟩ := setAllocation_pointers k process i a
  have hprocs : (k.setProcess process (setAllocation (k.procs process) i a)).procs process =
      setAllocation (k.procs process) i a := Function.update_self _ _ _
  refine ⟨h.pinned, ?_, ?_, ?_, ?_, ?_, fun j => ?_⟩
  · rw [hdirectory]
    exact h.pageDir
  · rw [hdirectory]
    exact h.root
  · rw [hprocs]
    exact h.elf
  · rw [hprocs]
    exact h.file
  · rw [hpointers]
    exact h.passed
  · have hrecord := setProcess_record k process i a k.kmem process j
    change (k.setProcess process (setAllocation (k.procs process) i a)).record process j = _ at hrecord
    rw [hrecord]
    split_ifs
    · exact ha
    · exact h.records j

/-! What the process asks of the heap. -/

theorem Rooted.malloc (h : Rooted k process dir table K) {size : Word}
    (hn : 0 < (heapBlocksFor size).toNat) (hroom : k.kmem.Room (heapBlocksFor size).toNat) :
    Rooted (processMalloc k process size).2 process dir table K := by
  obtain ⟨b, hfit, -, heq⟩ := kzalloc_room k.kmem hn hroom
  have hb := hfit.1
  have haddr := blockAddr_toNat (b := b) (by omega)
  -- the new blocks were free, so they are none of `K`
  have hnot : ∀ c ∈ K, ¬ (b ≤ c ∧ c < b + (heapBlocksFor size).toNat) := fun c hc hin =>
    (h.pinned c hc).2.not_free (hfit.2 c hin.1 hin.2)
  have hfresh : b ∉ K := fun hmem => hnot b hmem ⟨le_rfl, by omega⟩
  have hmem : SameOff (blockPages b (heapBlocksFor size).toNat) k.kmem.mem (kzalloc k.kmem size).2.mem := by
    have hblocks := heapBlocksFor_toNat hn
    rw [heq, blockPages_eq (by omega)]
    exact fill_sameOff k.kmem.mem (blockAddr_aligned (by omega)) (by omega) (by omega) 0
  have hzeroed : Rooted (k.withKmem (kzalloc k.kmem size).2) process dir table K :=
    h.withKmem (fun c hc hpin => hpin.kzalloc one_pos (h.pinned c hc).1 size) hmem
      fun c hc hin => absurd ⟨by have := hin.1; omega, by have := hin.2; omega⟩ (hnot c hc)
  have hptr : (kzalloc k.kmem size).1 = blockAddr b := by rw [heq]
  have hblock : (kzalloc k.kmem size).1 = 0 ∨
      ∃ c < 25600, (kzalloc k.kmem size).1 = blockAddr c ∧ c ∉ K := .inr ⟨b, by omega, hptr, hfresh⟩
  have hne : ¬ (kzalloc k.kmem size).1 = 0 := by
    rw [hptr]
    exact blockAddr_ne_zero (by omega)
  unfold processMalloc
  dsimp only
  rw [if_neg hne]
  cases processFindFreeAllocationIndex (k.procs process) with
  | none => exact hzeroed.kfree hblock
  | some index =>
    dsimp only
    have hmapped := hzeroed.mapTo (kzalloc k.kmem size).1 (kzalloc k.kmem size).1
      (pagingAlignAddress ((kzalloc k.kmem size).1 + size))
      (pagingIsPresent ||| pagingAccessFromAll ||| pagingIsWritable)
    split_ifs
    · exact hmapped.kfree hblock
    · exact hmapped.setRecord hblock index

theorem Rooted.free (h : Rooted k process dir table K) (ptr : Word) :
    Rooted (processFree k process ptr) process dir table K := by
  cases hfind : processGetAllocationByAddr (k.procs process) ptr with
  | none =>
    unfold processFree
    rw [hfind]
    exact h
  | some i =>
    have hrecord : (k.record process i).ptr = ptr := processGetAllocationByAddr_some hfind
    have hptr := h.records i
    rw [hrecord] at hptr
    have hmapped := h.mapTo (k.record process i).ptr 0
      (pagingAlignAddress ((k.record process i).ptr + (k.record process i).size)) 0
    unfold processFree
    rw [hfind]
    dsimp only
    rw [processAllocationUnjoin_eq hfind]
    split_ifs
    · exact hmapped
    · exact (hmapped.kfree hptr).setRecord (.inl rfl) i

theorem Rooted.run (h : Rooted k process dir table K)
    (run : Relation.ReflTransGen (HeapCall process) k k') : Rooted k' process dir table K := by
  induction run with
  | refl => exact h
  | tail _ step ih =>
    cases step with
    | malloc size blocks room => exact ih.malloc blocks room
    | free ptr => exact ih.free ptr

lemma Rooted.records_freed (h : Rooted k process dir table K) :
    Rooted (processTerminateAllocation k process) process dir table K := by
  unfold processTerminateAllocation
  generalize List.finRange maxProgramAllocations = is
  induction is generalizing k with
  | nil => exact h
  | cons i is ih => exact ih (h.free _)

lemma processUnlik_kmem (h : processUnlik k process = some k') : k'.kmem = k.kmem := by
  rw [processUnlik] at h
  dsimp only at h
  split_ifs at h
  · obtain ⟨i, -, rfl⟩ := processSwitchToAny_some h
    rfl
  · obtain rfl := Option.some.inj h
    rfl

/-- A block is pinned after the release of a directory whose pointers lead elsewhere. -/
lemma pinned_pagingFree4gb {chunk : Word} (hpin : Pinned s.entries p 1)
    (hchunk : ∀ t, Elsewhere t chunk p 1) (hdir : ∀ t, Elsewhere t (read32 s.mem chunk) p 1)
    (htables : ∀ j < 1024, ∀ t, Elsewhere t (pagingTable s.mem (read32 s.mem chunk) j) p 1) :
    Pinned (pagingFree4gb s chunk).entries p 1 := by
  obtain ⟨hfreed, hmem⟩ := @pagingFreeTables_induct s.mem chunk (fun t => Pinned t.entries p 1) 1024 0
    s rfl hpin fun t j _ hj ht => ht.kfree (htables j (by omega) t)
  rw [pagingFree4gb, hmem]
  exact (hfreed.kfree (hdir _)).kfree (hchunk _)

/-- `process_terminate` leaves the structure of the process allocated. -/
theorem Rooted.terminate (h : Rooted k process dir table K)
    (hterm : processTerminate k process = some k') :
    ∃ p < 25600, process = blockAddr p ∧ Pinned k'.kmem.entries p 1 := by
  obtain ⟨k₁, hk₁⟩ : ∃ k₁, processTerminateAllocation k process = k₁ := ⟨_, rfl⟩
  have h₁ := h.records_freed
  rw [hk₁] at h₁
  rw [processTerminate_eq hk₁ h₁.elf] at hterm
  obtain ⟨p, hp, hproc⟩ := h₁.root process (.inl rfl)
  obtain ⟨hlt, hpin⟩ := h₁.pinned p hp
  have helsewhere : ∀ w ∈ terminatePointers k₁ process, ∀ t, Elsewhere t w p 1 := by
    intro w hw t
    rcases h₁.passed w hw with rfl | ⟨c, hc, rfl, hne⟩
    · exact .inl (heapAddressToBlock_null t).le
    · have hcp : c ≠ p := fun heq => hne (by rw [heq, hproc])
      exact elsewhere_blockAddr (by omega) (by omega)
  have hclose : Pinned (elfClose k₁.kmem (k₁.procs process).data).entries p 1 ∧
      (elfClose k₁.kmem (k₁.procs process).data).mem = k₁.kmem.mem := by
    rw [elfClose]
    split_ifs with hnull
    · exact ⟨hpin, rfl⟩
    · refine ⟨(hpin.kfree (helsewhere _ ?_ _)).kfree (helsewhere _ ?_ _), rfl⟩
      · exact .inr (.inr (.inr (.inr (.inr ⟨hnull, .inr rfl⟩))))
      · exact .inr (.inr (.inr (.inr (.inr ⟨hnull, .inl rfl⟩))))
  obtain ⟨s₁, hs₁⟩ : ∃ s₁, s₁ = Kheap.kfree (elfClose k₁.kmem (k₁.procs process).data)
    (k₁.procs process).stack := ⟨_, rfl⟩
  have hstack : Pinned s₁.entries p 1 := hs₁ ▸ hclose.1.kfree (helsewhere _ (.inl rfl) _)
  have hmem : s₁.mem = k₁.kmem.mem := by
    rw [hs₁]
    exact hclose.2
  rw [← hs₁] at hterm
  have hdirectory : Pinned (pagingFree4gb s₁ (k₁.pageDirectory process)).entries p 1 := by
    refine pinned_pagingFree4gb hstack (helsewhere _ (.inr (.inr (.inl rfl)))) ?_ fun j hj => ?_
    · rw [hmem]
      exact helsewhere _ (.inr (.inr (.inr (.inl rfl))))
    · rw [hmem]
      exact helsewhere _ (.inr (.inr (.inr (.inr (.inl ⟨j, hj, rfl⟩)))))
  have hlast := hdirectory.kfree (helsewhere (k₁.procs process).task (.inr (.inl rfl)) _)
  refine ⟨p, hlt, hproc, ?_⟩
  rw [processUnlik_kmem hterm, (taskFree_memory _ _).1, Kernel.withKmem_kmem, Kernel.withKmem_tasks]
  rw [Kernel.pageDirectory] at hlast
  exact hlast

lemma processFree_currentProcess (k : Kernel) (process ptr : Word) :
    (processFree k process ptr).currentProcess = k.currentProcess := by
  unfold processFree
  cases processGetAllocationByAddr (k.procs process) ptr with
  | none => rfl
  | some i =>
    dsimp only
    split_ifs <;> rfl

lemma processTerminateAllocation_currentProcess (k : Kernel) (process : Word) :
    (processTerminateAllocation k process).currentProcess = k.currentProcess := by
  unfold processTerminateAllocation
  generalize List.finRange maxProgramAllocations = is
  induction is generalizing k with
  | nil => rfl
  | cons i is ih => exact (ih _).trans (processFree_currentProcess k process _)

/-- It returns when another process is the current one. -/
lemma Rooted.terminate_returns (h : Rooted k process dir table K)
    (hcurrent : k.currentProcess ≠ process) : ∃ k', processTerminate k process = some k' := by
  obtain ⟨k₁, hk₁⟩ : ∃ k₁, processTerminateAllocation k process = k₁ := ⟨_, rfl⟩
  have helf := h.records_freed.elf
  have hrecords := processTerminateAllocation_currentProcess k process
  rw [hk₁] at hrecords helf
  rw [processTerminate_eq hk₁ helf, processUnlik]
  obtain ⟨-, hswitch, -⟩ := taskFree_table (k₁.withKmem (Kheap.kfree (elfClose k₁.kmem
    (k₁.procs process).data) (k₁.procs process).stack)) (k₁.procs process).task
  refine ⟨_, if_neg fun heq => hcurrent ?_⟩
  rw [← hrecords, ← heq]
  exact hswitch.symm

/-! What a load makes rooted. -/

/-- The blocks of the process structure and of the `elf_file`. -/
def takenBlocks (files : FileCalls) (k : Kernel) : Set ℕ :=
  {b | b < 25600 ∧ (b ∈ processBlock k ∨ (dataStep files k).2.1 = blockAddr b)}

section Load
variable {files : FileCalls} {slot : Fin maxProcesses} {res : ℤ}

section Data
variable (hlinked : Linked k.kmem.entries)
  (hfiles : files.Respects (processBlock k) (processStep k).2)
include hlinked hfiles

/-- The `elf_file` and its image, whatever the size of the image. -/
lemma dataStep_pointers (hdata : (dataStep files k).2.1 ≠ 0) :
    ∃ f < 25600, (dataStep files k).2.1 = blockAddr f ∧ f ∉ processBlock k ∧
      Pinned (dataStep files k).2.2.entries f 1 ∧
      (elfMemory (dataStep files k).2.2.mem (dataStep files k).2.1 = 0 ∨ ∃ g < 25600,
        elfMemory (dataStep files k).2.2.mem (dataStep files k).2.1 = blockAddr g ∧
          g ∉ processBlock k) := by
  have hstep : Linked (processStep k).2.entries := hlinked.kzalloc 9364
  have hK : ∀ b ∈ processBlock k, b < 25600 ∧ Pinned (processStep k).2.entries b 1 := fun b hb =>
    ⟨hb.1, (processBlock_pinned hlinked hb).2⟩
  obtain ⟨hload, hout⟩ := Loads.of_handed hdata
  have hfile : (dataStep files k).2.1 = (fileStep (processStep k).2).1 := hout
  rw [hfile] at hdata ⊢
  obtain ⟨f, hf, hfree, heq, -⟩ := (fileStep_cases (processStep k).2).resolve_left fun heq =>
    hdata (by rw [heq])
  have haddr : (fileStep (processStep k).2).1 = blockAddr f := by rw [heq]
  refine ⟨f, hf, haddr, fun hmem => (hK f hmem).2.not_free hfree,
    hfiles.file_pinned hK hstep ⟨hf, haddr⟩, ?_⟩
  have hword : elfMemory (dataStep files k).2.2.mem (fileStep (processStep k).2).1 =
      (imageStep files (processStep k).2).1 := hfiles.image_word hK hstep hload hdata
  rw [hword]
  obtain hnull | ⟨g, hg, hgfree, hgeq⟩ := kzalloc_free (statStep files (processStep k).2).2.2
    (statStep files (processStep k).2).2.1
  · exact .inl hnull
  · refine .inr ⟨g, hg, hgeq, fun hmem => ?_⟩
    -- the structure is taken when the image is allocated
    have hpin := (hK g hmem).2.kzalloc one_pos (by omega) 132
    exact ((hfiles.fopen.trans hfiles.fstat).pinned g (.inl hmem) hpin).not_free hgfree

lemma takenBlocks_pinned (hb : b ∈ takenBlocks files k) : Pinned (dataStep files k).2.2.entries b 1 := by
  obtain ⟨hlt, hmem | heq⟩ := hb
  · refine hfiles.elfLoad_pins (fun c hc => ⟨hc.1, (processBlock_pinned hlinked hc).2⟩) (.inl hmem) ?_
    exact (processBlock_pinned hlinked hmem).2.kzalloc one_pos (by omega) 132
  · obtain ⟨f, hf, hfeq, -, hpin, -⟩ := dataStep_pointers hlinked hfiles (by
      rw [heq]
      exact blockAddr_ne_zero (by omega))
    obtain rfl : b = f := blockAddr_inj (by omega) (by omega) (heq.symm.trans hfeq)
    exact hpin

/-- The stack is in other blocks, and its allocation keeps the `elf_file`. -/
lemma stackStep_pointers (hs : (stackStep files k).1 ≠ 0) :
    Linked (stackStep files k).2.entries ∧
    (∃ t < 25600, (stackStep files k).1 = blockAddr t ∧ t ∉ takenBlocks files k) ∧
    Keeps (takenBlocks files k) (dataStep files k).2.2 (stackStep files k).2 := by
  have hstep : Linked (dataStep files k).2.2.entries := hfiles.elfLoad_linked (hlinked.kzalloc 9364)
  obtain ⟨t, ht, hteq, hfree, -⟩ :=
    @Linked.kzalloc_pinned (dataStep files k).2.2 userProgramStackSize hstep hs (by decide)
  refine ⟨hstep.kzalloc _, ⟨t, ht, hteq, fun hmem => ?_⟩,
    keeps_kzalloc (fun b hb => hb.1) (.inr (by decide))⟩
  exact (takenBlocks_pinned hlinked hfiles hmem).not_free hfree

/-- The process is rooted when its memory is mapped. -/
theorem MappedState.rooted (h : MappedState files k slot k') (hp : (processStep k).1 ≠ 0)
    (hs : (stackStep files k).1 ≠ 0) : ∃ dir table K, Rooted k' (processStep k).1 dir table K := by
  obtain ⟨hstep, ⟨t, ht, hteq, htnot⟩, hkeep⟩ := stackStep_pointers hlinked hfiles hs
  have htaken : ∀ b ∈ takenBlocks files k, Pinned (stackStep files k).2.entries b 1 := fun b hb =>
    hkeep.pinned b hb (takenBlocks_pinned hlinked hfiles hb)
  obtain ⟨B, dir, table, hB, hdir, hpointers, hkept, -⟩ := h.blocks htaken hstep
  have hself := h.procs_self
  have hdata : (k'.procs (processStep k).1).data = (dataStep files k).2.1 := by
    rw [hself]
    rfl
  have hstack : (k'.procs (processStep k).1).stack = blockAddr t := by
    rw [hself]
    exact hteq
  have hdirectory : k'.directory (processStep k).1 = dir := hdir.chunk_word
  obtain ⟨p, hpb, hpeq, -, -⟩ := @Linked.kzalloc_pinned k.kmem 9364 hlinked hp (by decide)
  have hpmem : p ∈ processBlock k := ⟨hpb, hpeq⟩
  have hapart : ∀ b ∈ B, b ∉ takenBlocks files k := fun b hb hmem =>
    (htaken b hmem).not_free (hB b hb).2.1
  -- a block other than that of the structure is no pointer to it
  have hother : ∀ c < 25600, c ∉ processBlock k → blockAddr c = 0 ∨ ∃ d < 25600,
      blockAddr c = blockAddr d ∧ blockAddr c ≠ (processStep k).1 := fun c hc hnot =>
    .inr ⟨c, hc, rfl, fun heq => hnot ⟨hc, heq.symm⟩⟩
  have hnew : ∀ w, (∃ b ∈ B, w = blockAddr b) → w = 0 ∨ ∃ c < 25600, w = blockAddr c ∧
      w ≠ (processStep k).1 := by
    rintro w ⟨b, hb, rfl⟩
    have hlt := (hB b hb).1
    exact hother b hlt fun hmem => hapart b hb ⟨hlt, .inl hmem⟩
  refine ⟨dir, table, takenBlocks files k ∪ B, ?_, hdir, ?_, ?_, fun hne => ?_, ?_, fun i => .inl ?_⟩
  · rintro b (hb | hb)
    · exact ⟨hb.1, hkept.pinned b hb (htaken b hb)⟩
    · exact ⟨(hB b hb).1, (hB b hb).2.2⟩
  · rintro w (rfl | hw)
    · exact ⟨p, .inl ⟨hpb, .inl hpmem⟩, hpeq⟩
    · obtain ⟨b, hb, heq⟩ := hpointers w (.inr hw)
      exact ⟨b, .inr hb, heq⟩
  · rw [hself]
    rfl
  · rw [hdata] at hne ⊢
    obtain ⟨f, hf, heq, -⟩ := dataStep_pointers hlinked hfiles hne
    refine ⟨f, .inl ⟨hf, .inr heq⟩, heq, fun i hi htable => ?_⟩
    obtain ⟨b, hb, hbeq⟩ := hpointers _ (.inr (.inr (.inr ⟨i, hi, rfl⟩)))
    have hlt := (hB b hb).1
    obtain rfl : b = f := blockAddr_inj (by omega) (by omega) (hbeq.symm.trans htable)
    exact hapart b hb ⟨hf, .inr heq⟩
  · rintro w (rfl | hw | hw | hw | ⟨i, hi, hw⟩ | ⟨hne, hw⟩)
    · rw [hstack]
      exact hother t ht fun hmem => htnot ⟨ht, .inl hmem⟩
    · exact hnew w (hpointers w (.inl hw))
    · exact hnew w (hpointers w (.inr (.inl hw)))
    · exact hnew w (hpointers w (.inr (.inr (.inl (hw.trans hdirectory)))))
    · rw [hdirectory] at hw
      exact hnew w (hpointers w (.inr (.inr (.inr ⟨i, hi, hw.trans (hdir.entry i hi)⟩))))
    · rw [hdata] at hne hw
      obtain ⟨f, hf, heq, hfnot, hfpin, himage⟩ := dataStep_pointers hlinked hfiles hne
      have hfmem : f ∈ takenBlocks files k := ⟨hf, .inr heq⟩
      have hword : elfMemory k'.kmem.mem (dataStep files k).2.1 =
          elfMemory (dataStep files k).2.2.mem (dataStep files k).2.1 := by
        rw [heq]
        refine read32_eq_of_same fun x hx => ?_
        have hpage := elfMemory_page hf hx
        rw [hkept.mem f hfmem (htaken f hfmem) x hpage, hkeep.mem f hfmem hfpin x hpage]
      rw [hword] at hw
      rcases hw with rfl | rfl
      · rw [heq]
        exact hother f hf hfnot
      · rcases himage with hnull | ⟨g, hg, hgeq, hgnot⟩
        · exact .inl hnull
        · rw [hgeq]
          exact hother g hg hgnot
  · rw [Kernel.record, hself]
    rfl

end Data

/-- A load that made a process with a task leaves it rooted, and does not switch to it. -/
theorem rooted_load (hlinked : Linked k.kmem.entries)
    (hfiles : files.Respects (processBlock k) (processStep k).2)
    (hload : processLoadForSlot files k slot = some (res, process, k')) (hres : ¬ res < 0)
    (htask : isErr (k'.procs process).task = false) :
    (∃ dir table K, Rooted k' process dir table K) ∧ k'.currentProcess = k.currentProcess := by
  obtain ⟨-, rfl, hp, hs, mem, hmap, hk'⟩ := processLoadForSlot_stages hload hres
  have hnew : isErr (taskNew (loadedKernel files k slot) (processStep k).1).1 = false := by
    have hself : (k'.procs (processStep k).1).task =
        (taskNew (loadedKernel files k slot) (processStep k).1).1 := by
      rw [hk', registered_procs, startedKernel_procs]
    rw [← hself]
    exact htask
  obtain ⟨htable, hcurrent⟩ := startedKernel_table hnew
  have hstate : MappedState files k slot k' := by
    rw [hk']
    refine ⟨hnew, ⟨(res, mem), hmap, registered_kmem _ _ _ _⟩, registered_procs _ _ _ _,
      registered_tasks _ _ _ _, fun j hj => ?_⟩
    rw [registered_processes, Function.update_of_ne hj, htable]
  refine ⟨hstate.rooted hlinked hfiles hp hs, ?_⟩
  rw [hk', registered_currentProcess, hcurrent]

/-- `process_terminate` never gives everything back: of a process that was loaded and called
`process_malloc` and `process_free` since, the structure stays allocated. -/
theorem not_terminateLaw {k₀ k₁ : Kernel} (hlinked : Linked k₀.kmem.entries)
    (hfiles : files.Respects (processBlock k₀) (processStep k₀).2)
    (hload : processLoadForSlot files k₀ slot = some (res, process, k₁)) (hres : ¬ res < 0)
    (htask : isErr (k₁.procs process).task = false)
    (run : Relation.ReflTransGen (HeapCall process) k₁ k) : ¬ TerminateLaw k process := by
  obtain ⟨⟨dir, table, K, hroot⟩, -⟩ := rooted_load hlinked hfiles hload hres htask
  rintro ⟨k', hterm, hback⟩
  obtain ⟨p, hp, hproc, hpin⟩ := (hroot.run run).terminate hterm
  refine hpin.not_free (hback.freed process (.inl (.inl rfl)) p ⟨p, le_rfl, hproc, hp, ?_⟩)
  intro j h1 h2
  omega

end Load

section Witness

/-- The load of a file of 84 bytes on an empty heap. -/
lemma codeSegment_load : ∃ res k₁, processLoadForSlot (serve (oneSegment codeSegment))
      (zeroKernel emptyKmem) 0 = some (res, blockAddr 0, k₁) ∧ ¬ res < 0 ∧
    isErr (k₁.procs (blockAddr 0)).task = false ∧
    (serve (oneSegment codeSegment)).Respects (processBlock (zeroKernel emptyKmem))
      (processStep (zeroKernel emptyKmem)).2 := by
  obtain ⟨k₁, hloaded, -, -⟩ := programLoaded_oneSegment codeSegment_ordered
  obtain ⟨res, hres, hload⟩ := hloaded.load
  rw [processLoad_some hloaded.slot_eq] at hload
  obtain ⟨hprocess, hnext⟩ := @processStep_frontier (zeroKernel emptyKmem) 0 emptyKmem_frontier (by omega)
  refine ⟨res, k₁, hload, hres, hloaded.task, ?_⟩
  refine respects_served (elfImage_oneSegment codeSegment) hnext ?_ fun b hb => ?_
  · rw [fileBlocks_oneSegment]
    omega
  · have heq := hprocess.symm.trans hb.2
    have hlt := hb.1
    have := blockAddr_inj (b := 0) (c := b) (by omega) (by omega) heq
    omega

theorem not_terminateLaw_codeSegment : ∃ res k₁, processLoadForSlot (serve (oneSegment codeSegment))
      (zeroKernel emptyKmem) 0 = some (res, blockAddr 0, k₁) ∧
    ¬ TerminateLaw (processFree k₁ (blockAddr 0) 0) (blockAddr 0) := by
  obtain ⟨res, k₁, hload, hres, htask, hfiles⟩ := codeSegment_load
  exact ⟨res, k₁, hload, not_terminateLaw emptyKmem_linked hfiles hload hres htask (.single (.free 0))⟩

/-- The process is terminated right after its load: the first block of its structure, block 0 of
the pool, is not free. -/
theorem terminate_leaksStructure : ∃ res k₁ k₂, ¬ res < 0 ∧
    processLoadForSlot (serve (oneSegment codeSegment)) (zeroKernel emptyKmem) 0 =
      some (res, blockAddr 0, k₁) ∧
    processTerminate k₁ (blockAddr 0) = some k₂ ∧ 0 ∈ allocationBlocks k₁.kmem (blockAddr 0) ∧
    ¬ IsFree k₂.kmem.entries 0 ∧ ¬ GivenBack k₁ k₂ (blockAddr 0) := by
  obtain ⟨res, k₁, hload, hres, htask, hfiles⟩ := codeSegment_load
  obtain ⟨⟨dir, table, K, hroot⟩, hcurrent⟩ := rooted_load emptyKmem_linked hfiles hload hres htask
  obtain ⟨k₂, hterm⟩ := hroot.terminate_returns (by
    rw [hcurrent]
    exact (blockAddr_ne_zero (by omega)).symm)
  obtain ⟨p, hp, hproc, hpin⟩ := hroot.terminate hterm
  obtain rfl : 0 = p := blockAddr_inj (by omega) (by omega) hproc
  have hfirst : 0 ∈ allocationBlocks k₁.kmem (blockAddr 0) := ⟨0, le_rfl, rfl, by omega, by omega⟩
  exact ⟨res, k₁, k₂, hres, hload, hterm, hfirst, hpin.not_free, fun hback =>
    hpin.not_free (hback.freed _ (.inl (.inl rfl)) 0 hfirst)⟩

end Witness

end AlphaOS.Processes
