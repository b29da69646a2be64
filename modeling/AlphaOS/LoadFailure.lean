import AlphaOS.ElfResult
import AlphaOS.TaskFailure

/-! What `process_load` leaves behind when it reports an error. -/
namespace AlphaOS.Processes
open BlockHeap CString Elf Kheap Paging Tasks WordMemory

/-- The blocks of an allocation of `size` bytes, as far as they lie in the pool. -/
def runBlocks (ptr size : Word) : Set ℕ :=
  {b | ∃ a, ptr = blockAddr a ∧ a ≤ b ∧ b < 25600 ∧ b < a + (heapBlocksFor size).toNat}

/-- The blocks of the process structure. -/
def processBlocks (k : Kernel) : Set ℕ := runBlocks (processStep k).1 9364

/-- The blocks of the program data: the `elf_file` and, when the file is opened, its image. -/
def dataBlocks (files : FileCalls) (k : Kernel) : Set ℕ :=
  runBlocks (fileStep (processStep k).2).1 132 ∪
    {b | 0 < (openStep files (processStep k).2).1 ∧ ¬ (statStep files (processStep k).2).1 < 0 ∧
      b ∈ imageBlocks files (processStep k).2}

/-- The blocks that are taken when `task_new` returns but were free before. -/
def taskBlocks (files : FileCalls) (k : Kernel) (slot : Fin maxProcesses) : Set ℕ :=
  {b | b < 25600 ∧ (stackStep files k).1 ≠ 0 ∧ IsFree (stackStep files k).2.entries b ∧
    ¬ IsFree (taskNew (loadedKernel files k slot) (processStep k).1).2.kmem.entries b}

/-- All blocks a load into the slot allocates for the process. -/
def loadBlocks (files : FileCalls) (k : Kernel) (slot : Fin maxProcesses) : Set ℕ :=
  processBlocks k ∪ dataBlocks files k ∪ runBlocks (stackStep files k).1 userProgramStackSize ∪
    taskBlocks files k slot

/-- The load is undone: the table of processes, the current process and the scheduler's list are
as before, and what was allocated for the process is free. -/
structure Unwound (files : FileCalls) (k k' : Kernel) : Prop where
  processes : k'.processes = k.processes
  currentProcess : k'.currentProcess = k.currentProcess
  taskHead : k'.taskHead = k.taskHead
  taskTail : k'.taskTail = k.taskTail
  currentTask : k'.currentTask = k.currentTask
  tasks : ∀ live, TaskListOk k live → TaskListOk k' live
  blocks : ∀ slot, processGetFreeSlot k = some slot → (processStep k).1 ≠ 0 →
    ∀ b ∈ loadBlocks files k slot, IsFree k'.kmem.entries b

variable {files : FileCalls} {k k' : Kernel} {slot : Fin maxProcesses} {res : ℤ} {process : Word}
  {b c n : ℕ}

/-- The blocks of an allocation are taken. -/
lemma runBlocks_taken {s : Kmem} {size : Word} (hb : b ∈ runBlocks (kzalloc s size).1 size) :
    b < 25600 ∧ ¬ IsFree (kzalloc s size).2.entries b := by
  obtain ⟨a, haddr, hle, hlt, hend⟩ := hb
  refine ⟨hlt, ?_⟩
  rcases kzalloc_shape s size with heq | ⟨d, hd, -, heq⟩
  · rw [heq] at haddr
    exact absurd haddr.symm (blockAddr_ne_zero (by omega))
  · rw [heq] at haddr ⊢
    obtain rfl := blockAddr_inj (by omega) (by omega) haddr
    change ¬ IsFree (overwrite s.entries d _ _) b
    rw [IsFree, overwrite_natCast, if_pos ⟨hle, hend⟩, blockEntry_type]
    decide

/-- A block that was taken before is not among them. -/
lemma kfree_apart {s : Kmem} (hb : b < 2 ^ 19) (hpos : 0 < n)
    (hc : c < b ∨ b + n ≤ c ∧ NoNext s.entries (b + n - 1 : ℕ)) :
    (kfree s (blockAddr b)).entries c = s.entries c := by
  obtain ⟨m, hchain, heq⟩ := kfree_run s (blockAddr b)
  rw [heapAddressToBlock_eq s hb] at hchain heq
  rw [heq, if_neg]
  rintro ⟨hstart, hend⟩
  rcases hc with hlow | ⟨hhigh, hstop⟩
  · omega
  · exact hchain (b + n - 1 : ℕ) (by omega) (by omega) hstop

variable (hspares : files.Spares (processBlocks k) (processStep k).2)
include hspares

/-- The load of the data and of the stack leaves the process structure alone. -/
lemma processBlocks_loaded (hb : b ∈ processBlocks k) :
    b < 25600 ∧ ¬ IsFree (dataStep files k).2.2.entries b ∧
    ¬ IsFree (stackStep files k).2.entries b := by
  have hK : ∀ b ∈ processBlocks k, b < 25600 ∧ ¬ IsFree (processStep k).2.entries b :=
    fun _ hb => runBlocks_taken hb
  have hin : b ∈ processBlocks k ∪ fileBlock (processStep k).2 := .inl hb
  have hlt := (hK b hb).1
  have hdata : ¬ IsFree (dataStep files k).2.2.entries b := hspares.elfLoad_taken hK hin
  refine ⟨hlt, hdata, ?_⟩
  rw [IsFree, stackStep, kzalloc_taken _ _ hlt hdata]
  exact hdata

/-- So does the release of the stack when everything taken was preserved. -/
lemma processBlocks_released {s : Kmem} (hkeep : Preserves (stackStep files k).2 s)
    (hstack : (stackStep files k).1 ≠ 0) (hb : b ∈ processBlocks k) :
    ¬ IsFree (kfree s (stackStep files k).1).entries b := by
  obtain ⟨hlt, hdata, hnot⟩ := processBlocks_loaded hspares hb
  obtain ⟨d, hd, hfree, heq⟩ := stackStep_block hstack
  have haddr : (stackStep files k).1 = blockAddr d := by rw [heq]
  have hentry : ∀ j : ℕ, d ≤ j → j < d + 4 →
      (stackStep files k).2.entries j = blockEntry 4 (j - d) := by
    intro j h1 h2
    rw [heq]
    exact (overwrite_natCast _ d 4 _ j).trans (if_pos ⟨h1, h2⟩)
  have hapart : ¬ (d ≤ b ∧ b < d + 4) := fun h => hdata (hfree b h.1 h.2 hlt)
  have hstop : d + 4 ≤ b → NoNext s.entries (d + 4 - 1 : ℕ) := by
    intro hle
    have hlast := hentry (d + 4 - 1) (by omega) (by omega)
    have hkept := hkeep.taken (d + 4 - 1) (by omega) (by
      rw [IsFree, hlast, blockEntry_type]
      decide)
    rw [NoNext, hkept, hlast, show d + 4 - 1 - d = 3 by omega]
    decide
  have hsame : (kfree s (blockAddr d)).entries b = s.entries b := by
    refine kfree_apart (n := 4) (by omega) (by omega) ?_
    rcases Nat.lt_or_ge b d with hbelow | hge
    · exact .inl hbelow
    · exact .inr ⟨by omega, hstop (by omega)⟩
  rw [haddr, IsFree, hsame, hkeep.taken b hlt hnot]
  exact hnot

omit hspares

/-- The error exit frees the stack. -/
lemma processLoadFailed_stack {stack : Word} (hstack : (k.procs process).stack = stack)
    (hne : stack ≠ 0) :
    processLoadFailed k process res = (res, 0, k.withKmem (kfree k.kmem stack)) := by
  subst hstack
  rw [processLoadFailed, if_pos hne]

/-- A load that reports an error: before the process structure is allocated nothing changes,
after that the stack is freed, if there is one. -/
lemma processLoad_failed (hlow : Low (dataStep files k).2.2.entries)
    (hload : processLoad files k = some (res, process, k')) (hres : res < 0) :
    ((processGetFreeSlot k = none ∨ (processStep k).1 = 0) ∧ k' = k) ∨
    (∃ slot, processGetFreeSlot k = some slot) ∧ (processStep k).1 ≠ 0 ∧
      (k'.kmem = (stackStep files k).2 ∨ (stackStep files k).1 ≠ 0 ∧
        ∃ s, Preserves (stackStep files k).2 s ∧ k'.kmem = kfree s (stackStep files k).1) := by
  cases hslot : processGetFreeSlot k with
  | none =>
    rw [processLoad_none hslot] at hload
    simp only [Option.some.injEq, Prod.mk.injEq] at hload
    exact .inl ⟨.inl rfl, hload.2.2.symm⟩
  | some slot =>
    rw [processLoad_some hslot, processLoadForSlot_eq (processGetFreeSlot_free hslot)] at hload
    by_cases hp : (processStep k).1 = 0
    · rw [if_pos hp] at hload
      simp only [Option.some.injEq, Prod.mk.injEq] at hload
      have hsame : (processStep k).2 = k.kmem := by
        rcases kzalloc_shape k.kmem 9364 with heq | ⟨d, hd, -, heq⟩
        · exact congrArg Prod.snd heq
        · have haddr : (processStep k).1 = blockAddr d := congrArg Prod.fst heq
          rw [hp] at haddr
          exact absurd haddr.symm (blockAddr_ne_zero (by omega))
      rw [hsame] at hload
      exact .inl ⟨.inr hp, hload.2.2.symm⟩
    refine .inr ⟨⟨slot, rfl⟩, hp, ?_⟩
    rw [if_neg hp] at hload
    by_cases hs : (stackStep files k).1 = 0
    · rw [if_pos hs] at hload
      simp only [Option.some.injEq, Prod.mk.injEq] at hload
      rw [← hload.2.2]
      exact .inl rfl
    rw [if_neg hs, processStart_eq] at hload
    have hmem : (loadedKernel files k slot).kmem = (stackStep files k).2 := rfl
    have hlow' : Low (loadedKernel files k slot).kmem.entries := hlow.kzalloc _
    obtain ⟨hkeep, hprocs⟩ := taskNew_preserves hlow' (processStep k).1
    have hstack : ((startedKernel (loadedKernel files k slot) (processStep k).1).procs
        (processStep k).1).stack = (stackStep files k).1 := by
      rw [startedKernel_procs, hprocs, loadedKernel_procs]
    rw [hmem, ← startedKernel_kmem] at hkeep
    generalize startedKernel (loadedKernel files k slot) (processStep k).1 = started
      at hload hstack hkeep
    obtain ⟨r, -, heq⟩ := Option.map_eq_some_iff.1 hload
    by_cases hneg : r.1 < 0
    · rw [if_pos hneg, @processLoadFailed_stack (started.withKmem (started.kmem.withMem r.2)) _ _ _
        hstack hs] at heq
      simp only [Prod.mk.injEq] at heq
      rw [← heq.2.2]
      exact .inr ⟨hs, _, hkeep.withMem r.2, rfl⟩
    · rw [if_neg hneg] at heq
      simp only [Prod.mk.injEq] at heq
      rw [heq.1] at hneg
      exact absurd hres hneg

/-- With an error `process_load_switch` does what `process_load` does. -/
lemma processLoadSwitch_failed (hload : processLoadSwitch files k = some (res, process, k'))
    (hres : res < 0) : processLoad files k = some (res, process, k') := by
  rw [processLoadSwitch] at hload
  obtain ⟨⟨res', process', k₁⟩, hr, heq⟩ := Option.map_eq_some_iff.1 hload
  simp only [Prod.mk.injEq] at heq
  obtain ⟨rfl, rfl, rfl⟩ := heq
  rw [hr, if_neg (by omega)]

/-- A load that fails before the process structure is allocated changes nothing. -/
lemma processLoad_early (hlow : Low (dataStep files k).2.2.entries)
    (hload : processLoad files k = some (res, process, k')) (hres : res < 0)
    (hearly : processGetFreeSlot k = none ∨ (processStep k).1 = 0) : k' = k := by
  rcases processLoad_failed hlow hload hres with ⟨-, heq⟩ | ⟨⟨slot, hslot⟩, hne, -⟩
  · exact heq
  · rcases hearly with hnone | hnull
    · exact absurd (hslot.symm.trans hnone) (Option.some_ne_none slot)
    · exact absurd hnull hne

/-- A load that fails later leaves a block of the process structure behind. -/
lemma processLoad_leaks (hspares : files.Spares (processBlocks k) (processStep k).2)
    (hlow : Low (dataStep files k).2.2.entries)
    (hload : processLoad files k = some (res, process, k')) (hres : res < 0)
    (hlate : ¬ (processGetFreeSlot k = none ∨ (processStep k).1 = 0)) :
    ∃ b ∈ processBlocks k, b < 25600 ∧ IsFree k.kmem.entries b ∧ ¬ IsFree k'.kmem.entries b := by
  rcases processLoad_failed hlow hload hres with ⟨hearly, -⟩ | ⟨-, hne, hkmem⟩
  · exact absurd hearly hlate
  have hblocks : (heapBlocksFor 9364).toNat = 3 := by decide
  obtain heq | ⟨b, hb, hfree, heq⟩ := kzalloc_shape k.kmem 9364
  · exact absurd (congrArg Prod.fst heq) hne
  have hmem : b ∈ processBlocks k := ⟨b, congrArg Prod.fst heq, le_rfl, hb, by omega⟩
  refine ⟨b, hmem, hb, hfree b le_rfl (by omega) hb, ?_⟩
  rcases hkmem with hkmem | ⟨hstack, s, hkeep, hkmem⟩
  · rw [hkmem]
    exact (processBlocks_loaded hspares hmem).2.2
  · rw [hkmem]
    exact processBlocks_released hspares hkeep hstack hmem

/-- A failed load is undone exactly when it failed before the process structure was allocated. -/
theorem unwound_iff (hspares : files.Spares (processBlocks k) (processStep k).2)
    (hlow : Low (dataStep files k).2.2.entries)
    (hload : processLoad files k = some (res, process, k') ∨
      processLoadSwitch files k = some (res, process, k')) (hres : res < 0) :
    Unwound files k k' ↔ processGetFreeSlot k = none ∨ (processStep k).1 = 0 := by
  replace hload : processLoad files k = some (res, process, k') := by
    rcases hload with hload | hload
    · exact hload
    · exact processLoadSwitch_failed hload hres
  by_cases hearly : processGetFreeSlot k = none ∨ (processStep k).1 = 0
  · rw [processLoad_early hlow hload hres hearly]
    refine iff_of_true ⟨rfl, rfl, rfl, rfl, rfl, fun _ h => h, fun slot hslot hne => ?_⟩ hearly
    rcases hearly with hnone | hnull
    · exact absurd (hslot.symm.trans hnone) (Option.some_ne_none slot)
    · exact absurd hnull hne
  · refine iff_of_false (fun h => ?_) hearly
    obtain ⟨b, hb, -, -, htaken⟩ := processLoad_leaks hspares hlow hload hres hearly
    obtain ⟨hsome, hne⟩ := not_or.1 hearly
    obtain ⟨slot, hslot⟩ := Option.ne_none_iff_exists'.1 hsome
    exact htaken (h.blocks slot hslot hne b (.inl (.inl (.inl hb))))

/-! A pool with room for the process structure and nothing else. -/

lemma frontier_take {s : Kmem} (h : Frontier s c) (n : ℕ) : Frontier (s.take n c) (c + n) := by
  have hentry : ∀ j : ℕ, (s.take n c).entries j =
      if c ≤ j ∧ j < c + n then blockEntry n (j - c) else s.entries j :=
    fun j => overwrite_natCast _ c n _ j
  constructor
  · intro j hj
    rw [IsFree, hentry]
    split_ifs with hin
    · rw [blockEntry_type]
      decide
    · exact h.taken j (by omega)
  · intro j hj hlt
    rw [IsFree, hentry, if_neg (by omega)]
    exact h.free j (by omega) hlt

lemma take_frontier (n : ℕ) : Frontier (emptyKmem.take n 0) n := by
  have h := frontier_take emptyKmem_frontier n
  rwa [Nat.zero_add] at h

/-- A request that meets a full pool. -/
lemma kzalloc_full {s : Kmem} (hfull : Frontier s c) (hc : 25600 ≤ c) (size : Word) :
    kzalloc s size = (0, s) ∨ (heapBlocksFor size).toNat = 0 := by
  rcases kzalloc_shape s size with heq | ⟨b, hb, hfree, -⟩
  · exact .inl heq
  · refine .inr (Nat.eq_zero_of_not_pos fun hpos => ?_)
    exact hfull.taken b (by omega) (hfree b le_rfl (by omega) hb)

lemma elfLoad_missing (s : Kmem) : elfLoad missing s = (0, 0, (fileStep s).2) := rfl

/-- The load allocates the process structure and fails for lack of memory. -/
lemma processLoad_fullPool (h : Frontier k.kmem c) (hc : c + 3 = 25600)
    (hslot : processGetFreeSlot k = some slot) :
    (processStep k).1 = blockAddr c ∧ Frontier (processStep k).2 (c + 3) ∧
    (dataStep missing k).2.2 = (processStep k).2 ∧
    ∃ k', processLoad missing k = some (-enomem, 0, k') ∧ k'.kmem = (processStep k).2 := by
  obtain ⟨hprocess, hfull⟩ := processStep_frontier h (by omega)
  have hfile : fileStep (processStep k).2 = (0, (processStep k).2) :=
    (kzalloc_full hfull (by omega) 132).resolve_right (by decide)
  have hdata : (dataStep missing k).2.2 = (processStep k).2 := by
    rw [dataStep, elfLoad_missing, hfile]
  have hstack : stackStep missing k = (0, (processStep k).2) := by
    rw [stackStep, hdata]
    exact (kzalloc_full hfull (by omega) userProgramStackSize).resolve_right (by decide)
  have hload : processLoad missing k = some (-enomem, 0,
      (k.withKmem (processStep k).2).setProcess (processStep k).1 (fileProcess missing k)) := by
    rw [processLoad_some hslot, processLoadForSlot_eq (processGetFreeSlot_free hslot), hprocess, hstack,
      if_neg (blockAddr_ne_zero (by omega)), if_pos rfl]
  exact ⟨hprocess, hfull, hdata, _, hload, rfl⟩

lemma low_take {s : Kmem} (h : Low s.entries) (n b : ℕ) : Low (s.take n b).entries := by
  obtain ⟨j, hj, hneg, hstop⟩ := h
  exact ⟨j, hj, hneg, noNext_overwrite hstop fun hin => absurd hin (by omega)⟩

lemma low_emptyKmem : Low emptyKmem.entries :=
  ⟨-1, by omega, by omega, by rw [NoNext, emptyKmem, kheapInit_clear]; rfl⟩

lemma low_processStep (h : Low k.kmem.entries) : Low (processStep k).2.entries := h.kzalloc 9364

lemma spares_missing (K : Set ℕ) (s : Kmem) : missing.Spares K s := by
  have hread : (readStep missing s).2 = storeStep missing s := by
    rw [readStep, FileCalls.fread]
    split_ifs <;> rfl
  refine ⟨Spared.refl _ _, Spared.refl _ _, ?_, fun b _ => ?_, Spared.refl _ _, Spared.refl _ _⟩
  · rw [hread]
    exact Spared.refl _ _
  · rw [hread]
    exact fun h => h

theorem unwound_iff_threeBlocks :
    let k := zeroKernel (emptyKmem.take 25597 0)
    ∃ k', processLoad missing k = some (-enomem, 0, k') ∧
      (Unwound missing k k' ↔ processGetFreeSlot k = none ∨ (processStep k).1 = 0) := by
  obtain ⟨-, -, hdata, k', hload, -⟩ := @processLoad_fullPool (zeroKernel (emptyKmem.take 25597 0)) 0
    25597 (take_frontier 25597) (by omega) rfl
  refine ⟨k', hload, unwound_iff (spares_missing _ _) ?_ (.inl hload) (by decide)⟩
  rw [hdata]
  exact low_processStep (low_take low_emptyKmem 25597 0)

/-- When there is memory for the process structure only, the load reports the failure and the
structure stays allocated. -/
theorem unwound_threeBlocks :
    let k := zeroKernel (emptyKmem.take 25597 0)
    ∃ k', processLoad missing k = some (-enomem, 0, k') ∧ ¬ Unwound missing k k' := by
  obtain ⟨hprocess, hfull, -, k', hload, hkmem⟩ :=
    @processLoad_fullPool (zeroKernel (emptyKmem.take 25597 0)) 0 25597 (take_frontier 25597)
      (by omega) rfl
  refine ⟨k', hload, fun h => ?_⟩
  have hne : (processStep (zeroKernel (emptyKmem.take 25597 0))).1 ≠ 0 := by
    rw [hprocess]
    exact blockAddr_ne_zero (by omega)
  have hfree := h.blocks 0 rfl hne 25597 (.inl (.inl (.inl ⟨25597, hprocess, le_rfl, by omega, by
    rw [show (heapBlocksFor 9364).toNat = 3 by decide]
    omega⟩)))
  rw [hkmem] at hfree
  exact hfull.taken 25597 (by omega) hfree

end AlphaOS.Processes
