import AlphaOS.Keyboard
import AlphaOS.RegistryLoad
import AlphaOS.StarvedLoad

/-! Runs of loads and terminations: the table of processes and the current process. -/
namespace AlphaOS.Processes
open BlockHeap Elf Kheap Keyboard Paging Tasks WordMemory

/-- A load of any file, of which `C` holds, or the termination of a registered process. The file
layer keeps the blocks of the processes. -/
inductive RegistryStep (C : FileCalls → Kernel → Prop) (k : Kernel) : Kernel → Prop
  | load {files : FileCalls} {res : ℤ} {process : Word} {k' : Kernel}
      (hfiles : files.Respects (heldBlocks k ∪ processBlock k) (processStep k).2) (hC : C files k)
      (h : processLoad files k = some (res, process, k')) : RegistryStep C k k'
  | loadSwitch {files : FileCalls} {res : ℤ} {process : Word} {k' : Kernel}
      (hfiles : files.Respects (heldBlocks k ∪ processBlock k) (processStep k).2) (hC : C files k)
      (h : processLoadSwitch files k = some (res, process, k')) : RegistryStep C k k'
  | terminate {i : Fin maxProcesses} {k' : Kernel} (hi : k.processes i ≠ 0)
      (h : processTerminate k (k.processes i) = some k') : RegistryStep C k k'

/-- No process was loaded yet. -/
structure Boot (k : Kernel) : Prop where
  linked : Linked k.kmem.entries
  processes : ∀ i, k.processes i = 0
  current : k.currentProcess = 0

/-- The table holds every process once, at its id, and the current one. -/
structure RegistryLaw (k : Kernel) : Prop where
  id : ∀ i, k.processes i ≠ 0 → (k.procs (k.processes i)).id.toNat = i
  once : ∀ i j, k.processes i ≠ 0 → k.processes i = k.processes j → i = j
  current : k.currentProcess ≠ 0 →
    ∃ i, k.processes i = k.currentProcess ∧ (k.procs k.currentProcess).id.toNat = i
  push : ∀ c process, (∀ i, k.processes i ≠ process) →
    (keyboardPush k c).procs process = k.procs process

/-- What the next call makes of the table. -/
structure TableLaw (C : FileCalls → Kernel → Prop) (k : Kernel) : Prop where
  load : ∀ files res process k', files.Respects (heldBlocks k ∪ processBlock k) (processStep k).2 →
    C files k → (processLoad files k = some (res, process, k') ∨
      processLoadSwitch files k = some (res, process, k')) →
    (res < 0 ∧ k'.processes = k.processes) ∨ ∃ slot, ¬ res < 0 ∧ process ≠ 0 ∧
      (∀ i < slot, k.processes i ≠ 0) ∧ k.processes slot = 0 ∧
      k'.processes = Function.update k.processes slot process
  terminate : ∀ i k', k.processes i ≠ 0 → processTerminate k (k.processes i) = some k' →
    k'.processes = Function.update k.processes i 0

variable {k k₀ k' : Kernel} {files : FileCalls} {res : ℤ} {process : Word}

lemma Boot.registry (h : Boot k) : Registry k := by
  have hnone : ∀ i, k.processes i ≠ 0 → False := fun i hi => hi (h.processes i)
  exact ⟨h.linked, fun i hi => (hnone i hi).elim, fun i hi => (hnone i hi).elim,
    fun i _ _ hi => (hnone i hi).elim, fun hcur => absurd h.current hcur⟩

/-- `keyboard_push` writes to the current process. -/
lemma keyboardPush_procs (c : Byte) (hne : process ≠ k.currentProcess) :
    (keyboardPush k c).procs process = k.procs process := by
  unfold keyboardPush
  dsimp only
  split_ifs
  · rfl
  · rfl
  · simp only [setKeyboard, Kernel.setProcess_procs]
    rw [Function.update_of_ne hne, Function.update_of_ne hne]

lemma Registry.law (h : Registry k) : RegistryLaw k := by
  refine ⟨h.id, fun i j hi hij => h.injective hi hij, fun hcur => ?_, fun c process hnone => ?_⟩
  · obtain ⟨i, hi⟩ := h.current hcur
    exact ⟨i, hi, hi ▸ h.id i (hi ▸ hcur)⟩
  · by_cases hcur : k.currentProcess = 0
    · rw [keyboardPush, if_pos hcur]
    · obtain ⟨i, hi⟩ := h.current hcur
      exact keyboardPush_procs c fun heq => hnone i (hi.trans heq.symm)

lemma Registry.loadSwitch (hk : Registry k)
    (hfiles : files.Respects (heldBlocks k ∪ processBlock k) (processStep k).2)
    (hmeets : LoadMeets files k) (hload : processLoadSwitch files k = some (res, process, k')) :
    Registry k' ∧ LoadOutcome k res process k' ∧ (k.currentProcess ≠ 0 ∨ res = 0 →
      k'.currentProcess ≠ 0) := by
  rw [processLoadSwitch] at hload
  obtain ⟨⟨res', process', k₁⟩, hr, heq⟩ := Option.map_eq_some_iff.1 hload
  obtain ⟨hreg, hcurrent, houtcome⟩ := hk.load hfiles hmeets hr
  simp only [Prod.mk.injEq] at heq
  obtain ⟨rfl, rfl, heq⟩ := heq
  by_cases hres : res' = 0
  · rw [if_pos hres] at heq
    subst heq
    cases houtcome with
    | failed hneg _ => exact absurd hneg (by omega)
    | registered slot hpos hslot hne hprocesses =>
      refine ⟨⟨hreg.linked, fun i hi => ?_, hreg.id, hreg.apart, fun _ => ⟨slot, ?_⟩⟩,
        .registered slot hpos hslot hne hprocesses, fun _ => hne⟩
      · have hlive := hreg.live i hi
        exact ⟨hlive.elf, hlive.empty, hlive.block, hlive.chunk_ne, hlive.directory_ne⟩
      · exact (congrFun hprocesses slot).trans (Function.update_self slot _ _)
  · rw [if_neg hres] at heq
    subst heq
    refine ⟨hreg, houtcome, fun hcur => ?_⟩
    rw [hcurrent]
    exact hcur.resolve_right hres

/-- One step keeps the invariant, and the current process is never lost. -/
theorem Registry.step (hk : Registry k) (step : RegistryStep LoadMeets k k') :
    Registry k' ∧ (k.currentProcess ≠ 0 → k'.currentProcess ≠ 0) := by
  cases step with
  | load hfiles hC h =>
    obtain ⟨hreg, hcurrent, -⟩ := hk.load hfiles hC h
    exact ⟨hreg, fun hcur => by rwa [hcurrent]⟩
  | loadSwitch hfiles hC h =>
    obtain ⟨hreg, -, hcurrent⟩ := hk.loadSwitch hfiles hC h
    exact ⟨hreg, fun hcur => hcurrent (.inl hcur)⟩
  | terminate hi h =>
    obtain ⟨-, hreg, hcurrent⟩ := hk.terminate hi h
    exact ⟨hreg, hcurrent⟩

theorem Registry.run (hk : Registry k₀)
    (run : Relation.ReflTransGen (RegistryStep LoadMeets) k₀ k) :
    Registry k ∧ (k₀.currentProcess ≠ 0 → k.currentProcess ≠ 0) := by
  induction run with
  | refl => exact ⟨hk, fun h => h⟩
  | tail _ step ih =>
    obtain ⟨hreg, hcurrent⟩ := ih.1.step step
    exact ⟨hreg, fun h => hcurrent (ih.2 h)⟩

lemma LoadOutcome.table (h : LoadOutcome k res process k') :
    (res < 0 ∧ k'.processes = k.processes) ∨ ∃ slot, ¬ res < 0 ∧ process ≠ 0 ∧
      (∀ i < slot, k.processes i ≠ 0) ∧ k.processes slot = 0 ∧
      k'.processes = Function.update k.processes slot process := by
  cases h with
  | failed hres hsame => exact .inl ⟨hres, hsame⟩
  | registered slot hres hslot hne hsame =>
    have hfirst : ∀ i < slot, k.processes i ≠ 0 := fun i hi => by
      unfold processGetFreeSlot at hslot
      simpa using (Fin.find?_eq_some_iff.1 hslot).2 i hi
    exact .inr ⟨slot, hres, hne, hfirst, processGetFreeSlot_free hslot, hsame⟩

/-- In every state a run of loads and terminations reaches in which every `task_new` gets its
memory, the table holds each process once, at its id; a load takes the lowest free slot, a
termination clears the slot of its process, and once a load has switched to its process there is
always a current process, a registered one. -/
theorem registryRun_law (h₀ : Boot k₀)
    (run : Relation.ReflTransGen (RegistryStep LoadMeets) k₀ k) :
    RegistryLaw k ∧ TableLaw LoadMeets k ∧
    ∀ files process k₁ k₂, Relation.ReflTransGen (RegistryStep LoadMeets) k₀ k₁ →
      files.Respects (heldBlocks k₁ ∪ processBlock k₁) (processStep k₁).2 → LoadMeets files k₁ →
      processLoadSwitch files k₁ = some (0, process, k₂) →
      Relation.ReflTransGen (RegistryStep LoadMeets) k₂ k → k.currentProcess ≠ 0 := by
  have hk := (h₀.registry.run run).1
  refine ⟨hk.law, ⟨?_, fun i k' hi h => (hk.terminate hi h).1⟩, ?_⟩
  · rintro files res process k' hfiles hmeets (hload | hload)
    · exact (hk.load hfiles hmeets hload).2.2.table
    · exact (hk.loadSwitch hfiles hmeets hload).2.1.table
  · intro files process k₁ k₂ hbefore hfiles hmeets hload hafter
    obtain ⟨hreg, -, hcurrent⟩ := ((h₀.registry.run hbefore).1).loadSwitch hfiles hmeets hload
    exact (hreg.run hafter).2 (hcurrent (.inr rfl))

lemma boot_zeroKernel : Boot (zeroKernel emptyKmem) := ⟨emptyKmem_linked, fun _ => rfl, rfl⟩

/-- The first load, of a missing file. -/
lemma firstLoad_step : (processStep (zeroKernel emptyKmem)).1 = blockAddr 0 ∧
    Frontier (processStep (zeroKernel emptyKmem)).2 3 := processStep_frontier emptyKmem_frontier (by omega)

lemma firstLoad_meets : LoadMeets missing (zeroKernel emptyKmem) := by
  obtain ⟨hprocess, hnext⟩ := firstLoad_step
  refine ⟨.inr (by decide), fun slot hslot _ _ => ?_⟩
  exact (processLoad_missing hslot (by omega) hprocess hnext (by omega) rfl rfl).1

lemma processGetFreeSlot_one (h0 : k.processes 0 ≠ 0) (h1 : k.processes 1 = 0) :
    processGetFreeSlot k = some 1 := by
  refine Fin.find?_eq_some_iff.2 ⟨by simpa using h1, fun j hj => ?_⟩
  have hlt : (j : ℕ) < 1 := hj
  obtain rfl : j = 0 := Fin.ext (by
    change (j : ℕ) = 0
    omega)
  simpa using h0

lemma processLoadSwitch_table {k₁ : Kernel} (hload : processLoad files k = some (0, process, k₁)) :
    ∃ k', processLoadSwitch files k = some (0, process, k') ∧ k'.processes = k₁.processes ∧
      k'.kmem = k₁.kmem :=
  ⟨{ k₁ with currentProcess := process }, by rw [processLoadSwitch, hload, Option.map_some, if_pos rfl],
    rfl, rfl⟩

/-- The second load of the missing file. -/
lemma secondLoad_missing (h0 : k.processes 0 ≠ 0) (h1 : k.processes 1 = 0) (hfrontier : Frontier k.kmem 1035)
    (hhigh : SameOff highPages (zeroKernel emptyKmem).kmem.mem k.kmem.mem) : LoadMeets missing k ∧
    ∃ k', processLoad missing k = some (0, blockAddr 1035, k') ∧
      k'.processes = Function.update k.processes 1 (blockAddr 1035) := by
  have hslot := processGetFreeSlot_one h0 h1
  obtain ⟨hprocess, hnext⟩ := processStep_frontier hfrontier (by omega)
  obtain ⟨htask, k', hload, hprocesses, -⟩ := @processLoad_missing (1035 + 3) k 1 1035 hslot (by omega)
    hprocess hnext (by omega) (low_word hhigh rfl (by decide)) (low_phnum hhigh)
  refine ⟨⟨.inr ?_, fun slot hsame _ _ => ?_⟩, k', hload, hprocesses⟩
  · change (0 : Word).toNat < 2 ^ 31
    decide
  · rw [hslot] at hsame
    cases hsame
    exact htask

/-- Two loads, and the end of the second process. -/
theorem registryRun_law_missing : ∃ k₁ k₂ k₃,
    processLoadSwitch missing (zeroKernel emptyKmem) = some (0, blockAddr 0, k₁) ∧
    processLoadSwitch missing k₁ = some (0, blockAddr 1035, k₂) ∧
    processTerminate k₂ (blockAddr 1035) = some k₃ ∧
    RegistryLaw k₃ ∧ TableLaw LoadMeets k₃ ∧ k₃.currentProcess ≠ 0 := by
  have hne : ∀ b < 25600, blockAddr b ≠ 0 := fun b hb => blockAddr_ne_zero (by omega)
  obtain ⟨hprocess, hnext⟩ := firstLoad_step
  obtain ⟨-, k, hload, hprocesses, -, hfrontier, hhigh, -⟩ :=
    @processLoad_missing 3 (zeroKernel emptyKmem) 0 0 rfl (by omega) hprocess hnext (by omega) rfl rfl
  obtain ⟨k₁, hfirst, htable₁, hkmem⟩ := processLoadSwitch_table hload
  rw [← hkmem] at hfrontier hhigh
  have hzero : k₁.processes 0 = blockAddr 0 := by rw [htable₁, hprocesses, Function.update_self]
  have hone : k₁.processes 1 = 0 := by
    rw [htable₁, hprocesses]
    rfl
  obtain ⟨hmeets, k', hload', hprocesses'⟩ :=
    secondLoad_missing (by rw [hzero]; exact hne 0 (by omega)) hone hfrontier hhigh
  obtain ⟨k₂, hsecond, htable₂, -⟩ := processLoadSwitch_table hload'
  have hstep₁ : RegistryStep LoadMeets (zeroKernel emptyKmem) k₁ :=
    .loadSwitch (respects_missing _ _) firstLoad_meets hfirst
  have hstep₂ : RegistryStep LoadMeets k₁ k₂ := .loadSwitch (respects_missing _ _) hmeets hsecond
  have hlast : k₂.processes 1 = blockAddr 1035 := by rw [htable₂, hprocesses', Function.update_self]
  have hother : k₂.processes 0 = blockAddr 0 := by
    rw [htable₂, hprocesses', ← hzero]
    rfl
  -- the end of the current process
  have hrun := (Relation.ReflTransGen.single hstep₁).tail hstep₂
  have hlive : k₂.processes 1 ≠ 0 := by
    rw [hlast]
    exact hne 1035 (by omega)
  obtain ⟨k₃, hterm⟩ := @Registry.terminate_returns k₂ 1 0 (boot_zeroKernel.registry.run hrun).1 hlive
    (by decide) (by rw [hother]; exact hne 0 (by omega))
  have hstep₃ : RegistryStep LoadMeets k₂ k₃ := .terminate hlive hterm
  rw [hlast] at hterm
  obtain ⟨hlaw, htable, hcurrent⟩ := registryRun_law boot_zeroKernel (hrun.tail hstep₃)
  exact ⟨k₁, k₂, k₃, hfirst, hsecond, hterm, hlaw, htable, hcurrent missing _ _ _ .refl
    (respects_missing _ _) firstLoad_meets hfirst ((Relation.ReflTransGen.single hstep₂).tail hstep₃)⟩

/-! A second load that finds no memory for its task: its termination frees the structure of the
first process, and the next load gets it. -/

/-- A segment of the process structure at the start of the pool, mapped as page 1. -/
def structSegment : Phdr where
  type := 1
  offset := 0xFFBF1000
  vaddr := 0x1000
  paddr := 0
  filesz := 0
  memsz := 256
  flags := 0

lemma structSegment_maps : MapsBlock structSegment (blockAddr 1039) 0 1 := by
  refine ⟨by omega, by omega, ?_, ?_, ?_⟩ <;> decide

/-- With so many bytes after the header there is room for the stack, but not for the task. -/
def starvingFile : List Byte := oneSegment structSegment ++ List.replicate 100585388 0

lemma starvingFile_length : starvingFile.length = 100585472 := by
  have hlen : (oneSegment structSegment).length = 84 := rfl
  rw [starvingFile, List.length_append, List.length_replicate, hlen]

lemma fileBlocks_starvingFile : fileBlocks starvingFile = 24557 := by
  have hblocks := heapBlocksFor_eq (BitVec.ofNat 32 100585472)
  rw [fileBlocks, starvingFile_length]
  rw [BitVec.toNat_ofNat] at hblocks
  omega

/-- The first process alone. -/
structure OneLoaded (k : Kernel) : Prop where
  run : Relation.ReflTransGen (RegistryStep fun _ _ => True) (zeroKernel emptyKmem) k
  registry : Registry k
  processes : k.processes = Function.update (fun _ => 0) 0 (blockAddr 0)
  currentProcess : k.currentProcess = 0
  frontier : Frontier k.kmem 1035
  chain : ∀ j : ℕ, j < 3 → k.kmem.entries j = blockEntry 3 j
  null : ∀ j < 1024, read32 k.kmem.mem (nullSlot j) = 0
  task : (k.tasks (errorPtr (-enomem))).pageDirectory = 0

lemma oneLoaded : ∃ k, OneLoaded k := by
  obtain ⟨hprocess, hnext⟩ := firstLoad_step
  obtain ⟨-, k', hload, hprocesses, hcurrent, hfrontier, hhigh, hentries, htasks⟩ :=
    @processLoad_missing 3 (zeroKernel emptyKmem) 0 0 rfl (by omega) hprocess hnext (by omega) rfl rfl
  have hchain : Allocated (processStep (zeroKernel emptyKmem)).2.kernelHeap 0 3 :=
    frontier_allocated emptyKmem_frontier (by decide) (by omega) (by omega)
  refine ⟨k', .single (.load (respects_missing _ _) trivial hload),
    (boot_zeroKernel.registry.load (respects_missing _ _) firstLoad_meets hload).1, hprocesses,
    hcurrent, hfrontier, fun j hj => ?_, fun j hj => ?_, ?_⟩
  · rw [hentries j hj, ← hchain.2.2 j hj, Nat.zero_add]
  · have hslot := nullSlot_toNat hj
    have hzero : (zeroKernel emptyKmem).kmem.mem = fun _ => 0 := rfl
    rw [low_word hhigh (by omega) (by omega), hzero, read32]
    rfl
  · rw [htasks _ (.inr (by decide))]
    rfl

lemma OneLoaded.starving (h : OneLoaded k) : Starving k starvingFile structSegment 1035 0 1 := by
  refine ⟨h.frontier, ?_, ?_, ⟨_, rfl⟩, structSegment_maps, h.task, h.null⟩
  · rw [fileBlocks_starvingFile]
  · rw [starvingFile_length]
    omega

lemma elfPhnum_null {mem : Mem} (h : read32 mem (nullSlot 11) = 0) : elfPhnum mem 0 = 0 := by
  have hlow : elfPhnum mem 0 = (read32 mem (nullSlot 11)).setWidth 16 := by
    have hslot : (0 : Word) + 44 = nullSlot 11 := rfl
    rw [elfPhnum, hslot, read16, read32]
    apply BitVec.eq_of_getLsbD_eq
    intro i hi
    simp only [BitVec.getLsbD_append, BitVec.getLsbD_setWidth]
    grind
  rw [hlow, h]
  rfl

/-- Without memory for the task the law does not hold: the first process is in two slots. -/
theorem registryRun_law_starved : Boot (zeroKernel emptyKmem) ∧
    ∃ k, Relation.ReflTransGen (RegistryStep fun _ _ => True) (zeroKernel emptyKmem) k ∧
      k.processes 0 = k.processes 1 ∧ ¬ RegistryLaw k := by
  refine ⟨boot_zeroKernel, ?_⟩
  obtain ⟨k₁, h₁⟩ := oneLoaded
  have hstarving := h₁.starving
  have hne : ∀ b < 25600, blockAddr b ≠ 0 := fun b hb => blockAddr_ne_zero (by omega)
  have h₁zero : k₁.processes 0 = blockAddr 0 := by rw [h₁.processes, Function.update_self]
  have h₁one : k₁.processes 1 = 0 := by
    rw [h₁.processes]
    rfl
  -- the second load
  obtain ⟨hprocess, hnext⟩ := processStep_frontier h₁.frontier (by omega)
  have hrespects : (serve starvingFile).Respects (heldBlocks k₁ ∪ processBlock k₁) (processStep k₁).2 := by
    refine respects_served hstarving.elfImage hnext (by rw [fileBlocks_starvingFile]; omega) fun b hb => ?_
    rcases hb with hb | ⟨hlt, heq⟩
    · have hpin := h₁.registry.held_pinned hb
      by_contra hge
      exact hpin.2.not_free (h₁.frontier.free b (by omega) hpin.1)
    · rw [hprocess] at heq
      have := blockAddr_inj (by omega) (by omega) heq
      omega
  obtain ⟨k₂, hload, h₂⟩ := hstarving.processLoad (processGetFreeSlot_one (by
    rw [h₁zero]
    exact hne 0 (by omega)) h₁one)
  have hrun₂ := h₁.run.tail (.load (C := fun _ _ => True) hrespects trivial hload)
  have h₂one : k₂.processes 1 = blockAddr 1035 := by rw [h₂.processes, Function.update_self]
  -- its termination
  obtain ⟨k₃, hterminate, hprocesses, hshows⟩ := h₂.terminate hstarving (by omega)
    h₁.registry.linked.low h₁.chain h₁.currentProcess
  rw [← h₂one] at hterminate
  have hrun₃ := hrun₂.tail (.terminate (by
    rw [h₂one]
    exact hne _ (by omega)) hterminate)
  have h₃zero : k₃.processes 0 = blockAddr 0 := by
    rw [hprocesses, h₂.processes, ← h₁zero]
    rfl
  have h₃one : k₃.processes 1 = 0 := by rw [hprocesses, Function.update_self]
  -- the third load
  have hwords : ∀ j, j < 1019 → j ≠ 1 → read32 k₃.kmem.mem (nullSlot j) = 0 := fun j hj hj1 => by
    rw [hshows.mem, h₂.words j (by omega), if_neg (by omega), if_neg hj1]
  obtain ⟨hprocess₃, hnext₃⟩ := Starved.refilled (fun b hb => by
    rw [h₂.entries]
    exact hstarving.filled.taken b hb) (by omega) hshows
  obtain ⟨-, k₄, hload₄, hprocesses₄, -⟩ := @processLoad_missing 1038 k₃ 1 0 (processGetFreeSlot_one (by
    rw [h₃zero]
    exact hne 0 (by omega)) h₃one) (by omega) hprocess₃ hnext₃ (by omega)
    (hwords 28 (by omega) (by omega)) (elfPhnum_null (hwords 11 (by omega) (by omega)))
  have hrun₄ := hrun₃.tail (.load (C := fun _ _ => True) (respects_missing _ _) trivial hload₄)
  have h₄zero : k₄.processes 0 = blockAddr 0 := by
    rw [hprocesses₄, ← h₃zero]
    rfl
  have h₄one : k₄.processes 1 = blockAddr 0 := by rw [hprocesses₄, Function.update_self]
  refine ⟨k₄, hrun₄, h₄zero.trans h₄one.symm, fun hlaw => ?_⟩
  have hsame := hlaw.once 0 1 (by
    rw [h₄zero]
    exact hne 0 (by omega)) (h₄zero.trans h₄one.symm)
  exact absurd hsame (by decide)

end AlphaOS.Processes
