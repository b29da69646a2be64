import AlphaOS.BlockOwners
import AlphaOS.RegistryLoad

/-! What `process_load` does to the scheduler: it adds at most one task, that of its own process, at the
end of the list, and leaves every block of others allocated. -/
namespace AlphaOS.Processes
open BlockHeap Elf Kheap Paging Tasks WordMemory

/-- The scheduler's variables are the same. -/
structure SameTasks (k k' : Kernel) : Prop where
  tasks : k'.tasks = k.tasks
  taskHead : k'.taskHead = k.taskHead
  taskTail : k'.taskTail = k.taskTail
  currentTask : k'.currentTask = k.currentTask

/-- An operation of one process: the tasks are the same, and of the processes only the records of this
one may have changed. -/
structure OwnOnly (p : Word) (k k' : Kernel) : Prop extends SameTasks k k' where
  currentProcess : k'.currentProcess = k.currentProcess
  others : ∀ q ≠ p, k'.procs q = k.procs q
  keyboard : (k'.procs p).keyboard = (k.procs p).keyboard
  task : (k'.procs p).task = (k.procs p).task

/-- A task of a process was put at the end of the scheduler's list. -/
def Spawned (k k' : Kernel) (task process : Word) : Prop :=
  ∃ chunk registers, SameTasks
    (taskListAppend (k.setTask task ⟨chunk, registers, process, 0, 0⟩) task) k'

/-- A load that made no task. It may have written to a process structure in a block that was free. -/
structure LoadIdle (K : Set ℕ) (k k' : Kernel) : Prop where
  pins : Pins K k.kmem k'.kmem
  tasks : SameTasks k k'
  procs : ∃ q, (q = 0 ∨ ∃ a < 25600, q = blockAddr a ∧ a ∉ K) ∧ ∀ p ≠ q, k'.procs p = k.procs p

/-- A load that made a task at block `b` for a process at block `a`, which were both free. -/
structure LoadSpawns (K : Set ℕ) (k k' : Kernel) (a b : ℕ) : Prop where
  process_lt : a < 25600
  task_lt : b < 25600
  process_not : a ∉ K
  task_not : b ∉ K
  apart : a ≠ b
  pins : Pins K k.kmem k'.kmem
  process_pinned : Pinned k'.kmem.entries a 1
  task_pinned : Pinned k'.kmem.entries b 1
  spawned : Spawned k k' (blockAddr b) (blockAddr a)
  procs : ∀ p ≠ blockAddr a, k'.procs p = k.procs p
  task_eq : (k'.procs (blockAddr a)).task = blockAddr b
  allocations : ∀ i, (k'.procs (blockAddr a)).allocations i = ⟨0, 0⟩
  keyboard : (k'.procs (blockAddr a)).keyboard = ⟨fun _ => 0, 0, 0⟩

variable {files : FileCalls} {k k' : Kernel} {K : Set ℕ} {slot : Fin maxProcesses} {res : ℤ}
  {process : Word} {a b : ℕ}

lemma SameTasks.refl (k : Kernel) : SameTasks k k := ⟨rfl, rfl, rfl, rfl⟩

lemma SameTasks.trans {k'' : Kernel} (h : SameTasks k k') (h' : SameTasks k' k'') : SameTasks k k'' :=
  ⟨h'.tasks.trans h.tasks, h'.taskHead.trans h.taskHead, h'.taskTail.trans h.taskTail,
    h'.currentTask.trans h.currentTask⟩

lemma OwnOnly.of_procs (hsame : SameTasks k k') (hcurrent : k'.currentProcess = k.currentProcess)
    (hprocs : k'.procs = k.procs) : OwnOnly process k k' :=
  ⟨hsame, hcurrent, fun q _ => by rw [hprocs], by rw [hprocs], by rw [hprocs]⟩

lemma OwnOnly.refl (process : Word) (k : Kernel) : OwnOnly process k k :=
  .of_procs (.refl k) rfl rfl

lemma OwnOnly.trans {k'' : Kernel} (h : OwnOnly process k k') (h' : OwnOnly process k' k'') :
    OwnOnly process k k'' :=
  ⟨h.toSameTasks.trans h'.toSameTasks, h'.currentProcess.trans h.currentProcess,
    fun q hq => (h'.others q hq).trans (h.others q hq), h'.keyboard.trans h.keyboard,
    h'.task.trans h.task⟩

lemma OwnOnly.ownProcess (h : OwnOnly process k k') :
    (k'.tasks k'.currentTask).process = (k.tasks k.currentTask).process := by
  rw [h.tasks, h.currentTask]

/-- The process structure is set, but for its keyboard and its task. -/
lemma OwnOnly.setProcess (k : Kernel) {record : Process}
    (hkeyboard : record.keyboard = (k.procs process).keyboard)
    (htask : record.task = (k.procs process).task) : OwnOnly process k (k.setProcess process record) where
  toSameTasks := ⟨rfl, rfl, rfl, rfl⟩
  currentProcess := rfl
  others q hq := by simp [hq]
  keyboard := by simp [hkeyboard]
  task := by simp [htask]

section Stages
variable (hl : Linked k.kmem.entries) (hK : ∀ b ∈ K, b < 25600 ∧ Pinned k.kmem.entries b 1)
  (hfiles : files.Respects (K ∪ processBlock k) (processStep k).2)
include hK

lemma processStep_pins : Pins K k.kmem (processStep k).2 := pins_kzalloc fun b hb => (hK b hb).1

include hl

/-- The process structure is in a block of its own. -/
lemma processStep_block (hp : (processStep k).1 ≠ 0) : ∃ a ∈ processBlock k, a < 25600 ∧ a ∉ K ∧
    (processStep k).1 = blockAddr a ∧ Pinned (processStep k).2.entries a 1 := by
  obtain ⟨a, ha, heq, hfree, hpin⟩ := @Linked.kzalloc_pinned k.kmem 9364 hl hp (by decide)
  exact ⟨a, ⟨ha, heq⟩, ha, fun hmem => (hK a hmem).2.not_free hfree, heq, hpin⟩

lemma processStep_known (hb : b ∈ K ∪ processBlock k) :
    b < 25600 ∧ Pinned (processStep k).2.entries b 1 := by
  rcases hb with hb | hb
  · exact ⟨(hK b hb).1, (processStep_pins hK).pinned b hb (hK b hb).2⟩
  · exact ⟨hb.1, (processBlock_pinned hl hb).2⟩

include hfiles

/-- The file is loaded into other blocks. -/
lemma dataStep_pins : Pins (K ∪ processBlock k) (processStep k).2 (dataStep files k).2.2 := by
  refine ⟨fun hs => hfiles.elfLoad_linked hs, fun b hb hpin => ?_⟩
  have hlt := (processStep_known hl hK hb).1
  refine hfiles.elfLoad_pins (fun c hc => processStep_known hl hK hc) (.inl hb) ?_
  exact hpin.kzalloc one_pos (by omega) _

lemma stackStep_pins : Pins (K ∪ processBlock k) (processStep k).2 (stackStep files k).2 :=
  (dataStep_pins hl hK hfiles).trans (pins_kzalloc fun _ hb => (processStep_known hl hK hb).1)

lemma stackStep_linked : Linked (stackStep files k).2.entries :=
  (stackStep_pins hl hK hfiles).linked ((processStep_pins hK).linked hl)

/-- The stack is in blocks of its own. -/
lemma stackStep_own (hs : (stackStep files k).1 ≠ 0) : ∃ c < 25600, c ∉ K ∪ processBlock k ∧
    (stackStep files k).1 = blockAddr c ∧ Pinned (stackStep files k).2.entries c 1 := by
  have hdata := dataStep_pins hl hK hfiles
  obtain ⟨c, hc, heq, hfree, hpin⟩ := @Linked.kzalloc_pinned (dataStep files k).2.2
    userProgramStackSize (hdata.linked ((processStep_pins hK).linked hl)) hs (by decide)
  refine ⟨c, hc, fun hmem => ?_, heq, hpin⟩
  exact (hdata.pinned c hmem (processStep_known hl hK hmem).2).not_free hfree

end Stages

/-- The kernel in which the new task is. -/
lemma startedKernel_spawned (htask : isErr (taskNew (loadedKernel files k slot) (processStep k).1).1 =
    false) : ∃ (b : ℕ) (B : Set ℕ),
      GrownBy (stackStep files k).2
        (startedKernel (loadedKernel files k slot) (processStep k).1).kmem B ∧ b ∈ B ∧
      (taskNew (loadedKernel files k slot) (processStep k).1).1 = blockAddr b ∧
      Spawned k (startedKernel (loadedKernel files k slot) (processStep k).1) (blockAddr b)
        (processStep k).1 := by
  obtain ⟨b, B, s, t, heq, hgrown, hfresh, hb, -⟩ := taskNew_spec _ _ htask
  obtain ⟨chunk, registers, owner, next, prev⟩ := t
  obtain ⟨rfl, rfl, -, rfl⟩ := hfresh
  have hkmem : (startedKernel (loadedKernel files k slot) (processStep k).1).kmem = s := by
    rw [startedKernel_kmem, heq, taskListAppend_kmem]
    rfl
  have hone : (taskNew (loadedKernel files k slot) (processStep k).1).1 = blockAddr b := by rw [heq]
  refine ⟨b, B, by rw [hkmem]; exact hgrown, hb, hone, chunk, registers, ?_⟩
  have hsame : ∀ (k₁ k₂ : Kernel) (task : Word), SameTasks k₁ k₂ →
      SameTasks (taskListAppend k₁ task) (taskListAppend k₂ task) := by
    rintro k₁ k₂ task ⟨htasks, hhead, htail, hcurrent⟩
    unfold taskListAppend
    rw [hhead]
    split_ifs
    · exact ⟨htasks, rfl, rfl, rfl⟩
    · refine ⟨?_, hhead, rfl, hcurrent⟩
      simp only [htasks, htail, Kernel.setTask]
  have happend := hsame (k.setTask (blockAddr b) ⟨chunk, registers, (processStep k).1, 0, 0⟩)
    (((loadedKernel files k slot).withKmem s).setTask (blockAddr b)
      ⟨chunk, registers, (processStep k).1, 0, 0⟩) (blockAddr b) ⟨rfl, rfl, rfl, rfl⟩
  refine happend.trans ?_
  rw [startedKernel, heq]
  exact ⟨rfl, rfl, rfl, rfl⟩

/-- A load makes no task and reports an error, or it makes one for the process it returns. -/
theorem processLoad_effect (hl : Linked k.kmem.entries)
    (hK : ∀ b ∈ K, b < 25600 ∧ Pinned k.kmem.entries b 1)
    (hfiles : files.Respects (K ∪ processBlock k) (processStep k).2) (hmeets : LoadMeets files k)
    (hload : processLoad files k = some (res, process, k')) :
    k'.currentProcess = k.currentProcess ∧ (res < 0 ∧ LoadIdle K k k' ∨
      ∃ a b, LoadSpawns K k k' a b ∧ (res < 0 ∨ process = blockAddr a)) := by
  have herr : ∀ value : ℤ, value = -enomem ∨ value = -eistkn → value < 0 := by
    rintro value (rfl | rfl) <;> decide
  cases hslot : processGetFreeSlot k with
  | none =>
    rw [processLoad_none hslot] at hload
    simp only [Option.some.injEq, Prod.mk.injEq] at hload
    obtain ⟨hres, -, rfl⟩ := hload
    exact ⟨rfl, .inl ⟨herr res (.inr hres.symm), Pins.refl _ _, SameTasks.refl _, 0, .inl rfl,
      fun _ _ => rfl⟩⟩
  | some slot =>
    rw [processLoad_some hslot, processLoadForSlot_eq (processGetFreeSlot_free hslot)] at hload
    have hfirst := processStep_pins hK
    by_cases hp : (processStep k).1 = 0
    · rw [if_pos hp] at hload
      simp only [Option.some.injEq, Prod.mk.injEq] at hload
      obtain ⟨hres, -, rfl⟩ := hload
      exact ⟨rfl, .inl ⟨herr res (.inl hres.symm), hfirst, ⟨rfl, rfl, rfl, rfl⟩, 0, .inl rfl,
        fun _ _ => rfl⟩⟩
    rw [if_neg hp] at hload
    obtain ⟨a, hmem, ha, hanot, haddr, hapin⟩ := processStep_block hl hK hp
    have hstacked := stackStep_pins hl hK hfiles
    have hpins := hfirst.trans (hstacked.mono Set.subset_union_left)
    by_cases hs : (stackStep files k).1 = 0
    · rw [if_pos hs] at hload
      simp only [Option.some.injEq, Prod.mk.injEq] at hload
      obtain ⟨hres, -, rfl⟩ := hload
      refine ⟨rfl, .inl ⟨herr res (.inl hres.symm), hpins, ⟨rfl, rfl, rfl, rfl⟩, (processStep k).1,
        .inr ⟨a, ha, haddr, hanot⟩, fun q hq => ?_⟩⟩
      simp [hq]
    rw [if_neg hs, processStart_eq] at hload
    have htask := hmeets.task slot hslot hp hs
    obtain ⟨c, hc, hcnot, hceq, hcpin⟩ := stackStep_own hl hK hfiles hs
    obtain ⟨-, hcurrent⟩ := @startedKernel_table files k slot htask
    obtain ⟨b, B, hgrown, hbB, hbeq, hspawned⟩ := startedKernel_spawned htask
    have hprocs : ∀ q ≠ (processStep k).1,
        (startedKernel (loadedKernel files k slot) (processStep k).1).procs q = k.procs q := by
      intro q hq
      simp only [startedKernel, Kernel.setProcess_procs]
      rw [Function.update_of_ne hq, taskNew_procs _ _ htask, loadedKernel, Kernel.setProcess_procs,
        Function.update_of_ne hq]
      rfl
    have hself := startedKernel_procs (loadedKernel files k slot) (processStep k).1
    rw [taskNew_procs _ _ htask, loadedKernel_procs, hbeq] at hself
    obtain ⟨r, -, heq⟩ := Option.map_eq_some_iff.1 hload
    generalize startedKernel (loadedKernel files k slot) (processStep k).1 = started at *
    -- the process structure and the stack were taken when the task got its blocks
    have hlinked := stackStep_linked hl hK hfiles
    obtain ⟨hstarted, hBpin⟩ := grownBy_linked hgrown hlinked
    have hheld : ∀ L, Pins L (stackStep files k).2 started.kmem := fun L => (keeps_grownBy hgrown).pins
    have htaken : ∀ d, Pinned (stackStep files k).2.entries d 1 → d ≠ b := by
      rintro d hd rfl
      exact hd.not_free (hgrown.fresh d hbB).2
    have hastack := hstacked.pinned a (.inr hmem) hapin
    have hac : c ≠ a := by
      rintro rfl
      exact hcnot (.inr hmem)
    have hbnot : b ∉ K := fun hin => htaken b (hpins.pinned b hin (hK b hin).2) rfl
    have hblt := (hgrown.fresh b hbB).1
    have hall := hpins.trans (hheld K)
    rw [haddr] at hprocs hself hspawned
    -- with or without the stack
    have hspawn : ∀ k₁ : Kernel, Pins {d | d ≠ c} started.kmem k₁.kmem →
        SameTasks started k₁ → k₁.procs = started.procs → LoadSpawns K k k₁ a b := by
      intro k₁ hdrop htasks hsame
      have hcK : K ⊆ {d | d ≠ c} := fun d hd => by
        rintro rfl
        exact hcnot (.inl hd)
      obtain ⟨chunk, registers, happend⟩ := hspawned
      refine ⟨ha, hblt, hanot, hbnot, htaken a hastack, hall.trans (hdrop.mono hcK), ?_, ?_,
        ⟨chunk, registers, happend.trans htasks⟩, ?_, ?_, ?_, ?_⟩
      · exact hdrop.pinned a hac.symm ((hheld {a}).pinned a rfl hastack)
      · exact hdrop.pinned b (htaken c hcpin).symm (hBpin b hbB)
      · rwa [hsame]
      · rw [hsame, hself]
      · rw [hsame, hself]
        exact fun _ => rfl
      · rw [hsame, hself]
        rfl
    by_cases hneg : r.1 < 0
    · have hstack : ((started.withKmem (started.kmem.withMem r.2)).procs (processStep k).1).stack =
          (stackStep files k).1 := by
        rw [Kernel.withKmem_procs, haddr, hself]
      rw [if_pos hneg, processLoadFailed_stack hstack hs] at heq
      simp only [Prod.mk.injEq] at heq
      obtain ⟨rfl, -, rfl⟩ := heq
      refine ⟨hcurrent, .inr ⟨a, b, hspawn _ ?_ ⟨rfl, rfl, rfl, rfl⟩ rfl, .inl hneg⟩⟩
      have hcstarted : Pinned (started.kmem.withMem r.2).entries c 1 := (hheld {c}).pinned c rfl hcpin
      refine (pins_withMem _ _ r.2).trans (pins_kfree ?_)
      rw [hceq]
      exact hcstarted.droppable hc fun hne => hne rfl
    · rw [if_neg hneg] at heq
      simp only [Prod.mk.injEq] at heq
      obtain ⟨rfl, rfl, rfl⟩ := heq
      exact ⟨hcurrent, .inr ⟨a, b, hspawn _ (pins_withMem _ _ r.2) ⟨rfl, rfl, rfl, rfl⟩ rfl,
        .inr haddr⟩⟩

end AlphaOS.Processes
