import AlphaOS.LoadFailure
import AlphaOS.LoadKeeps
import AlphaOS.ProcessRegistry

/-! What `process_load` and `process_load_switch` make of the processes table. -/
namespace AlphaOS.Processes
open BlockHeap Elf Kheap Paging Tasks WordMemory

section Mapping
variable {mem : Mem} {chunk dir : Word} {table : ℕ → Word}

lemma processMapElfLoop_keeps (h : PageDir mem chunk dir table) (file header phdrs : Word) (n i : ℕ)
    (res : ℤ) :
    Mapped mem (processMapElfLoop chunk file header phdrs n i res mem).2 chunk dir table := by
  induction n generalizing mem i res with
  | zero => exact Mapped.refl h
  | succ n ih =>
    rw [processMapElfLoop]
    dsimp only
    split_ifs
    · exact pagingMapTo_keeps h _ _ _ _
    · have hfirst := fun pa => pagingMapTo_keeps h
        (pagingAlignToLowerPage (readPhdr mem (phdrs + BitVec.ofNat 32 (32 * i))).vaddr) pa
      exact (hfirst _ _ _).trans (ih (hfirst _ _ _).pageDir _ _)
    · exact Mapped.refl h

/-- Mapping the memory of any process writes only to the tables of its directory. -/
theorem processMapMemory_keeps (h : PageDir mem chunk dir table) {p : Process} {r : ℤ × Mem}
    (hmap : processMapMemory mem chunk p = some r) : Mapped mem r.2 chunk dir table := by
  have hdata : ∀ r' : ℤ × Mem, Mapped mem r'.2 chunk dir table →
      Mapped mem (if r'.1 < 0 then r' else (r'.1, (pagingMapTo r'.2 chunk
        programVirtualStackAddressEnd p.stack (pagingAlignAddress (p.stack + userProgramStackSize))
        (pagingIsPresent ||| pagingAccessFromAll ||| pagingIsWritable)).2)).2 chunk dir table := by
    intro r' hr
    split_ifs
    · exact hr
    · exact hr.trans (pagingMapTo_keeps hr.pageDir _ _ _ _)
  rw [processMapMemory] at hmap
  obtain ⟨r', hr, rfl⟩ := Option.map_eq_some_iff.1 hmap
  refine hdata r' ?_
  split_ifs at hr
  · obtain rfl := Option.some.inj hr
    exact processMapElfLoop_keeps h _ _ _ _ _ _
  · obtain rfl := Option.some.inj hr
    exact pagingMapTo_keeps h _ _ _ _

end Mapping

/-- The first block of the process structure. -/
def processBlock (k : Kernel) : Set ℕ := {b | b < 25600 ∧ (processStep k).1 = blockAddr b}

variable {files : FileCalls} {k k' : Kernel} {slot : Fin maxProcesses} {D : Set ℕ} {b : ℕ}

lemma processStep_keeps (hk : Registry k) : Keeps (heldBlocks k) k.kmem (processStep k).2 :=
  keeps_kzalloc (fun _ hb => (hk.held_pinned hb).1) (.inr (by decide))

/-- The process structure takes a free block that is pinned from then on. -/
lemma processBlock_pinned (hlinked : Linked k.kmem.entries) (hb : b ∈ processBlock k) :
    IsFree k.kmem.entries b ∧ Pinned (processStep k).2.entries b 1 := by
  obtain ⟨hlt, heq⟩ := hb
  obtain ⟨c, hc, hcb, hfree, hpin⟩ := @Linked.kzalloc_pinned k.kmem 9364 hlinked (by
    change (processStep k).1 ≠ 0
    rw [heq]
    exact blockAddr_ne_zero (by omega)) (by decide)
  obtain rfl : c = b := blockAddr_inj (by omega) (by omega) (hcb.symm.trans heq)
  exact ⟨hfree, hpin⟩

lemma processStep_pinned (hk : Registry k) (hb : b ∈ processBlock k) :
    b ∉ heldBlocks k ∧ Pinned (processStep k).2.entries b 1 := by
  obtain ⟨hfree, hpin⟩ := processBlock_pinned hk.linked hb
  exact ⟨fun hheld => (hk.held_pinned hheld).2.not_free hfree, hpin⟩

lemma processStep_held (hk : Registry k) (hb : b ∈ heldBlocks k ∪ processBlock k) :
    b < 25600 ∧ Pinned (processStep k).2.entries b 1 := by
  rcases hb with hb | hb
  · exact ⟨(hk.held_pinned hb).1, (processStep_keeps hk).pinned b hb (hk.held_pinned hb).2⟩
  · exact ⟨hb.1, (processStep_pinned hk hb).2⟩

section Stages
variable (hk : Registry k)
  (hfiles : files.Respects (heldBlocks k ∪ processBlock k) (processStep k).2)
  (hsize : Sizable files (processStep k).2)
include hk hfiles hsize

lemma dataStep_keeps :
    Keeps (heldBlocks k ∪ processBlock k) (processStep k).2 (dataStep files k).2.2 :=
  hfiles.elfLoad_keeps ((processStep_keeps hk).linked hk.linked) hsize fun _ => processStep_held hk

/-- The `elf_file` and the image of the new process. -/
lemma dataStep_blocks : ∃ D : Set ℕ,
    (∀ b ∈ D, b < 25600 ∧ b ∉ heldBlocks k ∪ processBlock k ∧
      Pinned (dataStep files k).2.2.entries b 1) ∧
    ((dataStep files k).2.1 ≠ 0 → (∃ b ∈ D, (dataStep files k).2.1 = blockAddr b) ∧
      (elfMemory (dataStep files k).2.2.mem (dataStep files k).2.1 = 0 ∨
        ∃ b ∈ D, elfMemory (dataStep files k).2.2.mem (dataStep files k).2.1 = blockAddr b)) := by
  by_cases hdata : (dataStep files k).2.1 = 0
  · exact ⟨∅, by simp, fun hne => absurd hdata hne⟩
  have hlinked := (processStep_keeps hk).linked hk.linked
  have hK : ∀ b ∈ heldBlocks k ∪ processBlock k, b < 25600 ∧ Pinned (processStep k).2.entries b 1 :=
    fun _ => processStep_held hk
  obtain ⟨hload, hout⟩ := Loads.of_handed hdata
  have hfile : (dataStep files k).2.1 = (fileStep (processStep k).2).1 := hout
  rw [hfile] at hdata ⊢
  obtain ⟨f, hf, -, heq, -⟩ := (fileStep_cases (processStep k).2).resolve_left fun heq =>
    hdata (by rw [heq])
  have haddr : (fileStep (processStep k).2).1 = blockAddr f := by rw [heq]
  have hfpin := hfiles.file_pinned hK hlinked ⟨hf, haddr⟩
  have hfnot : f ∉ heldBlocks k ∪ processBlock k := fun hmem =>
    not_fileBlock hlinked hK hmem ⟨hf, haddr⟩
  have hword := hfiles.image_word hK hlinked hload hdata
  rcases hfiles.image_pinned hlinked hsize hK hload with hnull | ⟨g, hg, hgeq, hgpin, hgnot⟩
  · refine ⟨{f}, ?_, fun _ => ⟨⟨f, rfl, haddr⟩, .inl (hword.trans hnull)⟩⟩
    rintro b rfl
    exact ⟨hf, hfnot, hfpin⟩
  · refine ⟨{f, g}, ?_, fun _ => ⟨⟨f, .inl rfl, haddr⟩, .inr ⟨g, .inr rfl, hword.trans hgeq⟩⟩⟩
    rintro b (rfl | rfl)
    · exact ⟨hf, hfnot, hfpin⟩
    · exact ⟨hg, fun hmem => hgnot b (.inl hmem) rfl, hgpin⟩

lemma stackStep_keeps : Keeps (heldBlocks k) k.kmem (stackStep files k).2 :=
  ((processStep_keeps hk).trans ((dataStep_keeps hk hfiles hsize).mono Set.subset_union_left)).trans
    (keeps_kzalloc (fun _ hb => (hk.held_pinned hb).1) (.inr (by decide)))

end Stages

/-- The blocks of a process before its task is created: its structure, the `elf_file`, the image
and the stack. -/
structure Prepared (files : FileCalls) (k : Kernel) (D : Set ℕ) : Prop where
  fresh : ∀ b ∈ D, b < 25600 ∧ b ∉ heldBlocks k
  pinned : ∀ b ∈ D, Pinned (stackStep files k).2.entries b 1
  process : ∃ b ∈ D, (processStep k).1 = blockAddr b
  stack : ∃ b ∈ D, (stackStep files k).1 = blockAddr b
  data : (dataStep files k).2.1 ≠ 0 → (∃ b ∈ D, (dataStep files k).2.1 = blockAddr b) ∧
    (elfMemory (stackStep files k).2.mem (dataStep files k).2.1 = 0 ∨
      ∃ b ∈ D, elfMemory (stackStep files k).2.mem (dataStep files k).2.1 = blockAddr b)

theorem prepared (hk : Registry k)
    (hfiles : files.Respects (heldBlocks k ∪ processBlock k) (processStep k).2)
    (hsize : Sizable files (processStep k).2) (hp : (processStep k).1 ≠ 0)
    (hs : (stackStep files k).1 ≠ 0) : ∃ D, Prepared files k D := by
  have hdata := dataStep_keeps hk hfiles hsize
  have hlinked := hdata.linked ((processStep_keeps hk).linked hk.linked)
  obtain ⟨p, hpb, hpeq, -, -⟩ := @Linked.kzalloc_pinned k.kmem 9364 hk.linked hp (by decide)
  obtain ⟨t, ht, hteq, htfree, htpin⟩ :=
    @Linked.kzalloc_pinned (dataStep files k).2.2 userProgramStackSize hlinked hs (by decide)
  obtain ⟨D, hD, hblocks⟩ := dataStep_blocks hk hfiles hsize
  have hpmem : p ∈ heldBlocks k ∪ processBlock k := .inr ⟨hpb, hpeq⟩
  have hppin := hdata.pinned p hpmem (processStep_held hk hpmem).2
  -- what is pinned when the stack is allocated
  have hbefore : ∀ b ∈ insert p D, b < 25600 ∧ b ∉ heldBlocks k ∧
      Pinned (dataStep files k).2.2.entries b 1 := by
    rintro b (rfl | hb)
    · exact ⟨hpb, (processStep_pinned hk ⟨hpb, hpeq⟩).1, hppin⟩
    · obtain ⟨hlt, hnot, hpin⟩ := hD b hb
      exact ⟨hlt, fun hheld => hnot (.inl hheld), hpin⟩
  have hkeep : Keeps (insert p D) (dataStep files k).2.2 (stackStep files k).2 :=
    keeps_kzalloc (fun b hb => (hbefore b hb).1) (.inr (by decide))
  have htnot : t ∉ heldBlocks k := fun hheld => by
    have hkept := hdata.pinned t (.inl hheld) (processStep_held hk (.inl hheld)).2
    exact hkept.not_free htfree
  refine ⟨insert t (insert p D), ⟨?_, ?_, ⟨p, .inr (.inl rfl), hpeq⟩, ⟨t, .inl rfl, hteq⟩, ?_⟩⟩
  · rintro b (rfl | hb)
    · exact ⟨ht, htnot⟩
    · exact ⟨(hbefore b hb).1, (hbefore b hb).2.1⟩
  · rintro b (rfl | hb)
    · exact htpin
    · exact hkeep.pinned b hb (hbefore b hb).2.2
  · intro hne
    obtain ⟨⟨f, hf, hfeq⟩, himage⟩ := hblocks hne
    have hword : elfMemory (stackStep files k).2.mem (dataStep files k).2.1 =
        elfMemory (dataStep files k).2.2.mem (dataStep files k).2.1 := by
      rw [hfeq]
      exact read32_eq_of_same fun x hx => hkeep.mem f (.inr hf) (hbefore f (.inr hf)).2.2 x
        (elfMemory_page (hbefore f (.inr hf)).1 hx)
    rw [hword]
    refine ⟨⟨f, .inr (.inr hf), hfeq⟩, himage.imp_right ?_⟩
    rintro ⟨g, hg, hgeq⟩
    exact ⟨g, .inr (.inr hg), hgeq⟩

/-- The state in which the memory of the new process is mapped. -/
structure MappedState (files : FileCalls) (k : Kernel) (slot : Fin maxProcesses) (k₁ : Kernel) :
    Prop where
  task : isErr (taskNew (loadedKernel files k slot) (processStep k).1).1 = false
  memory : ∃ r : ℤ × Mem,
    processMapMemory (startedKernel (loadedKernel files k slot) (processStep k).1).kmem.mem
      ((startedKernel (loadedKernel files k slot) (processStep k).1).pageDirectory (processStep k).1)
      ((startedKernel (loadedKernel files k slot) (processStep k).1).procs (processStep k).1) =
        some r ∧
    k₁.kmem = (startedKernel (loadedKernel files k slot) (processStep k).1).kmem.withMem r.2
  procs : k₁.procs = (startedKernel (loadedKernel files k slot) (processStep k).1).procs
  tasks : k₁.tasks = (startedKernel (loadedKernel files k slot) (processStep k).1).tasks
  processes : ∀ j ≠ slot, k₁.processes j = k.processes j

variable {k₁ : Kernel}

lemma MappedState.procs_self (h : MappedState files k slot k₁) : k₁.procs (processStep k).1 =
    { fileProcess files k with
      stack := (stackStep files k).1
      id := BitVec.ofNat 16 slot
      task := (taskNew (loadedKernel files k slot) (processStep k).1).1 } := by
  rw [h.procs, startedKernel_procs, taskNew_procs _ _ h.task, loadedKernel_procs]

lemma MappedState.procs_other (h : MappedState files k slot k₁) {q : Word}
    (hq : q ≠ (processStep k).1) : k₁.procs q = k.procs q := by
  rw [h.procs]
  simp only [startedKernel, Kernel.setProcess_procs]
  rw [Function.update_of_ne hq, taskNew_procs _ _ h.task, loadedKernel, Kernel.setProcess_procs,
    Function.update_of_ne hq]
  rfl

lemma loadedKernel_kmem (files : FileCalls) (k : Kernel) (slot : Fin maxProcesses) :
    (loadedKernel files k slot).kmem = (stackStep files k).2 := rfl

lemma loadedKernel_tasks (files : FileCalls) (k : Kernel) (slot : Fin maxProcesses) :
    (loadedKernel files k slot).tasks = k.tasks := rfl

lemma startedKernel_tasks (k : Kernel) (process : Word) :
    (startedKernel k process).tasks = (taskNew k process).2.tasks := rfl

/-- The blocks of the task and its directory, and what the mapping keeps. -/
theorem MappedState.blocks (h : MappedState files k slot k₁) {M : Set ℕ}
    (hM : ∀ b ∈ M, Pinned (stackStep files k).2.entries b 1)
    (hlinked : Linked (stackStep files k).2.entries) :
    ∃ (B : Set ℕ) (dir : Word) (table : ℕ → Word),
      (∀ b ∈ B, b < 25600 ∧ IsFree (stackStep files k).2.entries b ∧
        Pinned k₁.kmem.entries b 1) ∧
      PageDir k₁.kmem.mem (k₁.pageDirectory (processStep k).1) dir table ∧
      (∀ w, w = (k₁.procs (processStep k).1).task ∨ w = k₁.pageDirectory (processStep k).1 ∨
        w = dir ∨ (∃ i < 1024, w = table i) → ∃ b ∈ B, w = blockAddr b) ∧
      Keeps M (stackStep files k).2 k₁.kmem ∧
      ∀ a, a ≠ (k₁.procs (processStep k).1).task →
        (k₁.tasks a).pageDirectory = (k.tasks a).pageDirectory := by
  obtain ⟨B, dir, table, hgrown, hdir, hpointers, htasks, -⟩ :=
    taskNew_held (loadedKernel files k slot) (processStep k).1 h.task
  obtain ⟨r, hmap, hkmem⟩ := h.memory
  have hself : (k₁.procs (processStep k).1).task =
      (taskNew (loadedKernel files k slot) (processStep k).1).1 := by rw [h.procs_self]
  have hdirectory := startedKernel_pageDirectory (loadedKernel files k slot) (processStep k).1
  have hlocal : k₁.pageDirectory (processStep k).1 =
      (startedKernel (loadedKernel files k slot) (processStep k).1).pageDirectory
        (processStep k).1 := by
    rw [Kernel.pageDirectory, Kernel.pageDirectory, h.tasks, h.procs]
  rw [← startedKernel_kmem, loadedKernel_kmem] at hgrown
  rw [← hdirectory, ← startedKernel_kmem] at hdir
  rw [← hdirectory] at hpointers
  rw [← startedKernel_tasks, loadedKernel_tasks] at htasks
  have hmapped := processMapMemory_keeps hdir hmap
  have hpinned := (grownBy_linked hgrown hlinked).2
  rw [hlocal, hkmem, hself, h.tasks]
  generalize startedKernel (loadedKernel files k slot) (processStep k).1 = started at *
  refine ⟨B, dir, table, fun b hb => ⟨(hgrown.fresh b hb).1, (hgrown.fresh b hb).2, hpinned b hb⟩,
    hmapped.pageDir, hpointers, ?_, htasks⟩
  refine (keeps_grownBy hgrown).trans (keeps_withMem hmapped.off fun b hb hpage => ?_)
  obtain ⟨i, hi, heq⟩ := hpage
  obtain ⟨c, hc, hceq⟩ := hpointers _ (.inr (.inr (.inr ⟨i, hi, rfl⟩)))
  have hlt := (hgrown.fresh c hc).1
  rw [hceq, pageOf_blockAddr (by omega)] at heq
  obtain rfl : b = c := by omega
  exact (hM b hb).not_free (hgrown.fresh b hc).2

section New
variable (hk : Registry k) (hkeep : Keeps (heldBlocks k) k.kmem (stackStep files k).2)
  (hD : Prepared files k D) (h : MappedState files k slot k₁)
include hk hkeep hD h

/-- A load leaves the other processes as they were. -/
theorem MappedState.others : OthersKept k k₁ slot := by
  have hM : ∀ b ∈ heldBlocks k, Pinned (stackStep files k).2.entries b 1 := fun b hb =>
    hkeep.pinned b hb (hk.held_pinned hb).2
  obtain ⟨B, dir, table, hB, -, hpointers, hkept, htasks⟩ := h.blocks hM (hkeep.linked hk.linked)
  obtain ⟨p, hp, hpeq⟩ := hD.process
  -- no pointer of another process is one to a block that was free
  have hnot : ∀ j, k.processes j ≠ 0 → ∀ w ∈ heldPointers k (k.processes j), ∀ b < 25600,
      w = blockAddr b → b ∈ heldBlocks k := fun j hj w hw b hb heq => ⟨j, hj, hb, heq ▸ hw⟩
  have hall := hkeep.trans hkept
  refine ⟨hall.linked hk.linked, fun j _ hne => hall.mono fun b hb => ⟨j, hne, hb⟩,
    fun j _ hne => h.procs_other ?_, fun j _ hne => ?_, h.processes⟩
  · rw [hpeq]
    exact fun heq => (hD.fresh p hp).2 (hnot j hne _ (.inl rfl) p (hD.fresh p hp).1 heq)
  · have hprocs : k₁.procs (k.processes j) = k.procs (k.processes j) := by
      refine h.procs_other ?_
      rw [hpeq]
      exact fun heq => (hD.fresh p hp).2 (hnot j hne _ (.inl rfl) p (hD.fresh p hp).1 heq)
    obtain ⟨c, hc, hceq⟩ := hpointers _ (.inl rfl)
    rw [Kernel.pageDirectory, Kernel.pageDirectory, hprocs]
    refine htasks _ ?_
    rw [hceq]
    intro heq
    have hheld := hnot j hne _ (.inr (.inr (.inl rfl))) c (hB c hc).1 heq
    exact (hM c hheld).not_free (hB c hc).2.1

/-- The new process holds blocks that were nobody's. -/
theorem MappedState.joins (hslot : k₁.processes slot = (processStep k).1) : Joins k k₁ slot := by
  have hM : ∀ b ∈ D, Pinned (stackStep files k).2.entries b 1 := hD.pinned
  obtain ⟨B, dir, table, hB, hdir, hpointers, hkept, -⟩ := h.blocks hM (hkeep.linked hk.linked)
  have hdirectory : k₁.directory (processStep k).1 = dir := hdir.chunk_word
  have htable : ∀ i < 1024, pagingTable k₁.kmem.mem dir i = table i := hdir.entry
  have hself := h.procs_self
  have hdata : (k₁.procs (processStep k).1).data = (dataStep files k).2.1 := by rw [hself]; rfl
  have hstack : (k₁.procs (processStep k).1).stack = (stackStep files k).1 := by rw [hself]
  have hofD : ∀ w, (∃ b ∈ D, w = blockAddr b) →
      ∃ b < 25600, w = blockAddr b ∧ Pinned k₁.kmem.entries b 1 ∧ b ∉ heldBlocks k := by
    rintro w ⟨b, hb, rfl⟩
    exact ⟨b, (hD.fresh b hb).1, rfl, hkept.pinned b hb (hM b hb), (hD.fresh b hb).2⟩
  have hofB : ∀ w, (∃ b ∈ B, w = blockAddr b) →
      ∃ b < 25600, w = blockAddr b ∧ Pinned k₁.kmem.entries b 1 ∧ b ∉ heldBlocks k := by
    rintro w ⟨b, hb, rfl⟩
    obtain ⟨hlt, hfree, hpin⟩ := hB b hb
    exact ⟨b, hlt, rfl, hpin, fun hheld =>
      (hkeep.pinned b hheld (hk.held_pinned hheld).2).not_free hfree⟩
  have himage : (dataStep files k).2.1 ≠ 0 →
      elfMemory k₁.kmem.mem (dataStep files k).2.1 =
        elfMemory (stackStep files k).2.mem (dataStep files k).2.1 := by
    intro hne
    obtain ⟨⟨f, hf, hfeq⟩, -⟩ := hD.data hne
    rw [hfeq]
    exact read32_eq_of_same fun x hx => hkept.mem f hf (hM f hf) x
      (elfMemory_page (hD.fresh f hf).1 hx)
  have hheld : ∀ w ∈ heldPointers k₁ (processStep k).1, w ≠ 0 →
      ∃ b < 25600, w = blockAddr b ∧ Pinned k₁.kmem.entries b 1 ∧ b ∉ heldBlocks k := by
    rintro w (rfl | rfl | rfl | rfl | rfl | ⟨i, hi, rfl⟩ | ⟨hne, hw⟩) hw0
    · exact hofD _ hD.process
    · rw [hstack]
      exact hofD _ hD.stack
    · exact hofB _ (hpointers _ (.inl rfl))
    · exact hofB _ (hpointers _ (.inr (.inl rfl)))
    · rw [hdirectory]
      exact hofB _ (hpointers _ (.inr (.inr (.inl rfl))))
    · rw [hdirectory, htable i hi]
      exact hofB _ (hpointers _ (.inr (.inr (.inr ⟨i, hi, rfl⟩))))
    · rw [hdata] at hne hw
      obtain ⟨hfile, hmem⟩ := hD.data hne
      rcases hw with rfl | rfl
      · exact hofD _ hfile
      · rw [himage hne] at hw0 ⊢
        exact hofD _ (hmem.resolve_left hw0)
  have hne : ∀ w, (∃ b ∈ B, w = blockAddr b) → w ≠ 0 := by
    rintro w ⟨b, hb, rfl⟩
    have hlt := (hB b hb).1
    exact blockAddr_ne_zero (by omega)
  refine ⟨?_, ?_, ?_⟩
  · rw [hslot]
    refine ⟨by rw [hself]; rfl, fun i => by rw [Kernel.record, hself]; rfl, fun w hw hw0 => ?_, ?_, ?_⟩
    · obtain ⟨b, hb, heq, hpin, -⟩ := hheld w hw hw0
      exact ⟨b, hb, heq, hpin⟩
    · exact hne _ (hpointers _ (.inr (.inl rfl)))
    · rw [hdirectory]
      exact hne _ (hpointers _ (.inr (.inr (.inl rfl))))
  · rw [hslot, hself, BitVec.toNat_ofNat]
    have hlt : (slot : ℕ) < 12 := slot.isLt
    exact Nat.mod_eq_of_lt (by omega)
  · rintro b ⟨hb, hmem⟩
    rw [hslot] at hmem
    obtain ⟨c, hc, heq, -, hnot⟩ := hheld _ hmem (blockAddr_ne_zero (by omega))
    obtain rfl : b = c := blockAddr_inj (by omega) (by omega) heq
    exact hnot

end New

lemma taskListAppend_table (k : Kernel) (task : Word) :
    (taskListAppend k task).processes = k.processes ∧
    (taskListAppend k task).currentProcess = k.currentProcess := by
  unfold taskListAppend
  split_ifs <;> exact ⟨rfl, rfl⟩

/-- The table is not touched before the process is registered. -/
lemma startedKernel_table (htask : isErr (taskNew (loadedKernel files k slot) (processStep k).1).1 =
    false) :
    (startedKernel (loadedKernel files k slot) (processStep k).1).processes = k.processes ∧
    (startedKernel (loadedKernel files k slot) (processStep k).1).currentProcess =
      k.currentProcess := by
  obtain herr | ⟨b, s₁, s, chunk, d, a, -, -, -, -, heq⟩ :=
    taskNew_cases (loadedKernel files k slot) (processStep k).1
  · rw [herr] at htask
    exact absurd htask (by decide)
  · obtain ⟨hprocesses, hcurrent⟩ := taskListAppend_table
      (((loadedKernel files k slot).withKmem s).setTask (blockAddr b) ⟨chunk, startRegisters s.mem
        ((loadedKernel files k slot).procs (processStep k).1), (processStep k).1, 0, 0⟩) (blockAddr b)
    rw [startedKernel, heq]
    exact ⟨hprocesses, hcurrent⟩

/-- `task_new` gets its memory when a load comes to it, and the image is no larger than half of
the address space. -/
structure LoadMeets (files : FileCalls) (k : Kernel) : Prop where
  sizable : Sizable files (processStep k).2
  task : ∀ slot, processGetFreeSlot k = some slot → (processStep k).1 ≠ 0 →
    (stackStep files k).1 ≠ 0 →
    isErr (taskNew (loadedKernel files k slot) (processStep k).1).1 = false

lemma OthersKept.unregistered (h : OthersKept k k' slot) (hk : Registry k)
    (hslot : k.processes slot = 0) (hsame : k'.processes = k.processes)
    (hcurrent : k'.currentProcess = k.currentProcess) : Registry k' := by
  refine h.registry hk (fun hne => ?_) fun hne => ?_
  · rw [hsame] at hne
    exact absurd hslot hne
  · rw [hcurrent] at hne ⊢
    rw [hsame]
    exact hk.current hne

/-- A load with an error that comes before the task leaves the others alone. -/
lemma othersKept_early (hk : Registry k) {s : Kmem} (hkeep : Keeps (heldBlocks k) k.kmem s)
    (p : Process) (hp : (processStep k).1 ≠ 0) :
    OthersKept k ((k.withKmem s).setProcess (processStep k).1 p) slot := by
  have hother : ∀ j, k.processes j ≠ 0 → k.processes j ≠ (processStep k).1 := by
    intro j hj heq
    obtain ⟨b, hb, hbeq, -, -⟩ := @Linked.kzalloc_pinned k.kmem 9364 hk.linked hp (by decide)
    have hstep : (processStep k).1 = blockAddr b := hbeq
    refine (processStep_pinned hk ⟨hb, hstep⟩).1 ⟨j, hj, hb, .inl ?_⟩
    rw [heq, hstep]
  have hprocs : ∀ j, k.processes j ≠ 0 →
      ((k.withKmem s).setProcess (processStep k).1 p).procs (k.processes j) =
        k.procs (k.processes j) := by
    intro j hj
    rw [Kernel.setProcess_procs, Function.update_of_ne (hother j hj)]
    rfl
  refine ⟨hkeep.linked hk.linked, fun j _ hj => hkeep.mono fun b hb => ⟨j, hj, hb⟩,
    fun j _ hj => hprocs j hj, fun j _ hj => ?_, fun j _ => rfl⟩
  rw [Kernel.pageDirectory, hprocs j hj]
  rfl

/-- So does the release of the stack at the end of a failed load. -/
lemma MappedState.release (hk : Registry k)
    (hkeep : Keeps (heldBlocks k) k.kmem (stackStep files k).2) (hD : Prepared files k D)
    (h : MappedState files k slot k₁) :
    OthersKept k (k₁.withKmem (kfree k₁.kmem (stackStep files k).1)) slot := by
  have hothers := h.others hk hkeep hD
  obtain ⟨t, ht, hteq⟩ := hD.stack
  obtain ⟨B, dir, table, -, -, -, hkept, -⟩ := h.blocks hD.pinned (hkeep.linked hk.linked)
  have hfree : Keeps (heldBlocks k) k₁.kmem (kfree k₁.kmem (stackStep files k).1) := by
    rw [hteq]
    exact keeps_kfree ((hkept.pinned t ht (hD.pinned t ht)).droppable (hD.fresh t ht).1
      (hD.fresh t ht).2)
  exact ⟨hfree.linked hothers.linked,
    fun j hj hne => (hothers.keeps j hj hne).trans (hfree.mono fun b hb => ⟨j, hne, hb⟩),
    hothers.procs, hothers.directory, hothers.processes⟩

/-- What a load makes of the table. -/
inductive LoadOutcome (k : Kernel) (res : ℤ) (process : Word) (k' : Kernel) : Prop
  | failed (hres : res < 0) (processes : k'.processes = k.processes)
  | registered (slot : Fin maxProcesses) (hres : ¬ res < 0) (hslot : processGetFreeSlot k = some slot)
      (ne : process ≠ 0) (processes : k'.processes = Function.update k.processes slot process)

variable {res : ℤ} {process : Word}

/-- A load registers a process in the first free slot or leaves the table as it was, and never
touches another process. -/
theorem Registry.load (hk : Registry k)
    (hfiles : files.Respects (heldBlocks k ∪ processBlock k) (processStep k).2)
    (hmeets : LoadMeets files k) (hload : processLoad files k = some (res, process, k')) :
    Registry k' ∧ k'.currentProcess = k.currentProcess ∧ LoadOutcome k res process k' := by
  have herr : ∀ value : ℤ, value = -enomem ∨ value = -eistkn → value < 0 := by
    rintro value (rfl | rfl) <;> decide
  cases hslot : processGetFreeSlot k with
  | none =>
    rw [processLoad_none hslot] at hload
    simp only [Option.some.injEq, Prod.mk.injEq] at hload
    obtain ⟨hres, -, rfl⟩ := hload
    exact ⟨hk, rfl, .failed (herr res (.inr hres.symm)) rfl⟩
  | some slot =>
    have hfree := processGetFreeSlot_free hslot
    rw [processLoad_some hslot, processLoadForSlot_eq hfree] at hload
    by_cases hp : (processStep k).1 = 0
    · rw [if_pos hp] at hload
      simp only [Option.some.injEq, Prod.mk.injEq] at hload
      obtain ⟨hres, -, rfl⟩ := hload
      have hkeep := processStep_keeps hk
      refine ⟨?_, rfl, .failed (herr res (.inl hres.symm)) rfl⟩
      have hothers : OthersKept k (k.withKmem (processStep k).2) slot :=
        ⟨hkeep.linked hk.linked, fun j _ hj => hkeep.mono fun b hb => ⟨j, hj, hb⟩, fun _ _ _ => rfl,
          fun _ _ _ => rfl, fun _ _ => rfl⟩
      exact hothers.unregistered hk hfree rfl rfl
    rw [if_neg hp] at hload
    have hkeep := stackStep_keeps hk hfiles hmeets.sizable
    by_cases hs : (stackStep files k).1 = 0
    · rw [if_pos hs] at hload
      simp only [Option.some.injEq, Prod.mk.injEq] at hload
      obtain ⟨hres, -, rfl⟩ := hload
      exact ⟨(othersKept_early hk hkeep _ hp).unregistered hk hfree rfl rfl, rfl,
        .failed (herr res (.inl hres.symm)) rfl⟩
    rw [if_neg hs, processStart_eq] at hload
    obtain ⟨D, hD⟩ := prepared hk hfiles hmeets.sizable hp hs
    have htask := hmeets.task slot hslot hp hs
    obtain ⟨hprocesses, hcurrent⟩ := @startedKernel_table files k slot htask
    obtain ⟨r, hmap, heq⟩ := Option.map_eq_some_iff.1 hload
    have hstate : ∀ k₁ : Kernel, k₁.kmem = (startedKernel (loadedKernel files k slot)
        (processStep k).1).kmem.withMem r.2 →
        k₁.procs = (startedKernel (loadedKernel files k slot) (processStep k).1).procs →
        k₁.tasks = (startedKernel (loadedKernel files k slot) (processStep k).1).tasks →
        (∀ j ≠ slot, k₁.processes j = k.processes j) → MappedState files k slot k₁ :=
      fun k₁ hkmem hprocs htasks hsame => ⟨htask, ⟨r, hmap, hkmem⟩, hprocs, htasks, hsame⟩
    have hself := startedKernel_procs (loadedKernel files k slot) (processStep k).1
    rw [taskNew_procs _ _ htask, loadedKernel_procs] at hself
    generalize startedKernel (loadedKernel files k slot) (processStep k).1 = started at *
    by_cases hneg : r.1 < 0
    · have hstate' := hstate (started.withKmem (started.kmem.withMem r.2)) rfl rfl rfl fun j _ => by
        rw [← hprocesses]
        rfl
      have hstack : ((started.withKmem (started.kmem.withMem r.2)).procs (processStep k).1).stack =
          (stackStep files k).1 := by
        rw [Kernel.withKmem_procs, hself]
      rw [if_pos hneg, processLoadFailed_stack hstack hs] at heq
      simp only [Prod.mk.injEq] at heq
      obtain ⟨rfl, -, rfl⟩ := heq
      exact ⟨(hstate'.release hk hkeep hD).unregistered hk hfree hprocesses hcurrent, hcurrent,
        .failed hneg hprocesses⟩
    · rw [if_neg hneg] at heq
      simp only [Prod.mk.injEq] at heq
      obtain ⟨rfl, rfl, rfl⟩ := heq
      have hupdate : (registered started slot (processStep k).1 r.2).processes =
          Function.update k.processes slot (processStep k).1 := by
        rw [← hprocesses]
        rfl
      have hstate' := hstate (registered started slot (processStep k).1 r.2) rfl rfl rfl
        fun j hj => by rw [hupdate, Function.update_of_ne hj]
      have hcur : (registered started slot (processStep k).1 r.2).currentProcess =
          k.currentProcess := hcurrent
      have hnew := hstate'.joins hk hkeep hD (by rw [hupdate, Function.update_self])
      refine ⟨(hstate'.others hk hkeep hD).registry hk (fun _ => hnew) fun hne => ?_, hcur,
        .registered slot hneg hslot hp hupdate⟩
      rw [hcur] at hne ⊢
      obtain ⟨j, hj⟩ := hk.current hne
      have hjs : j ≠ slot := by
        rintro rfl
        exact hne (hj ▸ hfree)
      exact ⟨j, by rw [hupdate, Function.update_of_ne hjs, hj]⟩

end AlphaOS.Processes
