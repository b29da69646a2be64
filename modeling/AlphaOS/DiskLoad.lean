import AlphaOS.FileLoad
import AlphaOS.RegistryRun
import AlphaOS.ZeroData

/-! A process is loaded from a volume: the file layer keeps to what the load takes for granted, and the
load keeps the files. -/
namespace AlphaOS.Fat16
open BlockHeap CString Elf Files Kheap Paging PathParser Processes Streamer WordMemory

variable {fuel : ℕ} {disk : Disk} {v : Storage FatState} {C : Content} {p : FatPrivate} {b c m n j f a : ℕ}
  {k k' : FileState FatState} {T : Table} {i : Fin maxFiledescriptors} {s s' : Kmem}
  {args : LoadArguments} {name file : List Byte} {new : Role → ℕ} {K : Set ℕ}

lemma KeepsAll.keeps (h : KeepsAll s s') (hK : ∀ b ∈ K, b < 25600) : Keeps K s s' := by
  refine ⟨h.linked, fun b hb hpin => h.pinned (hK b hb) hpin, fun b hb hpin x hx => ?_⟩
  have hlt := hK b hb
  exact (h b 1 one_pos (by omega)).mem hpin x (by omega) (by omega)

/-- The blocks of `K` belong to allocations. -/
def InAllocations (K : Set ℕ) (s : Kmem) : Prop :=
  ∀ d ∈ K, ∃ b n, 0 < n ∧ b + n ≤ 25600 ∧ b ≤ d ∧ d < b + n ∧ Pinned s.entries b n

/-- Blocks of allocations that are kept stay taken, with their contents. -/
lemma spared_of_runs
    (h : ∀ d ∈ K, ∃ b n, b ≤ d ∧ d < b + n ∧ Pinned s.entries b n ∧ KeepsRun b n s s') : Spared K s s' := by
  refine ⟨fun d hd _ => ?_, ?_⟩
  · obtain ⟨b, n, hlow, hhigh, hpin, hkept⟩ := h d hd
    exact (hkept.pinned hpin).taken d hlow hhigh
  · rintro x ⟨d, hd, hx⟩
    obtain ⟨b, n, hlow, hhigh, hpin, hkept⟩ := h d hd
    exact hkept.mem hpin x (by omega) (by omega)

/-- The same for blocks that are known one by one. -/
lemma keeps_of_runs (hlinked : Linked s.entries → Linked s'.entries)
    (h : ∀ b ∈ K, KeepsRun b 1 s s') : Keeps K s s' :=
  ⟨hlinked, fun b hb => (h b hb).pinned, fun b hb hpin x _ => (h b hb).mem hpin x (by omega) (by omega)⟩

section Respects
variable (hread : ReadSteps fuel disk v p C b m k T args i j file a)
  (h : LoadSteps fuel disk v p C b m k T args i j file f new)
  (hK : ∀ b ∈ K, b < 25600 ∧ Pinned k.kmem.entries b 1)
include h hK

/-- The blocks of others and that of the `elf_file` are taken from the first step on. -/
lemma LoadSteps.known {d : ℕ} (hd : d ∈ K ∪ fileBlock k.kmem) :
    d < 25600 ∧ Pinned (fileStep k.kmem).2.entries d 1 := by
  have hlt := h.elfBlock.lt
  rcases hd with hd | ⟨hd, heq⟩
  · obtain ⟨hd', hpin⟩ := hK d hd
    exact ⟨hd', h.elfBlock.keeps.pinned hd' hpin⟩
  · rw [h.elf] at heq
    obtain rfl : f = d := blockAddr_inj (by omega) (by omega) heq
    exact ⟨hd, h.elfBlock.pinned⟩

include hread

/-- The file layer keeps to what the load of a process takes for granted. -/
lemma ReadSteps.respects (hserves : Serves fuel disk v) (hempty : T i = none)
    (hfd : slotOf ((i : ℤ) + 1) = some i) (hsize : Sized file) (hstat : args.stat.toNat + 8 ≤ 2 ^ 24) :
    (diskCalls v fuel k args).Respects K k.kmem := by
  have hlt : ∀ d ∈ K ∪ fileBlock k.kmem, d < 25600 := fun d hd => (h.known hK hd).1
  obtain ⟨hleft, hclosed, -⟩ := hread.closes h hserves hempty hfd
  have hstep := h.fd
  have hstated : KeepsAll (openedFiles v fuel k args).2.kmem (statedFiles v fuel k args).2.kmem :=
    fun b' n' _ _ => h.stated.keepsRun fun x hx hrun => by
      have hlow := pageOf_low hstat hx
      omega
  have hpinned : ∀ d ∈ K ∪ fileBlock k.kmem, Pinned (statedFiles v fuel k args).2.kmem.entries d 1 :=
    fun d hd => hstated.pinned (hlt d hd) (h.openKeeps.pinned (hlt d hd) (h.known hK hd).2)
  constructor
  · rw [openStep_disk]
    exact h.openKeeps.keeps hlt
  · rw [openStep_disk, statStep_disk]
    exact hstated.keeps hlt
  · rw [storeStep_disk, readStep_disk v fuel k args (by omega)]
    refine keeps_of_runs (fun hs => by rw [hread.stored.entries]; exact hs) fun d hd =>
      hread.stored.keepsRun fun x hx hrun => ?_
    have hpage := pageOf_image hread.blocks.pool hsize hx
    exact (hpinned d hd).taken d le_rfl (by omega) (hread.blocks.free d (by omega) (by omega))
  · rw [h.elfLoad_kmem]
    exact keeps_of_runs (fun _ => hleft.directory.linked) fun d hd => hclosed d 1 fun r => by
      have hd' := hlt d hd
      exact (h.newBlock r).2 d 1 one_pos (by omega) (h.known hK hd).2
  · intro d _ hpin
    rw [readStep_disk v fuel k args (by omega)]
    rw [storeStep_disk] at hpin
    rw [hread.stored.entries]
    exact hpin
  · intro d hd hpin
    have hpool := hread.blocks.pool
    have hpos := hsize.blocks.1
    rw [h.elfLoad_kmem]
    refine (hclosed d 1 fun r hin => ?_).pinned hpin
    have hnew := (h.newBlock r).1
    rw [Set.mem_Ico] at hin
    rw [imageStep_disk, hread.image] at hd
    obtain rfl : a = d := blockAddr_inj (by omega) (by omega) hd
    exact hread.new_apart h hstat r (by rw [Set.mem_Ico]; omega)

end Respects

section Spares
variable (h : LoadSteps fuel disk v p C b m k T args i j file f new)
  (hstat : args.stat.toNat + 8 ≤ 2 ^ 24)
include h hstat

/-- An allocation stays while the file is opened. -/
lemma LoadSteps.run_stated {b' n' : ℕ} (hn : 0 < n') (hpool : b' + n' ≤ 25600)
    (hpin : Pinned (fileStep k.kmem).2.entries b' n') :
    Pinned (openedFiles v fuel k args).2.kmem.entries b' n' ∧
      KeepsRun b' n' (openedFiles v fuel k args).2.kmem (statedFiles v fuel k args).2.kmem ∧
      Pinned (statedFiles v fuel k args).2.kmem.entries b' n' := by
  have hopened := (h.openKeeps b' n' hn hpool).pinned hpin
  have hstated : KeepsRun b' n' (openedFiles v fuel k args).2.kmem (statedFiles v fuel k args).2.kmem :=
    h.stated.keepsRun fun x hx hrun => by
      have hlow := pageOf_low hstat hx
      omega
  exact ⟨hopened, hstated, hstated.pinned hopened⟩

variable (hread : ReadSteps fuel disk v p C b m k T args i j file a) (hserves : Serves fuel disk v)
  (hempty : T i = none) (hfd : slotOf ((i : ℤ) + 1) = some i) (hsize : Sized file)
include hread hserves hempty hfd hsize

/-- It stays while the file is read and closed. -/
lemma ReadSteps.run_closed {b' n' : ℕ} (hn : 0 < n') (hpool : b' + n' ≤ 25600)
    (hpin : Pinned (fileStep k.kmem).2.entries b' n') :
    Pinned (storedFiles v fuel k args).kmem.entries b' n' ∧
      KeepsRun b' n' (storedFiles v fuel k args).kmem (readFiles v fuel k args).2.kmem ∧
      Pinned (closeStep (diskCalls v fuel k args) k.kmem).entries b' n' ∧
      KeepsRun b' n' (closeStep (diskCalls v fuel k args) k.kmem) (closedFiles v fuel k args).kmem := by
  obtain ⟨-, -, hstated⟩ := h.run_stated hstat hn hpool hpin
  obtain ⟨-, hclosed, -⟩ := hread.closes h hserves hempty hfd
  have hstored : Pinned (loadImage v fuel k args).2.entries b' n' := hstated.kzalloc hn hpool _
  refine ⟨hstored, hread.stored.keepsRun fun x hx hrun => ?_, by rw [closeStep_entries h hread]; exact hstored,
    hclosed b' n' fun r => (h.newBlock r).2 b' n' hn hpool hpin⟩
  have hpage := pageOf_image hread.blocks.pool hsize hx
  exact hstated.taken (pageOf x - 4096) (by omega) (by omega)
    (hread.blocks.free (pageOf x - 4096) (by omega) (by omega))

/-- The file layer touches neither other allocations nor those of the load. -/
lemma ReadSteps.spares (hK : InAllocations K k.kmem) :
    (diskCalls v fuel k args).Spares K k.kmem := by
  have hlt := h.elfBlock.lt
  have hfdPos := h.fd
  have hruns : ∀ d ∈ K ∪ fileBlock k.kmem, ∃ b n, 0 < n ∧ b + n ≤ 25600 ∧ b ≤ d ∧ d < b + n ∧
      Pinned (fileStep k.kmem).2.entries b n := by
    rintro d (hd | ⟨hd, heq⟩)
    · obtain ⟨b, n, hn, hpool, hlow, hhigh, hpin⟩ := hK d hd
      exact ⟨b, n, hn, hpool, hlow, hhigh, (h.elfBlock.keeps b n hn hpool).pinned hpin⟩
    · rw [h.elf] at heq
      obtain rfl : f = d := blockAddr_inj (by omega) (by omega) heq
      exact ⟨f, 1, one_pos, by omega, le_rfl, by omega, h.elfBlock.pinned⟩
  have himage : ∀ d ∈ imageBlocks (diskCalls v fuel k args) k.kmem, a ≤ d ∧ d < a + fileBlocks file := by
    rintro d ⟨c, haddr, hlow, hd, hhigh⟩
    have hpool := hread.blocks.pool
    have hpos := hsize.blocks.1
    rw [imageStep_disk, hread.image] at haddr
    rw [statStep_disk, h.size] at hhigh
    obtain rfl : a = c := blockAddr_inj (by omega) (by omega) haddr
    exact ⟨hlow, hhigh⟩
  constructor
  · rw [openStep_disk]
    refine spared_of_runs fun d hd => ?_
    obtain ⟨b, n, hn, hpool, hlow, hhigh, hpin⟩ := hruns d hd
    exact ⟨b, n, hlow, hhigh, hpin, h.openKeeps b n hn hpool⟩
  · rw [openStep_disk, statStep_disk]
    refine spared_of_runs fun d hd => ?_
    obtain ⟨b, n, hn, hpool, hlow, hhigh, hpin⟩ := hruns d hd
    obtain ⟨hopened, hstated, -⟩ := h.run_stated hstat hn hpool hpin
    exact ⟨b, n, hlow, hhigh, hopened, hstated⟩
  · rw [storeStep_disk, readStep_disk v fuel k args (by omega)]
    refine spared_of_runs fun d hd => ?_
    obtain ⟨b, n, hn, hpool, hlow, hhigh, hpin⟩ := hruns d hd
    obtain ⟨hstored, hkept, -⟩ := hread.run_closed h hstat hserves hempty hfd hsize hn hpool hpin
    exact ⟨b, n, hlow, hhigh, hstored, hkept⟩
  · intro d _ htaken
    rw [readStep_disk v fuel k args (by omega), hread.stored.entries]
    rw [storeStep_disk] at htaken
    exact htaken
  · rw [h.elfLoad_kmem]
    refine spared_of_runs fun d hd => ?_
    obtain ⟨b, n, hn, hpool, hlow, hhigh, hpin⟩ := hruns d hd
    obtain ⟨-, -, hclose, hkept⟩ := hread.run_closed h hstat hserves hempty hfd hsize hn hpool hpin
    exact ⟨b, n, hlow, hhigh, hclose, hkept⟩
  · rw [h.elfLoad_kmem]
    obtain ⟨-, hclosed, -⟩ := hread.closes h hserves hempty hfd
    refine spared_of_runs fun d hd => ?_
    obtain ⟨hlow, hhigh⟩ := himage d hd
    refine ⟨a, fileBlocks file, hlow, hhigh, ?_, hclosed a (fileBlocks file)
      fun r => hread.new_apart h hstat r⟩
    rw [closeStep_entries h hread]
    exact hread.blocks.pinned

/-- The volume delivers the file. -/
lemma ReadSteps.delivers : (diskCalls v fuel k args).Delivers k.kmem file := by
  have hsmall := hsize.small
  have hfdPos := h.fd
  refine ⟨by omega, fun _ => ?_, fun _ => ?_, fun _ => ?_⟩
  · rw [statStep_disk]
    exact h.size
  · rw [readStep_disk v fuel k args (by omega), imageStep_disk, hread.image]
    exact hread.bytes
  · rw [h.elfLoad_kmem, imageStep_disk, hread.image]
    exact (hread.imageAt h hserves hempty hfd hstat hsize).bytes

omit hstat hserves hempty hfd hsize in
/-- Behind the file the blocks of the image stay as they were. -/
lemma ReadSteps.slack : (diskCalls v fuel k args).KeepsSlack k.kmem file
    (statStep (diskCalls v fuel k args) k.kmem).2.2.mem := by
  have hfdPos := h.fd
  refine ⟨fun _ _ _ _ => rfl, fun x hx => ?_⟩
  rw [imageStep_disk, hread.image] at hx
  rw [readStep_disk v fuel k args (by omega), storeStep_disk]
  exact hread.stored.frame x hx

end Spares

/-! What the rest of the load keeps. -/

variable {q q₁ q' : Kernel} {slot : Fin maxProcesses} {files : FileCalls} {res : ℤ} {process : Word}

/-- Fresh blocks are none of an allocation. -/
lemma keepsAll_grownBy {B : Set ℕ} (h : GrownBy s s' B) (hlinked : Linked s'.entries) : KeepsAll s s' := by
  intro b n hn hpool
  by_cases hpin : Pinned s.entries b n
  swap
  · exact ⟨fun _ => hlinked, fun h => absurd h hpin, fun h => absurd h hpin⟩
  have hnot : ∀ d, b ≤ d → d < b + n → d ∉ B := fun d hlow hhigh hd =>
    hpin.taken d hlow hhigh (h.fresh d hd).2
  refine ⟨fun _ => hlinked, fun _ => ⟨fun d hlow hhigh => ?_, ?_⟩, fun _ x hlow hhigh => h.mem x ?_⟩
  · rw [IsFree, h.same d fun e he heq => hnot d hlow hhigh (by rwa [Nat.cast_inj.1 heq])]
    exact hpin.taken d hlow hhigh
  · obtain ⟨l, hlow, hlt, hlast, hstop⟩ := hpin.barrier
    refine ⟨l, hlow, hlt, hlast, ?_⟩
    by_cases hin : ∃ e ∈ B, l = e
    · obtain ⟨e, he, rfl⟩ := hin
      rw [NoNext, h.taken e he]
      decide
    · rw [NoNext, h.same l fun e he heq => hin ⟨e, he, heq⟩]
      exact hstop
  · rintro (h0 | ⟨d, hd, heq⟩)
    · omega
    · exact hnot d (by omega) (by omega) hd

/-- The task and the mapping keep all allocations. -/
lemma mappedState_keepsAll (h : MappedState files q slot q₁)
    (hlinked : Linked (stackStep files q).2.entries) : KeepsAll (stackStep files q).2 q₁.kmem := by
  obtain ⟨B, dir, table, hgrown, hdir, hpointers, -⟩ :=
    taskNew_held (loadedKernel files q slot) (processStep q).1 h.task
  obtain ⟨r, hmap, hkmem⟩ := h.memory
  have hdirectory := startedKernel_pageDirectory (loadedKernel files q slot) (processStep q).1
  rw [← startedKernel_kmem, loadedKernel_kmem] at hgrown
  rw [← hdirectory, ← startedKernel_kmem] at hdir
  have hmapped := processMapMemory_keeps hdir hmap
  have hstarted := (grownBy_linked hgrown hlinked).1
  rw [hkmem]
  generalize startedKernel (loadedKernel files q slot) (processStep q).1 = started at *
  intro b n hn hpool
  by_cases hpin : Pinned (stackStep files q).2.entries b n
  swap
  · exact ⟨fun _ => hstarted, fun h => absurd h hpin, fun h => absurd h hpin⟩
  refine (keepsAll_grownBy hgrown hstarted b n hn hpool).trans
    (keepsRun_withMem fun x hlow hhigh => hmapped.off x ?_)
  rintro ⟨i, hi, heq⟩
  obtain ⟨d, hd, hdeq⟩ := hpointers _ (.inr (.inr (.inr ⟨i, hi, rfl⟩)))
  have hlt := (hgrown.fresh d hd).1
  rw [hdeq, pageOf_blockAddr (by omega)] at heq
  exact hpin.taken d (by omega) (by omega) (hgrown.fresh d hd).2

/-- An allocation that is given back later. -/
lemma kzalloc_release_later {size : Word} (hlinked : Linked s.entries) (hne : (kzalloc s size).1 ≠ 0)
    (hpos : 0 < (heapBlocksFor size).toNat) (hlt : size.toNat < 2 ^ 31)
    (hkept : KeepsAll (kzalloc s size).2 s') : KeepsAll s (kfree s' (kzalloc s size).1) := by
  obtain ⟨d, hd, haddr, hfree, hnew⟩ := hlinked.kzalloc_pinned hne hpos
  have hpin := hkept.pinned hd hnew
  rw [haddr]
  intro b n hn hpool
  have hrun : KeepsRun b n s s' := (keepsRun_kzalloc hn hpool hlt).trans (hkept b n hn hpool)
  refine ⟨fun hs => (hrun.linked hs).kfree_pinned hpin (by omega), fun hb => ?_, fun hb => hrun.mem hb⟩
  have hout : d ∉ Set.Ico b (b + n) := fun hmem => hb.taken d hmem.1 hmem.2 hfree
  exact (keepsRun_kfree (hpin.droppable hd hout)).pinned (hrun.pinned hb)

/-- An allocation stores to free pages only. -/
lemma TailFree.kzalloc_mem {size : Word} (h : TailFree s c) (hpos : 0 < (heapBlocksFor size).toNat)
    (hroom : c + (heapBlocksFor size).toNat ≤ 25600) {x : Word} (hx : pageOf x ∉ freePages s) :
    (Kheap.kzalloc s size).2.mem x = s.mem x := by
  obtain ⟨b, hb, -, heq⟩ := kzalloc_room s hpos ⟨c, hroom, fun j hlow hhigh => h j hlow (by omega)⟩
  have hpool := hb.1
  have hcover := heapBlocksFor_toNat hpos
  apply kzalloc_mem_of_not
  intro _ hin
  rw [heq] at hin
  have hpage := @pageOf_inRange b (heapBlocksFor size).toNat _ (by omega) (by omega) x hin
  exact hx ⟨pageOf x - 4096, by omega, hb.2 _ (by omega) (by omega), by omega⟩

lemma kzalloc_freePages (s : Kmem) (size : Word) : freePages (kzalloc s size).2 ⊆ freePages s := by
  rintro _ ⟨d, hd, hfree, rfl⟩
  refine ⟨d, hd, ?_, rfl⟩
  by_contra hnot
  rw [IsFree, kzalloc_taken s size hd hnot] at hfree
  exact hnot hfree

/-- What is free behind a load. -/
lemma ReadSteps.tail (hread : ReadSteps fuel disk v p C b m k T args i j file a)
    (h : LoadSteps fuel disk v p C b m k T args i j file f new) (hserves : Serves fuel disk v)
    (hempty : T i = none) (hfd : slotOf ((i : ℤ) + 1) = some i) (hsize : Sized file)
    (hfree : TailFree (statedFiles v fuel k args).2.kmem c) (hroom : c + fileBlocks file ≤ 25600) :
    TailFree (closedFiles v fuel k args).kmem (c + fileBlocks file) := by
  obtain ⟨-, -, htail⟩ := hread.closes h hserves hempty hfd
  have himage : TailFree (loadImage v fuel k args).2 (c + fileBlocks file) := by
    rw [loadImage, h.size]
    exact (TailFree.kzalloc hfree hsize.blocks.1 hroom).2
  refine htail _ fun d hlow hhigh => ?_
  rw [closeStep_entries h hread]
  exact himage d hlow hhigh

/-- The mapping of an ELF process returns. -/
lemma processMapMemory_elf {mem : Mem} {directory : Word} {process : Process}
    (helf : process.fileType = Tasks.processFiletypeElf) :
    ∃ r, processMapMemory mem directory process = some r := by
  rw [processMapMemory, if_pos helf, Option.map_some]
  exact ⟨_, rfl⟩

/-- Behind the file a load keeps all allocations, and it returns, with a process that has the file. -/
lemma processLoad_keepsAll (hfreeSlot : processGetFreeSlot q = some slot) (hp : (processStep q).1 ≠ 0)
    (hs : (stackStep files q).1 ≠ 0)
    (htask : Tasks.isErr (Tasks.taskNew (loadedKernel files q slot) (processStep q).1).1 = false)
    (hlinked : Linked (dataStep files q).2.2.entries) : ∃ res process q',
    processLoad files q = some (res, process, q') ∧ KeepsAll (dataStep files q).2.2 q'.kmem ∧
      (¬ res < 0 → (q'.procs process).data = (dataStep files q).2.1) := by
  have hload : processLoad files q = processStart (loadedKernel files q slot) (processStep q).1 slot := by
    rw [processLoad_some hfreeSlot, processLoadForSlot_eq (processGetFreeSlot_free hfreeSlot), if_neg hp,
      if_neg hs]
  have hself := startedKernel_procs (loadedKernel files q slot) (processStep q).1
  rw [taskNew_procs _ _ htask, loadedKernel_procs] at hself
  obtain ⟨hprocesses, -⟩ := @startedKernel_table files q slot htask
  obtain ⟨r, hmap⟩ := @processMapMemory_elf
    (startedKernel (loadedKernel files q slot) (processStep q).1).kmem.mem
    ((startedKernel (loadedKernel files q slot) (processStep q).1).pageDirectory (processStep q).1)
    ((startedKernel (loadedKernel files q slot) (processStep q).1).procs (processStep q).1) (by rw [hself]; rfl)
  have hstate : ∀ q₁ : Kernel,
      q₁.kmem = (startedKernel (loadedKernel files q slot) (processStep q).1).kmem.withMem r.2 →
      q₁.procs = (startedKernel (loadedKernel files q slot) (processStep q).1).procs →
      q₁.tasks = (startedKernel (loadedKernel files q slot) (processStep q).1).tasks →
      q₁.processes = q.processes → MappedState files q slot q₁ :=
    fun q₁ hkmem hprocs htasks hsame =>
      ⟨htask, ⟨r, hmap, hkmem⟩, hprocs, htasks, fun j _ => by rw [hsame]⟩
  have hsize : (userProgramStackSize : Word).toNat < 2 ^ 31 := by decide
  have hstack : KeepsAll (dataStep files q).2.2 (stackStep files q).2 := fun _ _ hn hpool =>
    keepsRun_kzalloc hn hpool hsize
  rw [hload, processStart_eq, hmap]
  generalize startedKernel (loadedKernel files q slot) (processStep q).1 = started at *
  have hkept := mappedState_keepsAll
    (hstate (started.withKmem (started.kmem.withMem r.2)) rfl rfl rfl hprocesses) (hstack.linked hlinked)
  by_cases hneg : r.1 < 0
  · have hrecord : ((started.withKmem (started.kmem.withMem r.2)).procs (processStep q).1).stack =
        (stackStep files q).1 := by rw [Kernel.withKmem_procs, hself]
    refine ⟨_, _, _, by rw [Option.map_some, if_pos hneg, processLoadFailed_stack hrecord hs], ?_,
      fun hpos => absurd hneg hpos⟩
    exact kzalloc_release_later hlinked hs (by decide) hsize hkept
  · refine ⟨_, _, _, by rw [Option.map_some, if_neg hneg], hstack.trans ?_, fun _ => ?_⟩
    · exact hkept
    · rw [registered_procs, hself]
      rfl

/-- The file layer keeps to what the load of a process takes for granted. -/
structure MeetsLoad (files : FileCalls) (q : Kernel) (file : List Byte) : Prop where
  respects : files.Respects (heldBlocks q ∪ processBlock q) (processStep q).2
  spares : ∀ K, InAllocations K (processStep q).2 → files.Spares K (processStep q).2
  delivers : files.Delivers (processStep q).2 file
  slack : files.KeepsSlack (processStep q).2 file (statStep files (processStep q).2).2.2.mem

/-- A process whose file is read from a volume, up to its task. -/
structure DiskStage (fuel : ℕ) (disk : Disk) (v : Storage FatState) (p : FatPrivate) (C : Content) (b m : ℕ)
    (files : FileCalls) (closed : FileState FatState) (T : Table) (q : Kernel) (file : List Byte) : Prop where
  process_ne : (processStep q).1 ≠ 0
  stack_ne : (stackStep files q).1 ≠ 0
  layer : MeetsLoad files q file
  meets : LoadMeets files q
  holds : Holds fuel disk v p C b m closed T
  kmem : (dataStep files q).2.2 = closed.kmem
  image : 46 ≤ file.length → elfValidateLoaded (fileMem file) 0 = 0 →
    ∃ f a, (dataStep files q).2.1 = blockAddr f ∧ ImageAt closed.kmem file f a

lemma Holds.diskStage (h : Holds fuel disk v p C b m k T) (hq : Registry q) (hkmem : k.kmem = q.kmem)
    (hready : Ready disk p) (hserves : Serves fuel disk v) (hrequest : LoadRequest k args name)
    (hnamed : NamedFile fuel C name j) (hfile : FileBytes disk p C j file) (hsize : Sized file)
    (hslot : emptySlot k.fileDescriptors = some i) (hfd : slotOf ((i : ℤ) + 1) = some i)
    (hfree : TailFree k.kmem c) (hroom : c + 17 + fileBlocks file + 1028 ≤ 25600) :
    DiskStage fuel disk v p C b m (diskCalls v fuel (k.withKmem (processStep q).2) args)
      (closedFiles v fuel (k.withKmem (processStep q).2) args) T q file := by
  obtain ⟨hempty, -⟩ := h.emptySlot_some hslot
  have hcount : (heapBlocksFor 9364).toNat = 3 := by decide
  have hstackCount : (heapBlocksFor userProgramStackSize).toNat = 4 := by decide
  rw [hkmem] at hfree
  obtain ⟨hp, hfree₁⟩ := @TailFree.kzalloc q.kmem c 9364 hfree (by omega) (by omega)
  rw [hcount] at hfree₁
  have h₁ : Holds fuel disk v p C b m (k.withKmem (processStep q).2) T := by
    refine h.keepsAll fun _ _ hn hpool => ?_
    rw [hkmem]
    exact keepsRun_kzalloc hn hpool (by decide)
  have hrequest₁ : LoadRequest (k.withKmem (processStep q).2) args name := by
    apply hrequest.other
    · rw [hkmem]
      exact fun x hx => TailFree.kzalloc_mem hfree (by omega) (by omega) hx
    · rw [hkmem]
      exact kzalloc_freePages q.kmem 9364
  obtain ⟨f, new, hsteps, hfree₂⟩ := h₁.loadSteps hready hserves hrequest₁ hnamed hfile hslot hfd hfree₁
    (by omega)
  obtain ⟨a, hread⟩ := hsteps.readSteps hready hserves hfile hsize hrequest.stat hfd hfree₂ (by omega)
  have hfree₃ := hread.tail hsteps hserves hempty hfd hsize hfree₂ (by omega)
  have hlayer : MeetsLoad (diskCalls v fuel (k.withKmem (processStep q).2) args) q file :=
    ⟨hread.respects hsteps (fun _ hb => processStep_held hq hb) hserves hempty hfd hsize hrequest.stat,
      fun _ hK => hread.spares hsteps hrequest.stat hserves hempty hfd hsize hK,
      hread.delivers hsteps hrequest.stat hserves hempty hfd hsize, hread.slack hsteps⟩
  obtain ⟨hleft, -⟩ := hread.closes hsteps hserves hempty hfd
  have hstat := statStep_disk v fuel (k.withKmem (processStep q).2) args
  rw [hsteps.size] at hstat
  have himage : 46 ≤ file.length → elfValidateLoaded (fileMem file) 0 = 0 → ∃ f a,
      (dataStep (diskCalls v fuel (k.withKmem (processStep q).2) args) q).2.1 = blockAddr f ∧
        ImageAt (closedFiles v fuel (k.withKmem (processStep q).2) args).kmem file f a := by
    intro hheader hvalid
    have hloads := (hread.loads_iff hsteps hrequest.stat hsize hheader).2 hvalid
    exact ⟨f, a, hsteps.elfLoad_file hloads, hread.imageAt hsteps hserves hempty hfd hrequest.stat hsize⟩
  have hclosed : (dataStep (diskCalls v fuel (k.withKmem (processStep q).2) args) q).2.2 =
      (closedFiles v fuel (k.withKmem (processStep q).2) args).kmem := hsteps.elfLoad_kmem
  generalize closedFiles v fuel (k.withKmem (processStep q).2) args = closed at *
  generalize diskCalls v fuel (k.withKmem (processStep q).2) args = files at *
  obtain ⟨hs, hfree₄⟩ := @TailFree.kzalloc closed.kmem _ userProgramStackSize hfree₃ (by omega) (by omega)
  rw [hstackCount] at hfree₄
  rw [← hclosed] at hs hfree₄
  refine ⟨hp, hs, hlayer, ⟨.inr ?_, fun slot _ _ _ =>
    (Tasks.taskNew_ok _ _ (Finset.Ico (c + 17 + fileBlocks file) 25600) ?_ ?_).1⟩, hleft, hclosed, himage⟩
  · change (statStep files (k.withKmem (processStep q).2).kmem).2.1.toNat < 2 ^ 31
    have hsmall := hsize.small
    rw [hstat, hsize.length_toNat]
    omega
  · rw [Nat.card_Ico]
    omega
  · intro d hd
    obtain ⟨hlow, hhigh⟩ := Finset.mem_Ico.1 hd
    exact ⟨hhigh, hfree₄ d (by omega) hhigh⟩

/-- A process is loaded from a volume. The load returns and registers the process in the first free slot
or leaves the table of processes as it was; the other processes and the files that are open stay. The
process of an ELF file has all bytes of the file in its image, and the file layer keeps to what loads take
for granted. -/
theorem processLoad_disk (hq : Registry q) (hfreeSlot : processGetFreeSlot q = some slot)
    (h : Holds fuel disk v p C b m k T) (hkmem : k.kmem = q.kmem) (hready : Ready disk p)
    (hserves : Serves fuel disk v) (hrequest : LoadRequest k args name) (hnamed : NamedFile fuel C name j)
    (hfile : FileBytes disk p C j file) (hsize : Sized file) (hslot : emptySlot k.fileDescriptors = some i)
    (hfd : slotOf ((i : ℤ) + 1) = some i) (hfree : TailFree k.kmem c)
    (hroom : c + 17 + fileBlocks file + 1028 ≤ 25600) : ∃ res process q',
    processLoad (diskCalls v fuel (k.withKmem (processStep q).2) args) q = some (res, process, q') ∧
      Registry q' ∧ q'.currentProcess = q.currentProcess ∧ LoadOutcome q res process q' ∧
      Holds fuel disk v p C b m
        ((closedFiles v fuel (k.withKmem (processStep q).2) args).withKmem q'.kmem) T ∧
      (¬ res < 0 → 46 ≤ file.length → elfValidateLoaded (fileMem file) 0 = 0 →
        BytesAt q'.kmem.mem (elfMemory q'.kmem.mem (q'.procs process).data) file) ∧
      MeetsLoad (diskCalls v fuel (k.withKmem (processStep q).2) args) q file := by
  have hstage := h.diskStage hq hkmem hready hserves hrequest hnamed hfile hsize hslot hfd hfree hroom
  generalize closedFiles v fuel (k.withKmem (processStep q).2) args = closed at hstage ⊢
  generalize diskCalls v fuel (k.withKmem (processStep q).2) args = files at hstage ⊢
  obtain ⟨hp, hs, hlayer, hmeets, hleft, hclosed, himage⟩ := hstage
  obtain ⟨res, process, q', hload, hkept, hdata⟩ := processLoad_keepsAll hfreeSlot hp hs
    (hmeets.task slot hfreeSlot hp hs) (by rw [hclosed]; exact hleft.directory.linked)
  obtain ⟨hregistry, hcurrent, houtcome⟩ := hq.load hlayer.respects hmeets hload
  rw [hclosed] at hkept
  refine ⟨res, process, q', hload, hregistry, hcurrent, houtcome, hleft.keepsAll hkept,
    fun hres hheader hvalid => ?_, hlayer⟩
  obtain ⟨f, a, haddr, hat⟩ := himage hheader hvalid
  have hlt := hat.lt
  obtain ⟨-, -, -, -, hpointer, hbytes⟩ := hat.keeps hsize (hkept f 1 one_pos (by omega))
    (hkept a (fileBlocks file) hsize.blocks.1 hat.pool)
  rw [hdata hres, haddr, hpointer]
  exact hbytes

theorem processLoad_disk_program : ∃ (k : FileState FatState) (b : ℕ) (res : ℤ) (process : Word) (q' : Kernel),
    processLoad (diskCalls programStorage 110 (k.withKmem (processStep (zeroKernel k.kmem)).2)
        ⟨0x1000, 0x1005, 0x3000⟩) (zeroKernel k.kmem) = some (res, process, q') ∧
      Registry q' ∧ q'.currentProcess = 0 ∧ LoadOutcome (zeroKernel k.kmem) res process q' ∧
      Holds 110 programDisk programStorage k.fs.fsPrivate programContent b 4
        ((closedFiles programStorage 110 (k.withKmem (processStep (zeroKernel k.kmem)).2)
          ⟨0x1000, 0x1005, 0x3000⟩).withKmem q'.kmem) (fun _ => none) ∧
      (¬ res < 0 → BytesAt q'.kmem.mem (elfMemory q'.kmem.mem (q'.procs process).data)
        (oneSegment codeSegment)) ∧
      MeetsLoad (diskCalls programStorage 110 (k.withKmem (processStep (zeroKernel k.kmem)).2)
        ⟨0x1000, 0x1005, 0x3000⟩) (zeroKernel k.kmem) (oneSegment codeSegment) := by
  obtain ⟨k, b, hready, hlaid, hfree, hrequest, hslot, hholds⟩ := programKernel_holds
  have hblocks := fileBlocks_oneSegment codeSegment
  have hboot : Boot (zeroKernel k.kmem) := ⟨hholds.directory.linked, fun _ => rfl, rfl⟩
  have hfreeSlot : processGetFreeSlot (zeroKernel k.kmem) = some 0 :=
    Fin.find?_eq_some_iff.2 ⟨by simp [zeroKernel], fun i hi => absurd hi (Nat.not_lt_zero _)⟩
  obtain ⟨res, process, q', hload, hregistry, hcurrent, houtcome, hleft, himage, hlayer⟩ := processLoad_disk
    hboot.registry hfreeSlot hholds rfl hready programStorage_serves hrequest programContent_named
    (programDisk_bytes hlaid) (elfImage_oneSegment codeSegment).sized hslot (by decide) hfree (by omega)
  exact ⟨k, b, res, process, q', hload, hregistry, hcurrent, houtcome, hleft,
    fun hres => himage hres (by decide) (elfImage_oneSegment codeSegment).valid, hlayer⟩

end AlphaOS.Fat16
