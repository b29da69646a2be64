import AlphaOS.LoadFailure
import AlphaOS.ProcessAlloc
import AlphaOS.RegistryLoad
import AlphaOS.ServedFile

/-! Loads on a heap that is taken up to a block and free from there on: they fill it in order, and
write nothing below the pool. -/
namespace AlphaOS.Processes
open BlockHeap CString Elf Kheap Paging Tasks WordMemory

/-- The pages of the pool and above. -/
abbrev highPages : Set ℕ := Set.Ici 4096

variable {s : Kmem} {c d : ℕ}

lemma high_block {b : ℕ} (hb : b < 25600) : pageOf (blockAddr b) ∈ highPages := by
  rw [pageOf_blockAddr (by omega), Set.mem_Ici]
  omega

lemma sameOff_high {S : Set ℕ} {m m' : Mem} (h : SameOff S m m') (hS : ∀ p ∈ S, 4096 ≤ p) :
    SameOff highPages m m' := h.mono hS

lemma high_trans {m m' m'' : Mem} (h : SameOff highPages m m') (h' : SameOff highPages m' m'') :
    SameOff highPages m m'' := by
  have hboth := h.trans h'
  rwa [Set.union_self] at hboth

/-- What lies below the pool is in no allocation. -/
lemma low_not_inRange {b n : ℕ} (hb : b < 25600) (hn : n < 2 ^ 31) {x : Word}
    (hx : pageOf x ∉ highPages) : ¬ InRange (blockAddr b) n x := by
  intro hin
  refine hx ?_
  have hlt := x.isLt
  have haddr := blockAddr_toNat (b := b) (by omega)
  unfold InRange at hin
  rw [BitVec.toNat_sub, haddr] at hin
  rw [Set.mem_Ici, pageOf]
  omega

/-- A request clears nothing below the pool. -/
lemma kzalloc_high (s : Kmem) {size : Word} (hsize : size.toNat < 2 ^ 31) :
    SameOff highPages s.mem (kzalloc s size).2.mem := by
  intro x hx
  rcases kzalloc_shape s size with heq | ⟨b, hb, -, heq⟩
  · rw [heq]
  · rw [heq]
    exact if_neg (low_not_inRange hb hsize hx)

lemma frontier_withMem (h : Frontier s c) (mem : Mem) : Frontier (s.withMem mem) c :=
  ⟨h.taken, h.free⟩

lemma frontier_allocated (h : Frontier s c) {size : Word} {n : ℕ} (hn : (heapBlocksFor size).toNat = n)
    (hpos : 0 < n) (hroom : c + n ≤ 25600) : Allocated (kzalloc s size).2.kernelHeap c n := by
  subst hn
  rw [(h.kzalloc hpos hroom).1]
  exact allocated_take hpos ⟨hroom, fun j h1 h2 => h.free j h1 (by omega)⟩

lemma allocated_not_free {s : Kmem} {c : ℕ} (h : Allocated s.kernelHeap c 1) : ¬ IsFree s.entries c :=
  h.not_free ⟨le_rfl, by omega⟩

/-- The tables of a directory. -/
lemma pagingNewTables_frontier (h : Frontier s c) (hd : d < 25600) (flags : Word) (k i : ℕ)
    (hk : i + k ≤ 1024) (hroom : c + k ≤ 25600) (offset : Word) :
    Frontier (pagingNewTables (blockAddr d) flags k i offset s) (c + k) ∧
    SameOff highPages s.mem (pagingNewTables (blockAddr d) flags k i offset s).mem := by
  induction k generalizing s c i offset with
  | zero => exact ⟨h, SameOff.refl _ _⟩
  | succ k ih =>
    obtain ⟨hentry, hnext⟩ := frontier_block h (show (heapBlocksFor 4096).toNat = 1 by decide) (by omega)
    have hclear := kzalloc_high s (show (4096 : Word).toNat < 2 ^ 31 by decide)
    rw [pagingNewTables]
    generalize kzalloc s 4096 = entry at hentry hnext hclear ⊢
    obtain ⟨a, s₁⟩ := entry
    dsimp only at hentry hnext hclear ⊢
    subst hentry
    have hfill := (pagingFillTable_spec (blockAddr_aligned (b := c) (by omega)) offset flags 1024 0
      le_rfl s₁.mem).1
    have hwrite := write32_slot_sameOff (pagingFillTable (blockAddr c) offset flags 1024 0 s₁.mem)
      (blockAddr_aligned (b := d) (by omega)) (show i < 1024 by omega)
      (blockAddr c ||| flags ||| pagingIsWritable)
    have hlow := high_trans (sameOff_high hfill (by rintro p rfl; exact high_block (by omega)))
      (sameOff_high hwrite (by rintro p rfl; exact high_block hd))
    obtain ⟨hlast, hmem⟩ := ih (frontier_withMem hnext _) (i + 1) (by omega) (by omega)
      (offset + 0x400000)
    rw [Nat.add_assoc, Nat.add_comm 1 k] at hlast
    exact ⟨hlast, high_trans (high_trans hclear hlow) hmem⟩

/-- A directory and its chunk. -/
lemma pagingNew4gb_frontier (h : Frontier s c) (flags : Byte) (hroom : c + 1026 ≤ 25600) :
    (pagingNew4gb s flags).1 = blockAddr (c + 1025) ∧
    Frontier (pagingNew4gb s flags).2 (c + 1026) ∧
    SameOff highPages s.mem (pagingNew4gb s flags).2.mem := by
  obtain ⟨hdir, hnext⟩ := frontier_block h (show (heapBlocksFor 4096).toNat = 1 by decide) (by omega)
  have hclear := kzalloc_high s (show (4096 : Word).toNat < 2 ^ 31 by decide)
  obtain ⟨s₁, hs₁⟩ : ∃ s₁, kzalloc s 4096 = (blockAddr c, s₁) :=
    ⟨_, Prod.ext hdir rfl⟩
  rw [hs₁] at hnext hclear
  obtain ⟨htables, hmem⟩ := @pagingNewTables_frontier s₁ (c + 1) c hnext (by omega)
    (flags.setWidth 32) 1024 0 le_rfl (by omega) 0
  obtain ⟨t, ht⟩ : ∃ t, pagingNewTables (blockAddr c) (flags.setWidth 32) 1024 0 0 s₁ = t := ⟨_, rfl⟩
  rw [ht] at htables hmem
  obtain ⟨hchunk, hlast⟩ := frontier_block htables (show (heapBlocksFor 4).toNat = 1 by decide) (by omega)
  have hclear' := kzalloc_high t (show (4 : Word).toNat < 2 ^ 31 by decide)
  obtain ⟨s₂, hs₂⟩ : ∃ s₂, kzalloc t 4 = (blockAddr (c + 1025), s₂) := by
    refine ⟨(kzalloc t 4).2, Prod.ext ?_ rfl⟩
    rw [hchunk, Nat.add_assoc]
  rw [hs₂] at hlast hclear'
  rw [pagingNew4gb_eq hs₁ ht hs₂]
  have haddr := blockAddr_toNat (b := c + 1025) (by omega)
  have hwrite := write32_sameOff s₂.mem (a := blockAddr (c + 1025)) (by omega) (blockAddr c)
  refine ⟨rfl, ?_, ?_⟩
  · exact frontier_withMem hlast _
  · exact high_trans (high_trans (high_trans hclear hmem) hclear')
      (sameOff_high hwrite (by rintro p rfl; exact high_block (by omega)))

/-- A task with its directory. -/
lemma taskNew_frontier {k : Kernel} (h : Frontier k.kmem c) (process : Word)
    (hroom : c + 1027 ≤ 25600) :
    isErr (taskNew k process).1 = false ∧ Frontier (taskNew k process).2.kmem (c + 1027) ∧
    SameOff highPages k.kmem.mem (taskNew k process).2.kmem.mem := by
  obtain ⟨htask, hnext⟩ := frontier_block h (show (heapBlocksFor 64).toNat = 1 by decide) (by omega)
  have hclear := kzalloc_high k.kmem (show (64 : Word).toNat < 2 ^ 31 by decide)
  obtain ⟨s₁, hs₁⟩ : ∃ s₁, kzalloc k.kmem 64 = (blockAddr c, s₁) := ⟨_, Prod.ext htask rfl⟩
  rw [hs₁] at hnext hclear
  obtain ⟨hchunk, hlast, hmem⟩ := pagingNew4gb_frontier hnext 0b101 (by omega)
  generalize hnew : pagingNew4gb s₁ 0b101 = r at hchunk hlast hmem
  obtain ⟨chunk, s₂⟩ := r
  dsimp only at hchunk hlast hmem
  subst hchunk
  rw [taskNew_eq (by omega) hs₁ hnew (blockAddr_ne_zero (by omega)), taskListAppend_kmem]
  refine ⟨?_, ?_, high_trans hclear hmem⟩
  · have haddr := blockAddr_toNat (b := c) (by omega)
    simp only [isErr, BitVec.toInt_eq_toNat_of_lt (show 2 * (blockAddr c).toNat < 2 ^ 32 by omega)]
    exact decide_eq_false (by omega)
  · have hcount : c + 1 + 1026 = c + 1027 := by omega
    rw [hcount] at hlast
    exact hlast

lemma low_word {m m' : Mem} (h : SameOff highPages m m') {a : Word} (ha : a.toNat % 4 = 0)
    (hlow : a.toNat < 16777216) : read32 m' a = read32 m a := by
  refine h.read32 ha ?_
  rw [Set.mem_Ici, pageOf]
  omega

lemma low_phnum {m m' : Mem} (h : SameOff highPages m m') : elfPhnum m' 0 = elfPhnum m 0 := by
  refine elfPhnum_congr fun n hn => h _ ?_
  rw [Set.mem_Ici, pageOf, zero_add, BitVec.toNat_ofNat]
  omega

/-- A process without a file is mapped when there are no program headers at address 0. -/
lemma processMapMemory_noFile {mem : Mem} {chunk dir : Word} {table : ℕ → Word} {p : Process}
    (hdir : PageDir mem chunk dir table) (helf : p.fileType = processFiletypeElf) (hdata : p.data = 0)
    (hheader : elfMemory mem 0 = 0) (hphnum : elfPhnum mem 0 = 0) :
    ∃ mem', processMapMemory mem chunk p = some (0, mem') ∧ Mapped mem mem' chunk dir table := by
  have hmap : processMapElf mem chunk p = (0, mem) := by
    have hnull : elfHeader mem p.data = 0 := by
      rw [hdata]
      exact hheader
    rw [processMapElf, hnull]
    generalize elfPheader mem 0 = phdrs
    change processMapElfLoop chunk p.data 0 phdrs (65535 + 1) 0 0 mem = _
    rw [processMapElfLoop, hphnum]
    exact if_neg (Nat.not_lt_zero _)
  obtain ⟨mem', hmem'⟩ : ∃ mem', processMapMemory mem chunk p = some (0, mem') := by
    rw [processMapMemory, if_pos helf, hmap, Option.map_some, if_neg (lt_irrefl 0)]
    exact ⟨_, rfl⟩
  exact ⟨mem', hmem', processMapMemory_keeps hdir hmem'⟩

/-- The load of a missing file, up to the task. -/
lemma stackStep_missing {k : Kernel} (h : Frontier (processStep k).2 c) (hroom : c + 5 ≤ 25600) :
    (stackStep missing k).1 = blockAddr (c + 1) ∧ Frontier (stackStep missing k).2 (c + 5) ∧
    SameOff highPages k.kmem.mem (stackStep missing k).2.mem ∧
    ∀ b < c, (stackStep missing k).2.entries b = (processStep k).2.entries b := by
  have hdata : dataStep missing k = (0, 0, (fileStep (processStep k).2).2) := elfLoad_missing _
  obtain ⟨-, hfile⟩ := fileStep_frontier h (by omega)
  have hstruct : SameOff highPages k.kmem.mem (processStep k).2.mem := kzalloc_high _ (by decide)
  have hopened : SameOff highPages (processStep k).2.mem (fileStep (processStep k).2).2.mem :=
    kzalloc_high _ (by decide)
  have hkept : ∀ b < c, (fileStep (processStep k).2).2.entries b = (processStep k).2.entries b :=
    fun b hb => kzalloc_taken _ _ (by omega) (h.taken b hb)
  rw [stackStep, hdata]
  dsimp only
  generalize (fileStep (processStep k).2).2 = s at *
  have hcount : (heapBlocksFor userProgramStackSize).toNat = 4 := by decide
  obtain ⟨hstack, hend⟩ := hfile.kzalloc (show 0 < (heapBlocksFor userProgramStackSize).toNat by omega)
    (by omega)
  rw [hcount] at hend
  have haddr : (kzalloc s userProgramStackSize).1 = blockAddr (c + 1) := by rw [hstack]
  refine ⟨haddr, ?_, ?_, fun b hb => ?_⟩
  · exact hend
  · exact high_trans (high_trans hstruct hopened) (kzalloc_high _ (by decide))
  · rw [← hkept b hb]
    exact kzalloc_taken _ _ (by omega) (hfile.taken b (by omega))

/-- The load of a missing file on a heap that is taken up to block `c` once the process structure is
allocated. -/
theorem processLoad_missing {k : Kernel} {slot : Fin maxProcesses} {p : ℕ}
    (hslot : processGetFreeSlot k = some slot) (hp : p < 25600)
    (hprocess : (processStep k).1 = blockAddr p) (h : Frontier (processStep k).2 c)
    (hroom : c + 1032 ≤ 25600) (hheader : elfMemory k.kmem.mem 0 = 0)
    (hphnum : elfPhnum k.kmem.mem 0 = 0) :
    isErr (taskNew (loadedKernel missing k slot) (processStep k).1).1 = false ∧
    ∃ k', processLoad missing k = some (0, blockAddr p, k') ∧
      k'.processes = Function.update k.processes slot (blockAddr p) ∧
      k'.currentProcess = k.currentProcess ∧ Frontier k'.kmem (c + 1032) ∧
      SameOff highPages k.kmem.mem k'.kmem.mem ∧
      (∀ b < c, k'.kmem.entries b = (processStep k).2.entries b) ∧
      ∀ a, a.toNat < 16777216 ∨ 4278190080 ≤ a.toNat →
        (k'.tasks a).pageDirectory = (k.tasks a).pageDirectory := by
  obtain ⟨hstack, hend, hlow, hkept⟩ := stackStep_missing h (by omega)
  have hne : ∀ b < 25600, blockAddr b ≠ 0 := fun b hb => blockAddr_ne_zero (by omega)
  rw [← loadedKernel_kmem missing k slot] at hend
  obtain ⟨htask, hlast, hmem⟩ := taskNew_frontier hend (processStep k).1 (by omega)
  obtain ⟨B, dir, table, hgrown, hdir, hpointers, htasks, -⟩ :=
    taskNew_held (loadedKernel missing k slot) (processStep k).1 htask
  obtain ⟨hprocesses, hcurrent⟩ := @startedKernel_table missing k slot htask
  have hself := startedKernel_procs (loadedKernel missing k slot) (processStep k).1
  rw [taskNew_procs _ _ htask, loadedKernel_procs] at hself
  rw [← startedKernel_pageDirectory, ← startedKernel_kmem] at hdir
  rw [← startedKernel_kmem] at hgrown hlast hmem
  rw [← startedKernel_tasks, loadedKernel_tasks] at htasks
  rw [loadedKernel_kmem] at hend hgrown hmem
  refine ⟨htask, ?_⟩
  rw [processLoad_some hslot, processLoadForSlot_eq (processGetFreeSlot_free hslot), hprocess, hstack,
    if_neg (hne p hp), if_neg (hne _ (by omega)), ← hprocess, processStart_eq]
  generalize startedKernel (loadedKernel missing k slot) (processStep k).1 = started at *
  have hbefore := high_trans hlow hmem
  have helf : (started.procs (processStep k).1).fileType = processFiletypeElf := by rw [hself]; rfl
  have hdata : (started.procs (processStep k).1).data = 0 := by rw [hself]; rfl
  obtain ⟨mem, hmap, hmapped⟩ := processMapMemory_noFile hdir helf hdata
    ((low_word hbefore rfl (by decide)).trans hheader) ((low_phnum hbefore).trans hphnum)
  rw [hmap, Option.map_some, if_neg (lt_irrefl 0)]
  refine ⟨_, rfl, ?_, hcurrent, frontier_withMem hlast mem, ?_, fun b hb => ?_, fun a ha => ?_⟩
  · rw [← hprocesses]
    rfl
  · refine high_trans hbefore (sameOff_high hmapped.off ?_)
    rintro q ⟨i, hi, rfl⟩
    obtain ⟨b, hb, heq⟩ := hpointers _ (.inr (.inr (.inr ⟨i, hi, rfl⟩)))
    rw [heq]
    exact high_block (hgrown.fresh b hb).1
  · rw [← hkept b hb]
    refine hgrown.same b fun d hd heq => ?_
    obtain rfl : b = d := Nat.cast_inj.1 heq
    exact hend.taken b (by omega) (hgrown.fresh b hd).2
  · refine htasks a ?_
    obtain ⟨b, hb, heq⟩ := hpointers _ (.inl rfl)
    rw [heq]
    rintro rfl
    have hlt := (hgrown.fresh b hb).1
    have haddr := blockAddr_toNat (b := b) (by omega)
    omega

/-! The first process and its task. -/

/-- A process structure that was allocated, and the task that is made for it. -/
def startTask (process : Word × Kmem) : Kernel :=
  let task := taskNew (zeroKernel process.2) process.1
  task.2.setProcess process.1 { task.2.procs process.1 with task := task.1 }

def oneTask : Kernel := startTask (kzalloc emptyKmem 9364)

/-- The kernel with a directory for the task. -/
def withTask (chunk : Word) (s : Kmem) : Kernel where
  kmem := s
  procs := Function.update (fun _ => zeroProcess) (blockAddr 0) { zeroProcess with task := blockAddr 3 }
  tasks := Function.update (fun _ => zeroTask) (blockAddr 3)
    ⟨chunk, startRegisters s.mem zeroProcess, blockAddr 0, 0, 0⟩
  currentProcess := 0
  processes := fun _ => 0
  currentTask := blockAddr 3
  taskHead := blockAddr 3
  taskTail := blockAddr 3
  kernelChunk := 0
  currentDirectory := 0

lemma withTask_procs (chunk : Word) (s : Kmem) : (withTask chunk s).procs (blockAddr 0) =
    { zeroProcess with task := blockAddr 3 } := by
  simp only [withTask, Function.update_self]

lemma withTask_tasks (chunk : Word) (s : Kmem) : (withTask chunk s).tasks (blockAddr 3) =
    ⟨chunk, startRegisters s.mem zeroProcess, blockAddr 0, 0, 0⟩ := by
  simp only [withTask, Function.update_self]

/-- The task that is made for the first process. -/
lemma withTask_eq {s₀ s₁ s : Kmem} {chunk : Word} (hs₁ : kzalloc s₀ 64 = (blockAddr 3, s₁))
    (hdir : pagingNew4gb s₁ 0b101 = (chunk, s)) (hne : chunk ≠ 0) :
    taskNew (zeroKernel s₀) (blockAddr 0) = (blockAddr 3, { withTask chunk s with
      procs := fun _ => zeroProcess }) := by
  rw [@taskNew_eq (zeroKernel s₀) (blockAddr 0) 3 (by omega) s₁ s chunk hs₁ hdir hne]
  rfl

/-- Memory of zeros, and a heap whose free entries are. -/
structure Clean (s : Kmem) : Prop where
  mem : ∀ x, s.mem x = 0
  entries : ZeroFree s.entries

lemma Clean.kzalloc (h : Clean s) (size : Word) : Clean (kzalloc s size).2 := by
  rcases kzalloc_shape s size with heq | ⟨b, hb, -, heq⟩
  · rw [heq]
    exact h
  · rw [heq]
    refine ⟨fun x => ?_, fun c hc hfree => ?_⟩
    · change (if _ then 0 else s.mem x) = 0
      rw [h.mem x, ite_self]
    · change overwrite s.entries b _ _ (c : ℤ) = entryFree
      change heapGetEntryType (overwrite s.entries b _ _ (c : ℤ)) = _ at hfree
      rw [overwrite_natCast] at hfree ⊢
      split_ifs at hfree ⊢
      · rw [blockEntry_type] at hfree
        exact absurd hfree (by decide)
      · exact h.entries c hc hfree

/-- A table with the flags of a directory. -/
lemma and_flags (w : Word) : (w ||| ((5 : Byte).setWidth 32 ||| pagingIsWritable)) &&& 7 = 7 := by
  have hflags : (((5 : Byte).setWidth 32 ||| pagingIsWritable) : Word) = 7 := by decide
  rw [hflags]
  ext i hi
  simp only [BitVec.getElem_and, BitVec.getElem_or]
  cases (7 : Word)[i] <;> simp

/-- The structure gets blocks 0 to 2, the task block 3, the directory the blocks behind them. -/
lemma oneTask_built : ∃ s₁ chunk s d a, oneTask = withTask chunk s ∧
    NewDir s₁ s ((5 : Byte).setWidth 32) chunk d a ∧ chunk ≠ 0 ∧ (∀ j < 1024, a j ≠ 0) ∧
    Allocated s₁.kernelHeap 0 3 ∧ Low s₁.entries ∧ Clean s₁ ∧ Frontier s₁ 4 ∧ Frontier s 1030 ∧
    SameOff highPages s₁.mem s.mem := by
  have hempty : Frontier emptyKmem 0 := emptyKmem_frontier
  have hthree : (heapBlocksFor 9364).toNat = 3 := by decide
  obtain ⟨hprocess, hnext⟩ := @Frontier.kzalloc _ 0 hempty 9364 (by omega) (by omega)
  have hstruct := frontier_allocated hempty hthree (by omega) (by omega)
  have hlow₀ := Low.kzalloc low_emptyKmem 9364
  have hclean : Clean emptyKmem := ⟨fun _ => rfl, fun b hb _ => kheapInit_zero hb⟩
  have hclean₀ := hclean.kzalloc 9364
  obtain ⟨s₀, hs₀⟩ : ∃ s₀, kzalloc emptyKmem 9364 = (blockAddr 0, s₀) := ⟨_, Prod.ext (by rw [hprocess]) rfl⟩
  rw [hs₀] at hnext hstruct hlow₀ hclean₀
  rw [hthree] at hnext
  obtain ⟨htask, hlast⟩ := frontier_block hnext (show (heapBlocksFor 64).toNat = 1 by decide) (by omega)
  have hlow₁ := hlow₀.kzalloc 64
  have hclean₁ := hclean₀.kzalloc 64
  have hkept : ∀ b < 3, (kzalloc s₀ 64).2.entries (b : ℕ) = s₀.entries (b : ℕ) := fun b hb =>
    kzalloc_taken _ _ (by omega) (hnext.taken b (by omega))
  obtain ⟨s₁, hs₁⟩ : ∃ s₁, kzalloc s₀ 64 = (blockAddr 3, s₁) := ⟨_, Prod.ext htask rfl⟩
  rw [hs₁] at hlast hlow₁ hclean₁ hkept
  obtain ⟨d, a, hnew, hne, hall⟩ := pagingNew4gb_new s₁ 0b101 (Finset.Ico 4 25600)
    (by rw [Nat.card_Ico]; omega) fun b hb => by
      obtain ⟨h1, h2⟩ := Finset.mem_Ico.1 hb
      exact ⟨h2, hlast.free b h1 h2⟩
  obtain ⟨-, hend, hmem⟩ := pagingNew4gb_frontier hlast 0b101 (by omega)
  generalize hr : pagingNew4gb s₁ 0b101 = r at hnew hne hend hmem
  obtain ⟨chunk, s⟩ := r
  dsimp only at hnew hne hend hmem
  have hbuilt : oneTask = withTask chunk s := by
    have hstart : startTask (blockAddr 0, s₀) = withTask chunk s := by
      have htaken := withTask_eq hs₁ hr hne
      simp only [startTask, htaken, Kernel.setProcess, withTask]
    exact (congrArg startTask hs₀).trans hstart
  refine ⟨s₁, chunk, s, d, a, hbuilt, hnew, hne, hall, ⟨by omega, ?_, fun j hj => ?_⟩, hlow₁, hclean₁,
    hlast, hend, hmem⟩
  · rw [s₁.total_toNat]
    omega
  · have hentry := hstruct.2.2 j hj
    rw [Nat.zero_add] at hentry ⊢
    exact (hkept j hj).trans hentry

/-- The heap around the first task. -/
structure FirstTask (k : Kernel) (dir : Word) (table : ℕ → Word) : Prop where
  live : LiveProcess k (blockAddr 0) dir table
  structure_taken : Allocated k.kmem.kernelHeap 0 3
  frontier : Frontier k.kmem 1030
  zeroFree : ZeroFree k.kmem.entries
  /-- Below the directory there are zeros. -/
  clear : ∀ x, pageOf x < 4100 → k.kmem.mem x = 0
  empty : ∀ i, k.record (blockAddr 0) i = ⟨0, 0⟩
  above : ∀ g ∈ dirPages (k.pageDirectory (blockAddr 0)) dir table, 4100 ≤ g
  /-- All tables are for the user, to write as well. -/
  shared : ∀ j < 1024, read32 k.kmem.mem (dir + BitVec.ofNat 32 (4 * j)) &&& 7 = 7
  low : Low k.kmem.entries
  current : k.currentTask = blockAddr 3
  process : (k.tasks (blockAddr 3)).process = blockAddr 0
  esp : (k.tasks (blockAddr 3)).registers.esp = 0x3FF000
  directory : (k.tasks (blockAddr 3)).pageDirectory = k.pageDirectory (blockAddr 0)
  slot : processGetFreeSlot k = some 0

/-- Every page is mapped to itself, for reading. -/
def Identity (mem : Mem) (dir : Word) : Prop :=
  ∀ v : Word, v.toNat % 4096 = 0 → pagingGet mem dir v = v ||| 5

lemma oneTask_first : ∃ chunk s dir table, oneTask = withTask chunk s ∧ FirstTask oneTask dir table ∧
    Identity oneTask.kmem.mem dir := by
  obtain ⟨s₁, chunk, s, d, a, hbuilt, hnew, hne, hall, hstruct, hlow, hclean, hfour, hfrontier,
    hmem⟩ := oneTask_built
  have hdirectory : (withTask chunk s).pageDirectory (blockAddr 0) = chunk := by
    rw [Kernel.pageDirectory, withTask_procs, withTask_tasks]
  have hrecord : ∀ i, (withTask chunk s).record (blockAddr 0) i = ⟨0, 0⟩ := by
    intro i
    rw [Kernel.record, withTask_procs]
    rfl
  have hrefines := hnew.refines hall
  rw [← hdirectory] at hnew hne
  have hstart := start_newDir (k := withTask chunk s) (q := blockAddr 0) hnew hne hall hrecord
  have hlive := hstart.liveProcess (Set.mem_singleton (blockAddr 0))
  have hsame : ∀ b : ℕ, ¬ IsFree s₁.entries b → s.entries b = s₁.entries b := by
    intro b hb
    refine hnew.grown.same b fun c hc heq => ?_
    obtain rfl : b = c := Nat.cast_inj.1 heq
    exact hb (hnew.grown.fresh b hc).2
  rw [hbuilt]
  refine ⟨chunk, s, _, _, rfl, ⟨hlive, ⟨by omega, ?_, fun j hj => ?_⟩, hfrontier,
    fun b hb hfree => ?_, fun x hx => ?_, hrecord, fun g hg => ?_, fun j hj => ?_, ?_, rfl, ?_, ?_, ?_, rfl⟩,
    hrefines.get⟩
  · change _ ≤ s.kernelHeap.table.total.toNat
    rw [s.total_toNat]
    omega
  · have hentry := hstruct.2.2 j hj
    have hkept := hsame j (hstruct.not_free ⟨by omega, by omega⟩)
    rw [Nat.zero_add] at hentry ⊢
    exact hkept.trans hentry
  · have hnot : ∀ c ∈ dirBlocks d a ((withTask chunk s).pageDirectory (blockAddr 0)), (b : ℤ) ≠ c := by
      intro c hc heq
      obtain rfl : b = c := Nat.cast_inj.1 heq
      change heapGetEntryType (s.entries b) = _ at hfree
      rw [hnew.grown.taken b hc, blockEntry_type] at hfree
      exact absurd hfree (by decide)
    have hentry : s.entries b = s₁.entries b := hnew.grown.same b hnot
    change s.entries b = entryFree
    change IsFree s.entries b at hfree
    rw [IsFree, hentry] at hfree
    rw [hentry]
    exact hclean.entries b hb hfree
  · by_cases hlow : pageOf x = 0
    · rw [← hclean.mem x]
      exact hmem x (by rw [hlow]; simp [highPages])
    · rw [← hclean.mem x]
      refine hnew.grown.mem x ?_
      rintro (h0 | ⟨c, hc, heq⟩)
      · exact hlow h0
      · exact hfour.taken c (by omega) (hnew.grown.fresh c hc).2
  · obtain ⟨c, hc, rfl⟩ : ∃ c ∈ dirBlocks d a ((withTask chunk s).pageDirectory (blockAddr 0)),
        g = 4096 + c := by
      rcases hg with rfl | rfl | ⟨j, hj, rfl⟩
      · obtain ⟨c, hc, -, heq, -⟩ := hnew.chunk_or.resolve_left hne
        exact ⟨c, ⟨hc, .inr (.inr heq)⟩, by rw [heq, pageOf_blockAddr (by omega)]⟩
      · have hlt := hnew.dir_lt
        exact ⟨d, ⟨hlt, .inl rfl⟩, pageOf_blockAddr (by omega)⟩
      · obtain ⟨c, hc, -, heq⟩ := (hnew.null_or j hj).resolve_left (hall j hj)
        exact ⟨c, ⟨hc, .inr (.inl ⟨j, hj, heq⟩)⟩, by
          change pageOf (a j) = _
          rw [heq, pageOf_blockAddr (by omega)]⟩
    by_contra hlt
    exact hfour.taken c (by omega) (hnew.grown.fresh c hc).2
  · change read32 s.mem (blockAddr d + BitVec.ofNat 32 (4 * j)) &&& 7 = 7
    rw [hnew.entry j hj, BitVec.or_assoc, and_flags]
  · obtain ⟨j, hj, hneg, hstop⟩ := hlow
    refine ⟨j, hj, hneg, ?_⟩
    change s.entries j &&& hasNext = 0
    rw [hnew.grown.same j fun c _ heq => by omega]
    exact hstop
  · rw [withTask_tasks]
  · rw [withTask_tasks]
    rfl
  · rw [hdirectory, withTask_tasks]

/-- The first task with the address of a string on its stack, in a heap where more blocks are taken. -/
def withString (k : Kernel) (taken : ℕ) (item : Word) (str : List Byte) : Kernel :=
  k.withKmem ((k.kmem.take taken 1030).withMem
    (writeBytes (write32 k.kmem.mem 0x3FF000 item) item (str ++ [0])))

structure CallTask (k : Kernel) (c : ℕ) (item : Word) (str : List Byte) (dir : Word) (table : ℕ → Word) :
    Prop where
  current : k.currentTask = blockAddr 3
  process : (k.tasks (blockAddr 3)).process = blockAddr 0
  esp : (k.tasks (blockAddr 3)).registers.esp = 0x3FF000
  slot : processGetFreeSlot k = some 0
  pageDir : PageDir k.kmem.mem (k.tasks (blockAddr 3)).pageDirectory dir table
  pages : ∀ g ∈ dirPages (k.tasks (blockAddr 3)).pageDirectory dir table, ∃ b, 4 ≤ b ∧ b < 1030 ∧ g = 4096 + b
  shared : ∀ j < 1024, read32 k.kmem.mem (dir + BitVec.ofNat 32 (4 * j)) &&& 7 = 7
  frontier : Frontier k.kmem c
  zeroFree : ZeroFree k.kmem.entries
  low : Low k.kmem.entries
  stack : read32 k.kmem.mem 0x3FF000 = item
  bytes : BytesAt k.kmem.mem item (str ++ [0])
  clear : ∀ x, pageOf x < 4100 → pageOf x ≠ 0x3FF → ¬ InRange item (str.length + 1) x →
    k.kmem.mem x = 0

/-- The pages of the first task are those it had. -/
lemma FirstTask.withString {k : Kernel} {dir : Word} {table : ℕ → Word} (h : FirstTask k dir table) (taken : ℕ)
    {item : Word} {str : List Byte} (hlen : item.toNat + str.length < 0x7E00) :
    CallTask (Processes.withString k taken item str) (1030 + taken) item str dir table ∧
    ∀ v : Word, v.toNat % 4096 = 0 →
      pagingGet (Processes.withString k taken item str).kmem.mem dir v = pagingGet k.kmem.mem dir v := by
  have hdir := h.live.pageDir
  rw [← h.directory] at hdir
  have hlength : (str ++ [0]).length = str.length + 1 := by rw [List.length_append, List.length_singleton]
  have hstore := write32_sameOff k.kmem.mem (a := 0x3FF000) (by decide) item
  have hword : read32 (write32 k.kmem.mem 0x3FF000 item) 0x3FF000 = item := read32_write32 _ _ _
  rw [Processes.withString]
  generalize write32 k.kmem.mem 0x3FF000 item = mem at hstore hword ⊢
  have hcopy : ∀ x, ¬ InRange item (str.length + 1) x → writeBytes mem item (str ++ [0]) x = mem x :=
    fun x hx => writeBytes_of_not fun n hn heq => hx (by
      rw [← heq]
      exact inRange_ofNat (by omega) (by omega))
  have hbytes : BytesAt (writeBytes mem item (str ++ [0])) item (str ++ [0]) :=
    writeBytes_bytesAt (by omega)
  generalize writeBytes mem item (str ++ [0]) = mem' at hcopy hbytes ⊢
  have hbelow : ∀ x, InRange item (str.length + 1) x → pageOf x < 8 := by
    intro x hx
    obtain ⟨j, hj, rfl⟩ := exists_of_inRange hx
    rw [pageOf, toNat_add_ofNat (by omega)]
    omega
  have hchanged : SameOff {g | g < 8} mem mem' := fun x hx => hcopy x fun hin => hx (hbelow x hin)
  have hsame : SameOff {g | g < 4100} k.kmem.mem mem' := fun x hx => by
    have habove : ¬ pageOf x < 8 := fun hlt => hx (lt_trans hlt (by omega))
    have hoff : pageOf x ≠ 0x3FF := fun heq => hx (by rw [heq]; decide)
    rw [hchanged x habove, hstore x hoff]
  obtain ⟨hafter, hget⟩ := hdir.unchanged hsame (Set.disjoint_left.2 fun g hg hin =>
    absurd (h.above g (h.directory ▸ hin)) (not_le.2 hg))
  refine ⟨⟨h.current, h.process, h.esp, h.slot, hafter, fun g hg => ?_, fun j hj => ?_, ?_, fun b hb hfree => ?_,
    low_take h.low taken 1030, ?_, hbytes, fun x hx hstack hout => ?_⟩, hget⟩
  · obtain ⟨b, heq, hb⟩ := h.live.held g (h.directory ▸ hg)
    have habove := h.above g (h.directory ▸ hg)
    have hbound := allocated_bound hb
    refine ⟨b, by omega, ?_, heq⟩
    by_contra hle
    exact allocated_not_free hb (h.frontier.free b (by omega) (by omega))
  · have habove := h.above (pageOf dir) (.inr (.inl rfl))
    have haligned := hdir.dir_aligned
    have hentry : read32 mem' (dir + BitVec.ofNat 32 (4 * j)) =
        read32 k.kmem.mem (dir + BitVec.ofNat 32 (4 * j)) := by
      refine hsame.read32 ?_ ?_
      · rw [toNat_add_ofNat (by omega)]
        omega
      · rw [Set.mem_ofPred_eq, pageOf_add haligned (by omega)]
        omega
    exact (congrArg (· &&& 7) hentry).trans (h.shared j hj)
  · exact frontier_withMem (frontier_take h.frontier taken) mem'
  · change overwrite k.kmem.entries 1030 taken _ (b : ℤ) = entryFree
    change heapGetEntryType (overwrite k.kmem.entries 1030 taken _ (b : ℤ)) = _ at hfree
    rw [overwrite_natCast] at hfree ⊢
    split_ifs at hfree ⊢
    · rw [blockEntry_type] at hfree
      exact absurd hfree (by decide)
    · exact h.zeroFree b hb hfree
  · rw [← hword]
    exact hchanged.read32 (by decide) (by decide)
  · rw [← h.clear x hx]
    exact (hcopy x hout).trans (hstore x hstack)

/-! The file calls keep the blocks of others. -/

lemma respects_missing (K : Set ℕ) (s : Kmem) : missing.Respects K s := by
  have hread : (readStep missing s).2 = storeStep missing s := by
    rw [readStep, FileCalls.fread]
    split_ifs <;> rfl
  refine ⟨Keeps.refl _ _, Keeps.refl _ _, ?_, Keeps.refl _ _, fun b _ hpin => ?_, fun b _ hpin => hpin⟩
  · rw [hread]
    exact Keeps.refl _ _
  · rwa [hread]

lemma respects_served {K : Set ℕ} {file : List Byte} (hfile : ElfImage file) (h : Frontier s c)
    (hroom : c + 1 + fileBlocks file ≤ 25600) (hK : ∀ b ∈ K, b < c) : (serve file).Respects K s := by
  obtain ⟨hpos, hlen⟩ := hfile.sized.blocks
  have hread := readStep_served hfile.sized h hroom
  have hclose : closeStep (serve file) s = (elfLoad (serve file) s).2.2 := by
    have hload := loads_served hfile h hroom
    rw [closeStep_eq, if_neg (not_le.2 hload.opened), if_neg hload.stat, if_neg hload.read,
      hload.elfLoad_eq]
    rfl
  refine ⟨Keeps.refl _ _, Keeps.refl _ _, ?_, ?_, fun b _ hpin => ?_, fun b _ hpin => ?_⟩
  · rw [hread]
    refine @keeps_withMem _ _ {p | 4096 + (c + 1) ≤ p} _ (fun x hx => ?_) fun b hb hpage => ?_
    · refine writeBytes_of_not fun n hn heq => hx ?_
      rw [← heq, pageOf_blockAddr_byte (by omega) (by omega)]
      exact Nat.le_add_right _ _
    · rw [Set.mem_ofPred_eq] at hpage
      rcases hb with hb | ⟨hlt, heq⟩
      · have hbelow := hK b hb
        omega
      · rw [(fileStep_frontier h (by omega)).1] at heq
        obtain rfl := blockAddr_inj (by omega) (by omega) heq
        omega
  · rw [hclose]
    exact Keeps.refl _ _
  · rw [hread]
    exact hpin
  · rwa [hclose] at hpin

end AlphaOS.Processes
