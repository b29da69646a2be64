import AlphaOS.BlockPins
import AlphaOS.TaskMemory

/-! What a `task_new` that fails for lack of memory gives back. -/
namespace AlphaOS.Tasks
open BlockHeap Kheap Paging WordMemory

variable {s₀ s s' : Kmem} {B C : Set ℕ} {ptr chunk : Word} {b d : ℕ} {a : ℕ → Word}

/-- Since `s₀` only blocks of `B` were taken; some may be free again, none is followed by a
chain. -/
structure Released (s₀ s : Kmem) (B : Set ℕ) : Prop extends Preserves s₀ s where
  fresh : ∀ b ∈ B, b < 25600 ∧ IsFree s₀.entries b
  single : ∀ b ∈ B, NoNext s.entries b

/-- A pointer far below the pool or to one of the blocks. -/
def Disposable (s : Kmem) (B : Set ℕ) (ptr : Word) : Prop :=
  heapAddressToBlock s.kernelHeap ptr ≤ -4096 ∨ ∃ b ∈ B, ptr = blockAddr b

lemma heapAddressToBlock_congr (s s' : Kmem) (ptr : Word) :
    heapAddressToBlock s.kernelHeap ptr = heapAddressToBlock s'.kernelHeap ptr := by
  rw [heapAddressToBlock, heapAddressToBlock, s.saddr_eq, s'.saddr_eq]

lemma Disposable.congr (h : Disposable s B ptr) : Disposable s' B ptr := by
  unfold Disposable at h ⊢
  rwa [heapAddressToBlock_congr s' s]

lemma disposable_null (s : Kmem) (B : Set ℕ) : Disposable s B 0 :=
  .inl (heapAddressToBlock_null s).le

lemma released_of_grownBy (h : GrownBy s₀ s B) (hlow : Low s₀.entries) : Released s₀ s B := by
  refine ⟨⟨?_, fun c hc hnot => ?_⟩, h.fresh, fun c hc => ?_⟩
  · obtain ⟨j, h1, h2, hstop⟩ := hlow
    refine ⟨j, h1, h2, ?_⟩
    rw [NoNext, h.same j fun c _ => by omega]
    exact hstop
  · refine h.same c fun d hd heq => hnot ?_
    rw [Nat.cast_inj.1 heq]
    exact (h.fresh d hd).2
  · rw [NoNext, h.taken c hc]
    decide

lemma Released.kfree (h : Released s₀ s B) (hptr : Disposable s B ptr) :
    Released s₀ (kfree s ptr) B := by
  refine ⟨⟨h.low.kfree, fun c hc hnot => ?_⟩, h.fresh, fun c hc => noNext_kfree (h.single c hc)⟩
  rw [← h.taken c hc hnot]
  rcases hptr with hfar | ⟨b, hb, rfl⟩
  · exact h.low.kfree_far hfar (by omega)
  · obtain ⟨hlt, hfree⟩ := h.fresh b hb
    refine kfree_single (by omega) (h.single b hb) fun heq => hnot ?_
    rw [Nat.cast_inj.1 heq]
    exact hfree

lemma Released.pagingFreeTables {mem : Mem} (k i : ℕ) (h : Released s₀ s B) (hmem : s.mem = mem)
    (hwords : ∀ j, i ≤ j → j < i + k → Disposable s B
      (read32 mem (read32 mem chunk + BitVec.ofNat 32 (4 * j)) &&& 0xFFFFF000#32)) :
    Released s₀ (pagingFreeTables chunk k i s) B ∧ (pagingFreeTables chunk k i s).mem = mem :=
  @pagingFreeTables_induct mem chunk (fun s => Released s₀ s B) k i s hmem h
    fun _ j h1 h2 hr => hr.kfree (hwords j h1 h2).congr

/-- `paging_free_4gb` of a chunk whose pointers are all null, stray or the new blocks. -/
lemma Released.pagingFree4gb (h : Released s₀ s B)
    (hwords : ∀ j < 1024, Disposable s B
      (read32 s.mem (read32 s.mem chunk + BitVec.ofNat 32 (4 * j)) &&& 0xFFFFF000#32))
    (hdir : Disposable s B (read32 s.mem chunk)) (hchunk : Disposable s B chunk) :
    Released s₀ (pagingFree4gb s chunk) B := by
  obtain ⟨htables, hmem⟩ := h.pagingFreeTables 1024 0 rfl fun j _ hj => hwords j (by omega)
  rw [Paging.pagingFree4gb, hmem]
  exact (htables.kfree hdir.congr).kfree hchunk.congr

/-! On a full heap the tables are all written to page 0. -/

variable {flags : Word}

/-- The last table is the one that stays, but for the entry of the directory. -/
lemma pagingNewTables_words (hfull : ∀ b < 25600, ¬ IsFree s.entries b) (k i : ℕ)
    (hk : i + (k + 1) = 1024) {l : ℕ} (hl : l < 1024) :
    read32 (pagingNewTables 0 flags (k + 1) i (BitVec.ofNat 32 (i * 4194304)) s).mem
      (0 + BitVec.ofNat 32 (4 * l)) =
      if l = 1023 then 0 ||| flags ||| pagingIsWritable
      else (BitVec.ofNat 32 (1023 * 4194304) + BitVec.ofNat 32 (l * 4096)) ||| flags := by
  induction k generalizing s i with
  | zero =>
    obtain rfl : i = 1023 := by omega
    obtain ⟨-, heq⟩ | ⟨b, hb, hf, -⟩ :=
      kzalloc_single s (show (heapBlocksFor 4096).toNat = 1 by decide)
    swap
    · exact absurd hf (hfull b hb)
    rw [pagingNewTables, heq]
    dsimp only [pagingNewTables, Kmem.withMem_mem]
    rw [read32_write32_slot _ (by rfl) (by omega) hl,
      (pagingFillTable_spec rfl _ _ 1024 0 le_rfl s.mem).2 l hl, if_pos (by omega : 0 ≤ l ∧ l < 0 + 1024)]
  | succ k ih =>
    obtain ⟨-, heq⟩ | ⟨b, hb, hf, -⟩ :=
      kzalloc_single s (show (heapBlocksFor 4096).toNat = 1 by decide)
    swap
    · exact absurd hf (hfull b hb)
    rw [pagingNewTables, heq]
    have hnext : BitVec.ofNat 32 (i * 4194304) + 0x400000 =
        BitVec.ofNat 32 ((i + 1) * 4194304) := by
      rw [Nat.add_mul, BitVec.ofNat_add]
      rfl
    dsimp only
    rw [hnext]
    exact @ih (s.withMem (write32 (pagingFillTable 0 (BitVec.ofNat 32 (i * 4194304)) flags 1024 0
      s.mem) (0 + BitVec.ofNat 32 (4 * i)) (0 ||| flags ||| pagingIsWritable))) hfull (i + 1)
      (by omega)

lemma pagingNewTables_allWords (hfull : ∀ b < 25600, ¬ IsFree s.entries b) {l : ℕ} (hl : l < 1024) :
    read32 (pagingNewTables 0 flags 1024 0 0 s).mem (0 + BitVec.ofNat 32 (4 * l)) =
      if l = 1023 then 0 ||| flags ||| pagingIsWritable
      else (BitVec.ofNat 32 (1023 * 4194304) + BitVec.ofNat 32 (l * 4096)) ||| flags := by
  have hwords := @pagingNewTables_words s flags hfull 1023 0 (by omega) l hl
  have hcount : 1023 + 1 = 1024 := rfl
  have hzero : BitVec.ofNat 32 (0 * 4194304) = 0 := rfl
  rwa [hcount, hzero] at hwords

/-- What they hold as pointers lies below the pool. -/
lemma disposable_identity (s : Kmem) (B : Set ℕ) {l : ℕ} (hl : l < 1023) :
    Disposable s B (((BitVec.ofNat 32 (1023 * 4194304) + BitVec.ofNat 32 (l * 4096)) |||
      (0b101 : Byte).setWidth 32) &&& 0xFFFFF000#32) := by
  have hword : BitVec.ofNat 32 (1023 * 4194304) + BitVec.ofNat 32 (l * 4096) =
      BitVec.ofNat 32 (4290772992 + l * 4096) := by rw [BitVec.ofNat_add]
  have hnat : (BitVec.ofNat 32 (4290772992 + l * 4096)).toNat = 4290772992 + l * 4096 := by
    rw [BitVec.toNat_ofNat]
    omega
  rw [hword, and_page_or_flags (by rw [hnat]; omega) (by decide)]
  left
  have hsub : (BitVec.ofNat 32 (4290772992 + l * 4096) - heapAddress).toNat =
      4273995776 + l * 4096 := by
    rw [BitVec.toNat_sub, hnat]
    change (2 ^ 32 - 16777216 + (4290772992 + l * 4096)) % 2 ^ 32 = _
    omega
  rw [heapAddressToBlock, s.saddr_eq, BitVec.toInt_eq_toNat_cond, hsub, if_neg (by omega)]
  have hneg : (((4273995776 + l * 4096 : ℕ) : ℤ) - (2 ^ 32 : ℕ)) = -((5120 - l : ℕ) * 4096) := by
    push_cast
    omega
  rw [hneg, Int.neg_tdiv, Int.mul_tdiv_cancel _ (by norm_num)]
  omega

/-- The pointers `paging_free_4gb(0)` follows. -/
structure NullChunk (s₀ s : Kmem) (B : Set ℕ) : Prop where
  released : Released s₀ s B
  directory : Disposable s B (read32 s.mem 0)
  words : ∀ j < 1024, Disposable s B
    (read32 s.mem (read32 s.mem 0 + BitVec.ofNat 32 (4 * j)) &&& 0xFFFFF000#32)

lemma or_flags (v : Word) :
    v ||| (0b101 : Byte).setWidth 32 ||| pagingIsWritable = v ||| 7 := by
  rw [BitVec.or_assoc]
  rfl

/-- The words page 0 holds after `paging_new_4gb` on a full heap. -/
lemma pagingNew4gb_words (hfull : ∀ b < 25600, ¬ IsFree s.entries b) {j : ℕ} (hj : j < 1024) :
    read32 (pagingNew4gb s 0b101).2.mem (0 + BitVec.ofNat 32 (4 * j)) =
      if j = 0 then 0 else if j = 1023 then 7
      else (BitVec.ofNat 32 (1023 * 4194304) + BitVec.ofNat 32 (j * 4096)) |||
        (0b101 : Byte).setWidth 32 := by
  obtain ⟨-, heq⟩ | ⟨c, hc, hf, -⟩ :=
    kzalloc_single s (show (heapBlocksFor 4096).toNat = 1 by decide)
  swap
  · exact absurd hf (hfull c hc)
  have hwords := @pagingNewTables_allWords s ((0b101 : Byte).setWidth 32) hfull j hj
  obtain ⟨hheap, -, -⟩ :=
    @pagingNewTables_full s ((0b101 : Byte).setWidth 32) hfull 1024 0 (by omega) 0
  obtain ⟨t, ht⟩ : ∃ t, pagingNewTables 0 ((0b101 : Byte).setWidth 32) 1024 0 0 s = t := ⟨_, rfl⟩
  rw [ht] at hwords hheap
  obtain ⟨-, heq'⟩ | ⟨c, hc, hf, -⟩ := kzalloc_single t (show (heapBlocksFor 4).toNat = 1 by decide)
  swap
  · unfold Kmem.entries at hf
    rw [hheap] at hf
    exact absurd hf (hfull c hc)
  rw [pagingNew4gb_eq heq ht heq', Kmem.withMem_mem]
  have hslot := @read32_write32_slot t.mem 0 rfl 0 j (by decide) hj 0
  rw [hwords, or_flags] at hslot
  exact hslot

lemma nullChunk_full {s₁ : Kmem} (hlow : Low s₀.entries) (hgrown : GrownBy s₀ s₁ {b})
    (hfull : ∀ c < 25600, ¬ IsFree s₁.entries c) (hpair : pagingNew4gb s₁ 0b101 = (chunk, s)) :
    NullChunk s₀ s {b} := by
  obtain ⟨-, hheap, -, hzero, -⟩ := pagingNew4gb_full s₁ 0b101 hfull
  have hwords := fun j hj => @pagingNew4gb_words s₁ hfull j hj
  rw [hpair] at hheap hzero hwords
  have hsame : s.entries = s₁.entries := by
    unfold Kmem.entries
    rw [hheap]
  have hreleased := released_of_grownBy hgrown hlow
  refine ⟨⟨⟨?_, fun c hc hnot => ?_⟩, hreleased.fresh, fun c hc => ?_⟩, ?_, fun j hj => ?_⟩
  · rw [hsame]
    exact hreleased.low
  · rw [hsame]
    exact hreleased.taken c hc hnot
  · rw [hsame]
    exact hreleased.single c hc
  · rw [hzero]
    exact disposable_null _ _
  · rw [hzero, hwords j hj]
    have hnone : (0 : Word) &&& 0xFFFFF000#32 = 0 := rfl
    have hlow7 : (7 : Word) &&& 0xFFFFF000#32 = 0 := rfl
    by_cases hfirst : j = 0
    · rw [if_pos hfirst, hnone]
      exact disposable_null _ _
    · rw [if_neg hfirst]
      by_cases hlast : j = 1023
      · rw [if_pos hlast, hlow7]
        exact disposable_null _ _
      · rw [if_neg hlast]
        exact disposable_identity _ {b} (by omega)

lemma nullChunk_new {s₁ : Kmem} (hlow : Low s₀.entries) (hgrown : GrownBy s₀ s₁ {b})
    (hnew : NewDir s₁ s ((0b101 : Byte).setWidth 32) 0 d a) :
    NullChunk s₀ s ({b} ∪ dirBlocks d a 0) := by
  refine ⟨released_of_grownBy (hgrown.trans hnew.grown) hlow, ?_, fun j hj => ?_⟩
  · rw [hnew.chunk_word]
    exact .inr ⟨d, .inr ⟨hnew.dir_lt, .inl rfl⟩, rfl⟩
  · rw [hnew.chunk_word, hnew.entry j hj, or_flags]
    rcases hnew.null_or j hj with h0 | ⟨c, hc, -, haddr⟩
    · rw [h0]
      exact disposable_null _ _
    · rw [haddr, and_page_or_flags (blockAddr_aligned (by omega)) (by decide)]
      exact .inr ⟨c, .inr ⟨hc, .inr (.inl ⟨j, hj, haddr⟩)⟩, rfl⟩

/-- A directory that gets no chunk is given back, with the task. -/
lemma pagingNew4gb_undo {s₁ : Kmem} (hlow : Low s₀.entries) (hgrown : GrownBy s₀ s₁ {b})
    (hpair : pagingNew4gb s₁ 0b101 = (0, s)) :
    Preserves s₀ (kfree (pagingFree4gb s 0) (blockAddr b)) := by
  have hchunk : ∃ B, b ∈ B ∧ NullChunk s₀ s B := by
    rcases pagingNew4gb_spec s₁ 0b101 with hfull | ⟨d, a, hnew⟩
    · exact ⟨{b}, rfl, nullChunk_full hlow hgrown hfull hpair⟩
    · rw [hpair] at hnew
      exact ⟨_, .inl rfl, nullChunk_new hlow hgrown hnew⟩
  obtain ⟨B, hb, hnull⟩ := hchunk
  exact ((hnull.released.pagingFree4gb hnull.words hnull.directory (disposable_null _ _)).kfree
    (.inr ⟨b, hb, rfl⟩)).toPreserves

variable {k : Kernel} {process task : Word}

lemma taskListRemove_memory (k : Kernel) (task : Word) :
    (taskListRemove k task).kmem = k.kmem ∧ (taskListRemove k task).procs = k.procs := by
  unfold taskListRemove taskUnlink
  dsimp only
  split_ifs <;> exact ⟨rfl, rfl⟩

lemma taskFree_memory (k : Kernel) (task : Word) :
    (taskFree k task).kmem = kfree (pagingFree4gb k.kmem (k.tasks task).pageDirectory) task ∧
    (taskFree k task).procs = k.procs := by
  obtain ⟨hkmem, hprocs⟩ := taskListRemove_memory
    (k.withKmem (pagingFree4gb k.kmem (k.tasks task).pageDirectory)) task
  rw [taskFree, Kernel.withKmem_kmem, Kernel.withKmem_procs, hkmem, hprocs, Kernel.withKmem_kmem,
    Kernel.withKmem_procs]
  exact ⟨rfl, rfl⟩

lemma taskListAppend_memory (k : Kernel) (task : Word) :
    (taskListAppend k task).kmem = k.kmem ∧ (taskListAppend k task).procs = k.procs := by
  unfold taskListAppend
  split_ifs <;> exact ⟨rfl, rfl⟩

/-- `task_new`, successful or not, leaves the taken blocks and the processes as they are. -/
theorem taskNew_preserves (hlow : Low k.kmem.entries) (process : Word) :
    Preserves k.kmem (taskNew k process).2.kmem ∧ (taskNew k process).2.procs = k.procs := by
  rcases taskNew_outcomes k process with hnone | ⟨b, s₁, s, hgrown, hchunk, hfail⟩ |
    ⟨b, s₁, s, chunk, d, a, hb, hgrown, hnew, -, heq⟩
  · rw [hnone]
    exact ⟨Preserves.refl hlow, rfl⟩
  · obtain ⟨hkmem, hprocs⟩ := taskFree_memory (((k.withKmem s₁).withKmem s).setTask
      (blockAddr b) { zeroTask with pageDirectory := 0 }) (blockAddr b)
    have hundo := pagingNew4gb_undo hlow hgrown hchunk
    rw [hfail, hkmem, hprocs]
    simp only [Kernel.setTask_tasks, Function.update_self]
    exact ⟨hundo, rfl⟩
  · have hpreserves := (released_of_grownBy (hgrown.trans hnew.grown) hlow).toPreserves
    obtain ⟨hkmem, hprocs⟩ := taskListAppend_memory ((k.withKmem s).setTask (blockAddr b)
      ⟨chunk, startRegisters s.mem (k.procs process), process, 0, 0⟩) (blockAddr b)
    rw [heq, hkmem, hprocs]
    exact ⟨hpreserves, rfl⟩

end AlphaOS.Tasks
