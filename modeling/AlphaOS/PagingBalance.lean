import AlphaOS.AddressSpace
import AlphaOS.BlockHeapRun
import AlphaOS.PagingFree

/-! The life of a page directory: what `paging_new_4gb` took, whatever was mapped in
between, is what `paging_free_4gb` gives back. -/
namespace AlphaOS.Paging
open BlockHeap Kheap WordMemory

/-- A call on a page directory that changes its mappings. -/
inductive PagingCall
  | map (virtualAddress physicalAddress flags : Word)
  | mapRange (virtualAddress physicalAddress : Word) (count : ℤ) (flags : Word)
  | mapTo (virtualAddress physicalAddress physicalEndAddress flags : Word)

def PagingCall.run (mem : Mem) (chunk : Word) : PagingCall → Mem
  | .map va pa flags => (pagingMap mem chunk va pa flags).2
  | .mapRange va pa count flags => (pagingMapRange mem chunk va pa count flags).2
  | .mapTo va pa paEnd flags => (pagingMapTo mem chunk va pa paEnd flags).2

def runCalls (mem : Mem) (chunk : Word) (calls : List PagingCall) : Mem :=
  calls.foldl (fun mem call => call.run mem chunk) mem

variable {mem : Mem} {chunk dir : Word} {table : ℕ → Word}

/-- From `mem` to `mem'` a directory stayed well formed and only its tables were written. -/
structure Mapped (mem mem' : Mem) (chunk dir : Word) (table : ℕ → Word) : Prop where
  pageDir : PageDir mem' chunk dir table
  off : SameOff (tablePages table) mem mem'

lemma Mapped.refl (h : PageDir mem chunk dir table) : Mapped mem mem chunk dir table :=
  ⟨h, SameOff.refl _ _⟩

lemma Mapped.trans {mem' mem'' : Mem} (h : Mapped mem mem' chunk dir table)
    (h' : Mapped mem' mem'' chunk dir table) : Mapped mem mem'' chunk dir table :=
  ⟨h'.pageDir, by simpa using h.off.trans h'.off⟩

/-- Whatever the arguments, a mapping keeps the directory and writes only to tables. -/
lemma pagingMap_keeps (h : PageDir mem chunk dir table) (va pa flags : Word) :
    Mapped mem (pagingMap mem chunk va pa flags).2 chunk dir table := by
  unfold pagingMap
  by_cases hargs : va % 4096 ≠ 0 ∨ pa % 4096 ≠ 0
  · rw [if_pos hargs]
    exact Mapped.refl h
  · rw [if_neg hargs, h.chunk_word]
    have hva : va.toNat % 4096 = 0 := word_mod_eq_zero.1 (not_not.1 (not_or.1 hargs).1)
    obtain ⟨-, hdir, hoff, -⟩ := pagingSet_spec h hva (pa ||| flags)
    exact ⟨hdir, hoff⟩

lemma pagingMapRangeLoop_keeps (h : PageDir mem chunk dir table) (flags : Word) (k : ℕ) (res : ℤ)
    (va pa : Word) :
    Mapped mem (pagingMapRangeLoop chunk flags k res va pa mem).2 chunk dir table := by
  induction k generalizing mem res va pa with
  | zero => exact Mapped.refl h
  | succ k ih =>
    have hstep := pagingMap_keeps h va pa flags
    rw [pagingMapRangeLoop]
    split_ifs
    · exact hstep
    · exact hstep.trans (ih hstep.pageDir _ _ _)

lemma pagingMapTo_keeps (h : PageDir mem chunk dir table) (va pa paEnd flags : Word) :
    Mapped mem (pagingMapTo mem chunk va pa paEnd flags).2 chunk dir table := by
  unfold pagingMapTo
  split_ifs
  · exact Mapped.refl h
  · exact Mapped.refl h
  · exact Mapped.refl h
  · exact Mapped.refl h
  · exact pagingMapRangeLoop_keeps h flags _ _ va pa

lemma PagingCall.keeps (h : PageDir mem chunk dir table) (call : PagingCall) :
    Mapped mem (call.run mem chunk) chunk dir table := by
  cases call with
  | map va pa flags => exact pagingMap_keeps h va pa flags
  | mapRange va pa count flags => exact pagingMapRangeLoop_keeps h flags _ _ va pa
  | mapTo va pa paEnd flags => exact pagingMapTo_keeps h va pa paEnd flags

lemma runCalls_keeps (h : PageDir mem chunk dir table) (calls : List PagingCall) :
    Mapped mem (runCalls mem chunk calls) chunk dir table := by
  induction calls generalizing mem with
  | nil => exact Mapped.refl h
  | cons call calls ih => exact (call.keeps h).trans (ih (call.keeps h).pageDir)

/-- A directory without null parts is held. -/
lemma NewDir.held {s₀ s : Kmem} {flags : Byte} {chunk : Word} {d : ℕ} {a : ℕ → Word}
    (h : NewDir s₀ s (flags.setWidth 32) chunk d a) (hchunk : chunk ≠ 0) :
    ∃ c table, DirHeld s chunk c d table ∧ dirBlocks d a chunk = dirSet c d table := by
  have hd := h.dir_lt
  have hne : ∀ j < 1024, a j ≠ 0 := fun j hj h0 => hchunk (h.null_chunk ⟨j, hj, h0⟩)
  obtain ⟨c, hc, hcd, hchunkc, hct⟩ := h.chunk_or.resolve_left hchunk
  have hblock : ∀ j, ∃ b, j < 1024 → b < 25600 ∧ b ≠ d ∧ a j = blockAddr b := by
    intro j
    by_cases hj : j < 1024
    · obtain ⟨b, hb, hbd, hjb⟩ := (h.null_or j hj).resolve_left (hne j hj)
      exact ⟨b, fun _ => ⟨hb, hbd, hjb⟩⟩
    · exact ⟨0, fun hj' => absurd hj' hj⟩
  choose table htable using hblock
  have hheld : ∀ b ∈ dirBlocks d a chunk, Held s b := fun b hb => ⟨hb.1, h.grown.taken b hb⟩
  refine ⟨c, table, ⟨hchunkc, h.chunk_word, fun i hi => ?_, hheld c ⟨hc, .inr (.inr hchunkc)⟩,
    hheld d ⟨hd, .inl rfl⟩, fun i hi => ?_, ⟨hcd, fun i hi heq => ?_⟩, fun i hi => (htable i hi).2.1,
    fun i hi j hj heq => ?_⟩, ?_⟩
  · rw [← (htable i hi).2.2]
    exact h.pagingTable_eq hi
  · exact hheld _ ⟨(htable i hi).1, .inr (.inl ⟨i, hi, (htable i hi).2.2⟩)⟩
  · exact hct i hi (heq ▸ (htable i hi).2.2)
  · refine h.inj i hi j hj (hne i hi) ?_
    rw [(htable i hi).2.2, (htable j hj).2.2, heq]
  · ext b
    constructor
    · rintro ⟨hb, rfl | ⟨j, hj, hjb⟩ | hcb⟩
      · exact .inr (.inl rfl)
      · have := (htable j hj).1
        refine .inr (.inr ⟨j, hj, ?_⟩)
        exact blockAddr_inj (by omega) (by omega) (hjb.symm.trans (htable j hj).2.2)
      · exact .inl (blockAddr_inj (by omega) (by omega) (hcb.symm.trans hchunkc))
    · rintro (rfl | rfl | ⟨j, hj, rfl⟩)
      · exact ⟨hc, .inr (.inr hchunkc)⟩
      · exact ⟨hd, .inl rfl⟩
      · exact ⟨(htable j hj).1, .inr (.inl ⟨j, hj, (htable j hj).2.2⟩)⟩

/-- The calls leave a new directory held. -/
lemma DirHeld.runCalls {s₀ s : Kmem} {flags : Byte} {d c : ℕ} {a : ℕ → Word} {table : ℕ → ℕ}
    (hnew : NewDir s₀ s (flags.setWidth 32) chunk d a) (hne : ∀ j < 1024, a j ≠ 0)
    (h : DirHeld s chunk c d table) (calls : List PagingCall) :
    DirHeld (s.withMem (runCalls s.mem chunk calls)) chunk c d table := by
  have hdir := (runCalls_keeps (hnew.refines hne).pageDir calls).pageDir
  refine { h with word := hdir.chunk_word, entry := fun i hi => ?_ }
  have hsame : blockAddr (table i) = a i := by
    rw [← h.entry i hi]
    exact hnew.pagingTable_eq hi
  rw [hsame]
  exact hdir.entry i hi

/-- The pointers the loop over the tables frees, the first one last. -/
lemma pagingFreeTables_kfreed {mem : Mem} {d : ℕ} {table : ℕ → ℕ}
    (hword : read32 mem chunk = blockAddr d)
    (hentry : ∀ i < 1024, read32 mem (blockAddr d + BitVec.ofNat 32 (4 * i)) &&& 0xFFFFF000#32 =
      blockAddr (table i)) (k i : ℕ) (hk : i + k ≤ 1024) {s : Kmem} (hmem : s.mem = mem) :
    (pagingFreeTables chunk k i s).kfreed =
      ((List.range' i k).map fun j => blockAddr (table j)).reverse ++ s.kfreed := by
  induction k generalizing i s with
  | zero => rfl
  | succ k ih =>
    have hrest := ih (i + 1) (by omega) ((kfree_mem s (blockAddr (table i))).trans hmem)
    rw [pagingFreeTables, hmem, hword, hentry i (by omega), hrest, List.range'_succ]
    simp

/-- `paging_free_4gb` frees the tables in order, then the directory, then the chunk. -/
lemma DirHeld.kfreed {s : Kmem} {c d : ℕ} {table : ℕ → ℕ} (h : DirHeld s chunk c d table) :
    (pagingFree4gb s chunk).kfreed = blockAddr c :: blockAddr d ::
      ((List.range 1024).map fun j => blockAddr (table j)).reverse ++ s.kfreed := by
  have htables := pagingFreeTables_kfreed h.word h.entry 1024 0 le_rfl (s := s) rfl
  have hspec := pagingFreeTables_spec h.word h.entry h.inj 1024 0 le_rfl rfl
    fun j _ hj => h.table_held j (by omega)
  have hword : read32 (pagingFreeTables chunk 1024 0 s).mem chunk = blockAddr d := by
    rw [hspec.mem, h.word]
  rw [pagingFree4gb, hword, kfree_kfreed, kfree_kfreed, htables, h.chunk_eq, List.range_eq_range']
  rfl

/-- What was taken for a directory is freed, and free entries were zero before. -/
lemma NewDir.balance {s₀ s : Kmem} {live : List (Word × ℕ)} {flags : Byte} {d : ℕ} {a : ℕ → Word}
    (hnew : NewDir s₀ s (flags.setWidth 32) chunk d a) (htable : Represents s₀.kernelHeap live)
    (hchunk : chunk ≠ 0) (hne : ∀ j < 1024, a j ≠ 0) (calls : List PagingCall) :
    let s' := s.withMem (runCalls s.mem chunk calls)
    (pagingFree4gb s' chunk).entries = s₀.entries ∧
    ∃ c d table, chunk = blockAddr c ∧ GrownBy s₀ s (dirSet c d table) ∧
      (∀ i < 1024, ∀ j < 1024, table i = table j → i = j) ∧
      (∀ i < 1024, pagingTable s'.mem (read32 s'.mem chunk) i = blockAddr (table i)) ∧
      (pagingFree4gb s' chunk).kfreed = blockAddr c :: blockAddr d ::
        ((List.range 1024).map fun j => blockAddr (table j)).reverse ++ s.kfreed := by
  intro s'
  obtain ⟨c, table, hheld, hset⟩ := hnew.held hchunk
  have hgrown := hnew.grown
  rw [hset] at hgrown
  have hheld' := hheld.runCalls hnew hne calls
  have hshrunk := pagingFree4gb_spec hheld'
  refine ⟨?_, c, d, table, hheld.chunk_eq, hgrown, hheld.inj, fun i hi => ?_, hheld'.kfreed⟩
  · funext x
    by_cases hx : ∃ b ∈ dirSet c d table, x = b
    · obtain ⟨b, hb, rfl⟩ := hx
      obtain ⟨hlt, hbfree⟩ := hgrown.fresh b hb
      rw [hshrunk.cleared b hb]
      refine (htable.entry_eq_free ?_ hbfree).symm
      rwa [s₀.total_toNat]
    · have hoff : ∀ b ∈ dirSet c d table, x ≠ b := fun b hb heq => hx ⟨b, hb, heq⟩
      rw [hshrunk.same x hoff]
      exact hgrown.same x hoff
  · rw [hheld'.word]
    exact hheld'.entry i hi

/-- A page directory gives back exactly what it took: for every tiled heap table with 1026
free blocks, every flags byte and every sequence of mapping calls in between,
`paging_free_4gb` restores the table. It frees the tables of the directory, which are
the ones `paging_new_4gb` allocated, once each, then the directory and the chunk. -/
theorem pagingFree4gb_balance (s₀ : Kmem) {live : List (Word × ℕ)}
    (htable : Represents s₀.kernelHeap live)
    (hfree : 1026 ≤ ((Finset.range 25600).filter fun b => IsFree s₀.entries b).card) (flags : Byte)
    (calls : List PagingCall) :
    let chunk := (pagingNew4gb s₀ flags).1
    let s := (pagingNew4gb s₀ flags).2
    let s' := s.withMem (runCalls s.mem chunk calls)
    (pagingFree4gb s' chunk).entries = s₀.entries ∧
    ∃ c d table, chunk = blockAddr c ∧ GrownBy s₀ s (dirSet c d table) ∧
      (∀ i < 1024, ∀ j < 1024, table i = table j → i = j) ∧
      (∀ i < 1024, pagingTable s'.mem (read32 s'.mem chunk) i = blockAddr (table i)) ∧
      (pagingFree4gb s' chunk).kfreed = blockAddr c :: blockAddr d ::
        ((List.range 1024).map fun j => blockAddr (table j)).reverse ++ s.kfreed := by
  obtain ⟨d, a, hnew, hchunk, hne⟩ := pagingNew4gb_new s₀ flags _ hfree fun b hb => by
    obtain ⟨hlt, hbfree⟩ := Finset.mem_filter.1 hb
    exact ⟨Finset.mem_range.1 hlt, hbfree⟩
  exact hnew.balance htable hchunk hne calls

lemma emptyKmem_represents : Represents emptyKmem.kernelHeap [] := by
  have hpool : (heapAddress + 104857600 - heapAddress).toNat < 2 ^ 31 := by decide
  have hcreate : (heapCreate ⟨⟨fun _ => 0, 25600⟩, 0⟩ heapAddress (heapAddress + 104857600)
      ⟨fun _ => 0, 25600⟩).1 = 0 := by decide
  exact heapCreate_represents (Prod.ext hcreate rfl) hpool

theorem pagingFree4gb_balance_oneMap :
    let chunk := (pagingNew4gb emptyKmem 5).1
    let s := (pagingNew4gb emptyKmem 5).2
    (pagingFree4gb (s.withMem (runCalls s.mem chunk [.map 0x400000 0x1002000 7])) chunk).entries =
      emptyKmem.entries := by
  have hfree : 1026 ≤ ((Finset.range 25600).filter fun b => IsFree emptyKmem.entries b).card := by
    have hall : ((Finset.range 25600).filter fun b => IsFree emptyKmem.entries b) =
        Finset.range 25600 :=
      Finset.filter_true_of_mem fun b hb => kheapInit_free _ _ (Finset.mem_range.1 hb)
    rw [hall, Finset.card_range]
    omega
  exact (pagingFree4gb_balance emptyKmem emptyKmem_represents hfree 5 _).1

end AlphaOS.Paging
