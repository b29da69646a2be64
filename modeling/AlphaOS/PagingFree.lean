import AlphaOS.KheapBlocks
import AlphaOS.PagingAlloc

/-! `paging_free_4gb` on the directories `paging_new_4gb` built: it frees the blocks of
the tables, of the directory and of the chunk, and nothing else. -/
namespace AlphaOS.Paging
open BlockHeap Kheap WordMemory

/-- The block is an allocation of its own. -/
def Held (s : Kmem) (b : ℕ) : Prop := b < 25600 ∧ s.entries b = blockEntry 1 0

/-- From `s` to `s'` exactly the blocks of `B` were freed. -/
structure ShrunkBy (s s' : Kmem) (B : Set ℕ) : Prop where
  cleared : ∀ b ∈ B, s'.entries b = entryFree
  same : ∀ x : ℤ, (∀ b ∈ B, x ≠ b) → s'.entries x = s.entries x
  mem : s'.mem = s.mem

variable {s s' s'' : Kmem} {B C : Set ℕ} {b c d : ℕ} {chunk : Word} {table : ℕ → ℕ}

lemma Held.allocated (h : Held s b) : Allocated s.kernelHeap b 1 := by
  refine ⟨one_pos, ?_, fun j hj => ?_⟩
  · rw [s.total_toNat]
    have := h.1
    omega
  · obtain rfl : j = 0 := by omega
    exact h.2

lemma Held.not_free (h : Held s b) : ¬ IsFree s.entries b :=
  h.allocated.not_free ⟨le_rfl, by omega⟩

lemma ShrunkBy.refl (s : Kmem) : ShrunkBy s s ∅ := ⟨by simp, fun _ _ => rfl, rfl⟩

lemma ShrunkBy.trans (h : ShrunkBy s s' B) (h' : ShrunkBy s' s'' C) : ShrunkBy s s'' (B ∪ C) := by
  refine ⟨fun b hb => ?_, fun x hx => ?_, h'.mem.trans h.mem⟩
  · by_cases hC : b ∈ C
    · exact h'.cleared b hC
    · rw [h'.same b fun c hc heq => hC (by rwa [Nat.cast_inj.1 heq])]
      exact h.cleared b (hb.resolve_right hC)
  · rw [h'.same x fun c hc => hx c (.inr hc), h.same x fun c hc => hx c (.inl hc)]

lemma ShrunkBy.held (h : ShrunkBy s s' B) (hb : Held s b) (hB : b ∉ B) : Held s' b := by
  refine ⟨hb.1, ?_⟩
  rw [h.same b fun c hc heq => hB (by rwa [Nat.cast_inj.1 heq])]
  exact hb.2

lemma kfree_held (h : Held s b) : ShrunkBy s (kfree s (blockAddr b)) {b} := by
  have hentries : ∀ x : ℤ, (kfree s (blockAddr b)).entries x =
      if x = b then entryFree else s.entries x := by
    intro x
    rw [kfree_spec s h.allocated]
    change overwrite s.entries b 1 (fun _ => entryFree) x = _
    unfold overwrite
    by_cases hx : x = b
    · rw [if_pos (by omega), if_pos hx]
    · rw [if_neg (by omega), if_neg hx]
  refine ⟨?_, fun x hx => ?_, rfl⟩
  · rintro c rfl
    rw [hentries, if_pos rfl]
  · rw [hentries, if_neg (hx b rfl)]

/-- A directory whose chunk, directory and tables sit in distinct held blocks. -/
structure DirHeld (s : Kmem) (chunk : Word) (c d : ℕ) (table : ℕ → ℕ) : Prop where
  chunk_eq : chunk = blockAddr c
  word : read32 s.mem chunk = blockAddr d
  entry : ∀ i < 1024, read32 s.mem (blockAddr d + BitVec.ofNat 32 (4 * i)) &&& 0xFFFFF000#32 =
    blockAddr (table i)
  chunk_held : Held s c
  dir_held : Held s d
  table_held : ∀ i < 1024, Held s (table i)
  chunk_ne : c ≠ d ∧ ∀ i < 1024, table i ≠ c
  dir_ne : ∀ i < 1024, table i ≠ d
  inj : ∀ i < 1024, ∀ j < 1024, table i = table j → i = j

def tableSet (table : ℕ → ℕ) (i k : ℕ) : Set ℕ := {b | ∃ j, i ≤ j ∧ j < i + k ∧ b = table j}

/-- The blocks of a directory. -/
def dirSet (c d : ℕ) (table : ℕ → ℕ) : Set ℕ := {b | b = c ∨ b = d ∨ ∃ i < 1024, b = table i}

lemma DirHeld.held (h : DirHeld s chunk c d table) (hb : b ∈ dirSet c d table) : Held s b := by
  rcases hb with rfl | rfl | ⟨i, hi, rfl⟩
  · exact h.chunk_held
  · exact h.dir_held
  · exact h.table_held i hi

/-- The loop passes the words of the directory on to `kfree`, one by one. -/
lemma pagingFreeTables_induct {mem : Mem} {chunk : Word} {P : Kmem → Prop} (k i : ℕ) {s : Kmem}
    (hmem : s.mem = mem) (h : P s)
    (hstep : ∀ s j, i ≤ j → j < i + k → P s → P (kfree s
      (read32 mem (read32 mem chunk + BitVec.ofNat 32 (4 * j)) &&& 0xFFFFF000#32))) :
    P (pagingFreeTables chunk k i s) ∧ (pagingFreeTables chunk k i s).mem = mem := by
  induction k generalizing i s with
  | zero => exact ⟨h, hmem⟩
  | succ k ih =>
    rw [pagingFreeTables, hmem]
    exact ih (i + 1) hmem (hstep s i le_rfl (by omega) h) fun s j h1 h2 =>
      hstep s j (by omega) (by omega)

/-- The loop over the tables from `i` on. -/
lemma pagingFreeTables_spec {mem : Mem} (hword : read32 mem chunk = blockAddr d)
    (hentry : ∀ i < 1024, read32 mem (blockAddr d + BitVec.ofNat 32 (4 * i)) &&& 0xFFFFF000#32 =
      blockAddr (table i))
    (hinj : ∀ i < 1024, ∀ j < 1024, table i = table j → i = j) (k i : ℕ) (hk : i + k ≤ 1024)
    (hmem : s.mem = mem) (hheld : ∀ j, i ≤ j → j < i + k → Held s (table j)) :
    ShrunkBy s (pagingFreeTables chunk k i s) (tableSet table i k) := by
  induction k generalizing i s with
  | zero =>
    have hnone : tableSet table i 0 = ∅ := by
      ext b
      simp only [tableSet, Set.mem_ofPred_eq, Set.mem_empty_iff_false, iff_false]
      rintro ⟨j, h1, h2, -⟩
      omega
    rw [hnone]
    exact ShrunkBy.refl s
  | succ k ih =>
    have hfirst := kfree_held (hheld i le_rfl (by omega))
    have hrest := ih (i + 1) (by omega) (hfirst.mem.trans hmem) fun j h1 h2 =>
      hfirst.held (hheld j (by omega) (by omega)) fun heq =>
        absurd (hinj j (by omega) i (by omega) heq) (by omega)
    have hset : tableSet table i (k + 1) = {table i} ∪ tableSet table (i + 1) k := by
      ext b
      constructor
      · rintro ⟨j, h1, h2, rfl⟩
        by_cases hji : j = i
        · exact .inl (by rw [hji]; rfl)
        · exact .inr ⟨j, by omega, by omega, rfl⟩
      · rintro (rfl | ⟨j, h1, h2, rfl⟩)
        · exact ⟨i, le_rfl, by omega, rfl⟩
        · exact ⟨j, by omega, by omega, rfl⟩
    rw [pagingFreeTables, hmem, hword, hentry i (by omega), hset]
    exact hfirst.trans hrest

/-- `paging_free_4gb` frees the blocks of its directory. -/
theorem pagingFree4gb_spec (h : DirHeld s chunk c d table) :
    ShrunkBy s (pagingFree4gb s chunk) (dirSet c d table) := by
  have htables := pagingFreeTables_spec h.word h.entry h.inj 1024 0 le_rfl rfl
    fun j _ hj => h.table_held j (by omega)
  have hoff : ∀ b, (∀ i < 1024, table i ≠ b) → b ∉ tableSet table 0 1024 := by
    rintro b hb ⟨j, -, hj, rfl⟩
    exact hb j (by omega) rfl
  have hdir := kfree_held (htables.held h.dir_held (hoff d h.dir_ne))
  have hchunk := kfree_held ((htables.trans hdir).held h.chunk_held (by
    rintro (hmem | hmem)
    · exact hoff c h.chunk_ne.2 hmem
    · exact h.chunk_ne.1 hmem))
  have hset : dirSet c d table = tableSet table 0 1024 ∪ {d} ∪ {c} := by
    ext b
    constructor
    · rintro (rfl | rfl | ⟨i, hi, rfl⟩)
      · exact .inr rfl
      · exact .inl (.inr rfl)
      · exact .inl (.inl ⟨i, by omega, by omega, rfl⟩)
    · rintro ((⟨i, -, hi, rfl⟩ | rfl) | rfl)
      · exact .inr (.inr ⟨i, by omega, rfl⟩)
      · exact .inr (.inl rfl)
      · exact .inl rfl
  have hword : read32 (pagingFreeTables chunk 1024 0 s).mem chunk = blockAddr d := by
    rw [htables.mem, h.word]
  rw [hset, pagingFree4gb, hword, h.chunk_eq]
  rw [h.chunk_eq] at htables hdir hchunk
  exact (htables.trans hdir).trans hchunk

end AlphaOS.Paging
