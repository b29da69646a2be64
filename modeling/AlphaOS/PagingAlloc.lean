import AlphaOS.PagingSpec

/-! The page directories `paging_new_4gb` builds: which heap blocks they take, what the
directory and its tables hold, and when an allocation inside can fail. -/
namespace AlphaOS.Paging
open BlockHeap Kheap WordMemory

/-- From `s₀` to `s` exactly the blocks of `B` were taken, one allocation each, and
memory changed only in their pages and in page 0, where null pointers are written. -/
structure GrownBy (s₀ s : Kmem) (B : Set ℕ) : Prop where
  fresh : ∀ b ∈ B, b < 25600 ∧ IsFree s₀.entries b
  taken : ∀ b ∈ B, s.entries b = blockEntry 1 0
  same : ∀ x : ℤ, (∀ b ∈ B, x ≠ b) → s.entries x = s₀.entries x
  mem : SameOff (insert 0 {p | ∃ b ∈ B, p = 4096 + b}) s₀.mem s.mem
  kfreed : s.kfreed = s₀.kfreed

variable {s₀ s : Kmem} {B : Set ℕ}

lemma GrownBy.refl (s : Kmem) : GrownBy s s ∅ :=
  ⟨by simp, by simp, fun _ _ => rfl, SameOff.refl _ _, rfl⟩

lemma GrownBy.trans {s' : Kmem} {C : Set ℕ} (h : GrownBy s₀ s B) (h' : GrownBy s s' C) :
    GrownBy s₀ s' (B ∪ C) := by
  have hnot : ∀ b ∈ C, ∀ c ∈ B, (b : ℤ) ≠ c := by
    intro b hb c hc heq
    have hfree := (h'.fresh b hb).2
    rw [Nat.cast_inj.1 heq, IsFree, h.taken c hc, blockEntry_type] at hfree
    exact absurd hfree (by decide)
  refine ⟨?_, ?_, fun x hx => ?_, ?_, h'.kfreed.trans h.kfreed⟩
  · rintro b (hb | hb)
    · exact h.fresh b hb
    · obtain ⟨hlt, hfree⟩ := h'.fresh b hb
      rw [IsFree, h.same b (hnot b hb)] at hfree
      exact ⟨hlt, hfree⟩
  · rintro b (hb | hb)
    · rw [h'.same b fun c hc => (hnot c hc b hb).symm]
      exact h.taken b hb
    · exact h'.taken b hb
  · rw [h'.same x fun c hc => hx c (.inr hc), h.same x fun c hc => hx c (.inl hc)]
  · refine (h.mem.trans h'.mem).mono ?_
    rintro p ((rfl | ⟨b, hb, rfl⟩) | (rfl | ⟨b, hb, rfl⟩))
    · exact .inl rfl
    · exact .inr ⟨b, .inl hb, rfl⟩
    · exact .inl rfl
    · exact .inr ⟨b, .inr hb, rfl⟩

lemma GrownBy.setMem (h : GrownBy s₀ s B) {m : Mem}
    (hm : SameOff (insert 0 {p | ∃ b ∈ B, p = 4096 + b}) s.mem m) :
    GrownBy s₀ (s.withMem m) B :=
  ⟨h.fresh, h.taken, h.same, by simpa using h.mem.trans hm, h.kfreed⟩

/-- The block taken for a one-block request, or nothing when none is free. -/
lemma kzalloc_single (s : Kmem) {size : Word} (hsize : (heapBlocksFor size).toNat = 1) :
    ((∀ b < 25600, ¬ IsFree s.entries b) ∧ kzalloc s size = (0, s)) ∨
    ∃ b < 25600, IsFree s.entries b ∧
      kzalloc s size =
        (blockAddr b, (s.take 1 b).withMem (fill s.mem (blockAddr b) size.toNat 0)) := by
  have hfit : ∀ b, FitsAt s.entries 25600 1 b ↔ b < 25600 ∧ IsFree s.entries b := by
    intro b
    constructor
    · intro h
      exact ⟨by have := h.1; omega, h.2 b le_rfl (by omega)⟩
    · rintro ⟨hb, hf⟩
      refine ⟨by omega, fun j h1 h2 => ?_⟩
      obtain rfl : j = b := by omega
      exact hf
  have hspec := kmalloc_spec s size (by omega)
  rw [hsize] at hspec
  rcases hspec with ⟨b, hb, -, heq⟩ | ⟨hno, heq | ⟨b, hb, htail, -⟩⟩
  · have hlt := ((hfit b).1 hb).1
    refine .inr ⟨b, hlt, ((hfit b).1 hb).2, ?_⟩
    simp only [kzalloc, heq]
    rw [if_pos (blockAddr_ne_zero (by omega))]
    rfl
  · refine .inl ⟨fun b hb hf => hno ⟨b, (hfit b).2 ⟨hb, hf⟩⟩, ?_⟩
    simp [kzalloc, heq]
  · exact absurd ⟨b, (hfit b).2 ⟨hb, htail b le_rfl hb⟩⟩ hno

lemma take_one_entries (s : Kmem) (b : ℕ) (x : ℤ) :
    (s.take 1 b).entries x = if x = b then blockEntry 1 0 else s.entries x := by
  simp only [Kmem.take, Kmem.withEntries_entries, overwrite]
  by_cases hx : x = b
  · subst hx
    rw [if_pos (by omega), if_pos rfl]
    congr 1
    omega
  · rw [if_neg (by omega), if_neg hx]

/-- A page-aligned word's page holds its fill. -/
lemma fill_page (m : Mem) {a : Word} (ha : a.toNat % 4096 = 0) {n : ℕ} (hn : n ≤ 4096) (v : Byte) :
    SameOff {pageOf a} m (fill m a n v) := by
  refine (fill_sameOff m ha (show n ≤ 4096 * 1 by omega) ?_ v).mono ?_
  · have := a.isLt
    omega
  · intro p hp
    simp only [Set.mem_ofPred_eq] at hp
    simp only [Set.mem_singleton_iff]
    omega

/-- One more single block. -/
lemma GrownBy.take (h : GrownBy s₀ s B) {b : ℕ} (hb : b < 25600) (hf : IsFree s.entries b)
    {n : ℕ} (hn : n ≤ 4096) :
    b ∉ B ∧ GrownBy s₀ ((s.take 1 b).withMem (fill s.mem (blockAddr b) n 0)) (insert b B) := by
  have hnot : b ∉ B := by
    intro hmem
    have htype : heapGetEntryType (s.entries b) = entryFree := hf
    rw [h.taken b hmem, blockEntry_type] at htype
    exact absurd htype (by decide)
  have hentries : ∀ x : ℤ, (s.take 1 b).entries x =
      if x = b then blockEntry 1 0 else s.entries x := take_one_entries s b
  have hfree₀ : IsFree s₀.entries b := by
    have hsame : s.entries b = s₀.entries b := h.same b fun c hc heq => hnot (by
      obtain rfl : b = c := by exact_mod_cast heq
      exact hc)
    unfold IsFree at hf ⊢
    rw [← hsame]
    exact hf
  refine ⟨hnot, ?_, ?_, ?_, ?_, h.kfreed⟩
  · rintro c (rfl | hc)
    · exact ⟨hb, hfree₀⟩
    · exact h.fresh c hc
  · rintro c (rfl | hc)
    · exact (hentries c).trans (if_pos rfl)
    · refine (hentries c).trans ?_
      split_ifs with heq
      · rfl
      · exact h.taken c hc
  · intro x hx
    refine (hentries x).trans ?_
    rw [if_neg (hx b (Set.mem_insert _ _))]
    exact h.same x fun c hc => hx c (Set.mem_insert_of_mem _ hc)
  · have hpage : pageOf (blockAddr b) = 4096 + b := pageOf_blockAddr (by omega)
    have hfill := fill_page s.mem (blockAddr_aligned (b := b) (by omega)) hn 0
    refine (h.mem.trans hfill).mono ?_
    rintro p (hp | hp)
    · rcases hp with hp | ⟨c, hc, hp⟩
      · exact .inl hp
      · exact .inr ⟨c, Set.mem_insert_of_mem _ hc, hp⟩
    · refine .inr ⟨b, Set.mem_insert _ _, ?_⟩
      rw [← hpage]
      exact hp

/-- The fill writes one page, entry by entry. -/
lemma pagingFillTable_spec {entry : Word} (ha : entry.toNat % 4096 = 0) (offset flags : Word)
    (k j : ℕ) (hk : j + k ≤ 1024) (mem : Mem) :
    SameOff {pageOf entry} mem (pagingFillTable entry offset flags k j mem) ∧
    ∀ l < 1024, read32 (pagingFillTable entry offset flags k j mem) (entry + BitVec.ofNat 32 (4 * l)) =
      if j ≤ l ∧ l < j + k then (offset + BitVec.ofNat 32 (l * 4096)) ||| flags
      else read32 mem (entry + BitVec.ofNat 32 (4 * l)) := by
  induction k generalizing j mem with
  | zero =>
    refine ⟨SameOff.refl _ _, fun l _ => ?_⟩
    rw [if_neg (by omega)]
    rfl
  | succ k ih =>
    obtain ⟨hoff, hread⟩ := ih (j + 1) (by omega) (write32 mem (entry + BitVec.ofNat 32 (4 * j))
      ((offset + BitVec.ofNat 32 (j * 4096)) ||| flags))
    have hwrite := write32_slot_sameOff mem ha (show j < 1024 by omega)
      ((offset + BitVec.ofNat 32 (j * 4096)) ||| flags)
    refine ⟨by simpa [pagingFillTable] using hwrite.trans hoff, fun l hl => ?_⟩
    rw [pagingFillTable, hread l hl, read32_write32_slot mem ha (by omega) hl]
    by_cases hlj : l = j
    · rw [if_neg (by omega), if_pos hlj, if_pos (by omega), hlj]
    · rw [if_neg hlj]
      by_cases hr : j + 1 ≤ l ∧ l < j + 1 + k
      · rw [if_pos hr, if_pos (by omega)]
      · rw [if_neg hr, if_neg (by omega)]

/-- The blocks of a directory at block `d` and of its first `i` tables. -/
def tableBlocks (d : ℕ) (a : ℕ → Word) (i : ℕ) : Set ℕ :=
  {b | b < 25600 ∧ (b = d ∨ ∃ j < i, a j = blockAddr b)}

/-- The state of `paging_new_4gb` after `i` tables: `a j` is the address `kzalloc` gave
for table `j`, null when no block was free. -/
structure Built (s₀ s : Kmem) (flags : Word) (d : ℕ) (a : ℕ → Word) (i : ℕ) : Prop where
  dir_lt : d < 25600
  grown : GrownBy s₀ s (tableBlocks d a i)
  null_or : ∀ j < i, a j = 0 ∨ ∃ b < 25600, b ≠ d ∧ a j = blockAddr b
  inj : ∀ j < i, ∀ j' < i, a j ≠ 0 → a j = a j' → j = j'
  entry : ∀ j < i, read32 s.mem (blockAddr d + BitVec.ofNat 32 (4 * j)) =
    a j ||| flags ||| pagingIsWritable
  ident : ∀ j < i, a j ≠ 0 → ∀ l < 1024, read32 s.mem (a j + BitVec.ofNat 32 (4 * l)) =
    BitVec.ofNat 32 (j * 4194304 + l * 4096) ||| flags
  full : (∃ j < i, a j = 0) → ∀ b < 25600, ¬ IsFree s.entries b

variable {flags : Word} {d i : ℕ} {a : ℕ → Word}

/-- One more table adds its block. -/
lemma mem_tableBlocks_update (d : ℕ) (a : ℕ → Word) (i : ℕ) (e : Word) (c : ℕ) :
    c ∈ tableBlocks d (Function.update a i e) (i + 1) ↔
      c ∈ tableBlocks d a i ∨ c < 25600 ∧ e = blockAddr c := by
  simp only [tableBlocks, Set.mem_ofPred_eq]
  rw [← and_or_left, or_assoc]
  refine and_congr_right fun _ => or_congr_right ⟨?_, ?_⟩
  · rintro ⟨j, hj, heq⟩
    by_cases hji : j = i
    · subst hji
      rw [Function.update_self] at heq
      exact .inr heq
    · rw [Function.update_of_ne hji] at heq
      exact .inl ⟨j, by omega, heq⟩
  · rintro (⟨j, hj, heq⟩ | heq)
    · exact ⟨j, by omega, by rwa [Function.update_of_ne (by omega)]⟩
    · exact ⟨i, by omega, by rwa [Function.update_self]⟩

/-- What the next allocation of a page gives. -/
lemma Built.alloc (h : Built s₀ s flags d a i) :
    ∃ s₁, kzalloc s 4096 = ((kzalloc s 4096).1, s₁) ∧
      GrownBy s₀ s₁ (tableBlocks d (Function.update a i (kzalloc s 4096).1) (i + 1)) ∧
      SameOff {pageOf (kzalloc s 4096).1} s.mem s₁.mem ∧
      (∀ j < i, a j ≠ (kzalloc s 4096).1 ∨ a j = 0) ∧
      (((kzalloc s 4096).1 = 0 ∧ ∀ b < 25600, ¬ IsFree s₁.entries b) ∨
        (∃ b < 25600, b ≠ d ∧ (kzalloc s 4096).1 = blockAddr b) ∧ ∀ j < i, a j ≠ 0) := by
  rcases kzalloc_single s (show (heapBlocksFor 4096).toNat = 1 by decide) with ⟨hfull, heq⟩ | ⟨b, hb, hf, heq⟩
  · rw [heq]
    refine ⟨s, rfl, ?_, SameOff.refl _ _, fun j _ => em' _ , .inl ⟨rfl, hfull⟩⟩
    have hset : tableBlocks d (Function.update a i 0) (i + 1) = tableBlocks d a i := by
      ext c
      rw [mem_tableBlocks_update]
      exact or_iff_left fun ⟨hc, hnull⟩ => blockAddr_ne_zero (by omega) hnull.symm
    rw [hset]
    exact h.grown
  · rw [heq]
    have hn : (4096 : Word).toNat ≤ 4096 := by decide
    obtain ⟨hnot, hgrown⟩ := h.grown.take hb hf hn
    have hnotd : b ≠ d := by
      rintro rfl
      exact hnot ⟨hb, .inl rfl⟩
    have hnew : ∀ j < i, a j ≠ blockAddr b := fun j hj heq => hnot ⟨hb, .inr ⟨j, hj, heq⟩⟩
    refine ⟨_, rfl, ?_, ?_, fun j hj => .inl (hnew j hj), .inr ⟨⟨b, hb, hnotd, rfl⟩, ?_⟩⟩
    · have hset : tableBlocks d (Function.update a i (blockAddr b)) (i + 1) =
          insert b (tableBlocks d a i) := by
        ext c
        rw [mem_tableBlocks_update, Set.mem_insert_iff, or_comm]
        refine or_congr_left ⟨fun ⟨hc, heq⟩ => ?_, ?_⟩
        · exact blockAddr_inj (by omega) (by omega) heq.symm
        · rintro rfl
          exact ⟨hb, rfl⟩
      rw [hset]
      exact hgrown
    · exact fill_page s.mem (blockAddr_aligned (by omega)) hn 0
    · intro j hj h0
      exact h.full ⟨j, hj, h0⟩ b hb hf

/-- The entries stay when the page of the directory does. -/
lemma Built.entry_kept (h : Built s₀ s flags d a i) (hi : i ≤ 1024) {S : Set ℕ} {mem : Mem}
    (hoff : SameOff S s.mem mem) (hS : 4096 + d ∉ S) {j : ℕ} (hj : j < i) :
    read32 mem (blockAddr d + BitVec.ofNat 32 (4 * j)) = a j ||| flags ||| pagingIsWritable := by
  have hd := h.dir_lt
  rw [read32_slot_of_sameOff hoff (blockAddr_aligned (by omega)) _ (by omega), h.entry j hj]
  rwa [pageOf_blockAddr (by omega)]

/-- The tables stay when their pages do. -/
lemma Built.ident_kept (h : Built s₀ s flags d a i) {S : Set ℕ} {mem : Mem}
    (hoff : SameOff S s.mem mem) {j : ℕ} (hj : j < i) (hne : a j ≠ 0)
    (hS : ∀ b < 25600, b ≠ d → a j = blockAddr b → 4096 + b ∉ S) {l : ℕ} (hl : l < 1024) :
    read32 mem (a j + BitVec.ofNat 32 (4 * l)) =
      BitVec.ofNat 32 (j * 4194304 + l * 4096) ||| flags := by
  obtain ⟨b, hb, hbd, hjb⟩ := (h.null_or j hj).resolve_left hne
  have hpage : pageOf (a j) ∉ S := by
    rw [hjb, pageOf_blockAddr (by omega)]
    exact hS b hb hbd hjb
  have haligned : (a j).toNat % 4096 = 0 := hjb ▸ blockAddr_aligned (by omega)
  rw [read32_slot_of_sameOff hoff haligned hpage hl, h.ident j hj hne l hl]

/-- A new address differs from those before it, unless both are null. -/
lemma update_distinct {e : Word} (hinj : ∀ j < i, ∀ j' < i, a j ≠ 0 → a j = a j' → j = j')
    (hdiff : ∀ j < i, a j ≠ e ∨ a j = 0) :
    ∀ j < i + 1, ∀ j' < i + 1, Function.update a i e j ≠ 0 →
      Function.update a i e j = Function.update a i e j' → j = j' := by
  have hupd : ∀ j < i, Function.update a i e j = a j :=
    fun j hj => Function.update_of_ne (by omega) _ _
  intro j hj j' hj' hne hjj
  by_cases hji : j = i <;> by_cases hji' : j' = i
  · omega
  · subst hji
    rw [Function.update_self] at hne hjj
    rw [hupd j' (by omega)] at hjj
    rcases hdiff j' (by omega) with hd' | hd'
    · exact absurd hjj.symm hd'
    · exact absurd (hjj.trans hd') hne
  · subst hji'
    rw [Function.update_self] at hjj
    rw [hupd j (by omega)] at hne hjj
    rcases hdiff j (by omega) with hd' | hd'
    · exact absurd hjj hd'
    · exact absurd hd' hne
  · rw [hupd j (by omega)] at hne hjj
    rw [hupd j' (by omega)] at hjj
    exact hinj j (by omega) j' (by omega) hne hjj

/-- One turn of the loop of `paging_new_4gb`. -/
theorem Built.step (h : Built s₀ s flags d a i) (hi : i < 1024) :
    Built s₀ ((kzalloc s 4096).2.withMem (write32
        (pagingFillTable (kzalloc s 4096).1 (BitVec.ofNat 32 (i * 4194304)) flags 1024 0
          (kzalloc s 4096).2.mem)
        (blockAddr d + BitVec.ofNat 32 (4 * i))
        ((kzalloc s 4096).1 ||| flags ||| pagingIsWritable)))
      flags d (Function.update a i (kzalloc s 4096).1) (i + 1) := by
  obtain ⟨s₁, heq, hgrown, hoff, hdiff, hcase⟩ := h.alloc
  have hs₁ : (kzalloc s 4096).2 = s₁ := congrArg Prod.snd heq
  rw [hs₁]
  generalize (kzalloc s 4096).1 = e at *
  have hd := h.dir_lt
  have hdpage : pageOf (blockAddr d) = 4096 + d := pageOf_blockAddr (by omega)
  have hda : (blockAddr d).toNat % 4096 = 0 := blockAddr_aligned (by omega)
  have hea : e.toNat % 4096 = 0 := by
    rcases hcase with ⟨rfl, -⟩ | ⟨⟨b, hb, -, rfl⟩, -⟩
    · rfl
    · exact blockAddr_aligned (by omega)
  have hepage : pageOf e ≠ 4096 + d := by
    rcases hcase with ⟨rfl, -⟩ | ⟨⟨b, hb, hbd, rfl⟩, -⟩
    · simp [pageOf]; omega
    · rw [pageOf_blockAddr (by omega)]
      omega
  obtain ⟨hfill, hread⟩ := pagingFillTable_spec hea (BitVec.ofNat 32 (i * 4194304)) flags 1024 0
    (by omega) s₁.mem
  generalize hm₁ : pagingFillTable e (BitVec.ofNat 32 (i * 4194304)) flags 1024 0 s₁.mem = m₁ at *
  have hwrite := write32_slot_sameOff m₁ hda hi (e ||| flags ||| pagingIsWritable)
  rw [hdpage] at hwrite
  have hupd : ∀ j < i, Function.update a i e j = a j :=
    fun j hj => Function.update_of_ne (by omega) _ _
  refine ⟨hd, hgrown.setMem ?_, ?_, update_distinct h.inj hdiff, ?_, ?_, ?_⟩
  · refine (hfill.trans hwrite).mono ?_
    rintro p (rfl | rfl)
    · rcases hcase with ⟨rfl, -⟩ | ⟨⟨b, hb, -, rfl⟩, -⟩
      · exact .inl rfl
      · exact .inr ⟨b, ⟨hb, .inr ⟨i, by omega, Function.update_self _ _ _⟩⟩,
          pageOf_blockAddr (by omega)⟩
    · exact .inr ⟨d, ⟨hd, .inl rfl⟩, rfl⟩
  · intro j hj
    by_cases hji : j = i
    · subst hji
      rw [Function.update_self]
      exact hcase.imp And.left And.left
    · rw [hupd j (by omega)]
      exact h.null_or j (by omega)
  · intro j hj
    rw [Kmem.withMem_mem, read32_write32_slot m₁ hda hi (by omega)]
    by_cases hji : j = i
    · rw [if_pos hji, hji, Function.update_self]
    · rw [if_neg hji, hupd j (by omega)]
      refine h.entry_kept hi.le (hoff.trans hfill) ?_ (by omega)
      simpa using hepage.symm
  · intro j hj hne l hl
    by_cases hji : j = i
    · subst hji
      rw [Function.update_self] at hne ⊢
      rw [Kmem.withMem_mem, read32_slot_of_sameOff hwrite hea hepage hl, hread l hl, if_pos (by omega),
        ← BitVec.ofNat_add]
    · rw [hupd j (by omega)] at hne ⊢
      -- the pages of the older tables are not touched
      refine h.ident_kept ((hoff.trans hfill).trans hwrite) (by omega) hne (fun b hb hbd hjb => ?_) hl
      have hapart : 4096 + b ≠ pageOf e := by
        rcases hcase with ⟨rfl, -⟩ | ⟨⟨c, hc, -, rfl⟩, -⟩
        · simp [pageOf]
        · rw [pageOf_blockAddr (by omega)]
          intro hp
          obtain rfl : b = c := by omega
          exact (hdiff j (by omega)).elim (fun hother => hother hjb) hne
      simp only [Set.mem_union, Set.mem_singleton_iff]
      omega
  · rintro ⟨j, hj, h0⟩ b hb
    rcases hcase with ⟨-, hfull⟩ | ⟨⟨c, hc, -, hec⟩, hnz⟩
    · exact hfull b hb
    · by_cases hji : j = i
      · subst hji
        rw [Function.update_self, hec] at h0
        exact absurd h0 (blockAddr_ne_zero (by omega))
      · rw [hupd j (by omega)] at h0
        exact absurd h0 (hnz j (by omega))

/-- The whole loop of `paging_new_4gb`. -/
theorem Built.run (k : ℕ) (h : Built s₀ s flags d a i) (hk : i + k = 1024) :
    ∃ a', Built s₀ (pagingNewTables (blockAddr d) flags k i (BitVec.ofNat 32 (i * 4194304)) s)
      flags d a' 1024 := by
  induction k generalizing s a i with
  | zero =>
    obtain rfl : i = 1024 := by omega
    exact ⟨a, h⟩
  | succ k ih =>
    have hstep := h.step (by omega)
    have hoff : BitVec.ofNat 32 (i * 4194304) + 0x400000 = BitVec.ofNat 32 ((i + 1) * 4194304) := by
      rw [Nat.add_mul, BitVec.ofNat_add]
      rfl
    rw [pagingNewTables, hoff]
    exact ih hstep (by omega)

/-- The blocks of a directory, of its tables and of its chunk. -/
def dirBlocks (d : ℕ) (a : ℕ → Word) (chunk : Word) : Set ℕ :=
  {b | b < 25600 ∧ (b = d ∨ (∃ j < 1024, a j = blockAddr b) ∨ chunk = blockAddr b)}

/-- What `paging_new_4gb` leaves when its directory got block `d`. -/
structure NewDir (s₀ s : Kmem) (flags chunk : Word) (d : ℕ) (a : ℕ → Word) : Prop where
  dir_lt : d < 25600
  grown : GrownBy s₀ s (dirBlocks d a chunk)
  null_or : ∀ j < 1024, a j = 0 ∨ ∃ b < 25600, b ≠ d ∧ a j = blockAddr b
  inj : ∀ j < 1024, ∀ j' < 1024, a j ≠ 0 → a j = a j' → j = j'
  chunk_or : chunk = 0 ∨ ∃ c < 25600, c ≠ d ∧ chunk = blockAddr c ∧ ∀ j < 1024, a j ≠ blockAddr c
  chunk_word : read32 s.mem chunk = blockAddr d
  entry : ∀ j < 1024, read32 s.mem (blockAddr d + BitVec.ofNat 32 (4 * j)) =
    a j ||| flags ||| pagingIsWritable
  ident : ∀ j < 1024, a j ≠ 0 → ∀ l < 1024, read32 s.mem (a j + BitVec.ofNat 32 (4 * l)) =
    BitVec.ofNat 32 (j * 4194304 + l * 4096) ||| flags
  full : chunk = 0 → ∀ b < 25600, ¬ IsFree s.entries b
  null_chunk : (∃ j < 1024, a j = 0) → chunk = 0

/-- The chunk is allocated last. -/
theorem Built.chunk (h : Built s₀ s flags d a 1024) :
    NewDir s₀ ((kzalloc s 4).2.withMem (write32 (kzalloc s 4).2.mem (kzalloc s 4).1 (blockAddr d)))
      flags (kzalloc s 4).1 d a := by
  have hd := h.dir_lt
  -- nothing that was built lies in a page `p` outside the blocks
  have hkeep : ∀ (p : ℕ) (m : Mem), SameOff {p} s.mem m → p ≠ 4096 + d →
      (∀ j < 1024, ∀ b < 25600, a j = blockAddr b → p ≠ 4096 + b) →
      (∀ j < 1024, read32 m (blockAddr d + BitVec.ofNat 32 (4 * j)) =
        a j ||| flags ||| pagingIsWritable) ∧
      ∀ j < 1024, a j ≠ 0 → ∀ l < 1024, read32 m (a j + BitVec.ofNat 32 (4 * l)) =
        BitVec.ofNat 32 (j * 4194304 + l * 4096) ||| flags := by
    intro p m hm hpd hpt
    refine ⟨fun j hj => h.entry_kept le_rfl hm hpd.symm hj, fun j hj hne l hl => ?_⟩
    exact h.ident_kept hm hj hne (fun b hb _ hjb => (hpt j hj b hb hjb).symm) hl
  rcases kzalloc_single s (show (heapBlocksFor 4).toNat = 1 by decide) with
    ⟨hfull, heq⟩ | ⟨c, hc, hf, heq⟩
  · rw [heq]
    have hset : dirBlocks d a 0 = tableBlocks d a 1024 := by
      ext b
      simp only [dirBlocks, tableBlocks, Set.mem_ofPred_eq]
      refine and_congr_right fun hb => or_congr_right (or_iff_left fun h0 => ?_)
      exact blockAddr_ne_zero (by omega) h0.symm
    have hwrite : SameOff {0} s.mem (write32 s.mem 0 (blockAddr d)) :=
      write32_sameOff s.mem (a := 0) rfl _
    obtain ⟨hentry, hident⟩ := hkeep 0 _ hwrite (by omega) (fun _ _ _ _ _ => by omega)
    refine ⟨hd, ?_, h.null_or, h.inj, .inl rfl, read32_write32 _ _ _, hentry, hident,
      fun _ => hfull, fun _ => rfl⟩
    rw [hset]
    exact h.grown.setMem (hwrite.mono (by rintro p rfl; exact .inl rfl))
  · rw [heq]
    obtain ⟨hnot, hgrown⟩ := h.grown.take hc hf (show (4 : Word).toNat ≤ 4096 by decide)
    have hca : (blockAddr c).toNat % 4096 = 0 := blockAddr_aligned (by omega)
    have hcd : c ≠ d := by
      rintro rfl
      exact hnot ⟨hc, .inl rfl⟩
    have hct : ∀ j < 1024, a j ≠ blockAddr c := fun j hj heq => hnot ⟨hc, .inr ⟨j, hj, heq⟩⟩
    have hset : dirBlocks d a (blockAddr c) = insert c (tableBlocks d a 1024) := by
      ext b
      simp only [dirBlocks, tableBlocks, Set.mem_ofPred_eq, Set.mem_insert_iff]
      constructor
      · rintro ⟨hb, rfl | ht | hbc⟩
        · exact .inr ⟨hb, .inl rfl⟩
        · exact .inr ⟨hb, .inr ht⟩
        · exact .inl (blockAddr_inj (by omega) (by omega) hbc.symm)
      · rintro (rfl | ⟨hb, hbt⟩)
        · exact ⟨hc, .inr (.inr rfl)⟩
        · exact ⟨hb, hbt.imp_right .inl⟩
    have hpage : pageOf (blockAddr c) = 4096 + c := pageOf_blockAddr (by omega)
    have hwrite := write32_sameOff (fill s.mem (blockAddr c) (4 : Word).toNat 0)
      (a := blockAddr c) (by omega) (blockAddr d)
    have hboth := (fill_page s.mem hca (show (4 : Word).toNat ≤ 4096 by decide) 0).trans hwrite
    rw [Set.union_self, hpage] at hboth
    obtain ⟨hentry, hident⟩ := hkeep (4096 + c) _ hboth (by omega) fun j hj b _ hjb heq => by
      obtain rfl : c = b := by omega
      exact hct j hj hjb
    refine ⟨hd, ?_, h.null_or, h.inj, .inr ⟨c, hc, hcd, rfl, hct⟩, read32_write32 _ _ _,
      hentry, hident, fun h0 => absurd h0 (blockAddr_ne_zero (by omega)), fun hnull => ?_⟩
    · rw [hset]
      refine hgrown.setMem (hwrite.mono ?_)
      rintro p rfl
      exact .inr ⟨c, Set.mem_insert _ _, hpage⟩
    · exact absurd hf (h.full hnull c hc)

/-- On a full heap nothing is taken and only page 0 is written. -/
lemma pagingNewTables_full (hfull : ∀ b < 25600, ¬ IsFree s.entries b) (k i : ℕ) (hk : i + k = 1024)
    (offset : Word) :
    (pagingNewTables 0 flags k i offset s).kernelHeap = s.kernelHeap ∧
    (pagingNewTables 0 flags k i offset s).kfreed = s.kfreed ∧
    SameOff {0} s.mem (pagingNewTables 0 flags k i offset s).mem := by
  induction k generalizing s i offset with
  | zero => exact ⟨rfl, rfl, SameOff.refl _ _⟩
  | succ k ih =>
    obtain ⟨-, heq⟩ | ⟨b, hb, hf, -⟩ :=
      kzalloc_single s (show (heapBlocksFor 4096).toNat = 1 by decide)
    swap
    · exact absurd hf (hfull b hb)
    rw [pagingNewTables, heq]
    dsimp only
    have hzero : (0 : Word).toNat % 4096 = 0 := rfl
    have hfill := (pagingFillTable_spec hzero offset flags 1024 0 (by omega) s.mem).1
    have hwrite := write32_slot_sameOff (pagingFillTable 0 offset flags 1024 0 s.mem) hzero
      (show i < 1024 by omega) (0 ||| flags ||| pagingIsWritable)
    obtain ⟨hheap, hlog, hmem⟩ := @ih (s.withMem (write32
      (pagingFillTable 0 offset flags 1024 0 s.mem) (0 + BitVec.ofNat 32 (4 * i))
      (0 ||| flags ||| pagingIsWritable))) hfull (i + 1) (by omega) (offset + 0x400000)
    exact ⟨hheap, hlog, by simpa [pageOf] using (hfill.trans hwrite).trans hmem⟩

lemma pagingNew4gb_eq {s₀ s₁ t s₂ : Kmem} {flags : Byte} {directory chunk : Word}
    (h₁ : kzalloc s₀ 4096 = (directory, s₁))
    (ht : pagingNewTables directory (flags.setWidth 32) 1024 0 0 s₁ = t)
    (h₂ : kzalloc t 4 = (chunk, s₂)) :
    pagingNew4gb s₀ flags = (chunk, s₂.withMem (write32 s₂.mem chunk directory)) := by
  unfold pagingNew4gb
  rw [h₁]
  dsimp only
  rw [ht, h₂]

/-- On a full heap `paging_new_4gb` returns null and takes nothing. -/
lemma pagingNew4gb_full (s₀ : Kmem) (flags : Byte) (hfull : ∀ b < 25600, ¬ IsFree s₀.entries b) :
    (pagingNew4gb s₀ flags).1 = 0 ∧
    (pagingNew4gb s₀ flags).2.kernelHeap = s₀.kernelHeap ∧
    (pagingNew4gb s₀ flags).2.kfreed = s₀.kfreed ∧
    read32 (pagingNew4gb s₀ flags).2.mem 0 = 0 ∧
    SameOff {0} s₀.mem (pagingNew4gb s₀ flags).2.mem := by
  obtain ⟨-, heq⟩ | ⟨b, hb, hf, -⟩ :=
    kzalloc_single s₀ (show (heapBlocksFor 4096).toNat = 1 by decide)
  swap
  · exact absurd hf (hfull b hb)
  obtain ⟨t, ht⟩ : ∃ t, pagingNewTables 0 (flags.setWidth 32) 1024 0 0 s₀ = t := ⟨_, rfl⟩
  obtain ⟨hheap, hlog, hmem⟩ :=
    @pagingNewTables_full s₀ (flags.setWidth 32) hfull 1024 0 (by omega) 0
  rw [ht] at hheap hlog hmem
  obtain ⟨-, heq'⟩ | ⟨b, hb, hf, -⟩ :=
    kzalloc_single t (show (heapBlocksFor 4).toNat = 1 by decide)
  swap
  · unfold Kmem.entries at hf
    rw [hheap] at hf
    exact absurd hf (hfull b hb)
  have hwrite := write32_sameOff t.mem (a := 0) rfl 0
  rw [pagingNew4gb_eq heq ht heq']
  exact ⟨rfl, hheap, hlog, read32_write32 _ _ _, by simpa [pageOf] using hmem.trans hwrite⟩

lemma Built.start (hd : d < 25600) (hf : IsFree s₀.entries d) :
    Built s₀ ((s₀.take 1 d).withMem (fill s₀.mem (blockAddr d) (4096 : Word).toNat 0))
      flags d (fun _ => 0) 0 := by
  have hgrown := ((GrownBy.refl s₀).take hd hf (show (4096 : Word).toNat ≤ 4096 by decide)).2
  refine ⟨hd, ?_, by omega, by omega, by omega, by omega, by simp⟩
  have hset : tableBlocks d (fun _ => 0) 0 = insert d ∅ := by
    ext b
    simp only [tableBlocks, Set.mem_ofPred_eq, Set.mem_insert_iff, Set.mem_empty_iff_false]
    constructor
    · rintro ⟨-, rfl | ⟨j, hj, -⟩⟩
      · exact .inl rfl
      · omega
    · rintro (rfl | h)
      · exact ⟨hd, .inl rfl⟩
      · exact h.elim
  rw [hset]
  exact hgrown

lemma Built.tables (h : Built s₀ s flags d a 0) :
    ∃ a', Built s₀ (pagingNewTables (blockAddr d) flags 1024 0 0 s) flags d a' 1024 := by
  have hzero : BitVec.ofNat 32 (0 * 4194304) = 0 := rfl
  have hrun := h.run 1024 (by omega)
  rwa [hzero] at hrun

/-- `paging_new_4gb` either finds the heap full, or builds its directory. -/
theorem pagingNew4gb_spec (s₀ : Kmem) (flags : Byte) :
    (∀ b < 25600, ¬ IsFree s₀.entries b) ∨
    ∃ d a, NewDir s₀ (pagingNew4gb s₀ flags).2 (flags.setWidth 32) (pagingNew4gb s₀ flags).1 d a := by
  rcases kzalloc_single s₀ (show (heapBlocksFor 4096).toNat = 1 by decide) with
    ⟨hfull, -⟩ | ⟨d, hd, hf, heq⟩
  · exact .inl hfull
  · have hstart : Built s₀ _ (flags.setWidth 32) d (fun _ => 0) 0 := Built.start hd hf
    obtain ⟨a, ha⟩ := hstart.tables
    obtain ⟨t, ht⟩ : ∃ t, pagingNewTables (blockAddr d) (flags.setWidth 32) 1024 0 0
        ((s₀.take 1 d).withMem (fill s₀.mem (blockAddr d) (4096 : Word).toNat 0)) = t := ⟨_, rfl⟩
    rw [ht] at ha
    refine .inr ⟨d, a, ?_⟩
    rw [pagingNew4gb_eq heq ht rfl]
    exact ha.chunk

end AlphaOS.Paging
