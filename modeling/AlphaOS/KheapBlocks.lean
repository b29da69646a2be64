import AlphaOS.Kheap

/-! Allocations of the kernel heap next to each other: two of them never overlap, and
each survives the allocation and the release of the others. -/
namespace AlphaOS.BlockHeap
open Kheap

variable {heap : Heap} {s : Kmem} {b c m n : ℕ}

lemma Allocated.not_free (h : Allocated heap b n) {i : ℕ} (hi : b ≤ i ∧ i < b + n) :
    ¬ IsFree heap.table.entries i := by
  intro hfree
  have hcoded := h.2.2 (i - b) (by omega)
  rw [show b + (i - b) = i by omega] at hcoded
  rw [IsFree, hcoded, blockEntry_type] at hfree
  exact absurd hfree (by decide)

/-- Only the first block of an allocation is marked as a first block. -/
lemma Allocated.start_eq (h : Allocated heap b n) (h' : Allocated heap c m) (hle : b ≤ c)
    (hlt : c < b + n) : b = c := by
  have hcoded := h.2.2 (c - b) (by omega)
  have hfirst := h'.2.2 0 h'.1
  rw [show b + (c - b) = c + 0 by omega, hfirst] at hcoded
  have hisFirst : blockEntry n (c - b) &&& isFirst ≠ 0 := by
    rw [← hcoded]
    exact (blockEntry_isFirst m 0).2 rfl
  have := (blockEntry_isFirst n (c - b)).1 hisFirst
  omega

theorem Allocated.apart (h : Allocated heap b n) (h' : Allocated heap c m) (hne : b ≠ c) :
    b + n ≤ c ∨ c + m ≤ b := by
  by_contra hover
  rcases Nat.le_total b c with hle | hle
  · exact hne (h.start_eq h' hle (by omega))
  · exact hne (h'.start_eq h hle (by omega)).symm

/-- An allocation and a run of free blocks are apart. -/
lemma Allocated.apart_fits (h : Allocated heap c m) {total : ℕ}
    (hfit : FitsAt heap.table.entries total n b) (hn : 0 < n) : b + n ≤ c ∨ c + m ≤ b := by
  by_contra hover
  have hm := h.1
  refine h.not_free (i := max b c) ⟨by omega, by omega⟩ (hfit.2 _ (by omega) (by omega))

lemma Allocated.overwrite_iff {g : ℕ → Byte} (hapart : b + n ≤ c ∨ c + m ≤ b) :
    Allocated (heap.setEntries (overwrite heap.table.entries b n g)) c m ↔ Allocated heap c m := by
  have hsame : ∀ j < m, overwrite heap.table.entries b n g ((c + j : ℕ) : ℤ) =
      heap.table.entries ((c + j : ℕ) : ℤ) := by
    intro j hj
    rw [overwrite_natCast, if_neg (by omega)]
  refine and_congr_right fun _ => and_congr_right fun _ => forall₂_congr fun j hj => ?_
  change overwrite heap.table.entries b n g ((c + j : ℕ) : ℤ) = _ ↔ _
  rw [hsame j hj]

/-- The new allocation. -/
theorem allocated_take (hn : 0 < n) (hfit : FitsAt s.entries 25600 n b) :
    Allocated (s.take n b).kernelHeap b n := by
  refine ⟨hn, ?_, fun j hj => ?_⟩
  · change b + n ≤ s.kernelHeap.table.total.toNat
    rw [s.total_toNat]
    exact hfit.1
  · change overwrite s.entries b n (blockEntry n) ((b + j : ℕ) : ℤ) = _
    rw [overwrite_natCast, if_pos (by omega), show b + j - b = j by omega]

theorem Allocated.take (h : Allocated s.kernelHeap c m) (hn : 0 < n)
    (hfit : FitsAt s.entries 25600 n b) : Allocated (s.take n b).kernelHeap c m :=
  (Allocated.overwrite_iff (h.apart_fits hfit hn)).2 h

theorem Allocated.give (h : Allocated s.kernelHeap c m) (hfreed : Allocated s.kernelHeap b n)
    (hne : b ≠ c) : Allocated (s.give n b).kernelHeap c m :=
  (Allocated.overwrite_iff (hfreed.apart h hne)).2 h

lemma kmalloc_zero (s : Kmem) {size : Word} (hzero : heapBlocksFor size = 0) :
    kmalloc s size = (0, s) ∨ ∃ b < 25600, kmalloc s size = (blockAddr b, s.take 0 b) := by
  have hrange := startBlocksLoop_range s.kernelHeap.table.entries 0 25600 0 0 (-1) (.inl rfl)
  have hloop : startBlocksLoop s.kernelHeap.table.entries (0 : Word).toNat
      s.kernelHeap.table.total.toNat 0 0 (-1) =
      startBlocksLoop s.kernelHeap.table.entries 0 25600 0 0 (-1) := by rw [s.total_toNat]; rfl
  rcases hrange with hnone | ⟨hlow, hhigh⟩
  · have hstart : heapGetStartBlocks s.kernelHeap 0 = -enomem := by
      rw [heapGetStartBlocks, hloop]
      exact if_pos hnone
    have hmalloc : heapMalloc s.kernelHeap size = (0, s.kernelHeap) := by
      rw [heapMalloc, heapMallocBlocks, hzero, hstart]
      rfl
    left
    simp only [kmalloc, hmalloc]
  · obtain ⟨b, hb⟩ := Int.eq_ofNat_of_zero_le hlow
    rw [hb] at hhigh
    have hstart : heapGetStartBlocks s.kernelHeap 0 = (b : ℕ) := by
      rw [heapGetStartBlocks, hloop, hb]
      exact if_neg (by omega)
    have hsame : overwrite s.kernelHeap.table.entries b 0 (blockEntry 0) =
        s.kernelHeap.table.entries := by
      funext x
      exact if_neg (by omega)
    have hmalloc : heapMalloc s.kernelHeap size =
        (heapBlockToAddress s.kernelHeap b, s.kernelHeap.setEntries s.kernelHeap.table.entries) := by
      have hmark := heapMarkBlockTaken_zero s.kernelHeap (b := b) (by omega)
      simp only [heapMalloc, heapMallocBlocks, hzero, hstart]
      rw [if_neg (by omega), hmark]
    refine .inr ⟨b, by omega, ?_⟩
    simp only [kmalloc, hmalloc, heapBlockToAddress_eq, Kmem.take, Kmem.entries, hsame]
    rfl

/-- Every request, of whatever size, gets null or free blocks: as many as the pool has from
the first one on. -/
theorem kmalloc_shape (s : Kmem) (size : Word) : kmalloc s size = (0, s) ∨
    ∃ b < 25600, (∀ j, b ≤ j → j < b + (heapBlocksFor size).toNat → j < 25600 →
      IsFree s.entries j) ∧
      kmalloc s size = (blockAddr b, s.take (heapBlocksFor size).toNat b) := by
  rcases Nat.eq_zero_or_pos (heapBlocksFor size).toNat with hzero | hpos
  · rw [hzero]
    rcases kmalloc_zero s (BitVec.eq_of_toNat_eq hzero) with heq | ⟨b, hb, heq⟩
    · exact .inl heq
    · exact .inr ⟨b, hb, fun j h1 h2 _ => by omega, heq⟩
  · obtain ⟨b, hfit, -, heq⟩ | ⟨-, heq | ⟨b, hb, htail, heq⟩⟩ := kmalloc_spec s size hpos
    · have := hfit.1
      exact .inr ⟨b, by omega, fun j h1 h2 _ => hfit.2 j h1 h2, heq⟩
    · exact .inl heq
    · exact .inr ⟨b, hb, fun j h1 _ h3 => htail j h1 h3, heq⟩

theorem kzalloc_shape (s : Kmem) (size : Word) : kzalloc s size = (0, s) ∨
    ∃ b < 25600, (∀ j, b ≤ j → j < b + (heapBlocksFor size).toNat → j < 25600 →
      IsFree s.entries j) ∧
      kzalloc s size = (blockAddr b, s.takeZeroed size (heapBlocksFor size).toNat b) := by
  rcases kmalloc_shape s size with heq | ⟨b, hb, hfree, heq⟩
  · left
    simp [kzalloc, heq]
  · refine .inr ⟨b, hb, hfree, ?_⟩
    simp only [kzalloc, heq]
    rw [if_pos (blockAddr_ne_zero (by omega))]
    rfl

/-- A taken block is not touched by a request. -/
lemma kzalloc_taken (s : Kmem) (size : Word) {c : ℕ} (hc : c < 25600) (hnot : ¬ IsFree s.entries c) :
    (kzalloc s size).2.entries c = s.entries c := by
  rcases kzalloc_shape s size with heq | ⟨b, hb, hfree, heq⟩
  · rw [heq]
  · rw [heq]
    change overwrite s.entries b _ _ (c : ℤ) = _
    rw [overwrite_natCast, if_neg fun h => hnot (hfree c h.1 h.2 hc)]

/-- Nor are its contents. -/
lemma kzalloc_taken_mem (s : Kmem) {size : Word} (hpos : 0 < (heapBlocksFor size).toNat)
    (hsize : size.toNat ≤ 2 ^ 30) {c : ℕ} (hc : c < 25600) (hnot : ¬ IsFree s.entries c)
    {x : Word} (hx : WordMemory.pageOf x = 4096 + c) : (kzalloc s size).2.mem x = s.mem x := by
  rcases kzalloc_shape s size with heq | ⟨b, hb, hfree, heq⟩
  · rw [heq]
  · rw [heq]
    refine if_neg fun hrange => hnot (hfree c ?_ ?_ hc) <;>
    · have hblock := blockAddr_toNat (show b < 2 ^ 19 by omega)
      have hblocks := heapBlocksFor_toNat hpos
      have hlt := x.isLt
      unfold WordMemory.InRange at hrange
      unfold WordMemory.pageOf at hx
      rw [BitVec.toNat_sub, hblock] at hrange
      omega

/-- The pool is taken up to a block and free from there on. -/
structure Frontier (s : Kmem) (c : ℕ) : Prop where
  taken : ∀ b < c, ¬ IsFree s.entries b
  free : ∀ b, c ≤ b → b < 25600 → IsFree s.entries b

/-- Such a pool is filled in order. -/
lemma Frontier.kzalloc (h : Frontier s c) {size : Word} (hpos : 0 < (heapBlocksFor size).toNat)
    (hroom : c + (heapBlocksFor size).toNat ≤ 25600) :
    kzalloc s size = (blockAddr c, s.takeZeroed size (heapBlocksFor size).toNat c) ∧
    Frontier (kzalloc s size).2 (c + (heapBlocksFor size).toNat) := by
  have hfit : FitsAt s.entries 25600 (heapBlocksFor size).toNat c :=
    ⟨hroom, fun j h1 h2 => h.free j h1 (by omega)⟩
  obtain ⟨b, hb, hleast, heq⟩ := kzalloc_room s hpos ⟨c, hfit⟩
  obtain rfl : b = c := by
    rcases lt_trichotomy b c with hlt | heq | hlt
    · exact absurd (hb.2 b le_rfl (by omega)) (h.taken b hlt)
    · exact heq
    · exact absurd hfit (hleast c hlt)
  have hentries : ∀ j : ℕ, (Kheap.kzalloc s size).2.entries j =
      if b ≤ j ∧ j < b + (heapBlocksFor size).toNat then
        blockEntry (heapBlocksFor size).toNat (j - b) else s.entries j := by
    intro j
    rw [heq]
    exact overwrite_natCast s.entries b _ _ j
  refine ⟨heq, fun j hj hfree => ?_, fun j h1 h2 => ?_⟩
  · rw [IsFree, hentries] at hfree
    by_cases hlt : j < b
    · rw [if_neg (by omega)] at hfree
      exact h.taken j hlt hfree
    · rw [if_pos (by omega), blockEntry_type] at hfree
      exact absurd hfree (by decide)
  · rw [IsFree, hentries, if_neg (by omega)]
    exact h.free j (by omega) h2

/-- The case of one block. -/
lemma frontier_block (h : Frontier s c) {size : Word} (hsize : (heapBlocksFor size).toNat = 1)
    (hroom : c + 1 ≤ 25600) : (kzalloc s size).1 = blockAddr c ∧ Frontier (kzalloc s size).2 (c + 1) := by
  obtain ⟨heq, hnext⟩ := h.kzalloc (show 0 < (heapBlocksFor size).toNat by omega) (by omega)
  rw [hsize] at hnext
  exact ⟨congrArg Prod.fst heq, hnext⟩

end AlphaOS.BlockHeap
