import AlphaOS.BlockHeapRun

/-! What a single request gets from the block heap, over every table: the first fit when there
is one, and what the scan makes of the free run at the end of the table when there is none. -/
namespace AlphaOS.BlockHeap

/-- The table does not end in a free run. -/
def EndsTaken (entries : ℤ → Byte) (total : ℕ) : Prop := ∀ i, i + 1 = total → ¬ IsFree entries i

/-- The entries from `s` to the end of the table are free. -/
def FreeTail (entries : ℤ → Byte) (total s : ℕ) : Prop :=
  s < total ∧ ∀ j, s ≤ j → j < total → IsFree entries j

lemma FreeTail.not_endsTaken {entries : ℤ → Byte} {total s : ℕ} (h : FreeTail entries total s) :
    ¬ EndsTaken entries total := by
  intro htaken
  have hs := h.1
  exact htaken (total - 1) (by omega) (h.2 (total - 1) (by omega) (by omega))

/-- After a free last entry the scan has a start. -/
lemma startBlocksLoop_ne (entries : ℤ → Byte) (n k i bc : ℕ) (bs : ℤ)
    (hfree : IsFree entries (i + k)) : startBlocksLoop entries n (k + 1) i bc bs ≠ -1 := by
  have hstart : ∀ (j : ℕ) (b : ℤ), (if b = -1 then (j : ℤ) else b) ≠ -1 := by
    intro j b
    split_ifs <;> omega
  induction k generalizing i bc bs with
  | zero =>
    have hi : heapGetEntryType (entries i) = entryFree := hfree
    simp [startBlocksLoop, hi, hstart]
  | succ k ih =>
    have hnext : IsFree entries (i + 1 + k) := by
      rwa [show i + 1 + k = i + (k + 1) by omega]
    rw [startBlocksLoop]
    by_cases htaken : heapGetEntryType (entries i) ≠ entryFree
    · rw [if_pos htaken]
      exact ih (i + 1) 0 (-1) hnext
    · rw [if_neg htaken]
      dsimp only
      by_cases hfull : bc + 1 = n
      · rw [if_pos hfull]
        exact hstart i bs
      · rw [if_neg hfull]
        exact ih (i + 1) (bc + 1) _ hnext

/-- A request of no blocks is scanned for like one that no table can hold. -/
lemma startBlocksLoop_zero (entries : ℤ → Byte) (n k i bc : ℕ) (bs : ℤ) (hn : bc + k < n) :
    startBlocksLoop entries 0 k i bc bs = startBlocksLoop entries n k i bc bs := by
  induction k generalizing i bc bs with
  | zero => rfl
  | succ k ih =>
    have hne : bc + 1 ≠ n := by omega
    simp only [startBlocksLoop, Nat.add_eq_zero_iff, one_ne_zero, and_false, if_false, hne]
    rw [ih (i + 1) 0 (-1) (by omega), ih (i + 1) (bc + 1) _ (by omega)]

/-- Without a fit the scan ends with nothing, or takes the free run at the end of the table. -/
theorem startBlocksLoop_tail (entries : ℤ → Byte) {n total : ℕ}
    (hno : 0 < n → ∀ s, ¬ FitsAt entries total n s) :
    (EndsTaken entries total ∧ startBlocksLoop entries n total 0 0 (-1) = -1) ∨
    ∃ s, FreeTail entries total s ∧ startBlocksLoop entries n total 0 0 (-1) = (s : ℕ) := by
  have hpos : ∀ m, 0 < m → (∀ s, ¬ FitsAt entries total m s) →
      (EndsTaken entries total ∧ startBlocksLoop entries m total 0 0 (-1) = -1) ∨
      ∃ s, FreeTail entries total s ∧ startBlocksLoop entries m total 0 0 (-1) = (s : ℕ) := by
    intro m hm hnone
    have hspec := startBlocksLoop_spec entries hm total 0 0 (-1) (Nat.zero_add total) hm le_rfl rfl
      (by omega) (by omega)
    obtain ⟨s, hfit, -⟩ | ⟨-, heq | ⟨s, heq, hs, htail⟩⟩ := hspec
    · exact absurd hfit (hnone s)
    · refine .inl ⟨fun i hi hfree => ?_, heq⟩
      subst hi
      exact startBlocksLoop_ne entries m i 0 0 (-1) (by rwa [Nat.zero_add]) heq
    · exact .inr ⟨s, ⟨hs, htail⟩, heq⟩
  by_cases hn : n = 0
  · subst hn
    rw [startBlocksLoop_zero entries (total + 1) total 0 0 (-1) (by omega)]
    refine hpos (total + 1) (by omega) fun s hfit => ?_
    have := hfit.1
    omega
  · exact hpos n (by omega) (hno (by omega))

theorem heapGetStartBlocks_tail (heap : Heap) (n : Word)
    (hno : 0 < n.toNat → ∀ s, ¬ FitsAt heap.table.entries heap.table.total.toNat n.toNat s) :
    (EndsTaken heap.table.entries heap.table.total.toNat ∧ heapGetStartBlocks heap n = -enomem) ∨
    ∃ s, FreeTail heap.table.entries heap.table.total.toNat s ∧
      heapGetStartBlocks heap n = (s : ℕ) := by
  obtain ⟨htaken, heq⟩ | ⟨s, htail, heq⟩ := startBlocksLoop_tail heap.table.entries hno
  · left
    exact ⟨htaken, by simp [heapGetStartBlocks, heq]⟩
  · right
    have hne : ((s : ℤ) = -1) = False := by simp
    exact ⟨s, htail, by simp [heapGetStartBlocks, heq, hne]⟩

lemma heapMallocBlocks_none {heap : Heap} {n : Word} (h : heapGetStartBlocks heap n = -enomem) :
    heapMallocBlocks heap n = (0, heap) := by
  simp [heapMallocBlocks, h]

/-- A request of any number of blocks, none among them, gets nothing or starts at a free block. -/
lemma heapGetStartBlocks_free (heap : Heap) (n : Word) : heapGetStartBlocks heap n = -enomem ∨
    ∃ s < heap.table.total.toNat, IsFree heap.table.entries s ∧
      heapGetStartBlocks heap n = (s : ℕ) := by
  by_cases hfits : 0 < n.toNat ∧
      ∃ s, FitsAt heap.table.entries heap.table.total.toNat n.toNat s
  · obtain ⟨hn, t, ht⟩ := hfits
    obtain ⟨s, hfit, -, heq⟩ | ⟨hno, -⟩ := heapGetStartBlocks_spec heap n hn
    · have hend := hfit.1
      exact .inr ⟨s, by omega, hfit.2 s le_rfl (by omega), heq⟩
    · exact absurd ht (hno t)
  · obtain ⟨-, heq⟩ | ⟨s, htail, heq⟩ := heapGetStartBlocks_tail heap n
      fun hpos s hfit => hfits ⟨hpos, s, hfit⟩
    · exact .inl heq
    · exact .inr ⟨s, htail.1, htail.2 s le_rfl htail.1, heq⟩

/-- So every address that is given out is that of a block that was free. -/
theorem heapMalloc_free (heap : Heap) (size : Word) : (heapMalloc heap size).1 = 0 ∨
    ∃ s < heap.table.total.toNat, IsFree heap.table.entries s ∧
      (heapMalloc heap size).1 = heapBlockToAddress heap s := by
  obtain heq | ⟨s, hs, hfree, heq⟩ := heapGetStartBlocks_free heap (heapBlocksFor size)
  · left
    rw [heapMalloc, heapMallocBlocks_none heq]
  · refine .inr ⟨s, hs, hfree, ?_⟩
    simp only [heapMalloc, heapMallocBlocks, heq]
    rw [if_neg (by omega)]

/-- A request that fits nowhere is refused, and the table left alone, exactly when the table
does not end in a free run. -/
theorem heapMallocBlocks_refuses_iff (heap : Heap) (n : Word)
    (hno : ∀ s, ¬ FitsAt heap.table.entries heap.table.total.toNat n.toNat s) :
    (heapGetStartBlocks heap n = -enomem ∧ heapMallocBlocks heap n = (0, heap) ∧
      ∀ size, heapBlocksFor size = n → heapMalloc heap size = (0, heap)) ↔
    EndsTaken heap.table.entries heap.table.total.toNat := by
  obtain ⟨htaken, heq⟩ | ⟨s, htail, heq⟩ := heapGetStartBlocks_tail heap n fun _ => hno
  · have hblocks := heapMallocBlocks_none heq
    refine iff_of_true ⟨heq, hblocks, fun size hsize => ?_⟩ htaken
    rw [heapMalloc, hsize]
    exact hblocks
  · refine iff_of_false (fun h => ?_) htail.not_endsTaken
    have hneg : (s : ℤ) = -3 := heq.symm.trans h.1
    omega

/-- A pool of `blocks` blocks at the kernel heap's address, every entry `entry`. -/
def uniformPool (entry : Byte) (blocks : Word) : Heap := ⟨⟨fun _ => entry, blocks⟩, heapAddress⟩

lemma uniformPool_free (blocks : Word) (i : ℕ) :
    IsFree (uniformPool entryFree blocks).table.entries i := by
  change heapGetEntryType entryFree = entryFree
  decide

theorem heapMallocBlocks_refuses_iff_fullPool :
    heapGetStartBlocks (uniformPool (entryTaken ||| isFirst) 1) 1 = -enomem :=
  ((heapMallocBlocks_refuses_iff (uniformPool (entryTaken ||| isFirst) 1) 1
    (fun s hfit => absurd (hfit.2 s le_rfl (by simp)) (by simp [IsFree, uniformPool]; decide))).2
    (fun i _ hfree => absurd hfree (by simp [IsFree, uniformPool]; decide))).1

/-- A pool of two free blocks: three blocks fit nowhere, `heap_malloc` returns the pool start
for them and marks the entry after the last one. -/
theorem heapMalloc_takes_tail : Represents (uniformPool entryFree 2) [] ∧
    (∀ s, ¬ FitsAt (uniformPool entryFree 2).table.entries
      (uniformPool entryFree 2).table.total.toNat (heapBlocksFor 12288).toNat s) ∧
    heapGetStartBlocks (uniformPool entryFree 2) (heapBlocksFor 12288) ≠ -enomem ∧
    (heapMalloc (uniformPool entryFree 2) 12288).1 = heapAddress ∧
    (heapMalloc (uniformPool entryFree 2) 12288).2.table.entries 2 ≠
      (uniformPool entryFree 2).table.entries 2 := by
  refine ⟨⟨by decide, by simp, Tiling.Tiled.nil fun i _ => rfl⟩, fun s hfit => ?_, by decide,
    by decide, by decide⟩
  have hbound : s + 3 ≤ 2 := hfit.1
  omega

lemma heapBlockToAddress_natCast (heap : Heap) (s : ℕ) :
    heapBlockToAddress heap s = heap.saddr + BitVec.ofNat 32 (4096 * s) := by
  have hcast : ((s : ℤ) * 4096) = ((4096 * s : ℕ) : ℤ) := by push_cast; ring
  rw [heapBlockToAddress, hcast, BitVec.ofInt_natCast]

/-- First fit: a request that fits gets the lowest place it fits, and the address it gets leads
back to that place. -/
theorem heapMalloc_firstFit (heap : Heap) (hpool : heap.table.total.toNat * 4096 < 2 ^ 31)
    (n : Word) (hn : 0 < n.toNat)
    (hfits : ∃ s, FitsAt heap.table.entries heap.table.total.toNat n.toNat s) :
    ∃ s, FitsAt heap.table.entries heap.table.total.toNat n.toNat s ∧
      (∀ s', FitsAt heap.table.entries heap.table.total.toNat n.toNat s' → s ≤ s') ∧
      heapGetStartBlocks heap n = s ∧
      ∀ size : Word, ⌈(size.toNat : ℚ) / 4096⌉ = n.toNat →
        (heapMalloc heap size).1 = heap.saddr + BitVec.ofNat 32 (4096 * s) ∧
        heapAddressToBlock heap (heapMalloc heap size).1 = s := by
  obtain ⟨s, hfit, hleast, heq⟩ | ⟨hno, -⟩ := heapGetStartBlocks_spec heap n hn
  swap
  · exact absurd hfits.choose_spec (hno _)
  have hbound := hfit.1
  refine ⟨s, hfit, fun s' hfit' => ?_, heq, fun size hsize => ?_⟩
  · by_contra hlt
    exact hleast s' (by omega) hfit'
  · have hceil : (size.toNat + 4095) / 4096 = n.toNat := by
      rw [Int.ceil_eq_iff] at hsize
      obtain ⟨hlow, hhigh⟩ := hsize
      have h1 : ((n.toNat : ℤ) : ℚ) * 4096 - 4096 < size.toNat := by linarith
      have h2 : (size.toNat : ℚ) ≤ ((n.toNat : ℤ) : ℚ) * 4096 := by linarith
      have h1' : (n.toNat : ℤ) * 4096 - 4096 < size.toNat := by exact_mod_cast h1
      have h2' : (size.toNat : ℤ) ≤ (n.toNat : ℤ) * 4096 := by exact_mod_cast h2
      omega
    have hblocks : heapBlocksFor size = n := by
      apply BitVec.eq_of_toNat_eq
      have hwrap := heapBlocksFor_eq size
      omega
    have haddr : (heapMalloc heap size).1 = heapBlockToAddress heap s := by
      simp only [heapMalloc, heapMallocBlocks, hblocks, heq]
      rw [if_neg (by omega)]
    rw [haddr]
    exact ⟨heapBlockToAddress_natCast heap s, heapAddressToBlock_blockToAddress heap (by omega)⟩

theorem heapMalloc_firstFit_twoBlocks :
    ∃ s, FitsAt (fun _ => entryFree) 2 1 s ∧
      heapGetStartBlocks (uniformPool entryFree 2) 1 = (s : ℕ) := by
  obtain ⟨s, hfit, -, heq, -⟩ := heapMalloc_firstFit (uniformPool entryFree 2) (by decide) 1
    (by decide) ⟨0, by decide, fun j _ _ => uniformPool_free 2 j⟩
  exact ⟨s, hfit, heq⟩

/-- The pool is a range of the address space that does not start at null. -/
structure Formed (heap : Heap) : Prop where
  start : heap.saddr ≠ 0
  pool : heap.saddr.toNat + 4096 * heap.table.total.toNat ≤ 2 ^ 32

lemma Formed.total (h : Formed heap) : heap.table.total.toNat < 2 ^ 20 := by
  have hpos : heap.saddr.toNat ≠ 0 := fun hz => h.start (BitVec.eq_of_toNat_eq hz)
  have hpool := h.pool
  omega

lemma Formed.toNat (h : Formed heap) {s : ℕ} (hs : s < heap.table.total.toNat) :
    (heapBlockToAddress heap s).toNat = heap.saddr.toNat + 4096 * s := by
  have hpool := h.pool
  have htotal := h.total
  rw [heapBlockToAddress_natCast, BitVec.toNat_add, BitVec.toNat_ofNat]
  omega

lemma Formed.ne_zero (h : Formed heap) {s : ℕ} (hs : s < heap.table.total.toNat) :
    heapBlockToAddress heap s ≠ 0 := by
  have hpos : heap.saddr.toNat ≠ 0 := fun hz => h.start (BitVec.eq_of_toNat_eq hz)
  intro hz
  have haddr := h.toNat hs
  rw [hz] at haddr
  have hzero : (0 : Word).toNat = 0 := rfl
  omega

lemma Formed.inj (h : Formed heap) {s t : ℕ} (hs : s < heap.table.total.toNat)
    (ht : t < heap.table.total.toNat) (heq : heapBlockToAddress heap s = heapBlockToAddress heap t) :
    s = t := by
  have h1 := h.toNat hs
  have h2 := h.toNat ht
  rw [heq] at h1
  omega

/-- `heap_malloc` gives null, or an address from which on at least one block of the pool and
`size` bytes or more were free and are now taken. -/
def Covers (heap : Heap) (size : Word) : Prop :=
  (heapMalloc heap size).1 ≠ 0 → ∃ s n : ℕ, 0 < n ∧ size.toNat ≤ 4096 * n ∧
    (heapMalloc heap size).1 = heapBlockToAddress heap s ∧ s + n ≤ heap.table.total.toNat ∧
    ∀ j, s ≤ j → j < s + n → IsFree heap.table.entries j ∧
      ¬ IsFree (heapMalloc heap size).2.table.entries j

/-- The size needs a block and fits, or the table does not end in a free run. -/
def Served (heap : Heap) (size : Word) : Prop :=
  (0 < (heapBlocksFor size).toNat ∧
    ∃ s, FitsAt heap.table.entries heap.table.total.toNat (heapBlocksFor size).toNat s) ∨
  EndsTaken heap.table.entries heap.table.total.toNat

/-- The addresses of calls of `heap_malloc` in a row. -/
def heapMallocs (heap : Heap) : List Word → List Word
  | [] => []
  | size :: sizes => (heapMalloc heap size).1 :: heapMallocs (heapMalloc heap size).2 sizes

/-- Every call of the row is `Served` in the heap it finds. -/
def AllServed (heap : Heap) : List Word → Prop
  | [] => True
  | size :: sizes => Served heap size ∧ AllServed (heapMalloc heap size).2 sizes

variable {heap : Heap} {size : Word}

/-- A request that is served is refused, or given blocks that were free. -/
lemma Formed.served (h : Formed heap) (hserved : Served heap size) :
    heapMalloc heap size = (0, heap) ∨ 0 < (heapBlocksFor size).toNat ∧
      ∃ s, FitsAt heap.table.entries heap.table.total.toNat (heapBlocksFor size).toNat s ∧
        heapMalloc heap size = mallocAt heap (heapBlocksFor size).toNat s := by
  by_cases hfits : 0 < (heapBlocksFor size).toNat ∧
      ∃ s, FitsAt heap.table.entries heap.table.total.toNat (heapBlocksFor size).toNat s
  · obtain ⟨hn, t, ht⟩ := hfits
    obtain ⟨s, hfit, -, heq⟩ | ⟨hno, -⟩ := heapMalloc_spec heap h.total size hn
    · exact .inr ⟨hn, s, hfit, heq⟩
    · exact absurd ht (hno t)
  · have hends := hserved.resolve_left hfits
    obtain ⟨-, heq⟩ | ⟨s, htail, -⟩ := heapGetStartBlocks_tail heap (heapBlocksFor size)
      fun hpos s hfit => hfits ⟨hpos, s, hfit⟩
    · left
      rw [heapMalloc, heapMallocBlocks_none heq]
    · exact absurd hends htail.not_endsTaken

lemma mallocAt_free_iff (n s j : ℕ) : IsFree (mallocAt heap n s).2.table.entries j ↔
    ¬ (s ≤ j ∧ j < s + n) ∧ IsFree heap.table.entries j := by
  have hentries : (mallocAt heap n s).2.table.entries j =
      if s ≤ j ∧ j < s + n then blockEntry n (j - s) else heap.table.entries j :=
    overwrite_natCast _ _ _ _ _
  rw [IsFree, hentries]
  by_cases hin : s ≤ j ∧ j < s + n
  · rw [if_pos hin, blockEntry_type]
    simp [hin]
  · simp [hin, IsFree]

/-- What is served is covered by the blocks it is given. -/
lemma Formed.covers_of_served (h : Formed heap) (hserved : Served heap size) :
    Covers heap size := by
  intro hne
  obtain heq | ⟨hn, s, hfit, heq⟩ := h.served hserved
  · exact absurd (by rw [heq]) hne
  · have hblocks := heapBlocksFor_toNat hn
    rw [heq]
    refine ⟨s, (heapBlocksFor size).toNat, hn, by omega, rfl, hfit.1, fun j hlow hhigh => ?_⟩
    refine ⟨hfit.2 j hlow hhigh, fun hfree => ?_⟩
    exact ((mallocAt_free_iff _ s j).1 hfree).1 ⟨hlow, hhigh⟩

/-- The address of a request that takes the free run at the end of the table. -/
lemma heapMalloc_tail {s : ℕ} (hstart : heapGetStartBlocks heap (heapBlocksFor size) = s) :
    heapMalloc heap size =
      (heapBlockToAddress heap s, heapMarkBlockTaken heap s (heapBlocksFor size)) := by
  simp only [heapMalloc, heapMallocBlocks, hstart]
  rw [if_neg (by omega)]

/-- A request that is given the free run at the end of the table, for want of a fit, is not
covered. -/
lemma Formed.not_covers_of_tail (h : Formed heap) {s : ℕ}
    (hno : 0 < (heapBlocksFor size).toNat →
      ∀ s, ¬ FitsAt heap.table.entries heap.table.total.toNat (heapBlocksFor size).toNat s)
    (htail : FreeTail heap.table.entries heap.table.total.toNat s)
    (hstart : heapGetStartBlocks heap (heapBlocksFor size) = s) : ¬ Covers heap size := by
  intro hcovers
  have heq := heapMalloc_tail hstart
  have hne : (heapMalloc heap size).1 ≠ 0 := by
    rw [heq]
    exact h.ne_zero htail.1
  obtain ⟨t, n, hn, hsize, haddr, hbound, hmarked⟩ := hcovers hne
  rw [heq] at haddr hmarked
  have hst : s = t := h.inj htail.1 (by omega) haddr
  subst hst
  by_cases hzero : heapBlocksFor size = 0
  · have htotal := h.total
    have hs := htail.1
    obtain ⟨hbefore, hafter⟩ := hmarked s le_rfl (by omega)
    rw [hzero, heapMarkBlockTaken_zero heap (b := s) (by omega)] at hafter
    exact hafter hbefore
  · have hpos : 0 < (heapBlocksFor size).toNat :=
      Nat.pos_of_ne_zero fun hz => hzero (BitVec.eq_of_toNat_eq hz)
    have hblocks := heapBlocksFor_toNat hpos
    refine hno hpos s ⟨?_, fun j hlow hhigh => (hmarked j hlow (by omega)).1⟩
    omega

lemma Formed.covers_iff (h : Formed heap) : Covers heap size ↔ Served heap size := by
  by_cases hserved : Served heap size
  · exact iff_of_true (h.covers_of_served hserved) hserved
  · have hno : 0 < (heapBlocksFor size).toNat →
        ∀ s, ¬ FitsAt heap.table.entries heap.table.total.toNat (heapBlocksFor size).toNat s :=
      fun hpos s hfit => hserved (.inl ⟨hpos, s, hfit⟩)
    obtain ⟨htaken, -⟩ | ⟨s, htail, heq⟩ := heapGetStartBlocks_tail heap _ hno
    · exact absurd (.inr htaken) hserved
    · exact iff_of_false (h.not_covers_of_tail hno htail heq) hserved

lemma Formed.malloc (h : Formed heap) (size : Word) : Formed (heapMalloc heap size).2 := by
  refine ⟨?_, ?_⟩
  · rw [heapMalloc_saddr]
    exact h.start
  · rw [heapMalloc_saddr, heapMalloc_total]
    exact h.pool

lemma Formed.served_free (h : Formed heap) (hserved : Served heap size) {j : ℕ}
    (hfree : IsFree (heapMalloc heap size).2.table.entries j) : IsFree heap.table.entries j := by
  obtain heq | ⟨-, s, -, heq⟩ := h.served hserved
  · rwa [heq] at hfree
  · rw [heq] at hfree
    exact ((mallocAt_free_iff _ s j).1 hfree).2

/-- Each address of a row is that of a block that was free before the row. -/
lemma Formed.heapMallocs_free (h : Formed heap) {sizes : List Word} (hall : AllServed heap sizes)
    {a : Word} (ha : a ∈ heapMallocs heap sizes) (hne : a ≠ 0) :
    ∃ s < heap.table.total.toNat, a = heapBlockToAddress heap s ∧ IsFree heap.table.entries s := by
  induction sizes generalizing heap with
  | nil => exact absurd ha (by simp [heapMallocs])
  | cons size sizes ih =>
    rcases List.mem_cons.1 ha with rfl | hrest
    · obtain ⟨s, n, hn, -, haddr, hbound, hmarked⟩ := h.covers_of_served hall.1 hne
      exact ⟨s, by omega, haddr, (hmarked s le_rfl (by omega)).1⟩
    · obtain ⟨s, hs, haddr, hfree⟩ := ih (h.malloc size) hall.2 hrest
      rw [heapMalloc_total] at hs
      rw [heapBlockToAddress, heapMalloc_saddr] at haddr
      exact ⟨s, hs, haddr, h.served_free hall.1 hfree⟩

lemma Formed.heapMallocs_nodup (h : Formed heap) {sizes : List Word}
    (hall : AllServed heap sizes) : ((heapMallocs heap sizes).filter (· ≠ 0)).Nodup := by
  induction sizes generalizing heap with
  | nil => simp [heapMallocs]
  | cons size sizes ih =>
    have hrest := ih (h.malloc size) hall.2
    by_cases hnull : (heapMalloc heap size).1 = 0
    · simpa [heapMallocs, hnull] using hrest
    · have hnew : (heapMalloc heap size).1 ∉ heapMallocs (heapMalloc heap size).2 sizes := by
        intro hmem
        obtain ⟨s, n, hn, -, haddr, hbound, hmarked⟩ := h.covers_of_served hall.1 hnull
        obtain ⟨t, ht, haddr', hfree⟩ := (h.malloc size).heapMallocs_free hall.2 hmem hnull
        rw [heapMalloc_total] at ht
        rw [heapBlockToAddress, heapMalloc_saddr] at haddr'
        have hst : s = t := h.inj (by omega) ht (haddr.symm.trans haddr')
        subst hst
        exact (hmarked s le_rfl (by omega)).2 hfree
      simp only [heapMallocs]
      rw [List.filter_cons_of_pos (by simpa using hnull), List.nodup_cons]
      exact ⟨fun hmem => hnew (List.mem_of_mem_filter hmem), hrest⟩

/-- A call of `heap_malloc` covers what was asked for exactly when it is served, and calls in a
row that are served never return the same address. -/
theorem heapMalloc_covers_iff (h : Formed heap) :
    (∀ size, Covers heap size ↔ Served heap size) ∧
    ∀ sizes, AllServed heap sizes → ((heapMallocs heap sizes).filter (· ≠ 0)).Nodup :=
  ⟨fun _ => h.covers_iff, fun _ => h.heapMallocs_nodup⟩

lemma uniformPool_formed : Formed (uniformPool entryFree 2) := ⟨by decide, by decide⟩

theorem heapMalloc_covers_iff_twoBlocks : Covers (uniformPool entryFree 2) 5000 :=
  ((heapMalloc_covers_iff uniformPool_formed).1 5000).2
    (.inl ⟨by decide, 0, by decide, fun j _ _ => uniformPool_free 2 j⟩)

/-- Size 0 and size 2^32 - 1 are given an address of the pool and no block: the same address
twice. -/
theorem heapMalloc_gives_nothing : Represents (uniformPool entryFree 2) [] ∧
    ¬ Covers (uniformPool entryFree 2) 0 ∧ ¬ Covers (uniformPool entryFree 2) 0xFFFFFFFF ∧
    heapMallocs (uniformPool entryFree 2) [0, 0xFFFFFFFF, 4096] =
      [heapAddress, heapAddress, heapAddress] := by
  have hnot : ¬ EndsTaken (uniformPool entryFree 2).table.entries
      (uniformPool entryFree 2).table.total.toNat :=
    fun h => h 1 rfl (uniformPool_free 2 1)
  refine ⟨⟨by decide, by simp, Tiling.Tiled.nil fun i _ => rfl⟩, ?_, ?_, by decide⟩
  · rw [uniformPool_formed.covers_iff]
    exact not_or_intro (fun h => absurd h.1 (by decide)) hnot
  · rw [uniformPool_formed.covers_iff]
    exact not_or_intro (fun h => absurd h.1 (by decide)) hnot

end AlphaOS.BlockHeap
