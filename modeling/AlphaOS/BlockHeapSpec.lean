import AlphaOS.BlockHeap

/-! What the scan, the marking loop and the freeing loop of the block heap do to
the table entries, for an arbitrary table. -/
namespace AlphaOS.BlockHeap
open Tiling

def IsFree (entries : ℤ → Byte) (i : ℕ) : Prop := heapGetEntryType (entries i) = entryFree

instance (entries : ℤ → Byte) (i : ℕ) : Decidable (IsFree entries i) :=
  inferInstanceAs (Decidable (_ = _))

/-- The `n` entries from `s` on lie in the table and are free. -/
def FitsAt (entries : ℤ → Byte) (total n s : ℕ) : Prop :=
  s + n ≤ total ∧ ∀ j, s ≤ j → j < s + n → IsFree entries j

/-- The scan finds the first fit; without one it ends at a free tail or at -1. -/
theorem startBlocksLoop_spec (entries : ℤ → Byte) {n total : ℕ} (hn : 0 < n) (k i bc : ℕ) (bs : ℤ)
    (htotal : i + k = total) (hbc : bc < n) (hbi : bc ≤ i)
    (hbs : bs = if bc = 0 then -1 else ((i - bc : ℕ) : ℤ))
    (hrun : ∀ j, i - bc ≤ j → j < i → IsFree entries j)
    (hpast : ∀ s < i - bc, ∃ j, s ≤ j ∧ j < s + n ∧ j < i ∧ ¬ IsFree entries j) :
    (∃ s, FitsAt entries total n s ∧ (∀ s' < s, ¬ FitsAt entries total n s') ∧
      startBlocksLoop entries n k i bc bs = s) ∨
    ((∀ s, ¬ FitsAt entries total n s) ∧ (startBlocksLoop entries n k i bc bs = -1 ∨
      ∃ s, startBlocksLoop entries n k i bc bs = (s : ℕ) ∧ s < total ∧
        ∀ j, s ≤ j → j < total → IsFree entries j)) := by
  induction k generalizing i bc bs with
  | zero =>
    right
    have hi : i = total := by omega
    subst hi
    constructor
    · rintro s ⟨hs, hfit⟩
      by_cases hlt : s < i - bc
      · obtain ⟨j, h1, h2, -, h4⟩ := hpast s hlt
        exact h4 (hfit j h1 h2)
      · omega
    · by_cases h0 : bc = 0
      · left; simp [startBlocksLoop, hbs, h0]
      · right
        exact ⟨i - bc, by simp [startBlocksLoop, hbs, h0], by omega, hrun⟩
  | succ k ih =>
    by_cases hfree : heapGetEntryType (entries i) = entryFree
    · have hbs' : (if bs = -1 then (i : ℤ) else bs) = ((i - bc : ℕ) : ℤ) := by
        by_cases h0 : bc = 0
        · simp [hbs, h0]
        · have : ((i - bc : ℕ) : ℤ) ≠ -1 := by omega
          simp [hbs, h0, this]
      have hrun' : ∀ j, i - bc ≤ j → j < i + 1 → IsFree entries j := by
        intro j h1 h2
        by_cases hj : j = i
        · exact hj ▸ hfree
        · exact hrun j h1 (by omega)
      by_cases hlast : bc + 1 = n
      · left
        refine ⟨i - bc, ⟨by omega, fun j h1 h2 => hrun' j h1 (by omega)⟩, ?_, ?_⟩
        · rintro s hs ⟨-, hfit⟩
          obtain ⟨j, h1, h2, -, h4⟩ := hpast s hs
          exact h4 (hfit j h1 h2)
        · simp only [startBlocksLoop, hfree, ne_eq, not_true_eq_false, if_false, hlast, if_true]
          exact hbs'
      · have hstep : startBlocksLoop entries n (k + 1) i bc bs =
            startBlocksLoop entries n k (i + 1) (bc + 1) ((i - bc : ℕ) : ℤ) := by
          simp only [startBlocksLoop, hfree, ne_eq, not_true_eq_false, if_false, hlast, hbs']
        rw [hstep]
        refine ih (i + 1) (bc + 1) _ (by omega) (by omega) (by omega) ?_ ?_ ?_
        · rw [if_neg (by omega)]; congr 1; omega
        · intro j h1 h2; exact hrun' j (by omega) h2
        · intro s hs
          obtain ⟨j, h1, h2, h3, h4⟩ := hpast s (by omega)
          exact ⟨j, h1, h2, by omega, h4⟩
    · have hstep : startBlocksLoop entries n (k + 1) i bc bs =
          startBlocksLoop entries n k (i + 1) 0 (-1) := by
        simp only [startBlocksLoop, hfree, ne_eq, not_false_eq_true, if_true]
      rw [hstep]
      refine ih (i + 1) 0 (-1) (by omega) hn (by omega) (by simp) (by omega) ?_
      -- the taken entry `i` spoils every window that starts in the run just ended
      intro s hs
      by_cases hlt : s < i - bc
      · obtain ⟨j, h1, h2, h3, h4⟩ := hpast s hlt
        exact ⟨j, h1, h2, by omega, h4⟩
      · exact ⟨i, by omega, by omega, by omega, hfree⟩

/-- Whatever is asked for, the scan ends at -1 or at an entry of the table. -/
lemma startBlocksLoop_range (entries : ℤ → Byte) (n k i bc : ℕ) (bs : ℤ)
    (hbs : bs = -1 ∨ 0 ≤ bs ∧ bs < (i + k : ℕ)) :
    startBlocksLoop entries n k i bc bs = -1 ∨
      0 ≤ startBlocksLoop entries n k i bc bs ∧ startBlocksLoop entries n k i bc bs < (i + k : ℕ) := by
  induction k generalizing i bc bs with
  | zero => exact hbs
  | succ k ih =>
    have hnext : i + 1 + k = i + (k + 1) := by omega
    have hstart : 0 ≤ (if bs = -1 then (i : ℤ) else bs) ∧
        (if bs = -1 then (i : ℤ) else bs) < (i + 1 + k : ℕ) := by
      split_ifs <;> omega
    rw [← hnext]
    simp only [startBlocksLoop]
    by_cases htaken : heapGetEntryType (entries i) ≠ entryFree
    · rw [if_pos htaken]
      exact ih (i + 1) 0 (-1) (.inl rfl)
    · rw [if_neg htaken]
      by_cases hfull : bc + 1 = n
      · rw [if_pos hfull]
        exact .inr hstart
      · rw [if_neg hfull]
        exact ih (i + 1) (bc + 1) _ (.inr hstart)

/-- First fit, or no fit and a free tail. -/
theorem heapGetStartBlocks_spec (heap : Heap) (n : Word) (hn : 0 < n.toNat) :
    (∃ s, FitsAt heap.table.entries heap.table.total.toNat n.toNat s ∧
      (∀ s' < s, ¬ FitsAt heap.table.entries heap.table.total.toNat n.toNat s') ∧
      heapGetStartBlocks heap n = s) ∨
    ((∀ s, ¬ FitsAt heap.table.entries heap.table.total.toNat n.toNat s) ∧
      (heapGetStartBlocks heap n = -enomem ∨
      ∃ s, heapGetStartBlocks heap n = (s : ℕ) ∧ s < heap.table.total.toNat ∧
        ∀ j, s ≤ j → j < heap.table.total.toNat → IsFree heap.table.entries j)) := by
  have h := startBlocksLoop_spec heap.table.entries hn heap.table.total.toNat 0 0 (-1)
    (Nat.zero_add heap.table.total.toNat) hn le_rfl rfl (by omega) (by omega)
  have hnat : ∀ s : ℕ, ((s : ℤ) = -1) = False := fun s => by simp
  rcases h with ⟨s, hfit, hleast, heq⟩ | ⟨hno, heq | ⟨s, heq, hs, htail⟩⟩
  · left; exact ⟨s, hfit, hleast, by simp [heapGetStartBlocks, heq, hnat]⟩
  · right; exact ⟨hno, .inl (by simp [heapGetStartBlocks, heq])⟩
  · right; exact ⟨hno, .inr ⟨s, by simp [heapGetStartBlocks, heq, hnat], hs, htail⟩⟩

/-- The entry of block `j` of an allocation of `n` blocks. -/
def blockEntry (n j : ℕ) : Byte :=
  entryTaken ||| (if j = 0 then isFirst else 0) ||| (if j + 1 < n then hasNext else 0)

lemma blockEntry_type (n j : ℕ) : heapGetEntryType (blockEntry n j) = entryTaken := by
  unfold blockEntry heapGetEntryType
  split_ifs <;> decide

lemma blockEntry_ne_free {n j : ℕ} : blockEntry n j ≠ entryFree := by
  unfold blockEntry
  split_ifs <;> decide

lemma blockEntry_hasNext (n j : ℕ) : blockEntry n j &&& hasNext = 0 ↔ ¬ j + 1 < n := by
  unfold blockEntry
  split_ifs <;> simp_all

lemma blockEntry_isFirst (n j : ℕ) : blockEntry n j &&& isFirst ≠ 0 ↔ j = 0 := by
  unfold blockEntry
  split_ifs <;> simp_all

/-- Entries of an integer-indexed table over an extent replaced by `g`. -/
def overwrite (entries : ℤ → Byte) (s n : ℕ) (g : ℕ → Byte) : ℤ → Byte :=
  fun i => if (s : ℤ) ≤ i ∧ i < (s + n : ℕ) then g (i - s).toNat else entries i

lemma overwrite_natCast (entries : ℤ → Byte) (s n : ℕ) (g : ℕ → Byte) (i : ℕ) :
    overwrite entries s n g i = if s ≤ i ∧ i < s + n then g (i - s) else entries i := by
  unfold overwrite
  by_cases h : s ≤ i ∧ i < s + n
  · rw [if_pos (by omega), if_pos h]; congr 1; omega
  · rw [if_neg (by omega), if_neg h]

lemma markTakenLoop_spec (s n : ℕ) (k j : ℕ) (hk : j + k = n) (entries : ℤ → Byte) :
    markTakenLoop ((s + n : ℕ) - 1) k ((s + j : ℕ) : ℤ) (blockEntry n j) entries =
      fun i => if ((s + j : ℕ) : ℤ) ≤ i ∧ i < (s + n : ℕ) then blockEntry n (i - s).toNat
        else entries i := by
  induction k generalizing j entries with
  | zero =>
    funext i
    simp only [markTakenLoop]
    rw [if_neg (by omega)]
  | succ k ih =>
    have hnext : (if ((s + j : ℕ) : ℤ) ≠ (s + n : ℕ) - 1 - 1 then entryTaken ||| hasNext
        else entryTaken) = if j + 1 < n then blockEntry n (j + 1) else entryTaken ||| hasNext := by
      by_cases hj : j + 1 < n
      · rw [if_pos hj]
        by_cases hj2 : j + 2 < n
        · rw [if_pos (by omega)]; simp [blockEntry, hj2]
        · rw [if_neg (by omega)]; simp [blockEntry, hj2]
      · rw [if_neg hj, if_pos (by omega)]
    simp only [markTakenLoop]
    rw [hnext]
    by_cases hj : j + 1 < n
    · rw [if_pos hj, show ((s + j : ℕ) : ℤ) + 1 = ((s + (j + 1) : ℕ) : ℤ) by push_cast; ring,
        ih (j + 1) (by omega)]
      funext i
      by_cases hi : i = ((s + j : ℕ) : ℤ)
      · subst hi
        rw [if_neg (by omega), if_pos (by omega), Function.update_self]
        congr 1; omega
      · rw [Function.update_of_ne hi]
        by_cases hr : ((s + j : ℕ) : ℤ) ≤ i ∧ i < (s + n : ℕ)
        · rw [if_pos hr, if_pos (by omega)]
        · rw [if_neg hr, if_neg (by omega)]
    · have hk0 : k = 0 := by omega
      subst hk0
      funext i
      simp only [markTakenLoop]
      by_cases hi : i = ((s + j : ℕ) : ℤ)
      · subst hi
        rw [if_pos (by omega), Function.update_self]
        congr 1; omega
      · rw [Function.update_of_ne hi, if_neg (by omega)]

/-- Marking writes the chain of an allocation over its entries and nothing else. -/
theorem heapMarkBlockTaken_entries (heap : Heap) (s : ℕ) (n : Word) (hn : 0 < n.toNat)
    (hsn : s + n.toNat < 2 ^ 31) :
    (heapMarkBlockTaken heap s n).table.entries =
      overwrite heap.table.entries s n.toNat (blockEntry n.toNat) := by
  have hend : (BitVec.ofInt 32 s + n - 1).toInt = (s + n.toNat : ℕ) - 1 := by
    have hs : (BitVec.ofInt 32 (s : ℤ)).toNat = s := by simp; omega
    rw [BitVec.toInt_eq_toNat_of_lt] <;>
    · rw [BitVec.toNat_sub_of_le (by rw [BitVec.le_def, BitVec.toNat_add, hs]; simp; omega),
        BitVec.toNat_add, hs]
      simp
      omega
  have hentry : (if n.toNat > 1 then entryTaken ||| isFirst ||| hasNext
      else entryTaken ||| isFirst) = blockEntry n.toNat 0 := by
    by_cases h : n.toNat > 1
    · simp [blockEntry, h]
    · simp [blockEntry, h]
  have h := markTakenLoop_spec s n.toNat n.toNat 0 (by omega) heap.table.entries
  simp only [heapMarkBlockTaken, Heap.setEntries, hend, hentry]
  rw [show ((s + n.toNat : ℕ) - 1 + 1 - (s : ℤ)).toNat = n.toNat by omega]
  rw [Nat.add_zero] at h
  rw [h]
  rfl

/-- A request of no blocks marks nothing. -/
lemma heapMarkBlockTaken_zero (heap : Heap) {b : ℕ} (hb : b < 2 ^ 30) :
    heapMarkBlockTaken heap b 0 = heap.setEntries heap.table.entries := by
  have hend : (BitVec.ofInt 32 (b : ℤ) + 0 - 1).toInt = b - 1 := by
    cases b with
    | zero => decide
    | succ b =>
      have hone : BitVec.ofInt 32 ((b + 1 : ℕ) : ℤ) + 0 - 1 = BitVec.ofNat 32 b := by
        rw [BitVec.ofInt_natCast, BitVec.ofNat_add, add_zero]
        exact add_sub_cancel_right _ _
      have hnat : (BitVec.ofNat 32 b).toNat = b := by
        rw [BitVec.toNat_ofNat]
        omega
      rw [hone, BitVec.toInt_eq_toNat_of_lt (by omega), hnat]
      omega
  simp only [heapMarkBlockTaken, hend]
  rw [show ((b : ℤ) - 1 + 1 - b).toNat = 0 by omega]
  rfl

lemma markFreeLoop_spec (s n : ℕ) (k j : ℕ) (entries : ℤ → Byte) (hj : j < n) (hk : n ≤ j + k)
    (hchain : ∀ i, j ≤ i → i < n → entries ((s + i : ℕ) : ℤ) = blockEntry n i) :
    markFreeLoop k ((s + j : ℕ) : ℤ) entries =
      fun i => if ((s + j : ℕ) : ℤ) ≤ i ∧ i < (s + n : ℕ) then entryFree else entries i := by
  induction k generalizing j entries with
  | zero => omega
  | succ k ih =>
    simp only [markFreeLoop]
    rw [hchain j le_rfl hj]
    by_cases hlast : j + 1 < n
    · rw [if_neg (by rw [blockEntry_hasNext]; omega),
        show ((s + j : ℕ) : ℤ) + 1 = ((s + (j + 1) : ℕ) : ℤ) by push_cast; ring,
        ih (j + 1) _ (by omega) (by omega)]
      · funext i
        by_cases hi : i = ((s + j : ℕ) : ℤ)
        · subst hi
          rw [if_neg (by omega), if_pos (by omega), Function.update_self]
        · rw [Function.update_of_ne hi]
          by_cases hr : ((s + j : ℕ) : ℤ) ≤ i ∧ i < (s + n : ℕ)
          · rw [if_pos hr, if_pos (by omega)]
          · rw [if_neg hr, if_neg (by omega)]
      · intro i h1 h2
        rw [Function.update_of_ne (by omega)]
        exact hchain i (by omega) h2
    · rw [if_pos (by rw [blockEntry_hasNext]; omega)]
      funext i
      by_cases hi : i = ((s + j : ℕ) : ℤ)
      · subst hi
        rw [if_pos (by omega), Function.update_self]
      · rw [Function.update_of_ne hi, if_neg (by omega)]

/-- The `n` entries from `s` on hold the chain of one allocation. -/
def Allocated (heap : Heap) (s n : ℕ) : Prop :=
  0 < n ∧ s + n ≤ heap.table.total.toNat ∧
    ∀ j < n, heap.table.entries ((s + j : ℕ) : ℤ) = blockEntry n j

/-- Freeing an allocation clears its entries and nothing else. -/
theorem heapMarkBlockFree_entries (heap : Heap) (htotal : heap.table.total.toNat < 2 ^ 31)
    {s n : ℕ} (h : Allocated heap s n) :
    (heapMarkBlockFree heap s).table.entries =
      overwrite heap.table.entries s n (fun _ => entryFree) := by
  obtain ⟨hn, hsn, hchain⟩ := h
  have htot : heap.table.total.toInt = heap.table.total.toNat :=
    BitVec.toInt_eq_toNat_of_lt (by omega)
  have hspec := markFreeLoop_spec s n (heap.table.total.toNat - s) 0 heap.table.entries hn
    (by omega) (fun i _ hi => hchain i hi)
  simp only [heapMarkBlockFree, Heap.setEntries, htot]
  rw [show ((heap.table.total.toNat : ℤ) - (s : ℤ)).toNat = heap.table.total.toNat - s by omega]
  rw [Nat.add_zero] at hspec
  rw [hspec]
  rfl

/-- An address of the pool maps back to its block. -/
lemma heapAddressToBlock_blockToAddress (heap : Heap) {s : ℕ} (hs : s < 2 ^ 19) :
    heapAddressToBlock heap (heapBlockToAddress heap s) = s := by
  have hsub : heapBlockToAddress heap s - heap.saddr = BitVec.ofNat 32 (s * 4096) := by
    simp only [heapBlockToAddress]
    rw [BitVec.add_comm, BitVec.add_sub_cancel]
    exact_mod_cast BitVec.ofInt_natCast 32 (s * 4096)
  rw [heapAddressToBlock, hsub, BitVec.toInt_eq_toNat_of_lt (by simp; omega)]
  simp only [BitVec.toNat_ofNat]
  rw [Nat.mod_eq_of_lt (by omega)]
  push_cast
  exact Int.mul_tdiv_cancel _ (by norm_num)

@[simp] lemma heapMalloc_saddr (heap : Heap) (size : Word) :
    (heapMalloc heap size).2.saddr = heap.saddr := by
  unfold heapMalloc heapMallocBlocks
  dsimp only
  split_ifs <;> rfl

@[simp] lemma heapMalloc_total (heap : Heap) (size : Word) :
    (heapMalloc heap size).2.table.total = heap.table.total := by
  unfold heapMalloc heapMallocBlocks
  dsimp only
  split_ifs <;> rfl

@[simp] lemma heapFree_saddr (heap : Heap) (ptr : Word) : (heapFree heap ptr).saddr = heap.saddr :=
  rfl

@[simp] lemma heapFree_total (heap : Heap) (ptr : Word) :
    (heapFree heap ptr).table.total = heap.table.total := rfl

lemma heapBlocksFor_lt (size : Word) : (heapBlocksFor size).toNat < 2 ^ 20 := by
  have hdiv : (heapBlocksFor size).toNat = (heapAlignValueToUpper size).toNat / 4096 := by
    simp [heapBlocksFor]
  have := (heapAlignValueToUpper size).isLt
  omega

/-- The size rounded up to blocks, which wraps around past the last block boundary. -/
lemma heapAlignValueToUpper_toNat (size : Word) :
    (heapAlignValueToUpper size).toNat = (size.toNat + 4095) / 4096 * 4096 % 2 ^ 32 := by
  have hmod : (size % 4096).toNat = size.toNat % 4096 := BitVec.toNat_umod
  have hlt := size.isLt
  unfold heapAlignValueToUpper
  by_cases h0 : size % 4096 = 0
  · rw [if_pos h0]
    rw [h0] at hmod
    have hz : (0 : Word).toNat = 0 := rfl
    omega
  · rw [if_neg h0]
    have hpos : (size % 4096).toNat ≠ 0 := fun hz => h0 (BitVec.eq_of_toNat_eq hz)
    have hsub : (size - size % 4096).toNat = size.toNat - size.toNat % 4096 := by
      rw [BitVec.toNat_sub_of_le (by rw [BitVec.le_def, hmod]; omega), hmod]
    have hadd : (size - size % 4096 + 4096).toNat =
        (size.toNat - size.toNat % 4096 + 4096) % 2 ^ 32 := by
      rw [BitVec.toNat_add, hsub]
      rfl
    omega

lemma heapBlocksFor_eq (size : Word) :
    (heapBlocksFor size).toNat = (size.toNat + 4095) / 4096 * 4096 % 2 ^ 32 / 4096 := by
  rw [← heapAlignValueToUpper_toNat]
  simp [heapBlocksFor]

/-- A request that needs a block needs its size rounded up to blocks. -/
lemma heapBlocksFor_toNat {size : Word} (hn : 0 < (heapBlocksFor size).toNat) :
    (heapBlocksFor size).toNat = (size.toNat + 4095) / 4096 := by
  have hlt := size.isLt
  have heq := heapBlocksFor_eq size
  omega

/-- Every address `heap_malloc` returns is the address of a block. -/
lemma heapMalloc_addr (heap : Heap) (size : Word) : (heapMalloc heap size).1 = 0 ∨
    ∃ b < heap.table.total.toNat, (heapMalloc heap size).1 = heapBlockToAddress heap (b : ℕ) := by
  have hrange := startBlocksLoop_range heap.table.entries (heapBlocksFor size).toNat
    heap.table.total.toNat 0 0 (-1) (.inl rfl)
  unfold heapMalloc heapMallocBlocks
  dsimp only
  split_ifs with hneg
  · exact .inl rfl
  · right
    rw [heapGetStartBlocks] at hneg ⊢
    split_ifs at hneg ⊢ with hnone
    · exact absurd (by decide) hneg
    · obtain ⟨hlow, hhigh⟩ := hrange.resolve_left hnone
      obtain ⟨b, hb⟩ := Int.eq_ofNat_of_zero_le hlow
      rw [hb] at hhigh ⊢
      exact ⟨b, by omega, rfl⟩

/-- The address and the table `heap_malloc` leaves when it starts at entry `s`. -/
def mallocAt (heap : Heap) (n s : ℕ) : Word × Heap :=
  (heapBlockToAddress heap s, heap.setEntries (overwrite heap.table.entries s n (blockEntry n)))

/-- `heap_malloc` of at least one block takes the first fit. Without a fit it fails,
or takes a free tail that is too short. -/
theorem heapMalloc_spec (heap : Heap) (hpool : heap.table.total.toNat < 2 ^ 20)
    (size : Word) (hn : 0 < (heapBlocksFor size).toNat) :
    (∃ s, FitsAt heap.table.entries heap.table.total.toNat (heapBlocksFor size).toNat s ∧
      (∀ s' < s, ¬ FitsAt heap.table.entries heap.table.total.toNat (heapBlocksFor size).toNat s') ∧
      heapMalloc heap size = mallocAt heap (heapBlocksFor size).toNat s) ∨
    ((∀ s, ¬ FitsAt heap.table.entries heap.table.total.toNat (heapBlocksFor size).toNat s) ∧
      (heapMalloc heap size = (0, heap) ∨
      ∃ s < heap.table.total.toNat,
        (∀ j, s ≤ j → j < heap.table.total.toNat → IsFree heap.table.entries j) ∧
        heapMalloc heap size = mallocAt heap (heapBlocksFor size).toNat s)) := by
  have hlt := heapBlocksFor_lt size
  generalize hnn : heapBlocksFor size = n at *
  have hat : ∀ s : ℕ, s < heap.table.total.toNat → heapGetStartBlocks heap n = s →
      heapMalloc heap size = mallocAt heap n.toNat s := by
    intro s hs heq
    have hmark := heapMarkBlockTaken_entries heap s n hn (by omega)
    simp only [heapMalloc, heapMallocBlocks, hnn, heq]
    rw [if_neg (by omega)]
    simp only [mallocAt]
    rw [← hmark]
    rfl
  rcases heapGetStartBlocks_spec heap n hn with
    ⟨s, hfit, hleast, heq⟩ | ⟨hno, heq | ⟨s, heq, hs, htail⟩⟩
  · left; exact ⟨s, hfit, hleast, hat s (by have := hfit.1; omega) heq⟩
  · right; refine ⟨hno, .inl ?_⟩
    simp [heapMalloc, heapMallocBlocks, hnn, heq]
  · right; exact ⟨hno, .inr ⟨s, hs, htail, hat s hs heq⟩⟩

end AlphaOS.BlockHeap
