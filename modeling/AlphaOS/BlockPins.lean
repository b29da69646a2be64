import AlphaOS.KheapBlocks

/-! Blocks that stay taken whatever else is allocated and freed around them. Freeing runs along
the chain of an allocation, so what protects a block is that no chain leads into it. -/
namespace AlphaOS.BlockHeap
open Kheap

/-- A chain ends at entry `j`. -/
def NoNext (entries : ℤ → Byte) (j : ℤ) : Prop := entries j &&& hasNext = 0

instance (entries : ℤ → Byte) (j : ℤ) : Decidable (NoNext entries j) :=
  inferInstanceAs (Decidable (_ = _))

lemma noNext_free {entries : ℤ → Byte} {j : ℤ} (h : entries j = entryFree) : NoNext entries j := by
  rw [NoNext, h]
  decide

/-- Freeing clears the entries of one chain. -/
lemma markFreeLoop_run (k : ℕ) (i : ℤ) (table : ℤ → Byte) : ∃ m : ℤ, i ≤ m ∧ m ≤ i + k ∧
    (∀ j, i ≤ j → j + 1 < m → ¬ NoNext table j) ∧
    markFreeLoop k i table = fun x => if i ≤ x ∧ x < m then entryFree else table x := by
  induction k generalizing i table with
  | zero =>
    refine ⟨i, le_rfl, by omega, fun j h1 h2 => by omega, ?_⟩
    funext x
    rw [if_neg (by omega)]
    rfl
  | succ k ih =>
    rw [markFreeLoop]
    by_cases hlast : table i &&& hasNext = 0
    · refine ⟨i + 1, by omega, by omega, fun j h1 h2 => by omega, ?_⟩
      rw [if_pos hlast]
      funext x
      by_cases hx : x = i
      · rw [hx, Function.update_self, if_pos (by omega)]
      · rw [Function.update_of_ne hx, if_neg (by omega)]
    · obtain ⟨m, h1, h2, hchain, heq⟩ := ih (i + 1) (Function.update table i entryFree)
      refine ⟨m, by omega, by omega, fun j hj hm => ?_, ?_⟩
      · by_cases hji : j = i
        · rw [hji]
          exact hlast
        · have hnext := hchain j (by omega) hm
          rwa [NoNext, Function.update_of_ne hji] at hnext
      · rw [if_neg hlast, heq]
        funext x
        by_cases hx : x = i
        · rw [hx, if_neg (by omega), Function.update_self, if_pos (by omega)]
        · rw [Function.update_of_ne hx]
          by_cases hr : i + 1 ≤ x ∧ x < m
          · rw [if_pos hr, if_pos (by omega)]
          · rw [if_neg hr, if_neg (by omega)]

/-- The run of entries `kfree` clears. -/
lemma kfree_run (s : Kmem) (ptr : Word) : ∃ m : ℤ,
    (∀ j, heapAddressToBlock s.kernelHeap ptr ≤ j → j + 1 < m → ¬ NoNext s.entries j) ∧
    ∀ x, (kfree s ptr).entries x =
      if heapAddressToBlock s.kernelHeap ptr ≤ x ∧ x < m then entryFree else s.entries x := by
  obtain ⟨m, -, -, hchain, heq⟩ := markFreeLoop_run
    (s.kernelHeap.table.total.toInt - heapAddressToBlock s.kernelHeap ptr).toNat
    (heapAddressToBlock s.kernelHeap ptr) s.entries
  exact ⟨m, hchain, fun x => congrFun heq x⟩

/-- The `n` entries from `b` on are taken and no chain leads into them. -/
structure Pinned (entries : ℤ → Byte) (b n : ℕ) : Prop where
  taken : ∀ j, b ≤ j → j < b + n → ¬ IsFree entries j
  barrier : ∃ j : ℤ, -4096 ≤ j ∧ j < b ∧ (0 < b → j = b - 1) ∧ NoNext entries j

/-- What `kfree` may be given next to them: a pointer far below the pool, null among them, or
one to another block. -/
def Elsewhere (s : Kmem) (ptr : Word) (b n : ℕ) : Prop :=
  heapAddressToBlock s.kernelHeap ptr ≤ -4096 ∨
    ∃ c : ℕ, heapAddressToBlock s.kernelHeap ptr = c ∧ (c < b ∨ b + n ≤ c)

variable {s : Kmem} {ptr : Word} {b c n m : ℕ}

lemma heapAddressToBlock_null (s : Kmem) : heapAddressToBlock s.kernelHeap 0 = -4096 := by
  rw [heapAddressToBlock, s.saddr_eq]
  decide

lemma elsewhere_blockAddr (hc : c < 2 ^ 19) (h : c < b ∨ b + n ≤ c) :
    Elsewhere s (blockAddr c) b n :=
  .inr ⟨c, heapAddressToBlock_eq s hc, h⟩

lemma noNext_kfree {j : ℤ} (h : NoNext s.entries j) : NoNext (kfree s ptr).entries j := by
  obtain ⟨m, -, heq⟩ := kfree_run s ptr
  rw [NoNext, heq]
  split_ifs
  · decide
  · exact h

/-- The release of another block does not touch them. -/
lemma Pinned.kfree_entries (h : Pinned s.entries b n) (hptr : Elsewhere s ptr b n) {j : ℕ}
    (h1 : b ≤ j) (h2 : j < b + n) : (kfree s ptr).entries j = s.entries j := by
  obtain ⟨m, hchain, heq⟩ := kfree_run s ptr
  obtain ⟨i, hlow, hlt, hlast, hstop⟩ := h.barrier
  rw [heq, if_neg]
  rintro ⟨hstart, hend⟩
  rcases hptr with hfar | ⟨c, hc, hlow' | hhigh⟩
  · exact hchain i (by omega) (by omega) hstop
  · exact hchain i (by omega) (by omega) hstop
  · omega

theorem Pinned.kfree (h : Pinned s.entries b n) (hptr : Elsewhere s ptr b n) :
    Pinned (kfree s ptr).entries b n := by
  refine ⟨fun j h1 h2 => ?_, ?_⟩
  · rw [IsFree, h.kfree_entries hptr h1 h2]
    exact h.taken j h1 h2
  · obtain ⟨j, hlow, hlt, hlast, hstop⟩ := h.barrier
    exact ⟨j, hlow, hlt, hlast, noNext_kfree hstop⟩

/-- A request of any size that starts in the pool, at free blocks. -/
lemma kmalloc_entries (s : Kmem) (size : Word) : (kmalloc s size).2.entries = s.entries ∨
    ∃ b < 25600, ∃ n, n = (heapBlocksFor size).toNat ∧ (kmalloc s size).1 = blockAddr b ∧
      (∀ j, b ≤ j → j < b + n → j < 25600 → IsFree s.entries j) ∧
      (kmalloc s size).2.entries = overwrite s.entries b n (blockEntry n) := by
  rcases kmalloc_shape s size with heq | ⟨b, hb, hfree, heq⟩
  · rw [heq]
    exact .inl rfl
  · refine .inr ⟨b, hb, _, rfl, ?_, hfree, ?_⟩ <;> rw [heq]
    rfl

lemma kzalloc_entries (s : Kmem) (size : Word) :
    (kzalloc s size).2.entries = (kmalloc s size).2.entries := by
  rw [Kmem.entries, kzalloc_kernelHeap]

/-- The end of a run of blocks written over free ones is the end of a chain. -/
lemma noNext_overwrite {entries : ℤ → Byte} {j : ℤ} (h : NoNext entries j)
    (hlast : c ≤ j → j < c + m → j + 1 = c + m) :
    NoNext (overwrite entries c m (blockEntry m)) j := by
  rw [NoNext, overwrite]
  by_cases hin : (c : ℤ) ≤ j ∧ j < (c + m : ℕ)
  · have hnext := hlast (by omega) (by omega)
    rw [if_pos hin, blockEntry_hasNext]
    omega
  · rw [if_neg hin]
    exact h

theorem Pinned.kzalloc (h : Pinned s.entries b n) (hn : 0 < n) (hpool : b + n ≤ 25600)
    (size : Word) : Pinned (kzalloc s size).2.entries b n := by
  rw [kzalloc_entries]
  rcases kmalloc_entries s size with heq | ⟨c, hc, m, -, -, hfree, heq⟩
  · rwa [heq]
  · rw [heq]
    obtain ⟨i, hlow, hlt, hlast, hstop⟩ := h.barrier
    -- the new blocks hold none of the pinned ones
    have hnot : ∀ j, b ≤ j → j < b + n → ¬ (c ≤ j ∧ j < c + m) := fun j h1 h2 hin =>
      h.taken j h1 h2 (hfree j hin.1 hin.2 (by omega))
    refine ⟨fun j h1 h2 => ?_, i, hlow, hlt, hlast, noNext_overwrite hstop fun h1 h2 => ?_⟩
    · rw [IsFree, overwrite_natCast, if_neg (hnot j h1 h2)]
      exact h.taken j h1 h2
    · have := hnot b le_rfl (by omega)
      omega

/-- No chain runs into the pool from below. -/
def Low (entries : ℤ → Byte) : Prop := ∃ j : ℤ, -4096 ≤ j ∧ j < 0 ∧ NoNext entries j

lemma Low.kzalloc (h : Low s.entries) (size : Word) : Low (kzalloc s size).2.entries := by
  rw [kzalloc_entries]
  obtain ⟨j, hlow, hlt, hstop⟩ := h
  rcases kmalloc_entries s size with heq | ⟨c, hc, m, -, -, -, heq⟩
  · exact ⟨j, hlow, hlt, by rwa [heq]⟩
  · rw [heq]
    exact ⟨j, hlow, hlt, noNext_overwrite hstop fun h1 h2 => by omega⟩

lemma Low.kfree (h : Low s.entries) : Low (kfree s ptr).entries := by
  obtain ⟨j, hlow, hlt, hstop⟩ := h
  exact ⟨j, hlow, hlt, noNext_kfree hstop⟩

/-- `kfree` of a pointer far below the pool clears nothing of it. -/
lemma Low.kfree_far (h : Low s.entries) (hfar : heapAddressToBlock s.kernelHeap ptr ≤ -4096) {x : ℤ}
    (hx : 0 ≤ x) : (Kheap.kfree s ptr).entries x = s.entries x := by
  obtain ⟨m, hchain, heq⟩ := kfree_run s ptr
  obtain ⟨j, hlow, hlt, hstop⟩ := h
  rw [heq, if_neg]
  rintro ⟨-, hend⟩
  exact hchain j (by omega) (by omega) hstop

lemma Low.kfree_null (h : Low s.entries) {x : ℤ} (hx : 0 ≤ x) :
    (Kheap.kfree s 0).entries x = s.entries x :=
  h.kfree_far (heapAddressToBlock_null s).le hx

/-- The release of a block where a chain ends clears at most that block. -/
lemma kfree_single (hb : b < 2 ^ 19) (hstop : NoNext s.entries b) {x : ℤ} (hx : x ≠ b) :
    (Kheap.kfree s (blockAddr b)).entries x = s.entries x := by
  obtain ⟨m, hchain, heq⟩ := kfree_run s (blockAddr b)
  rw [heapAddressToBlock_eq s hb] at hchain heq
  rw [heq, if_neg]
  rintro ⟨hstart, hend⟩
  exact hchain b le_rfl (by omega) hstop

/-- From `s` to `s'` no taken block of the pool changes. -/
structure Preserves (s s' : Kmem) : Prop where
  low : Low s'.entries
  taken : ∀ b < 25600, ¬ IsFree s.entries b → s'.entries b = s.entries b

lemma Preserves.withMem {s' : Kmem} (h : Preserves s s') (mem : WordMemory.Mem) :
    Preserves s (s'.withMem mem) := ⟨h.low, h.taken⟩

lemma Preserves.refl (h : Low s.entries) : Preserves s s := ⟨h, fun _ _ _ => rfl⟩

lemma Preserves.trans {s' s'' : Kmem} (h : Preserves s s') (h' : Preserves s' s'') :
    Preserves s s'' := by
  refine ⟨h'.low, fun b hb hnot => ?_⟩
  rw [h'.taken b hb, h.taken b hb hnot]
  rw [IsFree, h.taken b hb hnot]
  exact hnot

lemma Low.kzalloc_preserves (h : Low s.entries) (size : Word) :
    Preserves s (Kheap.kzalloc s size).2 :=
  ⟨h.kzalloc size, fun _ hb hnot => kzalloc_taken s size hb hnot⟩

/-- No chain of the pool runs into a free entry, and none runs into the pool from below. -/
structure Linked (entries : ℤ → Byte) : Prop where
  next : ∀ j : ℕ, j + 1 < 25600 → ¬ NoNext entries j → ¬ IsFree entries (j + 1)
  low : Low entries

/-- In such a table nothing leads into a free block. -/
lemma Linked.barrier {entries : ℤ → Byte} (h : Linked entries) (hb : b < 25600)
    (hfree : IsFree entries b) :
    ∃ j : ℤ, -4096 ≤ j ∧ j < b ∧ (0 < b → j = b - 1) ∧ NoNext entries j := by
  cases b with
  | zero =>
    obtain ⟨j, hlow, hlt, hstop⟩ := h.low
    exact ⟨j, hlow, hlt, fun h0 => absurd h0 (lt_irrefl 0), hstop⟩
  | succ b =>
    refine ⟨b, by omega, by omega, fun _ => by omega, ?_⟩
    by_contra hnext
    exact h.next b hb hnext hfree

/-- The blocks of a new allocation are pinned. -/
theorem Linked.pinned (h : Linked s.entries) {size : Word}
    (hne : (kmalloc s size).1 ≠ 0) (hpos : 0 < (heapBlocksFor size).toNat) :
    ∃ b < 25600, (kmalloc s size).1 = blockAddr b ∧ IsFree s.entries b ∧
      Pinned (kzalloc s size).2.entries b (heapBlocksFor size).toNat := by
  rw [kzalloc_entries]
  rcases kmalloc_shape s size with heq | ⟨b, hb, hfree, heq⟩
  · exact absurd (congrArg Prod.fst heq) hne
  · have hstart := hfree b le_rfl (by omega) hb
    obtain ⟨i, hlow, hlt, hlast, hstop⟩ := h.barrier hb hstart
    refine ⟨b, hb, congrArg Prod.fst heq, hstart, ?_⟩
    rw [heq]
    refine ⟨fun j h1 h2 => ?_, i, hlow, hlt, hlast, noNext_overwrite hstop fun h1 h2 => by omega⟩
    rw [IsFree]
    change heapGetEntryType (overwrite s.entries b _ _ (j : ℤ)) ≠ _
    rw [overwrite_natCast, if_pos ⟨h1, h2⟩, blockEntry_type]
    decide

theorem Linked.kzalloc (h : Linked s.entries) (size : Word) :
    Linked (kzalloc s size).2.entries := by
  rw [kzalloc_entries]
  have hlow := h.low.kzalloc size
  rw [kzalloc_entries] at hlow
  rcases kmalloc_entries s size with heq | ⟨c, hc, m, -, -, hfree, heq⟩
  · rwa [heq]
  · rw [heq] at hlow ⊢
    refine ⟨fun j hj hnext => ?_, hlow⟩
    rw [NoNext, overwrite_natCast] at hnext
    rw [IsFree, overwrite_natCast]
    by_cases hin : c ≤ j ∧ j < c + m
    · rw [if_pos hin, blockEntry_hasNext] at hnext
      rw [if_pos (by omega), blockEntry_type]
      decide
    · rw [if_neg hin] at hnext
      have htaken := h.next j hj hnext
      rw [if_neg fun hin' => htaken (hfree _ hin'.1 hin'.2 hj)]
      exact htaken

/-- Freeing whole chains keeps the table so. -/
theorem Linked.kfree (h : Linked s.entries)
    (hptr : heapAddressToBlock s.kernelHeap ptr ≤ -4096 ∨
      ∃ b, heapAddressToBlock s.kernelHeap ptr = b ∧ (0 < b → NoNext s.entries (b - 1))) :
    Linked (kfree s ptr).entries := by
  obtain ⟨m, hchain, heq⟩ := kfree_run s ptr
  refine ⟨fun j hj hnext => ?_, h.low.kfree⟩
  rw [NoNext, heq] at hnext
  split_ifs at hnext with hin
  · exact absurd (by decide) hnext
  · rw [IsFree, heq, if_neg]
    · exact h.next j hj hnext
    · rintro ⟨h1, h2⟩
      have hstart : heapAddressToBlock s.kernelHeap ptr = j + 1 := by omega
      rcases hptr with hfar | ⟨b, hb, hstop⟩
      · omega
      · have hbj : (b : ℤ) - 1 = j := by omega
        rw [hbj] at hstop
        exact hnext (hstop (by omega))

lemma Linked.kfree_null (h : Linked s.entries) : Linked (Kheap.kfree s 0).entries :=
  h.kfree (.inl (heapAddressToBlock_null s).le)

/-- Freeing a pinned allocation keeps the table linked. -/
lemma Linked.kfree_pinned (h : Linked s.entries) (hpin : Pinned s.entries b n) (hb : b < 2 ^ 19) :
    Linked (Kheap.kfree s (blockAddr b)).entries := by
  refine h.kfree (.inr ⟨b, heapAddressToBlock_eq s hb, fun hpos => ?_⟩)
  obtain ⟨j, -, -, hlast, hstop⟩ := hpin.barrier
  rwa [← hlast (by exact_mod_cast hpos)]

end AlphaOS.BlockHeap
