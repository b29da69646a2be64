import AlphaOS.BlockHeapSpec

/-! Whole runs of `heap_malloc` and `heap_free` on one heap: the table stays the
disjoint union of the live allocations and of zero entries. -/
namespace AlphaOS.BlockHeap
open Tiling

/-- A run from `heap₀`, with its live allocations: the address `heap_malloc` returned
and the number of blocks asked for. -/
inductive HeapRun (heap₀ : Heap) : Heap → List (Word × ℕ) → Prop
  | start : HeapRun heap₀ heap₀ []
  | malloc {heap : Heap} {live : List (Word × ℕ)} (run : HeapRun heap₀ heap live) (size : Word)
      (blocks : 0 < (heapBlocksFor size).toNat)
      (fits : ∃ s, FitsAt heap.table.entries heap.table.total.toNat (heapBlocksFor size).toNat s) :
      HeapRun heap₀ (heapMalloc heap size).2
        (((heapMalloc heap size).1, (heapBlocksFor size).toNat) :: live)
  | free {heap : Heap} {live : List (Word × ℕ)} (run : HeapRun heap₀ heap live)
      {a : Word × ℕ} (ha : a ∈ live) : HeapRun heap₀ (heapFree heap a.1) (live.erase a)

/-- The entries an allocation occupies. -/
def extentOf (heap : Heap) (a : Word × ℕ) : Extent := ⟨(heapAddressToBlock heap a.1).toNat, a.2⟩

/-- The abstract state of a heap: its table is tiled by the live allocations, and each
of their addresses is the address of its first block. -/
structure Represents (heap : Heap) (live : List (Word × ℕ)) : Prop where
  pool : heap.table.total.toNat < 2 ^ 19
  address : ∀ a ∈ live, a.1 = heapBlockToAddress heap (extentOf heap a).start ∧
    heapAddressToBlock heap a.1 = (extentOf heap a).start
  tiled : Tiled blockEntry entryFree (fun i => heap.table.entries i) heap.table.total.toNat
    (live.map (extentOf heap))

variable {heap heap₀ : Heap} {live : List (Word × ℕ)}

lemma Represents.allocated (h : Represents heap live) {a : Word × ℕ} (ha : a ∈ live) :
    Allocated heap (extentOf heap a).start a.2 := by
  have he : extentOf heap a ∈ live.map (extentOf heap) := List.mem_map_of_mem ha
  exact ⟨h.tiled.pos _ he, h.tiled.bound _ he, h.tiled.coded _ he⟩

/-- In a tiled table an entry is free exactly when it is zero. -/
lemma Represents.entry_eq_free (h : Represents heap live) {i : ℕ}
    (hi : i < heap.table.total.toNat) (hfree : IsFree heap.table.entries i) :
    heap.table.entries i = entryFree := by
  refine h.tiled.free i hi fun e he hh => ?_
  obtain ⟨j, hj, rfl⟩ := Extent.has_iff.1 hh
  have hcoded : heap.table.entries ((e.start + j : ℕ) : ℤ) = blockEntry e.len j :=
    h.tiled.coded e he j hj
  have htype : heapGetEntryType (heap.table.entries ((e.start + j : ℕ) : ℤ)) = entryFree := hfree
  rw [hcoded, blockEntry_type] at htype
  exact absurd htype (by decide)

lemma overwrite_blockEntry (entries : ℤ → Byte) (e : Extent) :
    (fun i : ℕ => overwrite entries e.start e.len (blockEntry e.len) i) =
      place blockEntry (fun i : ℕ => entries i) e := by
  funext i; exact overwrite_natCast _ _ _ _ i

lemma overwrite_entryFree (entries : ℤ → Byte) (e : Extent) :
    (fun i : ℕ => overwrite entries e.start e.len (fun _ => entryFree) i) =
      clear entryFree (fun i : ℕ => entries i) e := by
  funext i; exact overwrite_natCast _ _ _ _ i

/-- An allocation of free entries is added. -/
lemma Represents.mallocAt (h : Represents heap live) {n s : ℕ} (hn : 0 < n)
    (hfit : FitsAt heap.table.entries heap.table.total.toNat n s) :
    Represents (mallocAt heap n s).2 (((mallocAt heap n s).1, n) :: live) := by
  have hs : s < 2 ^ 19 := by
    have hbound := hfit.1
    have hpool := h.pool
    omega
  have hback : heapAddressToBlock heap (heapBlockToAddress heap s) = s :=
    heapAddressToBlock_blockToAddress heap hs
  have hext : extentOf heap (heapBlockToAddress heap s, n) = ⟨s, n⟩ := by
    simp [extentOf, hback]
  refine ⟨h.pool, ?_, ?_⟩
  · intro a ha
    rcases List.mem_cons.1 ha with rfl | ha
    · change heapBlockToAddress heap s =
        heapBlockToAddress heap (extentOf heap (heapBlockToAddress heap s, n)).start ∧
        heapAddressToBlock heap (heapBlockToAddress heap s) =
        (extentOf heap (heapBlockToAddress heap s, n)).start
      rw [hext]
      exact ⟨rfl, hback⟩
    · exact h.address a ha
  · change Tiled _ _ (fun i : ℕ => overwrite heap.table.entries s n (blockEntry n) i) _
      (extentOf heap (heapBlockToAddress heap s, n) :: live.map (extentOf heap))
    rw [hext, overwrite_blockEntry heap.table.entries ⟨s, n⟩]
    refine h.tiled.place (fun _ _ _ => blockEntry_ne_free) hn hfit.1 fun i hi => ?_
    exact h.entry_eq_free (lt_of_lt_of_le hi.2 hfit.1) (hfit.2 i hi.1 hi.2)

/-- `heap_malloc` adds an allocation at the first fit. -/
theorem Represents.malloc (h : Represents heap live) {size : Word}
    (hn : 0 < (heapBlocksFor size).toNat)
    (hfits : ∃ s, FitsAt heap.table.entries heap.table.total.toNat (heapBlocksFor size).toNat s) :
    ∃ s, FitsAt heap.table.entries heap.table.total.toNat (heapBlocksFor size).toNat s ∧
      heapMalloc heap size = BlockHeap.mallocAt heap (heapBlocksFor size).toNat s ∧
      Represents (heapMalloc heap size).2
        (((heapMalloc heap size).1, (heapBlocksFor size).toNat) :: live) := by
  obtain ⟨s, hfit, -, heq⟩ | ⟨hno, -⟩ := heapMalloc_spec heap (by have := h.pool; omega) size hn
  swap
  · exact absurd hfits.choose_spec (hno _)
  refine ⟨s, hfit, heq, ?_⟩
  rw [heq]
  exact h.mallocAt hn hfit

/-- The entries after freeing a live allocation. -/
lemma Represents.free_entries (h : Represents heap live) {a : Word × ℕ} (ha : a ∈ live) :
    (heapFree heap a.1).table.entries =
      overwrite heap.table.entries (extentOf heap a).start a.2 (fun _ => entryFree) := by
  have hpool := h.pool
  rw [heapFree, (h.address a ha).2]
  exact heapMarkBlockFree_entries heap (by omega) (h.allocated ha)

/-- `heap_free` of a live allocation removes it. -/
theorem Represents.free (h : Represents heap live) {a : Word × ℕ} (ha : a ∈ live) :
    Represents (heapFree heap a.1) (live.erase a) := by
  refine ⟨h.pool, fun b hb => h.address b (List.mem_of_mem_erase hb), ?_⟩
  have hperm : (live.map (extentOf heap)).Perm
      (extentOf heap a :: (live.erase a).map (extentOf heap)) :=
    (List.perm_cons_erase ha).map (extentOf heap)
  rw [h.free_entries ha]
  have hclear := (h.tiled.perm hperm).clear
  rw [← overwrite_entryFree heap.table.entries (extentOf heap a)] at hclear
  exact hclear

/-- A heap made by `heap_create` starts with no live allocation. -/
lemma heapCreate_represents {heap heap₁ : Heap} {ptr endp : Word} {table : HeapTable}
    (hcreate : heapCreate heap ptr endp table = (0, heap₁))
    (hpool : (endp - ptr).toNat < 2 ^ 31) : Represents heap₁ [] := by
  unfold heapCreate at hcreate
  by_cases halign : ¬ heapValidateAlignment ptr ∨ ¬ heapValidateAlignment endp
  · rw [if_pos halign] at hcreate
    exact absurd (congrArg Prod.fst hcreate) (by simp)
  · rw [if_neg halign] at hcreate
    by_cases htot : table.total = (endp - ptr) / 4096
    · have hres : heapValidateTable ptr endp table = 0 := by simp [heapValidateTable, htot]
      simp only [hres, lt_self_iff_false, if_false] at hcreate
      have hheap := congrArg Prod.snd hcreate
      subst hheap
      refine ⟨?_, by simp, Tiled.nil ?_⟩
      · change table.total.toNat < 2 ^ 19
        have hdiv : table.total.toNat = (endp - ptr).toNat / 4096 := by rw [htot]; simp
        omega
      · intro i hi
        exact if_pos ⟨by omega, by exact_mod_cast hi⟩
    · have hres : heapValidateTable ptr endp table = -einvarg := by
        simp only [heapValidateTable, ne_eq, htot, not_false_eq_true, if_true]
      simp [hres] at hcreate

/-- The abstract state is kept along every run. -/
theorem HeapRun.represents (h₀ : Represents heap₀ []) (run : HeapRun heap₀ heap live) :
    Represents heap live := by
  induction run with
  | start => exact h₀
  | malloc _ size hn hfits ih =>
    obtain ⟨-, -, -, h⟩ := ih.malloc hn hfits
    exact h
  | free _ ha ih => exact ih.free ha

/-- Freeing the live allocations in any order empties the table. -/
lemma Represents.free_all {order : List (Word × ℕ)} (h : Represents heap live)
    (hperm : order.Perm live) : Represents (order.foldl (fun h a => heapFree h a.1) heap) [] := by
  induction order generalizing heap live with
  | nil =>
    obtain rfl := List.nil_perm.1 hperm
    exact h
  | cons a order ih =>
    exact ih (h.free (hperm.mem_iff.1 (by simp))) (List.cons_perm_iff_perm_erase.1 hperm).2

/-- Along every run of a created heap the table is the disjoint union of the live
allocations and of zero entries, `heap_malloc` writes only free entries, `heap_free`
clears exactly the entries of its allocation, and freeing everything in any order
gives back the all-free table. -/
theorem heapRun_sound {heap₁ : Heap} {ptr endp : Word} {table : HeapTable}
    (hcreate : heapCreate heap₁ ptr endp table = (0, heap₀))
    (hpool : (endp - ptr).toNat < 2 ^ 31) (run : HeapRun heap₀ heap live) :
    Represents heap live ∧
    (∀ size, 0 < (heapBlocksFor size).toNat →
      (∃ s, FitsAt heap.table.entries heap.table.total.toNat (heapBlocksFor size).toNat s) →
      ∀ i, (heapMalloc heap size).2.table.entries i ≠ heap.table.entries i →
        0 ≤ i ∧ i < heap.table.total.toNat ∧ heap.table.entries i = entryFree) ∧
    (∀ a ∈ live, ∀ i, (heapFree heap a.1).table.entries i =
      if (extentOf heap a).start ≤ i ∧ i < ((extentOf heap a).start + a.2 : ℕ) then entryFree
      else heap.table.entries i) ∧
    (∀ order : List (Word × ℕ), order.Perm live → ∀ i < heap.table.total.toNat,
      (order.foldl (fun h a => heapFree h a.1) heap).table.entries i = entryFree) := by
  have h : Represents heap live := run.represents (heapCreate_represents hcreate hpool)
  refine ⟨h, ?_, ?_, ?_⟩
  · intro size hn hfits i hi
    obtain ⟨s, hfit, heq, -⟩ := h.malloc hn hfits
    rw [heq] at hi
    by_cases hr : (s : ℤ) ≤ i ∧ i < (s + (heapBlocksFor size).toNat : ℕ)
    · obtain ⟨k, rfl⟩ := Int.eq_ofNat_of_zero_le (by omega : 0 ≤ i)
      have hk : k < heap.table.total.toNat := by have := hfit.1; omega
      exact ⟨by omega, by exact_mod_cast hk,
        h.entry_eq_free hk (hfit.2 k (by omega) (by omega))⟩
    · exact absurd (if_neg hr) hi
  · intro a ha i
    rw [h.free_entries ha]
    rfl
  · intro order hperm i hi
    have hall := h.free_all hperm
    have htotal : ∀ (order : List (Word × ℕ)) (h : Heap),
        (order.foldl (fun h a => heapFree h a.1) h).table.total = h.table.total := by
      intro order
      induction order with
      | nil => intro h; rfl
      | cons a order ih => intro h; exact ih (heapFree h a.1)
    exact hall.tiled.free i (by rw [htotal]; exact hi) (by simp)

/-- A heap of two blocks. -/
def twoBlockHeap : Heap :=
  (heapCreate ⟨⟨fun _ => 0, 0⟩, 0⟩ 0x1000 0x3000 ⟨fun _ => 0xFF, 2⟩).2

theorem heapRun_sound_twoBlocks :
    Represents (heapFree (heapMalloc twoBlockHeap 4096).2 (heapMalloc twoBlockHeap 4096).1) [] := by
  have hfits : ∃ s, FitsAt twoBlockHeap.table.entries twoBlockHeap.table.total.toNat
      (heapBlocksFor 4096).toNat s := by
    refine ⟨0, by decide, fun j _ hj => ?_⟩
    obtain rfl : j = 0 := by
      have hone : (heapBlocksFor 4096).toNat = 1 := by decide
      omega
    decide
  have run := (HeapRun.start.malloc 4096 (by decide) hfits).free (List.mem_singleton_self _)
  have h := (heapRun_sound (Prod.ext (by decide) rfl : heapCreate ⟨⟨fun _ => 0, 0⟩, 0⟩ 0x1000 0x3000
    ⟨fun _ => 0xFF, 2⟩ = (0, twoBlockHeap)) (by decide) run).1
  simpa using h

end AlphaOS.BlockHeap
