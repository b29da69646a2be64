import AlphaOS.BlockKeeps

/-! Who owns what in the heap: pointers that are each null or the start of an allocation of their own,
while anybody allocates and frees. Only the table of the heap matters, not the contents of memory. -/
namespace AlphaOS.BlockHeap
open Kheap WordMemory

/-- From `s` to `s'` the table stays linked, and an allocation that starts at a block of `K` stays. -/
structure Pins (K : Set ℕ) (s s' : Kmem) : Prop where
  linked : Linked s.entries → Linked s'.entries
  pinned : ∀ b ∈ K, Pinned s.entries b 1 → Pinned s'.entries b 1

/-- The pointers are null or start allocations, and no two start the same one. -/
structure Owns {ι : Type*} (s : Kmem) (ptr : ι → Word) : Prop where
  linked : Linked s.entries
  pinned : ∀ i, ptr i = 0 ∨ ∃ b < 25600, ptr i = blockAddr b ∧ Pinned s.entries b 1
  injective : ∀ i j, ptr i = ptr j → ptr i ≠ 0 → i = j

/-- The blocks that the pointers lead to. -/
def ownedBlocks {ι : Type*} (ptr : ι → Word) : Set ℕ := {b | b < 25600 ∧ ∃ i, ptr i = blockAddr b}

variable {s s' s'' : Kmem} {K L : Set ℕ} {size p : Word} {b : ℕ}

lemma Pins.refl (K : Set ℕ) (s : Kmem) : Pins K s s := ⟨id, fun _ _ h => h⟩

lemma Pins.trans (h : Pins K s s') (h' : Pins K s' s'') : Pins K s s'' :=
  ⟨fun hs => h'.linked (h.linked hs), fun b hb hpin => h'.pinned b hb (h.pinned b hb hpin)⟩

lemma Pins.mono (h : Pins L s s') (hKL : K ⊆ L) : Pins K s s' :=
  ⟨h.linked, fun b hb => h.pinned b (hKL hb)⟩

lemma Keeps.pins (h : Keeps K s s') : Pins K s s' := ⟨h.linked, h.pinned⟩

/-- Stores to memory, wherever they go. -/
lemma pins_withMem (K : Set ℕ) (s : Kmem) (mem : Mem) : Pins K s (s.withMem mem) :=
  ⟨id, fun _ _ h => h⟩

/-- A request of any size. -/
lemma pins_kzalloc (hK : ∀ b ∈ K, b < 25600) : Pins K s (kzalloc s size).2 := by
  refine ⟨fun h => h.kzalloc size, fun b hb hpin => ?_⟩
  have hlt := hK b hb
  exact hpin.kzalloc one_pos (by omega) size

lemma pins_kfree (h : Droppable K s p) : Pins K s (kfree s p) := (keeps_kfree h).pins

section Owners
variable {ι : Type*} {ptr ptr' : ι → Word} {i : ι}

lemma mem_ownedBlocks (hb : b < 25600) (h : ptr i = blockAddr b) : b ∈ ownedBlocks ptr := ⟨hb, i, h⟩

lemma ownedBlocks_lt : ∀ b ∈ ownedBlocks ptr, b < 25600 := fun _ hb => hb.1

lemma Owns.block_pinned (h : Owns s ptr) (hb : b ∈ ownedBlocks ptr) : Pinned s.entries b 1 := by
  obtain ⟨hlt, i, hi⟩ := hb
  rcases h.pinned i with hnull | ⟨c, hc, heq, hpin⟩
  · exact absurd (hi.symm.trans hnull) (blockAddr_ne_zero (by omega))
  · obtain rfl : b = c := blockAddr_inj (by omega) (by omega) (hi.symm.trans heq)
    exact hpin

/-- Whoever leaves the owned blocks allocated leaves them to their owners. -/
theorem Owns.pins (h : Owns s ptr) (hpins : Pins (ownedBlocks ptr) s s') : Owns s' ptr := by
  refine ⟨hpins.linked h.linked, fun i => ?_, h.injective⟩
  rcases h.pinned i with hnull | ⟨b, hb, heq, hpin⟩
  · exact .inl hnull
  · exact .inr ⟨b, hb, heq, hpins.pinned b (mem_ownedBlocks hb heq) hpin⟩

/-- Owners may forget pointers. -/
theorem Owns.sub (h : Owns s ptr) (hsub : ∀ i, ptr' i = 0 ∨ ptr' i = ptr i) : Owns s ptr' := by
  refine ⟨h.linked, fun i => ?_, fun i j hij hne => ?_⟩
  · rcases hsub i with hnull | hsame
    · exact .inl hnull
    · rw [hsame]
      exact h.pinned i
  · have hi := (hsub i).resolve_left hne
    have hj := (hsub j).resolve_left fun h0 => hne (hij.trans h0)
    exact h.injective i j (by rw [← hi, ← hj, hij]) (by rwa [← hi])

lemma free_not_owned (h : Owns s ptr) (hfree : IsFree s.entries b) : b ∉ ownedBlocks ptr := fun hb =>
  (h.block_pinned hb).not_free hfree

variable [DecidableEq ι]

/-- An allocation that is nobody's gets an owner. -/
theorem Owns.add (h : Owns s ptr) (i : ι) (hb : b < 25600) (hnot : b ∉ ownedBlocks ptr)
    (hpin : Pinned s.entries b 1) : Owns s (Function.update ptr i (blockAddr b)) := by
  have hother : ∀ j, ptr j ≠ blockAddr b := fun j heq => hnot (mem_ownedBlocks hb heq)
  refine ⟨h.linked, fun j => ?_, fun j l hjl hne => ?_⟩
  · by_cases hj : j = i
    · rw [hj, Function.update_self]
      exact .inr ⟨b, hb, rfl, hpin⟩
    · rw [Function.update_of_ne hj]
      exact h.pinned j
  · by_cases hj : j = i <;> by_cases hl : l = i
    · rw [hj, hl]
    · rw [hj, Function.update_self, Function.update_of_ne hl] at hjl
      exact absurd hjl.symm (hother l)
    · rw [hl, Function.update_self, Function.update_of_ne hj] at hjl
      exact absurd hjl (hother j)
    · rw [Function.update_of_ne hj] at hjl hne
      rw [Function.update_of_ne hl] at hjl
      exact h.injective j l hjl hne

/-- A request that is granted. -/
theorem Owns.kzalloc (h : Owns s ptr) (i : ι) (hne : (Kheap.kzalloc s size).1 ≠ 0)
    (hpos : 0 < (heapBlocksFor size).toNat) :
    Owns (Kheap.kzalloc s size).2 (Function.update ptr i (Kheap.kzalloc s size).1) := by
  obtain ⟨b, hb, heq, hfree, hpin⟩ := h.linked.kzalloc_pinned hne hpos
  rw [heq]
  exact (h.pins (pins_kzalloc ownedBlocks_lt)).add i hb (free_not_owned h hfree) hpin

/-- An owner may free what is his. -/
theorem Owns.kfree (h : Owns s ptr) (i : ι) :
    Owns (Kheap.kfree s (ptr i)) (Function.update ptr i 0) := by
  have hrest : Owns s (Function.update ptr i 0) := h.sub fun j => by
    by_cases hj : j = i
    · exact .inl (by rw [hj, Function.update_self])
    · exact .inr (Function.update_of_ne hj _ _)
  refine hrest.pins (pins_kfree ?_)
  rcases h.pinned i with hnull | ⟨b, hb, heq, hpin⟩
  · rw [hnull]
    exact droppable_null _ s
  · rw [heq]
    refine hpin.droppable hb fun hmem => ?_
    obtain ⟨-, j, hj⟩ := hmem
    by_cases hji : j = i
    · rw [hji, Function.update_self] at hj
      exact blockAddr_ne_zero (by omega) hj.symm
    · rw [Function.update_of_ne hji] at hj
      refine hji (h.injective j i (hj.trans heq.symm) ?_)
      rw [hj]
      exact blockAddr_ne_zero (by omega)

end Owners

/-- What is allocated and freed again between other operations is no one's. -/
lemma pins_temporary (hs : Linked s.entries) (hK : ∀ b ∈ K, b < 25600 ∧ Pinned s.entries b 1)
    (hne : (kzalloc s size).1 ≠ 0) (hpos : 0 < (heapBlocksFor size).toNat)
    (hkeep : ∀ L : Set ℕ, (∀ b ∈ L, b < 25600) → Pins L (kzalloc s size).2 s') :
    Pins K s (kfree s' (kzalloc s size).1) := by
  obtain ⟨b, hb, heq, hfree, hpin⟩ := hs.kzalloc_pinned hne hpos
  have hlt : ∀ c ∈ insert b K, c < 25600 := by
    rintro c (rfl | hc)
    · exact hb
    · exact (hK c hc).1
  have hnot : b ∉ K := fun hmem => (hK b hmem).2.not_free hfree
  have hpins := hkeep _ hlt
  have hdrop : Droppable K s' (kzalloc s size).1 := by
    rw [heq]
    exact (hpins.pinned b (.inl rfl) hpin).droppable hb hnot
  exact ((pins_kzalloc fun c hc => (hK c hc).1).trans (hpins.mono (Set.subset_insert b K))).trans
    (pins_kfree hdrop)

end AlphaOS.BlockHeap
