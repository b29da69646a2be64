import AlphaOS.AddressSpace
import AlphaOS.BlockPins

/-! Allocations of one owner while another one allocates, frees and writes: the relation between
two states of the heap in which the blocks of the first owner stayed as they were. -/
namespace AlphaOS.BlockHeap
open Kheap Paging WordMemory

/-- The table of an empty heap. -/
lemma kheapInit_linked (mem : Mem) : Linked (kheapInit mem fun _ => 0).entries :=
  ⟨fun _ _ hnext => absurd (noNext_free (kheapInit_clear _ _)) hnext, -1, by omega, by omega,
    noNext_free (kheapInit_clear _ _)⟩

lemma emptyKmem_linked : Linked emptyKmem.entries := kheapInit_linked _

/-- From `s` to `s'` the table stays linked, and an allocation that starts at a block of `K` stays
and keeps the contents of that block. -/
structure Keeps (K : Set ℕ) (s s' : Kmem) : Prop where
  linked : Linked s.entries → Linked s'.entries
  pinned : ∀ b ∈ K, Pinned s.entries b 1 → Pinned s'.entries b 1
  mem : ∀ b ∈ K, Pinned s.entries b 1 → ∀ x, pageOf x = 4096 + b → s'.mem x = s.mem x

variable {s s' s'' : Kmem} {K L : Set ℕ} {ptr size : Word} {b c n : ℕ}

lemma Keeps.refl (K : Set ℕ) (s : Kmem) : Keeps K s s :=
  ⟨fun h => h, fun _ _ h => h, fun _ _ _ _ _ => rfl⟩

lemma Keeps.trans (h : Keeps K s s') (h' : Keeps K s' s'') : Keeps K s s'' := by
  refine ⟨fun hs => h'.linked (h.linked hs), fun b hb hpin => h'.pinned b hb (h.pinned b hb hpin),
    fun b hb hpin x hx => ?_⟩
  rw [h'.mem b hb (h.pinned b hb hpin) x hx, h.mem b hb hpin x hx]

lemma Keeps.mono (h : Keeps L s s') (hKL : K ⊆ L) : Keeps K s s' :=
  ⟨h.linked, fun b hb => h.pinned b (hKL hb), fun b hb => h.mem b (hKL hb)⟩

/-- The aligned words of a kept block. -/
lemma Keeps.read32 (h : Keeps K s s') (hb : b ∈ K) (hpin : Pinned s.entries b 1) {a : Word}
    (ha : a.toNat % 4 = 0) (hpage : pageOf a = 4096 + b) : read32 s'.mem a = read32 s.mem a :=
  read32_eq_of_same fun x hx => h.mem b hb hpin x (by rw [hx.pageOf_eq ha, hpage])

lemma Pinned.not_free (h : Pinned s.entries b 1) : ¬ IsFree s.entries b :=
  h.taken b le_rfl (by omega)

/-- Only the first block matters for whether a chain runs into an allocation. -/
lemma Pinned.first {entries : ℤ → Byte} (h : Pinned entries b n) (hn : 0 < n) : Pinned entries b 1 :=
  ⟨fun j h1 h2 => h.taken j h1 (by omega), h.barrier⟩

/-- Stores outside the blocks. -/
lemma keeps_withMem {S : Set ℕ} {mem : Mem} (h : SameOff S s.mem mem) (hS : ∀ b ∈ K, 4096 + b ∉ S) :
    Keeps K s (s.withMem mem) :=
  ⟨fun hs => hs, fun _ _ hpin => hpin, fun b hb _ x hx => h x (by rw [hx]; exact hS b hb)⟩

/-- A new allocation of less than 2^31 bytes is apart from the taken blocks. -/
lemma kzalloc_apart (hnot : ¬ IsFree s.entries b) (hb : b < 25600) (hsize : size.toNat < 2 ^ 31)
    (hne : (kzalloc s size).1 ≠ 0) {x : Word} (hx : pageOf x = 4096 + b) :
    ¬ InRange (kzalloc s size).1 size.toNat x := by
  intro hin
  rcases kzalloc_shape s size with heq | ⟨c, hc, hfree, heq⟩
  · exact hne (congrArg Prod.fst heq)
  · have haddr := blockAddr_toNat (b := c) (by omega)
    have hx' := x.isLt
    rw [heq] at hin
    unfold InRange at hin
    unfold pageOf at hx
    rw [BitVec.toNat_sub, haddr] at hin
    have hblocks := heapBlocksFor_eq size
    exact hnot (hfree b (by omega) (by omega) hb)

/-- A request of less than 2^31 bytes, or one that is refused. -/
lemma keeps_kzalloc (hK : ∀ b ∈ K, b < 25600)
    (hsize : (kzalloc s size).1 = 0 ∨ size.toNat < 2 ^ 31) : Keeps K s (kzalloc s size).2 := by
  refine ⟨fun h => h.kzalloc size, fun b hb hpin => ?_, fun b hb hpin x hx => ?_⟩
  · have hlt := hK b hb
    exact hpin.kzalloc one_pos (by omega) size
  · have hapart := fun hlt hne => @kzalloc_apart s size b hpin.not_free (hK b hb) hlt hne x hx
    rcases kzalloc_shape s size with heq | ⟨c, hc, -, heq⟩
    · rw [heq]
    · have hne : blockAddr c ≠ 0 := blockAddr_ne_zero (by omega)
      rw [heq] at hsize hapart ⊢
      exact if_neg (hapart (hsize.resolve_left hne) hne)

/-- What `kfree` may be given: null, or a block that no chain runs into and that is not kept. -/
def Droppable (K : Set ℕ) (s : Kmem) (ptr : Word) : Prop :=
  heapAddressToBlock s.kernelHeap ptr ≤ -4096 ∨ ∃ c < 25600, ptr = blockAddr c ∧ c ∉ K ∧
    (0 < c → NoNext s.entries (c - 1))

lemma droppable_null (K : Set ℕ) (s : Kmem) : Droppable K s 0 := .inl (heapAddressToBlock_null s).le

lemma Pinned.droppable (h : Pinned s.entries c 1) (hc : c < 25600) (hK : c ∉ K) :
    Droppable K s (blockAddr c) := by
  refine .inr ⟨c, hc, rfl, hK, fun hpos => ?_⟩
  obtain ⟨j, -, -, hlast, hstop⟩ := h.barrier
  rwa [← hlast hpos]

lemma Droppable.kfree (h : Droppable K s ptr) (p : Word) : Droppable K (kfree s p) ptr := by
  rcases h with hfar | ⟨c, hc, heq, hK, hstop⟩
  · exact .inl hfar
  · exact .inr ⟨c, hc, heq, hK, fun hpos => noNext_kfree (hstop hpos)⟩

lemma keeps_kfree (h : Droppable K s ptr) : Keeps K s (kfree s ptr) := by
  refine ⟨fun hs => hs.kfree ?_, fun b hb hpin => hpin.kfree ?_, fun _ _ _ _ _ => rfl⟩
  · rcases h with hfar | ⟨c, hc, rfl, -, hstop⟩
    · exact .inl hfar
    · exact .inr ⟨c, heapAddressToBlock_eq s (by omega), fun hpos => hstop (by exact_mod_cast hpos)⟩
  · rcases h with hfar | ⟨c, hc, rfl, hK, -⟩
    · exact .inl hfar
    · have hne : c ≠ b := fun heq => hK (heq ▸ hb)
      exact elsewhere_blockAddr (by omega) (by omega)

/-- Blocks that are taken one by one keep the table linked and are pinned. -/
lemma grownBy_linked {B : Set ℕ} (h : GrownBy s s' B) (hs : Linked s.entries) :
    Linked s'.entries ∧ ∀ b ∈ B, Pinned s'.entries b 1 := by
  have hsingle : ∀ b ∈ B, NoNext s'.entries b := by
    intro b hb
    rw [NoNext, h.taken b hb]
    decide
  have hkept : ∀ x : ℤ, NoNext s.entries x → NoNext s'.entries x := by
    intro x hx
    by_cases hin : ∃ b ∈ B, x = b
    · obtain ⟨b, hb, rfl⟩ := hin
      exact hsingle b hb
    · rw [NoNext, h.same x fun b hb heq => hin ⟨b, hb, heq⟩]
      exact hx
  have htaken : ∀ b ∈ B, ¬ IsFree s'.entries b := by
    intro b hb
    rw [IsFree, h.taken b hb, blockEntry_type]
    decide
  refine ⟨⟨fun j hj hnext => ?_, ?_⟩, fun b hb => ⟨fun j h1 h2 => ?_, ?_⟩⟩
  · by_cases hin : j + 1 ∈ B
    · exact htaken _ hin
    · have hold := hs.next j hj fun hstop => hnext (hkept j hstop)
      rw [IsFree, h.same ((j + 1 : ℕ) : ℤ) fun b hb heq => hin (by rwa [Nat.cast_inj.1 heq])]
      exact hold
  · obtain ⟨j, hlow, hlt, hstop⟩ := hs.low
    exact ⟨j, hlow, hlt, hkept j hstop⟩
  · obtain rfl : j = b := by omega
    exact htaken j hb
  · obtain ⟨hlt, hfree⟩ := h.fresh b hb
    obtain ⟨j, hlow, hjb, hlast, hstop⟩ := hs.barrier hlt hfree
    exact ⟨j, hlow, hjb, hlast, hkept j hstop⟩

lemma keeps_grownBy {B : Set ℕ} (h : GrownBy s s' B) : Keeps K s s' := by
  have hnot : ∀ b, Pinned s.entries b 1 → b ∉ B := fun b hpin hb => hpin.not_free (h.fresh b hb).2
  refine ⟨fun hs => (grownBy_linked h hs).1, fun b _ hpin => ⟨fun j h1 h2 => ?_, ?_⟩, fun b _ hpin x hx => ?_⟩
  · obtain rfl : j = b := by omega
    rw [IsFree, h.same j fun c hc heq => hnot j hpin (by rwa [Nat.cast_inj.1 heq])]
    exact hpin.not_free
  · obtain ⟨j, hlow, hlt, hlast, hstop⟩ := hpin.barrier
    refine ⟨j, hlow, hlt, hlast, ?_⟩
    by_cases hin : ∃ c ∈ B, j = c
    · obtain ⟨c, hc, rfl⟩ := hin
      rw [NoNext, h.taken c hc]
      decide
    · rw [NoNext, h.same j fun c hc heq => hin ⟨c, hc, heq⟩]
      exact hstop
  · refine h.mem x ?_
    rw [hx]
    rintro (h0 | ⟨c, hc, heq⟩)
    · omega
    · obtain rfl : b = c := by omega
      exact hnot b hpin hc

/-- The block of a new allocation. -/
lemma Linked.kzalloc_pinned (h : Linked s.entries) (hne : (Kheap.kzalloc s size).1 ≠ 0)
    (hpos : 0 < (heapBlocksFor size).toNat) : ∃ b < 25600, (Kheap.kzalloc s size).1 = blockAddr b ∧
      IsFree s.entries b ∧ Pinned (Kheap.kzalloc s size).2.entries b 1 := by
  rw [kzalloc_fst] at hne ⊢
  obtain ⟨b, hb, heq, hfree, hpin⟩ := h.pinned hne hpos
  exact ⟨b, hb, heq, hfree, hpin.first hpos⟩

lemma kzalloc_pinnedAt {size : Word} (hlinked : Linked s.entries) (haddr : (Kheap.kzalloc s size).1 = blockAddr b)
    (hb : b < 25600) (hblocks : 0 < (heapBlocksFor size).toNat) :
    Pinned (Kheap.kzalloc s size).2.entries b 1 := by
  have hne : (Kheap.kzalloc s size).1 ≠ 0 := by
    rw [haddr]
    exact blockAddr_ne_zero (by omega)
  obtain ⟨b', hb', haddr', -, hpin⟩ := hlinked.kzalloc_pinned hne hblocks
  obtain rfl : b = b' := blockAddr_inj (by omega) (by omega) (haddr.symm.trans haddr')
  exact hpin

/-! The same for one allocation of several blocks. -/

/-- From `s` to `s'` the table stays linked, and an allocation of `n` blocks from `b` on stays and
keeps its contents. -/
structure KeepsRun (b n : ℕ) (s s' : Kmem) : Prop where
  linked : Linked s.entries → Linked s'.entries
  pinned : Pinned s.entries b n → Pinned s'.entries b n
  mem : Pinned s.entries b n → ∀ x, 4096 + b ≤ pageOf x → pageOf x < 4096 + (b + n) →
    s'.mem x = s.mem x

lemma KeepsRun.refl (b n : ℕ) (s : Kmem) : KeepsRun b n s s :=
  ⟨fun h => h, fun h => h, fun _ _ _ _ => rfl⟩

lemma KeepsRun.trans (h : KeepsRun b n s s') (h' : KeepsRun b n s' s'') : KeepsRun b n s s'' := by
  refine ⟨fun hs => h'.linked (h.linked hs), fun hpin => h'.pinned (h.pinned hpin),
    fun hpin x hlow hhigh => ?_⟩
  rw [h'.mem (h.pinned hpin) x hlow hhigh, h.mem hpin x hlow hhigh]

/-- A request of less than 2^31 bytes, and what is stored into the new allocation. -/
lemma keepsRun_store (hn : 0 < n) (hpool : b + n ≤ 25600) (hsize : size.toNat < 2 ^ 31) {mem : Mem}
    (hmem : ∀ x, ((kzalloc s size).1 ≠ 0 → ¬ InRange (kzalloc s size).1 size.toNat x) →
      mem x = s.mem x) : KeepsRun b n s ((kzalloc s size).2.withMem mem) := by
  refine ⟨fun h => h.kzalloc size, fun hpin => hpin.kzalloc hn hpool size,
    fun hpin x hlow hhigh => hmem x fun hne => ?_⟩
  obtain ⟨c, hc⟩ : ∃ c, pageOf x = 4096 + c := ⟨pageOf x - 4096, by omega⟩
  exact kzalloc_apart (hpin.taken c (by omega) (by omega)) (by omega) hsize hne hc

lemma kzalloc_mem_of_not {x : Word}
    (hx : (kzalloc s size).1 ≠ 0 → ¬ InRange (kzalloc s size).1 size.toNat x) :
    (kzalloc s size).2.mem x = s.mem x := by
  rcases kzalloc_shape s size with heq | ⟨c, hc, -, heq⟩
  · rw [heq]
  · have hne : blockAddr c ≠ 0 := blockAddr_ne_zero (by omega)
    rw [heq] at hx ⊢
    exact if_neg (hx hne)

/-- An allocation changes no byte that is zero. -/
lemma kzalloc_byte_zero {size x : Word} (h : s.mem x = 0) : (kzalloc s size).2.mem x = 0 := by
  rcases kzalloc_shape s size with heq | ⟨c, -, -, heq⟩
  · rw [heq]
    exact h
  · rw [heq]
    change (if _ then _ else s.mem _) = _
    split_ifs
    · rfl
    · exact h

lemma keepsRun_kzalloc (hn : 0 < n) (hpool : b + n ≤ 25600) (hsize : size.toNat < 2 ^ 31) :
    KeepsRun b n s (kzalloc s size).2 :=
  keepsRun_store hn hpool hsize fun _ hx => kzalloc_mem_of_not hx

lemma keepsRun_kfree (h : Droppable (Set.Ico b (b + n)) s ptr) : KeepsRun b n s (kfree s ptr) := by
  refine ⟨fun hs => hs.kfree ?_, fun hpin => hpin.kfree ?_, fun _ _ _ _ => rfl⟩
  · rcases h with hfar | ⟨c, hc, rfl, -, hstop⟩
    · exact .inl hfar
    · exact .inr ⟨c, heapAddressToBlock_eq s (by omega), fun hpos => hstop (by exact_mod_cast hpos)⟩
  · rcases h with hfar | ⟨c, hc, rfl, hout, -⟩
    · exact .inl hfar
    · refine elsewhere_blockAddr (by omega) ?_
      rw [Set.mem_Ico] at hout
      omega

end AlphaOS.BlockHeap
