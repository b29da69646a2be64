import AlphaOS.AddressSpace
import AlphaOS.PagingFree
import AlphaOS.PathParser

/-! What the path parser makes of a well-formed path: a drive number and a linked list of
its components. Every allocation is one block of the heap. -/
namespace AlphaOS.PathParser
open BlockHeap CString Kheap Paging WordMemory

/-- The pages of the free blocks. -/
def freePages (s : Kmem) : Set ℕ := {p | ∃ b < 25600, IsFree s.entries b ∧ p = 4096 + b}

/-- From `s` to `s'` exactly the blocks of `B` were taken, one allocation each. -/
structure Took (s s' : Kmem) (B : Set ℕ) : Prop where
  fresh : ∀ b ∈ B, b < 25600 ∧ IsFree s.entries b
  taken : ∀ b ∈ B, s'.entries b = blockEntry 1 0
  same : ∀ x : ℤ, (∀ b ∈ B, x ≠ b) → s'.entries x = s.entries x

variable {s s' s'' : Kmem} {B C : Set ℕ} {b : ℕ} {path : Word} {c : List Byte} {e : Byte}

lemma Took.refl (s : Kmem) : Took s s ∅ := ⟨by simp, by simp, fun _ _ => rfl⟩

lemma Took.not_free (h : Took s s' B) (hb : b ∈ B) : ¬ IsFree s'.entries b := by
  rw [IsFree, h.taken b hb, blockEntry_type]
  decide

lemma Took.free (h : Took s s' B) (hb : IsFree s'.entries b) : IsFree s.entries b ∧ b ∉ B := by
  have hnot : b ∉ B := fun hmem => h.not_free hmem hb
  rw [IsFree, h.same b fun c hc heq => hnot (by rwa [Nat.cast_inj.1 heq])] at hb
  exact ⟨hb, hnot⟩

lemma Took.trans (h : Took s s' B) (h' : Took s' s'' C) : Took s s'' (B ∪ C) := by
  refine ⟨fun b hb => ?_, fun b hb => ?_, fun x hx => ?_⟩
  · rcases hb with hb | hb
    · exact h.fresh b hb
    · obtain ⟨hlt, hfree⟩ := h'.fresh b hb
      exact ⟨hlt, (h.free hfree).1⟩
  · by_cases hC : b ∈ C
    · exact h'.taken b hC
    · rw [h'.same b fun c hc heq => hC (by rwa [Nat.cast_inj.1 heq])]
      exact h.taken b (hb.resolve_right hC)
  · rw [h'.same x fun c hc => hx c (.inr hc), h.same x fun c hc => hx c (.inl hc)]

/-- At least `n` blocks are free. -/
def FreeAtLeast (s : Kmem) (n : ℕ) : Prop :=
  n ≤ ((Finset.range 25600).filter fun b => IsFree s.entries b).card

lemma FreeAtLeast.exists_free {n : ℕ} (h : FreeAtLeast s (n + 1)) :
    ∃ b < 25600, IsFree s.entries b := by
  obtain ⟨b, hb⟩ := Finset.card_pos.1 (Nat.lt_of_lt_of_le n.succ_pos h)
  have hmem := Finset.mem_filter.1 hb
  exact ⟨b, Finset.mem_range.1 hmem.1, hmem.2⟩

/-- A taken block leaves the others free. -/
lemma Took.freeAtLeast {n : ℕ} (h : Took s s' {b}) (hfree : FreeAtLeast s (n + 1)) :
    FreeAtLeast s' n := by
  have hsub : ((Finset.range 25600).filter fun c => IsFree s.entries c).erase b ⊆
      (Finset.range 25600).filter fun c => IsFree s'.entries c := by
    intro c hc
    obtain ⟨hne, hmem⟩ := Finset.mem_erase.1 hc
    obtain ⟨hlt, hfreec⟩ := Finset.mem_filter.1 hmem
    refine Finset.mem_filter.2 ⟨hlt, ?_⟩
    rw [IsFree, h.same c fun d hd heq => hne ?_]
    · exact hfreec
    · rw [Set.mem_singleton_iff] at hd
      rw [← hd, Nat.cast_inj.1 heq]
  have hcard := Finset.card_le_card hsub
  have herase : ((Finset.range 25600).filter fun c => IsFree s.entries c).card - 1 ≤
      (((Finset.range 25600).filter fun c => IsFree s.entries c).erase b).card :=
    Finset.pred_card_le_card_erase
  unfold FreeAtLeast at hfree ⊢
  omega

/-- `kzalloc` of at most a page takes one block and clears it. -/
lemma kzalloc_took {size : Word} (hsize : (heapBlocksFor size).toNat = 1)
    (hfree : ∃ b < 25600, IsFree s.entries b) :
    ∃ b s', kzalloc s size = (blockAddr b, s') ∧ Took s s' {b} ∧ b < 25600 ∧
      s'.mem = fill s.mem (blockAddr b) size.toNat 0 := by
  rcases kzalloc_single s hsize with ⟨hfull, -⟩ | ⟨b, hb, hbfree, heq⟩
  · obtain ⟨b, hb, hbfree⟩ := hfree
    exact absurd hbfree (hfull b hb)
  · have hentries := take_one_entries s b
    refine ⟨b, _, heq, ⟨?_, ?_, fun x hx => ?_⟩, hb, rfl⟩
    · rintro c rfl
      exact ⟨hb, hbfree⟩
    · rintro c rfl
      exact (hentries c).trans (if_pos rfl)
    · exact (hentries x).trans (if_neg (hx b rfl))

/-- The copying loop stores the characters up to the next slash or terminator. -/
lemma copyPartLoop_eq (dest : Word) {mem : Mem} {fuel i : ℕ}
    (hpath : BytesAt mem path (c ++ [e])) (hc : ∀ x ∈ c, x ≠ slash ∧ x ≠ 0)
    (he : e = slash ∨ e = 0) (hfuel : c.length < fuel)
    (hoff : ∀ n ≤ c.length, ∀ m < c.length,
      dest + BitVec.ofNat 32 (i + m) ≠ path + BitVec.ofNat 32 n) :
    copyPartLoop dest fuel path i mem = some (path + BitVec.ofNat 32 c.length, i + c.length,
      writeBytes mem (dest + BitVec.ofNat 32 i) c) := by
  induction c generalizing path i mem fuel with
  | nil =>
    obtain ⟨fuel, rfl⟩ := Nat.exists_eq_succ_of_ne_zero (Nat.ne_of_gt (Nat.zero_lt_of_lt hfuel))
    have hend : ¬ (mem path ≠ slash ∧ mem path ≠ 0) := by
      rw [hpath.1, not_and_or, not_not, not_not]
      exact he
    rw [copyPartLoop, if_neg hend]
    simp [writeBytes]
  | cons x c ih =>
    obtain ⟨fuel, rfl⟩ := Nat.exists_eq_succ_of_ne_zero (Nat.ne_of_gt (Nat.zero_lt_of_lt hfuel))
    have hx : mem path = x := hpath.1
    rw [copyPartLoop, hx, if_pos (hc x (by simp))]
    have htail : BytesAt (Function.update mem (dest + BitVec.ofNat 32 i) x) (path + 1) (c ++ [e]) := by
      refine BytesAt.congr hpath.2 fun n hn => Function.update_of_ne ?_ _ _
      rw [List.length_append, List.length_singleton] at hn
      rw [add_one_add]
      exact (hoff (n + 1) (by simp; omega) 0 (by simp)).symm
    rw [ih htail (fun y hy => hc y (by simp [hy])) (by simpa using hfuel) fun n hn m hm => ?_]
    · rw [add_one_add, List.length_cons, writeBytes, BitVec.add_assoc]
      have hone : BitVec.ofNat 32 (i + 1) = BitVec.ofNat 32 i + 1 := BitVec.ofNat_add ..
      rw [hone, Nat.add_assoc, Nat.add_comm 1]
    · rw [add_one_add, Nat.add_assoc, Nat.add_comm 1]
      exact hoff (n + 1) (by simpa using hn) (m + 1) (by simpa using hm)

/-- From `s` to `s'` the taken blocks stay as they are, and memory outside the free blocks
changes at most at the addresses of `W`. -/
structure Kept (s s' : Kmem) (W : Set Word) : Prop where
  entries : ∀ b < 25600, ¬ IsFree s.entries b → s'.entries b = s.entries b
  mem : ∀ x, pageOf x ∉ freePages s → x ∉ W → s'.mem x = s.mem x

lemma mem_freePages : 4096 + b ∈ freePages s ↔ b < 25600 ∧ IsFree s.entries b := by
  constructor
  · rintro ⟨c, hc, hfree, heq⟩
    obtain rfl : b = c := by omega
    exact ⟨hc, hfree⟩
  · intro h
    exact ⟨b, h.1, h.2, rfl⟩

lemma Kept.freePages_subset {W : Set Word} (h : Kept s s' W) : freePages s' ⊆ freePages s := by
  rintro p ⟨b, hb, hfree, rfl⟩
  refine ⟨b, hb, ?_, rfl⟩
  by_contra hnot
  rw [IsFree, h.entries b hb hnot] at hfree
  exact hnot hfree

lemma Kept.held {W : Set Word} (h : Kept s s' W) (hb : Held s b) : Held s' b :=
  ⟨hb.1, (h.entries b hb.1 hb.not_free).trans hb.2⟩

lemma Kept.trans {W W' : Set Word} (h : Kept s s' W) (h' : Kept s' s'' W')
    (hW : ∀ x ∈ W', pageOf x ∈ freePages s ∨ x ∈ W) : Kept s s'' W := by
  constructor
  · intro b hb hnot
    have hnot' : ¬ IsFree s'.entries b := by
      rw [IsFree, h.entries b hb hnot]
      exact hnot
    rw [h'.entries b hb hnot', h.entries b hb hnot]
  · intro x hx hnot
    have hx' : x ∉ W' := fun hmem => (hW x hmem).elim hx hnot
    rw [h'.mem x (fun hmem => hx (h.freePages_subset hmem)) hx', h.mem x hx hnot]

/-- Taking blocks and writing into them keeps everything else. -/
lemma Took.kept {W : Set Word} (h : Took s s' B)
    (hmem : ∀ x, (∀ b ∈ B, pageOf x ≠ 4096 + b) → x ∉ W → s'.mem x = s.mem x) : Kept s s' W := by
  constructor
  · intro b hb hnot
    refine h.same b fun c hc heq => hnot ?_
    rw [Nat.cast_inj.1 heq]
    exact (h.fresh c hc).2
  · intro x hx hnot
    refine hmem x (fun b hb heq => hx ?_) hnot
    rw [heq]
    exact mem_freePages.2 (h.fresh b hb)

lemma fill_block (mem : Mem) (hb : b < 25600) {size : ℕ} (hsize : size ≤ 4096) :
    SameOff {4096 + b} mem (fill mem (blockAddr b) size 0) := by
  have hfill := fill_page mem (blockAddr_aligned (show b < 2 ^ 19 by omega)) hsize 0
  rwa [pageOf_blockAddr (by omega)] at hfill

/-- A nonempty part is copied into a block of its own, with a zero behind it. -/
lemma getPathPart_copies {fuel : ℕ} (hfree : ∃ b < 25600, IsFree s.entries b)
    (hpath : BytesAt s.mem path (c ++ [e]))
    (hlive : ∀ n ≤ c.length, pageOf (path + BitVec.ofNat 32 n) ∉ freePages s)
    (hc : ∀ x ∈ c, x ≠ slash ∧ x ≠ 0) (he : e = slash ∨ e = 0) (hlen : c.length < 108)
    (hne : c ≠ []) (hfuel : c.length < fuel) :
    ∃ t s', pathparserGetPathPart fuel s path =
        some (blockAddr t, if e = slash then path + BitVec.ofNat 32 c.length + 1
          else path + BitVec.ofNat 32 c.length, s') ∧
      t < 25600 ∧ Took s s' {t} ∧ SameOff {4096 + t} s.mem s'.mem ∧
      BytesAt s'.mem (blockAddr t) (c ++ [0]) := by
  obtain ⟨t, s', halloc, htook, ht, hmem⟩ :=
    kzalloc_took (show (heapBlocksFor 108).toNat = 1 by decide) hfree
  have hfresh := mem_freePages.2 (htook.fresh t rfl)
  have hfill := fill_block s.mem ht (show 108 ≤ 4096 by omega)
  have hpath' : BytesAt s'.mem path (c ++ [e]) := by
    refine hpath.congr fun n hn => ?_
    rw [List.length_append, List.length_singleton] at hn
    rw [hmem]
    exact hfill _ fun hpage => hlive n (by omega) (by rwa [Set.mem_singleton_iff.1 hpage])
  have hloop := copyPartLoop_eq (blockAddr t) (i := 0) hpath' hc he hfuel
    fun n hn m hm heq => hlive n hn (by rwa [← heq, Nat.zero_add, pageOf_blockAddr_add ht (by omega)])
  rw [Nat.zero_add, BitVec.add_zero] at hloop
  have hwritten : SameOff {4096 + t} s'.mem (writeBytes s'.mem (blockAddr t) c) := by
    intro x hx
    refine writeBytes_of_not fun n hn heq => hx ?_
    rw [← heq]
    exact pageOf_blockAddr_add ht (by omega)
  have hend : writeBytes s'.mem (blockAddr t) c (path + BitVec.ofNat 32 c.length) = e := by
    have hbyte := hpath'.get (show c.length < (c ++ [e]).length by simp)
    rw [List.getElem_concat_length rfl] at hbyte
    rw [hwritten _ fun hpage => hlive c.length le_rfl (by rwa [Set.mem_singleton_iff.1 hpage])]
    exact hbyte
  refine ⟨t, s'.withMem (writeBytes s'.mem (blockAddr t) c), ?_, ht,
    ⟨htook.fresh, htook.taken, htook.same⟩, ?_, ?_⟩
  · have hcount : c.length ≠ 0 := fun h0 => hne (List.length_eq_zero_iff.1 h0)
    rw [pathparserGetPathPart, halloc]
    dsimp only
    rw [hloop]
    simp [hend, hcount]
  · have hboth := (show SameOff {4096 + t} s.mem s'.mem by rw [hmem]; exact hfill).trans hwritten
    rwa [Set.union_self] at hboth
  · rw [bytesAt_append]
    refine ⟨writeBytes_bytesAt (by omega), ?_, trivial⟩
    change writeBytes s'.mem (blockAddr t) c (blockAddr t + BitVec.ofNat 32 c.length) = 0
    rw [writeBytes_of_not fun n hn => add_ofNat_ne (by omega) (by omega) (by omega) _, hmem]
    refine if_pos ?_
    rw [InRange, add_sub_cancel_left, BitVec.toNat_ofNat]
    change _ < 108
    omega

/-- An empty part gives null, and its block is released again. -/
lemma getPathPart_empty (fuel : ℕ) (hfree : ∃ b < 25600, IsFree s.entries b) (hpath : s.mem path = 0)
    (hlive : pageOf path ∉ freePages s) (hfuel : 0 < fuel) :
    ∃ s', pathparserGetPathPart fuel s path = some (0, path, s') ∧ Kept s s' ∅ := by
  obtain ⟨t, s', halloc, htook, ht, hmem⟩ :=
    kzalloc_took (show (heapBlocksFor 108).toNat = 1 by decide) hfree
  have hfresh := mem_freePages.2 (htook.fresh t rfl)
  have hfill := fill_block s.mem ht (show 108 ≤ 4096 by omega)
  have hsame : s'.mem path = 0 := by
    rw [hmem]
    refine (hfill path fun hpage => hlive ?_).trans hpath
    rwa [Set.mem_singleton_iff.1 hpage]
  obtain ⟨fuel, rfl⟩ := Nat.exists_eq_succ_of_ne_zero (Nat.ne_of_gt hfuel)
  have hfreed := kfree_held (show Held s' t from ⟨ht, htook.taken t rfl⟩)
  refine ⟨kfree s' (blockAddr t), ?_, ?_, ?_⟩
  · rw [pathparserGetPathPart, halloc]
    dsimp only
    simp [copyPartLoop, hsame]
    rfl
  · intro b hb hnot
    have hbt : b ≠ t := by
      rintro rfl
      exact hnot (htook.fresh b rfl).2
    rw [hfreed.same b fun d hd heq => hbt (by rw [Nat.cast_inj.1 heq]; exact hd),
      htook.same b fun d hd heq => hbt (by rw [Nat.cast_inj.1 heq]; exact hd)]
  · intro x hx _
    rw [kfree_mem, hmem]
    exact hfill x fun hpage => hx (by rwa [Set.mem_singleton_iff.1 hpage])

/-- From `s` to `s'` the block `q` became the list node of the text `c`, behind `last`. -/
structure NewPart (s s' : Kmem) (last : Word) (q : ℕ) (c : List Byte) : Prop where
  held : Held s' q
  fresh : IsFree s.entries q
  text : ∃ t ≠ q, IsFree s.entries t ∧ Held s' t ∧ read32 s'.mem (blockAddr q) = blockAddr t ∧
    BytesAt s'.mem (blockAddr t) (c ++ [0])
  next : read32 s'.mem (blockAddr q + 4) = 0
  link : last ≠ 0 → read32 s'.mem (last + 4) = blockAddr q
  kept : Kept s s' {x | last ≠ 0 ∧ InRange (last + 4) 4 x}
  room : ∀ n, FreeAtLeast s (n + 2) → FreeAtLeast s' n

/-- The node the list ends with, if any, is a taken block. -/
def LastPart (s : Kmem) (last : Word) : Prop :=
  last = 0 ∨ ∃ p < 25600, last = blockAddr p ∧ ¬ IsFree s.entries p

lemma blockAddr_add_four (hb : b < 25600) :
    (blockAddr b + 4).toNat = 16777216 + 4096 * b + 4 := by
  have hblock := blockAddr_toNat (show b < 2 ^ 19 by omega)
  have hsum := toNat_add_ofNat (a := blockAddr b) (k := 4) (by omega)
  rw [hblock] at hsum
  exact hsum

lemma pageOf_blockAddr_add_four (hb : b < 25600) : pageOf (blockAddr b + 4) = 4096 + b :=
  pageOf_blockAddr_add (k := 4) hb (by omega)

/-- The link of a node lies in the node's block. -/
lemma InRange.pageOf_next {x : Word} (hb : b < 25600) (h : InRange (blockAddr b + 4) 4 x) :
    pageOf x = 4096 + b := by
  rw [InRange.pageOf_eq (by rw [blockAddr_add_four hb]; omega) h, pageOf_blockAddr_add_four hb]

/-- Setting the link of a node changes nothing else. -/
lemma setLink_kept {r q : ℕ} (s : Kmem) (hr : r < 25600) (hq : q < 25600) (hrq : r ≠ q) (v : Word) :
    Kept s (s.withMem (write32 s.mem (blockAddr r + 4) v)) {x | InRange (blockAddr r + 4) 4 x} ∧
      read32 (write32 s.mem (blockAddr r + 4) v) (blockAddr q + 4) = read32 s.mem (blockAddr q + 4) ∧
      ∀ x, pageOf x ≠ 4096 + r → write32 s.mem (blockAddr r + 4) v x = s.mem x := by
  have hoff : ∀ x, pageOf x ≠ 4096 + r → write32 s.mem (blockAddr r + 4) v x = s.mem x :=
    fun x hx => if_neg fun hrange => hx (InRange.pageOf_next hr hrange)
  refine ⟨⟨fun _ _ _ => rfl, fun x _ hx => if_neg hx⟩, read32_eq_of_same fun x hx => hoff x ?_, hoff⟩
  rw [InRange.pageOf_next hq hx]
  omega

/-- The two words of a node, before the link to it is written. -/
lemma write_node (mem : Mem) (v : Word) {q : ℕ} (hq : q < 25600) :
    let node := write32 (write32 mem (blockAddr q) v) (blockAddr q + 4) 0
    SameOff {4096 + q} mem node ∧ read32 node (blockAddr q) = v ∧
      read32 node (blockAddr q + 4) = 0 := by
  intro node
  have hblock := blockAddr_toNat (show q < 2 ^ 19 by omega)
  have hnext := blockAddr_add_four hq
  have hfirst := write32_sameOff mem (a := blockAddr q) (by omega) v
  have hsecond := write32_sameOff (write32 mem (blockAddr q) v)
    (a := blockAddr q + 4) (by omega) 0
  rw [pageOf_blockAddr (by omega)] at hfirst
  rw [pageOf_blockAddr_add_four hq] at hsecond
  have hboth := hfirst.trans hsecond
  rw [Set.union_self] at hboth
  refine ⟨hboth, ?_, read32_write32 _ _ _⟩
  rw [read32_write32_of_ne (by omega) (by omega), read32_write32]
  intro heq
  have := congrArg BitVec.toNat heq
  omega

/-- The link of the last node, if there is one, set to a new part. -/
def linkTo (mem : Mem) (lastPart part : Word) : Mem :=
  if lastPart ≠ 0 then write32 mem (lastPart + 4) part else mem

lemma linkTo_of_not {mem : Mem} {last part x : Word} (h : ¬ (last ≠ 0 ∧ InRange (last + 4) 4 x)) :
    linkTo mem last part x = mem x := by
  unfold linkTo
  by_cases hlast : last = 0
  · rw [if_neg (not_not.2 hlast)]
  · rw [if_pos hlast]
    exact if_neg fun hrange => h ⟨hlast, hrange⟩

/-- The link lies in a taken block, so the blocks taken later do not see it. -/
lemma LastPart.linkTo_eq {last part x : Word} {mem : Mem} (h : LastPart s last)
    (hb : IsFree s.entries b) (hx : pageOf x = 4096 + b) : linkTo mem last part x = mem x := by
  refine linkTo_of_not ?_
  rintro ⟨hne, hrange⟩
  rcases h with h | ⟨p, hp, rfl, hnot⟩
  · exact hne h
  · have hpage := InRange.pageOf_next hp hrange
    obtain rfl : p = b := by omega
    exact hnot hb

lemma parsePathPart_node {last : Word} {fuel : ℕ} (hlast : LastPart s last)
    (hfree : FreeAtLeast s 2) (hpath : BytesAt s.mem path (c ++ [e]))
    (hlive : ∀ n ≤ c.length, pageOf (path + BitVec.ofNat 32 n) ∉ freePages s)
    (hc : ∀ x ∈ c, x ≠ slash ∧ x ≠ 0) (he : e = slash ∨ e = 0) (hlen : c.length < 108)
    (hne : c ≠ []) (hfuel : c.length < fuel) :
    ∃ q s', pathparserParsePathPart fuel s last path =
        some (blockAddr q, if e = slash then path + BitVec.ofNat 32 c.length + 1
          else path + BitVec.ofNat 32 c.length, s') ∧ NewPart s s' last q c := by
  obtain ⟨t, s₁, hget, ht, htook, hmem, htext⟩ :=
    getPathPart_copies hfree.exists_free hpath hlive hc he hlen hne hfuel
  obtain ⟨q, s₂, halloc, htook', hq, hmem'⟩ :=
    kzalloc_took (show (heapBlocksFor 8).toNat = 1 by decide)
      (htook.freeAtLeast hfree).exists_free
  have htq : t ≠ q := by
    rintro rfl
    exact htook.not_free rfl (htook'.fresh t rfl).2
  have hboth := htook.trans htook'
  have hfreshq : IsFree s.entries q := (hboth.fresh q (.inr rfl)).2
  have hfresht : IsFree s.entries t := (htook.fresh t rfl).2
  have hblock := blockAddr_toNat (show q < 2 ^ 19 by omega)
  have hzero : blockAddr t ≠ 0 := blockAddr_ne_zero (by omega)
  obtain ⟨hnode, hpart, hnext⟩ := write_node s₂.mem (blockAddr t) hq
  let node := write32 (write32 s₂.mem (blockAddr q) (blockAddr t)) (blockAddr q + 4) 0
  have hnew : SameOff {4096 + q} s₁.mem node := by
    have hfill := fill_block s₁.mem hq (show 8 ≤ 4096 by omega)
    have hboth := (show SameOff {4096 + q} s₁.mem s₂.mem by rw [hmem']; exact hfill).trans hnode
    rwa [Set.union_self] at hboth
  have hheld : Held (s₂.withMem (linkTo node last (blockAddr q))) t :=
    ⟨ht, hboth.taken t (.inl rfl)⟩
  refine ⟨q, s₂.withMem (linkTo node last (blockAddr q)), ?_,
    ⟨hq, hboth.taken q (.inr rfl)⟩, hfreshq, ⟨t, htq, hfresht, hheld, ?_, ?_⟩, ?_, ?_, ?_, ?_⟩
  · rw [pathparserParsePathPart, hget]
    simp only [Option.map_some, if_neg hzero, halloc]
    rfl
  · rw [← hpart]
    refine read32_eq_of_same fun x hx => hlast.linkTo_eq hfreshq ?_
    rw [InRange.pageOf_eq (by omega) hx, pageOf_blockAddr (by omega)]
  · refine htext.congr fun n hn => ?_
    rw [List.length_append, List.length_singleton] at hn
    have hpage := pageOf_blockAddr_add ht (show n < 4096 by omega)
    refine (hlast.linkTo_eq hfresht hpage).trans (hnew _ ?_)
    rw [hpage, Set.mem_singleton_iff]
    omega
  · rw [← hnext]
    exact read32_eq_of_same fun x hx => hlast.linkTo_eq hfreshq (InRange.pageOf_next hq hx)
  · intro hne
    rw [Kmem.withMem_mem, linkTo, if_pos hne, read32_write32]
  · have hkept : Took s (s₂.withMem (linkTo node last (blockAddr q))) ({t} ∪ {q}) :=
      ⟨hboth.fresh, hboth.taken, hboth.same⟩
    refine hkept.kept fun x hx hnot => (linkTo_of_not hnot).trans ?_
    exact (hnew x (hx q (.inr rfl))).trans (hmem x (hx t (.inl rfl)))
  · intro n hn
    exact htook'.freeAtLeast (htook.freeAtLeast hn)

/-- What follows a component: nothing at the end of the path, else a slash. -/
def separator (trailing : Bool) (comps : List (List Byte)) : List Byte :=
  if comps = [] ∧ ¬ trailing then [] else [slash]

/-- The path from a component on, with the terminator. -/
def pathFrom (trailing : Bool) : List (List Byte) → List Byte
  | [] => [0]
  | c :: comps => c ++ (separator trailing comps ++ pathFrom trailing comps)

/-- The nodes from `part` on hold these texts, each in the block of its buffer. -/
def PartList (s : Kmem) : Word → List (List Byte) → Prop
  | part, [] => part = 0
  | part, c :: comps => ∃ q t, part = blockAddr q ∧ Held s q ∧
      read32 s.mem part = blockAddr t ∧ Held s t ∧
      BytesAt s.mem (blockAddr t) (c ++ [0]) ∧ c.length < 108 ∧
      PartList s (read32 s.mem (part + 4)) comps

/-- A component that fits a part. -/
def Component (c : List Byte) : Prop :=
  c ≠ [] ∧ (∀ x ∈ c, x ≠ slash ∧ x ≠ 0) ∧ c.length < 108

variable {comps : List (List Byte)} {trailing : Bool}

/-- A component is followed by a slash, or by the terminator. -/
lemma pathFrom_cons (comps : List (List Byte)) (trailing : Bool) :
    ∃ e more, separator trailing comps ++ pathFrom trailing comps = e :: more ∧
      (e = slash ∨ e = 0) ∧
      (separator trailing comps).length = if e = slash then 1 else 0 := by
  by_cases h : comps = [] ∧ ¬ trailing
  · obtain ⟨rfl, h⟩ := h
    exact ⟨0, [], by simp [separator, pathFrom, h], .inr rfl, by simp [separator, h]⟩
  · exact ⟨slash, pathFrom trailing comps, by rw [separator, if_neg h]; rfl, .inl rfl,
      by rw [separator, if_neg h, if_pos rfl]; rfl⟩

lemma pathFrom_length_pos (trailing : Bool) (comps : List (List Byte)) :
    0 < (pathFrom trailing comps).length := by
  induction comps with
  | nil => simp [pathFrom]
  | cons c comps ih =>
    simp only [pathFrom, List.length_append]
    omega

lemma not_mem_freePages (h : Held s b) : 4096 + b ∉ freePages s :=
  fun hmem => h.not_free (mem_freePages.1 hmem).2

/-- The text lies outside the free blocks and is not the link of the node `last`. -/
def TextApart (s : Kmem) (last path : Word) (text : List Byte) : Prop :=
  ∀ n < text.length, pageOf (path + BitVec.ofNat 32 n) ∉ freePages s ∧
    ¬ (last ≠ 0 ∧ InRange (last + 4) 4 (path + BitVec.ofNat 32 n))

/-- A nonempty component gives a node and leaves the rest of the path. -/
lemma parsePathPart_component (fuel : ℕ) {last : Word} (hlast : LastPart s last)
    (hfree : FreeAtLeast s 2) (hpath : BytesAt s.mem path (pathFrom trailing (c :: comps)))
    (hapart : TextApart s last path (pathFrom trailing (c :: comps))) (hc : Component c)
    (hfuel : c.length < fuel) :
    ∃ q s' path', pathparserParsePathPart fuel s last path = some (blockAddr q, path', s') ∧
      NewPart s s' last q c ∧ BytesAt s'.mem path' (pathFrom trailing comps) ∧
      TextApart s' (blockAddr q) path' (pathFrom trailing comps) ∧
      ∃ k, path' = path + BitVec.ofNat 32 k ∧
        k + (pathFrom trailing comps).length = (pathFrom trailing (c :: comps)).length := by
  obtain ⟨e, more, hrest, he, hsep⟩ := pathFrom_cons comps trailing
  have hlength : (pathFrom trailing (c :: comps)).length =
      c.length + (separator trailing comps).length + (pathFrom trailing comps).length := by
    simp [pathFrom, Nat.add_assoc]
  have hpos := pathFrom_length_pos trailing comps
  have hpart : BytesAt s.mem path (c ++ [e]) := by
    have hall := hpath
    rw [pathFrom, hrest, show c ++ e :: more = (c ++ [e]) ++ more by simp] at hall
    exact (bytesAt_append.1 hall).1
  obtain ⟨q, s₁, hparse, hnode⟩ := parsePathPart_node hlast hfree hpart
    (fun n hn => (hapart n (by omega)).1) hc.2.1 he hc.2.2 hc.1 hfuel
  -- The cursor stands behind the component and its separator.
  let k := c.length + (separator trailing comps).length
  have hcursor : (if e = slash then path + BitVec.ofNat 32 c.length + 1
      else path + BitVec.ofNat 32 c.length) = path + BitVec.ofNat 32 k := by
    simp only [k, hsep]
    split_ifs
    · rw [BitVec.ofNat_add, BitVec.add_assoc]
      rfl
    · rw [Nat.add_zero]
  have hoff : ∀ n, path + BitVec.ofNat 32 k + BitVec.ofNat 32 n = path + BitVec.ofNat 32 (k + n) := by
    intro n
    rw [BitVec.add_assoc, ← BitVec.ofNat_add]
  refine ⟨q, s₁, path + BitVec.ofNat 32 k, by rw [hparse, hcursor], hnode, ?_, fun n hn => ?_,
    k, rfl, hlength.symm⟩
  · have hall := hpath
    rw [pathFrom, ← List.append_assoc, bytesAt_append, List.length_append] at hall
    refine hall.2.congr fun n hn => ?_
    have hat := hapart (k + n) (by omega)
    rw [hoff]
    exact hnode.kept.mem _ hat.1 hat.2
  · have hat := hapart (k + n) (by omega)
    rw [hoff]
    refine ⟨fun hmem => hat.1 (hnode.kept.freePages_subset hmem), fun ⟨_, hrange⟩ => hat.1 ?_⟩
    rw [InRange.pageOf_next hnode.held.1 hrange]
    exact mem_freePages.2 ⟨hnode.held.1, hnode.fresh⟩

lemma Kept.mono {W W' : Set Word} (h : Kept s s' W) (hW : W ⊆ W') : Kept s s' W' :=
  ⟨h.entries, fun x hx hnot => h.mem x hx fun hmem => hnot (hW hmem)⟩

/-- The word a kept node begins with stays when only links change. -/
lemma Kept.read32 {W : Set Word} {r : ℕ} (h : Kept s s' W) (hr : Held s r)
    (hW : ∀ x ∈ W, InRange (blockAddr r + 4) 4 x ∨ pageOf x ≠ 4096 + r) :
    read32 s'.mem (blockAddr r) = read32 s.mem (blockAddr r) := by
  have hlt := hr.1
  have hblock := blockAddr_toNat (show r < 2 ^ 19 by omega)
  refine read32_eq_of_same fun x hx => ?_
  have hpage : pageOf x = 4096 + r := by
    rw [InRange.pageOf_eq (by omega) hx, pageOf_blockAddr (by omega)]
  refine h.mem x (by rw [hpage]; exact not_mem_freePages hr) fun hmem => ?_
  rcases hW x hmem with hrange | hne
  · have hnext := blockAddr_add_four hlt
    unfold InRange at hx hrange
    rw [BitVec.toNat_sub] at hx hrange
    have := x.isLt
    omega
  · exact hne hpage

/-- The new node is still there after steps that change its link and older blocks only. -/
lemma NewPart.after {last : Word} {q : ℕ} {W : Set Word} (h : NewPart s s' last q c)
    (hkept : Kept s' s'' W)
    (hW : ∀ x ∈ W, InRange (blockAddr q + 4) 4 x ∨ pageOf x ∉ freePages s)
    (hc : Component c) (hlist : PartList s'' (read32 s''.mem (blockAddr q + 4)) comps) :
    PartList s'' (blockAddr q) (c :: comps) := by
  obtain ⟨t, hne, hfresh, ht, hword, htext⟩ := h.text
  have hq := h.held.1
  have hblock := blockAddr_toNat (show q < 2 ^ 19 by omega)
  have hlen := hc.2.2
  refine ⟨q, t, rfl, hkept.held h.held, ?_, hkept.held ht, ?_, hlen, hlist⟩
  · rw [← hword]
    refine hkept.read32 h.held fun x hx => (hW x hx).imp_right fun hlive hpage => hlive ?_
    rw [hpage]
    exact mem_freePages.2 ⟨hq, h.fresh⟩
  · refine htext.congr fun n hn => ?_
    rw [List.length_append, List.length_singleton] at hn
    have hpage := pageOf_blockAddr_add ht.1 (show n < 4096 by omega)
    refine hkept.mem _ (by rw [hpage]; exact not_mem_freePages ht) fun hmem => ?_
    rcases hW _ hmem with hrange | hlive
    · have hlink := InRange.pageOf_next hq hrange
      omega
    · exact hlive (by rw [hpage]; exact mem_freePages.2 ⟨ht.1, hfresh⟩)

/-- From a node on, the loop appends one node for each component that is left. -/
lemma parsePartsLoop_list {p fuel : ℕ} (hp : Held s p)
    (hnext : read32 s.mem (blockAddr p + 4) = 0)
    (hpath : BytesAt s.mem path (pathFrom trailing comps))
    (hapart : TextApart s (blockAddr p) path (pathFrom trailing comps))
    (hcomps : ∀ c ∈ comps, Component c) (hfree : FreeAtLeast s (2 * comps.length + 1))
    (hfuel : (pathFrom trailing comps).length < fuel) :
    ∃ s', parsePartsLoop fuel s (blockAddr p) path = some s' ∧
      Kept s s' {x | blockAddr p ≠ 0 ∧ InRange (blockAddr p + 4) 4 x} ∧
      PartList s' (read32 s'.mem (blockAddr p + 4)) comps := by
  induction comps generalizing s p path fuel with
  | nil =>
    obtain ⟨fuel, rfl⟩ : ∃ f, fuel = f + 2 := ⟨fuel - 2, by simp [pathFrom] at hfuel; omega⟩
    have hne : blockAddr p ≠ 0 := blockAddr_ne_zero (by have := hp.1; omega)
    have hzero := hapart 0 (by simp [pathFrom])
    rw [BitVec.add_zero] at hzero
    obtain ⟨s', hget, hkept⟩ := getPathPart_empty (fuel + 1) hfree.exists_free hpath.1 hzero.1
      fuel.succ_pos
    refine ⟨s', ?_, ⟨hkept.entries, fun x hx _ => hkept.mem x hx id⟩, ?_⟩
    · rw [parsePartsLoop, if_neg hne, pathparserParsePathPart, hget]
      simp [parsePartsLoop]
    · rw [PartList, ← hnext]
      refine read32_eq_of_same fun x hx => hkept.mem x ?_ id
      rw [InRange.pageOf_next hp.1 hx]
      exact not_mem_freePages hp
  | cons c comps ih =>
    have hc := hcomps c (by simp)
    have hne : blockAddr p ≠ 0 := blockAddr_ne_zero (by have := hp.1; omega)
    have hlast : LastPart s (blockAddr p) := .inr ⟨p, hp.1, rfl, hp.not_free⟩
    obtain ⟨fuel, rfl⟩ := Nat.exists_eq_succ_of_ne_zero (Nat.ne_of_gt (Nat.zero_lt_of_lt hfuel))
    have hlength : (pathFrom trailing (c :: comps)).length =
        c.length + (separator trailing comps).length + (pathFrom trailing comps).length := by
      simp [pathFrom, Nat.add_assoc]
    have hpos := pathFrom_length_pos trailing comps
    have hcpos := List.length_pos_of_ne_nil hc.1
    obtain ⟨q, s₁, path', hparse, hnode, hpath', hapart', -⟩ := parsePathPart_component fuel hlast (le_trans (by simp; omega) hfree) hpath hapart hc (by omega)
    obtain ⟨s', hloop, hkept, hlist⟩ := ih hnode.held hnode.next hpath' hapart'
      (fun d hd => hcomps d (by simp [hd])) (hnode.room _ hfree)
      (show (pathFrom trailing comps).length < fuel by omega)
    have hfreshq := mem_freePages.2 ⟨hnode.held.1, hnode.fresh⟩
    refine ⟨s', ?_, hnode.kept.trans hkept fun x hx => .inl ?_, ?_⟩
    · rw [parsePartsLoop, if_neg hne, hparse]
      exact hloop
    · rw [InRange.pageOf_next hnode.held.1 hx.2]
      exact hfreshq
    · have hlink : read32 s'.mem (blockAddr p + 4) = blockAddr q := by
        rw [← hnode.link hne]
        refine read32_eq_of_same fun x hx => hkept.mem x ?_ fun hrange => ?_
        · rw [InRange.pageOf_next hp.1 hx]
          exact not_mem_freePages (hnode.kept.held hp)
        · have hpq : p = q := by
            have hpage := InRange.pageOf_next hp.1 hx
            rw [InRange.pageOf_next hnode.held.1 hrange.2] at hpage
            omega
          rw [hpq] at hp
          exact hp.not_free hnode.fresh
      rw [hlink]
      exact hnode.after hkept (fun x hx => .inl hx.2) hc hlist

lemma length_lt_pathFrom (hc : c ∈ comps) : c.length < (pathFrom trailing comps).length := by
  have hpos := pathFrom_length_pos trailing
  induction comps with
  | nil => simp at hc
  | cons d comps ih =>
    simp only [pathFrom, List.length_append]
    cases hc with
    | head =>
      have := hpos comps
      omega
    | tail _ hc =>
      have := ih hc
      omega

/-- The path of a drive digit and components joined with slashes. -/
def pathText (d : ℕ) (comps : List (List Byte)) (trailing : Bool) : List Byte :=
  BitVec.ofNat 8 (48 + d) :: 58 :: slash ::
    (List.intercalate [slash] comps ++ if trailing then [slash] else [])

lemma pathFrom_eq (hne : comps ≠ []) : pathFrom trailing comps =
    List.intercalate [slash] comps ++ (if trailing then [slash] else []) ++ [0] := by
  induction comps with
  | nil => exact absurd rfl hne
  | cons c comps ih =>
    cases comps with
    | nil => cases trailing <;> simp [pathFrom, separator]
    | cons d comps =>
      rw [pathFrom, ih (by simp), separator, if_neg (by simp)]
      simp [List.intercalate]

lemma pathText_eq (d : ℕ) (hne : comps ≠ []) : pathText d comps trailing ++ [0] =
    BitVec.ofNat 8 (48 + d) :: 58 :: slash :: pathFrom trailing comps := by
  rw [pathFrom_eq hne, pathText]
  simp

lemma zero_not_mem_intercalate (h : ∀ c ∈ comps, (0 : Byte) ∉ c) :
    0 ∉ List.intercalate [slash] comps := by
  induction comps with
  | nil => simp [List.intercalate]
  | cons c comps ih =>
    cases comps with
    | nil => simpa [List.intercalate] using h
    | cons d comps =>
      have htail := ih fun c hc => h c (by simp [hc])
      have hhead := h c (by simp)
      simp only [List.intercalate, List.intersperse_cons_cons, List.flatten_cons, List.mem_append,
        List.mem_singleton, not_or] at htail ⊢
      exact ⟨hhead, by decide, htail⟩

lemma zero_not_mem_pathText {d : ℕ} (hd : d < 10) (h : ∀ c ∈ comps, (0 : Byte) ∉ c) :
    0 ∉ pathText d comps trailing := by
  have hdigit : ∀ d < 10, (0 : Byte) ≠ BitVec.ofNat 8 (48 + d) := by decide
  have hjoined := zero_not_mem_intercalate h
  rw [pathText]
  simp only [List.mem_cons, List.mem_append, not_or]
  refine ⟨hdigit d hd, by decide, by decide, hjoined, ?_⟩
  cases trailing with
  | false => simp
  | true => simp

/-- The drive of a path that begins with a digit, a colon and a slash. -/
lemma getDriveByPath_eq {mem : Mem} {d : ℕ} (hd : d < 10) (hne : comps ≠ [])
    (hpath : BytesAt mem path (pathText d comps trailing ++ [0]))
    (hzero : 0 ∉ pathText d comps trailing) :
    pathparserGetDriveByPath mem path = ((d : ℤ), path + 3) := by
  have hdigit : ∀ d < 10, isdigit (BitVec.ofNat 8 (48 + d)) ∧
      tonumericdigit (BitVec.ofNat 8 (48 + d)) = d := by decide
  have hlen : 3 ≤ strnlen mem path maxPathLength := by
    rw [strnlen_eq hpath hzero]
    simp [pathText, maxPathLength]
  rw [pathText_eq d hne] at hpath
  have hfirst : mem path = BitVec.ofNat 8 (48 + d) := hpath.1
  have hcompare : memcmp (pointer mem (path + 1)) (literal [58, slash]) 2 = 0 := by
    rw [memcmp_eq_zero]
    intro j h0 h2
    obtain rfl | rfl : j = 0 ∨ j = 1 := by omega
    · simpa [pointer, literal] using hpath.2.1
    · simpa [pointer, literal] using hpath.2.2.1
  have hvalid : pathparserPathValidFormat mem path := by
    rw [pathparserPathValidFormat, hfirst]
    exact decide_eq_true ⟨hlen, (hdigit d hd).1, hcompare⟩
  rw [pathparserGetDriveByPath, if_neg (not_not.2 hvalid), hfirst, (hdigit d hd).2]

/-- The root takes one block and holds the drive number and no part yet. -/
lemma createRoot_spec (hfree : ∃ b < 25600, IsFree s.entries b) (d : ℕ) :
    ∃ r s', pathparserCreateRoot s d = (blockAddr r, s') ∧ Took s s' {r} ∧ Held s' r ∧
      Kept s s' ∅ ∧ read32 s'.mem (blockAddr r) = BitVec.ofNat 32 d ∧
      read32 s'.mem (blockAddr r + 4) = 0 := by
  obtain ⟨r, s', halloc, htook, hr, hmem⟩ :=
    kzalloc_took (show (heapBlocksFor 8).toNat = 1 by decide) hfree
  obtain ⟨hnode, hword, hfirst⟩ := write_node s'.mem (BitVec.ofNat 32 d) hr
  have htook' : Took s (s'.withMem (write32 (write32 s'.mem (blockAddr r) (BitVec.ofNat 32 d))
      (blockAddr r + 4) 0)) {r} := ⟨htook.fresh, htook.taken, htook.same⟩
  refine ⟨r, _, ?_, htook', ⟨hr, htook.taken r rfl⟩, htook'.kept fun x hx _ => ?_, hword, hfirst⟩
  · rw [pathparserCreateRoot, halloc, BitVec.ofInt_natCast]
  · refine (hnode x (hx r rfl)).trans ?_
    rw [hmem]
    exact fill_block s.mem hr (show 8 ≤ 4096 by omega) x (hx r rfl)

/-- A path of components gives a root with the drive and the list of the components: each
component stands with a zero behind it in a block of its own. A slash at the end of the
path changes nothing. -/
theorem pathparserParse_components (s : Kmem) (path : Word) {d : ℕ} (hd : d < 10)
    {comps : List (List Byte)} (hne : comps ≠ [])
    (hcomps : ∀ c ∈ comps, c ≠ [] ∧ slash ∉ c ∧ 0 ∉ c) (trailing : Bool)
    (hlen : (pathText d comps trailing).length ≤ 108)
    (hpath : BytesAt s.mem path (pathText d comps trailing ++ [0]))
    (hlive : ∀ n ≤ (pathText d comps trailing).length,
      pageOf (path + BitVec.ofNat 32 n) ∉ freePages s)
    (hfree : FreeAtLeast s (2 * comps.length + 2)) {fuel : ℕ} (hfuel : 110 ≤ fuel) :
    ∃ root s', pathparserParse fuel s path = some (root, s') ∧ root ≠ 0 ∧
      (read32 s'.mem root).toNat = d ∧ PartList s' (read32 s'.mem (root + 4)) comps := by
  have hzero : 0 ∉ pathText d comps trailing :=
    zero_not_mem_pathText hd fun c hc => (hcomps c hc).2.2
  have hstr : strlen fuel s.mem path = some _ := strlen_eq hpath hzero (by omega)
  have hdrive := getDriveByPath_eq hd hne hpath hzero
  have hlength : (pathText d comps trailing).length + 1 = 3 + (pathFrom trailing comps).length := by
    have := congrArg List.length (@pathText_eq comps trailing d hne)
    simp only [List.length_append, List.length_cons, List.length_nil] at this
    omega
  have hfits : ∀ c ∈ comps, Component c := by
    intro c hc
    obtain ⟨h1, h2, h3⟩ := hcomps c hc
    have := @length_lt_pathFrom c comps trailing hc
    exact ⟨h1, fun x hx => ⟨fun h => h2 (h ▸ hx), fun h => h3 (h ▸ hx)⟩, by omega⟩
  have hrest : BytesAt s.mem (path + 3) (pathFrom trailing comps) := by
    rw [pathText_eq d hne] at hpath
    have hthird := hpath.2.2.2
    rwa [BitVec.add_assoc, BitVec.add_assoc] at hthird
  have hoff : ∀ n, path + 3 + BitVec.ofNat 32 n = path + BitVec.ofNat 32 (3 + n) := by
    intro n
    rw [BitVec.add_assoc, BitVec.ofNat_add]
    rfl
  obtain ⟨r, s₁, hroot, htook, hr, hkept, hword, -⟩ := createRoot_spec hfree.exists_free d
  have hrzero : blockAddr r ≠ 0 := blockAddr_ne_zero (by have := hr.1; omega)
  cases comps with
  | nil => exact absurd rfl hne
  | cons c comps =>
    -- The first component, with no node before it.
    have hrest₁ : BytesAt s₁.mem (path + 3) (pathFrom trailing (c :: comps)) := by
      refine hrest.congr fun n hn => hkept.mem _ ?_ (Set.notMem_empty _)
      rw [hoff]
      exact hlive _ (by omega)
    have hapart₁ : TextApart s₁ 0 (path + 3) (pathFrom trailing (c :: comps)) := by
      intro n hn
      rw [hoff]
      exact ⟨fun hmem => hlive _ (by omega) (hkept.freePages_subset hmem), fun h => h.1 rfl⟩
    have hc := hfits c (by simp)
    have hclen := @length_lt_pathFrom c (c :: comps) trailing (by simp)
    have hfree₁ := htook.freeAtLeast hfree
    obtain ⟨q, s₂, path', hparse, hnode, hpath', hapart', k, rfl, hk⟩ :=
      parsePathPart_component fuel (.inl rfl) (le_trans (by simp; omega) hfree₁) hrest₁ hapart₁ hc
        (by omega)
    have hr₂ := hnode.kept.held hr
    have hrq : r ≠ q := by
      rintro rfl
      exact hr.not_free hnode.fresh
    have hfirst : blockAddr q ≠ 0 := blockAddr_ne_zero (by have := hnode.held.1; omega)
    -- The root's link to the first node.
    let s₃ := s₂.withMem (write32 s₂.mem (blockAddr r + 4) (blockAddr q))
    obtain ⟨hlink, hsameNext, hsame⟩ := setLink_kept s₂ hr.1 hnode.held.1 hrq (blockAddr q)
    have hnext₃ : read32 s₃.mem (blockAddr q + 4) = 0 := hsameNext.trans hnode.next
    have hpath₃ : BytesAt s₃.mem (path + 3 + BitVec.ofNat 32 k) (pathFrom trailing comps) := by
      refine hpath'.congr fun n hn => hsame _ fun hpage => ?_
      rw [hoff, BitVec.add_assoc, ← BitVec.ofNat_add] at hpage
      refine hlive (3 + k + n) (by omega) ?_
      rw [hpage]
      exact mem_freePages.2 (htook.fresh r rfl)
    have hlong : (pathFrom trailing comps).length < fuel + 1 := by omega
    obtain ⟨s', hloop, hkept', hlist⟩ := parsePartsLoop_list (hlink.held hnode.held) hnext₃ hpath₃
      hapart' (fun d hd => hfits d (by simp [hd])) (hnode.room _ (le_trans (by simp; omega) hfree₁))
      hlong
    have hreach : Kept s₂ s' ({x | InRange (blockAddr r + 4) 4 x} ∪
        {x | blockAddr q ≠ 0 ∧ InRange (blockAddr q + 4) 4 x}) :=
      (hlink.mono Set.subset_union_left).trans hkept' fun x hx => .inr (.inr hx)
    refine ⟨blockAddr r, s', ?_, hrzero, ?_, ?_⟩
    · rw [parsePartsLoop, if_neg hfirst] at hloop
      rw [pathparserParse, hstr]
      simp only [Option.bind_some, hdrive, hroot, hparse, if_neg hrzero, if_neg hfirst]
      rw [if_neg (by simp only [maxPathLength]; omega), if_neg (by omega)]
      have hpair := congrArg (Option.map fun s => (blockAddr r, s)) hloop
      rw [Option.map_bind] at hpair
      exact hpair
    · have hroot₂ : read32 s₂.mem (blockAddr r) = read32 s₁.mem (blockAddr r) :=
        hnode.kept.read32 hr fun x hx => absurd rfl hx.1
      have hroot' : read32 s'.mem (blockAddr r) = read32 s₂.mem (blockAddr r) := by
        refine hreach.read32 hr₂ fun x hx => hx.imp_right fun h => ?_
        rw [InRange.pageOf_next hnode.held.1 h.2]
        omega
      rw [hroot', hroot₂, hword, BitVec.toNat_ofNat]
      omega
    · have hnext : read32 s'.mem (blockAddr r + 4) = blockAddr q := by
        rw [← read32_write32 s₂.mem (blockAddr r + 4) (blockAddr q)]
        refine read32_eq_of_same fun x hx => hkept'.mem x ?_ fun h => hrq ?_
        · rw [InRange.pageOf_next hr.1 hx]
          exact not_mem_freePages hr₂
        · have hpage := InRange.pageOf_next hr.1 hx
          rw [InRange.pageOf_next hnode.held.1 h.2] at hpage
          omega
      rw [hnext]
      refine hnode.after hreach (fun x hx => ?_) hc hlist
      rcases hx with hx | hx
      · exact .inr (by rw [InRange.pageOf_next hr.1 hx]; exact not_mem_freePages hr)
      · exact .inl hx.2

/-- An empty heap with the path `0:/bin/sh` in memory. -/
def pathKmem : Kmem :=
  emptyKmem.withMem
    (writeBytes emptyKmem.mem 0x1000 (pathText 0 [[98, 105, 110], [115, 104]] false ++ [0]))

theorem pathparserParse_components_binSh : ∃ root s',
    pathparserParse 110 pathKmem 0x1000 = some (root, s') ∧ root ≠ 0 ∧
      (read32 s'.mem root).toNat = 0 ∧
      PartList s' (read32 s'.mem (root + 4)) [[98, 105, 110], [115, 104]] := by
  refine pathparserParse_components pathKmem 0x1000 (by decide) (by decide) (by decide) false
    (by decide) (writeBytes_bytesAt (by decide)) ?_ ?_ (by decide)
  · rintro n hn ⟨b, -, -, hpage⟩
    have hbound : ∀ n < 10, pageOf (0x1000 + BitVec.ofNat 32 n) = 1 := by decide
    rw [hbound n (Nat.lt_succ_of_le hn)] at hpage
    omega
  · have hall : ((Finset.range 25600).filter fun b => IsFree pathKmem.entries b) =
        Finset.range 25600 :=
      Finset.filter_true_of_mem fun b hb => kheapInit_free _ _ (Finset.mem_range.1 hb)
    rw [FreeAtLeast, hall, Finset.card_range]
    decide

end AlphaOS.PathParser
