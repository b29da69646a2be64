import AlphaOS.FileOpen

/-! The parts the parser makes of any text: those in front of the first empty component, as far
as there are blocks for them. What stands behind is dropped. -/
namespace AlphaOS.PathParser
open BlockHeap CString Files Kheap Paging WordMemory

variable {s s' : Kmem} {path last : Word} {c : List Byte} {e : Byte} {fuel m b : ℕ}
  {comps : List (List Byte)}

def freeBlocks (s : Kmem) : ℕ := ((Finset.range 25600).filter fun b => IsFree s.entries b).card

lemma freeAtLeast_iff {n : ℕ} : FreeAtLeast s n ↔ n ≤ freeBlocks s := Iff.rfl

lemma freeBlocks_eq_zero : freeBlocks s = 0 ↔ ∀ b < 25600, ¬ IsFree s.entries b := by
  simp [freeBlocks, Finset.filter_eq_empty_iff]

/-- Blocks that were free and are no more count off. -/
lemma Kept.freeBlocks_add {W : Set Word} (h : Kept s s' W) (B : Finset ℕ)
    (hB : ∀ b ∈ B, b < 25600 ∧ IsFree s.entries b ∧ ¬ IsFree s'.entries b) :
    freeBlocks s' + B.card ≤ freeBlocks s := by
  have hdisjoint : Disjoint ((Finset.range 25600).filter fun b => IsFree s'.entries b) B := by
    apply Finset.disjoint_left.2
    intro b hb hmem
    exact (hB b hmem).2.2 (Finset.mem_filter.1 hb).2
  rw [freeBlocks, freeBlocks, ← Finset.card_union_of_disjoint hdisjoint]
  apply Finset.card_le_card
  intro b hb
  cases Finset.mem_union.1 hb with
  | inl hfree =>
    obtain ⟨hlt, hfree⟩ := Finset.mem_filter.1 hfree
    have hmem := h.freePages_subset (mem_freePages.2 ⟨Finset.mem_range.1 hlt, hfree⟩)
    simpa using mem_freePages.1 hmem
  | inr hmem =>
    obtain ⟨hlt, hfree, -⟩ := hB b hmem
    simp [hlt, hfree]

/-- A part takes two blocks. -/
lemma NewPart.freeBlocks {q : ℕ} (h : NewPart s s' last q c) (hfree : 2 ≤ freeBlocks s) :
    PathParser.freeBlocks s' = PathParser.freeBlocks s - 2 := by
  obtain ⟨t, hne, hfresh, ht, -, -⟩ := h.text
  have hcount := h.kept.freeBlocks_add {q, t} (by
    simp only [Finset.mem_insert, Finset.mem_singleton, forall_eq_or_imp, forall_eq]
    exact ⟨⟨h.held.1, h.fresh, h.held.not_free⟩, ht.1, hfresh, ht.not_free⟩)
  have hroom := h.room (PathParser.freeBlocks s - 2) (by rw [freeAtLeast_iff]; omega)
  rw [freeAtLeast_iff] at hroom
  rw [Finset.card_pair hne.symm] at hcount
  omega

/-- Memory outside the free blocks stays when a block is taken or none is there. -/
lemma kzalloc_mem_of_live {size : Word} (hsize : (heapBlocksFor size).toNat = 1)
    (hle : size.toNat ≤ 4096) {x : Word} (hx : pageOf x ∉ freePages s) :
    (kzalloc s size).2.mem x = s.mem x := by
  rcases kzalloc_single s hsize with ⟨-, heq⟩ | ⟨b, hb, hfree, heq⟩
  · rw [heq]
  · rw [heq]
    apply fill_block s.mem hb hle
    rintro hpage
    exact hx (hpage ▸ mem_freePages.2 ⟨hb, hfree⟩)

/-- What a part that is not made may write: the link of the last node and the page of null. -/
def Stray (last : Word) : Set Word := {x | last ≠ 0 ∧ InRange (last + 4) 4 x} ∪ {x | pageOf x = 0}

lemma pageOf_small {n : ℕ} (hn : n < 4096) : pageOf (0 + BitVec.ofNat 32 n) = 0 := by
  have hpage := pageOf_add (a := 0) (by rfl) hn
  exact hpage

/-- An empty component gives no text. -/
lemma getPathPart_none (fuel : ℕ) (hpath : s.mem path = slash ∨ s.mem path = 0)
    (hlive : pageOf path ∉ freePages s) : ∃ r, pathparserGetPathPart (fuel + 1) s path = some r ∧
      r.1 = 0 ∧ ∀ x, pageOf x ∉ freePages s → r.2.2.mem x = s.mem x := by
  have hmem := fun x => @kzalloc_mem_of_live s 108 (by decide) (by decide) x
  have hstop : ¬ ((kzalloc s 108).2.mem path ≠ slash ∧ (kzalloc s 108).2.mem path ≠ 0) := by
    rw [hmem path hlive]
    cases hpath with
    | inl h => simp [h]
    | inr h => simp [h]
  rw [pathparserGetPathPart]
  dsimp only
  rw [copyPartLoop, if_neg hstop, Option.map_some]
  exact ⟨_, rfl, rfl, hmem⟩

/-- Without a block the text goes to the page of null and is lost. -/
lemma getPathPart_full (hfull : freeBlocks s = 0) (hpath : BytesAt s.mem path (c ++ [e]))
    (hlive : ∀ n ≤ c.length, pageOf (path + BitVec.ofNat 32 n) ≠ 0)
    (hc : ∀ x ∈ c, x ≠ slash ∧ x ≠ 0) (he : e = slash ∨ e = 0) (hlen : c.length < 108)
    (hne : c ≠ []) (hfuel : c.length < fuel) : ∃ r, pathparserGetPathPart fuel s path = some r ∧
      r.1 = 0 ∧ ∀ x, pageOf x ≠ 0 → r.2.2.mem x = s.mem x := by
  rcases kzalloc_single s (show (heapBlocksFor 108).toNat = 1 by decide) with
    ⟨-, heq⟩ | ⟨b, hb, hfree, -⟩
  · have hloop := copyPartLoop_eq 0 (i := 0) hpath hc he hfuel fun n hn m hm hsame =>
      hlive n hn (by rw [← hsame, Nat.zero_add, pageOf_small (by omega)])
    have hcount : 0 + c.length ≠ 0 := by
      have hpos := List.length_pos_iff.2 hne
      omega
    rw [pathparserGetPathPart, heq]
    dsimp only
    rw [hloop, Option.map_some]
    dsimp only
    rw [if_neg hcount]
    refine ⟨_, rfl, rfl, fun x hx => ?_⟩
    apply writeBytes_of_not
    intro n hn hsame
    exact hx (by rw [← hsame, BitVec.add_zero, pageOf_small (by omega)])
  · exact absurd hfree (freeBlocks_eq_zero.1 hfull b hb)

/-- A node without a block goes to the page of null, and the last node links to it. -/
lemma linkTo_stray (mem : Mem) (last text : Word) {x : Word} (hx : x ∉ Stray last) :
    linkTo (write32 (write32 mem 0 text) (0 + 4) 0) last 0 x = mem x := by
  have hpage : pageOf x ≠ 0 := fun h => hx (.inr h)
  have hzero : pageOf (0 : Word) = 0 ∧ pageOf (0 + 4 : Word) = 0 := by decide
  have hfirst := write32_sameOff mem (a := 0) (by rfl) text x (by rw [hzero.1]; exact hpage)
  have hsecond := write32_sameOff (write32 mem 0 text) (a := 0 + 4) (by rfl) 0 x
    (by rw [hzero.2]; exact hpage)
  rw [linkTo_of_not fun h => hx (.inl h)]
  exact hsecond.trans hfirst

/-- The link of the last node lies in a page that is neither free nor null's. -/
lemma LastPart.link_page (hlast : LastPart s last) (hne : last ≠ 0) {x : Word}
    (hx : InRange (last + 4) 4 x) : pageOf x ∉ freePages s ∧ pageOf x ≠ 0 := by
  cases hlast with
  | inl hnull => exact absurd hnull hne
  | inr hnode =>
    obtain ⟨p, hp, rfl, hnot⟩ := hnode
    rw [InRange.pageOf_next hp hx]
    exact ⟨fun hmem => hnot (mem_freePages.1 hmem).2, by omega⟩

/-- A text that is not made ends the list. -/
lemma parsePathPart_null (hlow : Low s.entries) (hlast : LastPart s last)
    (hnext : last ≠ 0 → read32 s.mem (last + 4) = 0) {r : Word × Word × Kmem}
    (hget : pathparserGetPathPart fuel s path = some r) (hnull : r.1 = 0)
    (hmem : ∀ x, pageOf x ∉ freePages s → pageOf x ≠ 0 → r.2.2.mem x = s.mem x) :
    ∃ r, pathparserParsePathPart fuel s last path = some r ∧ r.1 = 0 ∧
      Kept s r.2.2 (Stray last) ∧ (last ≠ 0 → read32 r.2.2.mem (last + 4) = 0) := by
  have hkept := (getPathPart_preserves hlow hget).taken
  refine ⟨(0, r.2.1, r.2.2), ?_, rfl, ⟨hkept, fun x hx hnot => ?_⟩, fun hne => ?_⟩
  · rw [pathparserParsePathPart, hget, Option.map_some, if_pos hnull]
  · exact hmem x hx fun h => hnot (.inr h)
  · rw [← hnext hne]
    apply read32_eq_of_same
    intro x hx
    exact hmem x (hlast.link_page hne hx).1 (hlast.link_page hne hx).2

/-- A component that is empty, or for which there are no two blocks, ends the list. -/
lemma parsePathPart_stops (hlow : Low s.entries) (hlast : LastPart s last)
    (hnext : last ≠ 0 → read32 s.mem (last + 4) = 0) (hpath : BytesAt s.mem path (c ++ [e]))
    (hlive : ∀ n ≤ c.length, pageOf (path + BitVec.ofNat 32 n) ∉ freePages s ∧
      pageOf (path + BitVec.ofNat 32 n) ≠ 0)
    (hc : ∀ x ∈ c, x ≠ slash ∧ x ≠ 0) (he : e = slash ∨ e = 0) (hlen : c.length < 108)
    (hfuel : c.length < fuel) (hstop : c = [] ∨ freeBlocks s < 2) :
    ∃ r, pathparserParsePathPart fuel s last path = some r ∧ r.1 = 0 ∧
      Kept s r.2.2 (Stray last) ∧ (last ≠ 0 → read32 r.2.2.mem (last + 4) = 0) := by
  by_cases hempty : c = []
  · subst hempty
    obtain ⟨fuel, rfl⟩ := Nat.exists_eq_succ_of_ne_zero (Nat.ne_of_gt (Nat.zero_lt_of_lt hfuel))
    have hbyte : s.mem path = e := hpath.1
    have hhere := (hlive 0 le_rfl).1
    rw [BitVec.add_zero] at hhere
    obtain ⟨r, hget, hnull, hmem⟩ := getPathPart_none fuel (by rwa [hbyte]) hhere
    exact parsePathPart_null hlow hlast hnext hget hnull fun x hx _ => hmem x hx
  · by_cases hfull : freeBlocks s = 0
    · obtain ⟨r, hget, hnull, hmem⟩ := getPathPart_full hfull hpath (fun n hn => (hlive n hn).2) hc
        he hlen hempty hfuel
      exact parsePathPart_null hlow hlast hnext hget hnull fun x _ hx => hmem x hx
    · -- the only block goes to the text, and the node is written to the page of null
      have hone : freeBlocks s = 1 := by
        have htwo := hstop.resolve_left hempty
        omega
      obtain ⟨t, s₁, hget, ht, htook, hsame, -⟩ := getPathPart_copies
        (show FreeAtLeast s 1 by rw [freeAtLeast_iff]; omega).exists_free hpath
        (fun n hn => (hlive n hn).1) hc he hlen hempty hfuel
      have hfresh := (htook.fresh t rfl).2
      have htext : blockAddr t ≠ 0 := blockAddr_ne_zero (by omega)
      have hkept : Kept s s₁ ∅ := htook.kept fun x hx _ => hsame x (hx t rfl)
      have hnone : ∀ b < 25600, ¬ IsFree s₁.entries b := by
        have hcount := hkept.freeBlocks_add {t} fun b hb => by
          rw [Finset.mem_singleton.1 hb]
          exact ⟨ht, hfresh, htook.not_free rfl⟩
        rw [Finset.card_singleton] at hcount
        rw [← freeBlocks_eq_zero]
        omega
      rcases kzalloc_single s₁ (show (heapBlocksFor 8).toNat = 1 by decide) with
        ⟨-, heq⟩ | ⟨b, hb, hfree, -⟩
      · have hparse : pathparserParsePathPart fuel s last path = some (0,
            if e = slash then path + BitVec.ofNat 32 c.length + 1 else path + BitVec.ofNat 32 c.length,
            s₁.withMem (linkTo (write32 (write32 s₁.mem 0 (blockAddr t)) (0 + 4) 0) last 0)) := by
          rw [pathparserParsePathPart, hget]
          simp only [Option.map_some, if_neg htext, heq]
          rfl
        refine ⟨_, hparse, rfl, ⟨hkept.entries, fun x hx hnot => ?_⟩, fun hne => ?_⟩
        · exact (linkTo_stray s₁.mem last _ hnot).trans (hkept.mem x hx (Set.notMem_empty x))
        · rw [Kmem.withMem_mem, linkTo, if_pos hne, read32_write32]
      · exact absurd hfree (hnone b hb)

/-- What stands between two slashes. -/
def Piece (c : List Byte) : Prop := (∀ x ∈ c, x ≠ slash ∧ x ≠ 0) ∧ c.length < 108

/-- The components that become parts with `m` blocks free. -/
def partsMade : ℕ → List (List Byte) → List (List Byte)
  | _, [] => []
  | m, c :: comps => if c = [] ∨ m < 2 then [] else c :: partsMade (m - 2) comps

/-- The text lies outside the page of null. -/
def TextMapped (path : Word) (text : List Byte) : Prop :=
  ∀ n < text.length, pageOf (path + BitVec.ofNat 32 n) ≠ 0

/-- The text from a cursor on. -/
lemma TextMapped.drop {text rest : List Byte} {k : ℕ} (h : TextMapped path text)
    (hk : k + rest.length = text.length) : TextMapped (path + BitVec.ofNat 32 k) rest := by
  intro n hn
  rw [BitVec.add_assoc, ← BitVec.ofNat_add]
  exact h (k + n) (by omega)

/-- The first component with the byte behind it. -/
lemma BytesAt.first (hpath : BytesAt s.mem path (pathFrom false comps))
    (hcomps : ∀ c ∈ comps, Piece c) : ∃ c e, BytesAt s.mem path (c ++ [e]) ∧ Piece c ∧
      (e = slash ∨ e = 0) ∧ c.length < (pathFrom false comps).length ∧ c = comps.headD [] := by
  cases comps with
  | nil => exact ⟨[], 0, hpath, by simp [Piece], .inr rfl, by simp [pathFrom], rfl⟩
  | cons c comps =>
    obtain ⟨e, more, hrest, he, -⟩ := pathFrom_cons comps false
    have htext : pathFrom false (c :: comps) = (c ++ [e]) ++ more := by
      rw [pathFrom, hrest]
      simp
    rw [htext] at hpath ⊢
    exact ⟨c, e, (bytesAt_append.1 hpath).1, hcomps c (by simp), he, by simp, rfl⟩

/-- Nothing more is made of an empty component or without two blocks. -/
lemma parsePathPart_end (hlow : Low s.entries) (hlast : LastPart s last)
    (hnext : last ≠ 0 → read32 s.mem (last + 4) = 0)
    (hpath : BytesAt s.mem path (pathFrom false comps))
    (hapart : TextApart s last path (pathFrom false comps))
    (hmapped : TextMapped path (pathFrom false comps)) (hcomps : ∀ c ∈ comps, Piece c)
    (hfuel : (pathFrom false comps).length ≤ fuel)
    (hnone : partsMade (freeBlocks s) comps = []) :
    ∃ r, pathparserParsePathPart fuel s last path = some r ∧ r.1 = 0 ∧
      Kept s r.2.2 (Stray last) ∧ (last ≠ 0 → read32 r.2.2.mem (last + 4) = 0) := by
  obtain ⟨c, e, hbytes, hc, he, hlen, hhead⟩ := BytesAt.first hpath hcomps
  have hstop : c = [] ∨ freeBlocks s < 2 := by
    cases comps with
    | nil => exact .inl hhead
    | cons d comps =>
      rw [List.headD_cons] at hhead
      by_contra hgo
      rw [partsMade, if_neg (hhead ▸ hgo)] at hnone
      simp at hnone
  exact parsePathPart_stops hlow hlast hnext hbytes
    (fun n hn => ⟨(hapart n (by omega)).1, hmapped n (by omega)⟩) hc.1 he hc.2 (by omega) hstop

lemma partsMade_cons (h : partsMade m comps ≠ []) : ∃ c more, comps = c :: more ∧ c ≠ [] ∧ 2 ≤ m ∧
    partsMade m comps = c :: partsMade (m - 2) more := by
  cases comps with
  | nil => simp [partsMade] at h
  | cons c comps =>
    by_cases hstop : c = [] ∨ m < 2
    · rw [partsMade, if_pos hstop] at h
      exact absurd rfl h
    · rw [not_or, not_lt] at hstop
      refine ⟨c, comps, rfl, hstop.1, hstop.2, ?_⟩
      rw [partsMade, if_neg (by rw [not_or, not_lt]; exact hstop)]

/-- A later part does not change the link to the one before it. -/
lemma NewPart.link_after {p q : ℕ} (h : NewPart s s' (blockAddr p) q c) (hp : Held s p)
    {s'' : Kmem} (hkept : Kept s' s'' (Stray (blockAddr q))) :
    read32 s''.mem (blockAddr p + 4) = blockAddr q := by
  have hlt := hp.1
  rw [← h.link (blockAddr_ne_zero (by omega))]
  apply read32_eq_of_same
  intro x hx
  have hpage := InRange.pageOf_next hp.1 hx
  apply hkept.mem x
  · rw [hpage]
    exact not_mem_freePages (h.kept.held hp)
  · intro hstray
    cases hstray with
    | inl hlink =>
      rw [InRange.pageOf_next h.held.1 hlink.2] at hpage
      obtain rfl : q = p := by omega
      exact hp.not_free h.fresh
    | inr hnull =>
      have hzero : pageOf x = 0 := hnull
      omega

/-- Behind a node the loop appends the parts it finds blocks for, up to an empty component. -/
lemma parsePartsLoop_made {p : ℕ} (hlow : Low s.entries) (hp : Held s p)
    (hnext : read32 s.mem (blockAddr p + 4) = 0)
    (hpath : BytesAt s.mem path (pathFrom false comps))
    (hapart : TextApart s (blockAddr p) path (pathFrom false comps))
    (hmapped : TextMapped path (pathFrom false comps)) (hcomps : ∀ c ∈ comps, Piece c)
    (hfuel : (pathFrom false comps).length < fuel) :
    ∃ s', parsePartsLoop fuel s (blockAddr p) path = some s' ∧
      Kept s s' (Stray (blockAddr p)) ∧
      PartList s' (read32 s'.mem (blockAddr p + 4)) (partsMade (freeBlocks s) comps) := by
  have hlt := hp.1
  have hne : blockAddr p ≠ 0 := blockAddr_ne_zero (by omega)
  have hlast : LastPart s (blockAddr p) := .inr ⟨p, hp.1, rfl, hp.not_free⟩
  have hpos := pathFrom_length_pos false comps
  obtain ⟨fuel, rfl⟩ : ∃ f, fuel = f + 2 := ⟨fuel - 2, by omega⟩
  induction comps generalizing s p path fuel with
  | nil =>
    obtain ⟨r, hparse, hnull, hkept, hlink⟩ := parsePathPart_end hlow hlast (fun _ => hnext) hpath
      hapart hmapped hcomps (show _ ≤ fuel + 1 by omega) rfl
    refine ⟨r.2.2, ?_, hkept, hlink hne⟩
    rw [parsePartsLoop, if_neg hne, hparse, Option.bind_some, parsePartsLoop, if_pos hnull]
  | cons c comps ih =>
    by_cases hnone : partsMade (freeBlocks s) (c :: comps) = []
    · obtain ⟨r, hparse, hnull, hkept, hlink⟩ := parsePathPart_end hlow hlast (fun _ => hnext) hpath
        hapart hmapped hcomps (show _ ≤ fuel + 1 by omega) hnone
      refine ⟨r.2.2, ?_, hkept, ?_⟩
      · rw [parsePartsLoop, if_neg hne, hparse, Option.bind_some, parsePartsLoop, if_pos hnull]
      · rw [hnone]
        exact hlink hne
    · obtain ⟨d, more, hcons, hd, htwo, hmade⟩ := partsMade_cons hnone
      obtain ⟨rfl, rfl⟩ := List.cons.inj hcons
      have hpiece := hcomps c (by simp)
      have hrest := pathFrom_length_pos false comps
      have hlength : (pathFrom false (c :: comps)).length =
          c.length + (separator false comps).length + (pathFrom false comps).length := by
        simp [pathFrom, Nat.add_assoc]
      have hcpos := List.length_pos_of_ne_nil hd
      obtain ⟨q, s₁, path', hparse, hnode, hpath', hapart', k, rfl, hk⟩ :=
        parsePathPart_component (fuel + 1) hlast htwo hpath hapart ⟨hd, hpiece⟩ (by omega)
      have hq := hnode.held.1
      obtain ⟨fuel, rfl⟩ : ∃ f, fuel = f + 1 := ⟨fuel - 1, by omega⟩
      obtain ⟨s', hloop, hkept, hlist⟩ := ih (parsePathPart_preserves hlow hparse).low hnode.held
        hnode.next hpath' hapart' (hmapped.drop hk) (fun d hd => hcomps d (by simp [hd])) hq
        (blockAddr_ne_zero (by omega)) (.inr ⟨q, hq, rfl, hnode.held.not_free⟩) hrest fuel (by omega)
      have hfreshq := mem_freePages.2 ⟨hq, hnode.fresh⟩
      refine ⟨s', ?_, ?_, ?_⟩
      · rw [parsePartsLoop, if_neg hne, hparse]
        exact hloop
      · have hstray : Kept s s₁ (Stray (blockAddr p)) := hnode.kept.mono Set.subset_union_left
        apply hstray.trans hkept
        rintro x (hlink | hnull)
        · exact .inl (by rw [InRange.pageOf_next hq hlink.2]; exact hfreshq)
        · exact .inr (.inr hnull)
      · rw [hnode.link_after hp hkept, hmade, ← hnode.freeBlocks htwo]
        apply hnode.after hkept _ ⟨hd, hpiece⟩ hlist
        rintro x (hlink | hnull)
        · exact .inl hlink.2
        · refine .inr fun hmem => ?_
          obtain ⟨b, -, -, hpage⟩ := hmem
          have hzero : pageOf x = 0 := hnull
          omega

lemma Took.freeBlocks (h : Took s s' {b}) (hfree : 1 ≤ freeBlocks s) :
    PathParser.freeBlocks s' = PathParser.freeBlocks s - 1 := by
  have hkept : Kept s s' Set.univ := h.kept fun x _ hx => absurd (Set.mem_univ x) hx
  have hfresh := h.fresh b rfl
  have hcount := hkept.freeBlocks_add {b} fun c hc => by
    rw [Finset.mem_singleton.1 hc]
    exact ⟨hfresh.1, hfresh.2, h.not_free rfl⟩
  have hroom := h.freeAtLeast (n := PathParser.freeBlocks s - 1) (by rw [freeAtLeast_iff]; omega)
  rw [freeAtLeast_iff] at hroom
  rw [Finset.card_singleton] at hcount
  omega

/-- The character of a drive. -/
def driveByte (d : ℕ) : Byte := BitVec.ofNat 8 (48 + d)

/-- A path of some drive in memory, apart from the free blocks and the page of null. -/
structure PathAt (s : Kmem) (path : Word) (d : ℕ) (rest : List Byte) : Prop where
  digit : d < 10
  nonzero : 0 ∉ rest
  short : rest.length ≤ 105
  bytes : BytesAt s.mem path (driveByte d :: 58 :: slash :: (rest ++ [0]))
  live : ∀ n ≤ rest.length + 3, pageOf (path + BitVec.ofNat 32 n) ∉ freePages s ∧
    pageOf (path + BitVec.ofNat 32 n) ≠ 0

variable {d : ℕ} {rest : List Byte}

/-- The text behind the drive is made of its components. -/
lemma pathFrom_splitOn (rest : List Byte) : pathFrom false (rest.splitOn slash) = rest ++ [0] := by
  rw [pathFrom_eq (List.splitOn_ne_nil slash rest), List.intercalate_splitOn]
  simp

lemma mem_splitOn {x : Byte} (hc : c ∈ rest.splitOn slash) (hx : x ∈ c) : x ∈ rest ∧ x ≠ slash := by
  induction rest generalizing c with
  | nil =>
    rw [List.splitOn_nil, List.mem_singleton] at hc
    simp [hc] at hx
  | cons y rest ih =>
    rw [List.splitOn_cons_eq_if_modifyHead] at hc
    by_cases hy : y = slash
    · rw [if_pos (by simpa using hy)] at hc
      cases List.mem_cons.1 hc with
      | inl h => simp [h] at hx
      | inr h => exact (ih h hx).imp_left fun hmem => List.mem_cons_of_mem y hmem
    · rw [if_neg (by simpa using hy)] at hc
      obtain ⟨d, more, hsplit⟩ := List.exists_cons_of_ne_nil (List.splitOn_ne_nil slash rest)
      rw [hsplit, List.modifyHead_cons] at hc
      rw [hsplit] at ih
      cases List.mem_cons.1 hc with
      | inl h =>
        rw [h] at hx
        cases List.mem_cons.1 hx with
        | inl hfirst => exact ⟨by simp [hfirst], hfirst ▸ hy⟩
        | inr hlater => exact (ih (by simp) hlater).imp_left fun hmem => List.mem_cons_of_mem y hmem
      | inr h => exact (ih (by simp [h]) hx).imp_left fun hmem => List.mem_cons_of_mem y hmem

lemma splitOn_piece (hzero : 0 ∉ rest) (hlen : rest.length ≤ 105) :
    ∀ c ∈ rest.splitOn slash, Piece c := by
  intro c hc
  have hshort := @length_lt_pathFrom c _ false hc
  rw [pathFrom_splitOn, List.length_append, List.length_singleton] at hshort
  refine ⟨fun x hx => ⟨(mem_splitOn hc hx).2, ?_⟩, by omega⟩
  rintro rfl
  exact hzero (mem_splitOn hc hx).1

lemma PathAt.no_zero (h : PathAt s path d rest) : 0 ∉ driveByte d :: 58 :: slash :: rest := by
  have hdigit : ∀ d < 10, (0 : Byte) ≠ driveByte d := by decide
  simp only [List.mem_cons, not_or]
  exact ⟨hdigit d h.digit, by decide, by decide, h.nonzero⟩

/-- The drive of such a path. -/
lemma PathAt.drive (h : PathAt s path d rest) :
    pathparserGetDriveByPath s.mem path = ((d : ℤ), path + 3) := by
  have hdigit : ∀ d < 10, isdigit (driveByte d) ∧ tonumericdigit (driveByte d) = d := by
    decide
  obtain ⟨hdig, hnum⟩ := hdigit d h.digit
  have hlen : 3 ≤ strnlen s.mem path maxPathLength := by
    rw [strnlen_eq (show BytesAt s.mem path ((driveByte d :: 58 :: slash :: rest) ++ [0]) from h.bytes)
      h.no_zero]
    simp [maxPathLength]
  have hcompare : memcmp (pointer s.mem (path + 1)) (literal [58, slash]) 2 = 0 := by
    rw [memcmp_eq_zero]
    intro j h0 h2
    obtain rfl | rfl : j = 0 ∨ j = 1 := by omega
    · simpa [pointer, literal] using h.bytes.2.1
    · simpa [pointer, literal] using h.bytes.2.2.1
  have hfirst : s.mem path = driveByte d := h.bytes.1
  have hvalid : pathparserPathValidFormat s.mem path := by
    rw [pathparserPathValidFormat, hfirst]
    exact decide_eq_true ⟨hlen, hdig, hcompare⟩
  rw [pathparserGetDriveByPath, if_neg (not_not.2 hvalid), hfirst, hnum]

/-- The components behind the drive, once the root is made. -/
lemma PathAt.components (h : PathAt s path d rest) (hkept : Kept s s' ∅) :
    let text := pathFrom false (rest.splitOn slash)
    BytesAt s'.mem (path + 3) text ∧ TextApart s' 0 (path + 3) text ∧ TextMapped (path + 3) text := by
  have hoff : ∀ n, path + 3 + BitVec.ofNat 32 n = path + BitVec.ofNat 32 (3 + n) := by
    intro n
    rw [BitVec.add_assoc, BitVec.ofNat_add]
    rfl
  have hlength : (rest ++ [0]).length = rest.length + 1 := by simp
  have hbytes : BytesAt s.mem (path + 3) (rest ++ [0]) := by
    have hthird := h.bytes.2.2.2
    rwa [BitVec.add_assoc, BitVec.add_assoc] at hthird
  rw [pathFrom_splitOn]
  refine ⟨hbytes.congr fun n hn => ?_, fun n hn => ?_, fun n hn => ?_⟩
  · rw [hoff]
    exact hkept.mem _ (h.live _ (by omega)).1 (Set.notMem_empty _)
  · rw [hoff]
    exact ⟨fun hmem => (h.live _ (by omega)).1 (hkept.freePages_subset hmem), fun hnull => hnull.1 rfl⟩
  · rw [hoff]
    exact (h.live _ (by omega)).2

/-- The end of `pathparser_parse`, behind the root. -/
def parseParts (fuel : ℕ) (s : Kmem) (root path : Word) : Option (Word × Kmem) :=
  (pathparserParsePathPart fuel s 0 path).bind fun first =>
    if first.1 = 0 then some (root, first.2.2) else
    let s := first.2.2.withMem (write32 first.2.2.mem (root + 4) first.1)
    (pathparserParsePathPart fuel s first.1 first.2.1).bind fun part =>
      (parsePartsLoop fuel part.2.2 part.1 part.2.1).map fun s => (root, s)

lemma parseParts_none {r : ℕ} (hlow : Low s.entries) (hr : Held s r)
    (hfirst : read32 s.mem (blockAddr r + 4) = 0)
    (hpath : BytesAt s.mem path (pathFrom false comps))
    (hapart : TextApart s 0 path (pathFrom false comps))
    (hmapped : TextMapped path (pathFrom false comps)) (hcomps : ∀ c ∈ comps, Piece c)
    (hfuel : (pathFrom false comps).length ≤ fuel) (hnone : partsMade (freeBlocks s) comps = []) :
    ∃ s', parseParts fuel s (blockAddr r) path = some (blockAddr r, s') ∧
      read32 s'.mem (blockAddr r) = read32 s.mem (blockAddr r) ∧
      PartList s' (read32 s'.mem (blockAddr r + 4)) [] := by
  have hrlt := hr.1
  obtain ⟨part, hparse, hnull, hkept, -⟩ := parsePathPart_end hlow (.inl rfl)
    (fun hne => absurd rfl hne) hpath hapart hmapped hcomps hfuel hnone
  have hpage : ∀ x ∈ Stray 0, pageOf x ≠ 4096 + r := by
    rintro x (hlink | hzero)
    · exact absurd rfl hlink.1
    · have hpage : pageOf x = 0 := hzero
      omega
  refine ⟨part.2.2, ?_, hkept.read32 hr fun x hx => .inr (hpage x hx), ?_⟩
  · rw [parseParts, hparse, Option.bind_some, if_pos hnull]
  · rw [PartList, ← hfirst]
    apply read32_eq_of_same
    intro x hx
    have hnext := InRange.pageOf_next hrlt hx
    exact hkept.mem x (by rw [hnext]; exact not_mem_freePages hr) fun hstray => hpage x hstray hnext

/-- Behind a root the parts are the components in front of the first empty one, as far as there
are blocks. -/
lemma parseParts_made {r : ℕ} (hlow : Low s.entries) (hr : Held s r)
    (hfirst : read32 s.mem (blockAddr r + 4) = 0)
    (hpath : BytesAt s.mem path (pathFrom false comps))
    (hapart : TextApart s 0 path (pathFrom false comps))
    (hrapart : ∀ n < (pathFrom false comps).length, pageOf (path + BitVec.ofNat 32 n) ≠ 4096 + r)
    (hmapped : TextMapped path (pathFrom false comps)) (hcomps : ∀ c ∈ comps, Piece c)
    (hfuel : (pathFrom false comps).length ≤ fuel) :
    ∃ s', parseParts fuel s (blockAddr r) path = some (blockAddr r, s') ∧
      read32 s'.mem (blockAddr r) = read32 s.mem (blockAddr r) ∧
      PartList s' (read32 s'.mem (blockAddr r + 4)) (partsMade (freeBlocks s) comps) := by
  by_cases hnone : partsMade (freeBlocks s) comps = []
  · rw [hnone]
    exact parseParts_none hlow hr hfirst hpath hapart hmapped hcomps hfuel hnone
  · obtain ⟨c, more, rfl, hc, htwo, hmade⟩ := partsMade_cons hnone
    have hrlt := hr.1
    have hpiece := hcomps c (by simp)
    have hclen := @length_lt_pathFrom c (c :: more) false (by simp)
    obtain ⟨q, s₂, path', hparse, hnode, hpath', hapart', k, rfl, hk⟩ :=
      parsePathPart_component fuel (.inl rfl) htwo hpath hapart ⟨hc, hpiece⟩ (by omega)
    have hq := hnode.held.1
    have hqzero : blockAddr q ≠ 0 := blockAddr_ne_zero (by omega)
    have hrq : r ≠ q := by
      rintro rfl
      exact hr.not_free hnode.fresh
    have hr₂ := hnode.kept.held hr
    -- the root's link to the first node
    let s₃ := s₂.withMem (write32 s₂.mem (blockAddr r + 4) (blockAddr q))
    obtain ⟨hlink, hsameNext, hsame⟩ := setLink_kept s₂ hrlt hq hrq (blockAddr q)
    have hnext₃ : read32 s₃.mem (blockAddr q + 4) = 0 := hsameNext.trans hnode.next
    have hpath₃ : BytesAt s₃.mem (path + BitVec.ofNat 32 k) (pathFrom false more) := by
      refine hpath'.congr fun n hn => hsame _ fun hpage => ?_
      rw [BitVec.add_assoc, ← BitVec.ofNat_add] at hpage
      exact hrapart (k + n) (by omega) hpage
    obtain ⟨s', hloop, hkept', hlist⟩ := @parsePartsLoop_made s₃ _ (fuel + 1) more q
      (parsePathPart_preserves hlow hparse).low (hlink.held hnode.held) hnext₃ hpath₃ hapart'
      (hmapped.drop hk) (fun d hd => hcomps d (by simp [hd])) (by omega)
    have hstray : ∀ x ∈ Stray (blockAddr q), pageOf x ≠ 4096 + r := by
      rintro x (hx | hzero)
      · rw [InRange.pageOf_next hq hx.2]
        omega
      · have hpage : pageOf x = 0 := hzero
        omega
    have hreach : Kept s₂ s' ({x | InRange (blockAddr r + 4) 4 x} ∪ Stray (blockAddr q)) :=
      (hlink.mono Set.subset_union_left).trans hkept' fun x hx => .inr (.inr hx)
    refine ⟨s', ?_, ?_, ?_⟩
    · rw [parsePartsLoop, if_neg hqzero] at hloop
      rw [parseParts, hparse, Option.bind_some, if_neg hqzero]
      have hpair := congrArg (Option.map fun s => (blockAddr r, s)) hloop
      rw [Option.map_bind] at hpair
      exact hpair
    · rw [hreach.read32 hr₂ fun x hx => hx.imp_right (hstray x)]
      exact hnode.kept.read32 hr fun x hx => absurd rfl hx.1
    · have hnext : read32 s'.mem (blockAddr r + 4) = blockAddr q := by
        rw [← read32_write32 s₂.mem (blockAddr r + 4) (blockAddr q)]
        refine read32_eq_of_same fun x hx => hkept'.mem x ?_ fun hx' => ?_
        · rw [InRange.pageOf_next hrlt hx]
          exact not_mem_freePages hr₂
        · exact hstray x hx' (InRange.pageOf_next hrlt hx)
      have hcount : freeBlocks s₃ = freeBlocks s - 2 := hnode.freeBlocks htwo
      rw [hnext, hmade, ← hcount]
      apply hnode.after hreach _ ⟨hc, hpiece⟩ hlist
      rintro x (hx | hx | hzero)
      · exact .inr (by rw [InRange.pageOf_next hrlt hx]; exact not_mem_freePages hr)
      · exact .inl hx.2
      · refine .inr fun hmem => ?_
        obtain ⟨b, -, -, hpage⟩ := hmem
        have hnull : pageOf x = 0 := hzero
        omega

/-- The parts of a path of a drive, when there is a block for the root. -/
lemma PathAt.parse (h : PathAt s path d rest) (hlow : Low s.entries) (hfree : 1 ≤ freeBlocks s)
    (hfuel : 110 ≤ fuel) : ∃ root s', pathparserParse fuel s path = some (root, s') ∧ root ≠ 0 ∧
      (read32 s'.mem root).toNat = d ∧
      PartList s' (read32 s'.mem (root + 4)) (partsMade (freeBlocks s - 1) (rest.splitOn slash)) := by
  have hshort := h.short
  have hdigit := h.digit
  have hstr : strlen fuel s.mem path = some (rest.length + 3) :=
    strlen_eq (show BytesAt s.mem path ((driveByte d :: 58 :: slash :: rest) ++ [0]) from h.bytes)
      h.no_zero (by simp; omega)
  have hfit : ¬ rest.length + 3 > maxPathLength := by
    unfold maxPathLength
    omega
  obtain ⟨r, s₁, hroot, htook, hr, hkept, hword, hfirst⟩ :=
    createRoot_spec (show FreeAtLeast s 1 from hfree).exists_free d
  have hrlt := hr.1
  have hrzero : blockAddr r ≠ 0 := blockAddr_ne_zero (by omega)
  have hlow₁ : Low s₁.entries := by
    have hlow' := hlow.kzalloc 8
    have hentries := congrArg (fun p : Word × Kmem => p.2.entries) hroot
    rwa [← hentries]
  obtain ⟨hpath₁, hapart₁, hmapped⟩ := h.components hkept
  have hlength : (pathFrom false (rest.splitOn slash)).length = rest.length + 1 := by
    rw [pathFrom_splitOn, List.length_append, List.length_singleton]
  have hrapart : ∀ n < (pathFrom false (rest.splitOn slash)).length,
      pageOf (path + 3 + BitVec.ofNat 32 n) ≠ 4096 + r := by
    intro n hn hpage
    have hlive := (h.live (3 + n) (by omega)).1
    rw [BitVec.ofNat_add, ← BitVec.add_assoc] at hlive
    exact hlive (hpage ▸ mem_freePages.2 (htook.fresh r rfl))
  obtain ⟨s', hparts, hdrive, hlist⟩ := @parseParts_made s₁ (path + 3) fuel (rest.splitOn slash) r
    hlow₁ hr hfirst hpath₁ hapart₁ hrapart hmapped (splitOn_piece h.nonzero hshort) (by omega)
  refine ⟨blockAddr r, s', ?_, hrzero, ?_, ?_⟩
  · rw [pathparserParse, hstr]
    simp only [Option.bind_some, h.drive, hroot, if_neg hrzero, if_neg hfit]
    rw [if_neg (by omega)]
    exact hparts
  · rw [hdrive, hword, BitVec.toNat_ofNat]
    omega
  · rw [← htook.freeBlocks hfree]
    exact hlist

/-! What the parts say about the text. -/

lemma partsMade_mem (hc : c ∈ partsMade m comps) : c ∈ comps ∧ c ≠ [] := by
  induction comps generalizing m with
  | nil => simp [partsMade] at hc
  | cons d comps ih =>
    rw [partsMade] at hc
    split_ifs at hc with hstop
    · simp at hc
    · rw [not_or] at hstop
      cases List.mem_cons.1 hc with
      | inl h => exact ⟨by simp [h], h ▸ hstop.1⟩
      | inr h => exact (ih h).imp_left fun hmem => List.mem_cons_of_mem d hmem

lemma partsMade_length (m : ℕ) (comps : List (List Byte)) : 2 * (partsMade m comps).length ≤ m := by
  induction comps generalizing m with
  | nil => simp [partsMade]
  | cons d comps ih =>
    rw [partsMade]
    split_ifs with hstop
    · simp
    · have hrest := ih (m - 2)
      rw [not_or, not_lt] at hstop
      rw [List.length_cons]
      omega

/-- No component but the last is empty, and there are two blocks for each. -/
def AllMade (m : ℕ) (comps : List (List Byte)) : Prop :=
  (∀ c ∈ comps.dropLast, c ≠ []) ∧ 2 * (comps.filter (· ≠ [])).length ≤ m

/-- Then at most an empty component at the end is left out. -/
lemma AllMade.eq (h : AllMade m comps) :
    comps = partsMade m comps ∨ comps = partsMade m comps ++ [[]] := by
  induction comps generalizing m with
  | nil => simp [partsMade]
  | cons c comps ih =>
    by_cases hc : c = []
    · have hlast : comps = [] := by
        by_contra hne
        refine h.1 c ?_ hc
        rw [List.dropLast_cons_of_ne_nil hne]
        simp
      simp [hc, hlast, partsMade]
    · have hroom := h.2
      rw [List.filter_cons_of_pos (by simpa using hc), List.length_cons] at hroom
      have hgo : ¬ (c = [] ∨ m < 2) := by
        rw [not_or, not_lt]
        exact ⟨hc, by omega⟩
      have hrest : AllMade (m - 2) comps := by
        refine ⟨fun d hd => h.1 d ?_, by omega⟩
        rw [List.dropLast_cons_of_ne_nil (by rintro rfl; simp at hd)]
        exact List.mem_cons_of_mem c hd
      rw [partsMade, if_neg hgo]
      simpa using ih hrest

lemma allMade_of_parts {parts : List (List Byte)} (hparts : ∀ c ∈ parts, c ≠ [])
    (hlength : 2 * parts.length ≤ m) (trailing : Bool) :
    AllMade m (if trailing then parts ++ [[]] else parts) := by
  have hfilter : parts.filter (· ≠ []) = parts := by
    rw [List.filter_eq_self]
    intro c hc
    simpa using hparts c hc
  cases trailing with
  | true =>
    refine ⟨fun c hc => hparts c ?_, ?_⟩
    · simpa using hc
    · simp only [if_true, List.filter_append, hfilter]
      simpa using hlength
  | false =>
    refine ⟨fun c hc => hparts c (List.mem_of_mem_dropLast hc), ?_⟩
    simpa only [Bool.false_eq_true, if_false, hfilter] using hlength

/-- An empty component at the end is a slash. -/
lemma intercalate_concat (hne : comps ≠ []) :
    List.intercalate [slash] (comps ++ [[]]) = List.intercalate [slash] comps ++ [slash] := by
  induction comps with
  | nil => exact absurd rfl hne
  | cons c comps ih =>
    cases comps with
    | nil => simp
    | cons d comps => simpa using ih (by simp)

/-- The parts are the whole text exactly when all are made. -/
lemma intercalate_partsMade (hslash : ∀ c ∈ comps, slash ∉ c) (hmade : partsMade m comps ≠ []) :
    (∃ trailing : Bool, List.intercalate [slash] comps =
      List.intercalate [slash] (partsMade m comps) ++ if trailing then [slash] else []) ↔
    AllMade m comps := by
  have hjoin : ∀ trailing : Bool, List.intercalate [slash] (partsMade m comps) ++
      (if trailing then [slash] else []) = List.intercalate [slash]
        (if trailing then partsMade m comps ++ [[]] else partsMade m comps) := by
    intro trailing
    cases trailing with
    | true => rw [if_pos rfl, if_pos rfl, intercalate_concat hmade]
    | false => simp
  constructor
  · rintro ⟨trailing, htext⟩
    rw [hjoin] at htext
    have hparts : ∀ c ∈ partsMade m comps, slash ∉ c := fun c hc => hslash c (partsMade_mem hc).1
    have hne : comps ≠ [] := by
      rintro rfl
      exact hmade rfl
    have hsplit := congrArg (List.splitOn slash) htext
    rw [List.splitOn_intercalate slash hslash hne, List.splitOn_intercalate slash] at hsplit
    · rw [hsplit]
      exact allMade_of_parts (fun c hc => (partsMade_mem hc).2) (partsMade_length m comps) trailing
    · cases trailing with
      | true => simpa [or_imp, forall_and] using hparts
      | false => simpa using hparts
    · cases trailing with
      | true => simp
      | false => simpa using hmade
  · intro hall
    cases hall.eq with
    | inl heq => exact ⟨false, by rw [hjoin, if_neg (by simp), ← heq]⟩
    | inr heq => exact ⟨true, by rw [hjoin, if_pos rfl, ← heq]⟩

/-- A C string in memory is one list of bytes. -/
lemma bytesAt_unique {mem : Mem} {a : Word} {c d : List Byte} (hc : BytesAt mem a (c ++ [0]))
    (hd : BytesAt mem a (d ++ [0])) (hc0 : 0 ∉ c) (hd0 : 0 ∉ d) : c = d := by
  induction c generalizing a d with
  | nil =>
    cases d with
    | nil => rfl
    | cons y d =>
      have hzero : y = 0 := hd.1.symm.trans hc.1
      simp [hzero] at hd0
  | cons x c ih =>
    cases d with
    | nil =>
      have hzero : x = 0 := hc.1.symm.trans hd.1
      simp [hzero] at hc0
    | cons y d =>
      have hfirst : x = y := hc.1.symm.trans hd.1
      rw [hfirst, ih hc.2 hd.2 (by simp_all) (by simp_all)]

/-- A root has one list of parts. -/
lemma PartList.unique {part : Word} {parts parts' : List (List Byte)} (h : PartList s part parts)
    (h' : PartList s part parts') (hzero : ∀ c ∈ parts, 0 ∉ c) (hzero' : ∀ c ∈ parts', 0 ∉ c) :
    parts = parts' := by
  induction parts generalizing part parts' with
  | nil =>
    cases parts' with
    | nil => rfl
    | cons c parts' =>
      obtain ⟨q, t, hpart, hq, -⟩ := h'
      have hlt := hq.1
      have hnull : part = 0 := h
      exact absurd (hpart.symm.trans hnull) (blockAddr_ne_zero (by omega))
  | cons c parts ih =>
    obtain ⟨q, t, hpart, hq, hword, ht, hbytes, -, hnext⟩ := h
    cases parts' with
    | nil =>
      have hlt := hq.1
      have hnull : part = 0 := h'
      exact absurd (hpart.symm.trans hnull) (blockAddr_ne_zero (by omega))
    | cons c' parts' =>
      obtain ⟨q', t', -, -, hword', -, hbytes', -, hnext'⟩ := h'
      rw [← hword'.symm.trans hword] at hbytes
      rw [bytesAt_unique hbytes hbytes' (hzero c (by simp)) (hzero' c' (by simp)),
        ih hnext hnext' (fun d hd => hzero d (by simp [hd])) fun d hd => hzero' d (by simp [hd])]

/-- The text of a root with parts is the drive and the parts joined with slashes, with at most
one slash behind them. -/
def ParsesWhole (fuel : ℕ) (s : Kmem) (path : Word) (text : List Byte) : Prop :=
  ∀ root s' parts, pathparserParse fuel s path = some (root, s') → root ≠ 0 → parts ≠ [] →
    (∀ c ∈ parts, 0 ∉ c) → PartList s' (read32 s'.mem (root + 4)) parts →
      ∃ trailing, text = pathText (read32 s'.mem root).toNat parts trailing

lemma zero_not_mem_partsMade (hzero : 0 ∉ rest) (hc : c ∈ partsMade m (rest.splitOn slash)) :
    0 ∉ c :=
  fun hmem => hzero (mem_splitOn (partsMade_mem hc).1 hmem).1

/-- The length found is that of the string, whatever the bound. -/
lemma strlenLoop_length {mem : Mem} {text : List Byte} (hpath : BytesAt mem path (text ++ [0]))
    (hzero : 0 ∉ text) {i len : ℕ} (hi : i ≤ text.length)
    (h : strlenLoop mem path fuel i = some len) : len = text.length := by
  induction fuel generalizing i with
  | zero => simp [strlenLoop] at h
  | succ fuel ih =>
    have hbound : i < (text ++ [0]).length := by
      rw [List.length_append, List.length_singleton]
      omega
    rw [strlenLoop, hpath.get hbound] at h
    by_cases hend : i = text.length
    · subst hend
      simpa using h.symm
    · have hlt : i < text.length := by omega
      have hbyte : text[i] ≠ 0 := fun hnull => hzero (hnull ▸ List.getElem_mem hlt)
      rw [List.getElem_append_left hlt, if_pos hbyte] at h
      exact ih hlt h

/-- A text of a valid format begins with a drive. -/
lemma drive_of_valid {mem : Mem} {text : List Byte} (hpath : BytesAt mem path (text ++ [0]))
    (hzero : 0 ∉ text) (hvalid : pathparserPathValidFormat mem path) :
    ∃ d < 10, ∃ rest, text = driveByte d :: 58 :: slash :: rest := by
  have hdigit : ∀ b : Byte, isdigit b → ∃ d < 10, b = driveByte d := by decide +kernel
  rw [pathparserPathValidFormat, decide_eq_true_eq, strnlen_eq hpath hzero, memcmp_eq_zero] at hvalid
  obtain ⟨hlen, hdig, hcompare⟩ := hvalid
  obtain ⟨a, b, c, rest, rfl⟩ : ∃ a b c rest, text = a :: b :: c :: rest := by
    have hthree : 3 ≤ text.length := le_trans hlen (min_le_left _ _)
    rcases text with _ | ⟨a, _ | ⟨b, _ | ⟨c, rest⟩⟩⟩
    · exact absurd hthree (by simp)
    · exact absurd hthree (by simp)
    · exact absurd hthree (by simp)
    · exact ⟨a, b, c, rest, rfl⟩
  have hfirst : mem path = a := hpath.1
  have hsecond : b = 58 := by
    have hbyte := hcompare 0 le_rfl (by norm_num)
    rw [← hpath.2.1]
    simpa [pointer, literal] using hbyte
  have hthird : c = slash := by
    have hbyte := hcompare 1 (by norm_num) (by norm_num)
    rw [← hpath.2.2.1]
    simpa [pointer, literal] using hbyte
  obtain ⟨d, hd, heq⟩ := hdigit a (hfirst ▸ hdig)
  exact ⟨d, hd, rest, by rw [heq, hsecond, hthird]⟩

/-- A text the parser makes a root of is the path of a drive. -/
lemma path_of_parse {text : List Byte} {root : Word} (hzero : 0 ∉ text)
    (hpath : BytesAt s.mem path (text ++ [0]))
    (h : pathparserParse fuel s path = some (root, s')) (hroot : root ≠ 0) :
    1 ≤ freeBlocks s ∧ ∃ d < 10, ∃ rest, text = driveByte d :: 58 :: slash :: rest ∧
      rest.length ≤ 105 := by
  have hnot : ¬ Refused fuel s path := fun hrefused => hroot (hrefused.parse h).1
  obtain ⟨len, hstr, -⟩ := Option.bind_eq_some_iff.1 h
  simp only [Refused, not_or, not_exists, not_and, not_lt] at hnot
  obtain ⟨hshort, hdrive, hfree⟩ := hnot
  have hlen := strlenLoop_length hpath hzero (Nat.zero_le _) hstr
  have hmax := hshort len hstr
  have hvalid : pathparserPathValidFormat s.mem path := by
    by_contra hbad
    rw [pathparserGetDriveByPath, if_pos (by simpa using hbad)] at hdrive
    exact absurd hdrive (show ¬ (0 : ℤ) ≤ -ebadpath by decide)
  obtain ⟨d, hd, rest, rfl⟩ := drive_of_valid hpath hzero hvalid
  refine ⟨?_, d, hd, rest, rfl, ?_⟩
  · by_contra hnone
    exact hfree (freeBlocks_eq_zero.1 (by omega))
  · simp only [List.length_cons] at hlen
    unfold maxPathLength at hmax
    omega

/-- Nothing of the text is dropped exactly when, once a first part is made, no component but the
last is empty and there are two blocks for each component besides the root's. -/
theorem parsesWhole_iff {text : List Byte} (hlow : Low s.entries) (hzero : 0 ∉ text)
    (hpath : BytesAt s.mem path (text ++ [0]))
    (hlive : ∀ n ≤ text.length, pageOf (path + BitVec.ofNat 32 n) ∉ freePages s ∧
      pageOf (path + BitVec.ofNat 32 n) ≠ 0) (hfuel : 110 ≤ fuel) :
    ParsesWhole fuel s path text ↔ ∀ d < 10, ∀ rest, text = driveByte d :: 58 :: slash :: rest →
      rest.length ≤ 105 → 3 ≤ freeBlocks s → (rest.splitOn slash).headD [] ≠ [] →
        AllMade (freeBlocks s - 1) (rest.splitOn slash) := by
  have hat : ∀ d < 10, ∀ rest, text = driveByte d :: 58 :: slash :: rest → rest.length ≤ 105 →
      PathAt s path d rest := by
    rintro d hd rest rfl hlen
    have hrest : (0 : Byte) ∉ rest := by
      simp only [List.mem_cons, not_or] at hzero
      exact hzero.2.2.2
    exact ⟨hd, hrest, hlen, by simpa using hpath, fun n hn => hlive n (by simpa using hn)⟩
  have hpieces : ∀ rest : List Byte, ∀ c ∈ rest.splitOn slash, slash ∉ c :=
    fun rest c hc hmem => (mem_splitOn hc hmem).2 rfl
  constructor
  · intro hwhole d hd rest htext hlen hfree hhead
    have hpathAt := hat d hd rest htext hlen
    obtain ⟨root, s', hparse, hroot, hdrive, hlist⟩ := hpathAt.parse hlow (by omega) hfuel
    have hmade : partsMade (freeBlocks s - 1) (rest.splitOn slash) ≠ [] := by
      obtain ⟨c, more, hcons⟩ := List.exists_cons_of_ne_nil (List.splitOn_ne_nil slash rest)
      rw [hcons] at hhead ⊢
      have hgo : ¬ (c = [] ∨ freeBlocks s - 1 < 2) := by
        rw [not_or, not_lt]
        exact ⟨hhead, by omega⟩
      rw [partsMade, if_neg hgo]
      simp
    obtain ⟨trailing, hsame⟩ := hwhole root s' _ hparse hroot hmade
      (fun c hc => zero_not_mem_partsMade hpathAt.nonzero hc) hlist
    apply (intercalate_partsMade (hpieces rest) hmade).1
    refine ⟨trailing, ?_⟩
    rw [htext, pathText] at hsame
    rw [List.intercalate_splitOn]
    have htail := congrArg (List.drop 3) hsame
    exact htail
  · intro hcond root s' parts hparse hroot hne hparts hlist
    obtain ⟨hfree, d, hd, rest, htext, hlen⟩ := path_of_parse hzero hpath hparse hroot
    have hpathAt := hat d hd rest htext hlen
    obtain ⟨root', s'', hparse', -, hdrive, hlist'⟩ := hpathAt.parse hlow hfree hfuel
    rw [hparse] at hparse'
    cases hparse'
    have hmade := hlist.unique hlist' hparts fun c hc => zero_not_mem_partsMade hpathAt.nonzero hc
    subst hmade
    obtain ⟨c, more, hcons, hc, htwo, -⟩ := partsMade_cons hne
    have hall := hcond d hd rest htext hlen (by omega) (by rw [hcons]; exact hc)
    obtain ⟨trailing, hjoin⟩ := (intercalate_partsMade (hpieces rest) hne).2 hall
    refine ⟨trailing, ?_⟩
    rw [htext, pathText, hdrive, ← hjoin, List.intercalate_splitOn]
    rfl

/-- An empty heap with a path in memory. -/
def textKmem (text : List Byte) : Kmem :=
  emptyKmem.withMem (writeBytes emptyKmem.mem 0x1000 (text ++ [0]))

lemma textKmem_freeBlocks (text : List Byte) : freeBlocks (textKmem text) = 25600 := by
  have hall : ((Finset.range 25600).filter fun b => IsFree (textKmem text).entries b) =
      Finset.range 25600 :=
    Finset.filter_true_of_mem fun b hb => kheapInit_free _ _ (Finset.mem_range.1 hb)
  rw [freeBlocks, hall, Finset.card_range]

lemma textKmem_low (text : List Byte) : Low (textKmem text).entries :=
  ⟨-1, by decide, by decide, (by decide : NoNext emptyKmem.entries (-1))⟩

lemma textKmem_live (text : List Byte) {n : ℕ} (hn : n < 4096) :
    pageOf (0x1000 + BitVec.ofNat 32 n) ∉ freePages (textKmem text) ∧
      pageOf (0x1000 + BitVec.ofNat 32 n) ≠ 0 := by
  have hpage : pageOf (0x1000 + BitVec.ofNat 32 n) = 1 := pageOf_add (by rfl) hn
  rw [hpage]
  refine ⟨?_, one_ne_zero⟩
  rintro ⟨b, -, -, heq⟩
  omega

/-- The path `0:/bin/sh/`. -/
def shellPath : List Byte := [48, 58, slash, 98, 105, 110, slash, 115, 104, slash]

theorem parsesWhole_iff_shellPath : ParsesWhole 110 (textKmem shellPath) 0x1000 shellPath := by
  refine (parsesWhole_iff (textKmem_low _) (by decide) (writeBytes_bytesAt (by decide))
    (fun n hn => textKmem_live _ (Nat.lt_of_le_of_lt hn (by decide))) le_rfl).2 ?_
  intro d hd rest htext hlen hfree hhead
  obtain rfl : rest = shellPath.drop 3 := congrArg (List.drop 3) htext.symm
  rw [textKmem_freeBlocks]
  exact ⟨by decide, by decide⟩

/-- The path `0:/a//b`. -/
def doubleSlash : List Byte := [48, 58, slash, 97, slash, slash, 98]

lemma doubleSlash_at : PathAt (textKmem doubleSlash) 0x1000 0 [97, slash, slash, 98] :=
  ⟨by decide, by decide, by decide, writeBytes_bytesAt (by decide),
    fun n hn => textKmem_live _ (Nat.lt_of_le_of_lt hn (by decide))⟩

lemma doubleSlash_made : partsMade (freeBlocks (textKmem doubleSlash) - 1)
    (List.splitOn slash [97, slash, slash, 98]) = [[97]] := by
  rw [textKmem_freeBlocks]
  decide

/-- The second slash ends the path: the only part is `a`. -/
lemma doubleSlash_parse : ∃ root s', pathparserParse 110 (textKmem doubleSlash) 0x1000 =
    some (root, s') ∧ root ≠ 0 ∧ (read32 s'.mem root).toNat = 0 ∧
      PartList s' (read32 s'.mem (root + 4)) [[97]] := by
  rw [← doubleSlash_made]
  exact doubleSlash_at.parse (textKmem_low _) (by rw [textKmem_freeBlocks]; decide) le_rfl

theorem parsesWhole_doubleSlash : ¬ ParsesWhole 110 (textKmem doubleSlash) 0x1000 doubleSlash := by
  intro hwhole
  obtain ⟨root, s', hparse, hroot, -, hlist⟩ := doubleSlash_parse
  obtain ⟨trailing, htext⟩ := hwhole root s' [[97]] hparse hroot (by simp) (by decide) hlist
  have hlength := congrArg List.length htext
  cases trailing with
  | true => simp [pathText, doubleSlash] at hlength
  | false => simp [pathText, doubleSlash] at hlength

end AlphaOS.PathParser
