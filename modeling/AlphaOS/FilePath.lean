import AlphaOS.BlockKeeps
import AlphaOS.PathText

/-! The path of a file in the root directory: what `fopen` gets from the parser, and that the parser
leaves the allocations of others alone. -/
namespace AlphaOS.PathParser
open BlockHeap CString Files Kheap Paging WordMemory

variable {s s' s'' : Kmem} {path path' part last : Word} {fuel b m n : ℕ} {name : List Byte}

/-! The blocks that are taken one by one and given back. -/

/-- The blocks from `c` on are free. -/
def TailFree (s : Kmem) (c : ℕ) : Prop := ∀ b, c ≤ b → b < 25600 → IsFree s.entries b

/-- A request is served at the latest from the first of these blocks. -/
lemma TailFree.kzalloc {c : ℕ} {size : Word} (h : TailFree s c) (hpos : 0 < (heapBlocksFor size).toNat)
    (hroom : c + (heapBlocksFor size).toNat ≤ 25600) : (Kheap.kzalloc s size).1 ≠ 0 ∧
      TailFree (Kheap.kzalloc s size).2 (c + (heapBlocksFor size).toNat) := by
  have hfit : FitsAt s.entries 25600 (heapBlocksFor size).toNat c :=
    ⟨hroom, fun j hlow hhigh => h j hlow (by omega)⟩
  obtain ⟨b, hb, hleast, heq⟩ := kzalloc_room s hpos ⟨c, hfit⟩
  have hle : b ≤ c := by
    by_contra hlt
    exact hleast c (by omega) hfit
  have hpool := hb.1
  refine ⟨?_, fun j hlow hhigh => ?_⟩
  · rw [heq]
    exact blockAddr_ne_zero (by omega)
  · rw [heq, IsFree]
    change heapGetEntryType (overwrite s.entries b _ _ j) = entryFree
    rw [overwrite_natCast, if_neg (by omega)]
    exact h j (by omega) hhigh

lemma TailFree.kfree {c : ℕ} (h : TailFree s c) (ptr : Word) : TailFree (Kheap.kfree s ptr) c := by
  intro b hlow hhigh
  obtain ⟨m, -, heq⟩ := kfree_run s ptr
  rw [IsFree, heq]
  split_ifs
  · rfl
  · exact h b hlow hhigh

/-- From `s` to `s'` only single blocks were taken, at most `n` more than were freed. -/
structure Takes (n : ℕ) (s s' : Kmem) : Prop where
  single : ∀ x : ℤ, s'.entries x = s.entries x ∨ NoNext s'.entries x
  room : ∀ m, FreeAtLeast s (m + n) → FreeAtLeast s' m
  tail : ∀ c, c + n ≤ 25600 → TailFree s c → TailFree s' (c + n)

lemma Takes.refl (s : Kmem) : Takes 0 s s := ⟨fun _ => .inl rfl, fun _ h => h, fun _ _ h => h⟩

lemma Takes.trans (h : Takes m s s') (h' : Takes n s' s'') : Takes (m + n) s s'' := by
  constructor
  · intro x
    cases h'.single x with
    | inr hlast => exact .inr hlast
    | inl hsame =>
      cases h.single x with
      | inl hfirst => exact .inl (hsame.trans hfirst)
      | inr hlast =>
        right
        rwa [NoNext, hsame]
  · intro k hk
    apply h'.room
    apply h.room
    rwa [Nat.add_assoc, Nat.add_comm n m]
  · intro c hroom hfree
    rw [← Nat.add_assoc]
    exact h'.tail (c + m) (by omega) (h.tail c (by omega) hfree)

lemma Takes.withMem (h : Takes n s s') (mem : Mem) : Takes n s (s'.withMem mem) :=
  ⟨h.single, h.room, h.tail⟩

lemma FreeAtLeast.mono (h : FreeAtLeast s n) (hle : m ≤ n) : FreeAtLeast s m := hle.trans h

lemma takes_kzalloc (s : Kmem) {size : Word} (hsize : (heapBlocksFor size).toNat = 1) :
    Takes 1 s (kzalloc s size).2 := by
  cases kzalloc_single s hsize with
  | inl hfull =>
    rw [hfull.2]
    exact ⟨fun _ => .inl rfl, fun k hk => hk.mono k.le_succ, fun c _ hfree b hlow => hfree b (by omega)⟩
  | inr hfound =>
    obtain ⟨b, hb, hfree, heq⟩ := hfound
    constructor
    · intro x
      rw [heq]
      have hentry := take_one_entries s b x
      by_cases hx : x = b
      · right
        rw [if_pos hx] at hentry
        rw [NoNext]
        exact (congrArg (· &&& hasNext) hentry).trans (by decide)
      · left
        rwa [if_neg hx] at hentry
    · intro k hk
      obtain ⟨c, s', halloc, htook, -⟩ := kzalloc_took hsize ⟨b, hb, hfree⟩
      rw [halloc]
      exact htook.freeAtLeast hk
    · intro c hroom hfree
      rw [← hsize]
      exact (hfree.kzalloc (by omega) (by omega)).2

lemma takes_kfree (s : Kmem) (ptr : Word) : Takes 0 s (kfree s ptr) := by
  obtain ⟨k, -, heq⟩ := kfree_run s ptr
  constructor
  · intro x
    rw [NoNext, heq]
    split_ifs
    · exact .inr (by decide)
    · exact .inl rfl
  · intro k hk
    apply hk.trans
    apply Finset.card_le_card
    intro c hc
    simp only [Finset.mem_filter] at hc ⊢
    refine ⟨hc.1, ?_⟩
    rw [IsFree, heq]
    split_ifs
    · rfl
    · exact hc.2
  · exact fun _ _ hfree => hfree.kfree ptr

lemma Takes.linked (h : Takes n s s') (hlinked : Linked s.entries)
    (hkept : ∀ b < 25600, ¬ IsFree s.entries b → s'.entries b = s.entries b) : Linked s'.entries := by
  have hsingle : ∀ x, NoNext s.entries x → NoNext s'.entries x := by
    intro x hx
    cases h.single x with
    | inl hsame => rwa [NoNext, hsame]
    | inr hlast => exact hlast
  constructor
  · intro j hj hnext
    have htaken := hlinked.next j hj fun hlast => hnext (hsingle j hlast)
    rw [IsFree, hkept (j + 1) hj (by exact_mod_cast htaken)]
    exact_mod_cast htaken
  · obtain ⟨j, hlow, hlt, hlast⟩ := hlinked.low
    exact ⟨j, hlow, hlt, hsingle j hlast⟩

lemma Takes.pinned (h : Takes n s s') (hpool : b + m ≤ 25600)
    (hkept : ∀ b < 25600, ¬ IsFree s.entries b → s'.entries b = s.entries b)
    (hpin : Pinned s.entries b m) : Pinned s'.entries b m := by
  constructor
  · intro j hlow hhigh
    rw [IsFree, hkept j (by omega) (hpin.taken j hlow hhigh)]
    exact hpin.taken j hlow hhigh
  · obtain ⟨j, hlow, hlt, hfirst, hlast⟩ := hpin.barrier
    refine ⟨j, hlow, hlt, hfirst, ?_⟩
    cases h.single j with
    | inl hsame => rwa [NoNext, hsame]
    | inr hsingle => exact hsingle

/-- Allocations of others keep their blocks and what is in them. -/
lemma Takes.keepsRun (h : Takes n s s') (hkept : Kept s s' ∅) (hpool : b + m ≤ 25600) :
    KeepsRun b m s s' := by
  refine ⟨fun hs => h.linked hs hkept.entries, h.pinned hpool hkept.entries, fun hpin x hlow hhigh => ?_⟩
  apply hkept.mem x _ (Set.notMem_empty x)
  rintro ⟨c, hc, hfree, hpage⟩
  exact hpin.taken c (by omega) (by omega) hfree

/-! The functions of the parser. -/

lemma createRoot_takes (s : Kmem) (d : ℤ) : Takes 1 s (pathparserCreateRoot s d).2 :=
  (takes_kzalloc s (by decide)).withMem _

lemma getPathPart_takes (h : pathparserGetPathPart fuel s path = some (part, path', s')) :
    Takes 1 s s' := by
  have htaken := @takes_kzalloc s 108 (by decide)
  obtain ⟨r, -, heq⟩ := Option.map_eq_some_iff.1 h
  split_ifs at heq
  · simp only [Prod.mk.injEq] at heq
    rw [← heq.2.2]
    exact (htaken.withMem _).trans (takes_kfree _ _)
  · simp only [Prod.mk.injEq] at heq
    rw [← heq.2.2]
    exact htaken.withMem _

lemma parsePathPart_takes (h : pathparserParsePathPart fuel s last path = some (part, path', s')) :
    Takes 2 s s' := by
  obtain ⟨⟨text, next, s₁⟩, hpart, heq⟩ := Option.map_eq_some_iff.1 h
  have hfirst := getPathPart_takes hpart
  by_cases hnull : text = 0
  · rw [if_pos hnull] at heq
    simp only [Prod.mk.injEq] at heq
    rw [← heq.2.2]
    exact ⟨hfirst.single, fun k hk => (hfirst.room (k + 1) hk).mono k.le_succ,
      fun c hroom hfree b hlow => hfirst.tail c (by omega) hfree b (by omega)⟩
  · rw [if_neg hnull] at heq
    simp only [Prod.mk.injEq] at heq
    rw [← heq.2.2]
    exact hfirst.trans ((takes_kzalloc s₁ (by decide)).withMem _)

/-! The path of one name. -/

/-- A name of a file is one component. -/
def FileName (name : List Byte) : Prop := name ≠ [] ∧ slash ∉ name

lemma pathFrom_name (name : List Byte) : pathFrom false [name] = name ++ [0] := by
  simp [pathFrom, separator]

lemma FileName.splitOn (h : FileName name) : name.splitOn slash = [name] :=
  List.splitOn_eq_singleton h.2

/-- Behind a root the part of the name goes to new blocks, and the root links to it. -/
lemma parseParts_kept {r : ℕ} (hr : Held s r) (hpath : BytesAt s.mem path (pathFrom false [name]))
    (hapart : TextApart s 0 path (pathFrom false [name]))
    (hrapart : ∀ n < (pathFrom false [name]).length, pageOf (path + BitVec.ofNat 32 n) ≠ 4096 + r)
    (hname : Component name) (hfree : FreeAtLeast s 3) (hfuel : name.length + 1 < fuel) :
    ∃ s', parseParts fuel s (blockAddr r) path = some (blockAddr r, s') ∧
      Kept s s' {x | InRange (blockAddr r + 4) 4 x} ∧ Takes 4 s s' := by
  have hrlt := hr.1
  obtain ⟨q, s₂, path', hparse, hnode, hpath', hapart', k, rfl, hk⟩ :=
    parsePathPart_component fuel (.inl rfl) (hfree.mono (by omega)) hpath hapart hname (by omega)
  have hq := hnode.held.1
  have hqzero : blockAddr q ≠ 0 := blockAddr_ne_zero (by omega)
  have hrq : r ≠ q := by
    rintro rfl
    exact hr.not_free hnode.fresh
  -- the root's link to the node
  let s₃ := s₂.withMem (write32 s₂.mem (blockAddr r + 4) (blockAddr q))
  obtain ⟨hlink, -, hsame⟩ := setLink_kept s₂ hrlt hq hrq (blockAddr q)
  have hpos := pathFrom_length_pos false []
  have hzero : s₃.mem (path + BitVec.ofNat 32 k) = 0 := by
    have hlast : s₂.mem (path + BitVec.ofNat 32 k) = 0 := hpath'.1
    rw [← hlast]
    exact hsame _ (hrapart k (by omega))
  have hlive : pageOf (path + BitVec.ofNat 32 k) ∉ freePages s₃ := by
    have hstart := (hapart' 0 hpos).1
    rwa [BitVec.add_zero] at hstart
  -- behind the name the path ends
  have hroom : FreeAtLeast s₃ 1 := hnode.room 1 hfree
  obtain ⟨s₄, hempty, hkept⟩ := getPathPart_empty fuel hroom.exists_free hzero hlive (by omega)
  have hend : pathparserParsePathPart fuel s₃ (blockAddr q) (path + BitVec.ofNat 32 k) =
      some (0, path + BitVec.ofNat 32 k, s₄) := by
    rw [pathparserParsePathPart, hempty, Option.map_some, if_pos rfl]
  have hloop : parsePartsLoop fuel s₄ 0 (path + BitVec.ofNat 32 k) = some s₄ := by
    obtain ⟨f, rfl⟩ : ∃ f, fuel = f + 1 := ⟨fuel - 1, by omega⟩
    rw [parsePartsLoop, if_pos rfl]
  refine ⟨s₄, ?_, ?_, ?_⟩
  · rw [parseParts, hparse, Option.bind_some, if_neg hqzero]
    change (pathparserParsePathPart fuel s₃ (blockAddr q) (path + BitVec.ofNat 32 k)).bind _ = _
    rw [hend, Option.bind_some, hloop, Option.map_some]
  · have hnew : Kept s s₂ {x | InRange (blockAddr r + 4) 4 x} :=
      hnode.kept.mono fun x hx => absurd rfl hx.1
    exact (hnew.trans hlink fun x hx => .inr hx).trans hkept fun x hx => absurd hx (Set.notMem_empty x)
  · exact ((parsePathPart_takes hparse).withMem _).trans (parsePathPart_takes hend)

/-- What the parser made of the path of a file in the root directory: a root for drive 0 with one part,
in new blocks. -/
structure ParsedFile (s s' : Kmem) (root : Word) (name : List Byte) : Prop where
  root_ne : root ≠ 0
  drive : read32 s'.mem root = 0
  part : PartList s' (read32 s'.mem (root + 4)) [name]
  kept : Kept s s' ∅
  takes : Takes 5 s s'

theorem PathAt.parse_file (h : PathAt s path 0 name) (hlow : Low s.entries) (hname : FileName name)
    (hfree : FreeAtLeast s 4) (hfuel : 110 ≤ fuel) :
    ∃ root s', pathparserParse fuel s path = some (root, s') ∧ ParsedFile s s' root name := by
  have hshort := h.short
  have hstr : strlen fuel s.mem path = some (name.length + 3) :=
    strlen_eq (show BytesAt s.mem path ((driveByte 0 :: 58 :: slash :: name) ++ [0]) from h.bytes)
      h.no_zero (by simp; omega)
  have hfit : ¬ name.length + 3 > maxPathLength := by
    unfold maxPathLength
    omega
  obtain ⟨r, s₁, hroot, htook, hr, hkept, -⟩ := createRoot_spec hfree.exists_free 0
  have hrlt := hr.1
  have hrzero : blockAddr r ≠ 0 := blockAddr_ne_zero (by omega)
  have hrfresh := mem_freePages.2 (htook.fresh r rfl)
  have htakes : Takes 1 s s₁ := by
    have htakes := createRoot_takes s 0
    rwa [show (0 : ℤ) = ((0 : ℕ) : ℤ) from rfl, hroot] at htakes
  obtain ⟨hpath, hapart, -⟩ := h.components hkept
  rw [hname.splitOn] at hpath hapart
  have hcomponent : Component name := by
    refine ⟨hname.1, fun x hx => ⟨?_, ?_⟩, by omega⟩
    · rintro rfl
      exact hname.2 hx
    · rintro rfl
      exact h.nonzero hx
  have hrapart : ∀ n < (pathFrom false [name]).length,
      pageOf (path + 3 + BitVec.ofNat 32 n) ≠ 4096 + r := by
    intro n hn hpage
    rw [pathFrom_name, List.length_append, List.length_singleton] at hn
    have hlive := (h.live (3 + n) (by omega)).1
    rw [BitVec.ofNat_add, ← BitVec.add_assoc] at hlive
    exact hlive (hpage ▸ hrfresh)
  obtain ⟨s', hparts, hkept', htakes'⟩ := parseParts_kept hr hpath hapart hrapart hcomponent
    (htook.freeAtLeast hfree) (show name.length + 1 < fuel by omega)
  have hparse : pathparserParse fuel s path = some (blockAddr r, s') := by
    rw [pathparserParse, hstr]
    simp only [Option.bind_some, h.drive, hroot, if_neg hrzero, if_neg hfit]
    rw [if_neg (Int.natCast_nonneg 0).not_gt]
    exact hparts
  -- the parts are those of the text
  obtain ⟨root, s'', hsame, -, hdrive, hlist⟩ := h.parse hlow (le_trans (by omega) hfree) hfuel
  rw [hparse] at hsame
  cases hsame
  refine ⟨_, _, hparse, hrzero, BitVec.eq_of_toNat_eq hdrive, ?_, ?_, htakes.trans htakes'⟩
  · have hall : partsMade (freeBlocks s - 1) [name] = [name] := by
      have hroom := freeAtLeast_iff.1 hfree
      rw [partsMade, if_neg (not_or.2 ⟨hname.1, by omega⟩), partsMade]
    rwa [hname.splitOn, hall] at hlist
  · exact hkept.trans hkept' fun x hx => .inl (by rwa [InRange.pageOf_next hrlt hx])

end AlphaOS.PathParser
