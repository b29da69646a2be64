import AlphaOS.Fat16Making
import AlphaOS.Fat16Resolve
import AlphaOS.FilePath
import AlphaOS.OpenFile

/-! `fopen` of a file in the root directory of a volume: the blocks it takes and what it makes of
the descriptors. -/
namespace AlphaOS.Fat16
open BlockHeap CString Files Kheap Paging PathParser Streamer WordMemory

variable {s s' s'' : Kmem} {size : Word} {b c m n : ℕ}

/-! New blocks. -/

/-- All allocations and what is in them stay. -/
def KeepsAll (s s' : Kmem) : Prop := ∀ b n, 0 < n → b + n ≤ 25600 → KeepsRun b n s s'

lemma KeepsAll.trans (h : KeepsAll s s') (h' : KeepsAll s' s'') : KeepsAll s s'' :=
  fun b n hn hpool => (h b n hn hpool).trans (h' b n hn hpool)

lemma KeepsAll.linked (h : KeepsAll s s') (hlinked : Linked s.entries) : Linked s'.entries :=
  (h 0 1 one_pos (by omega)).linked hlinked

lemma KeepsAll.pinned (h : KeepsAll s s') (hc : c < 25600) (hpin : Pinned s.entries c 1) :
    Pinned s'.entries c 1 := (h c 1 one_pos (by omega)).pinned hpin

/-- A block that is taken keeps its bytes. -/
lemma KeepsAll.block (h : KeepsAll s s') (hc : c < 25600) (hpin : Pinned s.entries c 1) {j : ℕ}
    (hj : j < 4096) : s'.mem (blockAddr c + BitVec.ofNat 32 j) = s.mem (blockAddr c + BitVec.ofNat 32 j) := by
  have hpage := pageOf_blockAddr_add hc hj
  exact (h c 1 one_pos (by omega)).mem hpin _ (by omega) (by omega)

/-- From `s` to `s'` the block `c` was taken. -/
structure NewBlock (s s' : Kmem) (c : ℕ) : Prop where
  lt : c < 25600
  free : IsFree s.entries c
  pinned : Pinned s'.entries c 1
  takes : Takes 1 s s'
  pages : freePages s' ⊆ freePages s
  keeps : KeepsAll s s'

/-- A request of a block with what is stored in it. -/
lemma kzalloc_newBlock (hlinked : Linked s.entries) (hfree : FreeAtLeast s 1)
    (hsize : (heapBlocksFor size).toNat = 1) (hlt : size.toNat < 2 ^ 31) :
    ∃ c, (kzalloc s size).1 = blockAddr c ∧ ∀ mem : Mem,
      (∀ x, ¬ InRange (blockAddr c) size.toNat x → mem x = (kzalloc s size).2.mem x) →
      NewBlock s ((kzalloc s size).2.withMem mem) c := by
  obtain ⟨c, s', halloc, htook, hc, -⟩ := kzalloc_took hsize hfree.exists_free
  have haddr : (kzalloc s size).1 = blockAddr c := congrArg Prod.fst halloc
  have hpin := kzalloc_pinnedAt hlinked haddr hc (by omega)
  have hentries : (kzalloc s size).2 = s' := congrArg Prod.snd halloc
  have hpages := (htook.kept (W := Set.univ) fun x _ hx => absurd (Set.mem_univ x) hx).freePages_subset
  rw [← hentries] at hpages
  refine ⟨c, haddr, fun mem hmem => ⟨hc, (htook.fresh c rfl).2, hpin,
    (takes_kzalloc s hsize).withMem mem, hpages, ?_⟩⟩
  intro b n hn hpool
  apply keepsRun_store hn hpool hlt
  intro x hx
  have hout : ¬ InRange (blockAddr c) size.toNat x := by
    rw [← haddr]
    exact hx (haddr ▸ blockAddr_ne_zero (by omega))
  exact (hmem x hout).trans (kzalloc_mem_of_not hx)

/-- A request of a block that is left empty. -/
lemma kzalloc_newBlock_clear (hlinked : Linked s.entries) (hfree : FreeAtLeast s 1)
    (hsize : (heapBlocksFor size).toNat = 1) (hlt : size.toNat < 2 ^ 31) :
    ∃ c, (kzalloc s size).1 = blockAddr c ∧ NewBlock s (kzalloc s size).2 c := by
  obtain ⟨c, haddr, hnew⟩ := kzalloc_newBlock hlinked hfree hsize hlt
  exact ⟨c, haddr, hnew _ fun _ _ => rfl⟩

lemma NewBlock.linked (h : NewBlock s s' c) (hlinked : Linked s.entries) : Linked s'.entries :=
  h.keeps.linked hlinked

lemma NewBlock.room (h : NewBlock s s' c) (hfree : FreeAtLeast s (n + 1)) : FreeAtLeast s' n :=
  h.takes.room n hfree

/-- It is none of the blocks that were taken before. -/
lemma NewBlock.ne (h : NewBlock s s' c) (hpin : Pinned s.entries b 1) : b ≠ c := by
  rintro rfl
  exact hpin.not_free h.free

lemma NewBlock.fresh (h : NewBlock s s' c) : Fresh s (blockAddr c) := by
  intro b hb hpin heq
  have hlt := h.lt
  exact h.ne hpin (blockAddr_inj (by omega) (by omega) heq)

lemma Fresh.before {ptr : Word} (h : Fresh s' ptr) (hkeeps : KeepsAll s s') : Fresh s ptr :=
  h.of_pinned fun _ hc hpin => hkeeps.pinned hc hpin

/-- The pages of what begins at a block. -/
lemma pageOf_inBlock (hc : c < 25600) (hn : n ≤ 4096) {x : Word} (hx : InRange (blockAddr c) n x) :
    pageOf x = 4096 + c := by
  have hoff : blockAddr c + BitVec.ofNat 32 (x - blockAddr c).toNat = x := by
    rw [BitVec.ofNat_toNat, BitVec.setWidth_eq, add_sub_cancel]
  rw [← hoff]
  exact pageOf_blockAddr_add hc (lt_of_lt_of_le hx hn)

/-! The item of a file. -/

/-- The bytes that are copied. -/
lemma memcpy_copied {mem : Mem} {dest src : Word} (hn : n < 2 ^ 32)
    (hapart : ∀ j < n, ¬ InRange dest n (src + BitVec.ofNat 32 j)) {j : ℕ} (hj : j < n) :
    memcpy mem dest src n (dest + BitVec.ofNat 32 j) = mem (src + BitVec.ofNat 32 j) := by
  induction n generalizing mem dest src j with
  | zero => omega
  | succ n ih =>
    have hsplit : ∀ x, InRange dest (n + 1) x ↔ InRange dest 1 x ∨ InRange (dest + 1) n x := by
      intro x
      rw [Nat.add_comm]
      exact (inRange_split dest x (show 1 + n < 2 ^ 32 by omega)).1
    have hback : (dest - (dest + 1)).toNat = 2 ^ 32 - 1 := by
      rw [sub_add_cancel_left]
      decide
    have hfirst : ∀ i < n + 1, src + BitVec.ofNat 32 i ≠ dest := by
      intro i hi heq
      apply hapart i hi
      simp [heq, InRange]
    rw [memcpy]
    cases j with
    | zero =>
      have hout : ¬ InRange (dest + 1) n dest := by
        rw [InRange, hback]
        omega
      rw [BitVec.add_zero, BitVec.add_zero, memcpy_of_not (by omega) hout, Function.update_self]
    | succ j =>
      have hnext : ∀ a : Word, a + BitVec.ofNat 32 (j + 1) = a + 1 + BitVec.ofNat 32 j :=
        fun a => (add_one_add a j).symm
      have hrest := @ih (Function.update mem dest (mem src)) (dest + 1) (src + 1) (by omega)
        (fun i hi hin => hapart (i + 1) (by omega) ((hsplit _).2 (.inr (by
          rwa [← add_one_add])))) j (by omega)
      rw [hnext, hrest, ← hnext, Function.update_of_ne (hfirst (j + 1) hj)]

variable {fuel : ℕ} {disk : Disk} {k k' : FatState} {entry : Word}

/-- The entry of a directory lies apart from the free blocks. -/
def EntryLive (s : Kmem) (entry : Word) : Prop :=
  ∀ j < sizeofDirectoryItem, pageOf (entry + BitVec.ofNat 32 j) ∉ freePages s

/-- A small request leaves the bytes apart from the free blocks. -/
lemma EntryLive.kzalloc (h : EntryLive s entry) (hsize : (heapBlocksFor size).toNat = 1)
    (hle : size.toNat ≤ 4096) {j : ℕ} (hj : j < sizeofDirectoryItem) :
    (kzalloc s size).2.mem (entry + BitVec.ofNat 32 j) = s.mem (entry + BitVec.ofNat 32 j) :=
  kzalloc_mem_of_live hsize hle (h j hj)

lemma attributes_eq (mem : Mem) (entry : Word) :
    FatDirectoryItem.attributes (pointer mem entry) = mem (entry + BitVec.ofNat 32 11) := rfl

/-- A copy of an entry in a new block. -/
lemma fat16CloneDirectoryItem_copies (k : FatState) (hlinked : Linked s.entries) (hfree : FreeAtLeast s 1)
    (hlive : EntryLive s entry) : ∃ l r, fat16CloneDirectoryItem k s entry sizeofDirectoryItem = r ∧
      r.1 = blockAddr l ∧ NewBlock s r.2.2 l ∧ r.2.1 = k.log (.made r.1) ∧
      ∀ j < sizeofDirectoryItem,
        r.2.2.mem (blockAddr l + BitVec.ofNat 32 j) = s.mem (entry + BitVec.ofNat 32 j) := by
  obtain ⟨l, haddr, hnew⟩ := @kzalloc_newBlock s (BitVec.ofNat 32 sizeofDirectoryItem) hlinked hfree
    (by decide) (by decide)
  have hblock := hnew _ fun _ _ => rfl
  have hl := hblock.lt
  have hwidth : (BitVec.ofNat 32 sizeofDirectoryItem).toNat = sizeofDirectoryItem := by decide
  have hsame := fun j hj => @EntryLive.kzalloc s (BitVec.ofNat 32 sizeofDirectoryItem) entry hlive
    (by decide) (by decide) j hj
  have hapart : ∀ j < sizeofDirectoryItem,
      ¬ InRange (blockAddr l) sizeofDirectoryItem (entry + BitVec.ofNat 32 j) := by
    intro j hj hin
    apply hlive j hj
    rw [pageOf_inBlock hl (by decide) hin]
    exact mem_freePages.2 ⟨hl, hblock.free⟩
  have hkept : ∀ x, ¬ InRange (blockAddr l) sizeofDirectoryItem x →
      memcpy (kzalloc s (BitVec.ofNat 32 sizeofDirectoryItem)).2.mem (blockAddr l) entry
        sizeofDirectoryItem x = (kzalloc s (BitVec.ofNat 32 sizeofDirectoryItem)).2.mem x :=
    fun x hx => memcpy_of_not (by decide) hx
  have hcopied := fun j hj => @memcpy_copied sizeofDirectoryItem
    (kzalloc s (BitVec.ofNat 32 sizeofDirectoryItem)).2.mem (blockAddr l) entry (by decide) hapart j hj
  rw [fat16CloneDirectoryItem, if_neg (lt_irrefl _)]
  dsimp only
  rw [haddr, if_neg (blockAddr_ne_zero (by omega))]
  rw [hwidth] at hnew
  generalize memcpy _ (blockAddr l) entry sizeofDirectoryItem = mem at hkept hcopied ⊢
  exact ⟨l, _, rfl, rfl, hnew mem hkept, rfl, fun j hj => (hcopied j hj).trans (hsame j hj)⟩

/-- An entry that is no subdirectory is made the item of a file, with a copy of the entry. -/
lemma fat16NewFatItem_regular (hlinked : Linked s.entries) (hfree : FreeAtLeast s 2)
    (hlive : EntryLive s entry)
    (hfile : FatDirectoryItem.attributes (pointer s.mem entry) &&& fatFileSubdirectory = 0) :
    ∃ c l s₁ r, fat16NewFatItemForDirectoryItem fuel disk k s entry = some r ∧ r.1 = blockAddr c ∧
      NewBlock s s₁ c ∧ NewBlock s₁ r.2.2 l ∧
      r.2.1.items = Function.update k.items (blockAddr c) ⟨blockAddr l, .file⟩ ∧
      r.2.1.descriptors = k.descriptors ∧ r.2.1.fsPrivate = k.fsPrivate ∧
      ∀ j < sizeofDirectoryItem,
        r.2.2.mem (blockAddr l + BitVec.ofNat 32 j) = s.mem (entry + BitVec.ofNat 32 j) := by
  obtain ⟨c, hitem, hnew⟩ := @kzalloc_newBlock_clear s 8 hlinked (hfree.mono one_le_two) (by decide)
    (by decide)
  have hc := hnew.lt
  have hsame := fun j hj => @EntryLive.kzalloc s 8 entry hlive (by decide) (by decide) j hj
  have hlive' : EntryLive (kzalloc s 8).2 entry := fun j hj hmem => hlive j hj (hnew.pages hmem)
  obtain ⟨l, clone, hclone, haddr, hnew', hlog, hbytes⟩ := fat16CloneDirectoryItem_copies
    (k.log (.made (blockAddr c))) (hnew.linked hlinked) (hnew.room hfree) hlive'
  have hplain : FatDirectoryItem.attributes (pointer (kzalloc s 8).2.mem entry) &&&
      fatFileSubdirectory = 0 := by
    rw [attributes_eq, hsame 11 (by decide)]
    exact hfile
  refine ⟨c, l, (kzalloc s 8).2,
    (blockAddr c, clone.2.1.setItem (blockAddr c) ⟨clone.1, .file⟩, clone.2.2), ?_, rfl, hnew, hnew', ?_, ?_⟩
  · unfold fat16NewFatItemForDirectoryItem
    dsimp only
    rw [hitem, if_neg (blockAddr_ne_zero (by omega)), if_neg (not_not.2 hplain), hclone]
  · simp only [hlog, haddr]
    rfl
  · exact ⟨by rw [hlog]; rfl, by rw [hlog]; rfl, fun j hj => (hbytes j hj).trans (hsame j hj)⟩

/-! The lookup of a file by name. -/

/-- A directory whose entries stand whole in the `m` blocks from `b` on. -/
structure DirectoryStored (fuel : ℕ) (s : Kmem) (d : FatDirectory) (C : Content) (b m : ℕ) : Prop
    extends Listing fuel s d C b m where
  nonempty : 0 < m
  bytes : ∀ i < C.total, ∀ j < sizeofDirectoryItem,
    s.mem (d.entry i + BitVec.ofNat 32 j) = C.entry i j ∧
    4096 + b ≤ pageOf (d.entry i + BitVec.ofNat 32 j) ∧
    pageOf (d.entry i + BitVec.ofNat 32 j) < 4096 + (b + m)

variable {d : FatDirectory} {C : Content} {name : List Byte} {i j : ℕ} {path : Word}

lemma DirectoryStored.keeps (h : DirectoryStored fuel s d C b m) (hkept : KeepsRun b m s s') :
    DirectoryStored fuel s' d C b m := by
  refine ⟨h.toListing.keeps hkept, h.nonempty, fun i hi j hj => ?_⟩
  obtain ⟨hbyte, hlow, hhigh⟩ := h.bytes i hi j hj
  refine ⟨?_, hlow, hhigh⟩
  rw [← hbyte]
  exact hkept.mem h.pinned _ hlow hhigh

lemma DirectoryStored.keepsAll (h : DirectoryStored fuel s d C b m) (hkept : KeepsAll s s') :
    DirectoryStored fuel s' d C b m :=
  h.keeps (hkept b m h.nonempty h.blocks.pool)

lemma DirectoryStored.entryLive (h : DirectoryStored fuel s d C b m) (hi : i < C.total) :
    EntryLive s (d.entry i) := by
  rintro j hj ⟨c, hc, hfree, hpage⟩
  obtain ⟨-, hlow, hhigh⟩ := h.bytes i hi j hj
  exact h.pinned.taken c (by omega) (by omega) hfree

/-- The entry `j` is a file, and the only one of this name. -/
structure NamedFile (fuel : ℕ) (C : Content) (name : List Byte) (j : ℕ) : Prop where
  counted : j < C.total
  named : HasName fuel (C.entry j) (literal name)
  only : ∀ i < C.total, HasName fuel (C.entry i) (literal name) → i = j
  file : FatDirectoryItem.attributes (C.entry j) &&& fatFileSubdirectory = 0

/-- A name that stands in memory is found like the name itself. -/
lemma hasName_iff {mem : Mem} {t : Word} (hbytes : BytesAt mem t (name ++ [0])) {item : FatDirectoryItem} :
    HasName fuel item (pointer mem t) ↔ HasName fuel item (literal name) := by
  have hsame : ∀ l : ℕ, l ≤ name.length → pointer mem t l = literal name l := by
    intro l hl
    have hbyte := hbytes.get (show l < (name ++ [0]).length by simp; omega)
    rw [pointer, BitVec.ofInt_natCast, hbyte, literal, Int.toNat_natCast]
    rcases Nat.lt_or_eq_of_le hl with hlt | rfl
    · simp [hlt]
    · simp
  have hzero : literal name name.length = 0 := by simp [literal]
  constructor
  · intro h
    exact h.congr ((hsame _ le_rfl).trans hzero) fun l hl => (hsame l hl).symm
  · intro h
    exact h.congr hzero hsame

/-- Its item is made, with a copy of its entry. -/
lemma DirectoryStored.find_file (h : DirectoryStored fuel s k.fsPrivate.rootDirectory C b m)
    (hready : Ready disk k.fsPrivate) (hfuel : fuel < 2 ^ 26) (hfree : FreeAtLeast s 2)
    (hfile : NamedFile fuel C name j) {t : Word} (hname : BytesAt s.mem t (name ++ [0])) :
    ∃ c l s₁ r, fat16FindItemInDirectory fuel disk k s k.fsPrivate.rootDirectory (pointer s.mem t) = some r ∧
      r.1 = blockAddr c ∧ NewBlock s s₁ c ∧ NewBlock s₁ r.2.2 l ∧
      r.2.1.items = Function.update k.items (blockAddr c) ⟨blockAddr l, .file⟩ ∧
      r.2.1.descriptors = k.descriptors ∧ r.2.1.fsPrivate = k.fsPrivate ∧
      ∀ n < sizeofDirectoryItem, r.2.2.mem (blockAddr l + BitVec.ofNat 32 n) = C.entry j n := by
  have hj := hfile.counted
  have hplain : FatDirectoryItem.attributes (pointer s.mem (k.fsPrivate.rootDirectory.entry j)) &&&
      fatFileSubdirectory = 0 := by
    rw [attributes_eq, (h.bytes j hj 11 (by decide)).1]
    exact hfile.file
  obtain ⟨c, l, s₁, r, hnew, haddr, hblock, hblock', hitems, hdescriptors, hprivate, hbytes⟩ :=
    @fat16NewFatItem_regular s fuel disk k _ h.linked hfree (h.entryLive hj) hplain
  have hfind := h.find_only hready hfuel hj ((hasName_iff hname).2 hfile.named)
    (fun i hi hi' => hfile.only i hi ((hasName_iff hname).1 hi')) hnew
  refine ⟨c, l, s₁, r, hfind, haddr, hblock, hblock', hitems, hdescriptors, hprivate, fun n hn => ?_⟩
  rw [hbytes n hn]
  exact (h.bytes j hj n hn).1

/-- The part of a name as the parser leaves it. -/
lemma partList_name (h : PartList s path [name]) : ∃ q t, path = blockAddr q ∧ Held s q ∧
    read32 s.mem path = blockAddr t ∧ Held s t ∧ BytesAt s.mem (blockAddr t) (name ++ [0]) ∧
    name.length < 108 ∧ read32 s.mem (path + 4) = 0 := by
  obtain ⟨q, t, hpath, hq, htext, ht, hbytes, hshort, hnext⟩ := h
  exact ⟨q, t, hpath, hq, htext, ht, hbytes, hshort, hnext⟩

/-- A small request leaves the part of a name. -/
lemma partList_kzalloc (h : PartList s path [name]) (hsize : (heapBlocksFor size).toNat = 1)
    (hle : size.toNat ≤ 4096) : ∃ t, read32 (kzalloc s size).2.mem path = t ∧
      read32 (kzalloc s size).2.mem (path + 4) = 0 ∧ BytesAt (kzalloc s size).2.mem t (name ++ [0]) := by
  obtain ⟨q, t, rfl, hq, htext, ht, hbytes, hshort, hnext⟩ := partList_name h
  have hqlt := hq.1
  have hsame : ∀ x, pageOf x = 4096 + q → (kzalloc s size).2.mem x = s.mem x := by
    intro x hx
    apply kzalloc_mem_of_live hsize hle
    rw [hx]
    exact not_mem_freePages hq
  refine ⟨blockAddr t, ?_, ?_, hbytes.congr fun n hn => ?_⟩
  · rw [← htext]
    exact read32_eq_of_same fun x hx => hsame x (pageOf_inBlock hqlt (by decide) hx)
  · rw [← hnext]
    exact read32_eq_of_same fun x hx => hsame x (InRange.pageOf_next hqlt hx)
  · rw [List.length_append, List.length_singleton] at hn
    apply kzalloc_mem_of_live hsize hle
    rw [pageOf_blockAddr_add ht.1 (by omega)]
    exact not_mem_freePages ht

lemma pathParts_null (mem : Mem) (hfuel : 0 < fuel) : pathParts mem fuel 0 = some [] := by
  obtain ⟨f, rfl⟩ := Nat.exists_eq_succ_of_ne_zero hfuel.ne'
  rw [pathParts, if_pos rfl]

/-- `fat16_open` of the path of a file. -/
lemma DirectoryStored.fat16Open_file (h : DirectoryStored fuel s k.fsPrivate.rootDirectory C b m)
    (hready : Ready disk k.fsPrivate) (hpos : 0 < fuel) (hfuel : fuel < 2 ^ 26) (hfree : FreeAtLeast s 3)
    (hfile : NamedFile fuel C name j) (hpart : PartList s path [name]) :
    ∃ f c l s₁ s₂ r, fat16Open fuel disk k s path .read = some r ∧ r.1 = blockAddr f ∧
      NewBlock s s₁ f ∧ NewBlock s₁ s₂ c ∧ NewBlock s₂ r.2.2 l ∧
      r.2.1.items = Function.update k.items (blockAddr c) ⟨blockAddr l, .file⟩ ∧
      r.2.1.descriptors = Function.update k.descriptors (blockAddr f) ⟨blockAddr c, 0⟩ ∧
      r.2.1.fsPrivate = k.fsPrivate ∧
      ∀ n < sizeofDirectoryItem, r.2.2.mem (blockAddr l + BitVec.ofNat 32 n) = C.entry j n := by
  obtain ⟨f, haddr, hnew⟩ := @kzalloc_newBlock_clear s 8 h.linked (hfree.mono (by omega)) (by decide)
    (by decide)
  have hf := hnew.lt
  obtain ⟨t, htext, hnext, hname⟩ := @partList_kzalloc s 8 name path hpart (by decide) (by decide)
  obtain ⟨c, l, s₂, r, hfind, hitem, hblock, hblock', hitems, hdescriptors, hprivate, hbytes⟩ :=
    (h.keepsAll hnew.keeps).find_file hready hfuel (hnew.room hfree) hfile hname
  have hc := hblock.lt
  have hne : r.1 ≠ 0 := by
    rw [hitem]
    exact blockAddr_ne_zero (by omega)
  refine ⟨f, c, l, (kzalloc s 8).2, s₂, (blockAddr f, r.2.1.setDescriptor (blockAddr f) ⟨r.1, 0⟩, r.2.2),
    ?_, rfl, hnew, hblock, hblock', hitems, ?_, hprivate, hbytes⟩
  · unfold fat16Open
    dsimp only
    rw [if_neg (not_not.2 rfl), haddr, if_neg (blockAddr_ne_zero (by omega)), hnext,
      pathParts_null _ hpos, Option.bind_some, fat16GetDirectoryEntry, htext, hfind, Option.bind_some,
      if_neg hne, directoryEntryLoop, Option.map_some, if_neg hne]
  · rw [← hitem, FatState.setDescriptor, hdescriptors]

/-- `fat16_open` of the path of a name that no entry has. -/
lemma DirectoryStored.fat16Open_missing (h : DirectoryStored fuel s k.fsPrivate.rootDirectory C b m)
    (hpos : 0 < fuel) (hfree : FreeAtLeast s 1)
    (hnone : ∀ i < C.total, ¬ HasName fuel (C.entry i) (literal name)) (hpart : PartList s path [name]) :
    ∃ f s₁, fat16Open fuel disk k s path .read = some (BitVec.ofInt 32 (-eio),
        k.setDescriptor (blockAddr f) ⟨0, 0⟩, kfree s₁ (blockAddr f)) ∧ NewBlock s s₁ f := by
  obtain ⟨f, haddr, hnew⟩ := @kzalloc_newBlock_clear s 8 h.linked hfree (by decide) (by decide)
  have hf := hnew.lt
  obtain ⟨t, htext, hnext, hname⟩ := @partList_kzalloc s 8 name path hpart (by decide) (by decide)
  have hfind := @Listing.find_none fuel disk k _ _ _ C m b (h.keepsAll hnew.keeps).toListing
    fun i hi hi' => hnone i hi ((hasName_iff hname).1 hi')
  refine ⟨f, (kzalloc s 8).2, ?_, hnew⟩
  unfold fat16Open
  dsimp only
  rw [if_neg (not_not.2 rfl), haddr, if_neg (blockAddr_ne_zero (by omega)), hnext,
    pathParts_null _ hpos, Option.bind_some, fat16GetDirectoryEntry, htext, hfind, Option.bind_some,
    if_pos rfl, Option.map_some, if_pos rfl]

end AlphaOS.Fat16
