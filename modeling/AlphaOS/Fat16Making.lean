import AlphaOS.AccessLog
import AlphaOS.Fat16Items

/-! What making an item records and which blocks it takes. -/
namespace AlphaOS.Fat16
open BlockHeap CString Kheap Streamer WordMemory

/-! Blocks of an empty request. -/

/-- Whatever is asked for, the scan ends at -1 or at a free entry. -/
lemma startBlocksLoop_free (entries : ℤ → Byte) (n k i bc : ℕ) (bs : ℤ)
    (hbs : bs = -1 ∨ heapGetEntryType (entries bs) = entryFree) :
    startBlocksLoop entries n k i bc bs = -1 ∨
      heapGetEntryType (entries (startBlocksLoop entries n k i bc bs)) = entryFree := by
  induction k generalizing i bc bs with
  | zero => exact hbs
  | succ k ih =>
    rw [startBlocksLoop]
    by_cases htaken : heapGetEntryType (entries i) ≠ entryFree
    · rw [if_pos htaken]
      exact ih (i + 1) 0 (-1) (.inl rfl)
    · rw [if_neg htaken]
      have hstart : heapGetEntryType (entries (if bs = -1 then (i : ℤ) else bs)) = entryFree := by
        split_ifs with hnone
        · exact not_not.1 htaken
        · exact hbs.resolve_left hnone
      generalize (if bs = -1 then (i : ℤ) else bs) = start at hstart ⊢
      dsimp only
      by_cases hfull : bc + 1 = n
      · rw [if_pos hfull]
        exact .inr hstart
      · rw [if_neg hfull]
        exact ih (i + 1) (bc + 1) start (.inr hstart)

variable {fuel : ℕ} {disk : Disk} {k k' : FatState} {s s' s'' : Kmem} {c : ℕ} {ptr size item : Word}

/-- The block of an allocation of any size was free. -/
lemma kzalloc_free (hne : (kzalloc s size).1 ≠ 0) :
    ∃ b < 25600, (kzalloc s size).1 = blockAddr b ∧ IsFree s.entries b := by
  have hmalloc : (kzalloc s size).1 = (heapMalloc s.kernelHeap size).1 := kzalloc_fst s size
  have hrange := startBlocksLoop_range s.entries (heapBlocksFor size).toNat
    s.kernelHeap.table.total.toNat 0 0 (-1) (.inl rfl)
  have hfree := startBlocksLoop_free s.entries (heapBlocksFor size).toNat
    s.kernelHeap.table.total.toNat 0 0 (-1) (.inl rfl)
  rw [s.total_toNat] at hrange hfree
  rw [hmalloc, heapMalloc, heapMallocBlocks, heapGetStartBlocks, s.total_toNat] at hne ⊢
  rcases hrange with hnone | ⟨hlow, hhigh⟩
  · exact absurd (by rw [hnone]; rfl) hne
  · obtain ⟨b, hb⟩ := Int.eq_ofNat_of_zero_le hlow
    rw [hb] at hhigh hfree ⊢
    have hstart : (if ((b : ℕ) : ℤ) = -1 then -enomem else ((b : ℕ) : ℤ)) = b := if_neg (by omega)
    rw [hstart, if_neg (by omega)]
    exact ⟨b, by omega, heapBlockToAddress_eq s b, hfree.resolve_left (by omega)⟩

/-- No pinned block is at this address. -/
def Fresh (s : Kmem) (ptr : Word) : Prop := ∀ c < 25600, Pinned s.entries c 1 → blockAddr c ≠ ptr

lemma fresh_kzalloc (s : Kmem) (size : Word) : Fresh s (kzalloc s size).1 := by
  intro c hc hpin heq
  have hne : (kzalloc s size).1 ≠ 0 := heq ▸ blockAddr_ne_zero (by omega)
  obtain ⟨b, hb, haddr, hfree⟩ := kzalloc_free hne
  obtain rfl : c = b := blockAddr_inj (by omega) (by omega) (heq.trans haddr)
  exact hpin.not_free hfree

/-- What is fresh later was so before. -/
lemma Fresh.of_pinned (h : Fresh s' ptr)
    (hkept : ∀ c < 25600, Pinned s.entries c 1 → Pinned s'.entries c 1) : Fresh s ptr :=
  fun c hc hpin => h c hc (hkept c hc hpin)

/-- The first block of an allocation, with no chain into it; one that is not empty pins it. -/
lemma kzalloc_start (hlinked : Linked s.entries) (hne : (kzalloc s size).1 ≠ 0) :
    ∃ b < 25600, (kzalloc s size).1 = blockAddr b ∧
      (0 < b → NoNext (kzalloc s size).2.entries ((b : ℤ) - 1)) ∧
      (0 < (heapBlocksFor size).toNat → Pinned (kzalloc s size).2.entries b 1) := by
  obtain ⟨b, hb, haddr, hfree⟩ := kzalloc_free hne
  obtain ⟨j, -, -, hlast, hstop⟩ := hlinked.barrier hb hfree
  refine ⟨b, hb, haddr, fun hpos => ?_, fun hpos => ?_⟩
  · have hbefore : NoNext s.entries ((b : ℤ) - 1) := hlast hpos ▸ hstop
    rcases kzalloc_shape s size with heq | ⟨b', hb', -, heq⟩
    · rwa [heq]
    · rw [heq] at haddr
      obtain rfl : b' = b := blockAddr_inj (by omega) (by omega) haddr
      rw [heq]
      exact noNext_overwrite hbefore fun h1 _ => by omega
  · obtain ⟨b', hb', haddr', -, hpin⟩ := hlinked.kzalloc_pinned hne hpos
    obtain rfl : b' = b := blockAddr_inj (by omega) (by omega) (haddr'.symm.trans haddr)
    exact hpin

/-! Items and directories in their blocks. -/

/-- A directory that has been loaded. Its buffer has blocks when it has entries. -/
structure HeldDirectory (k : FatState) (s : Kmem) (directory : Word) : Prop where
  block : ∃ d < 25600, directory = blockAddr d ∧ Pinned s.entries d 1
  buffer : ∃ b < 25600, (k.directories directory).item = blockAddr b ∧
    (0 < b → NoNext s.entries ((b : ℤ) - 1)) ∧
    (0 < (k.directories directory).total → Pinned s.entries b 1)
  ne : (k.directories directory).item ≠ directory
  live : Live k.accesses (k.directories directory).item

/-- An item, with its directory when that lives. -/
structure HeldItem (k : FatState) (s : Kmem) (item : Word) : Prop where
  block : ∃ c < 25600, item = blockAddr c ∧ Pinned s.entries c 1
  live : Live k.accesses item
  directory : (k.items item).type = .directory → Live k.accesses (k.items item).item →
    HeldDirectory k s (k.items item).item ∧ (k.items item).item ≠ item ∧
    (k.directories (k.items item).item).item ≠ item

/-- A pinned block of somebody else. -/
structure KeepsBlock (c : ℕ) (k k' : FatState) (s s' : Kmem) : Prop where
  run : KeepsRun c 1 s s'
  item : k'.items (blockAddr c) = k.items (blockAddr c)
  directory : k'.directories (blockAddr c) = k.directories (blockAddr c)
  live : Live k.accesses (blockAddr c) → Live k'.accesses (blockAddr c)

lemma KeepsBlock.trans {k'' : FatState} (h : KeepsBlock c k k' s s') (h' : KeepsBlock c k' k'' s' s'') :
    KeepsBlock c k k'' s s'' :=
  ⟨h.run.trans h'.run, h'.item.trans h.item, h'.directory.trans h.directory,
    fun hlive => h'.live (h.live hlive)⟩

/-- From `k` and `s` on an item has been made, while what others hold has stayed and `lost` has
been left behind. -/
structure Gained (disk : Disk) (k : FatState) (s : Kmem) (lost : Multiset Word)
    (r : Word × FatState × Kmem) : Prop where
  ready : Ready disk r.2.1.fsPrivate
  linked : Linked r.2.2.entries
  null : ¬ Live r.2.1.accesses 0
  safe : Safe k.accesses → Safe r.2.1.accesses
  held : held r.2.1.accesses = held k.accesses + lost + r.2.1.owned r.1
  fresh : ∀ ptr ∈ r.2.1.owned r.1, Fresh s ptr
  item : r.1 ≠ 0 → HeldItem r.2.1 r.2.2 r.1
  keeps : ∀ c < 25600, Pinned s.entries c 1 → KeepsBlock c k r.2.1 s r.2.2

lemma gained_refl (hready : Ready disk k.fsPrivate) (hlinked : Linked s.entries)
    (hnull : ¬ Live k.accesses 0) : Gained disk k s 0 (0, k, s) where
  ready := hready
  linked := hlinked
  null := hnull
  safe h := h
  held := by rw [owned_zero, add_zero, add_zero]
  fresh ptr hptr := by
    rw [owned_zero] at hptr
    exact absurd hptr (Multiset.notMem_zero ptr)
  item h := absurd rfl h
  keeps c _ _ := ⟨KeepsRun.refl c 1 s, rfl, rfl, fun h => h⟩

/-- An item that is replaced is lost. -/
lemma Gained.trans {lost lost' : Multiset Word} {r r' : Word × FatState × Kmem}
    (h : Gained disk k s lost r) (h' : Gained disk r.2.1 r.2.2 lost' r') :
    Gained disk k s (lost + (r.2.1.owned r.1 + lost')) r' where
  ready := h'.ready
  linked := h'.linked
  null := h'.null
  safe hsafe := h'.safe (h.safe hsafe)
  held := by
    rw [h'.held, h.held]
    simp only [add_assoc]
  fresh ptr hptr := (h'.fresh ptr hptr).of_pinned fun c hc hpin => (h.keeps c hc hpin).run.pinned hpin
  item := h'.item
  keeps c hc hpin := by
    have hkept := h.keeps c hc hpin
    exact hkept.trans (h'.keeps c hc (hkept.run.pinned hpin))

/-! Loading a directory. -/

lemma fat16FreeDirectory_log (k : FatState) (s : Kmem) {directory : Word} (hne : directory ≠ 0) :
    (fat16FreeDirectory k s directory).1.items = k.items ∧
    (fat16FreeDirectory k s directory).1.directories = k.directories ∧
    (fat16FreeDirectory k s directory).1.accesses = .freed directory ::
      if (k.directories directory).item ≠ 0 then
        .freed (k.directories directory).item :: .used directory :: k.accesses
      else .used directory :: k.accesses := by
  have hsame : ((k.log (.used directory)).directories directory).item =
      (k.directories directory).item := rfl
  unfold fat16FreeDirectory
  rw [if_neg hne]
  dsimp only
  rw [hsame]
  by_cases hitem : (k.directories directory).item ≠ 0
  · rw [if_pos hitem, if_pos hitem]
    exact ⟨rfl, rfl, rfl⟩
  · rw [if_neg hitem, if_neg hitem]
    exact ⟨rfl, rfl, rfl⟩

/-- The record of a load behind the count. -/
lemma readFatDirectory_loading {directory : Word} (hne : directory ≠ 0) {cluster total : ℤ}
    (hlow : 0 ≤ total) (hhigh : total < 2 ^ 26) {r : Word × FatState × Kmem}
    (h : readFatDirectory disk k s directory cluster total = some r) :
    ∃ size : Word, size.toNat = 32 * total.toNat ∧ r.1 = directory ∧ r.2.1.items = k.items ∧
      r.2.1.directories = Function.update k.directories directory ⟨(kzalloc s size).1, total, 0, 0⟩ ∧
      Loading directory (kzalloc s size).1 k.accesses r.2.1.accesses ∧
      (Live r.2.1.accesses directory → r.2.2.entries = (kzalloc s size).2.entries) := by
  have hsize := directorySize_eq hlow hhigh
  unfold readFatDirectory at h
  dsimp only at h
  generalize BitVec.ofInt 32 total * BitVec.ofNat 32 sizeofDirectoryItem = size at h hsize
  refine ⟨size, hsize, ?_⟩
  by_cases hnull : (kzalloc s size).1 = 0
  · rw [if_pos hnull] at h
    cases h
    obtain ⟨hitems, hdirectories, hlog⟩ := fat16FreeDirectory_log
      (k.setDirectory directory ⟨(kzalloc s size).1, total, 0, 0⟩) (kzalloc s size).2 hne
    have hitem : ((k.setDirectory directory ⟨(kzalloc s size).1, total, 0, 0⟩).directories
        directory).item = 0 := by
      simp only [FatState.setDirectory, Function.update_self]
      exact hnull
    rw [if_neg (not_not.2 hitem)] at hlog
    rw [hitems, hdirectories, hlog]
    exact ⟨rfl, rfl, rfl, Loading.refused hnull, fun hlive => absurd rfl hlive.1⟩
  · rw [if_neg hnull] at h
    obtain ⟨res, -, hr⟩ := Option.map_eq_some_iff.1 h
    generalize hk : ((k.setDirectory directory ⟨(kzalloc s size).1, total, 0, 0⟩).log
      (.made (kzalloc s size).1)).withPrivate res.2.1 = k₁ at hr
    have hitems₁ : k₁.items = k.items := by rw [← hk]; rfl
    have hdirectories₁ : k₁.directories =
        Function.update k.directories directory ⟨(kzalloc s size).1, total, 0, 0⟩ := by rw [← hk]; rfl
    have hlog₁ : k₁.accesses = .made (kzalloc s size).1 :: k.accesses := by rw [← hk]; rfl
    have hitem : (k₁.directories directory).item = (kzalloc s size).1 := by
      rw [hdirectories₁, Function.update_self]
    by_cases hok : res.1 = 0
    · rw [if_neg (not_not.2 hok)] at hr
      cases hr
      rw [hlog₁]
      exact ⟨rfl, hitems₁, hdirectories₁, Loading.loaded hnull, fun _ => rfl⟩
    · rw [if_pos hok] at hr
      cases hr
      obtain ⟨hitems, hdirectories, hlog⟩ := fat16FreeDirectory_log k₁
        ((kzalloc s size).2.withMem res.2.2) hne
      rw [hitem, if_pos hnull, hlog₁] at hlog
      rw [hitems, hdirectories, hlog]
      exact ⟨rfl, hitems₁, hdirectories₁, Loading.failed hnull, fun hlive => absurd rfl hlive.1⟩

/-- A load gives null or a directory with the record of its loading. -/
lemma fat16LoadFatDirectory_loading (hready : Ready disk k.fsPrivate) (hfuel : fuel < 2 ^ 26)
    (hlinked : Linked s.entries) {r : Word × FatState × Kmem}
    (h : fat16LoadFatDirectory fuel disk k s item = some r) :
    (r.1 = 0 ∧ r.2.1 = k) ∨
    ∃ buffer total, r.1 ≠ 0 ∧ Fresh s r.1 ∧ Fresh s buffer ∧ buffer ≠ r.1 ∧
      r.2.1.items = k.items ∧
      r.2.1.directories = Function.update k.directories r.1 ⟨buffer, total, 0, 0⟩ ∧
      Loading r.1 buffer (.made r.1 :: k.accesses) r.2.1.accesses ∧
      (Live r.2.1.accesses r.1 → HeldDirectory r.2.1 r.2.2 r.1) := by
  unfold fat16LoadFatDirectory at h
  dsimp only at h
  split_ifs at h with hattributes hnull
  · cases h
    exact .inl ⟨rfl, rfl⟩
  · cases h
    exact .inl ⟨rfl, rfl⟩
  · right
    obtain ⟨total, hcount, hread⟩ := Option.bind_eq_some_iff.1 h
    have hready₁ : Ready disk (k.log (.made (kzalloc s 16).1)).fsPrivate := hready
    obtain ⟨hlow, hhigh, -⟩ := hready₁.count hcount
    obtain ⟨size, hsize, hfst, hitems, hdirectories, hloading, hentries⟩ :=
      readFatDirectory_loading hnull hlow (by omega) hread
    obtain ⟨d, hd, haddr, -, hpin⟩ := hlinked.kzalloc_pinned hnull (by decide)
    have hfresh := fresh_kzalloc s 16
    have hbuffer := fresh_kzalloc (kzalloc s 16).2 size
    have hne : (kzalloc (kzalloc s 16).2 size).1 ≠ (kzalloc s 16).1 :=
      fun heq => hbuffer d hd hpin (haddr.symm.trans heq.symm)
    rw [← hfst] at hnull haddr hfresh hne hdirectories hloading
    have hlog : Loading r.1 (kzalloc (kzalloc s 16).2 size).1 (.made r.1 :: k.accesses)
        r.2.1.accesses := by
      rw [hfst]
      rw [hfst] at hloading
      exact hloading
    refine ⟨_, _, hnull, hfresh, ?_, hne, hitems, hdirectories, hlog, fun hlive => ?_⟩
    · exact hbuffer.of_pinned fun c _ hc => hc.kzalloc one_pos (by omega) 16
    · have hitem : (r.2.1.directories r.1).item = (kzalloc (kzalloc s 16).2 size).1 := by
        rw [hdirectories, Function.update_self]
      have htotal : (r.2.1.directories r.1).total = total.1 := by
        rw [hdirectories, Function.update_self]
      obtain ⟨hdead, -⟩ | ⟨-, hbuffer_ne, hloaded⟩ := hlog.cases_live
      · exact absurd hlive hdead
      · have hsame := hentries (hfst ▸ hlive)
        obtain ⟨b, hb, hstart, hstop, hblocks⟩ := kzalloc_start (hlinked.kzalloc 16) hbuffer_ne
        have hcover := heapBlocksFor_eq size
        refine ⟨⟨d, hd, haddr, ?_⟩, ⟨b, hb, hitem.trans hstart, ?_, ?_⟩, ?_, ?_⟩
        · rw [hsame]
          exact hpin.kzalloc one_pos (by omega) size
        · rwa [hsame]
        · rw [hsame, htotal]
          exact fun hpos => hblocks (by omega)
        · rwa [hitem]
        · rw [hitem, hloaded]
          exact .inl rfl

/-! Making an item. -/

/-- What is recorded and stored when the item `item` is made from `k` on. -/
inductive Making (k : FatState) (s : Kmem) (item : Word) (k' : FatState) (s' : Kmem) : Prop
  | file (clone : Word) (fresh : Fresh s clone)
      (items : k'.items = Function.update k.items item ⟨clone, .file⟩)
      (directories : k'.directories = k.directories)
      (log : k'.accesses = if clone = 0 then .made item :: k.accesses
        else .made clone :: .made item :: k.accesses)
  | bare (items : k'.items = Function.update k.items item ⟨0, .directory⟩)
      (directories : k'.directories = k.directories) (log : k'.accesses = .made item :: k.accesses)
  | directory (directory buffer : Word) (total : ℤ) (nonnull : directory ≠ 0)
      (fresh : Fresh s directory ∧ Fresh s buffer) (buffer_ne : buffer ≠ directory)
      (apart : directory ≠ item ∧ buffer ≠ item)
      (items : k'.items = Function.update k.items item ⟨directory, .directory⟩)
      (directories : k'.directories = Function.update k.directories directory ⟨buffer, total, 0, 0⟩)
      (log : Loading directory buffer (.made directory :: .made item :: k.accesses) k'.accesses)
      (held : Live k'.accesses directory → HeldDirectory k' s' directory)

/-- A clone is recorded when there is one. -/
lemma fat16CloneDirectoryItem_log (k : FatState) (s : Kmem) (item : Word) :
    Fresh s (fat16CloneDirectoryItem k s item sizeofDirectoryItem).1 ∧
    (fat16CloneDirectoryItem k s item sizeofDirectoryItem).2.1 =
      if (fat16CloneDirectoryItem k s item sizeofDirectoryItem).1 = 0 then k
      else k.log (.made (fat16CloneDirectoryItem k s item sizeofDirectoryItem).1) := by
  have hfresh := fresh_kzalloc s (BitVec.ofNat 32 sizeofDirectoryItem)
  rw [fat16CloneDirectoryItem, if_neg (lt_irrefl _)]
  dsimp only
  generalize kzalloc s (BitVec.ofNat 32 sizeofDirectoryItem) = clone at hfresh ⊢
  by_cases hnull : clone.1 = 0
  · rw [if_pos hnull]
    rw [hnull] at hfresh
    exact ⟨hfresh, (if_pos rfl).symm⟩
  · rw [if_neg hnull]
    exact ⟨hfresh, (if_neg hnull).symm⟩

lemma fat16NewFatItem_making (hready : Ready disk k.fsPrivate) (hfuel : fuel < 2 ^ 26)
    (hlinked : Linked s.entries) {r : Word × FatState × Kmem}
    (h : fat16NewFatItemForDirectoryItem fuel disk k s item = some r) (hne : r.1 ≠ 0) :
    Making k s r.1 r.2.1 r.2.2 := by
  have hroom : (kzalloc s 8).1 ≠ 0 := fun hnull => hne ((fat16NewFatItem_eq_zero h).2 hnull)
  obtain ⟨i, hi, haddr, -, hpin⟩ := hlinked.kzalloc_pinned hroom (by decide)
  have hbefore : ∀ c < 25600, Pinned s.entries c 1 → Pinned (kzalloc s 8).2.entries c 1 :=
    fun c _ hc => hc.kzalloc one_pos (by omega) 8
  have hready' : Ready disk (k.log (.made (kzalloc s 8).1)).fsPrivate := hready
  unfold fat16NewFatItemForDirectoryItem at h
  dsimp only at h
  rw [if_neg hroom] at h
  split_ifs at h
  · obtain ⟨r', hload, rfl⟩ := Option.map_eq_some_iff.1 h
    rcases fat16LoadFatDirectory_loading hready' hfuel (hlinked.kzalloc 8) hload with ⟨hnull, hsame⟩ |
      ⟨buffer, total, hnonnull, hfresh, hfresh', hapart, hitems, hdirectories, hlog, hheld⟩
    · refine Making.bare ?_ ?_ ?_
      · simp only [FatState.setItem, hnull, hsame]
        rfl
      · simp only [FatState.setItem, hsame]
        rfl
      · simp only [FatState.setItem, hsame]
        rfl
    · refine Making.directory r'.1 buffer total hnonnull ⟨hfresh.of_pinned hbefore,
        hfresh'.of_pinned hbefore⟩ hapart ⟨fun heq => ?_, fun heq => ?_⟩ ?_ hdirectories hlog
        fun hlive => ?_
      · exact hfresh i hi hpin (haddr.symm.trans heq.symm)
      · exact hfresh' i hi hpin (haddr.symm.trans heq.symm)
      · simp only [FatState.setItem, hitems]
        rfl
      · have hdirectory := hheld hlive
        exact ⟨hdirectory.block, hdirectory.buffer, hdirectory.ne, hdirectory.live⟩
  · obtain ⟨hfresh, hsame⟩ := fat16CloneDirectoryItem_log (k.log (.made (kzalloc s 8).1))
      (kzalloc s 8).2 item
    generalize fat16CloneDirectoryItem (k.log (.made (kzalloc s 8).1)) (kzalloc s 8).2 item
      sizeofDirectoryItem = clone at h hfresh hsame
    cases h
    refine Making.file clone.1 (hfresh.of_pinned hbefore) ?_ ?_ ?_
    all_goals
      simp only [FatState.setItem, hsame]
      split_ifs <;> rfl

lemma Making.live (h : Making k s item k' s') : Live k'.accesses item := by
  cases h with
  | file clone _ _ _ log =>
    rw [log]
    split_ifs
    · exact .inl rfl
    · exact .inr (.inl rfl)
  | bare _ _ log =>
    rw [log]
    exact .inl rfl
  | directory directory buffer total _ _ _ apart _ _ log _ =>
    rw [log.live_of_ne apart.1.symm apart.2.symm]
    exact .inr (.inl rfl)

/-- Null is not made. -/
lemma Making.null (h : Making k s item k' s') (hne : item ≠ 0) (hnull : ¬ Live k.accesses 0) :
    ¬ Live k'.accesses 0 := by
  cases h with
  | file clone _ _ _ log =>
    rw [log]
    split_ifs with hclone
    · exact fun h => h.elim hne hnull
    · exact fun h => h.elim hclone fun h => h.elim hne hnull
  | bare _ _ log =>
    rw [log]
    exact fun h => h.elim hne hnull
  | directory directory buffer total nonnull _ _ _ _ _ log _ =>
    exact log.null fun h => h.elim nonnull fun h => h.elim hne hnull

lemma Making.safe (h : Making k s item k' s') (hsafe : Safe k.accesses) : Safe k'.accesses := by
  cases h with
  | file clone _ _ _ log =>
    rw [log]
    split_ifs
    · exact hsafe
    · exact hsafe
  | bare _ _ log =>
    rw [log]
    exact hsafe
  | directory directory buffer total _ _ buffer_ne _ _ _ log _ => exact log.safe buffer_ne hsafe

/-- What is held more is what the item owns. -/
lemma Making.held (h : Making k s item k' s') (hne : item ≠ 0) (hnull : ¬ Live k.accesses 0) :
    held k'.accesses = held k.accesses + k'.owned item := by
  have hdead := h.null hne hnull
  cases h with
  | file clone _ items _ log =>
    have hitem : k'.items item = ⟨clone, .file⟩ := by rw [items, Function.update_self]
    rw [owned_file hne (by rw [hitem]), hitem, log]
    split_ifs
    · simp [add_comm]
    · simp [← Multiset.singleton_add, add_assoc, add_comm, add_left_comm]
  | bare items _ log =>
    have hitem : k'.items item = ⟨0, .directory⟩ := by rw [items, Function.update_self]
    rw [owned_directory hne (by rw [hitem]), hitem, if_neg hdead, log]
    simp [add_comm]
  | directory directory buffer total _ _ _ _ items directories log _ =>
    have hitem : k'.items item = ⟨directory, .directory⟩ := by rw [items, Function.update_self]
    have hbuffer : (k'.directories directory).item = buffer := by
      rw [directories, Function.update_self]
    rw [owned_directory hne (by rw [hitem]), hitem]
    dsimp only
    rw [hbuffer]
    rcases log.cases_live with ⟨hfreed, hsame⟩ | ⟨hlive, -, hloaded⟩
    · rw [if_neg hfreed, hsame]
      simp [add_comm]
    · rw [if_pos hlive, hloaded]
      simp [← Multiset.singleton_add, add_assoc, add_comm, add_left_comm]

lemma Making.fresh (h : Making k s item k' s') (hne : item ≠ 0) (hnull : ¬ Live k.accesses 0)
    (hfresh : Fresh s item) :
    ∀ ptr ∈ k'.owned item, Fresh s ptr := by
  intro ptr hptr
  have hdead := h.null hne hnull
  cases h with
  | file clone fresh items _ _ =>
    have hitem : k'.items item = ⟨clone, .file⟩ := by rw [items, Function.update_self]
    rw [owned_file hne (by rw [hitem]), hitem] at hptr
    rcases Multiset.mem_cons.1 hptr with rfl | hptr
    · exact hfresh
    · split_ifs at hptr
      · exact absurd hptr (Multiset.notMem_zero ptr)
      · rwa [Multiset.mem_singleton.1 hptr]
  | bare items _ log =>
    have hitem : k'.items item = ⟨0, .directory⟩ := by rw [items, Function.update_self]
    rw [owned_directory hne (by rw [hitem]), hitem, if_neg hdead] at hptr
    rwa [Multiset.mem_singleton.1 hptr]
  | directory directory buffer total _ fresh _ _ items directories _ _ =>
    have hitem : k'.items item = ⟨directory, .directory⟩ := by rw [items, Function.update_self]
    have hbuffer : (k'.directories directory).item = buffer := by
      rw [directories, Function.update_self]
    rw [owned_directory hne (by rw [hitem]), hitem] at hptr
    dsimp only at hptr
    rw [hbuffer] at hptr
    rcases Multiset.mem_cons.1 hptr with rfl | hptr
    · exact hfresh
    · split_ifs at hptr
      · rcases Multiset.mem_cons.1 hptr with rfl | hptr
        · exact fresh.1
        · rw [Multiset.mem_singleton.1 hptr]
          exact fresh.2
      · exact absurd hptr (Multiset.notMem_zero ptr)

/-- Its blocks are not those of others. -/
lemma Making.keeps (h : Making k s item k' s') (hfresh : Fresh s item) (hc : c < 25600)
    (hpin : Pinned s.entries c 1) (hrun : KeepsRun c 1 s s') : KeepsBlock c k k' s s' := by
  have hitem : blockAddr c ≠ item := hfresh c hc hpin
  cases h with
  | file clone _ items directories log =>
    refine ⟨hrun, by rw [items, Function.update_of_ne hitem], by rw [directories], fun hlive => ?_⟩
    rw [log]
    split_ifs
    · exact .inr hlive
    · exact .inr (.inr hlive)
  | bare items directories log =>
    refine ⟨hrun, by rw [items, Function.update_of_ne hitem], by rw [directories], fun hlive => ?_⟩
    rw [log]
    exact .inr hlive
  | directory directory buffer total _ fresh _ _ items directories log _ =>
    have hdirectory : blockAddr c ≠ directory := fresh.1 c hc hpin
    have hbuffer : blockAddr c ≠ buffer := fresh.2 c hc hpin
    refine ⟨hrun, by rw [items, Function.update_of_ne hitem],
      by rw [directories, Function.update_of_ne hdirectory], fun hlive => ?_⟩
    rw [log.live_of_ne hdirectory hbuffer]
    exact .inr (.inr hlive)

lemma Making.directory_held (h : Making k s item k' s') (hne : item ≠ 0)
    (hnull : ¬ Live k.accesses 0) (htype : (k'.items item).type = .directory)
    (hlive : Live k'.accesses (k'.items item).item) :
    HeldDirectory k' s' (k'.items item).item ∧ (k'.items item).item ≠ item ∧
      (k'.directories (k'.items item).item).item ≠ item := by
  have hdead := h.null hne hnull
  cases h with
  | file clone _ items _ _ =>
    rw [items, Function.update_self] at htype
    cases htype
  | bare items _ _ =>
    rw [items, Function.update_self] at hlive
    exact absurd hlive hdead
  | directory directory buffer total _ _ _ apart items directories _ held =>
    rw [items, Function.update_self] at hlive ⊢
    rw [directories, Function.update_self]
    exact ⟨held hlive, apart⟩

/-- Making an item, whether there is memory for it or not. -/
lemma fat16NewFatItem_gained (hready : Ready disk k.fsPrivate) (hfuel : fuel < 2 ^ 26)
    (hlinked : Linked s.entries) (hnull : ¬ Live k.accesses 0) {r : Word × FatState × Kmem}
    (h : fat16NewFatItemForDirectoryItem fuel disk k s item = some r) : Gained disk k s 0 r := by
  by_cases hne : r.1 = 0
  · have hroom := (fat16NewFatItem_eq_zero h).1 hne
    have hkept := fun c (hc : c < 25600) =>
      @keepsRun_kzalloc s 8 c 1 one_pos (by omega) (by decide)
    unfold fat16NewFatItemForDirectoryItem at h
    dsimp only at h
    rw [if_pos hroom] at h
    cases h
    have hstart := gained_refl hready hlinked hnull
    exact ⟨hready, hlinked.kzalloc 8, hnull, hstart.safe, hstart.held, hstart.fresh,
      fun hne => absurd rfl hne, fun c hc _ => ⟨hkept c hc, rfl, rfl, fun h => h⟩⟩
  · have hmaking := fat16NewFatItem_making hready hfuel hlinked h hne
    obtain ⟨c, hc, heq, hfrom, -, hlinked', hpin⟩ :=
      fat16NewFatItem_pinned hready hfuel hlinked h hne
    have hfresh : Fresh s r.1 := by
      rw [hfrom]
      exact fresh_kzalloc s 8
    have hheld := hmaking.held hne hnull
    rw [← add_zero (held k.accesses)] at hheld
    exact ⟨fat16NewFatItem_ready hready hfuel h, hlinked', hmaking.null hne hnull, hmaking.safe, hheld, hmaking.fresh hne hnull hfresh,
      fun _ => ⟨⟨c, hc, heq, hpin⟩, hmaking.live, hmaking.directory_held hne hnull⟩,
      fun b hb hbpin => hmaking.keeps hfresh hb hbpin
        (fat16NewFatItem_keeps hready hfuel one_pos (by omega) hbpin hlinked h)⟩

end AlphaOS.Fat16
