import AlphaOS.Fat16Geometry
import AlphaOS.Fat16Making

/-! The walk of `fat16_get_directory_entry` over the parts of a path: what it uses, what it frees
and what is left. -/
namespace AlphaOS.Fat16
open BlockHeap CString Kheap Paging Streamer WordMemory

variable {fuel : ℕ} {disk : Disk} {k k' k₀ : FatState} {s s' s₀ : Kmem} {item other fItem : Word}
  {d : FatDirectory} {name : ℤ → Byte} {n i : ℕ} {lost : Multiset Word}
  {r : Word × FatState × Kmem}

/-! A lookup. -/

/-- From index `i` on the scan meets an entry of the name only while it has no item. -/
def NoOverwrite (fuel : ℕ) (disk : Disk) (directory : FatDirectory) (name : ℤ → Byte) :
    ℕ → ℕ → FatState → Kmem → Word → Prop
  | 0, _, _, _, _ => True
  | n + 1, i, k, s, fItem =>
    (hasName fuel s (directory.entry i) name = some true → fItem = 0 ∧
      ∀ r, fat16NewFatItemForDirectoryItem fuel disk k s (directory.entry i) = some r →
        NoOverwrite fuel disk directory name n (i + 1) r.2.1 r.2.2 r.1) ∧
    (hasName fuel s (directory.entry i) name = some false →
      NoOverwrite fuel disk directory name n (i + 1) k s fItem)

/-- The scan loses exactly the items it replaces. -/
lemma findItemLoop_gained (hfuel : fuel < 2 ^ 26) (hstart : Gained disk k₀ s₀ lost (fItem, k, s))
    (h : findItemLoop fuel disk d name n i k s fItem = some r) :
    ∃ more, Gained disk k₀ s₀ (lost + more) r ∧
      (more = 0 ↔ NoOverwrite fuel disk d name n i k s fItem) := by
  induction n generalizing i k s fItem lost with
  | zero =>
    cases h
    exact ⟨0, by rwa [add_zero], iff_of_true rfl trivial⟩
  | succ n ih =>
    rw [findItemLoop] at h
    obtain ⟨found, hfound, hrest⟩ := Option.bind_eq_some_iff.1 h
    cases found with
    | false =>
      obtain ⟨more, hgained, hiff⟩ := ih hstart hrest
      refine ⟨more, hgained, ?_⟩
      rw [NoOverwrite, hfound, hiff]
      simp
    | true =>
      obtain ⟨r', hnew, hrest'⟩ := Option.bind_eq_some_iff.1 hrest
      have hnext := hstart.trans
        (fat16NewFatItem_gained hstart.ready hfuel hstart.linked hstart.null hnew)
      obtain ⟨more, hgained, hiff⟩ := ih hnext hrest'
      refine ⟨k.owned fItem + more, ?_, ?_⟩
      · simpa [add_assoc] using hgained
      · rw [NoOverwrite, hfound, hnew, add_eq_zero, owned_eq_zero, hiff]
        simp

/-- What a directory holds is out of the way of a lookup in it. -/
lemma fat16FindItemInDirectory_gained (hready : Ready disk k.fsPrivate) (hfuel : fuel < 2 ^ 26)
    (hlinked : Linked s.entries) (hnull : ¬ Live k.accesses 0)
    (h : fat16FindItemInDirectory fuel disk k s d name = some r) :
    ∃ lost, Gained disk k s lost r ∧
      (lost = 0 ↔ NoOverwrite fuel disk d name d.total.toNat 0 k s 0) := by
  obtain ⟨lost, hgained, hiff⟩ := findItemLoop_gained hfuel (gained_refl hready hlinked hnull) h
  exact ⟨lost, by rwa [zero_add] at hgained, hiff⟩

/-- An item with a directory that has been loaded. -/
def Loaded (k : FatState) (item : Word) : Prop :=
  (k.items item).type = .directory ∧ Live k.accesses (k.items item).item

lemma HeldItem.ne_zero (h : HeldItem k s item) : item ≠ 0 := by
  obtain ⟨c, hc, rfl, -⟩ := h.block
  exact blockAddr_ne_zero (by omega)

lemma HeldItem.owned_eq (h : HeldItem k s item) (hloaded : Loaded k item) :
    k.owned item = item ::ₘ (k.items item).item ::ₘ
      {(k.directories (k.items item).item).item} := by
  rw [owned_directory h.ne_zero hloaded.1, if_pos hloaded.2]

/-- A lookup in the directory of an item leaves the item alone. -/
lemma HeldItem.found (h : HeldItem k s item) (hloaded : Loaded k item)
    (hfind : fat16FindItemInDirectory fuel disk k s (k.directories (k.items item).item) name = some r)
    (hgained : Gained disk k s lost r) :
    HeldItem r.2.1 r.2.2 item ∧ Loaded r.2.1 item ∧ r.2.1.owned item = k.owned item ∧
      ∀ ptr ∈ k.owned item, ptr ∉ r.2.1.owned r.1 := by
  obtain ⟨hdirectory, hne, hbuffer_ne⟩ := h.directory hloaded.1 hloaded.2
  obtain ⟨c, hc, hitem, hpin⟩ := h.block
  obtain ⟨e, he, hblock, hepin⟩ := hdirectory.block
  obtain ⟨b, hb, hbuffer, hstop, hbpin⟩ := hdirectory.buffer
  have hkept := hgained.keeps c hc hpin
  have hkept' := hgained.keeps e he hepin
  rcases Nat.eq_zero_or_pos (k.directories (k.items item).item).total.toNat with hempty | hentries
  · rw [fat16FindItemInDirectory, hempty] at hfind
    cases hfind
    refine ⟨h, hloaded, rfl, fun ptr _ => ?_⟩
    rw [owned_zero]
    exact Multiset.notMem_zero ptr
  · have hbpin' := hbpin (by omega)
    have hkept'' := hgained.keeps b hb hbpin'
    have hitems : r.2.1.items item = k.items item := by
      rw [hitem]
      exact hkept.item
    have hdirectories : r.2.1.directories (k.items item).item =
        k.directories (k.items item).item := by
      rw [hblock]
      exact hkept'.directory
    have hlive : Live r.2.1.accesses item := by
      have hbefore := h.live
      rw [hitem] at hbefore ⊢
      exact hkept.live hbefore
    have hlive' : Live r.2.1.accesses (k.items item).item := by
      have hbefore := hloaded.2
      rw [hblock] at hbefore ⊢
      exact hkept'.live hbefore
    have hlive'' : Live r.2.1.accesses (k.directories (k.items item).item).item := by
      have hbefore := hdirectory.live
      rw [hbuffer] at hbefore ⊢
      exact hkept''.live hbefore
    have hpinned := hkept''.run.pinned hbpin'
    have hloaded' : Loaded r.2.1 item := by
      rw [Loaded, hitems]
      exact ⟨hloaded.1, hlive'⟩
    have hheld : HeldItem r.2.1 r.2.2 item := by
      refine ⟨⟨c, hc, hitem, hkept.run.pinned hpin⟩, hlive, fun _ _ => ?_⟩
      rw [hitems, hdirectories]
      refine ⟨⟨⟨e, he, hblock, hkept'.run.pinned hepin⟩, ?_, ?_, ?_⟩, hne, hbuffer_ne⟩
      · rw [hdirectories]
        refine ⟨b, hb, hbuffer, fun hpos => ?_, fun _ => hpinned⟩
        obtain ⟨j, -, -, hlast, hnone⟩ := hpinned.barrier
        exact hlast hpos ▸ hnone
      · rw [hdirectories]
        exact hdirectory.ne
      · rwa [hdirectories]
    refine ⟨hheld, hloaded', ?_, fun ptr hptr hin => ?_⟩
    · rw [hheld.owned_eq hloaded', h.owned_eq hloaded, hitems, hdirectories]
    · have hfresh := hgained.fresh ptr hin
      rw [h.owned_eq hloaded] at hptr
      rcases Multiset.mem_cons.1 hptr with rfl | hptr
      · exact hfresh c hc hpin hitem.symm
      · rcases Multiset.mem_cons.1 hptr with rfl | hptr
        · exact hfresh e he hepin hblock.symm
        · rw [Multiset.mem_singleton.1 hptr] at hfresh
          exact hfresh b hb hbpin' hbuffer.symm

/-! Freeing an item. -/

/-- A block of somebody else is freed. -/
lemma HeldItem.freed {e : ℕ} (h : HeldItem k s item) (he : e < 25600)
    (hnot : blockAddr e ∉ k.owned item) :
    HeldItem (k.log (.freed (blockAddr e))) (kfree s (blockAddr e)) item ∧
    (k.log (.freed (blockAddr e))).owned item = k.owned item := by
  have hother : ∀ c < 25600, blockAddr c ∈ k.owned item → Pinned s.entries c 1 →
      Pinned (kfree s (blockAddr e)).entries c 1 := by
    intro c hc hin hpin
    have hne : e ≠ c := fun heq => hnot (heq ▸ hin)
    exact hpin.kfree (elsewhere_blockAddr (by omega) (by omega))
  obtain ⟨c, hc, hitem, hpin⟩ := h.block
  have hself : item ∈ k.owned item := mem_owned h.ne_zero
  have hne : blockAddr e ≠ item := fun heq => hnot (heq ▸ hself)
  have hapart : Loaded k item → blockAddr e ≠ (k.items item).item ∧
      blockAddr e ≠ (k.directories (k.items item).item).item := by
    intro hloaded
    rw [h.owned_eq hloaded] at hnot
    constructor
    · exact fun heq => hnot (by simp [heq])
    · exact fun heq => hnot (by simp [heq])
  constructor
  · refine ⟨⟨c, hc, hitem, hother c hc (hitem ▸ hself) hpin⟩, ⟨hne, h.live⟩, fun htype hlive => ?_⟩
    have hloaded : Loaded k item := ⟨htype, hlive.2⟩
    obtain ⟨hdirectory, hitem_ne, hbuffer_ne⟩ := h.directory htype hlive.2
    obtain ⟨d, hd, hblock, hdpin⟩ := hdirectory.block
    obtain ⟨b, hb, hbuffer, hstop, hbpin⟩ := hdirectory.buffer
    have hin : blockAddr d ∈ k.owned item ∧ blockAddr b ∈ k.owned item := by
      rw [h.owned_eq hloaded, ← hblock, ← hbuffer]
      simp
    exact ⟨⟨⟨d, hd, hblock, hother d hd hin.1 hdpin⟩, ⟨b, hb, hbuffer, fun hpos => noNext_kfree (hstop hpos),
      fun hpos => hother b hb hin.2 (hbpin hpos)⟩, hdirectory.ne,
      ⟨(hapart hloaded).2, hdirectory.live⟩⟩, hitem_ne, hbuffer_ne⟩
  · cases htype : (k.items item).type with
    | file =>
      have htype' : ((k.log (.freed (blockAddr e))).items item).type = .file := htype
      rw [owned_file h.ne_zero htype', owned_file h.ne_zero htype]
      rfl
    | directory =>
      have htype' : ((k.log (.freed (blockAddr e))).items item).type = .directory := htype
      rw [owned_directory h.ne_zero htype', owned_directory h.ne_zero htype]
      by_cases hlive : Live k.accesses (k.items item).item
      · have hlive' : Live (k.log (.freed (blockAddr e))).accesses
            ((k.log (.freed (blockAddr e))).items item).item := ⟨(hapart ⟨htype, hlive⟩).1, hlive⟩
        rw [if_pos hlive, if_pos hlive']
        rfl
      · rw [if_neg hlive, if_neg fun hlive' => hlive hlive'.2]

/-- What is used is not changed. -/
lemma HeldItem.used (h : HeldItem k s item) (ptr : Word) :
    HeldItem (k.log (.used ptr)) s item ∧ (k.log (.used ptr)).owned item = k.owned item :=
  ⟨⟨h.block, h.live, fun htype hlive =>
    have ⟨hdirectory, hne⟩ := h.directory htype hlive
    ⟨⟨hdirectory.block, hdirectory.buffer, hdirectory.ne, hdirectory.live⟩, hne⟩⟩, rfl⟩

/-- The frees of an item with its directory. -/
lemma fat16FatItemFree_eq {directory buffer : Word} (hne : item ≠ 0)
    (hitem : k.items item = ⟨directory, .directory⟩) (hdirectory : directory ≠ 0)
    (hbuffer : (k.directories directory).item = buffer) (hbuffer_ne : buffer ≠ 0) :
    fat16FatItemFree k s item =
      (((((k.log (.used item)).log (.used directory)).log (.freed buffer)).log (.freed directory)).log
        (.freed item), kfree (kfree (kfree s buffer) directory) item) := by
  have hitem' : (k.log (.used item)).items item = ⟨directory, .directory⟩ := hitem
  have hbuffer' : (((k.log (.used item)).log (.used directory)).directories directory).item = buffer :=
    hbuffer
  rw [fat16FatItemFree, if_neg hne]
  dsimp only
  rw [hitem']
  dsimp only
  rw [fat16FreeDirectory, if_neg hdirectory]
  dsimp only
  rw [hbuffer', if_pos hbuffer_ne]

/-- The walk at an item: the volume and the heap are as they should be. -/
structure Walking (disk : Disk) (k : FatState) (s : Kmem) (item : Word) : Prop where
  ready : Ready disk k.fsPrivate
  linked : Linked s.entries
  null : ¬ Live k.accesses 0
  held : item ≠ 0 → HeldItem k s item

/-- An item with its directory is freed next to another one. -/
lemma HeldItem.release (h : HeldItem k s item) (hloaded : Loaded k item)
    (hwalk : Walking disk k s other) (hapart : ∀ ptr ∈ k.owned item, ptr ∉ k.owned other) :
    Walking disk (fat16FatItemFree k s item).1 (fat16FatItemFree k s item).2 other ∧
    (Safe k.accesses → Safe (fat16FatItemFree k s item).1.accesses) ∧
    (fat16FatItemFree k s item).1.owned other = k.owned other ∧
    (∀ rest, held k.accesses = rest + k.owned item →
      held (fat16FatItemFree k s item).1.accesses = rest) := by
  have howned := h.owned_eq hloaded
  obtain ⟨hdirectory, hitem_ne, hbuffer_ne⟩ := h.directory hloaded.1 hloaded.2
  obtain ⟨c, hc, hitem, hpin⟩ := h.block
  obtain ⟨e, he, hblock, hepin⟩ := hdirectory.block
  obtain ⟨b, hb, hbuffer, hstop, -⟩ := hdirectory.buffer
  have htype : k.items item = ⟨(k.items item).item, .directory⟩ := by rw [← hloaded.1]
  have hlive := h.live
  have hlive' := hloaded.2
  have hlive'' := hdirectory.live
  have hne := hdirectory.ne
  rw [fat16FatItemFree_eq h.ne_zero htype (hblock ▸ blockAddr_ne_zero (by omega)) hbuffer
    (blockAddr_ne_zero (by omega))]
  rw [hbuffer] at hbuffer_ne hlive'' hne howned
  generalize (k.items item).item = directory at *
  subst hblock hitem
  have hbe : b ≠ e := fun heq => hne (by rw [heq])
  have hbc : b ≠ c := fun heq => hbuffer_ne (by rw [heq])
  have hec : e ≠ c := fun heq => hitem_ne (by rw [heq])
  have hlinked₁ : Linked (kfree s (blockAddr b)).entries :=
    hwalk.linked.kfree (.inr ⟨b, heapAddressToBlock_eq s (by omega),
      fun hpos => hstop (by exact_mod_cast hpos)⟩)
  have hepin₁ : Pinned (kfree s (blockAddr b)).entries e 1 :=
    hepin.kfree (elsewhere_blockAddr (by omega) (by omega))
  have hpin₁ : Pinned (kfree s (blockAddr b)).entries c 1 :=
    hpin.kfree (elsewhere_blockAddr (by omega) (by omega))
  have hpin₂ : Pinned (kfree (kfree s (blockAddr b)) (blockAddr e)).entries c 1 :=
    hpin₁.kfree (elsewhere_blockAddr (by omega) (by omega))
  have hlinked₂ := hlinked₁.kfree_pinned hepin₁ (by omega)
  have hlinked₃ := hlinked₂.kfree_pinned hpin₂ (by omega)
  have hnull : ¬ Live (.freed (blockAddr c) :: .freed (blockAddr e) :: .freed (blockAddr b) ::
      .used (blockAddr e) :: .used (blockAddr c) :: k.accesses) 0 :=
    fun hlive => hwalk.null hlive.2.2.2
  rw [howned] at hapart
  have hkept : other ≠ 0 → HeldItem (((((k.log (.used (blockAddr c))).log (.used (blockAddr e))).log
        (.freed (blockAddr b))).log (.freed (blockAddr e))).log (.freed (blockAddr c)))
      (kfree (kfree (kfree s (blockAddr b)) (blockAddr e)) (blockAddr c)) other ∧
      (((((k.log (.used (blockAddr c))).log (.used (blockAddr e))).log (.freed (blockAddr b))).log
        (.freed (blockAddr e))).log (.freed (blockAddr c))).owned other = k.owned other := by
    intro hother
    obtain ⟨h₁, heq₁⟩ := (hwalk.held hother).used (blockAddr c)
    obtain ⟨h₂, heq₂⟩ := h₁.used (blockAddr e)
    rw [heq₁] at heq₂
    obtain ⟨h₃, heq₃⟩ := h₂.freed hb (heq₂ ▸ hapart _ (by simp))
    rw [heq₂] at heq₃
    obtain ⟨h₄, heq₄⟩ := h₃.freed he (heq₃ ▸ hapart _ (by simp))
    rw [heq₃] at heq₄
    obtain ⟨h₅, heq₅⟩ := h₄.freed hc (heq₄ ▸ hapart _ (by simp))
    exact ⟨h₅, heq₅.trans heq₄⟩
  refine ⟨⟨hwalk.ready, hlinked₃, hnull, fun hother => (hkept hother).1⟩,
    fun hsafe => ⟨⟨hitem_ne, hbuffer_ne, hlive⟩, ⟨hne, hlive'⟩, hlive'', hlive', hlive, hsafe⟩, ?_,
    fun rest hrest => ?_⟩
  · by_cases hother : other = 0
    · rw [hother, owned_zero, owned_zero]
    · exact (hkept hother).2
  · have hsort : rest + (blockAddr c ::ₘ blockAddr e ::ₘ {blockAddr b}) =
        blockAddr b ::ₘ blockAddr e ::ₘ blockAddr c ::ₘ rest := by
      simp [← Multiset.singleton_add, add_assoc, add_comm]
    rw [howned, hsort] at hrest
    change (((held k.accesses).erase _).erase _).erase _ = rest
    rw [hrest]
    simp only [Multiset.erase_cons_head]

/-! The walk. -/

/-- The state a lookup in the directory of an item starts in. -/
def FatState.entered (k : FatState) (item : Word) : FatState :=
  (k.log (.used item)).log (.used (k.items item).item)

/-- Every part that is left is found, all but the last as a directory that has been loaded. -/
def ResolvesFrom (fuel : ℕ) (disk : Disk) : List (ℤ → Byte) → FatState → Kmem → Word → Prop
  | [], _, _, item => item ≠ 0
  | part :: path, k, s, item => item ≠ 0 ∧ Loaded k item ∧ ∃ r,
      fat16FindItemInDirectory fuel disk (k.entered item) s (k.directories (k.items item).item) part =
        some r ∧
      ResolvesFrom fuel disk path (fat16FatItemFree r.2.1 r.2.2 item).1
        (fat16FatItemFree r.2.1 r.2.2 item).2 r.1

/-- Every item but the last is there and has a directory that has been loaded, and the lookups
return and replace no item. -/
def CleanFrom (fuel : ℕ) (disk : Disk) : List (ℤ → Byte) → FatState → Kmem → Word → Prop
  | [], _, _, _ => True
  | part :: path, k, s, item => item ≠ 0 ∧ Loaded k item ∧
      NoOverwrite fuel disk (k.directories (k.items item).item) part
        (k.directories (k.items item).item).total.toNat 0 (k.entered item) s 0 ∧ ∃ r,
      fat16FindItemInDirectory fuel disk (k.entered item) s (k.directories (k.items item).item) part =
        some r ∧
      CleanFrom fuel disk path (fat16FatItemFree r.2.1 r.2.2 item).1
        (fat16FatItemFree r.2.1 r.2.2 item).2 r.1

variable {part : ℤ → Byte} {path : List (ℤ → Byte)} {rest : Multiset Word}

lemma directoryEntryLoop_cons (part : ℤ → Byte) (path : List (ℤ → Byte)) (k : FatState) (s : Kmem)
    (item : Word) : directoryEntryLoop fuel disk (part :: path) k s item =
      if (k.items item).type ≠ .directory then some (0, k.log (.used item), s) else
      (fat16FindItemInDirectory fuel disk (k.entered item) s (k.directories (k.items item).item)
        part).bind fun r =>
          directoryEntryLoop fuel disk path (fat16FatItemFree r.2.1 r.2.2 item).1
            (fat16FatItemFree r.2.1 r.2.2 item).2 r.1 := rfl

/-- One part: the item gives way to the one that is found in its directory. -/
lemma walk_step (h : Walking disk k s item) (hfuel : fuel < 2 ^ 26) (hne : item ≠ 0)
    (hloaded : Loaded k item) (hfind : fat16FindItemInDirectory fuel disk (k.entered item) s
      (k.directories (k.items item).item) part = some r) :
    ∃ lost, (lost = 0 ↔ NoOverwrite fuel disk (k.directories (k.items item).item) part
        (k.directories (k.items item).item).total.toNat 0 (k.entered item) s 0) ∧
      Walking disk (fat16FatItemFree r.2.1 r.2.2 item).1 (fat16FatItemFree r.2.1 r.2.2 item).2 r.1 ∧
      (Safe k.accesses → Safe (fat16FatItemFree r.2.1 r.2.2 item).1.accesses) ∧
      ∀ rest, held k.accesses = rest + k.owned item →
        held (fat16FatItemFree r.2.1 r.2.2 item).1.accesses =
          rest + lost + (fat16FatItemFree r.2.1 r.2.2 item).1.owned r.1 := by
  have hitem := h.held hne
  obtain ⟨hused, howned⟩ := hitem.used item
  obtain ⟨hentered, howned'⟩ := hused.used (k.items item).item
  obtain ⟨lost, hgained, hiff⟩ := @fat16FindItemInDirectory_gained fuel disk (k.entered item) s
    (k.directories (k.items item).item) part r h.ready hfuel h.linked h.null hfind
  obtain ⟨hfound, hloaded', hsame, hapart⟩ := @HeldItem.found fuel disk (k.entered item) s item part
    lost r hentered hloaded hfind hgained
  obtain ⟨hwalk, hsafe, hother, hheld⟩ := hfound.release hloaded'
    ⟨hgained.ready, hgained.linked, hgained.null, hgained.item⟩ (hsame ▸ hapart)
  refine ⟨lost, hiff, hwalk, fun hstart => hsafe (hgained.safe ⟨hloaded.2, hitem.live, hstart⟩),
    fun rest hrest => ?_⟩
  have hstart : held (k.entered item).accesses = rest + k.owned item := hrest
  have howned'' : (k.entered item).owned item = k.owned item := howned'.trans howned
  rw [hother, hheld (rest + lost + r.2.1.owned r.1)]
  rw [hgained.held, hstart, hsame, howned'']
  simp only [add_assoc, add_comm, add_left_comm]

/-- A walk that uses and frees live blocks only loses something unless it is clean. -/
lemma walk_conserves (h : Walking disk k s item) (hfuel : fuel < 2 ^ 26)
    (hheld : held k.accesses = rest + k.owned item)
    (hrun : directoryEntryLoop fuel disk path k s item = some r) (hsafe : Safe r.2.1.accesses) :
    ∃ lost, held r.2.1.accesses = rest + lost + r.2.1.owned r.1 ∧
      (lost = 0 → CleanFrom fuel disk path k s item) := by
  induction path generalizing k s item rest with
  | nil =>
    cases hrun
    exact ⟨0, by rwa [add_zero], fun _ => trivial⟩
  | cons part path ih =>
    have hsuffix := directoryEntryLoop_suffix hrun
    rw [directoryEntryLoop_cons] at hrun
    by_cases htype : (k.items item).type = .directory
    · rw [if_neg (not_not.2 htype)] at hrun
      obtain ⟨r', hfind, hrest⟩ := Option.bind_eq_some_iff.1 hrun
      have hentered : (k.entered item).accesses <:+ r.2.1.accesses :=
        ((findItemLoop_suffix hfind).trans (fat16FatItemFree_suffix _ _ _)).trans
          (directoryEntryLoop_suffix hrest)
      obtain ⟨hlive, hlive', -⟩ := hsafe.of_suffix hentered
      have hne : item ≠ 0 := fun hnull => h.null (hnull ▸ hlive')
      obtain ⟨lost, hiff, hwalk, -, hheld'⟩ := walk_step h hfuel hne ⟨htype, hlive⟩ hfind
      obtain ⟨more, hend, hclean⟩ := ih hwalk (hheld' rest hheld) hrest
      refine ⟨lost + more, by rw [hend, add_assoc rest], fun hzero => ?_⟩
      obtain ⟨hlost, hmore⟩ := add_eq_zero.1 hzero
      exact ⟨hne, ⟨htype, hlive⟩, hiff.1 hlost, r', hfind, hclean hmore⟩
    · rw [if_pos htype] at hrun
      cases hrun
      -- the item of a file is not freed
      have hne : item ≠ 0 := fun hnull => h.null (hnull ▸ hsafe.1)
      refine ⟨k.owned item, ?_, fun hzero => absurd (owned_eq_zero.1 hzero) hne⟩
      rw [owned_zero, add_zero]
      exact hheld

/-- A clean walk returns, uses and frees live blocks only and loses nothing. -/
lemma walk_clean (h : Walking disk k s item) (hfuel : fuel < 2 ^ 26)
    (hheld : held k.accesses = rest + k.owned item) (hsafe : Safe k.accesses)
    (hclean : CleanFrom fuel disk path k s item) :
    ∃ r, directoryEntryLoop fuel disk path k s item = some r ∧ Safe r.2.1.accesses ∧
      (r.1 ≠ 0 ↔ ResolvesFrom fuel disk path k s item) ∧
      held r.2.1.accesses = rest + r.2.1.owned r.1 := by
  induction path generalizing k s item with
  | nil => exact ⟨_, rfl, hsafe, Iff.rfl, hheld⟩
  | cons part path ih =>
    obtain ⟨hne, hloaded, hnone, r', hfind, hrest⟩ := hclean
    obtain ⟨lost, hiff, hwalk, hsafe', hheld'⟩ := walk_step h hfuel hne hloaded hfind
    have hnext := hheld' rest hheld
    rw [hiff.2 hnone, add_zero] at hnext
    obtain ⟨r, hrun, hsafe'', hresolves, hend⟩ := ih hwalk hnext (hsafe' hsafe) hrest
    refine ⟨r, ?_, hsafe'', hresolves.trans ?_, hend⟩
    · rw [directoryEntryLoop_cons, if_neg (not_not.2 hloaded.1), hfind]
      exact hrun
    · constructor
      · exact fun hall => ⟨hne, hloaded, r', hfind, hall⟩
      · rintro ⟨-, -, r'', hfind', hall⟩
        rw [hfind] at hfind'
        cases hfind'
        exact hall

/-- Every component of a path is found, all but the last as a directory that has been loaded. -/
def Resolves (fuel : ℕ) (disk : Disk) (k : FatState) (s : Kmem) (part : ℤ → Byte)
    (next : List (ℤ → Byte)) : Prop :=
  ∃ r, fat16FindItemInDirectory fuel disk k s k.fsPrivate.rootDirectory part = some r ∧
    ResolvesFrom fuel disk next r.2.1 r.2.2 r.1

/-- The walk returns. Only live blocks are used and freed, there is an item exactly when the path
resolves, and what is held in the end is the item. -/
def WalksWell (fuel : ℕ) (disk : Disk) (k : FatState) (s : Kmem) (part : ℤ → Byte)
    (next : List (ℤ → Byte)) : Prop :=
  ∃ r, fat16GetDirectoryEntry fuel disk k s part next = some r ∧ Safe r.2.1.accesses ∧
    (r.1 ≠ 0 ↔ Resolves fuel disk k s part next) ∧ held r.2.1.accesses = r.2.1.owned r.1

/-- The first lookup returns, replaces no item and finds nothing or the start of a clean walk. -/
def Clean (fuel : ℕ) (disk : Disk) (k : FatState) (s : Kmem) (part : ℤ → Byte)
    (next : List (ℤ → Byte)) : Prop :=
  NoOverwrite fuel disk k.fsPrivate.rootDirectory part k.fsPrivate.rootDirectory.total.toNat 0 k s 0 ∧
  ∃ r, fat16FindItemInDirectory fuel disk k s k.fsPrivate.rootDirectory part = some r ∧
    (r.1 ≠ 0 → CleanFrom fuel disk next r.2.1 r.2.2 r.1)

/-- The walk is as it should be exactly when it is clean. -/
theorem walksWell_iff (hready : Ready disk k.fsPrivate) (hfuel : fuel < 2 ^ 26)
    (hlinked : Linked s.entries) (hlog : k.accesses = []) (part : ℤ → Byte)
    (next : List (ℤ → Byte)) :
    WalksWell fuel disk k s part next ↔ Clean fuel disk k s part next := by
  have hnull : ¬ Live k.accesses 0 := by
    rw [hlog]
    exact not_false
  have hbefore : held k.accesses = 0 := by rw [hlog, held_nil]
  constructor
  · rintro ⟨r, hrun, hsafe, -, hend⟩
    obtain ⟨r', hfind, hrest⟩ := Option.bind_eq_some_iff.1 hrun
    obtain ⟨lost, hgained, hiff⟩ := fat16FindItemInDirectory_gained hready hfuel hlinked hnull hfind
    have hheld := hgained.held
    rw [hbefore, zero_add] at hheld
    by_cases hnone : r'.1 = 0
    · rw [if_pos hnone] at hrest
      cases hrest
      rw [hnone, owned_zero, add_zero] at hheld
      rw [owned_zero] at hend
      exact ⟨hiff.1 (hheld.symm.trans hend), r', hfind, fun hne => absurd hnone hne⟩
    · rw [if_neg hnone] at hrest
      obtain ⟨more, hmore, hclean⟩ := walk_conserves
        ⟨hgained.ready, hgained.linked, hgained.null, hgained.item⟩ hfuel hheld hrest hsafe
      rw [hend] at hmore
      obtain ⟨hlost, hmore'⟩ := add_eq_zero.1 (left_eq_add.1 (hmore.trans (add_comm _ _)))
      exact ⟨hiff.1 hlost, r', hfind, fun _ => hclean hmore'⟩
  · rintro ⟨hnone, r', hfind, hclean⟩
    obtain ⟨lost, hgained, hiff⟩ := fat16FindItemInDirectory_gained hready hfuel hlinked hnull hfind
    have hheld := hgained.held
    rw [hbefore, zero_add, hiff.2 hnone] at hheld
    have hsafe : Safe r'.2.1.accesses := hgained.safe (by rw [hlog]; exact trivial)
    have hresolves : Resolves fuel disk k s part next ↔
        ResolvesFrom fuel disk next r'.2.1 r'.2.2 r'.1 := by
      constructor
      · rintro ⟨r'', hfind', hall⟩
        rw [hfind] at hfind'
        cases hfind'
        exact hall
      · exact fun hall => ⟨r', hfind, hall⟩
    rw [WalksWell, hresolves]
    unfold fat16GetDirectoryEntry
    rw [hfind, Option.bind_some]
    by_cases hzero : r'.1 = 0
    · rw [if_pos hzero]
      rw [hzero, owned_zero, add_zero] at hheld
      refine ⟨_, rfl, hsafe, iff_of_false (fun h => h rfl) fun hall => ?_, ?_⟩
      · cases next with
        | nil => exact hall hzero
        | cons part' path => exact hall.1 hzero
      · rw [owned_zero]
        exact hheld
    · rw [if_neg hzero]
      obtain ⟨r, hrun, hsafe', hiff', hend⟩ := walk_clean
        ⟨hgained.ready, hgained.linked, hgained.null, hgained.item⟩ hfuel hheld hsafe (hclean hzero)
      exact ⟨r, hrun, hsafe', hiff', by rwa [zero_add] at hend⟩

/-- A disk whose root directory has the file A. -/
def oneFileDisk : Disk where
  addr := 0x200000
  sector s i :=
    if s = 0 then bootByte i
    else if s = 3 ∧ i = 0 then 0x41
    else if s = 3 ∧ 0 < i ∧ i < 11 then space
    else 0

/-- Its root directory, at sector 3. -/
def oneFile : Content where
  entry i j := oneFileDisk.byte (1536 + (sizeofDirectoryItem * i + j))
  stop := 1
  before := by decide
  terminator := by decide
  counted i := oneFileDisk.byte (1536 + (sizeofDirectoryItem * i + 0))
  countStop := 1
  counted_before := by decide
  counted_terminator := by decide

/-- The state with its root directory loaded, and the lookup of the file. -/
lemma oneFile_found : ∃ d p' s', fat16GetRootDirectory 100 oneFileDisk bootPrivate emptyKmem
      ⟨0, 0, 0, 0⟩ = some (0, d, p', s') ∧ d.total.toNat = 1 ∧
    Ready oneFileDisk { p' with rootDirectory := d } ∧ Linked s'.entries ∧
    ∃ r, fat16FindItemInDirectory 100 oneFileDisk (mountedState { p' with rootDirectory := d }) s' d
      lowerA = some r ∧ r.1 ≠ 0 ∧ (r.2.1.items r.1).type = .file := by
  obtain ⟨d, p', s', b, m, hload, hready, hlisting, hfrontier, hbytes⟩ :=
    @bootDisk_loads oneFile oneFileDisk rfl (fun _ => rfl) (fun _ _ => rfl) (by decide)
  have hready' : Ready oneFileDisk { p' with rootDirectory := d } :=
    ⟨⟨hready.table, hready.clusters, hready.sectors⟩, hready.directory⟩
  have htotal : oneFile.total = 1 := by decide
  obtain ⟨r, hnew, hne, htype, -⟩ := @fat16NewFatItem_file 100 oneFileDisk
    (mountedState { p' with rootDirectory := d }) s' (d.entry 0)
    (frontier_next_ne_zero hfrontier (by omega)) ((hbytes s' (.refl 0 1 s') 11 (by decide)).trans (by decide))
  have hname : (fat16GetFullRelativeFilename 100 (oneFile.entry 0) (fun _ => 0)
      maxPathLength).map (fun r => istrncmp r.out lowerA maxPathLength) = some 0 := by
    decide +kernel
  refine ⟨d, p', s', hload, ?_, hready', hlisting.linked, r, ?_, hne, htype⟩
  · rw [hlisting.total, htotal]
    rfl
  · exact hlisting.find_only hready' (by norm_num) (by omega) (Option.map_eq_some_iff.1 hname)
      (fun i hi _ => by omega) hnew

/-- A disk whose root directory has the directory A, in cluster 2, and that has the file A. -/
def nestedDisk : Disk where
  addr := 0x200000
  sector s i :=
    if s = 0 then bootByte i
    else if (s = 3 ∨ s = 35) ∧ i = 0 then 0x41
    else if (s = 3 ∨ s = 35) ∧ 0 < i ∧ i < 11 then space
    else if s = 3 ∧ i = 11 then fatFileSubdirectory
    else if s = 3 ∧ i = 26 then 2
    else 0

/-- The entries from a position on, of which there is one. -/
def nestedContent (pos : ℤ) (hfirst : nestedDisk.byte pos ≠ 0)
    (hsecond : nestedDisk.byte (pos + 32) = 0) : Content where
  entry i j := nestedDisk.byte (pos + (sizeofDirectoryItem * i + j))
  stop := 1
  before i hi := by
    obtain rfl : i = 0 := by omega
    simpa using hfirst
  terminator := by simpa [sizeofDirectoryItem] using hsecond
  counted i := nestedDisk.byte (pos + (sizeofDirectoryItem * i + 0))
  countStop := 1
  counted_before i hi := by
    obtain rfl : i = 0 := by omega
    simpa using hfirst
  counted_terminator := by simpa [sizeofDirectoryItem] using hsecond

/-- Its root directory, at sector 3. -/
def nestedRoot : Content := nestedContent 1536 (by decide) (by decide)

/-- The directory A, at sector 35. -/
def nestedDirectory : Content := nestedContent 17920 (by decide) (by decide)

lemma nested_total : nestedRoot.total = 1 ∧ nestedDirectory.total = 1 := ⟨by decide, by decide⟩

/-- Both entries have the name. -/
lemma nested_named : HasName 100 (nestedRoot.entry 0) lowerA ∧
    HasName 100 (nestedDirectory.entry 0) lowerA := by
  have hroot : (fat16GetFullRelativeFilename 100 (nestedRoot.entry 0) (fun _ => 0)
      maxPathLength).map (fun r => istrncmp r.out lowerA maxPathLength) = some 0 := by
    decide +kernel
  have hdirectory : (fat16GetFullRelativeFilename 100 (nestedDirectory.entry 0) (fun _ => 0)
      maxPathLength).map (fun r => istrncmp r.out lowerA maxPathLength) = some 0 := by
    decide +kernel
  exact ⟨Option.map_eq_some_iff.1 hroot, Option.map_eq_some_iff.1 hdirectory⟩

/-- The first bytes of the directory's cluster are at sector 35. -/
lemma nested_bytePos {p : FatPrivate} (hheader : p.header = bootPrivate.header)
    (hending : p.rootDirectory.endingSectorPos = 35) {o : ℤ} (hlow : 0 ≤ o) (hhigh : o < 32) :
    clusterFor nestedDisk p 2 o = 2 ∧ bytePos nestedDisk p 2 o = 17920 + o := by
  have hsize : sizeOfClusterBytes nestedDisk p = 512 := by
    rw [sizeOfClusterBytes, hheader]
    rfl
  have hsectors : p.header.sectorsPerCluster ≠ 0 := by
    rw [hheader]
    decide
  have hcluster : clusterFor nestedDisk p 2 o = 2 := by
    have hahead : o.tdiv 512 = 0 := Int.tdiv_eq_zero_of_lt hlow (by omega)
    rw [(clusterFor_eq nestedDisk hsectors 2 o).2, hsize, hahead]
    rfl
  refine ⟨hcluster, ?_⟩
  rw [bytePos, hcluster, hsize, fat16ClusterToSector, hending]
  omega

/-- Wherever its stream is, the directory is found and its entry is the one of the content. -/
lemma nested_placed {p : FatPrivate} (hheader : p.header = bootPrivate.header)
    (hending : p.rootDirectory.endingSectorPos = 35) :
    (∀ (stream : DiskStream) (o : ℤ), 0 ≤ o → o < (32 : ℕ) →
      0 ≤ clusterFor nestedDisk { p with directoryStream := some stream } 2 o ∧
      0 ≤ bytePos nestedDisk { p with directoryStream := some stream } 2 o ∧
      bytePos nestedDisk { p with directoryStream := some stream } 2 o < 2 ^ 31) ∧
    ∀ (stream : DiskStream) (i j : ℕ), sizeofDirectoryItem * i + j < 32 →
      nestedDirectory.entry i j = nestedDisk.byte (bytePos nestedDisk
        { p with directoryStream := some stream } 2 (sizeofDirectoryItem * i + j : ℕ)) := by
  have hpos : ∀ (stream : DiskStream) (o : ℤ), 0 ≤ o → o < 32 →
      clusterFor nestedDisk { p with directoryStream := some stream } 2 o = 2 ∧
      bytePos nestedDisk { p with directoryStream := some stream } 2 o = 17920 + o :=
    fun stream _ hlow hhigh =>
      @nested_bytePos { p with directoryStream := some stream } hheader hending _ hlow hhigh
  constructor
  · intro stream o hlow hhigh
    obtain ⟨hfor, hbyte⟩ := hpos stream o hlow hhigh
    rw [hfor, hbyte]
    omega
  · intro stream i j hj
    rw [(hpos stream _ (Int.natCast_nonneg _) (by omega)).2]
    rfl

/-- An item made for its entry is the directory with its file. -/
lemma nested_made {p : FatPrivate} {s : Kmem} {entry : Word} (hready : Ready nestedDisk p)
    (hheader : p.header = bootPrivate.header) (hending : p.rootDirectory.endingSectorPos = 35)
    (hlinked : Linked s.entries) (hfrontier : Frontier s 4)
    (hbytes : ∀ s', KeepsRun 0 1 s s' → ∀ j : ℕ, j < sizeofDirectoryItem →
      pointer s'.mem entry j = nestedRoot.entry 0 j) :
    ∃ item directory, ∃ k : FatState, ∃ s' b m,
      fat16NewFatItemForDirectoryItem 100 nestedDisk (mountedState p) s entry = some (item,
        k.setItem item ⟨directory, .directory⟩, s') ∧ item ≠ 0 ∧ Live k.accesses directory ∧
      Listing 100 s' (k.directories directory) nestedDirectory b m ∧ (kzalloc s' 8).1 ≠ 0 ∧
      pointer s'.mem ((k.directories directory).entry 0) (11 : ℕ) =
        nestedDirectory.entry 0 (11 : ℕ) := by
  have hkept₁ : KeepsRun 0 1 s (kzalloc s 8).2 := keepsRun_kzalloc one_pos (by omega) (by decide)
  have hkept₂ : KeepsRun 0 1 s (kzalloc (kzalloc s 8).2 16).2 :=
    hkept₁.trans (keepsRun_kzalloc one_pos (by omega) (by decide))
  obtain ⟨hitem, hfrontier₁⟩ := frontier_next hfrontier (show (heapBlocksFor 8).toNat = 1 by decide)
    (by omega)
  obtain ⟨hrecord, hfrontier₂⟩ := frontier_next hfrontier₁ (show (heapBlocksFor 16).toNat = 1 by decide)
    (by omega)
  obtain ⟨-, hfrontier₃⟩ := frontier_next hfrontier₂
    (show (heapBlocksFor (BitVec.ofNat 32 32)).toNat = 1 by decide) (by omega)
  have hattributes : FatDirectoryItem.attributes (pointer (kzalloc s 8).2.mem entry) =
      fatFileSubdirectory := (hbytes _ hkept₁ 11 (by decide)).trans (by decide)
  have hcluster : (fat16GetFirstCluster (pointer (kzalloc (kzalloc s 8).2 16).2.mem entry)).toInt = 2 := by
    rw [fat16GetFirstCluster_congr (hbytes _ hkept₂)]
    decide
  have hsector : fat16ClusterToSector p 2 = 35 := by
    rw [fat16ClusterToSector, hending]
    ring
  obtain ⟨stream, -, hcount⟩ := @fat16GetTotalItemsForDirectory_terminator 100 nestedDisk p 1
    hready.directory (BitVec.ofInt 32 35) (by decide) (by decide)
    (fun k hk => by
      obtain rfl : k = 0 := by omega
      decide) (by decide) (by decide)
  rw [← hsector, ← hcluster] at hcount
  obtain ⟨directory, hloaded, hnew⟩ := @fat16NewFatItem_directory 100 nestedDisk (mountedState p) s
    hready entry hitem (by rw [hattributes]; decide) _ hcount
  obtain ⟨-, htotal⟩ := nested_total
  have hsize : sizeofDirectoryItem * nestedDirectory.total = 32 := by
    rw [htotal]
    rfl
  obtain ⟨hplace, hentry⟩ := nested_placed hheader hending
  have hroom : (kzalloc (kzalloc s 8).2 16).2.Room (heapBlocksFor (BitVec.ofNat 32
      (sizeofDirectoryItem * nestedDirectory.total))).toNat := by
    rw [hsize]
    exact ⟨6, by decide, fun j h1 h2 => hfrontier₂.free j h1 (lt_trans h2 (by decide))⟩
  rw [← hsize] at hplace hentry
  obtain ⟨⟨b, m, hlisting⟩, hfirst, hlive, hentries⟩ := @loadListing 100 nestedDisk
    ((mountedState p).log (.made (kzalloc s 8).1)) (kzalloc s 8).2 nestedDirectory entry 2
    (BitVec.ofInt 32 35) hready (hlinked.kzalloc 8) (by rw [hattributes]; decide) hrecord hroom
    hcluster.symm (by rw [← hsector]; rfl) (by decide) (by decide) (fun _ => rfl) (by decide) (by omega)
    (by omega) hplace hentry
    (fun i hi => ⟨8, le_rfl, by omega, .inr (by
      obtain rfl : i = 0 := by omega
      decide), by decide⟩) directory hloaded
  rw [hsize] at hentries
  have hlast : Frontier directory.2.2 7 :=
    ⟨by rw [hentries]; exact hfrontier₃.taken, by rw [hentries]; exact hfrontier₃.free⟩
  exact ⟨_, directory.1, directory.2.1, directory.2.2, b, m, hnew, hitem, hlive, hlisting,
    frontier_next_ne_zero hlast (by omega), hfirst 0 (htotal ▸ one_pos) 11 (by decide)⟩

/-- The state with the root directory loaded, the lookup of the directory and that of the file. -/
lemma nested_found : ∃ d p' s', fat16GetRootDirectory 100 nestedDisk bootPrivate emptyKmem
      ⟨0, 0, 0, 0⟩ = some (0, d, p', s') ∧ d.total.toNat = 1 ∧
    Ready nestedDisk { p' with rootDirectory := d } ∧ Linked s'.entries ∧
    ∃ r, fat16FindItemInDirectory 100 nestedDisk (mountedState { p' with rootDirectory := d }) s' d
      lowerA = some r ∧ r.1 ≠ 0 ∧ Loaded r.2.1 r.1 ∧
    (r.2.1.directories (r.2.1.items r.1).item).total.toNat = 1 ∧
    ∃ r', fat16FindItemInDirectory 100 nestedDisk (r.2.1.entered r.1) r.2.2
      (r.2.1.directories (r.2.1.items r.1).item) lowerA = some r' ∧ r'.1 ≠ 0 := by
  obtain ⟨d, p', s', b, m, hload, hready, hlisting, hfrontier, hbytes⟩ :=
    @bootDisk_loads nestedRoot nestedDisk rfl (fun _ => rfl) (fun _ _ => rfl) (by decide)
  obtain ⟨hending, hheader⟩ := fat16GetRootDirectory_endingSectorPos hload
  have hready' : Ready nestedDisk { p' with rootDirectory := d } :=
    ⟨⟨hready.table, hready.clusters, hready.sectors⟩, hready.directory⟩
  obtain ⟨item, directory, k, s'', b', m', hnew, hitem, hlive, hlisting', hroom, hattributes⟩ :=
    @nested_made { p' with rootDirectory := d } s' (d.entry 0) hready' hheader
      (hending.trans (by decide)) hlisting.linked hfrontier hbytes
  have hsmall : 100 < 2 ^ 26 := by norm_num
  have hready'' : Ready nestedDisk ((k.setItem item ⟨directory, .directory⟩).entered item).fsPrivate :=
    fat16NewFatItem_ready hready' hsmall hnew
  obtain ⟨r', hnew', hne, -⟩ := @fat16NewFatItem_file 100 nestedDisk
    ((k.setItem item ⟨directory, .directory⟩).entered item) s''
    ((k.directories directory).entry 0) hroom (hattributes.trans (by decide))
  have hsame : (k.setItem item ⟨directory, .directory⟩).items item = ⟨directory, .directory⟩ :=
    Function.update_self _ _ _
  obtain ⟨htotal, htotal'⟩ := nested_total
  obtain ⟨hnamed, hnamed'⟩ := nested_named
  -- stated apart, as omega would unfold the two totals to compare them
  have hsole : ∀ n i : ℕ, n = 1 → i < n → i = 0 := by omega
  have hfind := hlisting.find_only hready' hsmall (htotal.symm ▸ Nat.one_pos) hnamed
    (fun i hi _ => hsole _ i htotal hi) hnew
  have hfind' := hlisting'.find_only hready'' hsmall (htotal'.symm ▸ Nat.one_pos) hnamed'
    (fun i hi _ => hsole _ i htotal' hi) hnew'
  refine ⟨d, p', s', hload, ?_, hready', hlisting.linked, _, hfind, hitem, ⟨?_, ?_⟩, ?_, r', ?_, hne⟩
  · rw [hlisting.total, htotal]
    rfl
  · rw [hsame]
  · rw [hsame]
    exact hlive
  · rw [hsame]
    change (k.directories directory).total.toNat = 1
    rw [hlisting'.total, htotal']
    rfl
  · rw [hsame]
    exact hfind'

/-- The walk of `a/a` finds the file. -/
theorem walksWell_iff_nested : ∃ d p' s', fat16GetRootDirectory 100 nestedDisk bootPrivate emptyKmem
      ⟨0, 0, 0, 0⟩ = some (0, d, p', s') ∧
    Resolves 100 nestedDisk (mountedState { p' with rootDirectory := d }) s' lowerA [lowerA] ∧
    WalksWell 100 nestedDisk (mountedState { p' with rootDirectory := d }) s' lowerA [lowerA] := by
  obtain ⟨d, p', s', hload, htotal, hready, hlinked, r, hfind, hne, hloaded, htotal', r', hfind', hne'⟩ :=
    nested_found
  refine ⟨d, p', s', hload, ⟨r, hfind, hne, hloaded, r', hfind', hne'⟩, ?_⟩
  apply (@walksWell_iff 100 nestedDisk (mountedState { p' with rootDirectory := d }) s' hready
    (by norm_num) hlinked rfl lowerA [lowerA]).2
  refine ⟨?_, r, hfind, fun _ => ⟨hne, hloaded, ?_, r', hfind', trivial⟩⟩
  · change NoOverwrite _ _ _ _ d.total.toNat _ _ _ _
    rw [htotal]
    exact ⟨fun _ => ⟨rfl, fun _ _ => trivial⟩, fun _ => trivial⟩
  · rw [htotal']
    exact ⟨fun _ => ⟨rfl, fun _ _ => trivial⟩, fun _ => trivial⟩

/-- The file A is no directory: the walk of `a/a` returns null and leaves its item behind. -/
theorem walksWell_throughFile : ∃ d p' s', fat16GetRootDirectory 100 oneFileDisk bootPrivate emptyKmem
      ⟨0, 0, 0, 0⟩ = some (0, d, p', s') ∧
    ¬ WalksWell 100 oneFileDisk (mountedState { p' with rootDirectory := d }) s' lowerA [lowerA] ∧
    ∃ k s'', fat16GetDirectoryEntry 100 oneFileDisk (mountedState { p' with rootDirectory := d }) s'
      lowerA [lowerA] = some (0, k, s'') ∧ held k.accesses ≠ 0 := by
  obtain ⟨d, p', s', hload, -, hready, hlinked, r, hfind, hne, htype⟩ := oneFile_found
  have hrun : fat16GetDirectoryEntry 100 oneFileDisk (mountedState { p' with rootDirectory := d }) s'
      lowerA [lowerA] = some (0, r.2.1.log (.used r.1), r.2.2) := by
    unfold fat16GetDirectoryEntry
    change (fat16FindItemInDirectory _ _ _ _ d _).bind _ = _
    rw [hfind, Option.bind_some, if_neg hne, directoryEntryLoop_cons, if_pos (by rw [htype]; decide)]
  have hleft : held (r.2.1.log (.used r.1)).accesses ≠ 0 := by
    obtain ⟨lost, hgained, -⟩ := @fat16FindItemInDirectory_gained 100 oneFileDisk
      (mountedState { p' with rootDirectory := d }) s' d lowerA r hready (by norm_num) hlinked
      not_false hfind
    change held r.2.1.accesses ≠ 0
    rw [hgained.held]
    exact fun hzero => hne (owned_eq_zero.1 (add_eq_zero.1 hzero).2)
  refine ⟨d, p', s', hload, ?_, _, _, hrun, hleft⟩
  rintro ⟨r', hrun', -, -, hend⟩
  rw [hrun] at hrun'
  cases hrun'
  rw [owned_zero] at hend
  exact hleft hend

end AlphaOS.Fat16
