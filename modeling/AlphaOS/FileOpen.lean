import AlphaOS.BlockPins
import AlphaOS.File
import AlphaOS.PathParserSpec

/-! What `fopen` and `fclose` leave of the heap. -/
namespace AlphaOS.Files
open BlockHeap CString Kheap Paging PathParser Tasks WordMemory

/-! The path parser keeps every taken block. -/

section Parser
variable {s s' : Kmem} {path path' root part lastPart : Word} {fuel : ℕ}

/-- A block that is taken and given back at once. -/
lemma preserves_release (hlow : Low s.entries) {size : Word}
    (hsize : (heapBlocksFor size).toNat = 1) {s' : Kmem}
    (hs' : s'.entries = (kzalloc s size).2.entries) :
    Preserves s (kfree s' (kzalloc s size).1) := by
  rcases kzalloc_single s hsize with ⟨-, heq⟩ | ⟨b, hb, hfree, heq⟩
  · rw [heq] at hs' ⊢
    have hlow' : Low s'.entries := by rwa [hs']
    refine ⟨hlow'.kfree, fun c _ _ => ?_⟩
    rw [hlow'.kfree_null (Int.natCast_nonneg c), hs']
  · have hentries : ∀ x : ℤ, s'.entries x = if x = b then blockEntry 1 0 else s.entries x := by
      intro x
      rw [hs', heq]
      exact take_one_entries s b x
    have hlow' : Low s'.entries := by
      rw [hs']
      exact hlow.kzalloc size
    have hheld : Held s' b := ⟨hb, by rw [hentries, if_pos rfl]⟩
    rw [heq]
    refine ⟨hlow'.kfree, fun c _ hnot => ?_⟩
    have hne : c ≠ b := fun hcb => hnot (hcb ▸ hfree)
    rw [(kfree_held hheld).same c fun d hd => by
      rw [Set.mem_singleton_iff.1 hd]
      exact_mod_cast hne]
    rw [hentries, if_neg (by exact_mod_cast hne)]

lemma getPathPart_preserves (hlow : Low s.entries)
    (h : pathparserGetPathPart fuel s path = some (part, path', s')) : Preserves s s' := by
  obtain ⟨r, -, heq⟩ := Option.map_eq_some_iff.1 h
  split_ifs at heq with hzero
  · simp only [Prod.mk.injEq] at heq
    rw [← heq.2.2]
    exact preserves_release hlow (by decide) rfl
  · simp only [Prod.mk.injEq] at heq
    rw [← heq.2.2]
    exact (hlow.kzalloc_preserves 108).withMem _

lemma parsePathPart_preserves (hlow : Low s.entries)
    (h : pathparserParsePathPart fuel s lastPart path = some (part, path', s')) :
    Preserves s s' := by
  obtain ⟨⟨text, next, s₁⟩, hpart, heq⟩ := Option.map_eq_some_iff.1 h
  have hfirst := getPathPart_preserves hlow hpart
  by_cases hnull : text = 0
  · rw [if_pos hnull] at heq
    simp only [Prod.mk.injEq] at heq
    rw [← heq.2.2]
    exact hfirst
  · rw [if_neg hnull] at heq
    simp only [Prod.mk.injEq] at heq
    rw [← heq.2.2]
    exact hfirst.trans ((hfirst.low.kzalloc_preserves 8).withMem _)

lemma parsePartsLoop_preserves (hlow : Low s.entries)
    (h : parsePartsLoop fuel s part path = some s') : Preserves s s' := by
  induction fuel generalizing s part path with
  | zero => exact absurd h (by simp [parsePartsLoop])
  | succ fuel ih =>
    rw [parsePartsLoop] at h
    by_cases hend : part = 0
    · rw [if_pos hend, Option.some.injEq] at h
      rw [← h]
      exact Preserves.refl hlow
    · rw [if_neg hend] at h
      obtain ⟨⟨next, path'', s₁⟩, hpart, hrest⟩ := Option.bind_eq_some_iff.1 h
      have hfirst := parsePathPart_preserves hlow hpart
      exact hfirst.trans (ih hfirst.low hrest)

/-- The root is a block of its own, unless there is none left. -/
lemma createRoot_cases (s : Kmem) (d : ℤ) :
    ((∀ b < 25600, ¬ IsFree s.entries b) ∧ (pathparserCreateRoot s d).1 = 0 ∧
      (pathparserCreateRoot s d).2.entries = s.entries) ∨
    ∃ b < 25600, IsFree s.entries b ∧ (pathparserCreateRoot s d).1 = blockAddr b ∧
      Held (pathparserCreateRoot s d).2 b := by
  rcases kzalloc_single s (show (heapBlocksFor 8).toNat = 1 by decide) with
    ⟨hfull, heq⟩ | ⟨b, hb, hfree, heq⟩
  · refine .inl ⟨hfull, ?_, ?_⟩ <;> rw [pathparserCreateRoot, heq]
    rfl
  · refine .inr ⟨b, hb, hfree, ?_, hb, ?_⟩ <;> rw [pathparserCreateRoot, heq]
    exact (take_one_entries s b b).trans (if_pos rfl)

/-- The parser refuses the path, or finds no block for the root. -/
def Refused (fuel : ℕ) (s : Kmem) (path : Word) : Prop :=
  (∃ len, strlen fuel s.mem path = some len ∧ maxPathLength < len) ∨
    (pathparserGetDriveByPath s.mem path).1 < 0 ∨ ∀ b < 25600, ¬ IsFree s.entries b

/-- A refused path gives null and leaves the heap as it is. -/
lemma Refused.parse (hrefused : Refused fuel s path)
    (h : pathparserParse fuel s path = some (root, s')) : root = 0 ∧ s'.entries = s.entries := by
  obtain ⟨len, hlen, heq⟩ := Option.bind_eq_some_iff.1 h
  have hnull : ∀ t : Kmem, some ((0 : Word), t) = some (root, s') → t.entries = s.entries →
      root = 0 ∧ s'.entries = s.entries := by
    intro t ht hentries
    simp only [Option.some.injEq, Prod.mk.injEq] at ht
    rw [← ht.1, ← ht.2]
    exact ⟨rfl, hentries⟩
  by_cases hlong : len > maxPathLength
  · rw [if_pos hlong] at heq
    exact hnull s heq rfl
  rw [if_neg hlong] at heq
  by_cases hneg : (pathparserGetDriveByPath s.mem path).1 < 0
  · rw [if_pos hneg] at heq
    exact hnull s heq rfl
  rw [if_neg hneg] at heq
  rcases hrefused with ⟨len', hlen', hlt⟩ | hneg' | hfull
  · rw [hlen] at hlen'
    exact absurd (Option.some.inj hlen' ▸ hlt) hlong
  · exact absurd hneg' hneg
  · obtain ⟨-, hroot, hentries⟩ | ⟨b, hb, hfree, -⟩ :=
      createRoot_cases s (pathparserGetDriveByPath s.mem path).1
    · rw [if_pos hroot] at heq
      exact hnull _ heq hentries
    · exact absurd hfree (hfull b hb)

/-- Any other path gives a root in a block that was free. -/
lemma parse_root (hlow : Low s.entries) (hrefused : ¬ Refused fuel s path)
    (h : pathparserParse fuel s path = some (root, s')) :
    Preserves s s' ∧ ∃ b < 25600, IsFree s.entries b ∧ root = blockAddr b ∧ Held s' b := by
  obtain ⟨len, hlen, heq⟩ := Option.bind_eq_some_iff.1 h
  unfold Refused at hrefused
  push Not at hrefused
  obtain ⟨hshort, hdrive, c, hc, hcfree⟩ := hrefused
  rw [if_neg (not_lt.2 (hshort len hlen)), if_neg (not_lt.2 hdrive)] at heq
  have hfirst : Preserves s (pathparserCreateRoot s (pathparserGetDriveByPath s.mem path).1).2 :=
    (hlow.kzalloc_preserves 8).withMem _
  obtain ⟨hfull, -⟩ | ⟨b, hb, hfree, hroot, hheld⟩ :=
    createRoot_cases s (pathparserGetDriveByPath s.mem path).1
  · exact absurd hcfree (hfull c hc)
  dsimp only at heq
  rw [hroot, if_neg (blockAddr_ne_zero (by omega))] at heq
  generalize (pathparserCreateRoot s (pathparserGetDriveByPath s.mem path).1).2 = s₁ at *
  -- the parts are added around the root
  have hlast : root = blockAddr b ∧ Preserves s₁ s' := by
    obtain ⟨⟨first, next, s₂⟩, hpart, hrest⟩ := Option.bind_eq_some_iff.1 heq
    have h₂ := parsePathPart_preserves hfirst.low hpart
    by_cases hnone : first = 0
    · rw [if_pos hnone] at hrest
      simp only [Option.some.injEq, Prod.mk.injEq] at hrest
      rw [← hrest.1, ← hrest.2]
      exact ⟨rfl, h₂⟩
    · rw [if_neg hnone] at hrest
      obtain ⟨⟨second, next', s₃⟩, hpart', hloop⟩ := Option.bind_eq_some_iff.1 hrest
      obtain ⟨s₄, hparts, hend⟩ := Option.map_eq_some_iff.1 hloop
      have h₃ := parsePathPart_preserves (h₂.withMem _).low hpart'
      simp only [Prod.mk.injEq] at hend
      rw [← hend.1, ← hend.2]
      exact ⟨rfl, (h₂.withMem _).trans (h₃.trans (parsePartsLoop_preserves h₃.low hparts))⟩
  refine ⟨hfirst.trans hlast.2, b, hb, hfree, hlast.1, hb, ?_⟩
  rw [hlast.2.taken b hb hheld.not_free]
  exact hheld.2

end Parser

/-! The blocks of the file systems are told apart from those of the other parts. -/

section Blocks
variable {σ : Type} {blocks : σ → Set ℕ} {v : Storage σ} {k k' k'' : FileState σ}

/-- The file systems hold taken blocks. -/
structure Sound (blocks : σ → Set ℕ) (k : FileState σ) : Prop where
  low : Low k.kmem.entries
  held : ∀ b ∈ blocks k.fs, b < 25600 ∧ ¬ IsFree k.kmem.entries b

/-- From `k` to `k'` the taken blocks of others keep their entries and stay theirs. -/
structure Guarded (blocks : σ → Set ℕ) (k k' : FileState σ) : Prop extends Sound blocks k' where
  kept : ∀ b < 25600, ¬ IsFree k.kmem.entries b → b ∉ blocks k.fs →
    k'.kmem.entries b = k.kmem.entries b ∧ b ∉ blocks k'.fs

/-- `open` and `close` take only free blocks and give back only blocks of the file systems. -/
structure Filesystem.Confined (f : Filesystem σ) (blocks : σ → Set ℕ) : Prop where
  fsOpen : ∀ (k : FileState σ) (disk part : Word) (mode : FileMode), Sound blocks k →
    Guarded blocks k (k.withFs (f.fsOpen k.fs k.kmem disk part mode).2)
  fsClose : ∀ (k : FileState σ) (privateData : Word), Sound blocks k →
    Guarded blocks k (k.withFs (f.fsClose k.fs k.kmem privateData).2)

lemma Guarded.trans (h : Guarded blocks k k') (h' : Guarded blocks k' k'') :
    Guarded blocks k k'' := by
  refine ⟨h'.toSound, fun b hb htaken hnot => ?_⟩
  obtain ⟨hentry, hnot'⟩ := h.kept b hb htaken hnot
  rw [← hentry]
  refine h'.kept b hb ?_ hnot'
  rw [IsFree, hentry]
  exact htaken

/-- A block that was free is none of the file systems'. -/
lemma Sound.not_mem (h : Sound blocks k) {b : ℕ} (hfree : IsFree k.kmem.entries b) :
    b ∉ blocks k.fs :=
  fun hmem => (h.held b hmem).2 hfree

lemma Preserves.guarded {s : Kmem} (h : Preserves k.kmem s) (hsound : Sound blocks k) :
    Guarded blocks k (k.withKmem s) := by
  refine ⟨⟨h.low, fun b hmem => ?_⟩, fun b hb htaken hnot => ⟨h.taken b hb htaken, hnot⟩⟩
  obtain ⟨hb, htaken⟩ := hsound.held b hmem
  refine ⟨hb, ?_⟩
  change ¬ IsFree s.entries b
  rw [IsFree, h.taken b hb htaken]
  exact htaken

/-- The new descriptor in slot `i` and block `d`. -/
def FileState.addDescriptor (k : FileState σ) (i : Fin maxFiledescriptors) (d : ℕ)
    (desc : FileDescriptor) : FileState σ :=
  { k with
    kmem := k.kmem.takeZeroed 16 1 d
    fileDescriptors := Function.update k.fileDescriptors i (blockAddr d)
    descriptors := Function.update k.descriptors (blockAddr d) desc }

@[simp] lemma addDescriptor_descriptors (k : FileState σ) (i : Fin maxFiledescriptors) (d : ℕ)
    (desc : FileDescriptor) : (k.addDescriptor i d desc).descriptors =
      Function.update k.descriptors (blockAddr d) desc := rfl
@[simp] lemma addDescriptor_fileDescriptors (k : FileState σ) (i : Fin maxFiledescriptors) (d : ℕ)
    (desc : FileDescriptor) : (k.addDescriptor i d desc).fileDescriptors =
      Function.update k.fileDescriptors i (blockAddr d) := rfl

lemma fileNewDescriptor_none (h : emptySlot k.fileDescriptors = none) :
    fileNewDescriptor k = (-enomem, 0, k) := by
  unfold fileNewDescriptor
  rw [h]

lemma fileNewDescriptor_some {i : Fin maxFiledescriptors}
    (h : emptySlot k.fileDescriptors = some i) : fileNewDescriptor k =
      (0, (allocDescriptor k).1, { (allocDescriptor k).2.setDescriptor (allocDescriptor k).1
          { (allocDescriptor k).2.descriptors (allocDescriptor k).1 with index := i + 1 } with
        fileDescriptors := Function.update (allocDescriptor k).2.fileDescriptors i
          (allocDescriptor k).1 }) := by
  unfold fileNewDescriptor
  rw [h]
  rfl

lemma emptySlot_empty {i : Fin maxFiledescriptors} (h : emptySlot k.fileDescriptors = some i) :
    k.fileDescriptors i = 0 := by
  unfold emptySlot at h
  simpa using (Fin.find?_eq_some_iff.1 h).1

lemma allocDescriptor_cases (k : FileState σ) :
    ((∀ b < 25600, ¬ IsFree k.kmem.entries b) ∧ allocDescriptor k = (0, k)) ∨
    ∃ d < 25600, IsFree k.kmem.entries d ∧ allocDescriptor k = (blockAddr d,
      (k.withKmem (k.kmem.takeZeroed 16 1 d)).setDescriptor (blockAddr d) zeroDescriptor) := by
  rcases kzalloc_single k.kmem (show (heapBlocksFor 16).toNat = 1 by decide) with
    ⟨hfull, heq⟩ | ⟨d, hd, hfree, heq⟩
  · refine .inl ⟨hfull, ?_⟩
    simp only [allocDescriptor, heq]
    rw [if_neg (not_not.2 rfl)]
    rfl
  · refine .inr ⟨d, hd, hfree, ?_⟩
    simp only [allocDescriptor, heq]
    rw [if_pos (blockAddr_ne_zero (by omega))]
    rfl

/-- The state after `file_new_descriptor` found slot `i`. -/
lemma fopenDescriptor_some {i : Fin maxFiledescriptors} {desc : Word}
    (h : emptySlot k.fileDescriptors = some i) (halloc : allocDescriptor k = (desc, k'))
    (privateData disk : Word) : fopenDescriptor v k privateData disk =
      ((i : ℤ) + 1, desc, { k' with
        fileDescriptors := Function.update k'.fileDescriptors i desc
        descriptors := Function.update k'.descriptors desc
          ⟨i + 1, v.filesystem, privateData, disk⟩ }) := by
  have hnew := fileNewDescriptor_some h
  rw [halloc] at hnew
  rw [fopenDescriptor, hnew]
  dsimp only
  rw [if_neg (lt_irrefl 0)]
  simp [FileState.setDescriptor]

/-- Without an empty slot there is no descriptor; without a free block it is written to null. -/
lemma fopenDescriptor_cases (v : Storage σ) (k : FileState σ) (privateData disk : Word) :
    (emptySlot k.fileDescriptors = none ∧
      fopenDescriptor v k privateData disk = (-enomem, 0, k)) ∨
    ∃ i, emptySlot k.fileDescriptors = some i ∧
      (((∀ b < 25600, ¬ IsFree k.kmem.entries b) ∧
        ∃ descriptors, fopenDescriptor v k privateData disk =
          ((i : ℤ) + 1, 0, { k with descriptors := descriptors })) ∨
      ∃ d < 25600, IsFree k.kmem.entries d ∧ fopenDescriptor v k privateData disk =
        ((i : ℤ) + 1, blockAddr d, k.addDescriptor i d ⟨i + 1, v.filesystem, privateData, disk⟩)) := by
  cases hslot : emptySlot k.fileDescriptors with
  | none =>
    refine .inl ⟨rfl, ?_⟩
    rw [fopenDescriptor, fileNewDescriptor_none hslot]
    dsimp only
    rw [if_pos (by decide)]
  | some i =>
    refine .inr ⟨i, rfl, ?_⟩
    rcases allocDescriptor_cases k with ⟨hfull, halloc⟩ | ⟨d, hd, hfree, halloc⟩
    · have hsame : Function.update k.fileDescriptors i 0 = k.fileDescriptors := by
        rw [← emptySlot_empty hslot, Function.update_eq_self]
      have hnull := fopenDescriptor_some (v := v) hslot halloc privateData disk
      rw [hsame] at hnull
      exact .inl ⟨hfull, _, hnull⟩
    · refine .inr ⟨d, hd, hfree, (fopenDescriptor_some hslot halloc _ _).trans ?_⟩
      simp [FileState.addDescriptor, FileState.setDescriptor, FileState.withKmem]

/-- The call of `open`, or what comes before it, fails or gives private data. -/
lemma fopenPrivate_cases (hfs : (v.filesystems v.filesystem).Confined blocks)
    (hsound : Sound blocks k) (rootPath modeStr : Word) :
    let r := fopenPrivate v k rootPath modeStr
    (r.1 < 0 ∨ r.1 = 0) ∧ Guarded blocks k r.2.2 ∧
      r.2.2.fileDescriptors = k.fileDescriptors ∧ r.2.2.descriptors = k.descriptors := by
  have hself : Guarded blocks k k := ⟨hsound, fun b _ _ hnot => ⟨rfl, hnot⟩⟩
  have hopen := fun disk part mode => hfs.fsOpen k disk part mode hsound
  unfold fopenPrivate
  dsimp only
  split_ifs with hroot hfirst hdisk hnone hmode herr
  · exact ⟨.inl (neg_neg_of_pos two_pos), hself, rfl, rfl⟩
  · exact ⟨.inl (neg_neg_of_pos two_pos), hself, rfl, rfl⟩
  · exact ⟨.inl (neg_neg_of_pos one_pos), hself, rfl, rfl⟩
  · exact ⟨.inl (neg_neg_of_pos one_pos), hself, rfl, rfl⟩
  · exact ⟨.inl (neg_neg_of_pos two_pos), hself, rfl, rfl⟩
  · exact ⟨.inl (of_decide_eq_true herr), hopen _ _ _, rfl, rfl⟩
  · exact ⟨.inr rfl, hopen _ _ _, rfl, rfl⟩

/-- What `fopen` returns, from the path and the state behind the parser. -/
lemma fopen_some {fuel : ℕ} {filename modeStr : Word} {fd : ℤ}
    (h : fopen v fuel k filename modeStr = some (fd, k')) : ∃ root s,
    pathparserParse fuel k.kmem filename = some (root, s) ∧
    fd = (if (fopenRoot v (k.withKmem s) root modeStr).1 < 0 then 0
      else (fopenRoot v (k.withKmem s) root modeStr).1) ∧
    k' = (fopenRoot v (k.withKmem s) root modeStr).2.2 := by
  obtain ⟨r, hresult, heq⟩ := Option.map_eq_some_iff.1 h
  obtain ⟨⟨root, s⟩, hparse, hroot⟩ := Option.map_eq_some_iff.1 hresult
  simp only [Prod.mk.injEq] at heq
  rw [← hroot] at heq
  exact ⟨root, s, hparse, heq.1.symm, heq.2.symm⟩

/-- The last slot is out of reach. -/
lemma fileGetDescriptor_slot (k : FileState σ) (i : Fin maxFiledescriptors) :
    fileGetDescriptor k ((i : ℤ) + 1) = if (i : ℕ) = 511 then 0 else k.fileDescriptors i := by
  have hlt : (i : ℕ) < 512 := i.2
  unfold fileGetDescriptor
  by_cases hlast : (i : ℕ) = 511
  · rw [if_pos hlast, dif_pos (by omega)]
  · rw [if_neg hlast, dif_neg (by omega)]
    congr 1
    apply Fin.ext
    change ((i : ℤ) + 1 - 1).toNat = i
    omega

lemma fclose_null {fd : ℤ} (h : fileGetDescriptor k fd = 0) : fclose v k fd = (-eio, k) := by
  unfold fclose
  dsimp only
  rw [if_pos h]

lemma fclose_desc {fd : ℤ} {desc : Word} (h : fileGetDescriptor k fd = desc) (hne : desc ≠ 0) :
    let d := k.descriptors desc
    let r := (v.filesystems d.filesystem).fsClose k.fs k.kmem d.privateData
    fclose v k fd =
      (r.1, if r.1 = allOk then fileFreeDescriptor (k.withFs r.2) desc else k.withFs r.2) := by
  unfold fclose
  dsimp only
  rw [h, if_neg hne]

/-- A file descriptor's block: one block of its own, none of the file systems'. -/
structure OwnBlock (blocks : σ → Set ℕ) (k : FileState σ) (d : ℕ) : Prop where
  held : Held k.kmem d
  not_mem : d ∉ blocks k.fs

lemma Guarded.ownBlock (h : Guarded blocks k k') {d : ℕ} (hown : OwnBlock blocks k d) :
    OwnBlock blocks k' d := by
  obtain ⟨hentry, hnot⟩ := h.kept d hown.held.1 hown.held.not_free hown.not_mem
  exact ⟨⟨hown.held.1, hentry.trans hown.held.2⟩, hnot⟩

/-- A new descriptor lies in a block of its own. -/
lemma addDescriptor_guarded (hsound : Sound blocks k) {d : ℕ} (hd : d < 25600)
    (hfree : IsFree k.kmem.entries d) (i : Fin maxFiledescriptors) (desc : FileDescriptor) :
    Guarded blocks k (k.addDescriptor i d desc) ∧ OwnBlock blocks (k.addDescriptor i d desc) d := by
  have hentries : ∀ x : ℤ, (k.addDescriptor i d desc).kmem.entries x =
      if x = d then blockEntry 1 0 else k.kmem.entries x := take_one_entries k.kmem d
  have hkept : ∀ b < 25600, ¬ IsFree k.kmem.entries b →
      (k.addDescriptor i d desc).kmem.entries b = k.kmem.entries b := by
    intro b hb htaken
    rw [hentries, if_neg]
    intro heq
    rw [Nat.cast_inj.1 heq] at htaken
    exact htaken hfree
  have hlow : Low (k.addDescriptor i d desc).kmem.entries := by
    obtain ⟨j, h1, h2, hstop⟩ := hsound.low
    refine ⟨j, h1, h2, ?_⟩
    rw [NoNext, hentries, if_neg (by omega)]
    exact hstop
  have hpreserves : Preserves k.kmem (k.addDescriptor i d desc).kmem := ⟨hlow, hkept⟩
  have hguarded := Preserves.guarded hpreserves hsound
  refine ⟨⟨⟨hguarded.low, hguarded.held⟩, hguarded.kept⟩, ⟨hd, ?_⟩, hsound.not_mem hfree⟩
  rw [hentries, if_pos rfl]

/-- The release of a descriptor touches no other block. -/
lemma fileFreeDescriptor_guarded (hsound : Sound blocks k) {d : ℕ} (hown : OwnBlock blocks k d) :
    Sound blocks (fileFreeDescriptor k (blockAddr d)) ∧
    ∀ b, b ≠ d → (fileFreeDescriptor k (blockAddr d)).kmem.entries b = k.kmem.entries b := by
  have hsame : ∀ b : ℕ, b ≠ d →
      (fileFreeDescriptor k (blockAddr d)).kmem.entries b = k.kmem.entries b := by
    intro b hne
    refine (kfree_held hown.held).same b fun c hc => ?_
    rw [Set.mem_singleton_iff.1 hc]
    exact_mod_cast hne
  refine ⟨⟨hsound.low.kfree, fun b hmem => ?_⟩, hsame⟩
  have hne : b ≠ d := fun heq => hown.not_mem (heq ▸ hmem)
  obtain ⟨hb, htaken⟩ := hsound.held b hmem
  refine ⟨hb, ?_⟩
  rw [IsFree, hsame b hne]
  exact htaken

/-! The block of the path's root outlives the descriptor. -/

/-- The descriptor `fopen` gave is open and closes, or `fopen` gave 0; and what the heap and
the table look like then. -/
structure Restores (v : Storage σ) (k : FileState σ) (fd : ℤ) (k' : FileState σ) : Prop where
  failed : fd = 0 → (∀ b : ℕ, b < 25600 → k'.kmem.entries b = k.kmem.entries b) ∧
    k'.fileDescriptors = k.fileDescriptors
  closed : 0 < fd → (fclose v k' fd).1 = 0 →
    ∀ b : ℕ, b < 25600 → (fclose v k' fd).2.kmem.entries b = k.kmem.entries b

lemma Refused.restores {fuel : ℕ} {filename modeStr : Word} {fd : ℤ}
    (hrefused : Refused fuel k.kmem filename)
    (hopen : fopen v fuel k filename modeStr = some (fd, k')) : Restores v k fd k' := by
  obtain ⟨root, s, hparse, hfd, hk⟩ := fopen_some hopen
  obtain ⟨hroot, hentries⟩ := hrefused.parse hparse
  have hnull : fopenRoot v (k.withKmem s) root modeStr = (-einvarg, 0, k.withKmem s) := by
    have hprivate : fopenPrivate v (k.withKmem s) root modeStr = (-einvarg, 0, k.withKmem s) := by
      rw [fopenPrivate, if_pos hroot]
    rw [fopenRoot, hprivate]
    exact if_pos (neg_neg_of_pos two_pos)
  rw [hnull] at hfd hk
  rw [if_pos (neg_neg_of_pos two_pos)] at hfd
  rw [hk, hfd]
  exact ⟨fun _ => ⟨fun b _ => congrFun hentries b, rfl⟩, fun h => absurd h (lt_irrefl 0)⟩

/-- After any other call the root's block is taken still. -/
lemma root_taken {fuel : ℕ} {filename modeStr : Word} {fd : ℤ}
    (hfs : (v.filesystems v.filesystem).Confined blocks) (hsound : Sound blocks k)
    (hrefused : ¬ Refused fuel k.kmem filename)
    (hopen : fopen v fuel k filename modeStr = some (fd, k')) :
    ∃ b < 25600, IsFree k.kmem.entries b ∧ (fd = 0 → ¬ IsFree k'.kmem.entries b) ∧
      (fd ≠ 0 → (fclose v k' fd).1 = 0 → ¬ IsFree (fclose v k' fd).2.kmem.entries b) := by
  obtain ⟨root, s, hparse, hfd, hk⟩ := fopen_some hopen
  obtain ⟨hparsed, b, hb, hfree, -, hheld⟩ := parse_root hsound.low hrefused hparse
  have hfirst := Preserves.guarded hparsed hsound
  have hown : OwnBlock blocks (k.withKmem s) b := ⟨hheld, hsound.not_mem hfree⟩
  refine ⟨b, hb, hfree, ?_⟩
  obtain ⟨-, hguarded, -, -⟩ := fopenPrivate_cases hfs hfirst.toSound root modeStr
  have hown' := hguarded.ownBlock hown
  rw [fopenRoot] at hfd hk
  generalize fopenPrivate v (k.withKmem s) root modeStr = r at hguarded hown' hfd hk
  obtain ⟨res, privateData, k₁⟩ := r
  generalize diskGet v (read32 (k.withKmem s).kmem.mem root).toInt = disk at hfd hk
  dsimp only at hguarded hown' hfd hk
  by_cases hneg : res < 0
  · rw [if_pos hneg] at hfd hk
    rw [if_pos hneg] at hfd
    rw [hfd, hk]
    exact ⟨fun _ => hown'.held.not_free, fun hne => absurd rfl hne⟩
  rw [if_neg hneg] at hfd hk
  obtain ⟨-, hfail⟩ | ⟨i, hslot, ⟨hfull, descriptors, hnull⟩ | ⟨d, hd, hdfree, hadd⟩⟩ :=
    fopenDescriptor_cases v k₁ privateData disk
  · rw [hfail] at hfd hk
    rw [if_pos (neg_neg_of_pos three_pos)] at hfd
    rw [hfd, hk]
    exact ⟨fun _ => hown'.held.not_free, fun hne => absurd rfl hne⟩
  · rw [hnull] at hfd hk
    dsimp only at hfd hk
    rw [if_neg (by omega)] at hfd
    have hget : fileGetDescriptor k' fd = 0 := by
      rw [hfd, fileGetDescriptor_slot, hk]
      exact ite_eq_left_iff.2 fun _ => emptySlot_empty hslot
    rw [fclose_null hget]
    exact ⟨fun h0 => by omega, fun _ herr => absurd herr (show -eio ≠ 0 by decide)⟩
  · rw [hadd] at hfd hk
    dsimp only at hfd hk
    rw [if_neg (by omega)] at hfd
    refine ⟨fun h0 => by omega, fun _ hclosed => ?_⟩
    obtain ⟨hguarded', hdesc⟩ := addDescriptor_guarded hguarded.toSound hd hdfree i
      ⟨i + 1, v.filesystem, privateData, disk⟩
    have hlast : (i : ℕ) ≠ 511 := by
      intro hlast
      have hget : fileGetDescriptor k' fd = 0 := by
        rw [hfd, fileGetDescriptor_slot, if_pos hlast]
      rw [fclose_null hget] at hclosed
      exact absurd hclosed (show -eio ≠ 0 by decide)
    have hget : fileGetDescriptor k' fd = blockAddr d := by
      rw [hfd, fileGetDescriptor_slot, if_neg hlast, hk]
      exact Function.update_self _ _ _
    have hrecord : k'.descriptors (blockAddr d) = ⟨i + 1, v.filesystem, privateData, disk⟩ := by
      rw [hk]
      exact Function.update_self _ _ _
    have hclose := @fclose_desc σ v k' fd _ hget (blockAddr_ne_zero (by omega))
    rw [hrecord] at hclose
    dsimp only at hclose
    rw [hclose] at hclosed ⊢
    rw [← hk] at hguarded' hdesc
    have hafter := hfs.fsClose k' privateData hguarded'.toSound
    have hne : b ≠ d := by
      rintro rfl
      exact hown'.held.not_free hdfree
    obtain ⟨-, hsame⟩ := fileFreeDescriptor_guarded hafter.toSound (hafter.ownBlock hdesc)
    dsimp only
    rw [if_pos hclosed, IsFree, hsame b hne]
    exact (hafter.ownBlock (hguarded'.ownBlock hown')).held.not_free

/-- `fopen`, and `fclose` of what it returns, leave the heap as it was if and only if the path
parser made no root. -/
theorem fopen_restores_iff {fuel : ℕ} {filename modeStr : Word} {fd : ℤ}
    (hfs : (v.filesystems v.filesystem).Confined blocks) (hsound : Sound blocks k)
    (hopen : fopen v fuel k filename modeStr = some (fd, k'))
    (hclose : fd = 0 ∨ 0 < fd ∧ (fclose v k' fd).1 = 0) :
    Restores v k fd k' ↔ Refused fuel k.kmem filename := by
  constructor
  · intro hrestores
    by_contra hrefused
    obtain ⟨b, hb, hfree, hzero, hpos⟩ := root_taken hfs hsound hrefused hopen
    rcases hclose with h0 | ⟨hlt, hclosed⟩
    · have hsame := (hrestores.failed h0).1 b hb
      have htaken := hzero h0
      rw [IsFree, hsame] at htaken
      exact htaken hfree
    · have hsame := hrestores.closed hlt hclosed b hb
      have htaken := hpos (by omega) hclosed
      rw [IsFree, hsame] at htaken
      exact htaken hfree
  · exact fun hrefused => hrefused.restores hopen

end Blocks

/-! A file system with one open file and no memory of its own, and the path `0:/a`. -/

def oneFile : Filesystem Unit where
  fsOpen := fun c s _ _ _ => (0x5000, c, s)
  fsRead := fun c s _ _ _ _ _ => (-eio, c, s)
  fsSeek := fun c s _ _ _ => (-eio, c, s)
  fsStat := fun c s _ _ _ => (-eio, c, s)
  fsClose := fun c s _ => (allOk, c, s)

def oneDisk : Storage Unit := ⟨fun _ => oneFile, 0x2000, by decide, 0x3000⟩

lemma oneFile_confined : oneFile.Confined fun _ => ∅ := by
  have hsame : ∀ k : FileState Unit, Sound (fun _ => ∅) k →
      Guarded (fun _ => ∅) k (k.withFs (k.fs, k.kmem)) :=
    fun k hsound => ⟨hsound, fun _ _ _ hnot => ⟨rfl, hnot⟩⟩
  exact ⟨fun k _ _ _ hsound => hsame k hsound, fun k _ hsound => hsame k hsound⟩

/-- An empty heap, no open file, the path at 0x1000 and the mode `r` at 0x1100. -/
def onePath : FileState Unit where
  kmem := emptyKmem.withMem (writeBytes (writeBytes emptyKmem.mem 0x1000 [48, 58, 47, 97, 0]) 0x1100
    [114, 0])
  fs := ()
  fileDescriptors := fun _ => 0
  descriptors := fun _ => zeroDescriptor

lemma onePath_sound : Sound (fun _ => ∅) onePath :=
  ⟨⟨-1, by decide, by decide, by decide⟩, fun _ hmem => absurd hmem (Set.notMem_empty _)⟩

/-- The file is opened and closed, and block 0 stays taken. -/
lemma onePath_run : ∃ k', fopen oneDisk 110 onePath 0x1000 0x1100 = some (1, k') ∧
    (fclose oneDisk k' 1).1 = 0 ∧ ¬ IsFree (fclose oneDisk k' 1).2.kmem.entries 0 := by
  have hrun : (fopen oneDisk 110 onePath 0x1000 0x1100).map (fun r => (r.1,
      (fclose oneDisk r.2 1).1, decide (IsFree (fclose oneDisk r.2 1).2.kmem.entries 0))) =
      some (1, 0, false) := by decide +kernel
  obtain ⟨⟨fd, k'⟩, hopen, heq⟩ := Option.map_eq_some_iff.1 hrun
  simp only [Prod.mk.injEq, decide_eq_false_iff_not] at heq
  exact ⟨k', by rw [hopen, heq.1], heq.2⟩

theorem fopen_restores_iff_onePath : ∃ k',
    fopen oneDisk 110 onePath 0x1000 0x1100 = some (1, k') ∧
      (Restores oneDisk onePath 1 k' ↔ Refused 110 onePath.kmem 0x1000) := by
  obtain ⟨k', hopen, hclosed, -⟩ := onePath_run
  exact ⟨k', hopen, fopen_restores_iff oneFile_confined onePath_sound hopen
    (.inr ⟨one_pos, hclosed⟩)⟩

/-- Opening and closing a file leaves the heap changed. -/
theorem fopen_leaks : ∃ k', fopen oneDisk 110 onePath 0x1000 0x1100 = some (1, k') ∧
    (fclose oneDisk k' 1).1 = 0 ∧ ¬ Restores oneDisk onePath 1 k' := by
  obtain ⟨k', hopen, hclosed, htaken⟩ := onePath_run
  refine ⟨k', hopen, hclosed, fun hrestores => htaken ?_⟩
  rw [IsFree, hrestores.closed one_pos hclosed 0 (by decide)]
  exact kheapInit_free _ _ (by decide)

end AlphaOS.Files
