import AlphaOS.ProcessMemory

/-! What `process_free` unmaps and what it passes to `kfree`. It maps the range from
physical address 0 to the end of the allocation, and it takes an empty slot for a
record of the null pointer. -/
namespace AlphaOS.Processes
open BlockHeap Kheap Paging WordMemory

variable {init : Word → Word → Word} {L : Layout} {P : Set Word} {k : Kernel} {p : Word}
  {i : Fin maxProgramAllocations}

/-- The entry of a page in the directory of a process. -/
def entryOf (k : Kernel) (p page : Word) : Word := pagingGet k.kmem.mem (k.directory p) page

/-- The page is one of the `ceil(size / 4096)` pages of the allocation. -/
def OwnPage (a : ProcessAllocation) (page : Word) : Prop :=
  (page - a.ptr).toNat < 4096 * ((a.size.toNat + 4095) / 4096)

/-- Freeing the record changes the entries of exactly its own pages. -/
def FreesOnlyOwnPages (k : Kernel) (p : Word) (i : Fin maxProgramAllocations) : Prop :=
  ∀ page : Word, page.toNat % 4096 = 0 →
    (entryOf (processFree k p (k.record p i).ptr) p page ≠ entryOf k p page ↔
      OwnPage (k.record p i) page)

/-- The pages after the allocation that `process_free` maps as well already have the
entries it gives them. -/
def TailUnmapped (k : Kernel) (p : Word) (i : Fin maxProgramAllocations) : Prop :=
  let a := k.record p i
  ∀ j, (a.size.toNat + 4095) / 4096 ≤ j →
    j < (pagingAlignAddress (a.ptr + a.size)).toNat / 4096 →
    entryOf k p (a.ptr + BitVec.ofNat 32 (4096 * j)) = BitVec.ofNat 32 (4096 * j)

/-- Under the invariant the first slot that holds a recorded pointer is its own. -/
lemma Owned.find_record (h : Owned init L P k) (hp : p ∈ P) (hne : (k.record p i).ptr ≠ 0) :
    processGetAllocationByAddr (k.procs p) (k.record p i).ptr = some i := by
  cases hfind : processGetAllocationByAddr (k.procs p) (k.record p i).ptr with
  | none => exact absurd rfl (processGetAllocationByAddr_none.1 hfind i)
  | some j =>
    have hj : (k.record p j).ptr = (k.record p i).ptr := processGetAllocationByAddr_some hfind
    rw [(h.distinct p hp p hp j i (hj ▸ hne) hj).2]

/-- The entries after `process_free` of a record. -/
lemma Owned.entryOf_free (h : Owned init L P k) (hp : p ∈ P) (hne : (k.record p i).ptr ≠ 0) :
    ∃ b, (k.record p i).ptr = blockAddr b ∧
      Allocated k.kmem.kernelHeap b (heapBlocksFor (k.record p i).size).toNat ∧
      ∀ page : Word, page.toNat % 4096 = 0 →
        entryOf (processFree k p (k.record p i).ptr) p page =
          if (page - (k.record p i).ptr).toNat <
            16777216 + 4096 * (b + (heapBlocksFor (k.record p i).size).toNat)
          then page - (k.record p i).ptr else entryOf k p page := by
  obtain ⟨b, mem, hb, hlive, -, heq, hdir, -, hget⟩ := h.free_eq hp hne (h.find_record hp hne)
  refine ⟨b, hb, hlive, fun page hpage => ?_⟩
  have hbefore : k.directory p = L.dir p := (h.pageDir p hp).chunk_word
  have hafter : (processFree k p (k.record p i).ptr).directory p = L.dir p := by
    rw [heq, Kernel.directory, Kernel.withKmem_pageDirectory, withRecord_pageDirectory]
    exact hdir.chunk_word
  rw [entryOf, entryOf, hafter, hbefore, heq]
  exact hget page hpage

/-- The pages of a record never hold the entries `process_free` gives them. -/
lemma Owned.entry_ne (h : Owned init L P k) (hp : p ∈ P) {page : Word}
    (hpage : page.toNat % 4096 = 0) (hcov : Covers (k.record p i) page) :
    page - (k.record p i).ptr ≠ entryOf k p page := by
  obtain ⟨b, hb, hlive, -⟩ := h.live p hp i hcov.1
  have hbound := allocated_bound hlive
  rw [entryOf, show k.directory p = L.dir p from (h.pageDir p hp).chunk_word]
  intro heq
  rcases h.mapped p hp i page hpage hcov with hid | ⟨r, hr, hsub⟩
  · rw [hid] at heq
    have hlow := page_sub_aligned hpage
      (show (k.record p i).ptr.toNat % 4096 = 0 from hb ▸ blockAddr_aligned (by omega))
    rw [heq, page_or_userFlags hpage] at hlow
    omega
  · rw [hsub] at heq
    exact hr (sub_right_injective heq).symm

/-- `process_free` of a record changes its own pages only, exactly when the pages it
maps beyond them were already as it leaves them. -/
theorem Owned.freesOnlyOwnPages_iff (h : Owned init L P k) (hp : p ∈ P)
    (hne : (k.record p i).ptr ≠ 0) : FreesOnlyOwnPages k p i ↔ TailUnmapped k p i := by
  obtain ⟨b, hb, hlive, hentry⟩ := h.entryOf_free hp hne
  have hbound := allocated_bound hlive
  have hblocks := heapBlocksFor_toNat hlive.1
  have hend : (pagingAlignAddress ((k.record p i).ptr + (k.record p i).size)).toNat =
      16777216 + 4096 * (b + (heapBlocksFor (k.record p i).size).toNat) := by
    rw [hb]
    exact alignedEnd_toNat hlive.1 hbound.2
  have haligned : (k.record p i).ptr.toNat % 4096 = 0 := hb ▸ blockAddr_aligned (by omega)
  have hown : ∀ page, OwnPage (k.record p i) page ↔ Covers (k.record p i) page := by
    intro page
    have hslot : k.record p i = ⟨blockAddr b, (k.record p i).size⟩ := by rw [← hb]
    rw [OwnPage, ← hblocks, hb, hslot, covers_iff hbound.2]
  unfold FreesOnlyOwnPages TailUnmapped
  simp only
  rw [hend, ← hblocks]
  generalize hn : (heapBlocksFor (k.record p i).size).toNat = n at *
  generalize hptr : (k.record p i).ptr = ptr at *
  constructor
  · intro hfrees j hnj hj
    have hjlt : 4096 * j < 2 ^ 32 := by omega
    have hoffset : (ptr + BitVec.ofNat 32 (4096 * j)) - ptr = BitVec.ofNat 32 (4096 * j) := by abel
    have hpage : (ptr + BitVec.ofNat 32 (4096 * j)).toNat % 4096 = 0 := by
      rw [BitVec.toNat_add, BitVec.toNat_ofNat]
      omega
    have hnot : ¬ OwnPage (k.record p i) (ptr + BitVec.ofNat 32 (4096 * j)) := by
      rw [OwnPage, hptr, hoffset, ← hblocks, BitVec.toNat_ofNat]
      omega
    have hsame := not_not.1 (mt (hfrees _ hpage).1 hnot)
    rw [hentry _ hpage, hoffset, if_pos (by rw [BitVec.toNat_ofNat]; omega)] at hsame
    exact hsame.symm
  · intro htail page hpage
    rw [hentry page hpage, hown]
    by_cases hin : (page - ptr).toNat < 16777216 + 4096 * (b + n)
    · rw [if_pos hin]
      by_cases hcov : Covers (k.record p i) page
      · exact iff_of_true (hptr ▸ h.entry_ne hp hpage hcov) hcov
      · refine iff_of_false (not_not.2 ?_) hcov
        rw [← hown, OwnPage, hptr, ← hblocks] at hcov
        have hsub := page_sub_aligned hpage haligned
        have hoffset : BitVec.ofNat 32 (4096 * ((page - ptr).toNat / 4096)) = page - ptr := by
          rw [show 4096 * ((page - ptr).toNat / 4096) = (page - ptr).toNat by omega,
            BitVec.ofNat_toNat, BitVec.setWidth_eq]
        have hj := htail ((page - ptr).toNat / 4096) (by omega) (by omega)
        rw [hoffset, show ptr + (page - ptr) = page by abel] at hj
        exact hj.symm
    · rw [if_neg hin]
      refine iff_of_false (not_not.2 rfl) fun hcov => hin ?_
      rw [← hown, OwnPage, hptr, ← hblocks] at hcov
      omega

lemma malloc_page (hroom : k.kmem.Room 1) : MemoryStep {p} k (processMalloc k p 4096).2 := by
  have hblocks : (heapBlocksFor 4096).toNat = 1 := by decide
  exact .malloc rfl (by rw [hblocks]; decide) (.inl (hblocks.symm ▸ hroom))

/-- The first allocation of a page goes to slot 0, and the page after it keeps its entry. -/
lemma Start.malloc_page (h₀ : Start {p} k L) (hroom : k.kmem.Room 1) :
    ∃ b < 25600, (processMalloc k p 4096).2.record p 0 = ⟨blockAddr b, 4096⟩ ∧
      entryOf (processMalloc k p 4096).2 p (blockAddr b + 4096) =
        entryOf k p (blockAddr b + 4096) := by
  have hblocks : (heapBlocksFor 4096).toNat = 1 := by decide
  have hn : 0 < (heapBlocksFor 4096).toNat := by rw [hblocks]; decide
  obtain ⟨b, hfit, hcase⟩ := processMalloc_eq hn (hblocks.symm ▸ hroom)
    fun b hfit => (h₀.owned.takeZeroed hn hfit).1.pageDir p rfl
  have hb := hfit.1
  have hempty : ∀ i, ((k.procs p).allocations i).ptr = 0 := fun i =>
    congrArg ProcessAllocation.ptr (h₀.empty p rfl i)
  have hslot : processFindFreeAllocationIndex (k.procs p) = some 0 :=
    Fin.find?_eq_some_iff.2 ⟨by simpa using hempty 0, fun j hj => absurd hj (Fin.not_lt_zero j)⟩
  rcases hcase with ⟨hnone, -⟩ | ⟨index, mem, hfind, heq, hdir, -, hget⟩
  · rw [hslot] at hnone
    exact absurd hnone (by simp)
  · obtain rfl : 0 = index := Option.some.inj (hslot.symm.trans hfind)
    have hpage : (blockAddr b + 4096).toNat % 4096 = 0 :=
      word_add_page (blockAddr_aligned (by omega))
    have hout : ¬ (blockAddr b + 4096 - blockAddr b).toNat < 4096 * (heapBlocksFor 4096).toNat := by
      rw [show blockAddr b + 4096 - blockAddr b = 4096 by abel, hblocks]
      decide
    have hsize : (4096 : Word).toNat ≤ 4096 * (heapBlocksFor 4096).toNat := by
      rw [hblocks]
      decide
    have hkept := ((h₀.pageDir p rfl).unchanged (fill_sameOff k.kmem.mem
      (blockAddr_aligned (b := b) (by omega)) hsize (by rw [blockAddr_toNat (by omega)]; omega) 0)
      (h₀.owned.run_off hn hfit p rfl)).2 _ hpage
    have hbefore : k.directory p = L.dir p := (h₀.pageDir p rfl).chunk_word
    rw [heq]
    refine ⟨b, by omega, ?_, ?_⟩
    · rw [withRecord_record, if_pos ⟨rfl, rfl⟩]
    · have hafter : (withRecord (k.withKmem (k.kmem.takeZeroed 4096 (heapBlocksFor 4096).toNat b))
          p mem 0 ⟨blockAddr b, 4096⟩).directory p = L.dir p := by
        rw [Kernel.directory, withRecord_pageDirectory]
        exact hdir.chunk_word
      rw [entryOf, entryOf, hafter, hbefore]
      refine (hget _ hpage).trans ?_
      rw [if_neg hout]
      exact hkept

/-- So freeing a page right after it was allocated changes the next page as well. -/
lemma Start.free_page (h₀ : Start {p} k L) (hroom : k.kmem.Room 1)
    (hentry : ∀ page : Word, page.toNat % 4096 = 0 → entryOf k p page = page ||| 5) :
    ((processMalloc k p 4096).2.record p 0).ptr ≠ 0 ∧
    ¬ FreesOnlyOwnPages (processMalloc k p 4096).2 p 0 := by
  obtain ⟨b, hb, hrecord, hnext⟩ := h₀.malloc_page hroom
  have hne : ((processMalloc k p 4096).2.record p 0).ptr ≠ 0 := by
    rw [hrecord]
    exact blockAddr_ne_zero (by omega)
  refine ⟨hne, fun hfrees => ?_⟩
  have htail := ((h₀.owned.step (Processes.malloc_page hroom)).freesOnlyOwnPages_iff rfl hne).1 hfrees
  have hblocks : (heapBlocksFor 4096).toNat = 1 := by decide
  have hpos : 0 < (heapBlocksFor 4096).toNat := by omega
  have hend := alignedEnd_toNat (b := b) hpos (by omega)
  have hpage : (blockAddr b + 4096).toNat % 4096 = 0 :=
    word_add_page (blockAddr_aligned (by omega))
  unfold TailUnmapped at htail
  rw [hrecord] at htail
  have hfirst : ((4096 : Word).toNat + 4095) / 4096 ≤ 1 := by decide
  have hone := htail 1 hfirst (by simp only; rw [hend]; omega)
  simp only at hone
  rw [show BitVec.ofNat 32 (4096 * 1) = 4096 from rfl, hnext, hentry _ hpage] at hone
  have hlow := congrArg BitVec.toNat hone
  rw [toNat_or_flags hpage (by decide)] at hlow
  have hfive : (5 : Word).toNat = 5 := rfl
  have hfour : (4096 : Word).toNat = 4096 := rfl
  omega

/-- In every state a run of `process_malloc` and `process_free` calls reaches, freeing a
live allocation changes exactly its own pages if and only if the pages beyond it, up
to the number of pages below the allocation's end, are already mapped to frames
counted from 0 without flags. -/
theorem processFree_frame_iff {k₀ : Kernel} (h₀ : Start P k₀ L)
    (run : Relation.ReflTransGen (MemoryStep P) k₀ k) (hp : p ∈ P)
    (hne : (k.record p i).ptr ≠ 0) : FreesOnlyOwnPages k p i ↔ TailUnmapped k p i :=
  (h₀.owned.run run).freesOnlyOwnPages_iff hp hne

theorem processFree_frame_onePage :
    FreesOnlyOwnPages (processMalloc oneProcess 0 4096).2 0 0 ↔
      TailUnmapped (processMalloc oneProcess 0 4096).2 0 0 := by
  obtain ⟨L, hstart, hroom, hentry⟩ := oneProcess_start
  exact processFree_frame_iff hstart (.single (malloc_page hroom)) rfl
    (hstart.free_page hroom hentry).1

/-- A process that allocates one page and frees it. -/
theorem processFree_frame_fails :
    MemoryStep {0} oneProcess (processMalloc oneProcess 0 4096).2 ∧
    ((processMalloc oneProcess 0 4096).2.record 0 0).ptr ≠ 0 ∧
    ¬ FreesOnlyOwnPages (processMalloc oneProcess 0 4096).2 0 0 := by
  obtain ⟨L, hstart, hroom, hentry⟩ := oneProcess_start
  exact ⟨malloc_page hroom, hstart.free_page hroom hentry⟩

/-- The pointer is the base of an allocation the process has recorded; an empty slot,
which holds the null pointer, records none. -/
def Recorded (k : Kernel) (p ptr : Word) : Prop := ptr ≠ 0 ∧ ∃ i, (k.record p i).ptr = ptr

/-- The call passes only recorded pointers with a block index inside the table to
`kfree`, and on any other pointer it changes nothing. -/
def FreeSafe (k : Kernel) (p ptr : Word) : Prop :=
  (∃ calls, (processFree k p ptr).kmem.kfreed = calls ++ k.kmem.kfreed ∧ ∀ a ∈ calls,
    Recorded k p a ∧ 0 ≤ heapAddressToBlock k.kmem.kernelHeap a ∧
    heapAddressToBlock k.kmem.kernelHeap a < k.kmem.kernelHeap.table.total.toNat) ∧
  (¬ Recorded k p ptr → processFree k p ptr = k)

/-- Every call of `process_terminate_allocation` for the slots of the list is safe. -/
def FreesSafely (p : Word) : List (Fin maxProgramAllocations) → Kernel → Prop
  | [], _ => True
  | i :: is, k => FreeSafe k p (k.record p i).ptr ∧
    FreesSafely p is (processFree k p (k.record p i).ptr)

/-- Every slot is empty or holds the address of a block. -/
def InBlocks (k : Kernel) (p : Word) : Prop :=
  ∀ i, (k.record p i).ptr = 0 ∨ ∃ b < 25600, (k.record p i).ptr = blockAddr b

lemma InBlocks.aligned (h : InBlocks k p) (i : Fin maxProgramAllocations) :
    (k.record p i).ptr.toNat % 4096 = 0 := by
  rcases h i with h0 | ⟨b, hb, heq⟩
  · rw [h0]
    rfl
  · rw [heq]
    exact blockAddr_aligned (by omega)

/-- A pointer found in a slot is always unmapped, its slot emptied and passed to `kfree`. -/
lemma InBlocks.processFree_eq (h : InBlocks k p) {ptr : Word}
    (hfind : processGetAllocationByAddr (k.procs p) ptr = some i) :
    ∃ mem, processFree k p ptr = (k.withKmem (kfree (k.kmem.withMem mem) ptr)).setProcess p
      (setAllocation (k.procs p) i ⟨0, 0⟩) := by
  have hptr : (k.record p i).ptr = ptr := processGetAllocationByAddr_some hfind
  have hres := pagingMapTo_res k.kmem.mem (k.pageDirectory p) (h.aligned i)
    (show (0 : Word).toNat % 4096 = 0 from rfl)
    (pagingAlignAddress_aligned ((k.record p i).ptr + (k.record p i).size)) (Nat.zero_le _) 0
  refine ⟨(pagingMapTo k.kmem.mem (k.pageDirectory p) (k.record p i).ptr 0
    (pagingAlignAddress ((k.record p i).ptr + (k.record p i).size)) 0).2, ?_⟩
  unfold processFree
  rw [hfind]
  dsimp only
  rw [processAllocationUnjoin_eq hfind]
  exact if_neg (not_lt.2 hres.ge)

lemma InBlocks.kfreed_free (h : InBlocks k p) {ptr : Word}
    (hfind : processGetAllocationByAddr (k.procs p) ptr = some i) :
    (processFree k p ptr).kmem.kfreed = ptr :: k.kmem.kfreed := by
  obtain ⟨mem, heq⟩ := h.processFree_eq hfind
  rw [heq]
  rfl

/-- The slots after a call of `process_free`: the first one that held the pointer is empty. -/
lemma InBlocks.record_free (h : InBlocks k p) (ptr p' : Word) (j : Fin maxProgramAllocations) :
    (processFree k p ptr).record p' j = k.record p' j ∨
      (p' = p ∧ processGetAllocationByAddr (k.procs p) ptr = some j ∧
        (processFree k p ptr).record p' j = ⟨0, 0⟩) := by
  cases hfind : processGetAllocationByAddr (k.procs p) ptr with
  | none =>
    left
    unfold processFree
    rw [hfind]
  | some i =>
    obtain ⟨mem, heq⟩ := h.processFree_eq hfind
    rw [heq, setProcess_record]
    by_cases hpj : p' = p ∧ j = i
    · rw [if_pos hpj]
      exact .inr ⟨hpj.1, by rw [hpj.2], rfl⟩
    · rw [if_neg hpj]
      exact .inl rfl

lemma InBlocks.free (h : InBlocks k p) (hk : InBlocks k q) (ptr : Word) :
    InBlocks (processFree k q ptr) p := by
  intro j
  rcases hk.record_free ptr p j with heq | ⟨-, -, heq⟩
  · rw [heq]
    exact h j
  · rw [heq]
    exact .inl rfl

/-- `process_malloc` of any size changes at most one slot, to what `kmalloc` returned. -/
lemma processMalloc_record (k : Kernel) (p size p' : Word) (j : Fin maxProgramAllocations) :
    (processMalloc k p size).2.record p' j = k.record p' j ∨
      ((processMalloc k p size).2.record p' j).ptr = (kmalloc k.kmem size).1 := by
  unfold processMalloc
  dsimp only
  by_cases hnull : (kzalloc k.kmem size).1 = 0
  · rw [if_pos hnull]
    exact .inl rfl
  · rw [if_neg hnull]
    cases processFindFreeAllocationIndex (k.procs p) with
    | none => exact .inl rfl
    | some index =>
      dsimp only
      split_ifs with hres
      · exact .inl rfl
      · rw [setProcess_record]
        split_ifs with hpj
        · exact .inr (kzalloc_fst k.kmem size)
        · exact .inl rfl

/-- Any `process_malloc` and any `process_free`, with no condition on their arguments. -/
inductive AllocationStep (P : Set Word) (k : Kernel) : Kernel → Prop
  | malloc {process : Word} (hp : process ∈ P) (size : Word) :
      AllocationStep P k (processMalloc k process size).2
  | free {process : Word} (hp : process ∈ P) (ptr : Word) :
      AllocationStep P k (processFree k process ptr)

lemma InBlocks.run {k₀ : Kernel} (h₀ : ∀ p ∈ P, ∀ i, (k₀.record p i).ptr = 0)
    (run : Relation.ReflTransGen (AllocationStep P) k₀ k) : ∀ p ∈ P, InBlocks k p := by
  induction run with
  | refl => exact fun p hp i => .inl (h₀ p hp i)
  | tail _ step ih =>
    cases step with
    | @malloc process hq size =>
      intro p hp j
      rcases processMalloc_record _ process size p j with heq | heq
      · rw [heq]
        exact ih p hp j
      · rw [heq]
        exact kmalloc_addr _ size
    | free hq ptr => exact fun p hp => (ih p hp).free (ih _ hq) ptr

/-- A call is safe unless it passes the null pointer while a slot is empty. -/
theorem InBlocks.freeSafe_iff (h : InBlocks k p) (ptr : Word) :
    FreeSafe k p ptr ↔ ptr ≠ 0 ∨ ∀ i, (k.record p i).ptr ≠ 0 := by
  cases hfind : processGetAllocationByAddr (k.procs p) ptr with
  | none =>
    have hnone := processGetAllocationByAddr_none.1 hfind
    have hsame : processFree k p ptr = k := by
      unfold processFree
      rw [hfind]
    refine iff_of_true ⟨⟨[], by rw [hsame]; rfl, by simp⟩, fun _ => hsame⟩ ?_
    by_cases h0 : ptr = 0
    · exact .inr fun i hi => hnone i (hi.trans h0.symm)
    · exact .inl h0
  | some i =>
    have hi : (k.record p i).ptr = ptr := processGetAllocationByAddr_some hfind
    have hlog := h.kfreed_free hfind
    constructor
    · intro hsafe
      by_contra hcond
      push Not at hcond
      obtain ⟨⟨calls, hcalls, hall⟩, -⟩ := hsafe
      rw [hlog, ← List.singleton_append] at hcalls
      have hmem : ptr ∈ calls := List.append_cancel_right hcalls ▸ List.mem_singleton_self ptr
      exact (hall ptr hmem).1.1 hcond.1
    · intro hcond
      have hne : ptr ≠ 0 := hcond.elim id fun hall => hi ▸ hall i
      obtain ⟨b, hb, hblock⟩ := (h i).resolve_left (hi ▸ hne)
      have hindex : heapAddressToBlock k.kmem.kernelHeap ptr = b := by
        rw [← hi, hblock]
        exact heapAddressToBlock_eq k.kmem (by omega)
      refine ⟨⟨[ptr], hlog, ?_⟩, fun hnot => absurd ⟨hne, i, hi⟩ hnot⟩
      rintro a ha
      obtain rfl := List.mem_singleton.1 ha
      rw [hindex, k.kmem.total_toNat]
      exact ⟨⟨hne, i, hi⟩, by omega, by omega⟩

/-- A loop over slots one of which is empty comes to pass the null pointer. -/
lemma InBlocks.not_freesSafely (h : InBlocks k p) {is : List (Fin maxProgramAllocations)}
    (hi : i ∈ is) (hempty : (k.record p i).ptr = 0) : ¬ FreesSafely p is k := by
  induction is generalizing k with
  | nil => exact absurd hi (by simp)
  | cons j is ih =>
    rintro ⟨hsafe, hrest⟩
    rcases List.mem_cons.1 hi with rfl | hmem
    · rcases (h.freeSafe_iff _).1 hsafe with hne | hall
      · exact hne hempty
      · exact hall i hempty
    · refine ih (h.free h _) hmem ?_ hrest
      rcases h.record_free (k.record p j).ptr p i with heq | ⟨-, -, heq⟩
      · rw [heq, hempty]
      · rw [heq]

/-- A loop over used slots in order, with no other used slot before any of them, empties
them one by one. -/
lemma InBlocks.freesSafely (h : InBlocks k p) {is : List (Fin maxProgramAllocations)}
    (horder : is.Pairwise (· < ·)) (hused : ∀ i ∈ is, (k.record p i).ptr ≠ 0)
    (hbefore : ∀ i ∈ is, ∀ j < i, j ∉ is → (k.record p j).ptr = 0) : FreesSafely p is k := by
  induction is generalizing k with
  | nil => trivial
  | cons i is ih =>
    obtain ⟨hfirst, horder'⟩ := List.pairwise_cons.1 horder
    have hi := hused i (by simp)
    have hother : ∀ j ≠ i, (processFree k p (k.record p i).ptr).record p j = k.record p j := by
      intro j hj
      rcases h.record_free (k.record p i).ptr p j with heq | ⟨-, hfind, -⟩
      · exact heq
      · have hsame : (k.record p j).ptr = (k.record p i).ptr := processGetAllocationByAddr_some hfind
        -- `j` comes before `i`, so it is one of the empty slots
        have hlt : j < i := by
          by_contra hge
          have hmin := (Fin.find?_eq_some_iff.1 hfind).2 i (by omega)
          exact absurd rfl (of_decide_eq_false hmin)
        have hnot : j ∉ i :: is := fun hmem => (List.mem_cons.1 hmem).elim hj
          fun hmem => absurd (hfirst j hmem) (by omega)
        rw [hbefore i (by simp) j hlt hnot] at hsame
        exact absurd hsame.symm hi
    have hself : ((processFree k p (k.record p i).ptr).record p i).ptr = 0 := by
      cases hfind : processGetAllocationByAddr (k.procs p) (k.record p i).ptr with
      | none => exact absurd rfl (processGetAllocationByAddr_none.1 hfind i)
      | some j =>
        obtain ⟨mem, heq⟩ := h.processFree_eq hfind
        have hj : j = i := by
          by_contra hne
          have hset := hother j hne
          rw [heq, setProcess_record, if_pos ⟨rfl, rfl⟩] at hset
          have hsame : (k.record p j).ptr = (k.record p i).ptr :=
            processGetAllocationByAddr_some hfind
          rw [← hset] at hsame
          exact hi hsame.symm
        rw [heq, setProcess_record, if_pos ⟨rfl, hj.symm⟩]
    refine ⟨(h.freeSafe_iff _).2 (.inl hi), ih (h.free h _) horder' (fun j hj => ?_)
      fun i' hi' j hj hnot => ?_⟩
    · rw [hother j (hfirst j hj).ne']
      exact hused j (by simp [hj])
    · by_cases hji : j = i
      · rw [hji]
        exact hself
      · rw [hother j hji]
        exact hbefore i' (by simp [hi']) j hj (by simp [hji, hnot])

/-- In every state `process_malloc` and `process_free` calls reach, a call of
`process_free` keeps to recorded pointers exactly when it does not pass null while a
slot is empty, and the loop of `process_terminate` exactly when all slots are used. -/
theorem processFree_safe_iff {k₀ : Kernel} (h₀ : ∀ p ∈ P, ∀ i, (k₀.record p i).ptr = 0)
    (run : Relation.ReflTransGen (AllocationStep P) k₀ k) (hp : p ∈ P) :
    (∀ ptr, FreeSafe k p ptr ↔ ptr ≠ 0 ∨ ∀ i, (k.record p i).ptr ≠ 0) ∧
    (FreesSafely p (List.finRange maxProgramAllocations) k ↔ ∀ i, (k.record p i).ptr ≠ 0) := by
  have h := InBlocks.run h₀ run p hp
  have hmem : ∀ i : Fin maxProgramAllocations, i ∈ List.finRange maxProgramAllocations :=
    List.mem_finRange
  have horder := List.pairwise_lt_finRange maxProgramAllocations
  generalize List.finRange maxProgramAllocations = is at hmem horder ⊢
  refine ⟨h.freeSafe_iff, fun hsafe i hempty => ?_, fun hall => ?_⟩
  · exact h.not_freesSafely (hmem i) hempty hsafe
  · exact h.freesSafely horder (fun i _ => hall i) fun _ _ j _ hnot => absurd (hmem j) hnot

lemma oneProcess_empty (p : Word) (i : Fin maxProgramAllocations) :
    (oneProcess.record p i).ptr = 0 := by
  simp only [Kernel.record, oneProcess, freshProcesses, zeroKernel, zeroProcess]

theorem processFree_safe_onePage :
    (∀ ptr, FreeSafe (processMalloc oneProcess 0 4096).2 0 ptr ↔
      ptr ≠ 0 ∨ ∀ i, ((processMalloc oneProcess 0 4096).2.record 0 i).ptr ≠ 0) ∧
    (FreesSafely 0 (List.finRange maxProgramAllocations) (processMalloc oneProcess 0 4096).2 ↔
      ∀ i, ((processMalloc oneProcess 0 4096).2.record 0 i).ptr ≠ 0) := by
  have hempty : ∀ p ∈ ({0} : Set Word), ∀ i, (oneProcess.record p i).ptr = 0 :=
    fun p _ => oneProcess_empty p
  exact processFree_safe_iff hempty (.single (.malloc (Set.mem_singleton 0) 4096))
    (Set.mem_singleton 0)

/-- `free(0)` in a process without allocations reaches a block before the table. -/
theorem processFree_null :
    ¬ FreeSafe oneProcess 0 0 ∧
    (processFree oneProcess 0 0).kmem.kfreed = 0 :: oneProcess.kmem.kfreed ∧
    heapAddressToBlock oneProcess.kmem.kernelHeap 0 = -4096 := by
  have hempty : ∀ i, (oneProcess.record 0 i).ptr = 0 := oneProcess_empty 0
  have h : InBlocks oneProcess 0 := fun i => .inl (hempty i)
  have hfind : processGetAllocationByAddr (oneProcess.procs 0) 0 = some 0 :=
    Fin.find?_eq_some_iff.2 ⟨decide_eq_true (hempty 0), fun j hj => absurd hj (Fin.not_lt_zero j)⟩
  refine ⟨fun hsafe => ?_, ?_, ?_⟩
  · rcases (h.freeSafe_iff 0).1 hsafe with hne | hall
    · exact hne rfl
    · exact hall 0 (hempty 0)
  · exact h.kfreed_free hfind
  · rw [heapAddressToBlock, oneProcess.kmem.saddr_eq]
    decide

end AlphaOS.Processes
