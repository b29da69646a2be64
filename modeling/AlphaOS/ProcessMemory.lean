import AlphaOS.KheapBlocks
import AlphaOS.AddressSpace
import AlphaOS.Process

/-! Memory integrity between processes: the invariant that ties the heap table, the
allocation records and the page directories of a set of processes together. -/
namespace AlphaOS.Processes
open BlockHeap Kheap Paging WordMemory

/-- The flags of `process_malloc`. -/
abbrev userFlags : Word := pagingIsPresent ||| pagingAccessFromAll ||| pagingIsWritable

/-- Where the directories of the processes and their tables are. -/
structure Layout where
  dir : Word → Word
  table : Word → ℕ → Word

def Layout.pages (L : Layout) (k : Kernel) (p : Word) : Set ℕ :=
  dirPages (k.pageDirectory p) (L.dir p) (L.table p)

/-- The page lies in the blocks of a recorded allocation. -/
def Covers (a : ProcessAllocation) (page : Word) : Prop :=
  a.ptr ≠ 0 ∧ a.ptr.toNat ≤ page.toNat ∧
    page.toNat < a.ptr.toNat + 4096 * (heapBlocksFor a.size).toNat

/-- The records are disjoint live allocations apart from all directories, and a writable
entry is either the identity on a page of an own record or as it was at the start. -/
structure Owned (init : Word → Word → Word) (L : Layout) (P : Set Word) (k : Kernel) : Prop where
  pageDir : ∀ p ∈ P, PageDir k.kmem.mem (k.pageDirectory p) (L.dir p) (L.table p)
  held : ∀ p ∈ P, ∀ g ∈ L.pages k p, ∃ b, g = 4096 + b ∧ Allocated k.kmem.kernelHeap b 1
  apart : ∀ p ∈ P, ∀ q ∈ P, p ≠ q → Disjoint (L.pages k p) (L.pages k q)
  live : ∀ p ∈ P, ∀ i, (k.record p i).ptr ≠ 0 → ∃ b, (k.record p i).ptr = blockAddr b ∧
    Allocated k.kmem.kernelHeap b (heapBlocksFor (k.record p i).size).toNat ∧
    ∀ q ∈ P, 4096 + b ∉ L.pages k q
  distinct : ∀ p ∈ P, ∀ q ∈ P, ∀ i j, (k.record p i).ptr ≠ 0 →
    (k.record p i).ptr = (k.record q j).ptr → p = q ∧ i = j
  mapped : ∀ p ∈ P, ∀ i, ∀ page : Word, page.toNat % 4096 = 0 → Covers (k.record p i) page →
    pagingGet k.kmem.mem (L.dir p) page = page ||| userFlags ∨
    ∃ q, q ≠ (k.record p i).ptr ∧ pagingGet k.kmem.mem (L.dir p) page = page - q
  writable : ∀ p ∈ P, ∀ page : Word, page.toNat % 4096 = 0 →
    pagingGet k.kmem.mem (L.dir p) page &&& pagingIsWritable ≠ 0 →
    (∃ i, Covers (k.record p i) page ∧
      pagingGet k.kmem.mem (L.dir p) page = page ||| userFlags) ∨
    pagingGet k.kmem.mem (L.dir p) page = init p page

variable {init : Word → Word → Word} {L : Layout} {P : Set Word} {k : Kernel} {q : Word}

/-- A change of the heap that keeps the live allocations and writes off the directories. -/
lemma Owned.withKmem (h : Owned init L P k) {s : Kmem} {S : Set ℕ}
    (hmem : SameOff S k.kmem.mem s.mem) (hoff : ∀ p ∈ P, Disjoint S (L.pages k p))
    (hheap : ∀ c m, ((∃ p ∈ P, 4096 + c ∈ L.pages k p) ∨
        ∃ p ∈ P, ∃ i, (k.record p i).ptr ≠ 0 ∧ (k.record p i).ptr = blockAddr c) →
      Allocated k.kmem.kernelHeap c m → Allocated s.kernelHeap c m) :
    Owned init L P (k.withKmem s) := by
  have hget : ∀ p ∈ P, ∀ v : Word, v.toNat % 4096 = 0 →
      pagingGet s.mem (L.dir p) v = pagingGet k.kmem.mem (L.dir p) v :=
    fun p hp => ((h.pageDir p hp).unchanged hmem (hoff p hp)).2
  refine ⟨fun p hp => ((h.pageDir p hp).unchanged hmem (hoff p hp)).1, ?_, h.apart, ?_,
    h.distinct, ?_, ?_⟩
  · intro p hp g hg
    obtain ⟨b, rfl, hb⟩ := h.held p hp g hg
    exact ⟨b, rfl, hheap b 1 (.inl ⟨p, hp, hg⟩) hb⟩
  · intro p hp i hne
    obtain ⟨b, hptr, hb, hpages⟩ := h.live p hp i hne
    exact ⟨b, hptr, hheap b _ (.inr ⟨p, hp, i, hne, hptr⟩) hb, hpages⟩
  · intro p hp i page hpage hcov
    rw [Kernel.withKmem_kmem, hget p hp page hpage]
    exact h.mapped p hp i page hpage hcov
  · intro p hp page hpage hw
    rw [Kernel.withKmem_kmem, hget p hp page hpage] at hw ⊢
    exact h.writable p hp page hpage hw

lemma setProcess_record (k : Kernel) (p : Word) (index : Fin maxProgramAllocations)
    (a : ProcessAllocation) (s : Kmem) (p' : Word) (j : Fin maxProgramAllocations) :
    ((k.withKmem s).setProcess p (setAllocation (k.procs p) index a)).record p' j =
      if p' = p ∧ j = index then a else k.record p' j := by
  simp only [Kernel.record, Kernel.setProcess_procs, Kernel.withKmem_procs]
  by_cases hp : p' = p
  · subst hp
    rw [Function.update_self]
    by_cases hj : j = index
    · subst hj
      simp [setAllocation]
    · simp [setAllocation, hj]
  · simp [hp]

/-- The record `a` put into a slot of `q` and the memory after its directory was changed. -/
def withRecord (k : Kernel) (q : Word) (mem : Mem) (index : Fin maxProgramAllocations)
    (a : ProcessAllocation) : Kernel :=
  (k.withKmem (k.kmem.withMem mem)).setProcess q (setAllocation (k.procs q) index a)

lemma withRecord_record (k : Kernel) (q : Word) (mem : Mem) (index : Fin maxProgramAllocations)
    (a : ProcessAllocation) (p : Word) (i : Fin maxProgramAllocations) :
    (withRecord k q mem index a).record p i =
      if p = q ∧ i = index then a else k.record p i := setProcess_record k q index a _ p i

lemma withRecord_pageDirectory (k : Kernel) (q : Word) (mem : Mem)
    (index : Fin maxProgramAllocations) (a : ProcessAllocation) (p : Word) :
    (withRecord k q mem index a).pageDirectory p = k.pageDirectory p := by
  simp only [withRecord, Kernel.pageDirectory, Kernel.setProcess_procs, Kernel.setProcess_tasks,
    Kernel.withKmem_procs, Kernel.withKmem_tasks]
  by_cases hp : p = q
  · subst hp
    rw [Function.update_self]
    rfl
  · rw [Function.update_of_ne hp]

/-- A slot and the entries of one directory change together. -/
theorem Owned.setRecord (h : Owned init L P k) (hq : q ∈ P) {mem : Mem}
    {index : Fin maxProgramAllocations} {a : ProcessAllocation}
    (hdir : PageDir mem (k.pageDirectory q) (L.dir q) (L.table q))
    (hmem : SameOff (tablePages (L.table q)) k.kmem.mem mem)
    (hlive : a.ptr ≠ 0 → (∃ b, a.ptr = blockAddr b ∧
      Allocated k.kmem.kernelHeap b (heapBlocksFor a.size).toNat ∧
      ∀ p ∈ P, 4096 + b ∉ L.pages k p) ∧ ∀ p ∈ P, ∀ i, (k.record p i).ptr ≠ a.ptr)
    (hkeep : ∀ j ≠ index, ∀ page : Word, page.toNat % 4096 = 0 → Covers (k.record q j) page →
      pagingGet mem (L.dir q) page = pagingGet k.kmem.mem (L.dir q) page ∨
      ∃ r, r ≠ (k.record q j).ptr ∧ pagingGet mem (L.dir q) page = page - r)
    (hnew : ∀ page : Word, page.toNat % 4096 = 0 → Covers a page →
      pagingGet mem (L.dir q) page = page ||| userFlags)
    (hwrite : ∀ page : Word, page.toNat % 4096 = 0 →
      pagingGet mem (L.dir q) page &&& pagingIsWritable ≠ 0 → Covers a page ∨
      pagingGet mem (L.dir q) page = pagingGet k.kmem.mem (L.dir q) page ∧
        ¬ Covers (k.record q index) page) :
    Owned init L P (withRecord k q mem index a) := by
  have hpages : ∀ p, L.pages (withRecord k q mem index a) p = L.pages k p := fun p => by
    rw [Layout.pages, withRecord_pageDirectory]
    rfl
  have hother : ∀ p ∈ P, p ≠ q → PageDir mem (k.pageDirectory p) (L.dir p) (L.table p) ∧
      ∀ v : Word, v.toNat % 4096 = 0 →
        pagingGet mem (L.dir p) v = pagingGet k.kmem.mem (L.dir p) v := fun p hp hpq =>
    (h.pageDir p hp).unchanged hmem
      ((h.apart q hq p hp (Ne.symm hpq)).mono_left tablePages_subset)
  refine ⟨?_, ?_, ?_, ?_, ?_, ?_, ?_⟩
  · intro p hp
    rw [withRecord_pageDirectory]
    by_cases hpq : p = q
    · exact hpq ▸ hdir
    · exact (hother p hp hpq).1
  · intro p hp g hg
    rw [hpages] at hg
    exact h.held p hp g hg
  · intro p hp p' hp' hne
    rw [hpages, hpages]
    exact h.apart p hp p' hp' hne
  · intro p hp i
    rw [withRecord_record]
    by_cases hpi : p = q ∧ i = index
    · rw [if_pos hpi]
      intro hne
      obtain ⟨b, hptr, hb, hoff⟩ := (hlive hne).1
      exact ⟨b, hptr, hb, fun p' hp' => (hpages p').symm ▸ hoff p' hp'⟩
    · rw [if_neg hpi]
      intro hne
      obtain ⟨b, hptr, hb, hoff⟩ := h.live p hp i hne
      exact ⟨b, hptr, hb, fun p' hp' => (hpages p').symm ▸ hoff p' hp'⟩
  · intro p hp p' hp' i j
    rw [withRecord_record, withRecord_record]
    by_cases hpi : p = q ∧ i = index <;> by_cases hpj : p' = q ∧ j = index
    · exact fun _ _ => ⟨hpi.1.trans hpj.1.symm, hpi.2.trans hpj.2.symm⟩
    · rw [if_pos hpi, if_neg hpj]
      exact fun hne heq => absurd heq.symm ((hlive hne).2 p' hp' j)
    · rw [if_neg hpi, if_pos hpj]
      intro hne heq
      exact absurd heq ((hlive (heq ▸ hne)).2 p hp i)
    · rw [if_neg hpi, if_neg hpj]
      exact h.distinct p hp p' hp' i j
  · intro p hp i page hpage
    rw [withRecord_record]
    change Covers _ page → pagingGet mem (L.dir p) page = _ ∨ ∃ r, _ ∧ pagingGet mem (L.dir p) page = _
    by_cases hpi : p = q ∧ i = index
    · rw [if_pos hpi, hpi.1]
      exact fun hcov => .inl (hnew page hpage hcov)
    · rw [if_neg hpi]
      intro hcov
      by_cases hpq : p = q
      · subst hpq
        rcases hkeep i (fun hi => hpi ⟨rfl, hi⟩) page hpage hcov with heq | hr
        · rw [heq]
          exact h.mapped p hp i page hpage hcov
        · exact .inr hr
      · rw [(hother p hp hpq).2 page hpage]
        exact h.mapped p hp i page hpage hcov
  · intro p hp page hpage
    change pagingGet mem (L.dir p) page &&& _ ≠ 0 → (∃ i, _ ∧ pagingGet mem (L.dir p) page = _) ∨
      pagingGet mem (L.dir p) page = _
    intro hw
    by_cases hpq : p = q
    · subst hpq
      rcases hwrite page hpage hw with hcov | ⟨heq, hnot⟩
      · exact .inl ⟨index, by rwa [withRecord_record, if_pos ⟨rfl, rfl⟩], hnew page hpage hcov⟩
      · rw [heq] at hw ⊢
        rcases h.writable p hp page hpage hw with ⟨i, hcov, hid⟩ | hinit
        · have hi : i ≠ index := fun hi => hnot (hi ▸ hcov)
          exact .inl ⟨i, by rwa [withRecord_record, if_neg fun hpi => hi hpi.2], hid⟩
        · exact .inr hinit
    · rw [(hother p hp hpq).2 page hpage] at hw ⊢
      rcases h.writable p hp page hpage hw with ⟨i, hcov, hid⟩ | hinit
      · exact .inl ⟨i, by rwa [withRecord_record, if_neg fun hpi => hpq hpi.1], hid⟩
      · exact .inr hinit

/-- The end of an allocation is the end of its last block. -/
lemma alignedEnd_toNat {b : ℕ} {size : Word} (hn : 0 < (heapBlocksFor size).toNat)
    (hb : b + (heapBlocksFor size).toNat ≤ 25600) :
    (pagingAlignAddress (blockAddr b + size)).toNat =
      16777216 + 4096 * (b + (heapBlocksFor size).toNat) := by
  have hblocks := heapBlocksFor_toNat hn
  have haddr := blockAddr_toNat (b := b) (by omega)
  have hadd : (blockAddr b + size).toNat = 16777216 + 4096 * b + size.toNat := by
    rw [BitVec.toNat_add, haddr]
    omega
  rw [pagingAlignAddress_toNat (by omega), hadd]
  omega

lemma covers_iff {b : ℕ} {size page : Word} (hb : b + (heapBlocksFor size).toNat ≤ 25600) :
    Covers ⟨blockAddr b, size⟩ page ↔
      (page - blockAddr b).toNat < 4096 * (heapBlocksFor size).toNat := by
  have haddr := blockAddr_toNat (b := b) (by omega)
  have hne := blockAddr_ne_zero (b := b) (by omega)
  have hlt := page.isLt
  simp only [Covers, ne_eq, hne, not_false_eq_true, true_and, haddr, BitVec.toNat_sub]
  omega

lemma page_or_userFlags {page : Word} (hpage : page.toNat % 4096 = 0) :
    (page ||| userFlags).toNat = page.toNat + 7 := toNat_or_flags hpage (by decide)

lemma aligned_not_writable {e : Word} (he : e.toNat % 4096 = 0) : e &&& pagingIsWritable = 0 := by
  apply BitVec.eq_of_toNat_eq
  have hbit := Nat.and_two_pow e.toNat 1
  have htest : e.toNat.testBit 1 = false := by
    rw [Nat.testBit_eq_decide_div_mod_eq]
    exact decide_eq_false (by omega)
  rw [BitVec.toNat_and]
  change e.toNat &&& 2 ^ 1 = 0
  rw [hbit, htest]
  rfl

/-- The pages of a run of free blocks are off the pages of allocations of one block. -/
lemma fits_disjoint {G : Set ℕ} (hG : ∀ g ∈ G, ∃ c, g = 4096 + c ∧ Allocated k.kmem.kernelHeap c 1)
    {b n : ℕ} (hn : 0 < n) (hfit : FitsAt k.kmem.entries 25600 n b) :
    Disjoint {g | pageOf (blockAddr b) ≤ g ∧ g < pageOf (blockAddr b) + n} G := by
  have hb := hfit.1
  rw [Set.disjoint_left]
  intro g hg hpages
  obtain ⟨c, rfl, hc⟩ := hG g hpages
  simp only [Set.mem_ofPred_eq, pageOf_blockAddr (show b < 2 ^ 19 by omega)] at hg
  have hapart := hc.apart_fits hfit hn
  omega

/-- The pages of a run of free blocks are off every directory. -/
lemma Owned.run_off (h : Owned init L P k) {b n : ℕ} (hn : 0 < n)
    (hfit : FitsAt k.kmem.entries 25600 n b) (p : Word) (hp : p ∈ P) :
    Disjoint {g | pageOf (blockAddr b) ≤ g ∧ g < pageOf (blockAddr b) + n} (L.pages k p) :=
  fits_disjoint (h.held p hp) hn hfit

/-- `kzalloc` with room keeps the invariant, and its block is new to it. -/
theorem Owned.takeZeroed (h : Owned init L P k) {size : Word} {b : ℕ}
    (hn : 0 < (heapBlocksFor size).toNat)
    (hfit : FitsAt k.kmem.entries 25600 (heapBlocksFor size).toNat b) :
    Owned init L P (k.withKmem (k.kmem.takeZeroed size (heapBlocksFor size).toNat b)) ∧
    (∀ p ∈ P, 4096 + b ∉ L.pages k p) ∧ ∀ p ∈ P, ∀ i, (k.record p i).ptr ≠ blockAddr b := by
  have hb := hfit.1
  have haddr := blockAddr_toNat (b := b) (by omega)
  have hblocks := heapBlocksFor_toNat hn
  have hoff := h.run_off hn hfit
  refine ⟨h.withKmem (fill_sameOff k.kmem.mem (blockAddr_aligned (by omega)) ?_ ?_ 0) hoff
    fun c m _ hc => Allocated.take hc hn hfit, fun p hp hmem => ?_, fun p hp i heq => ?_⟩
  · omega
  · omega
  · refine Set.disjoint_left.1 (hoff p hp) ?_ hmem
    simp only [Set.mem_ofPred_eq, pageOf_blockAddr (show b < 2 ^ 19 by omega)]
    omega
  · obtain ⟨c, hptr, hc, -⟩ := h.live p hp i (by rw [heq]; exact blockAddr_ne_zero (by omega))
    have hcb := allocated_bound hc
    obtain rfl : b = c := blockAddr_inj (by omega) (by omega) (heq.symm.trans hptr)
    have hapart := hc.apart_fits hfit hn
    omega

lemma processFindFreeAllocationIndex_some {process : Process} {i : Fin maxProgramAllocations}
    (h : processFindFreeAllocationIndex process = some i) : (process.allocations i).ptr = 0 := by
  simpa using (Fin.find?_eq_some_iff.1 h).1

lemma processGetAllocationByAddr_some {process : Process} {addr : Word}
    {i : Fin maxProgramAllocations} (h : processGetAllocationByAddr process addr = some i) :
    (process.allocations i).ptr = addr := by
  simpa using (Fin.find?_eq_some_iff.1 h).1

lemma processGetAllocationByAddr_none {process : Process} {addr : Word} :
    processGetAllocationByAddr process addr = none ↔
      ∀ i, (process.allocations i).ptr ≠ addr := by
  simp [processGetAllocationByAddr]

lemma processAllocationUnjoin_eq {process : Process} {addr : Word} {i : Fin maxProgramAllocations}
    (h : processGetAllocationByAddr process addr = some i) :
    processAllocationUnjoin process addr = setAllocation process i ⟨0, 0⟩ := by
  unfold processAllocationUnjoin
  rw [h]

/-- What `process_malloc` does with the blocks it got: without a slot they are freed
again, else their pages are mapped and the record is made. -/
theorem processMalloc_eq {size dir : Word} {table : ℕ → Word} (hn : 0 < (heapBlocksFor size).toNat)
    (hroom : k.kmem.Room (heapBlocksFor size).toNat)
    (hpageDir : ∀ b, FitsAt k.kmem.entries 25600 (heapBlocksFor size).toNat b →
      PageDir (k.kmem.takeZeroed size (heapBlocksFor size).toNat b).mem (k.pageDirectory q) dir table) :
    ∃ b, FitsAt k.kmem.entries 25600 (heapBlocksFor size).toNat b ∧
      let s := k.kmem.takeZeroed size (heapBlocksFor size).toNat b
      (processFindFreeAllocationIndex (k.procs q) = none ∧
        processMalloc k q size = (0, k.withKmem (s.give (heapBlocksFor size).toNat b))) ∨
      ∃ index mem, processFindFreeAllocationIndex (k.procs q) = some index ∧
        processMalloc k q size =
          (blockAddr b, withRecord (k.withKmem s) q mem index ⟨blockAddr b, size⟩) ∧
        PageDir mem (k.pageDirectory q) dir table ∧
        SameOff (tablePages table) s.mem mem ∧
        ∀ v : Word, v.toNat % 4096 = 0 → pagingGet mem dir v =
          if (v - blockAddr b).toNat < 4096 * (heapBlocksFor size).toNat then v ||| userFlags
          else pagingGet s.mem dir v := by
  obtain ⟨b, hfit, -, heq⟩ := kzalloc_room k.kmem hn hroom
  have hb := hfit.1
  have hne : blockAddr b ≠ 0 := blockAddr_ne_zero (by omega)
  refine ⟨b, hfit, ?_⟩
  cases hfind : processFindFreeAllocationIndex (k.procs q) with
  | none =>
    refine .inl ⟨rfl, ?_⟩
    have hlive : Allocated (k.kmem.takeZeroed size (heapBlocksFor size).toNat b).kernelHeap b
        (heapBlocksFor size).toNat := allocated_take hn hfit
    simp only [processMalloc, heq, hfind]
    rw [if_neg hne, kfree_spec _ hlive]
  | some index =>
    have hend := alignedEnd_toNat hn hb
    have haddr := blockAddr_toNat (b := b) (by omega)
    have haligned : (blockAddr b).toNat % 4096 = 0 := blockAddr_aligned (by omega)
    obtain ⟨hres, hdir, hoff, hget⟩ := pagingMapTo_spec (hpageDir b hfit) haligned haligned
      (show (pagingAlignAddress (blockAddr b + size)).toNat % 4096 = 0 by omega) (by omega)
      (pagingIsPresent ||| pagingAccessFromAll ||| pagingIsWritable)
    refine .inr ⟨index, _, rfl, ?_, hdir, hoff, fun v hv => ?_⟩
    · simp only [processMalloc, heq, hfind]
      rw [if_neg hne, if_neg (not_lt.2 hres.ge)]
      rfl
    · have hrange : 16777216 + 4096 * (b + (heapBlocksFor size).toNat) - (16777216 + 4096 * b) =
          4096 * (heapBlocksFor size).toNat := by omega
      rw [hget v hv, hend, haddr, hrange, show blockAddr b + (v - blockAddr b) = v by abel]

/-- `process_malloc` with room keeps the invariant. -/
theorem Owned.malloc (h : Owned init L P k) (hq : q ∈ P) {size : Word}
    (hn : 0 < (heapBlocksFor size).toNat) (hroom : k.kmem.Room (heapBlocksFor size).toNat) :
    Owned init L P (processMalloc k q size).2 := by
  obtain ⟨b, hfit, hcase⟩ := processMalloc_eq hn hroom fun b hfit =>
    (h.takeZeroed hn hfit).1.pageDir q hq
  have hb := hfit.1
  obtain ⟨hzeroed, hpages, hfresh⟩ := h.takeZeroed hn hfit
  have hlive : Allocated (k.kmem.takeZeroed size (heapBlocksFor size).toNat b).kernelHeap b
      (heapBlocksFor size).toNat := allocated_take hn hfit
  have haddr := blockAddr_toNat (b := b) (by omega)
  rcases hcase with ⟨-, heq⟩ | ⟨index, mem, hfind, heq, hdir, hoff, hget⟩
  · rw [heq]
    refine hzeroed.withKmem (SameOff.refl ∅ _) (fun p _ => Set.empty_disjoint _) ?_
    rintro c m (⟨p, hp, hc⟩ | ⟨p, hp, i, -, hc⟩) hcm
    · exact hcm.give hlive fun hbc => hpages p hp (hbc ▸ hc)
    · exact hcm.give hlive fun hbc => hfresh p hp i (hbc ▸ hc)
  · rw [heq]
    have hempty : ((k.withKmem (k.kmem.takeZeroed size (heapBlocksFor size).toNat b)).record q
        index).ptr = 0 := processFindFreeAllocationIndex_some hfind
    refine hzeroed.setRecord hq hdir hoff (fun _ => ⟨⟨b, rfl, hlive, hpages⟩, hfresh⟩)
      (fun j hj page hpage hcov => .inl ?_) (fun page hpage hcov => ?_) (fun page hpage hw => ?_)
    · obtain ⟨c, hptr, hc, -⟩ := hzeroed.live q hq j hcov.1
      have hcb := allocated_bound hc
      have hcaddr := blockAddr_toNat (b := c) (by omega)
      have hapart := hc.apart hlive fun hcb => hfresh q hq j (hcb ▸ hptr)
      obtain ⟨-, hlow, hhigh⟩ := hcov
      rw [hptr] at hlow hhigh
      rw [hget page hpage, if_neg]
      · rfl
      · have hlt := page.isLt
        rw [BitVec.toNat_sub]
        omega
    · rw [hget page hpage, if_pos ((covers_iff hb).1 hcov)]
    · rw [hget page hpage] at hw ⊢
      by_cases hin : (page - blockAddr b).toNat < 4096 * (heapBlocksFor size).toNat
      · exact .inl ((covers_iff hb).2 hin)
      · rw [if_neg hin]
        exact .inr ⟨rfl, fun hcov => hcov.1 hempty⟩

/-- What `process_free` does with a recorded pointer: the pages from the pointer on, as
many as lie below the end of the allocation, are mapped to frames counted from 0
without flags, the record is emptied and the blocks are freed. -/
theorem Owned.free_eq (h : Owned init L P k) (hq : q ∈ P) {ptr : Word} (hptr : ptr ≠ 0)
    {i : Fin maxProgramAllocations} (hfind : processGetAllocationByAddr (k.procs q) ptr = some i) :
    ∃ b mem, ptr = blockAddr b ∧
      Allocated k.kmem.kernelHeap b (heapBlocksFor (k.record q i).size).toNat ∧
      (∀ p ∈ P, 4096 + b ∉ L.pages k p) ∧
      processFree k q ptr = (withRecord k q mem i ⟨0, 0⟩).withKmem
        ((k.kmem.withMem mem).give (heapBlocksFor (k.record q i).size).toNat b) ∧
      PageDir mem (k.pageDirectory q) (L.dir q) (L.table q) ∧
      SameOff (tablePages (L.table q)) k.kmem.mem mem ∧
      ∀ v : Word, v.toNat % 4096 = 0 → pagingGet mem (L.dir q) v =
        if (v - ptr).toNat < 16777216 + 4096 * (b + (heapBlocksFor (k.record q i).size).toNat)
        then v - ptr else pagingGet k.kmem.mem (L.dir q) v := by
  have hrecord : (k.record q i).ptr = ptr := processGetAllocationByAddr_some hfind
  obtain ⟨b, hblock, hlive, hpages⟩ := h.live q hq i (by rwa [hrecord])
  rw [hrecord] at hblock
  subst hblock
  have hb := allocated_bound hlive
  have hend := alignedEnd_toNat hlive.1 hb.2
  have haligned : (blockAddr b).toNat % 4096 = 0 := blockAddr_aligned (by omega)
  obtain ⟨hres, hdir, hoff, hget⟩ := pagingMapTo_spec (h.pageDir q hq) haligned
    (show (0 : Word).toNat % 4096 = 0 from rfl)
    (show (pagingAlignAddress (blockAddr b + (k.record q i).size)).toNat % 4096 = 0 by omega)
    (Nat.zero_le _) 0
  refine ⟨b, _, rfl, hlive, hpages, ?_, hdir, hoff, fun v hv => ?_⟩
  · have hunjoin := processAllocationUnjoin_eq hfind
    have hfreed : ∀ mem, kfree (k.kmem.withMem mem) (blockAddr b) =
        (k.kmem.withMem mem).give (heapBlocksFor (k.record q i).size).toNat b :=
      fun mem => kfree_spec _ hlive
    have hslot : (k.procs q).allocations i = ⟨blockAddr b, (k.record q i).size⟩ := by
      rw [← hrecord]
      rfl
    unfold processFree
    rw [hfind]
    dsimp only
    rw [hslot, hunjoin, hfreed, if_neg (not_lt.2 hres.ge)]
    rfl
  · rw [hget v hv, hend]
    simp

/-- `process_free` of a non-null pointer keeps the invariant. -/
theorem Owned.free (h : Owned init L P k) (hq : q ∈ P) {ptr : Word} (hptr : ptr ≠ 0) :
    Owned init L P (processFree k q ptr) := by
  cases hfind : processGetAllocationByAddr (k.procs q) ptr with
  | none =>
    unfold processFree
    rw [hfind]
    exact h
  | some i =>
    have hrecord : (k.record q i).ptr = ptr := processGetAllocationByAddr_some hfind
    obtain ⟨b, mem, rfl, hlive, hpages, heq, hdir, hoff, hget⟩ := h.free_eq hq hptr hfind
    have hb := allocated_bound hlive
    have haligned : (blockAddr b).toNat % 4096 = 0 := blockAddr_aligned (by omega)
    have hslot : k.record q i = ⟨blockAddr b, (k.record q i).size⟩ := by rw [← hrecord]
    have hunjoined : Owned init L P (withRecord k q mem i ⟨0, 0⟩) := by
      refine h.setRecord hq hdir hoff (fun hne => absurd rfl hne)
        (fun j hj page hpage _ => ?_) (fun page _ hcov => absurd rfl hcov.1)
        (fun page hpage hw => .inr ?_)
      · rw [hget page hpage]
        split_ifs
        · refine .inr ⟨blockAddr b, fun heq => hj ?_, rfl⟩
          exact (h.distinct q hq q hq j i (heq ▸ hptr) (heq ▸ hrecord.symm)).2
        · exact .inl rfl
      · rw [hget page hpage] at hw ⊢
        by_cases hin : (page - blockAddr b).toNat <
            16777216 + 4096 * (b + (heapBlocksFor (k.record q i).size).toNat)
        · rw [if_pos hin] at hw
          exact absurd (aligned_not_writable (page_sub_aligned hpage haligned)) hw
        · rw [if_neg hin]
          refine ⟨rfl, fun hcov => hin ?_⟩
          rw [hslot, covers_iff hb.2] at hcov
          omega
    rw [heq]
    refine hunjoined.withKmem (S := ∅) (SameOff.refl _ _) (fun p _ => Set.empty_disjoint _) ?_
    rintro c m (⟨p, hp, hc⟩ | ⟨p, hp, j, hne, hc⟩) hcm
    · refine hcm.give (s := k.kmem.withMem mem) hlive fun hbc => hpages p hp ?_
      rw [Layout.pages, withRecord_pageDirectory] at hc
      exact hbc ▸ hc
    · refine hcm.give (s := k.kmem.withMem mem) hlive fun hbc => ?_
      rw [withRecord_record] at hne hc
      by_cases hpj : p = q ∧ j = i
      · rw [if_pos hpj] at hne
        exact hne rfl
      · rw [if_neg hpj] at hne hc
        exact hpj (h.distinct p hp q hq j i hne (by rw [hc, hrecord, hbc]))

/-- A `process_malloc` that needs at least one block and either finds room for it or
gets null, or a `process_free` of any non-null pointer. -/
inductive MemoryStep (P : Set Word) (k : Kernel) : Kernel → Prop
  | malloc {process size : Word} (hp : process ∈ P) (blocks : 0 < (heapBlocksFor size).toNat)
      (room : k.kmem.Room (heapBlocksFor size).toNat ∨ (kmalloc k.kmem size).1 = 0) :
      MemoryStep P k (processMalloc k process size).2
  | free {process ptr : Word} (hp : process ∈ P) (hptr : ptr ≠ 0) :
      MemoryStep P k (processFree k process ptr)

theorem Owned.step (h : Owned init L P k) {k' : Kernel} (step : MemoryStep P k k') :
    Owned init L P k' := by
  cases step with
  | malloc hp hn hroom =>
    cases hroom with
    | inl hroom => exact h.malloc hp hn hroom
    | inr hnull =>
      rw [processMalloc, kzalloc_null k.kmem hn hnull]
      exact h
  | free hp hptr => exact h.free hp hptr

theorem Owned.run (h : Owned init L P k) {k' : Kernel}
    (run : Relation.ReflTransGen (MemoryStep P) k k') : Owned init L P k' := by
  induction run with
  | refl => exact h
  | tail _ step ih => exact ih.step step

/-- Processes without records, each with a well-formed directory in heap blocks of its own. -/
structure Start (P : Set Word) (k : Kernel) (L : Layout) : Prop where
  pageDir : ∀ p ∈ P, PageDir k.kmem.mem (k.pageDirectory p) (L.dir p) (L.table p)
  held : ∀ p ∈ P, ∀ g ∈ L.pages k p, ∃ b, g = 4096 + b ∧ Allocated k.kmem.kernelHeap b 1
  apart : ∀ p ∈ P, ∀ q ∈ P, p ≠ q → Disjoint (L.pages k p) (L.pages k q)
  empty : ∀ p ∈ P, ∀ i, k.record p i = ⟨0, 0⟩

lemma Start.owned (h : Start P k L) :
    Owned (fun p page => pagingGet k.kmem.mem (k.directory p) page) L P k := by
  have hptr : ∀ p ∈ P, ∀ i, (k.record p i).ptr = 0 := fun p hp i => by rw [h.empty p hp i]
  refine ⟨h.pageDir, h.held, h.apart, fun p hp i hne => absurd (hptr p hp i) hne,
    fun p hp _ _ i _ hne => absurd (hptr p hp i) hne,
    fun p hp i _ _ hcov => absurd (hptr p hp i) hcov.1, fun p hp page _ _ => .inr ?_⟩
  rw [Kernel.directory, (h.pageDir p hp).chunk_word]

def InPool (a : Word) : Prop :=
  heapAddress.toNat ≤ a.toNat ∧ a.toNat < heapAddress.toNat + heapSizeBytes

lemma Owned.record_disjoint (h : Owned init L P k) {p q : Word} (hp : p ∈ P) (hq : q ∈ P)
    {i j : Fin maxProgramAllocations} {a : Word} (hi : Covers (k.record p i) a)
    (hj : Covers (k.record q j) a) : p = q ∧ i = j := by
  obtain ⟨b, hb, hlive, -⟩ := h.live p hp i hi.1
  obtain ⟨c, hc, hlive', -⟩ := h.live q hq j hj.1
  refine h.distinct p hp q hq i j hi.1 ?_
  by_contra hne
  have hbb := allocated_bound hlive
  have hcb := allocated_bound hlive'
  have hapart := hlive.apart hlive' fun hbc => hne (by rw [hb, hc, hbc])
  obtain ⟨-, hlow, hhigh⟩ := hi
  obtain ⟨-, hlow', hhigh'⟩ := hj
  rw [hb, blockAddr_toNat (by omega)] at hlow hhigh
  rw [hc, blockAddr_toNat (by omega)] at hlow' hhigh'
  omega

/-- In every state a run of `process_malloc` and `process_free` calls of any processes
reaches, the records of all processes are pairwise disjoint live allocations, and a
directory holds a writable entry for a page of the pool only inside an own record.
Every other writable entry is as it was at the start. -/
theorem memory_integrity {k₀ : Kernel} (h₀ : Start P k₀ L)
    (hpool : ∀ p ∈ P, ∀ page : Word, page.toNat % 4096 = 0 → InPool page →
      pagingGet k₀.kmem.mem (k₀.directory p) page &&& pagingIsWritable = 0)
    (run : Relation.ReflTransGen (MemoryStep P) k₀ k) :
    (∀ p ∈ P, ∀ i, (k.record p i).ptr ≠ 0 → ∃ b, (k.record p i).ptr = blockAddr b ∧
      Allocated k.kmem.kernelHeap b (heapBlocksFor (k.record p i).size).toNat) ∧
    (∀ p ∈ P, ∀ q ∈ P, ∀ i j a, Covers (k.record p i) a → Covers (k.record q j) a →
      p = q ∧ i = j) ∧
    (∀ p ∈ P, ∀ page : Word, page.toNat % 4096 = 0 → InPool page →
      pagingGet k.kmem.mem (k.directory p) page &&& pagingIsWritable ≠ 0 →
      ∃ i, Covers (k.record p i) page) ∧
    ∀ p ∈ P, ∀ page : Word, page.toNat % 4096 = 0 →
      pagingGet k.kmem.mem (k.directory p) page &&& pagingIsWritable ≠ 0 →
      (∃ i, Covers (k.record p i) page ∧
        pagingGet k.kmem.mem (k.directory p) page = page ||| userFlags) ∨
      pagingGet k.kmem.mem (k.directory p) page =
        pagingGet k₀.kmem.mem (k₀.directory p) page := by
  have h := h₀.owned.run run
  have hdir : ∀ p ∈ P, k.directory p = L.dir p := fun p hp => (h.pageDir p hp).chunk_word
  refine ⟨fun p hp i hne => ?_, fun p hp q hq i j a => h.record_disjoint hp hq, ?_, ?_⟩
  · obtain ⟨b, hb, hlive, -⟩ := h.live p hp i hne
    exact ⟨b, hb, hlive⟩
  · intro p hp page hpage hin hw
    rw [hdir p hp] at hw
    rcases h.writable p hp page hpage hw with ⟨i, hcov, -⟩ | hinit
    · exact ⟨i, hcov⟩
    · rw [hinit] at hw
      exact absurd (hpool p hp page hpage hin) hw
  · intro p hp page hpage hw
    rw [hdir p hp] at hw ⊢
    exact h.writable p hp page hpage hw

/-- A process without records whose directory was just built. -/
lemma start_newDir {s₀ : Kmem} {flags : Byte} {d : ℕ} {a : ℕ → Word}
    (hnew : NewDir s₀ k.kmem (flags.setWidth 32) (k.pageDirectory q) d a)
    (hchunk : k.pageDirectory q ≠ 0) (hne : ∀ j < 1024, a j ≠ 0)
    (hempty : ∀ i, k.record q i = ⟨0, 0⟩) :
    Start {q} k ⟨fun _ => blockAddr d, fun _ => a⟩ := by
  have hd := hnew.dir_lt
  have hheld : ∀ b, b ∈ dirBlocks d a (k.pageDirectory q) → Allocated k.kmem.kernelHeap b 1 := by
    intro b hb
    refine ⟨one_pos, ?_, fun j hj => ?_⟩
    · rw [k.kmem.total_toNat]
      have := hb.1
      omega
    · obtain rfl : j = 0 := by omega
      exact hnew.grown.taken b hb
  refine ⟨?_, ?_, ?_, ?_⟩
  · rintro p rfl
    exact (hnew.refines hne).pageDir
  · rintro p rfl g (rfl | rfl | ⟨j, hj, rfl⟩)
    · obtain ⟨c, hc, -, heq, -⟩ := hnew.chunk_or.resolve_left hchunk
      rw [heq, pageOf_blockAddr (by omega)]
      exact ⟨c, rfl, hheld c ⟨hc, .inr (.inr heq)⟩⟩
    · rw [pageOf_blockAddr (by omega)]
      exact ⟨d, rfl, hheld d ⟨hd, .inl rfl⟩⟩
    · obtain ⟨b, hb, -, heq⟩ := (hnew.null_or j hj).resolve_left (hne j hj)
      have hpage : pageOf (a j) = 4096 + b := by rw [heq, pageOf_blockAddr (by omega)]
      exact ⟨b, hpage, hheld b ⟨hb, .inr (.inl ⟨j, hj, heq⟩)⟩⟩
  · rintro p rfl p' rfl hpp
    exact absurd rfl hpp
  · rintro p rfl i
    exact hempty i

/-- Processes without records whose tasks share a directory. -/
def freshProcesses (chunk : Word) (s : Kmem) : Kernel :=
  { zeroKernel s with tasks := fun _ => { zeroTask with pageDirectory := chunk } }

lemma freshProcesses_pageDirectory (chunk : Word) (s : Kmem) (p : Word) :
    (freshProcesses chunk s).pageDirectory p = chunk := rfl

/-- The kernel around a directory as `task_init` builds it. -/
def oneProcess : Kernel := freshProcesses (pagingNew4gb emptyKmem 5).1 (pagingNew4gb emptyKmem 5).2

/-- The process starts well formed and can take a block. -/
lemma oneProcess_start : ∃ L, Start {0} oneProcess L ∧ oneProcess.kmem.Room 1 ∧
    ∀ page : Word, page.toNat % 4096 = 0 →
      pagingGet oneProcess.kmem.mem (oneProcess.directory 0) page = page ||| 5 := by
  have hcard : 1026 < (Finset.range 25600).card := by
    rw [Finset.card_range]
    omega
  have hfree : ∀ b ∈ Finset.range 25600, b < 25600 ∧ IsFree emptyKmem.entries b := fun b hb =>
    ⟨Finset.mem_range.1 hb, kheapInit_free _ _ (Finset.mem_range.1 hb)⟩
  obtain ⟨d, a, hnew, hchunk, hne⟩ := pagingNew4gb_new emptyKmem 5 (Finset.range 25600)
    (by omega) hfree
  have hkmem : oneProcess.kmem = (pagingNew4gb emptyKmem 5).2 := rfl
  have hdirectory : oneProcess.pageDirectory 0 = (pagingNew4gb emptyKmem 5).1 :=
    freshProcesses_pageDirectory _ _ _
  rw [← hkmem, ← hdirectory] at hnew
  rw [← hdirectory] at hchunk
  obtain ⟨left, hleft, hlfree⟩ := hnew.exists_free (Finset.range 25600) hfree
  obtain ⟨b, hbleft⟩ : left.Nonempty := Finset.card_pos.1 (by omega)
  obtain ⟨hb, hbfree⟩ := hlfree b hbleft
  refine ⟨_, start_newDir (k := oneProcess) (q := 0) hnew hchunk hne fun _ => rfl, ?_, ?_⟩
  · refine ⟨b, by omega, fun j h1 h2 => ?_⟩
    obtain rfl : j = b := by omega
    exact hbfree
  · intro page hpage
    have hget := (hnew.refines hne).get page hpage
    have hword : oneProcess.directory 0 = blockAddr d := hnew.chunk_word
    rw [hword]
    exact hget

theorem memory_integrity_oneMalloc :
    (∀ i j a, Covers ((processMalloc oneProcess 0 4096).2.record 0 i) a →
      Covers ((processMalloc oneProcess 0 4096).2.record 0 j) a → i = j) ∧
    ∀ page : Word, page.toNat % 4096 = 0 → InPool page →
      pagingGet (processMalloc oneProcess 0 4096).2.kmem.mem
        ((processMalloc oneProcess 0 4096).2.directory 0) page &&& pagingIsWritable ≠ 0 →
      ∃ i, Covers ((processMalloc oneProcess 0 4096).2.record 0 i) page := by
  obtain ⟨L, hstart, hroom, hentry⟩ := oneProcess_start
  have hblocks : (heapBlocksFor 4096).toNat = 1 := by decide
  have hstep : MemoryStep {0} oneProcess (processMalloc oneProcess 0 4096).2 :=
    .malloc rfl (by rw [hblocks]; decide) (.inl (hblocks.symm ▸ hroom))
  have hpool : ∀ p ∈ ({0} : Set Word), ∀ page : Word, page.toNat % 4096 = 0 → InPool page →
      pagingGet oneProcess.kmem.mem (oneProcess.directory p) page &&& pagingIsWritable = 0 := by
    rintro p rfl page hpage -
    rw [hentry page hpage, BitVec.and_or_distrib_right, aligned_not_writable hpage]
    decide
  obtain ⟨-, hdisjoint, hwritable, -⟩ := memory_integrity hstart hpool (.single hstep)
  exact ⟨fun i j a hi hj => (hdisjoint 0 rfl 0 rfl i j a hi hj).2, hwritable 0 rfl⟩

end AlphaOS.Processes
