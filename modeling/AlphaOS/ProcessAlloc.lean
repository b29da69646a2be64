import AlphaOS.BlockHeapRun
import AlphaOS.ProcessFree

/-! One `process_malloc`: the heap table, the page directory and the records of the process agree
on the extent of the allocation, and a process without a free slot is left as it was. -/
namespace AlphaOS.Processes
open BlockHeap Kheap Paging WordMemory

/-- A process whose records and whose directory are live allocations. -/
structure LiveProcess (k : Kernel) (q dir : Word) (table : ℕ → Word) : Prop where
  pageDir : PageDir k.kmem.mem (k.pageDirectory q) dir table
  held : ∀ g ∈ dirPages (k.pageDirectory q) dir table,
    ∃ b, g = 4096 + b ∧ Allocated k.kmem.kernelHeap b 1
  live : ∀ i, (k.record q i).ptr ≠ 0 → ∃ b, (k.record q i).ptr = blockAddr b ∧
    Allocated k.kmem.kernelHeap b (heapBlocksFor (k.record q i).size).toNat

/-- A table whose free entries are zero. -/
def ZeroFree (entries : ℤ → Byte) : Prop :=
  ∀ b < 25600, IsFree entries b → entries b = entryFree

/-- The pages of `n` blocks. -/
def blockPages (b n : ℕ) : Set ℕ := {g | 4096 + b ≤ g ∧ g < 4096 + (b + n)}

variable {k : Kernel} {q dir size : Word} {table : ℕ → Word} {b n : ℕ}
  {index : Fin maxProgramAllocations}

lemma LiveProcess.directory (h : LiveProcess k q dir table) : k.directory q = dir :=
  h.pageDir.chunk_word

lemma blockPages_eq (hb : b < 2 ^ 19) :
    blockPages b n = {g | pageOf (blockAddr b) ≤ g ∧ g < pageOf (blockAddr b) + n} := by
  rw [pageOf_blockAddr hb, blockPages]
  simp only [Nat.add_assoc]

lemma LiveProcess.blockPages_off (h : LiveProcess k q dir table) (hn : 0 < n)
    (hfit : FitsAt k.kmem.entries 25600 n b) :
    Disjoint (blockPages b n) (dirPages (k.pageDirectory q) dir table) := by
  have hb := hfit.1
  rw [blockPages_eq (by omega)]
  exact fits_disjoint h.held hn hfit

/-- A change of the heap that keeps the live allocations and writes off the directory. -/
lemma LiveProcess.withKmem (h : LiveProcess k q dir table) {s : Kmem} {S : Set ℕ}
    (hmem : SameOff S k.kmem.mem s.mem)
    (hoff : Disjoint S (dirPages (k.pageDirectory q) dir table))
    (hheap : ∀ c m, Allocated k.kmem.kernelHeap c m → Allocated s.kernelHeap c m) :
    LiveProcess (k.withKmem s) q dir table := by
  refine ⟨(h.pageDir.unchanged hmem hoff).1, fun g hg => ?_, fun i hne => ?_⟩
  · obtain ⟨c, heq, hc⟩ := h.held g hg
    exact ⟨c, heq, hheap c 1 hc⟩
  · obtain ⟨c, heq, hc⟩ := h.live i hne
    exact ⟨c, heq, hheap c _ hc⟩

/-- The cleared blocks are off the directory. -/
lemma LiveProcess.takeZeroed (h : LiveProcess k q dir table) (hn : 0 < (heapBlocksFor size).toNat)
    (hfit : FitsAt k.kmem.entries 25600 (heapBlocksFor size).toNat b) :
    SameOff (blockPages b (heapBlocksFor size).toNat) k.kmem.mem
      (k.kmem.takeZeroed size (heapBlocksFor size).toNat b).mem ∧
    LiveProcess (k.withKmem (k.kmem.takeZeroed size (heapBlocksFor size).toNat b)) q dir table := by
  have hb := hfit.1
  have haddr := blockAddr_toNat (b := b) (by omega)
  have hblocks := heapBlocksFor_toNat hn
  have hmem : SameOff (blockPages b (heapBlocksFor size).toNat) k.kmem.mem
      (k.kmem.takeZeroed size (heapBlocksFor size).toNat b).mem := by
    rw [blockPages_eq (by omega)]
    exact fill_sameOff k.kmem.mem (blockAddr_aligned (by omega)) (by omega) (by omega) 0
  exact ⟨hmem, h.withKmem hmem (h.blockPages_off hn hfit) fun c m hc => Allocated.take hc hn hfit⟩

/-- Without a free slot the blocks are given back. -/
lemma LiveProcess.malloc_full (h : LiveProcess k q dir table)
    (hn : 0 < (heapBlocksFor size).toNat) (hroom : k.kmem.Room (heapBlocksFor size).toNat)
    (hfull : processFindFreeAllocationIndex (k.procs q) = none) :
    ∃ b, FitsAt k.kmem.entries 25600 (heapBlocksFor size).toNat b ∧
      processMalloc k q size =
        (0, k.withKmem ((k.kmem.takeZeroed size (heapBlocksFor size).toNat b).give
          (heapBlocksFor size).toNat b)) := by
  obtain ⟨b, hfit, hcase⟩ := processMalloc_eq hn hroom fun b hfit => (h.takeZeroed hn hfit).2.pageDir
  cases hcase with
  | inl hcase => exact ⟨b, hfit, hcase.2⟩
  | inr hcase =>
    obtain ⟨index, mem, hfind, -⟩ := hcase
    exact absurd (hfull.symm.trans hfind) (Option.some_ne_none index).symm

/-- With a free slot the pages of the new blocks are mapped and the record is made, and the
process stays as it must be. -/
lemma LiveProcess.malloc (h : LiveProcess k q dir table)
    (hn : 0 < (heapBlocksFor size).toNat) (hroom : k.kmem.Room (heapBlocksFor size).toNat)
    (hslot : processFindFreeAllocationIndex (k.procs q) = some index) :
    ∃ b mem, FitsAt k.kmem.entries 25600 (heapBlocksFor size).toNat b ∧
      processMalloc k q size = (blockAddr b,
        withRecord (k.withKmem (k.kmem.takeZeroed size (heapBlocksFor size).toNat b)) q mem index
          ⟨blockAddr b, size⟩) ∧
      LiveProcess (processMalloc k q size).2 q dir table ∧
      SameOff (blockPages b (heapBlocksFor size).toNat ∪ tablePages table) k.kmem.mem mem ∧
      ∀ v : Word, v.toNat % 4096 = 0 → pagingGet mem dir v =
        if (v - blockAddr b).toNat < 4096 * (heapBlocksFor size).toNat then v ||| userFlags
        else pagingGet k.kmem.mem dir v := by
  obtain ⟨b, hfit, hcase⟩ := processMalloc_eq hn hroom fun b hfit => (h.takeZeroed hn hfit).2.pageDir
  obtain ⟨hzero, hzeroed⟩ := h.takeZeroed hn hfit
  cases hcase with
  | inl hcase => exact absurd (hcase.1.symm.trans hslot) (Option.some_ne_none index).symm
  | inr hcase =>
    obtain ⟨i, mem, hfind, heq, hdir, hmem, hget⟩ := hcase
    obtain rfl : i = index := Option.some.inj (hfind.symm.trans hslot)
    refine ⟨b, mem, hfit, heq, ?_, hzero.trans hmem, fun v hv => ?_⟩
    · rw [heq]
      refine ⟨?_, ?_, fun j => ?_⟩
      · rw [withRecord_pageDirectory]
        exact hdir
      · rw [withRecord_pageDirectory]
        exact hzeroed.held
      · rw [withRecord_record]
        by_cases hj : q = q ∧ j = i
        · rw [if_pos hj]
          exact fun _ => ⟨b, rfl, allocated_take hn hfit⟩
        · rw [if_neg hj]
          exact hzeroed.live j
    · rw [hget v hv]
      have hkept := (h.pageDir.unchanged hzero (h.blockPages_off hn hfit)).2 v hv
      rw [hkept]

lemma processFindFreeAllocationIndex_eq_some {process : Process} :
    processFindFreeAllocationIndex process = some index ↔ (process.allocations index).ptr = 0 ∧
      ∀ j < index, (process.allocations j).ptr ≠ 0 := by
  simp [processFindFreeAllocationIndex]

lemma processFindFreeAllocationIndex_eq_none {process : Process} :
    processFindFreeAllocationIndex process = none ↔ ∀ j, (process.allocations j).ptr ≠ 0 := by
  simp [processFindFreeAllocationIndex]

/-- The size in blocks, where the pool has so many. -/
lemma heapBlocksFor_room (hroom : k.kmem.Room n) (hsize : n = (size.toNat + 4095) / 4096) :
    (heapBlocksFor size).toNat = n := by
  obtain ⟨b, hfit⟩ := hroom
  have hb := hfit.1
  have heq := heapBlocksFor_eq size
  omega

/-- Blocks that were free are zero again after they were taken and given back. -/
lemma give_takeZeroed_entries {s : Kmem} (hzero : ZeroFree s.entries)
    (hfit : FitsAt s.entries 25600 n b) : ((s.takeZeroed size n b).give n b).entries = s.entries := by
  have hb := hfit.1
  funext i
  change overwrite (overwrite s.entries b n (blockEntry n)) b n (fun _ => entryFree) i = s.entries i
  by_cases hin : (b : ℤ) ≤ i ∧ i < (b + n : ℕ)
  · obtain ⟨j, rfl⟩ := Int.eq_ofNat_of_zero_le (by omega : 0 ≤ i)
    rw [overwrite, if_pos hin]
    exact (hzero j (by omega) (hfit.2 j (by omega) (by omega))).symm
  · rw [overwrite, if_neg hin, overwrite, if_neg hin]

/-- The entries before and after, where the directory stays in its place. -/
lemma LiveProcess.entryOf_eq {k' : Kernel} (h : LiveProcess k q dir table)
    (h' : LiveProcess k' q dir table) {page : Word} :
    entryOf k q page = pagingGet k.kmem.mem dir page ∧
      entryOf k' q page = pagingGet k'.kmem.mem dir page := by
  rw [entryOf, entryOf, h.directory, h'.directory]
  exact ⟨rfl, rfl⟩

/-- `process_malloc` of a size that needs `n` blocks: with a free slot it returns fresh blocks,
puts them down in the first free slot and maps exactly their pages, and without one it returns
null and leaves heap table, directory and records as they were. -/
theorem processMalloc_exact (h : LiveProcess k q dir table) (hzero : ZeroFree k.kmem.entries)
    (hsize : n = (size.toNat + 4095) / 4096) (hn : 1 ≤ n) (hroom : k.kmem.Room n) :
    let r := processMalloc k q size
    (∀ index, (k.record q index).ptr = 0 → (∀ j < index, (k.record q j).ptr ≠ 0) →
      r.1.toNat % 4096 = 0 ∧
      (∃ b, r.1 = blockAddr b ∧ FitsAt k.kmem.entries 25600 n b ∧
        r.2.kmem.entries = overwrite k.kmem.entries b n (blockEntry n) ∧
        SameOff (blockPages b n ∪ tablePages table) k.kmem.mem r.2.kmem.mem) ∧
      (∀ live, Represents k.kmem.kernelHeap live →
        Represents r.2.kmem.kernelHeap ((r.1, n) :: live)) ∧
      (∀ p i, r.2.record p i = if p = q ∧ i = index then ⟨r.1, size⟩ else k.record p i) ∧
      ∀ page : Word, page.toNat % 4096 = 0 → entryOf r.2 q page =
        if (page - r.1).toNat < 4096 * n then page ||| userFlags else entryOf k q page) ∧
    ((∀ i, (k.record q i).ptr ≠ 0) →
      r.1 = 0 ∧ r.2.kmem.entries = k.kmem.entries ∧ r.2.procs = k.procs ∧
      (∀ x, pageOf x ∈ dirPages (k.pageDirectory q) dir table → r.2.kmem.mem x = k.kmem.mem x) ∧
      (∀ page : Word, page.toNat % 4096 = 0 → entryOf r.2 q page = entryOf k q page) ∧
      ∃ b, FitsAt k.kmem.entries 25600 n b ∧ SameOff (blockPages b n) k.kmem.mem r.2.kmem.mem) := by
  have hblocks := heapBlocksFor_room hroom hsize
  have hpos : 0 < (heapBlocksFor size).toNat := by omega
  intro r
  constructor
  · intro index hempty hfirst
    have hslot := processFindFreeAllocationIndex_eq_some.2 ⟨hempty, hfirst⟩
    obtain ⟨b, mem, hfit, heq, hlive, hmem, hget⟩ := h.malloc hpos (hblocks.symm ▸ hroom) hslot
    have hr : r = _ := heq
    rw [hblocks] at hfit hmem hget
    have hb := hfit.1
    have hptr : r.1 = blockAddr b := by rw [hr]
    have hheap : r.2.kmem.kernelHeap = (mallocAt k.kmem.kernelHeap n b).2 := by
      rw [hr, ← hblocks]
      rfl
    refine ⟨?_, ⟨b, hptr, hfit, ?_, ?_⟩, fun live hrep => ?_, fun p i => ?_, fun page hpage => ?_⟩
    · rw [hptr]
      exact blockAddr_aligned (by omega)
    · rw [Kmem.entries, hheap]
      rfl
    · rw [hr]
      exact hmem
    · rw [hheap, hptr, ← heapBlockToAddress_eq k.kmem b]
      refine hrep.mallocAt hn ?_
      rw [k.kmem.total_toNat]
      exact hfit
    · rw [hptr, hr, withRecord_record]
      rfl
    · rw [(h.entryOf_eq hlive).1, (h.entryOf_eq hlive).2, hptr]
      have hresult : (processMalloc k q size).2.kmem.mem = mem := by
        rw [heq]
        rfl
      rw [hresult]
      exact hget page hpage
  · intro hfull
    obtain ⟨b, hfit, heq⟩ := h.malloc_full hpos (hblocks.symm ▸ hroom)
      (processFindFreeAllocationIndex_eq_none.2 hfull)
    obtain ⟨hmem, hzeroed⟩ := h.takeZeroed hpos hfit
    have hoff := h.blockPages_off hpos hfit
    have hr : r = _ := heq
    have hdirectory : r.2.directory q = dir := by
      rw [hr]
      exact hzeroed.directory
    rw [hr]
    refine ⟨rfl, give_takeZeroed_entries hzero hfit, rfl, fun x hx => ?_, fun page hpage => ?_, ?_⟩
    · exact hmem x fun hin => Set.disjoint_left.1 hoff hin hx
    · rw [hr] at hdirectory
      rw [entryOf, hdirectory, entryOf, h.directory]
      exact (h.pageDir.unchanged hmem hoff).2 page hpage
    · rw [← hblocks]
      exact ⟨b, hfit, hmem⟩

lemma Start.liveProcess {L : Layout} {P : Set Word} (h : Start P k L) (hq : q ∈ P) :
    LiveProcess k q (L.dir q) (L.table q) := by
  refine ⟨h.pageDir q hq, h.held q hq, fun i hne => ?_⟩
  rw [h.empty q hq i] at hne
  exact absurd rfl hne

lemma oneProcess_zeroFree : ZeroFree oneProcess.kmem.entries := by
  intro b hb hfree
  cases pagingNew4gb_spec emptyKmem 5 with
  | inl hfull => exact absurd (kheapInit_free _ _ hb) (hfull b hb)
  | inr hnew =>
    obtain ⟨d, a, hnew⟩ := hnew
    have hkmem : oneProcess.kmem = (pagingNew4gb emptyKmem 5).2 := rfl
    rw [hkmem] at hfree ⊢
    by_cases hused : b ∈ dirBlocks d a (pagingNew4gb emptyKmem 5).1
    · rw [IsFree, hnew.grown.taken b hused, blockEntry_type] at hfree
      exact absurd hfree (by decide)
    · rw [hnew.grown.same b fun c hc hbc => hused (by rwa [Nat.cast_inj.1 hbc])]
      exact kheapInit_zero hb

/-- One page for a process without records. -/
theorem processMalloc_exact_onePage : ∃ r, r = processMalloc oneProcess 0 4096 ∧
    r.1.toNat % 4096 = 0 ∧ r.2.record 0 0 = ⟨r.1, 4096⟩ ∧
    entryOf r.2 0 r.1 = r.1 ||| userFlags := by
  obtain ⟨L, hstart, hroom, -⟩ := oneProcess_start
  have hempty : (oneProcess.record 0 0).ptr = 0 := rfl
  have hsize : 1 = ((4096 : Word).toNat + 4095) / 4096 := rfl
  obtain ⟨haligned, -, -, hrecord, hentry⟩ :=
    (processMalloc_exact (hstart.liveProcess rfl) oneProcess_zeroFree hsize le_rfl hroom).1 0 hempty fun j hj => absurd hj (Fin.not_lt_zero j)
  refine ⟨_, rfl, haligned, ?_, ?_⟩
  · rw [hrecord]
    rfl
  · rw [hentry _ haligned, if_pos]
    rw [BitVec.sub_self]
    decide

end AlphaOS.Processes
