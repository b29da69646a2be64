import AlphaOS.FrontierLoad
import AlphaOS.ProcessAlloc
import AlphaOS.SystemCommand

/-! `process_inject_arguments` on a process with room: the arguments are copied one by one into
allocations of their own, and the array of their addresses into one more. -/
namespace AlphaOS.Processes
open BlockHeap CString Kheap Paging WordMemory

/-- The pages of allocations of one block each. -/
def grantPages (new : List ProcessAllocation) : Set ℕ := {g | ∃ a ∈ new, g = pageOf a.ptr}

/-- The free allocation slots of a process. -/
def freeSlots (k : Kernel) (q : Word) : Finset (Fin maxProgramAllocations) :=
  Finset.univ.filter fun i => (k.record q i).ptr = 0

/-- From `k₀` to `k` the process got the allocations of `new`, of one block each, and nothing
else happened to the heap, the records and the entries of its directory. Stores went to the new
blocks and to the page tables. -/
structure Granted (k₀ k : Kernel) (q dir : Word) (table : ℕ → Word)
    (new : List ProcessAllocation) : Prop where
  process : LiveProcess k q dir table
  pageDirectory : k.pageDirectory q = k₀.pageDirectory q
  fresh : ∀ a ∈ new, ∃ b < 25600, a.ptr = blockAddr b ∧ IsFree k₀.kmem.entries b ∧
    Allocated k.kmem.kernelHeap b 1
  nodup : (new.map ProcessAllocation.ptr).Nodup
  same : ∀ c < 25600, (∀ a ∈ new, a.ptr ≠ blockAddr c) → k.kmem.entries c = k₀.kmem.entries c
  kept : ∀ c m, Allocated k₀.kmem.kernelHeap c m → Allocated k.kmem.kernelHeap c m
  mem : SameOff (grantPages new ∪ tablePages table) k₀.kmem.mem k.kmem.mem
  mapped : ∀ a ∈ new, pagingGet k.kmem.mem dir a.ptr = a.ptr ||| userFlags
  unmapped : ∀ v : Word, v.toNat % 4096 = 0 → (∀ a ∈ new, a.ptr ≠ v) →
    pagingGet k.kmem.mem dir v = pagingGet k₀.kmem.mem dir v
  recorded : ∀ a ∈ new, ∃ i, k.record q i = a ∧ ∀ j, (k.record q j).ptr = a.ptr → j = i
  old : ∀ p i, k.record p i = k₀.record p i ∨ p = q ∧ (k₀.record q i).ptr = 0
  slots : (freeSlots k q).card + new.length = (freeSlots k₀ q).card

variable {k₀ k : Kernel} {q dir size : Word} {table : ℕ → Word} {new : List ProcessAllocation}
  {a : ProcessAllocation} {b : ℕ}

lemma grantPages_append : grantPages (new ++ [a]) = grantPages new ∪ {pageOf a.ptr} := by
  ext g
  simp only [grantPages, List.mem_append, List.mem_singleton, Set.mem_ofPred_eq, Set.mem_union,
    Set.mem_singleton_iff]
  constructor
  · rintro ⟨c, hc | rfl, heq⟩
    · exact .inl ⟨c, hc, heq⟩
    · exact .inr heq
  · rintro (⟨c, hc, heq⟩ | heq)
    · exact ⟨c, .inl hc, heq⟩
    · exact ⟨a, .inr rfl, heq⟩

/-- Nothing was granted yet. -/
lemma LiveProcess.granted (h : LiveProcess k q dir table) : Granted k k q dir table [] where
  process := h
  pageDirectory := rfl
  fresh := by simp
  nodup := by simp
  same := fun _ _ _ => rfl
  kept := fun _ _ hc => hc
  mem := SameOff.refl _ _
  mapped := by simp
  unmapped := fun _ _ _ => rfl
  recorded := by simp
  old := fun _ _ => .inl rfl
  slots := Nat.add_zero _

/-- The new pages are off the directory. -/
lemma Granted.pages_off (h : Granted k₀ k q dir table new) (h₀ : LiveProcess k₀ q dir table) :
    Disjoint (grantPages new) (dirPages (k.pageDirectory q) dir table) := by
  rw [h.pageDirectory, Set.disjoint_left]
  rintro g ⟨a, ha, rfl⟩ hg
  obtain ⟨b, hb, hptr, hfree, -⟩ := h.fresh a ha
  obtain ⟨c, heq, hc⟩ := h₀.held _ hg
  rw [hptr, pageOf_blockAddr (by omega)] at heq
  obtain rfl : b = c := by omega
  exact hc.not_free ⟨le_rfl, by omega⟩ hfree

/-- Stores into the new blocks. -/
lemma Granted.store (h : Granted k₀ k q dir table new) (h₀ : LiveProcess k₀ q dir table) {mem : Mem}
    (hmem : SameOff (grantPages new) k.kmem.mem mem) :
    Granted k₀ (k.withKmem (k.kmem.withMem mem)) q dir table new := by
  have hoff := h.pages_off h₀
  have hget := (h.process.pageDir.unchanged hmem hoff).2
  refine ⟨h.process.withKmem hmem hoff fun _ _ hc => hc, h.pageDirectory, h.fresh, h.nodup, h.same,
    h.kept, ?_, fun a ha => ?_, fun v hv hnot => ?_, h.recorded, h.old, h.slots⟩
  · refine (h.mem.trans hmem).mono (Set.union_subset le_rfl Set.subset_union_left)
  · obtain ⟨b, hb, hptr, -⟩ := h.fresh a ha
    have haligned : a.ptr.toNat % 4096 = 0 := hptr ▸ blockAddr_aligned (by omega)
    exact (hget a.ptr haligned).trans (h.mapped a ha)
  · exact (hget v hv).trans (h.unmapped v hv hnot)

lemma blockPages_one (hb : b < 2 ^ 19) : blockPages b 1 = {pageOf (blockAddr b)} := by
  ext g
  rw [pageOf_blockAddr hb]
  simp only [blockPages, Set.mem_ofPred_eq, Set.mem_singleton_iff]
  omega

lemma sub_lt_page {v p : Word} (hv : v.toNat % 4096 = 0) (hp : p.toNat % 4096 = 0) :
    (v - p).toNat < 4096 * 1 ↔ p = v := by
  constructor
  · intro hlt
    have hsub := page_sub_aligned hv hp
    have hzero : v - p = 0 := BitVec.eq_of_toNat_eq (show (v - p).toNat = 0 by omega)
    exact (sub_eq_zero.1 hzero).symm
  · rintro rfl
    rw [BitVec.sub_self]
    decide

lemma freeSlots_record {k' : Kernel} {index : Fin maxProgramAllocations}
    (hrecord : ∀ i, k'.record q i = if i = index then a else k.record q i)
    (hempty : (k.record q index).ptr = 0) (ha : a.ptr ≠ 0) :
    (freeSlots k' q).card + 1 = (freeSlots k q).card := by
  have herase : freeSlots k' q = (freeSlots k q).erase index := by
    ext i
    simp only [freeSlots, Finset.mem_filter, Finset.mem_univ, true_and, Finset.mem_erase, hrecord]
    by_cases hi : i = index
    · simpa [hi] using ha
    · simp [hi]
  rw [herase, Finset.card_erase_add_one]
  simp [freeSlots, hempty]

lemma exists_slot (h : 0 < (freeSlots k q).card) :
    ∃ index, processFindFreeAllocationIndex (k.procs q) = some index := by
  obtain ⟨i, hi⟩ := Finset.card_pos.1 h
  cases hfind : processFindFreeAllocationIndex (k.procs q) with
  | some index => exact ⟨index, rfl⟩
  | none =>
    have hne := processFindFreeAllocationIndex_eq_none.1 hfind i
    exact absurd (Finset.mem_filter.1 hi).2 hne

/-- A free block that was not granted yet. -/
lemma Granted.exists_free (h : Granted k₀ k q dir table new) {free : Finset ℕ}
    (hfree : ∀ b ∈ free, b < 25600 ∧ IsFree k₀.kmem.entries b) (hcard : new.length < free.card) :
    k.kmem.Room 1 := by
  have hused : ((new.map fun a => blockOf a.ptr).toFinset).card ≤ new.length := by
    simpa using (new.map fun a => blockOf a.ptr).toFinset_card_le
  have hleft := Finset.le_card_sdiff (new.map fun a => blockOf a.ptr).toFinset free
  obtain ⟨b, hb⟩ : (free \ (new.map fun a => blockOf a.ptr).toFinset).Nonempty :=
    Finset.card_pos.1 (by omega)
  obtain ⟨hmem, hnot⟩ := Finset.mem_sdiff.1 hb
  obtain ⟨hlt, hbfree⟩ := hfree b hmem
  have hsame := h.same b hlt fun a ha heq => hnot (List.mem_toFinset.2
    (List.mem_map.2 ⟨a, ha, by rw [heq, blockOf_blockAddr hlt]⟩))
  refine ⟨b, hlt, fun j h1 h2 => ?_⟩
  obtain rfl : j = b := by omega
  rwa [IsFree, hsame]

/-- A free block is none of the granted ones, and was free at the start. -/
lemma Granted.fresh_block (h : Granted k₀ k q dir table new) (hb : b < 25600)
    (hfree : IsFree k.kmem.entries b) :
    (∀ a ∈ new, a.ptr ≠ blockAddr b) ∧ IsFree k₀.kmem.entries b := by
  have hnew : ∀ a ∈ new, a.ptr ≠ blockAddr b := by
    intro a ha heq
    obtain ⟨c, hc, hptr, -, hlive⟩ := h.fresh a ha
    obtain rfl : c = b := blockAddr_inj (by omega) (by omega) (hptr.symm.trans heq)
    exact hlive.not_free ⟨le_rfl, by omega⟩ hfree
  refine ⟨hnew, ?_⟩
  rw [IsFree, ← h.same b hb hnew]
  exact hfree

/-- What an allocation of one block leaves: the block was free, its page is mapped and the record
is in the slot. -/
structure BlockAdded (k k' : Kernel) (q dir : Word) (table : ℕ → Word)
    (index : Fin maxProgramAllocations) (size : Word) (b : ℕ) : Prop where
  block_lt : b < 25600
  free : IsFree k.kmem.entries b
  process : LiveProcess k' q dir table
  pageDirectory : k'.pageDirectory q = k.pageDirectory q
  taken : Allocated k'.kmem.kernelHeap b 1
  kept : ∀ c m, Allocated k.kmem.kernelHeap c m → Allocated k'.kmem.kernelHeap c m
  same : ∀ c < 25600, c ≠ b → k'.kmem.entries c = k.kmem.entries c
  mem : SameOff ({pageOf (blockAddr b)} ∪ tablePages table) k.kmem.mem k'.kmem.mem
  entry : ∀ v : Word, v.toNat % 4096 = 0 → pagingGet k'.kmem.mem dir v =
    if v = blockAddr b then v ||| userFlags else pagingGet k.kmem.mem dir v
  record : ∀ p i, k'.record p i = if p = q ∧ i = index then ⟨blockAddr b, size⟩ else k.record p i

lemma LiveProcess.malloc_block {index : Fin maxProgramAllocations} (h : LiveProcess k q dir table)
    (hone : (heapBlocksFor size).toNat = 1) (hroom : k.kmem.Room 1)
    (hslot : processFindFreeAllocationIndex (k.procs q) = some index) :
    ∃ b, (processMalloc k q size).1 = blockAddr b ∧
      BlockAdded k (processMalloc k q size).2 q dir table index size b := by
  obtain ⟨b, mem, hfit, heq, hlive, hmem, hget⟩ := h.malloc (by omega) (hone.symm ▸ hroom) hslot
  rw [hone] at hfit hmem hget
  have hb : b < 25600 := by
    have hend := hfit.1
    omega
  have haligned : (blockAddr b).toNat % 4096 = 0 := blockAddr_aligned (by omega)
  have hresult : (processMalloc k q size).2.kmem.mem = mem := by
    rw [heq]
    rfl
  rw [blockPages_one (show b < 2 ^ 19 by omega)] at hmem
  refine ⟨b, by rw [heq], hb, hfit.2 b le_rfl (by omega), hlive, ?_, ?_, fun c m hc => ?_,
    fun c hc hcb => ?_, hresult ▸ hmem, fun v hv => ?_, fun p i => ?_⟩
  · rw [heq, withRecord_pageDirectory]
    rfl
  · rw [heq, hone]
    exact allocated_take one_pos hfit
  · rw [heq, hone]
    exact Allocated.take hc one_pos hfit
  · rw [heq, hone]
    change overwrite k.kmem.entries b 1 _ (c : ℤ) = _
    rw [overwrite_natCast, if_neg (by omega)]
  · rw [hresult, hget v hv]
    exact if_congr ((sub_lt_page hv haligned).trans eq_comm) rfl rfl
  · rw [heq, withRecord_record]
    rfl

/-- With a new record in an empty slot each of the grants is still recorded once. -/
lemma recorded_update {f f' : Fin maxProgramAllocations → ProcessAllocation}
    {index : Fin maxProgramAllocations} (hupd : ∀ i, f' i = if i = index then a else f i)
    (hempty : (f index).ptr = 0) (hne : ∀ c ∈ new, c.ptr ≠ 0 ∧ c.ptr ≠ a.ptr)
    (hold : ∀ c ∈ new, ∃ i, f i = c ∧ ∀ j, (f j).ptr = c.ptr → j = i)
    (hnone : ∀ j, (f j).ptr ≠ a.ptr) :
    ∀ c ∈ new ++ [a], ∃ i, f' i = c ∧ ∀ j, (f' j).ptr = c.ptr → j = i := by
  intro c hc
  rcases List.mem_append.1 hc with hc | hc
  · obtain ⟨i, hi, honce⟩ := hold c hc
    have hii : i ≠ index := by
      rintro rfl
      exact (hne c hc).1 (hi ▸ hempty)
    refine ⟨i, by rw [hupd, if_neg hii, hi], fun j hj => ?_⟩
    rw [hupd] at hj
    by_cases hji : j = index
    · rw [if_pos hji] at hj
      exact absurd hj.symm (hne c hc).2
    · rw [if_neg hji] at hj
      exact honce j hj
  · obtain rfl := List.mem_singleton.1 hc
    refine ⟨index, by rw [hupd, if_pos rfl], fun j hj => ?_⟩
    by_contra hji
    rw [hupd, if_neg hji] at hj
    exact hnone j hj

/-- One more block is granted. -/
lemma Granted.add {k' : Kernel} {index : Fin maxProgramAllocations}
    (h : Granted k₀ k q dir table new) (hadded : BlockAdded k k' q dir table index size b)
    (hempty : (k.record q index).ptr = 0) :
    Granted k₀ k' q dir table (new ++ [⟨blockAddr b, size⟩]) := by
  have hb := hadded.block_lt
  have hne : blockAddr b ≠ 0 := blockAddr_ne_zero (by omega)
  have haligned : (blockAddr b).toNat % 4096 = 0 := blockAddr_aligned (by omega)
  obtain ⟨hnew, hfree₀⟩ := h.fresh_block hb hadded.free
  have hrecord : ∀ i, k'.record q i = if i = index then ⟨blockAddr b, size⟩ else k.record q i := by
    intro i
    rw [hadded.record]
    exact if_congr (and_iff_right rfl) rfl rfl
  refine ⟨hadded.process, hadded.pageDirectory.trans h.pageDirectory, ?_, ?_, ?_,
    fun c m hc => hadded.kept c m (h.kept c m hc), ?_, ?_, ?_, ?_, ?_, ?_⟩
  · intro a ha
    rcases List.mem_append.1 ha with ha | ha
    · obtain ⟨c, hc, hptr, hfree, halive⟩ := h.fresh a ha
      exact ⟨c, hc, hptr, hfree, hadded.kept c 1 halive⟩
    · obtain rfl := List.mem_singleton.1 ha
      exact ⟨b, hb, rfl, hfree₀, hadded.taken⟩
  · rw [List.map_append, List.map_singleton, List.nodup_append]
    refine ⟨h.nodup, List.nodup_singleton _, ?_⟩
    intro p hp p' hp' hpp
    obtain ⟨a, ha, rfl⟩ := List.mem_map.1 hp
    exact hnew a ha (hpp.trans (List.mem_singleton.1 hp'))
  · intro c hc hnot
    have hcb : c ≠ b := by
      rintro rfl
      exact hnot ⟨blockAddr c, size⟩ (by simp) rfl
    rw [hadded.same c hc hcb]
    exact h.same c hc fun a ha => hnot a (List.mem_append_left _ ha)
  · rw [grantPages_append]
    refine (h.mem.trans hadded.mem).mono ?_
    rintro g ((hg | hg) | hg | hg)
    · exact .inl (.inl hg)
    · exact .inr hg
    · exact .inl (.inr hg)
    · exact .inr hg
  · intro a ha
    rcases List.mem_append.1 ha with ha | ha
    · obtain ⟨c, hc, hptr, -⟩ := h.fresh a ha
      have hpage : a.ptr.toNat % 4096 = 0 := hptr ▸ blockAddr_aligned (by omega)
      rw [hadded.entry _ hpage, if_neg (hnew a ha)]
      exact h.mapped a ha
    · obtain rfl := List.mem_singleton.1 ha
      rw [hadded.entry _ haligned, if_pos rfl]
  · intro v hv hnot
    rw [hadded.entry v hv, if_neg fun hvb => hnot ⟨blockAddr b, size⟩ (by simp) hvb.symm]
    exact h.unmapped v hv fun a ha => hnot a (List.mem_append_left _ ha)
  · refine recorded_update hrecord hempty (fun c hc => ⟨?_, hnew c hc⟩) h.recorded fun j hj => ?_
    · obtain ⟨d, hd, hptr, -⟩ := h.fresh c hc
      rw [hptr]
      exact blockAddr_ne_zero (by omega)
    · obtain ⟨c, hptr, hc⟩ := h.process.live j (by rw [hj]; exact hne)
      have hcb := allocated_bound hc
      obtain rfl : c = b := blockAddr_inj (by omega) (by omega) (hptr.symm.trans hj)
      exact hc.not_free ⟨le_rfl, by omega⟩ hadded.free
  · intro p i
    rw [hadded.record]
    by_cases hpi : p = q ∧ i = index
    · obtain ⟨rfl, rfl⟩ := hpi
      rcases h.old p i with hold | hold
      · exact .inr ⟨rfl, hold ▸ hempty⟩
      · exact .inr hold
    · rw [if_neg hpi]
      exact h.old p i
  · have hcount := freeSlots_record hrecord hempty hne
    rw [List.length_append, List.length_singleton, ← h.slots]
    omega

/-- One more allocation of one block. -/
theorem Granted.malloc (h : Granted k₀ k q dir table new)
    (hone : (heapBlocksFor size).toNat = 1) (hroom : k.kmem.Room 1)
    (hslots : new.length < (freeSlots k₀ q).card) :
    ∃ b < 25600, (processMalloc k q size).1 = blockAddr b ∧ IsFree k₀.kmem.entries b ∧
      (∀ a ∈ new, a.ptr ≠ blockAddr b) ∧
      SameOff ({pageOf (blockAddr b)} ∪ tablePages table) k.kmem.mem
        (processMalloc k q size).2.kmem.mem ∧
      Granted k₀ (processMalloc k q size).2 q dir table (new ++ [⟨blockAddr b, size⟩]) := by
  have hcard := h.slots
  obtain ⟨index, hslot⟩ := @exists_slot k q (by omega)
  have hempty : (k.record q index).ptr = 0 := (processFindFreeAllocationIndex_eq_some.1 hslot).1
  obtain ⟨b, hptr, hadded⟩ := h.process.malloc_block hone hroom hslot
  obtain ⟨hnew, hfree₀⟩ := h.fresh_block hadded.block_lt hadded.free
  exact ⟨b, hadded.block_lt, hptr, hfree₀, hnew, hadded.mem, h.add hadded hempty⟩

/-- A grant is in a block. -/
lemma Granted.block (h : Granted k₀ k q dir table new) (ha : a ∈ new) :
    ∃ b < 25600, a.ptr = blockAddr b := by
  obtain ⟨b, hb, hptr, -⟩ := h.fresh a ha
  exact ⟨b, hb, hptr⟩

/-- Grants at other addresses are on other pages. -/
lemma Granted.page_ne (h : Granted k₀ k q dir table new) (ha : a ∈ new) (hb : b < 25600)
    (hne : a.ptr ≠ blockAddr b) : pageOf a.ptr ≠ pageOf (blockAddr b) := by
  obtain ⟨c, hc, hptr⟩ := h.block ha
  rw [hptr, pageOf_blockAddr (by omega), pageOf_blockAddr (by omega)]
  intro heq
  obtain rfl : c = b := by omega
  exact hne hptr

/-- The byte is neither in a free block of the heap nor in a page table of the process. -/
def Untouched (k : Kernel) (table : ℕ → Word) (x : Word) : Prop :=
  (∀ b < 25600, IsFree k.kmem.entries b → pageOf x ≠ 4096 + b) ∧ pageOf x ∉ tablePages table

variable {x : Word}

lemma Granted.mem_untouched (h : Granted k₀ k q dir table new)
    (hx : Untouched k₀ table x) : k.kmem.mem x = k₀.kmem.mem x := by
  apply h.mem
  rintro (⟨a, ha, heq⟩ | htable)
  · obtain ⟨b, hb, hptr, hfree, -⟩ := h.fresh a ha
    rw [hptr, pageOf_blockAddr (by omega)] at heq
    exact hx.1 b hb hfree heq
  · exact hx.2 htable

/-- Nor in the heap's table, nor in what the process keeps of its allocations and arguments. -/
structure Outside (k : Kernel) (q : Word) (table : ℕ → Word) (x : Word) : Prop where
  untouched : Untouched k table x
  table : ¬ InTable x
  record : ¬ InRecord q x

lemma Outside.view (h : Outside k₀ q table x) (k : Kernel) : k.view q x = k.kmem.mem x :=
  Kernel.view_of_not h.table h.record

/-- A list of command arguments in memory: the address of each and its string, which ends within
its field of 512 characters. -/
def ArgumentsAt (mem : Mem) : Word → List (Word × List Byte) → Prop
  | current, [] => current = 0
  | current, (argument, str) :: args => current = argument ∧ argument ≠ 0 ∧ 0 ∉ str ∧
    str.length < 512 ∧ BytesAt mem argument (str ++ [0]) ∧
    ArgumentsAt mem (argumentNext mem argument) args

variable {mem mem' : Mem} {current argument root argv : Word} {args done : List (Word × List Byte)}
  {str : List Byte} {n fuel : ℕ} {free : Finset ℕ}

lemma argumentNext_congr (hsame : ∀ x, InRange argument 516 x → mem' x = mem x) :
    argumentNext mem' argument = argumentNext mem argument := by
  refine read32_eq_of_same fun x hx => hsame x ?_
  exact (inRange_split argument x (show 512 + 4 < 2 ^ 32 by omega)).1.2 (.inr hx)

lemma bytesAt_congr_argument (h : BytesAt mem argument (str ++ [0])) (hlength : str.length < 512)
    (hsame : ∀ x, InRange argument 516 x → mem' x = mem x) : BytesAt mem' argument (str ++ [0]) := by
  refine h.congr fun m hm => hsame _ (inRange_ofNat ?_ (by omega))
  rw [List.length_append, List.length_singleton] at hm
  omega

lemma ArgumentsAt.congr (h : ArgumentsAt mem current args)
    (hsame : ∀ d ∈ args, ∀ x, InRange d.1 516 x → mem' x = mem x) : ArgumentsAt mem' current args := by
  induction args generalizing current with
  | nil => exact h
  | cons d args ih =>
    obtain ⟨hcurrent, hne, hzero, hlength, hbytes, hrest⟩ := h
    have hfirst := hsame d List.mem_cons_self
    refine ⟨hcurrent, hne, hzero, hlength, bytesAt_congr_argument hbytes hlength hfirst, ?_⟩
    rw [argumentNext_congr hfirst]
    exact ih hrest fun c hc => hsame c (List.mem_cons_of_mem d hc)

/-- The counting pass. -/
lemma ArgumentsAt.count (h : ArgumentsAt mem current args) (hfuel : args.length ≤ fuel) :
    processCountCommandArguments mem fuel current = some args.length := by
  induction args generalizing current fuel with
  | nil =>
    have hcurrent : current = 0 := h
    cases fuel <;> rw [processCountCommandArguments, if_pos hcurrent] <;> rfl
  | cons d args ih =>
    obtain ⟨rfl, hne, -, -, -, hrest⟩ := h
    cases fuel with
    | zero => simp at hfuel
    | succ fuel =>
      rw [processCountCommandArguments, if_neg hne, ih hrest (by simpa using hfuel)]
      rfl

/-- The array and the strings that were copied so far. -/
structure Injected (k₀ k : Kernel) (q dir : Word) (table : ℕ → Word) (argv : Word) (n : ℕ)
    (done : List (Word × List Byte)) : Prop where
  granted : Granted k₀ k q dir table
    (⟨argv, 4 * BitVec.ofNat 32 n⟩ :: done.map fun d => ⟨d.1, 512⟩)
  word : ∀ j (hj : j < done.length),
    read32 k.kmem.mem (argv + BitVec.ofNat 32 (4 * j)) = done[j].1
  str : ∀ d ∈ done, BytesAt k.kmem.mem d.1 (d.2 ++ [0])
  short : ∀ d ∈ done, d.2.length < 512

/-- A string copied into a block that it does not lie in. -/
lemma strncpy_block (hb : b < 25600) (hbytes : BytesAt mem argument (str ++ [0])) (hzero : 0 ∉ str)
    (hlength : str.length < 512) (hoff : ∀ x, InRange argument 516 x → pageOf x ≠ 4096 + b) :
    SameOff {pageOf (blockAddr b)} mem (strncpy mem (blockAddr b) argument 512) ∧
      BytesAt (strncpy mem (blockAddr b) argument 512) (blockAddr b) (str ++ [0]) := by
  have heq : strncpy mem (blockAddr b) argument 512 = writeBytes mem (blockAddr b) (str ++ [0]) := by
    refine strncpy_eq hbytes hzero hlength fun m hm m' hm' heq => ?_
    refine hoff _ (inRange_ofNat (show m' < 516 by omega) (by omega)) ?_
    rw [heq, pageOf_blockAddr_add hb (by omega)]
  have hbound : (str ++ [0]).length ≤ 512 := by
    rw [List.length_append]
    exact hlength
  rw [heq]
  refine ⟨writeBytes_sameOff fun m hm => ?_, writeBytes_bytesAt (by omega)⟩
  rw [pageOf_blockAddr_add hb (by omega), pageOf_blockAddr (by omega)]

lemma inRange_page {p x : Word} {m : ℕ} (hp : p.toNat % 4096 = 0) (hm : m ≤ 4096)
    (hx : InRange p m x) : pageOf x = pageOf p := by
  have hxl := x.isLt
  have hpl := p.isLt
  unfold InRange at hx
  rw [BitVec.toNat_sub] at hx
  unfold pageOf
  omega

/-- So is one that a pointer shows. -/
lemma strncpyShown_block (hb : b < 25600) (hbytes : BytesAt k.kmem.mem argument (str ++ [0]))
    (hzero : 0 ∉ str) (hlength : str.length < 512)
    (hoff : ∀ x, InRange argument 516 x → pageOf x ≠ 4096 + b)
    (hshown : ∀ x, InRange argument 516 x → k.view q x = k.kmem.mem x) :
    SameOff {pageOf (blockAddr b)} k.kmem.mem (strncpyShown k q (blockAddr b) argument 512) ∧
      BytesAt (strncpyShown k q (blockAddr b) argument 512) (blockAddr b) (str ++ [0]) := by
  obtain ⟨-, hcopied⟩ := strncpy_block hb (bytesAt_congr_argument hbytes hlength hshown) hzero hlength hoff
  refine ⟨fun x hx => overlay_of_not fun hin => hx ?_, hcopied.congr fun m hm => ?_⟩
  · exact inRange_page (blockAddr_aligned (by omega)) (by omega) hin
  · rw [List.length_append, List.length_singleton] at hm
    exact overlay_byte (by omega) (by omega)

/-- The bytes of a grant are off the page tables. -/
lemma Granted.off_tables (h : Granted k₀ k q dir table new) (h₀ : LiveProcess k₀ q dir table)
    (ha : a ∈ new) : pageOf a.ptr ∉ tablePages table := by
  intro hin
  exact Set.disjoint_left.1 (h.pages_off h₀) ⟨a, ha, rfl⟩ (tablePages_subset hin)

/-- An earlier grant is off the pages one more of them changes. -/
lemma Granted.page_off (h : Granted k₀ k q dir table new) (h₀ : LiveProcess k₀ q dir table)
    (ha : a ∈ new) (hb : b < 25600) (hne : a.ptr ≠ blockAddr b) :
    pageOf a.ptr ∉ ({pageOf (blockAddr b)} ∪ tablePages table : Set ℕ) := by
  rintro (hpage | htable)
  · exact h.page_ne ha hb hne hpage
  · exact h.off_tables h₀ ha htable

lemma string_page (hb : b < 25600) (hlength : str.length < 512) {m : ℕ} (hm : m < (str ++ [0]).length) :
    pageOf (blockAddr b + BitVec.ofNat 32 m) = pageOf (blockAddr b) := by
  rw [List.length_append, List.length_singleton] at hm
  rw [pageOf_blockAddr_add hb (by omega), pageOf_blockAddr (by omega)]

/-- One argument is copied. -/
theorem Injected.step (h : Injected k₀ k q dir table argv n done) (h₀ : LiveProcess k₀ q dir table)
    (hbytes : BytesAt k₀.kmem.mem argument (str ++ [0])) (hzero : 0 ∉ str)
    (hlength : str.length < 512) (hoff : ∀ x, InRange argument 516 x → Outside k₀ q table x)
    (hroom : k.kmem.Room 1) (hslots : done.length + 1 < (freeSlots k₀ q).card)
    (hdone : done.length < 1024) :
    let r := processMalloc k q 512
    r.1 ≠ 0 ∧
    Injected k₀ (r.2.withKmem (r.2.kmem.withMem (write32 (strncpyShown r.2 q r.1 argument 512)
      (argv + BitVec.ofNat 32 (4 * done.length)) r.1))) q dir table argv n (done ++ [(r.1, str)]) := by
  have hone : (heapBlocksFor 512).toNat = 1 := by decide
  obtain ⟨b, hb, hptr, hfree, hapart, hmalloc, hgranted⟩ :=
    h.granted.malloc hone hroom (by simpa using hslots)
  have hargv : (⟨argv, 4 * BitVec.ofNat 32 n⟩ : ProcessAllocation) ∈
      ⟨argv, 4 * BitVec.ofNat 32 n⟩ :: done.map fun d => ⟨d.1, 512⟩ := List.mem_cons_self
  have hearlier : ∀ d ∈ done, (⟨d.1, 512⟩ : ProcessAllocation) ∈
      ⟨argv, 4 * BitVec.ofNat 32 n⟩ :: done.map fun d => ⟨d.1, 512⟩ := fun d hd =>
    List.mem_cons_of_mem _ (List.mem_map_of_mem hd)
  obtain ⟨v, hv, hblock⟩ := h.granted.block hargv
  change argv = blockAddr v at hblock
  have hdistinct := h.granted.nodup
  have hab : blockAddr v ≠ blockAddr b := hblock ▸ hapart _ hargv
  have hpage : pageOf (blockAddr v) ≠ pageOf (blockAddr b) :=
    hblock ▸ h.granted.page_ne hargv hb (hapart _ hargv)
  intro r
  have hr : r.1 = blockAddr b := hptr
  change SameOff _ k.kmem.mem r.2.kmem.mem at hmalloc
  change Granted k₀ r.2 q dir table _ at hgranted
  rw [hr]
  generalize r.2 = k₁ at *
  obtain ⟨hcopy, hcopied⟩ := @strncpyShown_block k₁ q b argument str hb
    (bytesAt_congr_argument hbytes hlength fun x hx => hgranted.mem_untouched (hoff x hx).untouched)
    hzero hlength (fun x hx => (hoff x hx).untouched.1 b hb hfree) fun x hx => (hoff x hx).view k₁
  generalize strncpyShown k₁ q (blockAddr b) argument 512 = mem at *
  rw [← hblock] at hpage hab
  have haligned : argv.toNat % 4096 = 0 := hblock ▸ blockAddr_aligned (by omega)
  have hword := write32_slot_sameOff mem haligned hdone (blockAddr b)
  have hkept : SameOff ({pageOf (blockAddr b)} ∪ tablePages table) k.kmem.mem mem :=
    (hmalloc.trans hcopy).mono (Set.union_subset le_rfl Set.subset_union_left)
  refine ⟨blockAddr_ne_zero (by omega), ?_, fun j hj => ?_, fun d hd => ?_, fun d hd => ?_⟩
  · rw [List.map_append, List.map_singleton, ← List.cons_append]
    refine hgranted.store h₀ ((hcopy.trans hword).mono ?_)
    rw [grantPages_append]
    rintro g (hg | hg)
    · exact .inr hg
    · exact .inl ⟨_, hargv, hg⟩
  · rw [List.length_append, List.length_singleton] at hj
    change read32 (write32 mem _ _) _ = _
    rw [read32_write32_slot mem haligned hdone (by omega)]
    by_cases hlast : j = done.length
    · subst hlast
      rw [if_pos rfl]
      simp
    · have hjlt : j < done.length := by omega
      rw [if_neg hlast, List.getElem_append_left hjlt, ← h.word j hjlt]
      exact read32_slot_of_sameOff hkept haligned (h.granted.page_off h₀ hargv hb hab) (by omega)
  · change BytesAt (write32 mem _ _) _ _
    rcases List.mem_append.1 hd with hd | hd
    · obtain ⟨c, hc, hcblock⟩ := h.granted.block (hearlier d hd)
      change d.1 = blockAddr c at hcblock
      have hdb : d.1 ≠ blockAddr b := hapart _ (hearlier d hd)
      have hdv : d.1 ≠ blockAddr v := by
        rw [← hblock]
        rw [List.map_cons, List.nodup_cons] at hdistinct
        intro heq
        exact hdistinct.1 (List.mem_map.2 ⟨⟨d.1, 512⟩, List.mem_map_of_mem hd, heq⟩)
      have hvpage := h.granted.page_ne (hearlier d hd) hv hdv
      refine (h.str d hd).congr fun m hm => ?_
      have hm' := @string_page c d.2 hc (h.short d hd) m hm
      rw [← hcblock] at hm'
      rw [hword _ (by rw [hm', hblock]; exact hvpage)]
      refine hkept _ ?_
      rw [hm']
      exact h.granted.page_off h₀ (hearlier d hd) hb hdb
    · obtain rfl := List.mem_singleton.1 hd
      refine hcopied.congr fun m hm => hword _ ?_
      rw [string_page hb hlength hm]
      exact hpage.symm
  · rcases List.mem_append.1 hd with hd | hd
    · exact h.short d hd
    · obtain rfl := List.mem_singleton.1 hd
      exact hlength

lemma freeSlots_card_le (k : Kernel) (q : Word) : (freeSlots k q).card ≤ 1024 :=
  (Finset.card_le_univ _).trans (by rw [Fintype.card_fin, maxProgramAllocations])

/-- The copying pass from the arguments of `done` on. -/
theorem Injected.run (h : Injected k₀ k q dir table argv n done) (h₀ : LiveProcess k₀ q dir table)
    (hargs : ArgumentsAt k₀.kmem.mem current args)
    (hoff : ∀ d ∈ args, ∀ x, InRange d.1 516 x → Outside k₀ q table x)
    (hfuel : args.length ≤ fuel)
    (hslots : done.length + args.length + 1 ≤ (freeSlots k₀ q).card)
    (hfree : ∀ b ∈ free, b < 25600 ∧ IsFree k₀.kmem.entries b)
    (hcard : done.length + args.length + 1 ≤ free.card) :
    ∃ k', ∃ ptrs : List Word, ptrs.length = args.length ∧
      processInjectArgumentsLoop q argv fuel done.length current k = some (0, k') ∧
      Injected k₀ k' q dir table argv n (done ++ ptrs.zip (args.map Prod.snd)) := by
  induction args generalizing k done current fuel with
  | nil =>
    have hcurrent : current = 0 := hargs
    refine ⟨k, [], rfl, ?_, by simpa using h⟩
    cases fuel <;> rw [processInjectArgumentsLoop, if_pos hcurrent]
  | cons d args ih =>
    obtain ⟨argument, str⟩ := d
    obtain ⟨rfl, hne, hzero, hlength, hbytes, hrest⟩ := hargs
    have hfirst := hoff (current, str) List.mem_cons_self
    have hslotsLe := freeSlots_card_le k₀ q
    rw [List.length_cons] at hslots hcard hfuel
    cases fuel with
    | zero => omega
    | succ fuel =>
      have hroom : k.kmem.Room 1 := h.granted.exists_free hfree (by simp; omega)
      obtain ⟨hptr, hstep⟩ := h.step h₀ hbytes hzero hlength hfirst hroom (by omega) (by omega)
      rw [processInjectArgumentsLoop, if_neg hne]
      dsimp only
      rw [if_neg hptr]
      have hnext := @argumentNext_congr _ _ current fun x hx =>
        ((hfirst x hx).view _).trans (hstep.granted.mem_untouched (hfirst x hx).untouched)
      rw [← hnext] at hrest
      have hlen : (done ++ [((processMalloc k q 512).1, str)]).length = done.length + 1 := by simp
      obtain ⟨k', ptrs, hptrs, hloop, hdone⟩ := ih hstep hrest
        (fun d hd => hoff d (List.mem_cons_of_mem _ hd)) (show args.length ≤ fuel by omega)
        (by omega) (by omega)
      refine ⟨k', (processMalloc k q 512).1 :: ptrs, by simp [hptrs], ?_, by simpa using hdone⟩
      rw [hlen] at hloop
      exact hloop

lemma argvBlocks (hpos : 0 < n) (hn : n < 1024) :
    (heapBlocksFor (4 * BitVec.ofNat 32 n)).toNat = 1 := by
  have hsize : (4 * BitVec.ofNat 32 n : Word).toNat = 4 * n := by
    rw [BitVec.toNat_mul, BitVec.toNat_ofNat, Nat.mod_eq_of_lt (show n < 2 ^ 32 by omega)]
    exact Nat.mod_eq_of_lt (show 4 * n < 2 ^ 32 by omega)
  rw [heapBlocksFor_eq, hsize]
  omega

/-- The arguments of a process, put down. -/
def withArguments (k : Kernel) (q : Word) (arguments : ProcessArguments) : Kernel :=
  k.setProcess q { k.procs q with arguments := arguments }

lemma withArguments_record (k : Kernel) (q : Word) (arguments : ProcessArguments) (p : Word)
    (i : Fin maxProgramAllocations) : (withArguments k q arguments).record p i = k.record p i := by
  simp only [withArguments, Kernel.record, Kernel.setProcess_procs]
  by_cases hp : p = q
  · subst hp
    rw [Function.update_self]
  · rw [Function.update_of_ne hp]

lemma withArguments_pageDirectory (k : Kernel) (q : Word) (arguments : ProcessArguments) :
    (withArguments k q arguments).pageDirectory q = k.pageDirectory q := by
  simp only [withArguments, Kernel.pageDirectory, Kernel.setProcess_procs, Kernel.setProcess_tasks,
    Function.update_self]

lemma Granted.withArguments (h : Granted k₀ k q dir table new) (arguments : ProcessArguments) :
    Granted k₀ (withArguments k q arguments) q dir table new := by
  have hrecord := withArguments_record k q arguments
  have hdirectory := withArguments_pageDirectory k q arguments
  have hslots : freeSlots (Processes.withArguments k q arguments) q = freeSlots k q := by
    ext i
    simp only [freeSlots, Finset.mem_filter, hrecord]
  refine ⟨⟨?_, ?_, fun i => ?_⟩, ?_, h.fresh, h.nodup, h.same, h.kept, h.mem, h.mapped, h.unmapped,
    fun a ha => ?_, fun p i => ?_, ?_⟩
  · rw [hdirectory]
    exact h.process.pageDir
  · rw [hdirectory]
    exact h.process.held
  · rw [hrecord]
    exact h.process.live i
  · rw [hdirectory]
    exact h.pageDirectory
  · simp only [hrecord]
    exact h.recorded a ha
  · rw [hrecord]
    exact h.old p i
  · rw [hslots]
    exact h.slots

/-- The page of a block is not in the heap's table. -/
lemma not_inTable_of_page (hpage : 4096 ≤ pageOf x) : ¬ InTable x := by
  intro hin
  have htable := (inTable_toNat hin).2
  unfold pageOf at hpage
  omega

/-- The allocations and arguments of a process structure lie in its three blocks. -/
lemma inRecord_page {c : ℕ} (hc : c + 3 ≤ 25600) (hx : InRecord (blockAddr c) x) :
    pageOf x ∈ blockPages c 3 := by
  have haddr := blockAddr_toNat (b := c) (by omega)
  have hlt := x.isLt
  obtain ⟨j, hj, rfl⟩ : ∃ j < 9364, x = blockAddr c + BitVec.ofNat 32 j := by
    rcases hx with hx | hx
    · obtain ⟨j, hj, rfl⟩ := exists_of_inRange hx
      exact ⟨116 + j, by omega, by rw [BitVec.ofNat_add, ← add_assoc]; rfl⟩
    · obtain ⟨j, hj, rfl⟩ := exists_of_inRange hx
      exact ⟨9356 + j, by omega, by rw [BitVec.ofNat_add, ← add_assoc]; rfl⟩
  have hsum := toNat_add_ofNat (a := blockAddr c) (k := j) (by omega)
  change 4096 + c ≤ pageOf _ ∧ pageOf _ < 4096 + (c + 3)
  rw [pageOf, hsum, haddr]
  omega

/-- What a pointer shows of a grant is in memory, where the process structure is an allocation. -/
lemma Granted.view (h : Granted k₀ k q dir table new) {c : ℕ} (hq : q = blockAddr c)
    (hc : Allocated k₀.kmem.kernelHeap c 3) (ha : a ∈ new) (hx : pageOf x = pageOf a.ptr) (k₁ : Kernel) :
    k₁.view q x = k₁.kmem.mem x := by
  obtain ⟨b, hb, hptr, hfree, -⟩ := h.fresh a ha
  rw [hptr, pageOf_blockAddr (by omega)] at hx
  refine Kernel.view_of_not (not_inTable_of_page (by omega)) fun hin => ?_
  rw [hq] at hin
  have hpages : 4096 + c ≤ pageOf x ∧ pageOf x < 4096 + (c + 3) :=
    inRecord_page (allocated_bound hc).2 hin
  exact hc.not_free (show c ≤ b ∧ b < c + 3 by omega) hfree

/-- An allocation of the start and its bytes, the page tables and the process structure apart. -/
lemma Granted.older (h : Granted k₀ k q dir table new) {c m : ℕ}
    (hc : Allocated k₀.kmem.kernelHeap c m) : Allocated k.kmem.kernelHeap c m ∧
      ∀ x, pageOf x ∈ blockPages c m → pageOf x ∉ tablePages table → ¬ InRecord q x →
        k.view q x = k₀.view q x := by
  refine ⟨h.kept c m hc, fun x hx htable hrecord => ?_⟩
  have hin : ¬ InTable x := not_inTable_of_page (by have := hx.1; omega)
  rw [Kernel.view_of_not hin hrecord, Kernel.view_of_not hin hrecord]
  refine h.mem x ?_
  rintro (⟨a, ha, heq⟩ | hin)
  · obtain ⟨b, hb, hptr, hfree, -⟩ := h.fresh a ha
    rw [hptr, pageOf_blockAddr (by omega)] at heq
    rw [heq] at hx
    exact hc.not_free (show c ≤ b ∧ b < c + m by
      obtain ⟨h1, h2⟩ := hx
      omega) hfree
  · exact htable hin

/-- `process_inject_arguments` with room for the array and the strings: it succeeds, the process
gets the array of `n` pointers to copies of the arguments, and the list and the older
allocations stay as they were, but for the page tables and the process structure itself. -/
theorem processInjectArguments_spec (h : LiveProcess k q dir table) {c : ℕ} (hq : q = blockAddr c)
    (hstruct : Allocated k.kmem.kernelHeap c 3)
    (hargs : ArgumentsAt (k.view q) root args) (hpos : 1 ≤ args.length)
    (hoff : ∀ d ∈ args, ∀ x, InRange d.1 516 x → Outside k q table x)
    (hslots : args.length + 1 ≤ (freeSlots k q).card)
    (hfree : ∀ b ∈ free, b < 25600 ∧ IsFree k.kmem.entries b) (hcard : args.length + 1 ≤ free.card)
    (hfuel : args.length ≤ fuel) :
    ∃ k' argv, ∃ ptrs : List Word, ptrs.length = args.length ∧
      processInjectArguments fuel k q root = some (0, k') ∧
      (k'.procs q).arguments = ⟨BitVec.ofNat 32 args.length, argv⟩ ∧
      (∀ j (hj : j < ptrs.length) (hj' : j < args.length),
        read32 (k'.view q) (argv + BitVec.ofNat 32 (4 * j)) = ptrs[j] ∧
        BytesAt (k'.view q) ptrs[j] (args[j].2 ++ [0])) ∧
      Granted k k' q dir table
        (⟨argv, 4 * BitVec.ofNat 32 args.length⟩ :: ptrs.map fun ptr => ⟨ptr, 512⟩) ∧
      (∀ d ∈ args, ∀ x, InRange d.1 516 x → k'.view q x = k.view q x) ∧
      ∀ d m, Allocated k.kmem.kernelHeap d m → Allocated k'.kmem.kernelHeap d m ∧
        ∀ x, pageOf x ∈ blockPages d m → pageOf x ∉ tablePages table → ¬ InRecord q x →
          k'.view q x = k.view q x := by
  have hslotsLe := freeSlots_card_le k q
  have hone := argvBlocks (show 0 < args.length by omega) (by omega)
  have hstart := h.granted
  obtain ⟨b, hb, hptr, -, -, -, hgranted⟩ := hstart.malloc hone
    (hstart.exists_free hfree (show 0 < free.card by omega)) (show 0 < (freeSlots k q).card by omega)
  obtain ⟨k₁, hk₁⟩ : ∃ k₁, processMalloc k q (4 * BitVec.ofNat 32 args.length) = (blockAddr b, k₁) :=
    ⟨_, Prod.ext hptr rfl⟩
  rw [hk₁] at hgranted
  have hinjected : Injected k k₁ q dir table (blockAddr b) args.length [] :=
    ⟨hgranted, by simp, by simp, by simp⟩
  have hstored : ArgumentsAt k.kmem.mem root args :=
    hargs.congr fun d hd x hx => ((hoff d hd x hx).view k).symm
  obtain ⟨k₂, ptrs, hlength, hloop, hdone⟩ := hinjected.run h hstored hoff hfuel
    (by rw [List.length_nil]; omega) hfree (by rw [List.length_nil]; omega)
  have hzip : (ptrs.zip (args.map Prod.snd)).length = args.length := by simp [hlength]
  have hnew : ((ptrs.zip (args.map Prod.snd)).map fun d => (⟨d.1, 512⟩ : ProcessAllocation)) =
      ptrs.map fun ptr => ⟨ptr, 512⟩ := by
    have hfst : (ptrs.zip (args.map Prod.snd)).map Prod.fst = ptrs :=
      List.map_fst_zip (by simp [hlength])
    conv_rhs => rw [← hfst]
    rw [List.map_map]
    rfl
  have hall := hdone.granted.withArguments ⟨BitVec.ofNat 32 args.length, blockAddr b⟩
  rw [List.nil_append] at hdone hall
  rw [hnew] at hall
  refine ⟨_, blockAddr b, ptrs, hlength, ?_, ?_, fun j hj hj' => ?_, hall, fun d hd x hx => ?_,
    fun d m hd => hall.older hd⟩
  · have hne : args.length ≠ 0 := by omega
    have hptrne : blockAddr b ≠ 0 := blockAddr_ne_zero (by omega)
    rw [processInjectArguments, hargs.count hfuel, Option.bind_some, if_neg hne, hk₁]
    dsimp only
    rw [List.length_nil] at hloop
    rw [if_neg hptrne, hloop]
    rfl
  · rw [withArguments, Kernel.setProcess_procs, Function.update_self]
  · have hjz : j < (ptrs.zip (args.map Prod.snd)).length := by omega
    have hget : (ptrs.zip (args.map Prod.snd))[j] = (ptrs[j], args[j].2) := by
      rw [List.getElem_zip, List.getElem_map]
    have hword := hdone.word j hjz
    have hstr := hdone.str _ (List.getElem_mem hjz)
    have hshort := hdone.short _ (List.getElem_mem hjz)
    rw [hget] at hword hstr hshort
    -- the array and the strings are not where the process keeps its own data
    have hargv : (⟨blockAddr b, 4 * BitVec.ofNat 32 args.length⟩ : ProcessAllocation) ∈ _ ::
        ptrs.map fun ptr => (⟨ptr, 512⟩ : ProcessAllocation) := List.mem_cons_self
    have hcopy : (⟨ptrs[j], 512⟩ : ProcessAllocation) ∈
        (⟨blockAddr b, 4 * BitVec.ofNat 32 args.length⟩ : ProcessAllocation) ::
        ptrs.map fun ptr => ⟨ptr, 512⟩ :=
      List.mem_cons_of_mem _ (List.mem_map.2 ⟨_, List.getElem_mem hj, rfl⟩)
    obtain ⟨d, hd, hblock⟩ := hall.block hcopy
    change ptrs[j] = blockAddr d at hblock
    refine ⟨(read32_eq_of_same fun x hx => ?_).trans hword, hstr.congr fun m hm => ?_⟩
    · refine hall.view hq hstruct hargv ?_ _
      have hword := toNat_slot (blockAddr_aligned (b := b) (by omega)) (show j < 1024 by omega)
      have haligned := blockAddr_aligned (b := b) (by omega)
      rw [InRange.pageOf_eq (by omega) hx]
      exact pageOf_add haligned (by omega)
    · refine hall.view hq hstruct hcopy ?_ _
      change _ = pageOf ptrs[j]
      rw [hblock]
      exact string_page hd hshort hm
  · rw [(hoff d hd x hx).view, (hoff d hd x hx).view]
    exact hall.mem_untouched (hoff d hd x hx).untouched

lemma freeSlots_empty (h : ∀ i, k.record q i = ⟨0, 0⟩) : (freeSlots k q).card = 1024 := by
  have hall : freeSlots k q = Finset.univ := by
    ext i
    simp [freeSlots, h]
  rw [hall, Finset.card_univ, Fintype.card_fin]

/-- The blocks behind a frontier. -/
lemma frontier_blocks {s : Kmem} {c : ℕ} (h : Frontier s c) {b : ℕ} (hb : b ∈ Finset.Ico c 25600) :
    b < 25600 ∧ IsFree s.entries b := by
  obtain ⟨h1, h2⟩ := Finset.mem_Ico.1 hb
  exact ⟨h2, h.free b h1 h2⟩

lemma two_le_card : 2 ≤ (Finset.Ico 1030 25600).card := by
  rw [Nat.card_Ico]
  omega

/-- The first process has none of its data above its own blocks. -/
lemma view_high (k : Kernel) (hx : 4099 ≤ pageOf x) : k.view (blockAddr 0) x = k.kmem.mem x := by
  refine Kernel.view_of_not (not_inTable_of_page (by omega)) fun hin => ?_
  have hpages : _ ∧ _ < 4096 + (0 + 3) := inRecord_page (by omega) hin
  omega

/-- Nor below the pool. -/
lemma view_low (k : Kernel) (htable : ¬ InTable x) (hx : pageOf x < 4096) :
    k.view (blockAddr 0) x = k.kmem.mem x := by
  refine Kernel.view_of_not htable fun hin => ?_
  have hpages : 4096 + 0 ≤ _ ∧ _ := inRecord_page (by omega) hin
  omega

/-- The page of a table is not in free blocks. -/
lemma FirstTask.page_taken (h : FirstTask k dir table) {g c : ℕ} (hg : g < 4100) (hfree : IsFree k.kmem.entries c) :
    g ≠ 4096 + c := by
  rintro rfl
  exact h.frontier.taken c (by omega) hfree

/-- One empty argument in low memory. -/
theorem processInjectArguments_spec_oneEmpty : ∃ k' argv ptr,
    processInjectArguments 1 oneTask (blockAddr 0) 0x2000 = some (0, k') ∧
    (k'.procs (blockAddr 0)).arguments = ⟨1, argv⟩ ∧ read32 (k'.view (blockAddr 0)) argv = ptr ∧
    k'.view (blockAddr 0) ptr = 0 := by
  obtain ⟨-, -, dir, table, -, hfirst, -⟩ := oneTask_first
  have hrange : ∀ x : Word, InRange 0x2000 516 x → pageOf x = 2 ∧ ¬ InTable x := by
    intro x hx
    have hlt := x.isLt
    unfold InRange at hx
    unfold InTable InRange pageOf
    rw [BitVec.toNat_sub] at hx ⊢
    change (2 ^ 32 - 8192 + x.toNat) % 2 ^ 32 < 516 at hx
    change _ ∧ ¬ (2 ^ 32 - 32256 + x.toNat) % 2 ^ 32 < 25600
    omega
  have hzero : ∀ x : Word, InRange 0x2000 516 x → oneTask.view (blockAddr 0) x = 0 := by
    intro x hx
    obtain ⟨hpage, htable⟩ := hrange x hx
    rw [view_low oneTask htable (by omega)]
    exact hfirst.clear x (by omega)
  have hargs : ArgumentsAt (oneTask.view (blockAddr 0)) 0x2000 [(0x2000, [])] := by
    refine ⟨rfl, by decide, by simp, by simp, ⟨hzero _ (by decide), trivial⟩, ?_⟩
    have hnext : argumentNext (oneTask.view (blockAddr 0)) 0x2000 = 0 := by
      rw [argumentNext, read32, hzero, hzero, hzero, hzero] <;> decide
    exact hnext
  have hoff : ∀ d ∈ [((0x2000 : Word), ([] : List Byte))], ∀ x, InRange d.1 516 x →
      Outside oneTask (blockAddr 0) table x := by
    intro d hd x hx
    obtain rfl := List.mem_singleton.1 hd
    obtain ⟨hpage, htable⟩ := hrange x hx
    refine ⟨⟨fun b _ _ => by omega, fun hin => ?_⟩, htable, fun hin => ?_⟩
    · have habove := hfirst.above _ (tablePages_subset hin)
      omega
    · have hpages : 4096 + 0 ≤ _ ∧ _ := inRecord_page (by omega) hin
      omega
  obtain ⟨k', argv, ptrs, hlength, hres, harguments, hcopies, -⟩ :=
    processInjectArguments_spec hfirst.live rfl hfirst.structure_taken hargs le_rfl hoff
      (by rw [freeSlots_empty hfirst.empty]; decide)
      (fun b hb => frontier_blocks hfirst.frontier hb) two_le_card le_rfl
  obtain ⟨hword, hstr⟩ := hcopies 0 (by rw [hlength]; exact one_pos) one_pos
  rw [BitVec.add_zero] at hword
  exact ⟨k', argv, _, hres, harguments, hword, hstr.1⟩

/-- A process after a page was mapped in its directory. -/
def mapPage (k : Kernel) (q va pa flags : Word) : Kernel :=
  k.withKmem (k.kmem.withMem (pagingMap k.kmem.mem (k.pageDirectory q) va pa flags).2)

lemma LiveProcess.mapPage (h : LiveProcess k q dir table) {va pa : Word} (hva : va.toNat % 4096 = 0)
    (hpa : pa.toNat % 4096 = 0) (flags : Word) :
    LiveProcess (mapPage k q va pa flags) q dir table ∧
    ∀ v : Word, v.toNat % 4096 = 0 → pagingGet (Processes.mapPage k q va pa flags).kmem.mem dir v =
      if v = va then pa ||| flags else pagingGet k.kmem.mem dir v := by
  obtain ⟨-, hdir, -, hget⟩ := pagingMap_spec h.pageDir hva hpa flags
  exact ⟨⟨hdir, h.held, h.live⟩, hget⟩

lemma FirstTask.mapPage (h : FirstTask k dir table) {va pa : Word} (hva : va.toNat % 4096 = 0)
    (hpa : pa.toNat % 4096 = 0) (flags : Word) :
    FirstTask (mapPage k (blockAddr 0) va pa flags) dir table ∧
    ∀ v : Word, v.toNat % 4096 = 0 →
      pagingGet (Processes.mapPage k (blockAddr 0) va pa flags).kmem.mem dir v =
        if v = va then pa ||| flags else pagingGet k.kmem.mem dir v := by
  obtain ⟨hafter, hget⟩ := h.live.mapPage hva hpa flags
  obtain ⟨-, -, htables, -⟩ := pagingMap_spec h.live.pageDir hva hpa flags
  refine ⟨{ h with
    live := hafter
    frontier := frontier_withMem h.frontier _
    clear := fun x hx => ?_
    shared := fun j hj => ?_ }, hget⟩
  · rw [← h.clear x hx]
    refine htables x fun hin => ?_
    have habove := h.above _ (tablePages_subset hin)
    omega
  · have haligned := h.live.pageDir.dir_aligned
    have hentry := htables.read32 (a := dir + BitVec.ofNat 32 (4 * j))
      (by rw [toNat_add_ofNat (by omega)]; omega) (by
        rw [pageOf_add haligned (by omega)]
        rintro ⟨i, hi, heq⟩
        exact h.live.pageDir.dir_off i hi heq)
    exact (congrArg (· &&& 7) hentry).trans (h.shared j hj)

/-- The first process after one of its pages was unmapped. -/
def unmappedPage : Kernel := mapPage oneTask (blockAddr 0) 0x1480000 0 0

/-- The page table that maps the first blocks behind the directory. -/
def blockTable : Word := pagingTable unmappedPage.kmem.mem (unmappedPage.directory (blockAddr 0)) 5

/-- Its directory, and the words of the table. -/
lemma unmappedPage_first : ∃ dir table, FirstTask unmappedPage dir table ∧ blockTable = table 5 ∧
    (unmappedPage.procs (blockAddr 0)).arguments.argc = 0 ∧
    ∀ v : Word, v.toNat % 4096 = 0 → v.toNat / 4194304 = 5 →
      slotAddr table v = blockTable + BitVec.ofNat 32 (4 * (v.toNat / 4096 % 1024)) ∧
      read32 unmappedPage.kmem.mem (slotAddr table v) = if v = 0x1480000 then 0 else v ||| 5 := by
  obtain ⟨chunk, s, dir, table, hbuilt, hfirst, hidentity⟩ := oneTask_first
  obtain ⟨hafter, hget⟩ := @FirstTask.mapPage _ _ _ hfirst 0x1480000 0 (by simp) (by simp) 0
  change FirstTask unmappedPage dir table at hafter
  have htable : blockTable = table 5 := by
    rw [blockTable, hafter.live.directory]
    exact hafter.live.pageDir.entry 5 (by omega)
  refine ⟨dir, table, hafter, htable, ?_, fun v hv hfive => ⟨?_, ?_⟩⟩
  · rw [unmappedPage, hbuilt]
    change ((withTask chunk s).procs (blockAddr 0)).arguments.argc = 0
    rw [withTask_procs]
    rfl
  · rw [slotAddr, hfive, htable]
  · rw [← pagingGet_eq hafter.live.pageDir hv]
    exact (hget v hv).trans (by rw [hidentity v hv]; rfl)

lemma processMalloc_fst (k : Kernel) (q size : Word) :
    (processMalloc k q size).1 = 0 ∨ (processMalloc k q size).1 = (kzalloc k.kmem size).1 := by
  unfold processMalloc
  cases processFindFreeAllocationIndex (k.procs q) with
  | none =>
    dsimp only
    split_ifs <;> exact .inl rfl
  | some index =>
    dsimp only
    split_ifs
    · exact .inl rfl
    · exact .inl rfl
    · exact .inr rfl

/-- One argument, wherever it lies: the array and the copy are granted. -/
lemma processInjectArguments_one {k' : Kernel} (h : LiveProcess k q dir table) (hne : root ≠ 0)
    (hcount : processCountCommandArguments (k.view q) 1 root = some 1)
    (hslots : 2 ≤ (freeSlots k q).card)
    (hfree : ∀ b ∈ free, b < 25600 ∧ IsFree k.kmem.entries b) (hcard : 2 ≤ free.card)
    (hrun : processInjectArguments 1 k q root = some (0, k')) :
    (processMalloc k q 4).1 ≠ 0 ∧ (k'.procs q).arguments.argc = 1 ∧
      ∃ ptr, Granted k k' q dir table [⟨(processMalloc k q 4).1, 4⟩, ⟨ptr, 512⟩] := by
  have hone : (heapBlocksFor 4).toNat = 1 := by decide
  have htwo : (heapBlocksFor 512).toNat = 1 := by decide
  have hstart := h.granted
  obtain ⟨b, hb, hargv, -, -, -, hfirst⟩ := hstart.malloc hone
    (hstart.exists_free hfree (show 0 < free.card by omega)) (show 0 < (freeSlots k q).card by omega)
  obtain ⟨k₁, hk₁⟩ : ∃ k₁, processMalloc k q 4 = (blockAddr b, k₁) := ⟨_, Prod.ext hargv rfl⟩
  have hbne : blockAddr b ≠ 0 := blockAddr_ne_zero (by omega)
  rw [hk₁] at hfirst
  obtain ⟨c, hc, hptr, -, -, -, hsecond⟩ := hfirst.malloc htwo
    (hfirst.exists_free hfree (show 1 < free.card by omega)) (show 1 < (freeSlots k q).card by omega)
  obtain ⟨k₂, hk₂⟩ : ∃ k₂, processMalloc k₁ q 512 = (blockAddr c, k₂) := ⟨_, Prod.ext hptr rfl⟩
  have hcne : blockAddr c ≠ 0 := blockAddr_ne_zero (by omega)
  rw [hk₂] at hsecond
  have hsize : (4 * BitVec.ofNat 32 1 : Word) = 4 := by decide
  rw [processInjectArguments, hcount, Option.bind_some, if_neg one_ne_zero, hsize, hk₁] at hrun
  dsimp only at hrun
  rw [if_neg hbne, processInjectArgumentsLoop, if_neg hne, hk₂] at hrun
  dsimp only at hrun
  rw [if_neg hcne] at hrun
  -- the copy and its pointer
  have hcopy : SameOff {pageOf (blockAddr c)} k₂.kmem.mem (strncpyShown k₂ q (blockAddr c) root 512) :=
    fun x hx => overlay_of_not fun hin => hx (inRange_page (blockAddr_aligned (by omega)) (by omega) hin)
  have hword := write32_slot_sameOff (strncpyShown k₂ q (blockAddr c) root 512)
    (blockAddr_aligned (b := b) (by omega)) (show 0 < 1024 by omega) (blockAddr c)
  have hpages : {pageOf (blockAddr c)} ∪ {pageOf (blockAddr b)} ⊆
      grantPages ([] ++ [⟨blockAddr b, 4⟩] ++ [⟨blockAddr c, 512⟩]) := by
    rintro g (hg | hg)
    · exact ⟨⟨blockAddr c, 512⟩, by simp, hg⟩
    · exact ⟨⟨blockAddr b, 4⟩, by simp, hg⟩
  have hstored := hsecond.store h ((hcopy.trans hword).mono hpages)
  rw [processInjectArgumentsLoop] at hrun
  split_ifs at hrun
  · simp only [Option.map_some, Option.some.injEq] at hrun
    rw [if_neg (lt_irrefl 0)] at hrun
    simp only [Prod.mk.injEq, true_and] at hrun
    rw [← hrun, hk₁]
    refine ⟨hbne, ?_, blockAddr c, hstored.withArguments _⟩
    rw [Kernel.setProcess_procs, Function.update_self]
    rfl
  · simp at hrun

/-- The entry of the array's page changes. -/
lemma processInjectArguments_entry {k' : Kernel} {page : Word} (h : LiveProcess k q dir table)
    (hne : root ≠ 0) (hcount : processCountCommandArguments (k.view q) 1 root = some 1)
    (hslots : 2 ≤ (freeSlots k q).card)
    (hfree : ∀ b ∈ free, b < 25600 ∧ IsFree k.kmem.entries b) (hcard : 2 ≤ free.card)
    (hfirst : (kzalloc k.kmem 4).1 = page) (hpage : page.toNat % 4096 = 0)
    (hrun : processInjectArguments 1 k q root = some (0, k')) :
    read32 k'.kmem.mem (slotAddr table page) = page ||| userFlags := by
  obtain ⟨hptr, -, ptr, hgranted⟩ := processInjectArguments_one h hne hcount hslots hfree hcard hrun
  have hargv : (processMalloc k q 4).1 = page := ((processMalloc_fst k q 4).resolve_left hptr).trans hfirst
  rw [hargv] at hgranted
  rw [← pagingGet_eq hgranted.process.pageDir hpage]
  exact hgranted.mapped ⟨page, 4⟩ (by simp)

/-- A list of one argument outside the free blocks, that changes while it is copied. -/
structure ListChanges (k : Kernel) (q root : Word) (str : List Byte) : Prop where
  list : ArgumentsAt (k.view q) root [(root, str)]
  taken : ∀ x, InRange root 516 x → ∀ b < 25600, IsFree k.kmem.entries b → pageOf x ≠ 4096 + b
  changes : ∀ k', processInjectArguments 1 k q root = some (0, k') →
    ∃ x, InRange root 516 x ∧ k'.view q x ≠ k.view q x

/-- In the page table, the entry of the array's page changes. -/
lemma blockTable_changes : ListChanges unmappedPage (blockAddr 0) blockTable [5] := by
  obtain ⟨dir, table, hfirst, htable, -, hword⟩ := unmappedPage_first
  have hhigh : 4100 ≤ pageOf blockTable := by
    rw [htable]
    exact hfirst.above _ (tablePages_subset ⟨5, by omega, rfl⟩)
  have haligned := hfirst.live.pageDir.aligned 5 (by omega)
  rw [← htable] at haligned
  have hshown : ∀ (k : Kernel) x, InRange blockTable 516 x → k.view (blockAddr 0) x = k.kmem.mem x :=
    fun k x hx => view_high k (by rw [inRange_page haligned (by omega) hx]; omega)
  have hargs : ArgumentsAt unmappedPage.kmem.mem blockTable [(blockTable, [5])] := by
    obtain ⟨hslot, hfirstWord⟩ := hword 0x1400000 (by simp) (by simp)
    obtain ⟨hslot', hnext⟩ := hword 0x1480000 (by simp) (by simp)
    have hzero : blockTable + BitVec.ofNat 32 (4 * ((0x1400000 : Word).toNat / 4096 % 1024)) = blockTable :=
      BitVec.add_zero _
    rw [hslot, hzero] at hfirstWord
    rw [hslot'] at hnext
    have hbyte₀ := read32_byte unmappedPage.kmem.mem blockTable (show 0 < 4 by omega)
    have hbyte₁ := read32_byte unmappedPage.kmem.mem blockTable (show 1 < 4 by omega)
    rw [hfirstWord] at hbyte₀ hbyte₁
    rw [BitVec.add_zero] at hbyte₀
    refine ⟨rfl, fun h0 => ?_, by simp, by simp, ⟨hbyte₀.symm, hbyte₁.symm, trivial⟩, hnext⟩
    rw [h0] at hhigh
    exact absurd hhigh (by decide)
  have hview : ArgumentsAt (unmappedPage.view (blockAddr 0)) blockTable [(blockTable, [5])] := by
    refine hargs.congr fun d hd x hx => hshown _ x ?_
    rwa [List.mem_singleton.1 hd] at hx
  refine ⟨hview, fun x hx b hb hbfree hpage => ?_, fun k' hrun => ?_⟩
  · obtain ⟨c, heq, hc⟩ := hfirst.live.held _ (tablePages_subset ⟨5, by omega, rfl⟩)
    rw [← htable, ← inRange_page haligned (show 516 ≤ 4096 by omega) hx] at heq
    obtain rfl : b = c := by omega
    exact allocated_not_free hc hbfree
  · have hone : (heapBlocksFor 4).toNat = 1 := by decide
    have haddr : blockAddr 1030 = 0x1406000 := by decide
    obtain ⟨hslot, hentry⟩ := hword 0x1406000 (by simp) (by simp)
    have hplace : slotAddr table 0x1406000 = blockTable + 24 := hslot
    have hcount := hview.count (show [(blockTable, [5])].length ≤ 1 from le_rfl)
    have hpage := (frontier_block hfirst.frontier hone (by omega)).1.trans haddr
    have hafter := processInjectArguments_entry hfirst.live hview.2.1 hcount
      (by rw [freeSlots_empty hfirst.empty]; omega)
      (fun b hb => frontier_blocks hfirst.frontier hb) two_le_card hpage (by simp) hrun
    rw [hplace] at hafter hentry
    by_contra hall
    have hsame : ∀ x, InRange (blockTable + 24) 4 x → k'.kmem.mem x = unmappedPage.kmem.mem x := by
      intro x hx
      by_contra hdiff
      have hsplit := (inRange_split blockTable x (show 24 + 492 < 2 ^ 32 by omega)).1
      have hin : InRange (blockTable + BitVec.ofNat 32 24) 492 x := lt_of_lt_of_le hx (by omega)
      have hrange := hsplit.2 (.inr hin)
      exact hall ⟨x, hrange, by rwa [hshown _ x hrange, hshown _ x hrange]⟩
    rw [read32_eq_of_same hsame, hentry] at hafter
    exact absurd hafter (by decide)

lemma inRecord_offset {j : ℕ} (hj : j < 2 ^ 32) (h : InRecord q (q + BitVec.ofNat 32 j)) :
    116 ≤ j ∧ j < 8308 ∨ 9356 ≤ j ∧ j < 9364 := by
  have hoffset : ∀ (a i : ℕ), a + i < 2 ^ 32 →
      q + BitVec.ofNat 32 j = q + BitVec.ofNat 32 a + BitVec.ofNat 32 i → j = a + i := by
    intro a i hai heq
    rw [add_assoc, ← BitVec.ofNat_add, add_right_inj] at heq
    have hnat := congrArg BitVec.toNat heq
    rw [BitVec.toNat_ofNat, BitVec.toNat_ofNat, Nat.mod_eq_of_lt hj, Nat.mod_eq_of_lt hai] at hnat
    exact hnat
  rcases h with h | h
  · obtain ⟨i, hi, heq⟩ := exists_of_inRange h
    have hsum := hoffset 116 i (by omega) heq
    omega
  · obtain ⟨i, hi, heq⟩ := exists_of_inRange h
    have hsum := hoffset 9356 i (by omega) heq
    omega

/-- In the process structure, the arguments are stored. -/
lemma structure_changes : ListChanges unmappedPage (blockAddr 0) (blockAddr 0 + 9353) [] := by
  obtain ⟨dir, table, hfirst, -, hargc, -⟩ := unmappedPage_first
  have hpage : ∀ j < 16384, pageOf (blockAddr 0 + BitVec.ofNat 32 j) = 4096 + j / 4096 := fun j hj => by
    have haddr : (blockAddr 0).toNat = 16777216 := rfl
    rw [pageOf, toNat_add_ofNat (by omega), haddr]
    omega
  have hzero : ∀ j < 16384, j = 9353 ∨ 9364 ≤ j →
      unmappedPage.view (blockAddr 0) (blockAddr 0 + BitVec.ofNat 32 j) = 0 := by
    intro j hj hout
    have hplace := hpage j hj
    rw [Kernel.view_of_not (not_inTable_of_page (by omega))]
    · exact hfirst.clear _ (by omega)
    · intro hin
      have hoffset := inRecord_offset (by omega) hin
      omega
  have hrange : ∀ x, InRange (blockAddr 0 + 9353) 516 x →
      ∃ j < 516, x = blockAddr 0 + BitVec.ofNat 32 (9353 + j) := by
    intro x hx
    obtain ⟨j, hj, rfl⟩ := exists_of_inRange hx
    exact ⟨j, hj, by rw [BitVec.ofNat_add, ← add_assoc]; rfl⟩
  have hlist : ArgumentsAt (unmappedPage.view (blockAddr 0)) (blockAddr 0 + 9353)
      [(blockAddr 0 + 9353, [])] := by
    refine ⟨rfl, by decide, by simp, by simp, ⟨hzero 9353 (by omega) (by omega), trivial⟩, ?_⟩
    have hnext : argumentNext (unmappedPage.view (blockAddr 0)) (blockAddr 0 + 9353) = 0 := by
      rw [argumentNext, read32_of_wordByte (w := 0)]
      intro j hj
      have hplace := hzero (9865 + j) (by omega) (by omega)
      rw [BitVec.ofNat_add, ← add_assoc] at hplace
      exact hplace.trans (by interval_cases j <;> rfl)
    exact hnext
  refine ⟨hlist, fun x hx b hb hbfree heq => ?_, fun k' hrun => ?_⟩
  · obtain ⟨j, hj, rfl⟩ := hrange x hx
    rw [hpage _ (by omega)] at heq
    exact hfirst.page_taken (by omega) hbfree heq
  · have hcount := hlist.count (show [(blockAddr 0 + 9353, ([] : List Byte))].length ≤ 1 from le_rfl)
    obtain ⟨-, hafter, -⟩ := processInjectArguments_one hfirst.live hlist.2.1 hcount
      (by rw [freeSlots_empty hfirst.empty]; omega)
      (fun b hb => frontier_blocks hfirst.frontier hb) two_le_card hrun
    have habove : AboveTable (blockAddr 0) := by
      unfold AboveTable
      decide
    have hbyte := fun k : Kernel => habove.view_argument (k := k) (show 0 < 8 by omega)
    refine ⟨blockAddr 0 + BitVec.ofNat 32 (9356 + 0), ?_, ?_⟩
    · unfold InRange
      decide
    · rw [hbyte, hbyte, Process.argumentByte, Process.argumentByte, if_pos (by omega), if_pos (by omega),
        hafter, hargc]
      decide

/-- In the table of the heap, the array's block is marked. -/
lemma table_changes : ListChanges unmappedPage (blockAddr 0) (heapTableAddress + 1030) [] := by
  obtain ⟨dir, table, hfirst, -, -⟩ := unmappedPage_first
  have hentry : ∀ b : ℕ, 1030 ≤ b → b < 25600 →
      unmappedPage.view (blockAddr 0) (heapTableAddress + BitVec.ofNat 32 b) = 0 := by
    intro b h1 h2
    rw [Kernel.view_table h2]
    exact hfirst.zeroFree b h2 (hfirst.frontier.free b h1 h2)
  have hlist : ArgumentsAt (unmappedPage.view (blockAddr 0)) (heapTableAddress + 1030)
      [(heapTableAddress + 1030, [])] := by
    refine ⟨rfl, by decide, by simp, by simp, ⟨hentry 1030 le_rfl (by omega), trivial⟩, ?_⟩
    have hnext : argumentNext (unmappedPage.view (blockAddr 0)) (heapTableAddress + 1030) = 0 := by
      rw [argumentNext, read32_of_wordByte (w := 0)]
      intro j hj
      have hplace := hentry (1542 + j) (by omega) (by omega)
      rw [BitVec.ofNat_add, ← add_assoc] at hplace
      exact hplace.trans (by interval_cases j <;> rfl)
    exact hnext
  refine ⟨hlist, fun x hx b hb hbfree heq => ?_, fun k' hrun => ?_⟩
  · have hlt := x.isLt
    unfold InRange at hx
    rw [BitVec.toNat_sub] at hx
    change (2 ^ 32 - 33286 + x.toNat) % 2 ^ 32 < 516 at hx
    unfold pageOf at heq
    omega
  · have hone : (heapBlocksFor 4).toNat = 1 := by decide
    have hcount := hlist.count (show 1 ≤ 1 by omega)
    obtain ⟨hptr, -, ptr, hgranted⟩ := processInjectArguments_one hfirst.live hlist.2.1 hcount
      (by rw [freeSlots_empty hfirst.empty]; omega)
      (fun b hb => frontier_blocks hfirst.frontier hb) two_le_card hrun
    have hblock : (processMalloc unmappedPage (blockAddr 0) 4).1 = blockAddr 1030 :=
      ((processMalloc_fst _ _ 4).resolve_left hptr).trans (frontier_block hfirst.frontier hone (by omega)).1
    rw [hblock] at hgranted
    obtain ⟨b, hb, heq, -, htaken⟩ := hgranted.fresh ⟨blockAddr 1030, 4⟩ List.mem_cons_self
    have hthis : 1030 = b := blockAddr_inj (by omega) (by omega) heq
    rw [← hthis] at htaken
    refine ⟨heapTableAddress + BitVec.ofNat 32 1030, ?_, fun hsame => ?_⟩
    · unfold InRange
      decide
    · rw [Kernel.view_table (by omega), Kernel.view_table (by omega)] at hsame
      refine allocated_not_free htaken ?_
      rw [IsFree, hsame]
      exact hfirst.frontier.free 1030 le_rfl (by omega)

/-- Lists outside the free blocks that change: in a page table of the process, in the process structure,
and in the table of the heap. -/
theorem processInjectArguments_changesList :
    (∃ dir table, LiveProcess unmappedPage (blockAddr 0) dir table) ∧
    Allocated unmappedPage.kmem.kernelHeap 0 3 ∧ (freeSlots unmappedPage (blockAddr 0)).card = 1024 ∧
    (∀ b ∈ Finset.Ico 1030 25600, b < 25600 ∧ IsFree unmappedPage.kmem.entries b) ∧
    ListChanges unmappedPage (blockAddr 0) blockTable [5] ∧
    ListChanges unmappedPage (blockAddr 0) (blockAddr 0 + 9353) [] ∧
    ListChanges unmappedPage (blockAddr 0) (heapTableAddress + 1030) [] := by
  obtain ⟨dir, table, hfirst, -, -⟩ := unmappedPage_first
  exact ⟨⟨dir, table, hfirst.live⟩, hfirst.structure_taken, freeSlots_empty hfirst.empty,
    fun b hb => frontier_blocks hfirst.frontier hb, blockTable_changes, structure_changes, table_changes⟩

end AlphaOS.Processes
