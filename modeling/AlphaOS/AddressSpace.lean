import AlphaOS.PagingAlloc

/-! A page directory as one function from pages to frames and flags. `paging_new_4gb`
builds the identity, `paging_map` updates one page, and both lookups read the function. -/
namespace AlphaOS.Paging
open BlockHeap Kheap WordMemory

structure Mapping where
  frame : Word
  flags : Word

/-- Pages are given by their first address. -/
abbrev AddressSpace := Word → Mapping

structure MapCall where
  virtualAddress : Word
  physicalAddress : Word
  flags : Word

def MapCall.Valid (c : MapCall) : Prop :=
  c.virtualAddress.toNat % 4096 = 0 ∧ c.physicalAddress.toNat % 4096 = 0 ∧ c.flags.toNat < 4096

def AddressSpace.identity (flags : Word) : AddressSpace := fun page => ⟨page, flags⟩

def AddressSpace.map (A : AddressSpace) (c : MapCall) : AddressSpace :=
  Function.update A c.virtualAddress ⟨c.physicalAddress, c.flags⟩

/-- The memory after a sequence of `paging_map` calls on one chunk. -/
def runMaps (mem : Mem) (chunk : Word) (calls : List MapCall) : Mem :=
  calls.foldl (fun m c => (pagingMap m chunk c.virtualAddress c.physicalAddress c.flags).2) mem

structure Refines (mem : Mem) (chunk dir : Word) (table : ℕ → Word) (A : AddressSpace) : Prop where
  pageDir : PageDir mem chunk dir table
  get : ∀ page : Word, page.toNat % 4096 = 0 →
    pagingGet mem dir page = (A page).frame ||| (A page).flags
  packed : ∀ page : Word, page.toNat % 4096 = 0 →
    (A page).frame.toNat % 4096 = 0 ∧ (A page).flags.toNat < 4096

variable {mem : Mem} {chunk dir : Word} {table : ℕ → Word} {A : AddressSpace}

lemma Refines.map (h : Refines mem chunk dir table A) {c : MapCall} (hc : c.Valid) :
    (pagingMap mem chunk c.virtualAddress c.physicalAddress c.flags).1 = 0 ∧
    Refines (pagingMap mem chunk c.virtualAddress c.physicalAddress c.flags).2 chunk dir table
      (A.map c) := by
  obtain ⟨hva, hpa, hflags⟩ := hc
  obtain ⟨hres, hdir, -, hget⟩ := pagingMap_spec h.pageDir hva hpa c.flags
  refine ⟨hres, hdir, fun page hpage => ?_, fun page hpage => ?_⟩
  · rw [hget page hpage, AddressSpace.map]
    by_cases heq : page = c.virtualAddress
    · rw [if_pos heq, heq, Function.update_self]
    · rw [if_neg heq, Function.update_of_ne heq, h.get page hpage]
  · rw [AddressSpace.map]
    by_cases heq : page = c.virtualAddress
    · rw [heq, Function.update_self]
      exact ⟨hpa, hflags⟩
    · rw [Function.update_of_ne heq]
      exact h.packed page hpage

lemma Refines.runMaps (h : Refines mem chunk dir table A) {calls : List MapCall}
    (hcalls : ∀ c ∈ calls, c.Valid) :
    Refines (runMaps mem chunk calls) chunk dir table (calls.foldl AddressSpace.map A) := by
  induction calls generalizing mem A with
  | nil => exact h
  | cons c calls ih =>
    exact ih (h.map (hcalls c (by simp))).2 fun c' hc' => hcalls c' (by simp [hc'])

lemma pagingAlignToLowerPage_toNat (v : Word) :
    (pagingAlignToLowerPage v).toNat = v.toNat / 4096 * 4096 := by
  have hmod : (v % 4096).toNat = v.toNat % 4096 := BitVec.toNat_umod
  unfold pagingAlignToLowerPage
  rw [BitVec.toNat_sub_of_le (by rw [BitVec.le_def, hmod]; omega), hmod]
  omega

lemma pagingAlignToLowerPage_aligned (v : Word) : (pagingAlignToLowerPage v).toNat % 4096 = 0 := by
  rw [pagingAlignToLowerPage_toNat]
  omega

lemma page_sub_aligned {page r : Word} (hpage : page.toNat % 4096 = 0) (hr : r.toNat % 4096 = 0) :
    (page - r).toNat % 4096 = 0 := by
  rw [BitVec.toNat_sub]
  have := r.isLt
  omega

/-- Translation adds the offset to the frame of the page. -/
lemma Refines.translate (h : Refines mem chunk dir table A) (v : Word) :
    pagingGetPhysicalAddress mem dir v = (A (pagingAlignToLowerPage v)).frame + v % 4096 := by
  have hpage := pagingAlignToLowerPage_aligned v
  obtain ⟨hframe, hflags⟩ := h.packed _ hpage
  have hoffset : v - pagingAlignToLowerPage v = v % 4096 := by
    unfold pagingAlignToLowerPage
    abel
  unfold pagingGetPhysicalAddress
  dsimp only
  rw [h.get _ hpage, and_page_or_flags hframe hflags, hoffset]

/-- The last call that mapped a page. -/
def lastMap (calls : List MapCall) (page : Word) : Option MapCall :=
  calls.reverse.find? fun c => c.virtualAddress = page

def frameOf (calls : List MapCall) (page : Word) : Word :=
  ((lastMap calls page).map MapCall.physicalAddress).getD page

def flagsOf (flags : Byte) (calls : List MapCall) (page : Word) : Word :=
  ((lastMap calls page).map MapCall.flags).getD (flags.setWidth 32)

/-- Folding the updates is looking for the last one. -/
lemma foldl_map_identity (flags : Byte) (calls : List MapCall) (page : Word) :
    calls.foldl AddressSpace.map (AddressSpace.identity (flags.setWidth 32)) page =
      ⟨frameOf calls page, flagsOf flags calls page⟩ := by
  induction calls using List.reverseRecOn with
  | nil => rfl
  | append_singleton calls c ih =>
    rw [List.foldl_append, List.foldl_cons, List.foldl_nil, AddressSpace.map]
    by_cases heq : c.virtualAddress = page
    · have hlast : lastMap (calls ++ [c]) page = some c := by simp [lastMap, heq]
      rw [frameOf, flagsOf, hlast, ← heq, Function.update_self]
      rfl
    · have hlast : lastMap (calls ++ [c]) page = lastMap calls page := by simp [lastMap, heq]
      rw [frameOf, flagsOf, hlast, Function.update_of_ne (Ne.symm heq), ih]
      rfl

/-- The address of a table, recovered from its directory entry. -/
def pagingTable (mem : Mem) (directory : Word) (i : ℕ) : Word :=
  read32 mem (directory + BitVec.ofNat 32 (4 * i)) &&& 0xFFFFF000#32

/-- The directory and its 1024 tables sit in distinct aligned blocks. -/
structure InDistinctBlocks (mem : Mem) (directory : Word) : Prop where
  dir_aligned : directory.toNat % 4096 = 0
  dir_block : directory ≠ 0
  block : ∀ i < 1024, pagingTable mem directory i ≠ 0
  ne_dir : ∀ i < 1024, pagingTable mem directory i ≠ directory
  distinct : ∀ i < 1024, ∀ j < 1024,
    pagingTable mem directory i = pagingTable mem directory j → i = j

lemma toNat_or_writable {flags : Byte} :
    (flags.setWidth 32 ||| pagingIsWritable).toNat < 4096 := by
  rw [BitVec.toNat_or]
  refine (Nat.or_lt_two_pow (n := 8) ?_ (by decide)).trans (by decide)
  rw [BitVec.toNat_setWidth]
  have := flags.isLt
  omega

lemma NewDir.aligned {s₀ s : Kmem} {flags : Word} {d : ℕ} {a : ℕ → Word}
    (h : NewDir s₀ s flags chunk d a) {j : ℕ} (hj : j < 1024) : (a j).toNat % 4096 = 0 := by
  rcases h.null_or j hj with h0 | ⟨b, hb, -, heq⟩
  · rw [h0]
    rfl
  · rw [heq]
    exact blockAddr_aligned (by omega)

lemma NewDir.pagingTable_eq {s₀ s : Kmem} {flags : Byte} {d : ℕ} {a : ℕ → Word}
    (h : NewDir s₀ s (flags.setWidth 32) chunk d a) {j : ℕ} (hj : j < 1024) :
    pagingTable s.mem (blockAddr d) j = a j := by
  rw [pagingTable, h.entry j hj, BitVec.or_assoc]
  exact and_page_or_flags (h.aligned hj) toNat_or_writable

/-- A directory without null tables is well formed and is the identity. -/
theorem NewDir.refines {s₀ s : Kmem} {flags : Byte} {d : ℕ} {a : ℕ → Word}
    (h : NewDir s₀ s (flags.setWidth 32) chunk d a) (hne : ∀ j < 1024, a j ≠ 0) :
    Refines s.mem chunk (blockAddr d) a (AddressSpace.identity (flags.setWidth 32)) := by
  have hd := h.dir_lt
  have hblock : ∀ j < 1024, ∃ b < 25600, b ≠ d ∧ a j = blockAddr b :=
    fun j hj => (h.null_or j hj).resolve_left (hne j hj)
  have hpd : PageDir s.mem chunk (blockAddr d) a := by
    refine ⟨?_, h.chunk_word, ?_, blockAddr_aligned (by omega), fun j hj => h.aligned hj,
      fun j hj => h.pagingTable_eq hj, ?_, ?_⟩
    · rcases h.chunk_or with h0 | ⟨c, hc, -, heq, -⟩
      · rw [h0]
        rfl
      · have := blockAddr_toNat (b := c) (by omega)
        rw [heq]
        omega
    · intro j hj
      obtain ⟨b, hb, -, hjb⟩ := hblock j hj
      rw [hjb, pageOf_blockAddr (by omega)]
      rcases h.chunk_or with h0 | ⟨c, hc, -, heq, hct⟩
      · rw [h0]
        simp [pageOf]
        omega
      · rw [heq, pageOf_blockAddr (by omega)]
        have hbc : b ≠ c := by
          rintro rfl
          exact hct j hj hjb
        omega
    · intro j hj
      obtain ⟨b, hb, hbd, hjb⟩ := hblock j hj
      rw [hjb, pageOf_blockAddr (by omega), pageOf_blockAddr (by omega)]
      omega
    · intro j hj j' hj' hpage
      obtain ⟨b, hb, -, hjb⟩ := hblock j hj
      obtain ⟨b', hb', -, hjb'⟩ := hblock j' hj'
      rw [hjb, hjb', pageOf_blockAddr (by omega), pageOf_blockAddr (by omega)] at hpage
      obtain rfl : b = b' := by omega
      exact h.inj j hj j' hj' (hne j hj) (hjb.trans hjb'.symm)
  refine ⟨hpd, fun page hpage => ?_, fun page hpage => ⟨hpage, ?_⟩⟩
  · rw [pagingGet_eq hpd hpage, slotAddr, h.ident _ (dirIndex_lt page) (hne _ (dirIndex_lt page)) _
      (by omega)]
    have hpg : BitVec.ofNat 32 (page.toNat / 4194304 * 4194304 + page.toNat / 4096 % 1024 * 4096) =
        page := by
      apply BitVec.eq_of_toNat_eq
      rw [BitVec.toNat_ofNat]
      omega
    rw [hpg]
    rfl
  · have := flags.isLt
    change (flags.setWidth 32).toNat < 4096
    rw [BitVec.toNat_setWidth]
    omega

/-- A new directory in distinct blocks is the identity address space. -/
theorem pagingNew4gb_refines (s₀ : Kmem) (flags : Byte)
    (hblocks : InDistinctBlocks (pagingNew4gb s₀ flags).2.mem
      (read32 (pagingNew4gb s₀ flags).2.mem (pagingNew4gb s₀ flags).1)) :
    ∃ table, Refines (pagingNew4gb s₀ flags).2.mem (pagingNew4gb s₀ flags).1
      (read32 (pagingNew4gb s₀ flags).2.mem (pagingNew4gb s₀ flags).1) table
      (AddressSpace.identity (flags.setWidth 32)) := by
  rcases pagingNew4gb_spec s₀ flags with hfull | ⟨d, a, hnew⟩
  · obtain ⟨hchunk, -, -, hword, -⟩ := pagingNew4gb_full s₀ flags hfull
    rw [hchunk] at hblocks
    exact absurd hword hblocks.dir_block
  · rw [hnew.chunk_word] at hblocks ⊢
    refine ⟨a, hnew.refines fun j hj => ?_⟩
    rw [← hnew.pagingTable_eq hj]
    exact hblocks.block j hj

/-- After any sequence of `paging_map` calls a new directory in distinct blocks is one
function from pages to frames and flags: the last call for a page decides, and a call
for one page leaves the results for the others alone. -/
theorem runMaps_lookup (s₀ : Kmem) (flags : Byte) (calls : List MapCall)
    (hblocks : InDistinctBlocks (pagingNew4gb s₀ flags).2.mem
      (read32 (pagingNew4gb s₀ flags).2.mem (pagingNew4gb s₀ flags).1))
    (hcalls : ∀ c ∈ calls, c.Valid) :
    let chunk := (pagingNew4gb s₀ flags).1
    let directory := read32 (pagingNew4gb s₀ flags).2.mem chunk
    let mem := runMaps (pagingNew4gb s₀ flags).2.mem chunk calls
    read32 mem chunk = directory ∧
    (∀ v, pagingGetPhysicalAddress mem directory v =
      frameOf calls (pagingAlignToLowerPage v) + v % 4096) ∧
    (∀ v, pagingGet mem directory (pagingAlignToLowerPage v) =
      frameOf calls (pagingAlignToLowerPage v) ||| flagsOf flags calls (pagingAlignToLowerPage v)) ∧
    ∀ c : MapCall, c.Valid →
      (pagingMap mem chunk c.virtualAddress c.physicalAddress c.flags).1 = 0 ∧
      ∀ v, pagingAlignToLowerPage v ≠ c.virtualAddress →
        let mem' := (pagingMap mem chunk c.virtualAddress c.physicalAddress c.flags).2
        pagingGetPhysicalAddress mem' directory v = pagingGetPhysicalAddress mem directory v ∧
        pagingGet mem' directory (pagingAlignToLowerPage v) =
          pagingGet mem directory (pagingAlignToLowerPage v) := by
  intro chunk directory mem
  obtain ⟨table, h₀⟩ := pagingNew4gb_refines s₀ flags hblocks
  have h := h₀.runMaps hcalls
  refine ⟨h.pageDir.chunk_word, fun v => ?_, fun v => ?_, fun c hc => ⟨(h.map hc).1, fun v hv => ?_⟩⟩
  · rw [h.translate, foldl_map_identity]
  · rw [h.get _ (pagingAlignToLowerPage_aligned v), foldl_map_identity]
  · have hmap := (h.map hc).2
    have hsame := Function.update_of_ne hv
      (⟨c.physicalAddress, c.flags⟩ : Mapping)
      (calls.foldl AddressSpace.map (AddressSpace.identity (flags.setWidth 32)))
    constructor
    · rw [hmap.translate, h.translate, AddressSpace.map, hsame]
    · rw [hmap.get _ (pagingAlignToLowerPage_aligned v), h.get _ (pagingAlignToLowerPage_aligned v),
        AddressSpace.map, hsame]

/-- The block an address lies in. -/
def blockOf (p : Word) : ℕ := (p.toNat - 16777216) / 4096

lemma blockOf_blockAddr {b : ℕ} (hb : b < 25600) : blockOf (blockAddr b) = b := by
  rw [blockOf, blockAddr_toNat (by omega)]
  omega

/-- The blocks of the directory and of its tables. -/
def usedBlocks (d : ℕ) (a : ℕ → Word) : Finset ℕ :=
  insert d ((Finset.range 1024).image fun j => blockOf (a j))

lemma usedBlocks_card (d : ℕ) (a : ℕ → Word) : (usedBlocks d a).card ≤ 1025 := by
  have himage := Finset.card_image_le (s := Finset.range 1024) (f := fun j => blockOf (a j))
  rw [Finset.card_range] at himage
  exact (Finset.card_insert_le _ _).trans (Nat.succ_le_succ himage)

lemma mem_usedBlocks {d b : ℕ} {a : ℕ → Word} {chunk : Word} (hb : b ∈ dirBlocks d a chunk)
    (hchunk : chunk ≠ blockAddr b) : b ∈ usedBlocks d a := by
  obtain ⟨hlt, rfl | ⟨j, hj, hjb⟩ | hc⟩ := hb
  · exact Finset.mem_insert_self _ _
  · refine Finset.mem_insert_of_mem (Finset.mem_image.2 ⟨j, Finset.mem_range.2 hj, ?_⟩)
    rw [hjb, blockOf_blockAddr hlt]
  · exact absurd hc hchunk

/-- The free blocks outside a set that holds the blocks of the new directory stay free. -/
lemma NewDir.free_off {s₀ s : Kmem} {flags : Word} {d : ℕ} {a : ℕ → Word}
    (h : NewDir s₀ s flags chunk d a) {free used : Finset ℕ}
    (hfree : ∀ b ∈ free, b < 25600 ∧ IsFree s₀.entries b)
    (hused : ∀ b ∈ dirBlocks d a chunk, b ∈ used) :
    ∀ b ∈ free \ used, b < 25600 ∧ IsFree s.entries b := by
  intro b hb
  obtain ⟨hmem, hnot⟩ := Finset.mem_sdiff.1 hb
  obtain ⟨hlt, hbfree⟩ := hfree b hmem
  have hkept : s.entries b = s₀.entries b :=
    h.grown.same b fun c hc heq => hnot (by rw [Nat.cast_inj.1 heq]; exact hused c hc)
  exact ⟨hlt, by rwa [IsFree, hkept]⟩

/-- The directory, the chunk and 1024 tables take at most 1026 blocks. -/
lemma NewDir.exists_free {s₀ s : Kmem} {flags : Word} {d : ℕ} {a : ℕ → Word}
    (h : NewDir s₀ s flags chunk d a) (free : Finset ℕ)
    (hfree : ∀ b ∈ free, b < 25600 ∧ IsFree s₀.entries b) :
    ∃ left : Finset ℕ, free.card ≤ left.card + 1026 ∧
      ∀ b ∈ left, b < 25600 ∧ IsFree s.entries b := by
  have hcard := Finset.card_insert_le (blockOf chunk) (usedBlocks d a)
  have hused := usedBlocks_card d a
  refine ⟨free \ insert (blockOf chunk) (usedBlocks d a), ?_, h.free_off hfree fun b hb => ?_⟩
  · have hle := Finset.le_card_sdiff (insert (blockOf chunk) (usedBlocks d a)) free
    omega
  · by_cases hchunk : chunk = blockAddr b
    · rw [hchunk, blockOf_blockAddr hb.1]
      exact Finset.mem_insert_self _ _
    · exact Finset.mem_insert_of_mem (mem_usedBlocks hb hchunk)

/-- So with 1026 free blocks nothing inside `paging_new_4gb` gets null. -/
lemma NewDir.ne_zero {s₀ s : Kmem} {flags : Word} {d : ℕ} {a : ℕ → Word}
    (h : NewDir s₀ s flags chunk d a) (free : Finset ℕ) (hcard : 1025 < free.card)
    (hfree : ∀ b ∈ free, b < 25600 ∧ IsFree s₀.entries b) : chunk ≠ 0 ∧ ∀ j < 1024, a j ≠ 0 := by
  have hchunk : chunk ≠ 0 := by
    intro hnull
    have hused := usedBlocks_card d a
    have hle := Finset.le_card_sdiff (usedBlocks d a) free
    obtain ⟨b, hb⟩ : (free \ usedBlocks d a).Nonempty := Finset.card_pos.1 (by omega)
    obtain ⟨hlt, hbfree⟩ := h.free_off hfree (fun c hc => mem_usedBlocks hc fun h0 =>
      blockAddr_ne_zero (show c < 2 ^ 19 by have := hc.1; omega) (h0.symm.trans hnull)) b hb
    exact h.full hnull b hlt hbfree
  exact ⟨hchunk, fun j hj h0 => hchunk (h.null_chunk ⟨j, hj, h0⟩)⟩

/-- `paging_new_4gb` with 1026 free blocks. -/
theorem pagingNew4gb_new (s₀ : Kmem) (flags : Byte) (free : Finset ℕ)
    (hcard : 1025 < free.card) (hfree : ∀ b ∈ free, b < 25600 ∧ IsFree s₀.entries b) :
    ∃ d a, NewDir s₀ (pagingNew4gb s₀ flags).2 (flags.setWidth 32) (pagingNew4gb s₀ flags).1 d a ∧
      (pagingNew4gb s₀ flags).1 ≠ 0 ∧ ∀ j < 1024, a j ≠ 0 := by
  rcases pagingNew4gb_spec s₀ flags with hfull | ⟨d, a, hnew⟩
  · obtain ⟨b, hb⟩ : free.Nonempty := Finset.card_pos.1 (by omega)
    exact absurd (hfree b hb).2 (hfull b (hfree b hb).1)
  · exact ⟨d, a, hnew, hnew.ne_zero free hcard hfree⟩

/-- With 1027 free blocks every table of a new directory gets a block of its own. -/
theorem pagingNew4gb_inDistinctBlocks (s₀ : Kmem) (flags : Byte) (free : Finset ℕ)
    (hcard : 1026 < free.card) (hfree : ∀ b ∈ free, b < 25600 ∧ IsFree s₀.entries b) :
    InDistinctBlocks (pagingNew4gb s₀ flags).2.mem
      (read32 (pagingNew4gb s₀ flags).2.mem (pagingNew4gb s₀ flags).1) := by
  obtain ⟨d, a, hnew, -, hne⟩ := pagingNew4gb_new s₀ flags free (by omega) hfree
  have hd := hnew.dir_lt
  rw [hnew.chunk_word]
  refine ⟨blockAddr_aligned (by omega), blockAddr_ne_zero (by omega), fun j hj => ?_,
    fun j hj => ?_, fun i hi j hj heq => ?_⟩
  · rw [hnew.pagingTable_eq hj]
    exact hne j hj
  · obtain ⟨b, hb, hbd, hjb⟩ := (hnew.null_or j hj).resolve_left (hne j hj)
    rw [hnew.pagingTable_eq hj, hjb]
    exact fun heq => hbd (blockAddr_inj (by omega) (by omega) heq)
  · rw [hnew.pagingTable_eq hi, hnew.pagingTable_eq hj] at heq
    exact hnew.inj i hi j hj (hne i hi) heq

lemma kheapInit_zero {mem : Mem} {entries : ℤ → Byte} {b : ℕ} (hb : b < 25600) :
    (kheapInit mem entries).entries b = entryFree := by
  simp [Kmem.entries, kheapInit, heapCreate, heapValidateAlignment, heapValidateTable,
    Heap.setEntries, clearEntries, hb]

lemma kheapInit_free (mem : Mem) (entries : ℤ → Byte) {b : ℕ} (hb : b < 25600) :
    IsFree (kheapInit mem entries).entries b := by
  rw [IsFree, kheapInit_zero hb]
  rfl

/-- The heap of a memory whose table is zero. -/
lemma kheapInit_clear (mem : Mem) (x : ℤ) : (kheapInit mem (fun _ => 0)).entries x = entryFree := by
  have hclear : (kheapInit mem (fun _ => 0)).entries x = clearEntries (fun _ => 0) 25600 x := by
    simp [Kmem.entries, kheapInit, heapCreate, heapValidateAlignment, heapValidateTable, Heap.setEntries]
  rw [hclear, clearEntries]
  split_ifs <;> rfl

def emptyKmem : Kmem := kheapInit (fun _ => 0) (fun _ => 0)

/-- Two pages of a new directory, one of them mapped twice. -/
def threeMaps : List MapCall :=
  [⟨0x400000, 0x1002000, 7⟩, ⟨0x401000, 0x1003000, 5⟩, ⟨0x400000, 0x1005000, 7⟩]

theorem runMaps_lookup_threeMaps :
    let chunk := (pagingNew4gb emptyKmem 1).1
    let directory := read32 (pagingNew4gb emptyKmem 1).2.mem chunk
    let mem := runMaps (pagingNew4gb emptyKmem 1).2.mem chunk threeMaps
    pagingGetPhysicalAddress mem directory 0x400123 = 0x1005123 ∧
    pagingGet mem directory (pagingAlignToLowerPage 0x7FFFFABC) = 0x7FFFF001 := by
  intro chunk directory mem
  have hblocks := pagingNew4gb_inDistinctBlocks emptyKmem 1 (Finset.range 25600)
    (by rw [Finset.card_range]; omega)
    fun b hb => ⟨Finset.mem_range.1 hb, kheapInit_free _ _ (Finset.mem_range.1 hb)⟩
  have hlookup := runMaps_lookup emptyKmem 1 threeMaps hblocks
    (by simp [threeMaps, MapCall.Valid])
  have hframe : frameOf threeMaps (pagingAlignToLowerPage 0x400123) + 0x400123 % 4096 = 0x1005123 := by
    decide
  have hentry : frameOf threeMaps (pagingAlignToLowerPage 0x7FFFFABC) |||
      flagsOf 1 threeMaps (pagingAlignToLowerPage 0x7FFFFABC) = 0x7FFFF001 := by
    decide
  exact ⟨(hlookup.2.1 0x400123).trans hframe, (hlookup.2.2.1 0x7FFFFABC).trans hentry⟩

end AlphaOS.Paging
