import AlphaOS.PagingBalance

/-! `paging_map_to` on a directory of `paging_new_4gb`: all pages of the range or none. -/
namespace AlphaOS.Paging
open BlockHeap Kheap WordMemory

variable {mem : Mem} {chunk dir : Word} {table : ℕ → Word} {va pa paEnd : Word}

/-- The page `k` pages further on, around the end of the address space. -/
def pageAt (va : Word) (k : ℕ) : Word := va + BitVec.ofNat 32 (4096 * k)

lemma pageAt_sub {k : ℕ} (hk : k < 2 ^ 20) (va : Word) : (pageAt va k - va).toNat = 4096 * k := by
  rw [pageAt, BitVec.add_comm, BitVec.add_sub_cancel, BitVec.toNat_ofNat]
  omega

lemma pageAt_aligned {k : ℕ} (hva : va.toNat % 4096 = 0) : (pageAt va k).toNat % 4096 = 0 := by
  rw [pageAt, BitVec.toNat_add, BitVec.toNat_ofNat]
  omega

/-- An aligned page less than `n` pages further on is one of the `n` pages. -/
lemma exists_pageAt {page : Word} {n : ℕ} (hva : va.toNat % 4096 = 0) (hpage : page.toNat % 4096 = 0)
    (hlt : (page - va).toNat < 4096 * n) : ∃ k < n, page = pageAt va k := by
  have hsub : (page - va).toNat % 4096 = 0 := page_sub_aligned hpage hva
  refine ⟨(page - va).toNat / 4096, by omega, ?_⟩
  rw [pageAt, Nat.mul_div_cancel' (Nat.dvd_of_mod_eq_zero hsub), BitVec.ofNat_toNat,
    BitVec.setWidth_eq]
  exact (BitVec.add_comm va (page - va) ▸ BitVec.sub_add_cancel page va).symm

/-- The pages of the range get their entries, and all other entries stay. -/
lemma pagingMapTo_pages (h : PageDir mem chunk dir table) (hargs : MapToArgs va pa paEnd)
    (flags : Word) : (pagingMapTo mem chunk va pa paEnd flags).1 = 0 ∧
      let mem' := (pagingMapTo mem chunk va pa paEnd flags).2
      let n := (paEnd.toNat - pa.toNat) / 4096
      (∀ k < n, pagingGet mem' dir (pageAt va k) = pageAt pa k ||| flags) ∧
      ∀ page : Word, page.toNat % 4096 = 0 → (∀ k < n, page ≠ pageAt va k) →
        pagingGet mem' dir page = pagingGet mem dir page := by
  obtain ⟨hva, hpa, hend, hle⟩ := hargs
  obtain ⟨hres, -, -, hget⟩ := pagingMapTo_spec h hva hpa hend hle flags
  have hlt := paEnd.isLt
  refine ⟨hres, fun k hk => ?_, fun page hpage hoff => ?_⟩
  · have hsub := pageAt_sub (show k < 2 ^ 20 by omega) va
    have hphysical : pa + (pageAt va k - va) = pageAt pa k := by
      rw [pageAt, BitVec.add_comm va, BitVec.add_sub_cancel]
      rfl
    rw [hget _ (pageAt_aligned hva), if_pos (by omega), hphysical]
  · rw [hget page hpage]
    apply if_neg
    intro hin
    obtain ⟨k, hk, heq⟩ := @exists_pageAt va page ((paEnd.toNat - pa.toNat) / 4096) hva hpage
      (by omega)
    exact hoff k hk heq

lemma tablePages_pagingTable (h : PageDir mem chunk dir table) :
    tablePages (pagingTable mem dir) = tablePages table := by
  have hentry : ∀ i < 1024, pagingTable mem dir i = table i := fun i hi => h.entry i hi
  ext p
  constructor
  · rintro ⟨i, hi, rfl⟩
    exact ⟨i, hi, by rw [hentry i hi]⟩
  · rintro ⟨i, hi, rfl⟩
    exact ⟨i, hi, by rw [hentry i hi]⟩

/-- A directory that was built is well formed, whatever was mapped on it since. -/
lemma pagingNew4gb_pageDir {s₀ : Kmem} {flags : Byte} (hbuilt : (pagingNew4gb s₀ flags).1 ≠ 0)
    (calls : List PagingCall) : ∃ d table,
      PageDir (runCalls (pagingNew4gb s₀ flags).2.mem (pagingNew4gb s₀ flags).1 calls)
        (pagingNew4gb s₀ flags).1 (blockAddr d) table := by
  cases pagingNew4gb_spec s₀ flags with
  | inl hfull => exact absurd (pagingNew4gb_full s₀ flags hfull).1 hbuilt
  | inr hnew =>
    obtain ⟨d, a, hnew⟩ := hnew
    have hdir := hnew.refines fun j hj h0 => hbuilt (hnew.null_chunk ⟨j, hj, h0⟩)
    exact ⟨d, a, (runCalls_keeps hdir.pageDir calls).pageDir⟩

/-- `paging_map_to` maps exactly the pages of its range and returns 0, or refuses its arguments
and changes nothing. -/
theorem pagingMapTo_exact (s₀ : Kmem) (flags₀ : Byte) (calls : List PagingCall)
    (hbuilt : (pagingNew4gb s₀ flags₀).1 ≠ 0) (va pa paEnd flags : Word) :
    let chunk := (pagingNew4gb s₀ flags₀).1
    let mem := runCalls (pagingNew4gb s₀ flags₀).2.mem chunk calls
    let directory := read32 mem chunk
    let r := pagingMapTo mem chunk va pa paEnd flags
    let n := (paEnd.toNat - pa.toNat) / 4096
    (MapToArgs va pa paEnd → r.1 = 0 ∧
      (∀ k < n, pagingGet r.2 directory (pageAt va k) = pageAt pa k ||| flags) ∧
      (∀ page : Word, page.toNat % 4096 = 0 → (∀ k < n, page ≠ pageAt va k) →
        pagingGet r.2 directory page = pagingGet mem directory page) ∧
      SameOff (tablePages (pagingTable mem directory)) mem r.2) ∧
    (¬ MapToArgs va pa paEnd → r = (-einvarg, mem)) := by
  obtain ⟨d, table, hdir⟩ := pagingNew4gb_pageDir hbuilt calls
  intro chunk mem directory r n
  have hdirectory : directory = blockAddr d := hdir.chunk_word
  constructor
  · intro hargs
    obtain ⟨hres, hmapped, hother⟩ := pagingMapTo_pages hdir hargs flags
    rw [hdirectory, tablePages_pagingTable hdir]
    exact ⟨hres, hmapped, hother, (pagingMapTo_keeps hdir va pa paEnd flags).off⟩
  · exact fun hargs => pagingMapTo_refuses hargs mem chunk flags

lemma emptyKmem_builds (flags : Byte) : (pagingNew4gb emptyKmem flags).1 ≠ 0 := by
  obtain ⟨d, a, -, hchunk, -⟩ := pagingNew4gb_new emptyKmem flags (Finset.range 25600)
    (by rw [Finset.card_range]; omega)
    fun b hb => ⟨Finset.mem_range.1 hb, kheapInit_free _ _ (Finset.mem_range.1 hb)⟩
  exact hchunk

/-- Two pages at the end of the address space and one at its start. -/
theorem pagingMapTo_exact_aroundTheEnd :
    let chunk := (pagingNew4gb emptyKmem 5).1
    let mem := (pagingNew4gb emptyKmem 5).2.mem
    pagingGet (pagingMapTo mem chunk 0xFFFFE000 0x1000 0x4000 7).2 (read32 mem chunk) 0 = 0x3007 :=
  (((pagingMapTo_exact emptyKmem 5 [] (emptyKmem_builds 5) 0xFFFFE000 0x1000 0x4000 7).1
    (by decide)).2.1 2 (by decide)).trans (by decide)

end AlphaOS.Paging
