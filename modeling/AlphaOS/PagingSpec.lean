import AlphaOS.Paging

/-! Reading and updating a well-formed page directory. All results are about a chunk
whose directory and 1024 tables are distinct aligned pages. -/
namespace AlphaOS.Paging
open Kheap WordMemory

/-- The chunk, its directory and its tables as memory holds them. -/
structure PageDir (mem : Mem) (chunk dir : Word) (table : ℕ → Word) : Prop where
  chunk_aligned : chunk.toNat % 4 = 0
  chunk_word : read32 mem chunk = dir
  chunk_off : ∀ i < 1024, pageOf chunk ≠ pageOf (table i)
  dir_aligned : dir.toNat % 4096 = 0
  aligned : ∀ i < 1024, (table i).toNat % 4096 = 0
  entry : ∀ i < 1024, read32 mem (dir + BitVec.ofNat 32 (4 * i)) &&& 0xFFFFF000#32 = table i
  dir_off : ∀ i < 1024, pageOf dir ≠ pageOf (table i)
  inj : ∀ i < 1024, ∀ j < 1024, pageOf (table i) = pageOf (table j) → i = j

variable {mem mem' : Mem} {chunk dir : Word} {table : ℕ → Word}

def tablePages (table : ℕ → Word) : Set ℕ := {p | ∃ i < 1024, p = pageOf (table i)}

/-- Where the entry of an aligned virtual address is stored. -/
def slotAddr (table : ℕ → Word) (va : Word) : Word :=
  table (va.toNat / 4194304) + BitVec.ofNat 32 (4 * (va.toNat / 4096 % 1024))

lemma word_mod_eq_zero {va : Word} : va % 4096 = 0 ↔ va.toNat % 4096 = 0 := by
  rw [← BitVec.toNat_inj, BitVec.toNat_umod]
  rfl

lemma pagingGetIndexes_aligned {va : Word} (h : va.toNat % 4096 = 0) :
    pagingGetIndexes va = some (va / 0x400000, va % 0x400000 / 4096) := by
  have ha : pagingIsAligned va = true := by
    simp only [pagingIsAligned, word_mod_eq_zero, h, decide_true]
  simp only [pagingGetIndexes, ha, if_true]

lemma four_mul_dirIndex (va : Word) :
    4 * (va / 0x400000) = BitVec.ofNat 32 (4 * (va.toNat / 4194304)) := by
  apply BitVec.eq_of_toNat_eq
  simp [BitVec.toNat_mul, BitVec.toNat_udiv]

lemma four_mul_tableIndex (va : Word) :
    4 * (va % 0x400000 / 4096) = BitVec.ofNat 32 (4 * (va.toNat / 4096 % 1024)) := by
  have h : (va % 0x400000 / 4096).toNat = va.toNat / 4096 % 1024 := by
    simp only [BitVec.toNat_udiv, BitVec.toNat_umod]
    change va.toNat % 4194304 / 4096 = _
    omega
  apply BitVec.eq_of_toNat_eq
  rw [BitVec.toNat_mul, h]
  simp

lemma dirIndex_lt (va : Word) : va.toNat / 4194304 < 1024 := by
  have := va.isLt
  omega

lemma pageOf_slotAddr (h : PageDir mem chunk dir table) (va : Word) :
    pageOf (slotAddr table va) = pageOf (table (va.toNat / 4194304)) :=
  pageOf_add (h.aligned _ (dirIndex_lt va)) (by omega)

lemma slotAddr_toNat (h : PageDir mem chunk dir table) (va : Word) : (slotAddr table va).toNat =
    (table (va.toNat / 4194304)).toNat + 4 * (va.toNat / 4096 % 1024) :=
  toNat_slot (h.aligned _ (dirIndex_lt va)) (Nat.mod_lt _ (by decide))

lemma slotAddr_aligned (h : PageDir mem chunk dir table) (va : Word) :
    (slotAddr table va).toNat % 4 = 0 := by
  have ha := h.aligned _ (dirIndex_lt va)
  rw [slotAddr_toNat h]
  omega

/-- Different pages have different slots. -/
lemma slotAddr_inj (h : PageDir mem chunk dir table) {va va' : Word} (hva : va.toNat % 4096 = 0)
    (hva' : va'.toNat % 4096 = 0) (heq : slotAddr table va = slotAddr table va') : va = va' := by
  have hpage := congrArg pageOf heq
  rw [pageOf_slotAddr h, pageOf_slotAddr h] at hpage
  have hdir := h.inj _ (dirIndex_lt va) _ (dirIndex_lt va') hpage
  have htab := congrArg BitVec.toNat heq
  rw [slotAddr_toNat h, slotAddr_toNat h, hdir] at htab
  apply BitVec.eq_of_toNat_eq
  omega

lemma pagingGet_eq (h : PageDir mem chunk dir table) {va : Word} (hva : va.toNat % 4096 = 0) :
    pagingGet mem dir va = read32 mem (slotAddr table va) := by
  simp only [pagingGet, pagingGetIndexes_aligned hva, Option.getD_some, four_mul_dirIndex,
    four_mul_tableIndex]
  rw [h.entry _ (dirIndex_lt va)]
  rfl

lemma pagingSet_eq (h : PageDir mem chunk dir table) {va : Word} (hva : va.toNat % 4096 = 0)
    (value : Word) : pagingSet mem dir va value = (0, write32 mem (slotAddr table va) value) := by
  simp only [pagingSet, pagingGetIndexes_aligned hva, four_mul_dirIndex, four_mul_tableIndex]
  rw [h.entry _ (dirIndex_lt va)]
  rfl

/-- A directory outside the changed pages stays as it is. -/
lemma PageDir.frame (h : PageDir mem chunk dir table) {S : Set ℕ} (hS : SameOff S mem mem')
    (hchunk : pageOf chunk ∉ S) (hdir : pageOf dir ∉ S) : PageDir mem' chunk dir table := by
  refine { h with chunk_word := ?_, entry := ?_ }
  · rw [hS.read32 h.chunk_aligned hchunk, h.chunk_word]
  · intro i hi
    rw [read32_slot_of_sameOff hS h.dir_aligned hdir hi, h.entry i hi]

lemma pagingGet_frame (h : PageDir mem chunk dir table) {S : Set ℕ} (hS : SameOff S mem mem')
    (hchunk : pageOf chunk ∉ S) (hdir : pageOf dir ∉ S)
    (htab : ∀ i < 1024, pageOf (table i) ∉ S) {va : Word} (hva : va.toNat % 4096 = 0) :
    pagingGet mem' dir va = pagingGet mem dir va := by
  rw [pagingGet_eq h hva, pagingGet_eq (h.frame hS hchunk hdir) hva]
  refine hS.read32 (slotAddr_aligned h va) ?_
  rw [pageOf_slotAddr h]
  exact htab _ (dirIndex_lt va)

/-- The pages a directory is read from. -/
def dirPages (chunk dir : Word) (table : ℕ → Word) : Set ℕ :=
  insert (pageOf chunk) (insert (pageOf dir) (tablePages table))

lemma tablePages_subset : tablePages table ⊆ dirPages chunk dir table :=
  (Set.subset_insert _ _).trans (Set.subset_insert _ _)

/-- Writes off its pages leave a directory and all its entries alone. -/
theorem PageDir.unchanged (h : PageDir mem chunk dir table) {S : Set ℕ} (hS : SameOff S mem mem')
    (hoff : Disjoint S (dirPages chunk dir table)) :
    PageDir mem' chunk dir table ∧
    ∀ v : Word, v.toNat % 4096 = 0 → pagingGet mem' dir v = pagingGet mem dir v := by
  have hnot : ∀ p ∈ dirPages chunk dir table, p ∉ S := fun p hp hpS =>
    Set.disjoint_left.1 hoff hpS hp
  have hchunk := hnot (pageOf chunk) (.inl rfl)
  have hdir := hnot (pageOf dir) (.inr (.inl rfl))
  refine ⟨h.frame hS hchunk hdir, fun v hv => pagingGet_frame h hS hchunk hdir (fun i hi => ?_) hv⟩
  exact hnot _ (tablePages_subset ⟨i, hi, rfl⟩)

/-- An update changes one entry of one table. -/
theorem pagingSet_spec (h : PageDir mem chunk dir table) {va : Word} (hva : va.toNat % 4096 = 0)
    (value : Word) :
    (pagingSet mem dir va value).1 = 0 ∧
    PageDir (pagingSet mem dir va value).2 chunk dir table ∧
    SameOff (tablePages table) mem (pagingSet mem dir va value).2 ∧
    ∀ v : Word, v.toNat % 4096 = 0 →
      pagingGet (pagingSet mem dir va value).2 dir v =
        if v = va then value else pagingGet mem dir v := by
  rw [pagingSet_eq h hva]
  have hoff : SameOff {pageOf (table (va.toNat / 4194304))} mem
      (write32 mem (slotAddr table va) value) := by
    have hw := write32_sameOff mem (slotAddr_aligned h va) value
    rwa [pageOf_slotAddr h] at hw
  have hdir : PageDir (write32 mem (slotAddr table va) value) chunk dir table :=
    h.frame hoff (h.chunk_off _ (dirIndex_lt va)) (h.dir_off _ (dirIndex_lt va))
  refine ⟨rfl, hdir, hoff.mono ?_, ?_⟩
  · rintro p rfl
    exact ⟨_, dirIndex_lt va, rfl⟩
  · intro v hv
    rw [pagingGet_eq hdir hv]
    by_cases heq : v = va
    · rw [if_pos heq, heq]
      exact read32_write32 _ _ _
    · rw [if_neg heq, pagingGet_eq h hv]
      exact read32_write32_of_ne (slotAddr_aligned h va) (slotAddr_aligned h v)
        fun hs => heq (slotAddr_inj h hv hva hs)

theorem pagingMap_spec (h : PageDir mem chunk dir table) {va pa : Word}
    (hva : va.toNat % 4096 = 0) (hpa : pa.toNat % 4096 = 0) (flags : Word) :
    (pagingMap mem chunk va pa flags).1 = 0 ∧
    PageDir (pagingMap mem chunk va pa flags).2 chunk dir table ∧
    SameOff (tablePages table) mem (pagingMap mem chunk va pa flags).2 ∧
    ∀ v : Word, v.toNat % 4096 = 0 →
      pagingGet (pagingMap mem chunk va pa flags).2 dir v =
        if v = va then pa ||| flags else pagingGet mem dir v := by
  have heq : pagingMap mem chunk va pa flags = pagingSet mem dir va (pa ||| flags) := by
    unfold pagingMap
    rw [if_neg (by simp only [ne_eq, word_mod_eq_zero]; omega), h.chunk_word]
  rw [heq]
  exact pagingSet_spec h hva _

lemma word_add_page {va : Word} (hva : va.toNat % 4096 = 0) : (va + 4096).toNat % 4096 = 0 := by
  rw [BitVec.toNat_add]
  change (va.toNat + 4096) % 2 ^ 32 % 4096 = 0
  omega

/-- The pages of a range starting one page later, and the first page. -/
lemma sub_page_lt {v va : Word} (hva : va.toNat % 4096 = 0) (hv : v.toNat % 4096 = 0) {k : ℕ}
    (hk : k < 2 ^ 20) : (v - va).toNat < 4096 * (k + 1) ↔
      v = va ∨ (v - (va + 4096)).toNat < 4096 * k := by
  have hvl := v.isLt
  have hval := va.isLt
  have hadd : (va + 4096).toNat = (va.toNat + 4096) % 2 ^ 32 := BitVec.toNat_add _ _
  rw [BitVec.toNat_sub, BitVec.toNat_sub, hadd, ← BitVec.toNat_inj]
  omega

/-- Mapping a range sets the entries of its pages and no others. -/
theorem pagingMapRangeLoop_spec (h : PageDir mem chunk dir table) {va pa : Word}
    (hva : va.toNat % 4096 = 0) (hpa : pa.toNat % 4096 = 0) (flags : Word) {k : ℕ}
    (hk : k ≤ 2 ^ 20) :
    (pagingMapRangeLoop chunk flags k 0 va pa mem).1 = 0 ∧
    PageDir (pagingMapRangeLoop chunk flags k 0 va pa mem).2 chunk dir table ∧
    SameOff (tablePages table) mem (pagingMapRangeLoop chunk flags k 0 va pa mem).2 ∧
    ∀ v : Word, v.toNat % 4096 = 0 →
      pagingGet (pagingMapRangeLoop chunk flags k 0 va pa mem).2 dir v =
        if (v - va).toNat < 4096 * k then (pa + (v - va)) ||| flags else pagingGet mem dir v := by
  induction k generalizing mem va pa with
  | zero =>
    refine ⟨rfl, h, SameOff.refl _ _, fun v _ => ?_⟩
    rw [if_neg (by omega)]
    rfl
  | succ k ih =>
    obtain ⟨hres, hdir, hoff, hget⟩ := pagingMap_spec h hva hpa flags
    have hstep : pagingMapRangeLoop chunk flags (k + 1) 0 va pa mem =
        pagingMapRangeLoop chunk flags k 0 (va + 4096) (pa + 4096)
          (pagingMap mem chunk va pa flags).2 := by
      simp only [pagingMapRangeLoop, hres, lt_self_iff_false, if_false]
    obtain ⟨hres', hdir', hoff', hget'⟩ := ih hdir (word_add_page hva) (word_add_page hpa)
      (by omega)
    rw [hstep]
    refine ⟨hres', hdir', by simpa using hoff.trans hoff', fun v hv => ?_⟩
    rw [hget' v hv]
    have hiff := sub_page_lt hva hv (show k < 2 ^ 20 by omega)
    by_cases hlater : (v - (va + 4096)).toNat < 4096 * k
    · rw [if_pos hlater, if_pos (hiff.2 (.inr hlater))]
      rw [show pa + 4096 + (v - (va + 4096)) = pa + (v - va) by abel]
    · rw [if_neg hlater, hget v hv]
      by_cases heq : v = va
      · rw [if_pos heq, if_pos (hiff.2 (.inl heq)), heq]
        simp
      · have hout : ¬ (v - va).toNat < 4096 * (k + 1) := by
          rw [hiff]
          exact not_or.2 ⟨heq, hlater⟩
        rw [if_neg heq, if_neg hout]

theorem pagingMapTo_spec (h : PageDir mem chunk dir table) {va pa paEnd : Word}
    (hva : va.toNat % 4096 = 0) (hpa : pa.toNat % 4096 = 0) (hend : paEnd.toNat % 4096 = 0)
    (hle : pa.toNat ≤ paEnd.toNat) (flags : Word) :
    (pagingMapTo mem chunk va pa paEnd flags).1 = 0 ∧
    PageDir (pagingMapTo mem chunk va pa paEnd flags).2 chunk dir table ∧
    SameOff (tablePages table) mem (pagingMapTo mem chunk va pa paEnd flags).2 ∧
    ∀ v : Word, v.toNat % 4096 = 0 →
      pagingGet (pagingMapTo mem chunk va pa paEnd flags).2 dir v =
        if (v - va).toNat < paEnd.toNat - pa.toNat then (pa + (v - va)) ||| flags
        else pagingGet mem dir v := by
  have hlt := paEnd.isLt
  have hpages : ((paEnd - pa) / 4096).toNat = (paEnd.toNat - pa.toNat) / 4096 := by
    rw [BitVec.toNat_udiv, BitVec.toNat_sub_of_le hle]
    rfl
  have hcount : ((paEnd - pa) / 4096).toInt.toNat = (paEnd.toNat - pa.toNat) / 4096 := by
    rw [BitVec.toInt_eq_toNat_of_lt (by rw [hpages]; omega), hpages]
    rfl
  have heq : pagingMapTo mem chunk va pa paEnd flags =
      pagingMapRangeLoop chunk flags ((paEnd.toNat - pa.toNat) / 4096) 0 va pa mem := by
    unfold pagingMapTo pagingMapRange
    simp only [ne_eq, word_mod_eq_zero, hva, hpa, hend, not_true_eq_false, if_false, hcount]
    rw [if_neg (by rw [BitVec.lt_def]; omega)]
  have hspec := pagingMapRangeLoop_spec h hva hpa flags
    (show (paEnd.toNat - pa.toNat) / 4096 ≤ 2 ^ 20 by omega)
  rw [show 4096 * ((paEnd.toNat - pa.toNat) / 4096) = paEnd.toNat - pa.toNat by omega] at hspec
  rw [heq]
  exact hspec

lemma pagingAlignAddress_aligned (ptr : Word) : (pagingAlignAddress ptr).toNat % 4096 = 0 := by
  have hmod : (ptr % 4096).toNat = ptr.toNat % 4096 := BitVec.toNat_umod
  have hpage : (4096 : Word).toNat = 4096 := rfl
  have hlt := ptr.isLt
  unfold pagingAlignAddress
  by_cases h0 : ptr.toNat % 4096 = 0
  · rw [if_neg (not_not.2 (word_mod_eq_zero.2 h0))]
    exact h0
  · rw [if_pos (mt word_mod_eq_zero.1 h0), BitVec.toNat_sub, BitVec.toNat_add, hmod, hpage]
    omega

/-- Aligned arguments are never refused, whatever the memory holds. -/
lemma pagingMapRangeLoop_res (chunk flags : Word) (k : ℕ) {va pa : Word}
    (hva : va.toNat % 4096 = 0) (hpa : pa.toNat % 4096 = 0) (mem : Mem) :
    (pagingMapRangeLoop chunk flags k 0 va pa mem).1 = 0 := by
  induction k generalizing va pa mem with
  | zero => rfl
  | succ k ih =>
    have hmap : (pagingMap mem chunk va pa flags).1 = 0 := by
      unfold pagingMap pagingSet
      rw [if_neg (by simp only [ne_eq, word_mod_eq_zero]; omega), pagingGetIndexes_aligned hva]
    simp only [pagingMapRangeLoop, hmap, lt_self_iff_false, if_false]
    exact ih (word_add_page hva) (word_add_page hpa) _

theorem pagingMapTo_res (mem : Mem) (chunk : Word) {va pa paEnd : Word} (hva : va.toNat % 4096 = 0)
    (hpa : pa.toNat % 4096 = 0) (hend : paEnd.toNat % 4096 = 0) (hle : pa.toNat ≤ paEnd.toNat)
    (flags : Word) : (pagingMapTo mem chunk va pa paEnd flags).1 = 0 := by
  unfold pagingMapTo pagingMapRange
  simp only [ne_eq, word_mod_eq_zero, hva, hpa, hend, not_true_eq_false, if_false]
  rw [if_neg (by rw [BitVec.lt_def]; omega)]
  exact pagingMapRangeLoop_res chunk flags _ hva hpa mem

lemma pagingAlignAddress_toNat {ptr : Word} (h : ptr.toNat + 4095 < 2 ^ 32) :
    (pagingAlignAddress ptr).toNat = (ptr.toNat + 4095) / 4096 * 4096 := by
  have hmod : (ptr % 4096).toNat = ptr.toNat % 4096 := BitVec.toNat_umod
  have hpage : (4096 : Word).toNat = 4096 := rfl
  unfold pagingAlignAddress
  by_cases h0 : ptr.toNat % 4096 = 0
  · rw [if_neg (not_not.2 (word_mod_eq_zero.2 h0))]
    omega
  · rw [if_pos (mt word_mod_eq_zero.1 h0)]
    have hadd : (ptr + 4096).toNat = ptr.toNat + 4096 := by
      rw [BitVec.toNat_add, hpage]
      omega
    rw [BitVec.toNat_sub_of_le (by rw [BitVec.le_def, hmod, hadd]; omega), hmod, hadd]
    omega

/-- What `paging_map_to` asks of its arguments. -/
def MapToArgs (va pa paEnd : Word) : Prop :=
  va.toNat % 4096 = 0 ∧ pa.toNat % 4096 = 0 ∧ paEnd.toNat % 4096 = 0 ∧ pa.toNat ≤ paEnd.toNat

instance (va pa paEnd : Word) : Decidable (MapToArgs va pa paEnd) :=
  inferInstanceAs (Decidable (_ ∧ _))

/-- The refusals come before the first page. -/
lemma pagingMapTo_refuses {va pa paEnd : Word} (h : ¬ MapToArgs va pa paEnd) (mem : Mem) (chunk flags : Word) :
    pagingMapTo mem chunk va pa paEnd flags = (-einvarg, mem) := by
  unfold pagingMapTo
  simp only [ne_eq, word_mod_eq_zero]
  by_cases hva : va.toNat % 4096 = 0
  · rw [if_neg (not_not.2 hva)]
    by_cases hpa : pa.toNat % 4096 = 0
    · rw [if_neg (not_not.2 hpa)]
      by_cases hend : paEnd.toNat % 4096 = 0
      · rw [if_neg (not_not.2 hend)]
        apply if_pos
        have hlt : ¬ pa.toNat ≤ paEnd.toNat := fun hle => h ⟨hva, hpa, hend, hle⟩
        rw [BitVec.lt_def]
        omega
      · rw [if_pos hend]
    · rw [if_pos hpa]
  · rw [if_pos hva]

end AlphaOS.Paging
