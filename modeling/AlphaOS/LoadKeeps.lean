import AlphaOS.BlockKeeps
import AlphaOS.ProcessLoadSpec

/-! What a load leaves of the blocks of others, and what it allocates. -/
namespace AlphaOS.Elf
open BlockHeap Kheap Paging Tasks WordMemory

variable {files : FileCalls} {K : Set ℕ} {s : Kmem} {b f : ℕ}

/-- The file layer keeps the blocks of `K` and the `elf_file`; `fread` writes to the image, which
stays allocated. -/
structure FileCalls.Respects (files : FileCalls) (K : Set ℕ) (s : Kmem) : Prop where
  fopen : Keeps (K ∪ fileBlock s) (fileStep s).2 (openStep files s).2
  fstat : Keeps (K ∪ fileBlock s) (openStep files s).2 (statStep files s).2.2
  read : Keeps (K ∪ fileBlock s) (storeStep files s) (readStep files s).2
  fclose : Keeps (K ∪ fileBlock s) (closeStep files s) (elfLoad files s).2.2
  readImage : ∀ b, (imageStep files s).1 = blockAddr b →
    Pinned (storeStep files s).entries b 1 → Pinned (readStep files s).2.entries b 1
  fcloseImage : ∀ b, (imageStep files s).1 = blockAddr b →
    Pinned (closeStep files s).entries b 1 → Pinned (elfLoad files s).2.2.entries b 1

/-- The image is less than half of the address space, or there is none. -/
def Sizable (files : FileCalls) (s : Kmem) : Prop :=
  (imageStep files s).1 = 0 ∨ (statStep files s).2.1.toNat < 2 ^ 31

/-- The `elf_file` takes a free block that is pinned from then on. -/
lemma fileStep_pinned (hs : Linked s.entries) (hb : b ∈ fileBlock s) :
    IsFree s.entries b ∧ Pinned (fileStep s).2.entries b 1 := by
  obtain ⟨hlt, heq⟩ := hb
  obtain ⟨c, hc, hcb, hfree, hpin⟩ := @Linked.kzalloc_pinned s 132 hs (by
    change (fileStep s).1 ≠ 0
    rw [heq]
    exact blockAddr_ne_zero (by omega)) (by decide)
  obtain rfl : c = b := blockAddr_inj (by omega) (by omega) (hcb.symm.trans heq)
  exact ⟨hfree, hpin⟩

/-- The pages the loader writes to through the pointer to the `elf_file`. -/
lemma file_page {x : Word} {n m : ℕ} (hn : n + m ≤ 4096)
    (hx : InRange ((fileStep s).1 + BitVec.ofNat 32 n) m x) (hpage : pageOf x = 4096 + b) :
    b ∈ fileBlock s := by
  have hlt := x.isLt
  unfold InRange at hx
  unfold pageOf at hpage
  rcases fileStep_cases s with heq | ⟨f, hf, -, heq, -⟩
  · have hnull : (fileStep s).1 = 0 := congrArg Prod.fst heq
    rw [hnull, zero_add, BitVec.toNat_sub, BitVec.toNat_ofNat] at hx
    omega
  · have haddr : (fileStep s).1 = blockAddr f := congrArg Prod.fst heq
    have hsum := toNat_add_ofNat (a := blockAddr f) (k := n) (by
      rw [blockAddr_toNat (by omega)]
      omega)
    rw [haddr, BitVec.toNat_sub, hsum, blockAddr_toNat (by omega)] at hx
    obtain rfl : b = f := by omega
    exact ⟨hf, haddr⟩

lemma not_fileBlock (hs : Linked s.entries) (hK : ∀ b ∈ K, b < 25600 ∧ Pinned s.entries b 1)
    (hb : b ∈ K) : b ∉ fileBlock s := fun hfile =>
  (hK b hb).2.not_free (fileStep_pinned hs hfile).1

section Pins
variable (h : files.Respects K s) (hK : ∀ b ∈ K, b < 25600 ∧ Pinned s.entries b 1)
include h

/-- The load leaves the table linked, whatever the size of the image. -/
theorem FileCalls.Respects.elfLoad_linked (hs : Linked s.entries) :
    Linked (elfLoad files s).2.2.entries := by
  have hfile : Linked (fileStep s).2.entries := hs.kzalloc 132
  have hstat := h.fstat.linked (h.fopen.linked hfile)
  have hread := h.read.linked (hstat.kzalloc (statStep files s).2.1)
  refine h.fclose.linked ?_
  rw [closeStep_eq]
  split_ifs
  · exact h.fopen.linked hfile
  · exact hstat
  · exact hread
  · exact hread

include hK

lemma FileCalls.Respects.image_pins (hb : b ∈ K ∪ fileBlock s)
    (hpin : Pinned (fileStep s).2.entries b 1) : Pinned (imageStep files s).2.entries b 1 := by
  have hlt : b < 25600 := hb.elim (fun hmem => (hK b hmem).1) fun hfile => hfile.1
  exact ((h.fopen.trans h.fstat).pinned b hb hpin).kzalloc one_pos (by omega) _

/-- It leaves the blocks of others and the `elf_file` taken. -/
theorem FileCalls.Respects.elfLoad_pins (hb : b ∈ K ∪ fileBlock s)
    (hpin : Pinned (fileStep s).2.entries b 1) : Pinned (elfLoad files s).2.2.entries b 1 := by
  have hread := h.read.pinned b hb (h.image_pins hK hb hpin)
  refine h.fclose.pinned b hb ?_
  rw [closeStep_eq]
  split_ifs
  · exact h.fopen.pinned b hb hpin
  · exact (h.fopen.trans h.fstat).pinned b hb hpin
  · exact hread
  · exact hread

/-- The `elf_file` of a load stays allocated. -/
theorem FileCalls.Respects.file_pinned (hs : Linked s.entries) (hb : b ∈ fileBlock s) :
    Pinned (elfLoad files s).2.2.entries b 1 :=
  h.elfLoad_pins hK (.inr hb) (fileStep_pinned hs hb).2

/-- A file that is handed out points to its image. -/
theorem FileCalls.Respects.image_word (hs : Linked s.entries) (hload : Loads files s)
    (hfile : (fileStep s).1 ≠ 0) :
    elfMemory (elfLoad files s).2.2.mem (fileStep s).1 = (imageStep files s).1 := by
  obtain ⟨f, hf, -, heq, -⟩ := (fileStep_cases s).resolve_left fun heq => hfile (by rw [heq])
  have haddr : (fileStep s).1 = blockAddr f := by rw [heq]
  have hmem : f ∈ K ∪ fileBlock s := .inr ⟨hf, haddr⟩
  have himage := h.image_pins hK hmem (fileStep_pinned hs ⟨hf, haddr⟩).2
  have hclose : closeStep files s = (readStep files s).2.withMem (loadStep files s).2 := by
    rw [closeStep_eq, if_neg (not_le.2 hload.opened), if_neg hload.stat, if_neg hload.read]
  have hclosed : Pinned (closeStep files s).entries f 1 := by
    rw [hclose]
    exact h.read.pinned f hmem himage
  have hword : ∀ {t t' : Kmem}, (∀ x, pageOf x = 4096 + f → t'.mem x = t.mem x) →
      elfMemory t'.mem (fileStep s).1 = elfMemory t.mem (fileStep s).1 := by
    intro t t' hsame
    refine read32_eq_of_same fun x hx => hsame x ?_
    rw [haddr] at hx
    exact elfMemory_page hf hx
  rw [hword (h.fclose.mem f hmem hclosed), hclose]
  change elfMemory (loadStep files s).2 _ = _
  rw [loadStep, elfMemory_elfProcessLoaded, hword (h.read.mem f hmem himage)]
  exact read32_write32 _ _ _

end Pins

section Chain
variable (h : files.Respects K s) (hs : Linked s.entries) (hsize : Sizable files s)
  (hK : ∀ b ∈ K, b < 25600 ∧ Pinned s.entries b 1)
include h hsize hK

/-- Until the image is allocated. -/
lemma FileCalls.Respects.image_keeps : Keeps (K ∪ fileBlock s) (fileStep s).2 (imageStep files s).2 := by
  refine (h.fopen.trans h.fstat).trans (keeps_kzalloc ?_ hsize)
  rintro b (hb | hb)
  · exact (hK b hb).1
  · exact hb.1

include hs
omit h hsize

/-- The stores to the `elf_file` are none to the blocks of `K`. -/
lemma store_keeps : Keeps K (imageStep files s).2 (storeStep files s) := by
  refine ⟨fun hl => hl, fun _ _ hpin => hpin, fun b hb _ x hx => if_neg fun hin => ?_⟩
  exact not_fileBlock hs hK hb (file_page (n := 112) (by omega) hin hx)

lemma load_keeps :
    Keeps K (readStep files s).2 ((readStep files s).2.withMem (loadStep files s).2) := by
  refine ⟨fun hl => hl, fun _ _ hpin => hpin, fun b hb _ x hx => ?_⟩
  refine elfProcessLoaded_frame fun hin => ?_
  exact not_fileBlock hs hK hb (file_page (n := 116) (by omega) hin hx)

include h hsize

lemma FileCalls.Respects.read_keeps : Keeps K (fileStep s).2 (readStep files s).2 :=
  (((h.image_keeps hsize hK).mono Set.subset_union_left).trans
    (store_keeps hs hK)).trans (h.read.mono Set.subset_union_left)

lemma FileCalls.Respects.close_keeps : Keeps K (fileStep s).2 (closeStep files s) := by
  have hleft : K ⊆ K ∪ fileBlock s := Set.subset_union_left
  rw [closeStep_eq]
  split_ifs
  · exact h.fopen.mono hleft
  · exact (h.fopen.trans h.fstat).mono hleft
  · exact h.read_keeps hs hsize hK
  · exact (h.read_keeps hs hsize hK).trans (load_keeps hs hK)

/-- A load keeps the blocks of others. -/
theorem FileCalls.Respects.elfLoad_keeps : Keeps K s (elfLoad files s).2.2 :=
  ((keeps_kzalloc (fun b hb => (hK b hb).1) (.inr (by decide))).trans
    (h.close_keeps hs hsize hK)).trans (h.fclose.mono Set.subset_union_left)

/-- The image is null or stays allocated. -/
theorem FileCalls.Respects.image_pinned (hload : Loads files s) :
    (imageStep files s).1 = 0 ∨ ∃ b < 25600, (imageStep files s).1 = blockAddr b ∧
      Pinned (elfLoad files s).2.2.entries b 1 ∧ ∀ c ∈ K ∪ fileBlock s, c ≠ b := by
  by_cases hnull : (imageStep files s).1 = 0
  · exact .inl hnull
  have hclose : closeStep files s = (readStep files s).2.withMem (loadStep files s).2 := by
    rw [closeStep_eq, if_neg (not_le.2 hload.opened), if_neg hload.stat, if_neg hload.read]
  have hne : (statStep files s).2.1 ≠ 0 := by
    intro hzero
    refine hload.read ?_
    rw [readStep, FileCalls.fread, if_pos (.inl hzero)]
    exact neg_neg_of_pos (by decide)
  have hlt : (statStep files s).2.1.toNat < 2 ^ 31 := hsize.resolve_left hnull
  have hpos : 0 < (heapBlocksFor (statStep files s).2.1).toNat := by
    have hblocks := heapBlocksFor_eq (statStep files s).2.1
    have hone : (statStep files s).2.1.toNat ≠ 0 := fun h0 => hne (BitVec.eq_of_toNat_eq h0)
    omega
  have hkeep := h.fopen.trans h.fstat
  have hlinked := hkeep.linked (hs.kzalloc 132)
  obtain ⟨b, hb, hbeq, hfree, hbpin⟩ := hlinked.kzalloc_pinned hnull hpos
  refine .inr ⟨b, hb, hbeq, h.fcloseImage b hbeq ?_, ?_⟩
  · rw [hclose]
    exact h.readImage b hbeq hbpin
  · rintro c hc rfl
    refine (hkeep.pinned c hc ?_).not_free hfree
    rcases hc with hc | hc
    · exact (keeps_kzalloc (K := K) (fun b hb => (hK b hb).1) (.inr (by decide))).pinned c hc
        (hK c hc).2
    · exact (fileStep_pinned hs hc).2

end Chain

end AlphaOS.Elf
