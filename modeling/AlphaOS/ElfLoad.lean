import AlphaOS.Elf
import AlphaOS.KheapBlocks
import AlphaOS.PagingAlloc

/-! What `elf_load` leaves in memory, for any file layer that keeps away from the blocks of
others. -/
namespace AlphaOS.Elf
open BlockHeap Kheap Paging Tasks WordMemory

/-- From `s` to `s'` the blocks of `K` stay taken and keep their contents. -/
structure Spared (K : Set ℕ) (s s' : Kmem) : Prop where
  taken : ∀ b ∈ K, ¬ IsFree s.entries b → ¬ IsFree s'.entries b
  mem : ∀ x, (∃ b ∈ K, pageOf x = 4096 + b) → s'.mem x = s.mem x

variable {K : Set ℕ} {s s' : Kmem}

lemma Spared.refl (K : Set ℕ) (s : Kmem) : Spared K s s := ⟨fun _ _ h => h, fun _ _ => rfl⟩

/-- The pointer to the image lies in the block of the `elf_file`. -/
lemma elfMemory_page {f : ℕ} (hf : f < 25600) {x : Word} (hx : InRange (blockAddr f + 112) 4 x) :
    pageOf x = 4096 + f := by
  have hword := toNat_add_ofNat (a := blockAddr f) (k := 112) (by
    rw [blockAddr_toNat (by omega)]
    omega)
  rw [blockAddr_toNat (by omega)] at hword
  rw [InRange.pageOf_eq (a := blockAddr f + 112) (hword ▸ by omega) hx]
  exact pageOf_blockAddr_add (k := 112) hf (by omega)

/-! The steps of a load. -/

section Steps
variable (files : FileCalls) (s : Kmem)

/-- The `elf_file`, which takes at most one block. -/
def fileStep : Word × Kmem := kzalloc s 132

def openStep : ℤ × Kmem := files.fopen (fileStep s).2

def statStep : ℤ × Word × Kmem := files.fstat (openStep files s).2 (openStep files s).1

def imageStep : Word × Kmem := kzalloc (statStep files s).2.2 (statStep files s).2.1

/-- The image's address is stored in the `elf_file`. -/
def storeStep : Kmem :=
  (imageStep files s).2.withMem
    (write32 (imageStep files s).2.mem ((fileStep s).1 + 112) (imageStep files s).1)

def readStep : ℤ × Kmem :=
  files.fread (storeStep files s) (elfMemory (storeStep files s).mem (fileStep s).1)
    (statStep files s).2.1 1 (openStep files s).1

def loadStep : ℤ × Mem := elfProcessLoaded (readStep files s).2.mem (fileStep s).1

/-- The state in which the file is closed. -/
def closeStep : Kmem :=
  if (openStep files s).1 ≤ 0 then (openStep files s).2
  else (elfLoadImage files (openStep files s).2 (fileStep s).1 (openStep files s).1).2

/-- The blocks of the image. -/
def imageBlocks : Set ℕ :=
  {b | ∃ a, (imageStep files s).1 = blockAddr a ∧ a ≤ b ∧ b < 25600 ∧
    b < a + (heapBlocksFor (statStep files s).2.1).toNat}

def fileBlock : Set ℕ := {b | b < 25600 ∧ (fileStep s).1 = blockAddr b}

end Steps

/-- In the states the load reaches, the file layer leaves alone the blocks of `K`, and from when they
are allocated on the `elf_file` and the image; `fread` writes only to the image, which is none of the
others. -/
structure FileCalls.Spares (files : FileCalls) (K : Set ℕ) (s : Kmem) : Prop where
  fopen : Spared (K ∪ fileBlock s) (fileStep s).2 (openStep files s).2
  fstat : Spared (K ∪ fileBlock s) (openStep files s).2 (statStep files s).2.2
  read : Spared (K ∪ fileBlock s) (storeStep files s) (readStep files s).2
  readImage : ∀ b ∈ imageBlocks files s,
    ¬ IsFree (storeStep files s).entries b → ¬ IsFree (readStep files s).2.entries b
  fclose : Spared (K ∪ fileBlock s) (closeStep files s) (elfLoad files s).2.2
  fcloseImage : Spared (imageBlocks files s) (closeStep files s) (elfLoad files s).2.2

/-- The file was opened, read and accepted. -/
structure Loads (files : FileCalls) (s : Kmem) : Prop where
  opened : 0 < (openStep files s).1
  stat : ¬ (statStep files s).1 < 0
  read : ¬ (readStep files s).1 < 0
  accepted : ¬ (loadStep files s).1 < 0

lemma elfLoadImage_eq (files : FileCalls) (s : Kmem) :
    elfLoadImage files (openStep files s).2 (fileStep s).1 (openStep files s).1 =
      if (statStep files s).1 < 0 then ((statStep files s).1, (statStep files s).2.2)
      else if (readStep files s).1 < 0 then readStep files s
      else ((loadStep files s).1, (readStep files s).2.withMem (loadStep files s).2) := rfl

lemma closeStep_eq (files : FileCalls) (s : Kmem) : closeStep files s =
    if (openStep files s).1 ≤ 0 then (openStep files s).2
    else if (statStep files s).1 < 0 then (statStep files s).2.2
    else if (readStep files s).1 < 0 then (readStep files s).2
    else (readStep files s).2.withMem (loadStep files s).2 := by
  rw [closeStep, elfLoadImage_eq]
  split_ifs <;> rfl

lemma Loads.closeStep_eq {files : FileCalls} (h : Loads files s) :
    closeStep files s = (readStep files s).2.withMem (loadStep files s).2 := by
  rw [Elf.closeStep_eq, if_neg (not_le.2 h.opened), if_neg h.stat, if_neg h.read]

/-- An accepted file is handed out, with its image as it was read. -/
lemma Loads.elfLoad_eq {files : FileCalls} (h : Loads files s) : elfLoad files s =
    (0, (fileStep s).1,
      files.fclose ((readStep files s).2.withMem (loadStep files s).2) (openStep files s).1) := by
  have himage := elfLoadImage_eq files s
  rw [if_neg h.stat, if_neg h.read] at himage
  have hopen : ¬ (files.fopen (kzalloc s 132).2).1 ≤ 0 := not_le.2 h.opened
  change elfLoadImage files (files.fopen (kzalloc s 132).2).2 (kzalloc s 132).1
    (files.fopen (kzalloc s 132).2).1 = _ at himage
  rw [elfLoad]
  dsimp only
  rw [if_neg hopen, himage]
  dsimp only
  rw [if_neg h.accepted]
  rfl

/-- Any other load hands out null. -/
lemma elfLoad_null {files : FileCalls} (h : ¬ Loads files s) : (elfLoad files s).2.1 = 0 := by
  have himage := elfLoadImage_eq files s
  change elfLoadImage files (files.fopen (kzalloc s 132).2).2 (kzalloc s 132).1
    (files.fopen (kzalloc s 132).2).1 = _ at himage
  rw [elfLoad]
  dsimp only
  split_ifs with hopen hneg
  · rfl
  · rfl
  · exfalso
    rw [himage] at hneg
    have hstat : ¬ (statStep files s).1 < 0 := fun hlt => hneg (by rwa [if_pos hlt])
    rw [if_neg hstat] at hneg
    have hread : ¬ (readStep files s).1 < 0 := fun hlt => hneg (by rwa [if_pos hlt])
    rw [if_neg hread] at hneg
    exact h ⟨not_le.1 hopen, hstat, hread, hneg⟩

/-- A file that was handed out was loaded. -/
lemma Loads.of_handed {files : FileCalls} (h : (elfLoad files s).2.1 ≠ 0) :
    Loads files s ∧ (elfLoad files s).2.1 = (fileStep s).1 := by
  have hloads : Loads files s := by
    by_contra hnot
    exact h (elfLoad_null hnot)
  exact ⟨hloads, by rw [hloads.elfLoad_eq]⟩

lemma elfLoad_fst (files : FileCalls) (s : Kmem) : (elfLoad files s).1 = 0 := by
  rw [elfLoad]
  dsimp only
  split_ifs <;> rfl

/-! The pass over the program headers writes four words of the `elf_file`. -/

lemma inRange_add {a x c : Word} {m n : ℕ} (hc : c.toNat + m ≤ n) (hn : n < 2 ^ 32)
    (h : InRange (a + c) m x) : InRange a n x := by
  have hsub : x - a = (x - (a + c)) + c := by abel
  have hlt : (x - (a + c)).toNat < m := h
  rw [InRange, hsub, BitVec.toNat_add]
  omega

lemma write32_inRange {mem : Mem} {a v x c : Word} (hc : c.toNat + 4 ≤ 16) (h : ¬ InRange a 16 x) :
    write32 mem (a + c) v x = mem x :=
  if_neg fun hin => h (inRange_add hc (by omega) hin)

variable {mem : Mem} {file phdr header x : Word}

lemma elfLowerBase_frame (hx : ¬ InRange (file + 116) 16 x) : elfLowerBase mem file phdr x = mem x := by
  have hfirst : file + 116 = file + 116 + 0 := (add_zero _).symm
  have hlast : file + 124 = file + 116 + 8 := by
    rw [add_assoc]
    rfl
  unfold elfLowerBase
  dsimp only
  split_ifs
  · rw [hlast, write32_inRange (by decide) hx]
    conv_lhs => rw [hfirst]
    rw [write32_inRange (by decide) hx]
  · rfl

lemma elfProcessPheader_frame (hx : ¬ InRange (file + 116) 16 x) :
    elfProcessPheader mem file phdr x = mem x := by
  have hend : file + 120 = file + 116 + 4 := by
    rw [add_assoc]
    rfl
  have hlast : file + 128 = file + 116 + 12 := by
    rw [add_assoc]
    rfl
  unfold elfProcessPheader elfProcessPhdrPtLoad
  dsimp only
  split_ifs
  · rw [hlast, write32_inRange (by decide) hx, hend, write32_inRange (by decide) hx,
      elfLowerBase_frame hx]
  · exact elfLowerBase_frame hx
  · rfl

lemma elfProcessPheadersLoop_frame (hx : ¬ InRange (file + 116) 16 x) (k i : ℕ) :
    elfProcessPheadersLoop file header k i mem x = mem x := by
  induction k generalizing i mem with
  | zero => rfl
  | succ k ih =>
    rw [elfProcessPheadersLoop]
    split_ifs
    · rw [ih, elfProcessPheader_frame hx]
    · rfl

lemma elfProcessLoaded_frame (hx : ¬ InRange (file + 116) 16 x) :
    (elfProcessLoaded mem file).2 x = mem x := by
  unfold elfProcessLoaded
  dsimp only
  split_ifs
  · rfl
  · exact elfProcessPheadersLoop_frame hx _ _

/-- The pointer to the image is not one of them. -/
lemma elfMemory_of_frame {mem' : Mem} (h : ∀ x, ¬ InRange (file + 116) 16 x → mem' x = mem x) :
    elfMemory mem' file = elfMemory mem file := by
  refine read32_eq_of_same fun x hx => h x fun hin => ?_
  have hsub : x - (file + 116) = (x - (file + 112)) - 4 := by
    rw [sub_sub, add_assoc]
    rfl
  have hlt : (x - (file + 112)).toNat < 4 := hx
  have hin' : (x - (file + 116)).toNat < 16 := hin
  rw [hsub, BitVec.toNat_sub] at hin'
  change (2 ^ 32 - 4 + (x - (file + 112)).toNat) % 2 ^ 32 < 16 at hin'
  omega

lemma elfMemory_elfProcessLoaded : elfMemory (elfProcessLoaded mem file).2 file = elfMemory mem file :=
  elfMemory_of_frame fun _ hx => elfProcessLoaded_frame hx

/-! The blocks of others and the loader's own stay taken. -/

section Contract
variable {files : FileCalls} {b : ℕ}

/-- The new `elf_file`, unless there is none. -/
lemma fileStep_cases (s : Kmem) : fileStep s = (0, s) ∨ ∃ f < 25600, IsFree s.entries f ∧
    fileStep s = (blockAddr f, (fileStep s).2) ∧ (fileStep s).2.entries f = blockEntry 1 0 := by
  rcases kzalloc_single s (show (heapBlocksFor 132).toNat = 1 by decide) with
    ⟨-, heq⟩ | ⟨f, hf, hfree, heq⟩
  · exact .inl heq
  · refine .inr ⟨f, hf, hfree, ?_, ?_⟩
    · rw [fileStep, heq]
    · rw [fileStep, heq]
      exact (take_one_entries s f f).trans (if_pos rfl)

/-- The blocks of `K` and the `elf_file`'s are taken from the first step on. -/
lemma fileStep_taken (hK : ∀ b ∈ K, b < 25600 ∧ ¬ IsFree s.entries b) (hb : b ∈ K ∪ fileBlock s) :
    b < 25600 ∧ ¬ IsFree (fileStep s).2.entries b := by
  rcases hb with hb | ⟨hlt, hfile⟩
  · obtain ⟨hlt, hnot⟩ := hK b hb
    rw [IsFree, fileStep, kzalloc_taken s 132 hlt hnot]
    exact ⟨hlt, hnot⟩
  · refine ⟨hlt, ?_⟩
    rcases fileStep_cases s with heq | ⟨f, hf, -, heq, hentry⟩
    · rw [heq] at hfile
      exact absurd hfile.symm (blockAddr_ne_zero (by omega))
    · rw [heq] at hfile
      obtain rfl := blockAddr_inj (by omega) (by omega) hfile
      rw [IsFree, hentry, blockEntry_type]
      decide

lemma FileCalls.Spares.openStep_taken (h : files.Spares K s)
    (hK : ∀ b ∈ K, b < 25600 ∧ ¬ IsFree s.entries b) (hb : b ∈ K ∪ fileBlock s) :
    ¬ IsFree (openStep files s).2.entries b :=
  h.fopen.taken b hb (fileStep_taken hK hb).2

lemma FileCalls.Spares.statStep_taken (h : files.Spares K s)
    (hK : ∀ b ∈ K, b < 25600 ∧ ¬ IsFree s.entries b) (hb : b ∈ K ∪ fileBlock s) :
    ¬ IsFree (statStep files s).2.2.entries b :=
  h.fstat.taken b hb (h.openStep_taken hK hb)

lemma FileCalls.Spares.readStep_taken (h : files.Spares K s)
    (hK : ∀ b ∈ K, b < 25600 ∧ ¬ IsFree s.entries b) (hb : b ∈ K ∪ fileBlock s) :
    ¬ IsFree (readStep files s).2.entries b := by
  refine h.read.taken b hb ?_
  have hstat := h.statStep_taken hK hb
  change ¬ IsFree (imageStep files s).2.entries b
  rw [IsFree, imageStep, kzalloc_taken _ _ (fileStep_taken hK hb).1 hstat]
  exact hstat

/-- A load, failed or not, frees neither the blocks of `K` nor the `elf_file`'s. -/
theorem FileCalls.Spares.elfLoad_taken (h : files.Spares K s)
    (hK : ∀ b ∈ K, b < 25600 ∧ ¬ IsFree s.entries b) (hb : b ∈ K ∪ fileBlock s) :
    ¬ IsFree (elfLoad files s).2.2.entries b := by
  refine h.fclose.taken b hb ?_
  rw [closeStep_eq]
  split_ifs
  · exact h.openStep_taken hK hb
  · exact h.statStep_taken hK hb
  · exact h.readStep_taken hK hb
  · exact h.readStep_taken hK hb

/-- `fread` leaves the pointer to the image alone. -/
lemma FileCalls.Spares.elfMemory_readStep (h : files.Spares K s) (hfile : (fileStep s).1 ≠ 0) :
    elfMemory (readStep files s).2.mem (fileStep s).1 = (imageStep files s).1 := by
  obtain ⟨f, hf, -, heq, -⟩ := (fileStep_cases s).resolve_left fun heq => hfile (by rw [heq])
  have haddr : (fileStep s).1 = blockAddr f := by rw [heq]
  have hstore : elfMemory (storeStep files s).mem (fileStep s).1 = (imageStep files s).1 :=
    read32_write32 _ _ _
  rw [← hstore]
  refine read32_eq_of_same fun x hx => h.read.mem x ⟨f, .inr ⟨hf, haddr⟩, ?_⟩
  rw [haddr] at hx
  exact elfMemory_page hf hx

/-- A loaded file points to its image. -/
theorem FileCalls.Spares.elfMemory_eq (h : files.Spares K s) (hload : Loads files s)
    (hfile : (fileStep s).1 ≠ 0) :
    elfMemory (elfLoad files s).2.2.mem (fileStep s).1 = (imageStep files s).1 := by
  obtain ⟨f, hf, -, heq, -⟩ := (fileStep_cases s).resolve_left fun heq => hfile (by rw [heq])
  have haddr : (fileStep s).1 = blockAddr f := by rw [heq]
  have hclose : elfMemory (elfLoad files s).2.2.mem (fileStep s).1 =
      elfMemory (closeStep files s).mem (fileStep s).1 := by
    refine read32_eq_of_same fun x hx => h.fclose.mem x ⟨f, .inr ⟨hf, haddr⟩, ?_⟩
    rw [haddr] at hx
    exact elfMemory_page hf hx
  rw [hclose, hload.closeStep_eq, Kmem.withMem_mem, loadStep, elfMemory_elfProcessLoaded,
    h.elfMemory_readStep hfile]

/-- The blocks of the image stay taken. -/
theorem FileCalls.Spares.image_taken (h : files.Spares K s) (hload : Loads files s)
    (hb : b ∈ imageBlocks files s) (htaken : ¬ IsFree (imageStep files s).2.entries b) :
    ¬ IsFree (elfLoad files s).2.2.entries b := by
  refine h.fcloseImage.taken b hb ?_
  rw [hload.closeStep_eq]
  exact h.readImage b hb htaken

end Contract

end AlphaOS.Elf
