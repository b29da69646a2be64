import AlphaOS.LoadHeaders
import AlphaOS.RunningExtremum

/-! The addresses `elf_process_pheaders` works out of the headers of type `PT_LOAD`: the lowest
virtual address, where that segment is, and the end. Zero stands for an address not yet set. -/
namespace AlphaOS.Processes
open BlockHeap CString Elf Kheap Paging RunningExtremum Tasks WordMemory

def elfVirtualBase (mem : Mem) (file : Word) : Word := read32 mem (file + 116)

def elfVirtualEnd (mem : Mem) (file : Word) : Word := read32 mem (file + 120)

def elfPhysBase (mem : Mem) (file : Word) : Word := read32 mem (file + 124)

def elfPhysEnd (mem : Mem) (file : Word) : Word := read32 mem (file + 128)

/-- Where a segment ends in virtual memory. -/
def memoryEnd (h : Phdr) : ℕ := h.vaddr.toNat + h.memsz.toNat

/-- Where the loader takes it to end. -/
def loadedEnd (h : Phdr) : Word := h.paddr + h.filesz

/-- A segment as the one with the lowest address so far, and with the highest end. -/
def keepLow : Option Phdr → Phdr → Option Phdr := keep (· ≤ ·) (fun h => h.vaddr.toNat) 0

def keepHigh : Option Phdr → Phdr → Option Phdr := keep (· ≥ ·) (fun h => (loadedEnd h).toNat) 0

/-- The segment whose address the loader keeps as the lowest one. -/
def lowSegment : List Phdr → Option Phdr := kept (· ≤ ·) (fun h => h.vaddr.toNat) 0

/-- The segment whose end it keeps as the highest one. -/
def highSegment : List Phdr → Option Phdr := kept (· ≥ ·) (fun h => (loadedEnd h).toNat) 0

/-- An `elf_file` whose image holds the file, away from the addresses the loader stores. -/
structure Imaged (mem : Mem) (ptr image : Word) (file : List Byte) : Prop where
  pointer : elfMemory mem ptr = image
  holds : HoldsFile mem image file
  apart : ∀ n < file.length, ¬ InRange (ptr + 116) 16 (image + BitVec.ofNat 32 n)

/-- One that `elf_load` has just read: no address is set. -/
structure Fresh (mem : Mem) (ptr image : Word) (file : List Byte) : Prop
    extends Imaged mem ptr image file where
  base : elfVirtualBase mem ptr = 0
  last : elfVirtualEnd mem ptr = 0

/-- The addresses in the `elf_file` are those of two segments, or not yet set. -/
structure Marks (mem : Mem) (ptr image : Word) (low high : Option Phdr) : Prop where
  base : elfVirtualBase mem ptr = low.elim 0 (·.vaddr)
  physBase : ∀ h, low = some h → elfPhysBase mem ptr = image + h.offset
  last : elfVirtualEnd mem ptr = high.elim 0 loadedEnd
  physLast : ∀ h, high = some h → elfPhysEnd mem ptr = image + h.offset + h.filesz

/-- What the addresses are after `elf_process_pheaders`: the lowest of the segments with its place
in the image, and the end of all, whatever the order of the headers in the file. -/
structure ExtentLaw (mem : Mem) (ptr image : Word) (file : List Byte) : Prop where
  base : ((loadable (fileHeaders file)).map (·.vaddr.toNat)).min? =
    some (elfVirtualBase (elfProcessPheaders mem ptr) ptr).toNat
  physBase : ∃ h ∈ loadable (fileHeaders file),
    h.vaddr = elfVirtualBase (elfProcessPheaders mem ptr) ptr ∧
      elfPhysBase (elfProcessPheaders mem ptr) ptr = image + h.offset
  last : ((loadable (fileHeaders file)).map memoryEnd).max? =
    some (elfVirtualEnd (elfProcessPheaders mem ptr) ptr).toNat
  order : ∀ mem' ptr' image' file', Fresh mem' ptr' image' file' →
    (fileHeaders file').Perm (fileHeaders file) →
      elfVirtualBase (elfProcessPheaders mem' ptr') ptr' =
        elfVirtualBase (elfProcessPheaders mem ptr) ptr ∧
      elfVirtualEnd (elfProcessPheaders mem' ptr') ptr' =
        elfVirtualEnd (elfProcessPheaders mem ptr) ptr

/-! One header. -/

section Header
variable {mem mem' : Mem} {ptr image a v c d : Word} {file : List Byte} {low high : Option Phdr}
  {h : Phdr}

/-- The words of the `elf_file` do not overlap. -/
lemma read32_write32_field (hlow : 4 ≤ (d - c).toNat) (hhigh : (d - c).toNat ≤ 2 ^ 32 - 4) :
    read32 (write32 mem (ptr + c) v) (ptr + d) = read32 mem (ptr + d) := by
  refine read32_eq_of_same fun x hx => if_neg fun hin => ?_
  have hsub : x - (ptr + c) = (x - (ptr + d)) + (d - c) := by abel
  have hlt : (x - (ptr + d)).toNat < 4 := hx
  have hlt' : (x - (ptr + c)).toNat < 4 := hin
  rw [hsub, BitVec.toNat_add] at hlt'
  omega

lemma Imaged.of_frame (h : Imaged mem ptr image file)
    (hframe : ∀ x, ¬ InRange (ptr + 116) 16 x → mem' x = mem x) : Imaged mem' ptr image file :=
  ⟨(elfMemory_of_frame hframe).trans h.pointer,
    ⟨h.holds.bytes.congr fun n hn => hframe _ (h.apart n hn), h.holds.elf⟩, h.apart⟩

/-- The words of the `elf_file` that are stored are none of the image's. -/
lemma Imaged.write (h : Imaged mem ptr image file) (hc : (c - 116).toNat + 4 ≤ 16) :
    Imaged (write32 mem (ptr + c) v) ptr image file := by
  refine h.of_frame fun x hx => ?_
  have hword : ptr + c = ptr + 116 + (c - 116) := by abel
  rw [hword]
  exact write32_inRange hc hx

/-- The program header of an index. -/
lemma Imaged.phdr (h : Imaged mem ptr image file) {i : ℕ} (hi : i < (fileHeaders file).length) :
    readPhdr mem (elfProgramHeader mem image i) = (fileHeaders file)[i] := by
  have hlt : i < (elfPhnum (fileMem file) 0).toNat := by simpa [fileHeaders] using hi
  rw [elfProgramHeader, h.holds.pheader, h.holds.phdr hlt]
  simp [fileHeaders]

/-- The base words after one header, which stays readable as they are stored. -/
lemma elfLowerBase_eq (himaged : Imaged mem ptr image file)
    (hphdr : ∀ m, Imaged m ptr image file → readPhdr m a = h) :
    elfLowerBase mem ptr a =
      if h.vaddr ≤ elfVirtualBase mem ptr ∨ elfVirtualBase mem ptr = 0 then
        write32 (write32 mem (ptr + 116) h.vaddr) (ptr + 124) (image + h.offset)
      else mem := by
  have hnext : Imaged (write32 mem (ptr + 116) h.vaddr) ptr image file := himaged.write (by decide)
  rw [elfLowerBase]
  dsimp only
  rw [hphdr mem himaged, hphdr _ hnext, hnext.pointer]
  rfl

lemma Imaged.lowerBase (himaged : Imaged mem ptr image file) : Imaged (elfLowerBase mem ptr a) ptr image file :=
  himaged.of_frame fun _ hx => elfLowerBase_frame hx

/-- The end words. -/
lemma elfProcessPhdrPtLoad_eq (himaged : Imaged mem ptr image file)
    (hphdr : ∀ m, Imaged m ptr image file → readPhdr m a = h) :
    elfProcessPhdrPtLoad mem ptr a =
      let lower := elfLowerBase mem ptr a
      if elfVirtualEnd lower ptr ≤ loadedEnd h ∨ elfVirtualEnd lower ptr = 0 then
        write32 (write32 lower (ptr + 120) (loadedEnd h)) (ptr + 128) (image + h.offset + h.filesz)
      else lower := by
  have hlower := himaged.lowerBase (a := a)
  have hnext : Imaged (write32 (elfLowerBase mem ptr a) (ptr + 120) (loadedEnd h)) ptr image file :=
    hlower.write (by decide)
  have hend : h.paddr + h.filesz = loadedEnd h := rfl
  rw [elfProcessPhdrPtLoad]
  dsimp only
  rw [hphdr _ hlower, hend, hphdr _ hnext, hnext.pointer]
  rfl

/-- Zero, for no segment yet, is also what a segment's word may be. -/
lemma keep_word {better : ℕ → ℕ → Prop} [DecidableRel better] (word : Phdr → Word)
    (best : Option Phdr) (h : Phdr) {P : Prop} [Decidable P]
    (hP : P ↔ better (word h).toNat (best.elim 0 word).toNat ∨ best.elim 0 word = 0) :
    keep better (fun h => (word h).toNat) 0 best h = if P then some h else best := by
  cases best with
  | none => exact (if_pos (hP.2 (.inr rfl))).symm
  | some g =>
    have hzero : (word g).toNat = 0 ↔ word g = 0 := (BitVec.toNat_eq (y := 0)).symm
    rw [keep]
    exact if_congr (by rw [hP, hzero]; rfl) rfl rfl

lemma Marks.lowerBase (hmarks : Marks mem ptr image low high) (himaged : Imaged mem ptr image file)
    (hphdr : ∀ m, Imaged m ptr image file → readPhdr m a = h) :
    Marks (elfLowerBase mem ptr a) ptr image (keepLow low h) high := by
  have hkeep : keepLow low h =
      if h.vaddr ≤ elfVirtualBase mem ptr ∨ elfVirtualBase mem ptr = 0 then some h else low :=
    keep_word (·.vaddr) low h (by rw [hmarks.base]; rfl)
  rw [elfLowerBase_eq himaged hphdr, hkeep]
  split_ifs
  · constructor
    · rw [elfVirtualBase, read32_write32_field (by decide) (by decide), read32_write32]
      rfl
    · intro g hg
      obtain rfl := Option.some.inj hg
      exact read32_write32 _ _ _
    · rw [elfVirtualEnd, read32_write32_field (by decide) (by decide),
        read32_write32_field (by decide) (by decide)]
      exact hmarks.last
    · intro g hg
      rw [elfPhysEnd, read32_write32_field (by decide) (by decide),
        read32_write32_field (by decide) (by decide)]
      exact hmarks.physLast g hg
  · exact hmarks

/-- A segment is compared with the two kept so far. -/
lemma Marks.load (hmarks : Marks mem ptr image low high) (himaged : Imaged mem ptr image file)
    (hphdr : ∀ m, Imaged m ptr image file → readPhdr m a = h) :
    Marks (elfProcessPhdrPtLoad mem ptr a) ptr image (keepLow low h) (keepHigh high h) := by
  have hlower := hmarks.lowerBase himaged hphdr
  have hkeep : keepHigh high h = if elfVirtualEnd (elfLowerBase mem ptr a) ptr ≤ loadedEnd h ∨
      elfVirtualEnd (elfLowerBase mem ptr a) ptr = 0 then some h else high :=
    keep_word loadedEnd high h (by rw [hlower.last]; rfl)
  rw [elfProcessPhdrPtLoad_eq himaged hphdr, hkeep]
  dsimp only
  split_ifs
  · constructor
    · rw [elfVirtualBase, read32_write32_field (by decide) (by decide),
        read32_write32_field (by decide) (by decide)]
      exact hlower.base
    · intro g hg
      rw [elfPhysBase, read32_write32_field (by decide) (by decide),
        read32_write32_field (by decide) (by decide)]
      exact hlower.physBase g hg
    · rw [elfVirtualEnd, read32_write32_field (by decide) (by decide), read32_write32]
      rfl
    · intro g hg
      obtain rfl := Option.some.inj hg
      exact read32_write32 _ _ _
  · exact hlower

/-- Only the words of the addresses count. -/
lemma Marks.congr (hmarks : Marks mem ptr image low high)
    (hsame : ∀ x, InRange (ptr + 116) 16 x → mem' x = mem x) : Marks mem' ptr image low high := by
  have hfield : ∀ c : Word, (c - 116).toNat + 4 ≤ 16 → read32 mem' (ptr + c) = read32 mem (ptr + c) := by
    intro c hc
    have hword : ptr + c = ptr + 116 + (c - 116) := by abel
    refine read32_eq_of_same fun x hx => hsame x (inRange_add hc (by omega) ?_)
    rwa [← hword]
  constructor
  · exact (hfield 116 (by decide)).trans hmarks.base
  · exact fun h hlow => (hfield 124 (by decide)).trans (hmarks.physBase h hlow)
  · exact (hfield 120 (by decide)).trans hmarks.last
  · exact fun h hhigh => (hfield 128 (by decide)).trans (hmarks.physLast h hhigh)

end Header

/-! All headers. -/

section Headers
variable {mem : Mem} {ptr image : Word} {file : List Byte} {hs : List Phdr} {h : Phdr}

lemma loadable_concat (hs : List Phdr) (h : Phdr) :
    loadable (hs ++ [h]) = if h.type = ptLoad then loadable hs ++ [h] else loadable hs := by
  rw [loadable, List.filter_append]
  split_ifs with hload
  · rw [List.filter_cons_of_pos (by simpa using hload)]
    rfl
  · rw [List.filter_cons_of_neg (by simpa using hload), List.filter_nil, List.append_nil]
    rfl

/-- The two segments kept of the headers before `i`. -/
def MarksTo (mem : Mem) (ptr image : Word) (file : List Byte) (i : ℕ) : Prop :=
  Marks mem ptr image (lowSegment (loadable ((fileHeaders file).take i)))
    (highSegment (loadable ((fileHeaders file).take i)))

lemma MarksTo.step {i : ℕ} (hmarks : MarksTo mem ptr image file i)
    (himaged : Imaged mem ptr image file) (hi : i < (fileHeaders file).length) :
    MarksTo (elfProcessPheader mem ptr (elfProgramHeader mem image i)) ptr image file (i + 1) := by
  have hphdr : ∀ m, Imaged m ptr image file →
      readPhdr m (elfProgramHeader mem image i) = (fileHeaders file)[i] := by
    intro m hm
    rw [← hm.phdr hi, elfProgramHeader, elfProgramHeader, hm.holds.pheader, himaged.holds.pheader]
  rw [MarksTo, ← List.take_append_getElem hi, loadable_concat, elfProcessPheader, hphdr mem himaged]
  split_ifs
  · rw [lowSegment, highSegment, kept_concat, kept_concat]
    exact hmarks.load himaged hphdr
  · exact hmarks

lemma MarksTo.run {k i : ℕ} (hmarks : MarksTo mem ptr image file i)
    (himaged : Imaged mem ptr image file) (hk : (fileHeaders file).length ≤ i + k) :
    MarksTo (elfProcessPheadersLoop ptr image k i mem) ptr image file (fileHeaders file).length := by
  have hend : ∀ m j, (fileHeaders file).length ≤ j → MarksTo m ptr image file j →
      MarksTo m ptr image file (fileHeaders file).length := by
    intro m j hj hm
    rw [MarksTo, List.take_of_length_le hj] at hm
    rwa [MarksTo, List.take_length]
  induction k generalizing mem i with
  | zero => exact hend _ _ hk hmarks
  | succ k ih =>
    have hcount : (elfPhnum mem image).toNat = (fileHeaders file).length := by
      simp [himaged.holds.phnum, fileHeaders]
    rw [elfProcessPheadersLoop, hcount]
    split_ifs with hi
    · exact ih (hmarks.step himaged hi) (himaged.of_frame fun _ hx => elfProcessPheader_frame hx)
        (by omega)
    · exact hend _ _ (not_lt.1 hi) hmarks

lemma fileHeaders_length_lt (file : List Byte) : (fileHeaders file).length < 2 ^ 16 := by
  rw [fileHeaders, List.length_map, List.length_range]
  exact (elfPhnum (fileMem file) 0).isLt

/-- The addresses after all headers are those of the segments kept. -/
theorem elfProcessPheaders_marks (hfresh : Fresh mem ptr image file) :
    Marks (elfProcessPheaders mem ptr) ptr image (lowSegment (loadable (fileHeaders file)))
      (highSegment (loadable (fileHeaders file))) := by
  have hlen := fileHeaders_length_lt file
  have hstart : MarksTo mem ptr image file 0 :=
    ⟨hfresh.base, (fun _ hnone => nomatch hnone), hfresh.last, (fun _ hnone => nomatch hnone)⟩
  have hrun := hstart.run (k := 65536) hfresh.toImaged (by omega)
  have hheader : elfHeader mem ptr = image := hfresh.pointer
  rw [MarksTo, List.take_length] at hrun
  rwa [elfProcessPheaders, hheader]

/-- The addresses do not clash with the marker: no segment, or every one, begins at zero. -/
def ZeroUniform (loads : List Phdr) : Prop :=
  (∀ h ∈ loads, h.vaddr ≠ 0) ∨ ∀ h ∈ loads, h.vaddr = 0

lemma zeroUniform_iff (loads : List Phdr) :
    ZeroUniform loads ↔ UnsetWorst (· ≤ ·) (fun h : Phdr => h.vaddr.toNat) 0 loads := by
  have hzero : ∀ h : Phdr, h.vaddr.toNat = 0 ↔ h.vaddr = 0 :=
    fun h => (BitVec.toNat_eq (y := 0)).symm
  constructor
  · rintro (hnone | hall) a ha hazero b hb
    · exact absurd ((hzero a).1 hazero) (hnone a ha)
    · exact ((hzero b).2 (hall b hb)).trans_le (Nat.zero_le _)
  · intro hworst
    by_cases hsome : ∃ a ∈ loads, a.vaddr = 0
    · obtain ⟨a, ha, hazero⟩ := hsome
      have hazero' := (hzero a).2 hazero
      exact .inr fun b hb => (hzero b).1 (Nat.le_zero.1 ((hworst a ha hazero' b hb).trans hazero'.le))
    · exact .inl fun b hb hbzero => hsome ⟨b, hb, hbzero⟩

/-- No end is below the marker. -/
lemma loadedEnd_unsetWorst (loads : List Phdr) :
    UnsetWorst (· ≥ ·) (fun h => (loadedEnd h).toNat) 0 loads := by
  intro a _ hazero b _
  rw [hazero]
  exact Nat.zero_le _

variable {mem' : Mem} {ptr' image' : Word} {file' : List Byte}

/-- The end is the highest of those the loader works out. -/
lemma elfVirtualEnd_eq (hfresh : Fresh mem ptr image file) (hload : loadable (fileHeaders file) ≠ []) :
    ((loadable (fileHeaders file)).map fun h => (loadedEnd h).toNat).max? =
      some (elfVirtualEnd (elfProcessPheaders mem ptr) ptr).toNat := by
  have hmarks := elfProcessPheaders_marks hfresh
  obtain ⟨high, hhigh⟩ : ∃ h, highSegment (loadable (fileHeaders file)) = some h := exists_kept hload
  have hbest := kept_best (loadedEnd_unsetWorst _) hhigh
  rw [hmarks.last, hhigh, List.max?_eq_some_iff]
  refine ⟨List.mem_map_of_mem (kept_mem hhigh), fun n hn => ?_⟩
  obtain ⟨h, hmem, rfl⟩ := List.mem_map.1 hn
  exact hbest h hmem

/-- The base is the lowest address, if the segments do not clash with the marker. -/
lemma elfVirtualBase_eq (hfresh : Fresh mem ptr image file) (hload : loadable (fileHeaders file) ≠ [])
    (huniform : ZeroUniform (loadable (fileHeaders file))) :
    ((loadable (fileHeaders file)).map (·.vaddr.toNat)).min? =
      some (elfVirtualBase (elfProcessPheaders mem ptr) ptr).toNat := by
  have hmarks := elfProcessPheaders_marks hfresh
  obtain ⟨low, hlow⟩ : ∃ h, lowSegment (loadable (fileHeaders file)) = some h := exists_kept hload
  have hbest := kept_best ((zeroUniform_iff _).1 huniform) hlow
  rw [hmarks.base, hlow, List.min?_eq_some_iff]
  refine ⟨List.mem_map_of_mem (kept_mem hlow), fun n hn => ?_⟩
  obtain ⟨h, hmem, rfl⟩ := List.mem_map.1 hn
  exact hbest h hmem

/-- The physical base belongs to a segment at the base. -/
lemma elfPhysBase_eq (hfresh : Fresh mem ptr image file) (hload : loadable (fileHeaders file) ≠ []) :
    ∃ h ∈ loadable (fileHeaders file), h.vaddr = elfVirtualBase (elfProcessPheaders mem ptr) ptr ∧
      elfPhysBase (elfProcessPheaders mem ptr) ptr = image + h.offset := by
  have hmarks := elfProcessPheaders_marks hfresh
  obtain ⟨low, hlow⟩ : ∃ h, lowSegment (loadable (fileHeaders file)) = some h := exists_kept hload
  refine ⟨low, kept_mem hlow, ?_, hmarks.physBase low hlow⟩
  rw [hmarks.base, hlow]
  rfl

end Headers

/-! What `elf_load` has before it looks at the headers. -/

section Load
variable {files : FileCalls} {s : Kmem} {file : List Byte}

/-- The new `elf_file` is zero. -/
lemma fileStep_zero (hne : (fileStep s).1 ≠ 0) {x : Word} (hx : InRange (fileStep s).1 132 x) :
    (fileStep s).2.mem x = 0 := by
  have hkmalloc : (kmalloc s 132).1 ≠ 0 := by
    intro hnull
    rw [fileStep, kzalloc, if_neg (not_not.2 hnull)] at hne
    exact hne hnull
  rw [fileStep, kzalloc, if_pos hkmalloc] at hx ⊢
  exact if_pos hx

lemma elfFile_page {f : ℕ} (hf : f < 25600) {x : Word} (hx : InRange (blockAddr f) 132 x) :
    pageOf x = 4096 + f := by
  have hbase := blockAddr_toNat (b := f) (by omega)
  have hlt := x.isLt
  unfold InRange at hx
  rw [BitVec.toNat_sub] at hx
  unfold pageOf
  omega

/-- The addresses the loader stores are in the block of the `elf_file`. -/
lemma field_page (hne : (fileStep s).1 ≠ 0) : ∃ f < 25600, (fileStep s).1 = blockAddr f ∧
    ∀ x, InRange ((fileStep s).1 + 116) 16 x →
      InRange (fileStep s).1 132 x ∧ pageOf x = 4096 + f := by
  obtain ⟨f, hf, -, hfeq, -⟩ := (fileStep_cases s).resolve_left fun heq => hne (by rw [heq])
  have hfaddr : (fileStep s).1 = blockAddr f := by rw [hfeq]
  refine ⟨f, hf, hfaddr, fun x hx => ?_⟩
  have hin : InRange (fileStep s).1 132 x := inRange_add (c := 116) (by decide) (by omega) hx
  exact ⟨hin, elfFile_page hf (hfaddr ▸ hin)⟩

/-- The steps up to the reading of the image leave the rest of the `elf_file` alone. -/
lemma readStep_zero (hspares : files.Spares ∅ s) (hfile : files.Delivers s file)
    (hwhole : LoadsWhole files s) (hsized : Sized file) {x : Word}
    (hx : InRange ((fileStep s).1 + 116) 16 x) : (readStep files s).2.mem x = 0 := by
  obtain ⟨f, hf, hfaddr, hfield⟩ := field_page hwhole.file_ne
  obtain ⟨hin, hpage⟩ := hfield x hx
  have hkeep : ∃ b ∈ (∅ : Set ℕ) ∪ fileBlock s, pageOf x = 4096 + b := ⟨f, .inr ⟨hf, hfaddr⟩, hpage⟩
  have hnot : ¬ InRange ((fileStep s).1 + 112) 4 x := by
    intro hptr
    have hsub : x - ((fileStep s).1 + 112) = (x - ((fileStep s).1 + 116)) + 4 := by
      have hnext : (116 : Word) = 112 + 4 := rfl
      rw [hnext, ← add_assoc, sub_add_eq_sub_sub x ((fileStep s).1 + 112) 4, sub_add_cancel]
    unfold InRange at hx hptr
    rw [hsub, BitVec.toNat_add] at hptr
    change (_ + 4) % 2 ^ 32 < 4 at hptr
    omega
  have hsize := hfile.size hwhole.loads.stat
  have himage : (imageStep files s).2.mem x = (statStep files s).2.2.mem x := by
    rw [imageStep, hsize]
    refine kzalloc_taken_mem _ hsized.blocks.1 ?_ hf (hspares.file_apart hf hfaddr) hpage
    rw [hsized.length_toNat]
    exact hsized.small
  calc (readStep files s).2.mem x = (storeStep files s).mem x := hspares.read.mem x hkeep
    _ = (imageStep files s).2.mem x := if_neg hnot
    _ = (statStep files s).2.2.mem x := himage
    _ = (openStep files s).2.mem x := hspares.fstat.mem x hkeep
    _ = (fileStep s).2.mem x := hspares.fopen.mem x hkeep
    _ = 0 := fileStep_zero hwhole.file_ne hin

lemma read32_zero {mem : Mem} {a : Word} (h : ∀ x, InRange a 4 x → mem x = 0) : read32 mem a = 0 := by
  rw [read32_eq_of_same (m := fun _ => 0) h]
  simp [read32]

/-- Whatever is loaded, `elf_process_pheaders` finds its `elf_file` as it takes it. -/
theorem fresh_readStep (hspares : files.Spares ∅ s) (hfile : files.Delivers s file)
    (hwhole : LoadsWhole files s) (helf : ElfImage file) :
    Fresh (readStep files s).2.mem (fileStep s).1 (imageStep files s).1 file := by
  have hzero : ∀ c : Word, c.toNat + 4 ≤ 16 →
      read32 (readStep files s).2.mem ((fileStep s).1 + 116 + c) = 0 := fun c hc =>
    read32_zero fun x hx => readStep_zero hspares hfile hwhole helf.sized (inRange_add hc (by omega) hx)
  refine ⟨⟨hspares.elfMemory_readStep hwhole.file_ne, ⟨hfile.read hwhole.loads.read, helf⟩,
    fun n hn => hfile.image_apart hspares hwhole (.inl hn)⟩, ?_, ?_⟩
  · have hbase := hzero 0 (by decide)
    rwa [add_zero] at hbase
  · have hlast := hzero 4 (by decide)
    rwa [add_assoc] at hlast

/-- Any table of headers can be loaded. -/
lemma fresh_served {hs : List Phdr} (hlen : hs.length < 2 ^ 16) :
    Fresh (readStep (serve (tableFile hs)) emptyKmem).2.mem (fileStep emptyKmem).1
      (imageStep (serve (tableFile hs)) emptyKmem).1 (tableFile hs) := by
  have helf := elfImage_tableFile hlen
  have hlength := tableFile_length hs
  have hroom : 0 + 1 + fileBlocks (tableFile hs) ≤ 25600 := by
    have hblocks := heapBlocksFor_eq (BitVec.ofNat 32 (tableFile hs).length)
    rw [helf.sized.length_toNat] at hblocks
    unfold fileBlocks
    omega
  have hspares := spares_served helf.sized emptyKmem_frontier hroom
  have hdelivers := delivers_served helf.sized emptyKmem_frontier hroom
  have hwhole := (readWhole_served helf.sized emptyKmem_frontier hroom).loads hspares hdelivers
    (by omega) helf.valid
  exact fresh_readStep hspares hdelivers hwhole helf

end Load

/-! The law. -/

section Law
variable {mem : Mem} {ptr image : Word} {file : List Byte}

/-- Every order of the segments comes from one of all headers. -/
lemma exists_reordered {hs cs : List Phdr} (hperm : cs.Perm (loadable hs)) :
    ∃ hs', hs'.Perm hs ∧ loadable hs' = cs := by
  refine ⟨cs ++ hs.filter fun h => !decide (h.type = ptLoad), ?_, ?_⟩
  · exact (hperm.append_right _).trans (List.filter_append_perm _ hs)
  · have hall : ∀ h ∈ cs, h.type = ptLoad := fun h hmem =>
      of_decide_eq_true (List.mem_filter.1 (hperm.mem_iff.1 hmem)).2
    rw [loadable, List.filter_append, List.filter_eq_self.2 (by simpa using hall), List.filter_filter]
    simp

/-- The same base in every order is the lowest one in every order of the segments. -/
lemma ExtentLaw.zeroUniform (h : ExtentLaw mem ptr image file)
    (hload : loadable (fileHeaders file) ≠ []) : ZeroUniform (loadable (fileHeaders file)) := by
  rw [zeroUniform_iff, ← kept_perm_iff hload fun _ _ => Nat.zero_le _]
  intro cs hperm
  obtain ⟨hs', hall, hcs⟩ := exists_reordered hperm
  have hlen : hs'.length < 2 ^ 16 := by
    rw [hall.length_eq]
    exact fileHeaders_length_lt file
  have hheaders := fileHeaders_tableFile hlen
  have hfresh := fresh_served hlen
  obtain ⟨hsame, -⟩ := h.order _ _ _ _ hfresh (by rwa [hheaders])
  have hmarks := elfProcessPheaders_marks hfresh
  have hne : cs ≠ [] := fun hnil => hload (hnil ▸ hperm).nil_eq.symm
  obtain ⟨low, hlow⟩ : ∃ h, lowSegment cs = some h := exists_kept hne
  rw [hheaders, hcs, hlow] at hmarks
  refine ⟨low, hlow, fun g hg => ?_⟩
  have hbase := hmarks.base
  rw [hsame] at hbase
  have hmin := (List.min?_eq_some_iff.1 h.base).2 _ (List.mem_map_of_mem hg)
  rw [hbase] at hmin
  exact hmin

lemma min?_perm {xs ys : List ℕ} {a b : ℕ} (hperm : xs.Perm ys) (ha : xs.min? = some a)
    (hb : ys.min? = some b) : a = b := by
  obtain ⟨hmem, hle⟩ := List.min?_eq_some_iff.1 ha
  obtain ⟨hmem', hle'⟩ := List.min?_eq_some_iff.1 hb
  exact le_antisymm (hle b (hperm.mem_iff.2 hmem')) (hle' a (hperm.mem_iff.1 hmem))

lemma max?_perm {xs ys : List ℕ} {a b : ℕ} (hperm : xs.Perm ys) (ha : xs.max? = some a)
    (hb : ys.max? = some b) : a = b := by
  obtain ⟨hmem, hle⟩ := List.max?_eq_some_iff.1 ha
  obtain ⟨hmem', hle'⟩ := List.max?_eq_some_iff.1 hb
  exact le_antisymm (hle' a (hperm.mem_iff.1 hmem)) (hle b (hperm.mem_iff.2 hmem'))

/-- The addresses are as they should be exactly when no segment to be loaded begins at zero, or
every one does, and the highest end the loader works out is the highest one in memory. -/
theorem extentLaw_iff (hfresh : Fresh mem ptr image file) (hload : loadable (fileHeaders file) ≠ []) :
    ExtentLaw mem ptr image file ↔
      let loads := loadable (fileHeaders file)
      ((∀ h ∈ loads, h.vaddr ≠ 0) ∨ ∀ h ∈ loads, h.vaddr = 0) ∧
      (loads.map fun h => (loadedEnd h).toNat).max? = (loads.map memoryEnd).max? := by
  have hend := elfVirtualEnd_eq hfresh hload
  constructor
  · intro hlaw
    exact ⟨hlaw.zeroUniform hload, hend.trans hlaw.last.symm⟩
  · rintro ⟨huniform, hlast⟩
    have hbase := elfVirtualBase_eq hfresh hload huniform
    refine ⟨hbase, elfPhysBase_eq hfresh hload, hlast.symm.trans hend, ?_⟩
    intro mem' ptr' image' file' hfresh' hperm
    have hloads : (loadable (fileHeaders file')).Perm (loadable (fileHeaders file)) := hperm.filter _
    have hload' : loadable (fileHeaders file') ≠ [] := fun hnil => hload (hnil ▸ hloads).nil_eq.symm
    have huniform' : ZeroUniform (loadable (fileHeaders file')) :=
      (zeroUniform_iff _).2 (((zeroUniform_iff _).1 huniform).perm hloads)
    have hbase' := elfVirtualBase_eq hfresh' hload' huniform'
    have hend' := elfVirtualEnd_eq hfresh' hload'
    exact ⟨BitVec.eq_of_toNat_eq (min?_perm (hloads.map _) hbase' hbase),
      BitVec.eq_of_toNat_eq (max?_perm (hloads.map _) hend' hend)⟩

/-- Data with room behind what the file has of it, below its code. -/
def roomSegment : Phdr := ⟨ptLoad, 116, 0x400000, 0x400000, 16, 64, 6⟩

def textSegment : Phdr := ⟨ptLoad, 116, 0x401000, 0x401000, 84, 84, 5⟩

theorem extentLaw_iff_room :
    let files := serve (tableFile [textSegment, roomSegment])
    ExtentLaw (readStep files emptyKmem).2.mem (fileStep emptyKmem).1 (imageStep files emptyKmem).1
      (tableFile [textSegment, roomSegment]) := by
  have hlen : [textSegment, roomSegment].length < 2 ^ 16 := by decide
  have hloads : loadable (fileHeaders (tableFile [textSegment, roomSegment])) =
      [textSegment, roomSegment] := by
    rw [fileHeaders_tableFile hlen]
    rfl
  refine (extentLaw_iff (fresh_served hlen) (by simp [hloads])).2 ?_
  rw [hloads]
  refine ⟨.inl fun h hmem => ?_, by decide⟩
  rcases List.mem_pair.1 hmem with rfl | rfl <;> decide

def zeroSegment : Phdr := ⟨ptLoad, 116, 0, 0, 84, 84, 5⟩

/-- Code at zero in front of the same data: the base is the data's, and the end is the one of what
the file has of it. -/
theorem extentLaw_zeroFirst :
    let file := tableFile [zeroSegment, roomSegment]
    let mem := (readStep (serve file) emptyKmem).2.mem
    let ptr := (fileStep emptyKmem).1
    Fresh mem ptr (imageStep (serve file) emptyKmem).1 file ∧
    elfVirtualBase (elfProcessPheaders mem ptr) ptr = 0x400000 ∧
    elfVirtualEnd (elfProcessPheaders mem ptr) ptr = 0x400010 ∧
    ¬ ExtentLaw mem ptr (imageStep (serve file) emptyKmem).1 file := by
  dsimp only
  have hlen : [zeroSegment, roomSegment].length < 2 ^ 16 := by decide
  have hfresh := fresh_served hlen
  have hloads : loadable (fileHeaders (tableFile [zeroSegment, roomSegment])) =
      [zeroSegment, roomSegment] := by
    rw [fileHeaders_tableFile hlen]
    rfl
  have hmarks := elfProcessPheaders_marks hfresh
  have hlow : lowSegment [zeroSegment, roomSegment] = some roomSegment := rfl
  have hhigh : highSegment [zeroSegment, roomSegment] = some roomSegment := rfl
  rw [hloads, hlow, hhigh] at hmarks
  refine ⟨hfresh, hmarks.base, hmarks.last, fun hlaw => ?_⟩
  have hmin := hlaw.base
  rw [hloads, hmarks.base] at hmin
  exact absurd hmin (by decide)

end Law

end AlphaOS.Processes
