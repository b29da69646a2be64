import AlphaOS.ProcessLoadSpec

/-! A file that can be read as a whole: its load succeeds on a heap with enough room, and
the process has the program headers of the file. -/
namespace AlphaOS.Processes
open BlockHeap CString Elf Kheap Paging Tasks WordMemory

/-- The bytes of a file from address 0 on. -/
def fileMem (file : List Byte) : Mem := fun x => file.getD x.toNat 0

/-- The program headers of a file. -/
def fileHeaders (file : List Byte) : List Phdr :=
  (List.range (elfPhnum (fileMem file) 0).toNat).map fun i =>
    readPhdr (fileMem file) (elfPhoff (fileMem file) 0 + BitVec.ofNat 32 (32 * i))

/-- An ELF file the loader accepts, with its header table inside. -/
structure ElfImage (file : List Byte) : Prop where
  header : 52 ≤ file.length
  small : file.length ≤ 2 ^ 30
  valid : elfValidateLoaded (fileMem file) 0 = 0
  table : (elfPhoff (fileMem file) 0).toNat + 32 * (elfPhnum (fileMem file) 0).toNat ≤ file.length

/-- A file that takes up room and is small enough for the heap. -/
structure Sized (file : List Byte) : Prop where
  pos : 0 < file.length
  small : file.length ≤ 2 ^ 30

lemma ElfImage.sized {file : List Byte} (h : ElfImage file) : Sized file :=
  ⟨lt_of_lt_of_le (by omega) h.header, h.small⟩

/-! The ELF header is read the same way wherever it stands. -/

section Header
variable {mem mem' : Mem} {a a' : Word}

lemma read32_congr (h : ∀ n < 4, mem (a + BitVec.ofNat 32 n) = mem' (a' + BitVec.ofNat 32 n)) :
    read32 mem a = read32 mem' a' := by
  have h0 := h 0 (by omega)
  rw [BitVec.add_zero, BitVec.add_zero] at h0
  have h1 : mem (a + 1) = mem' (a' + 1) := h 1 (by omega)
  have h2 : mem (a + 2) = mem' (a' + 2) := h 2 (by omega)
  have h3 : mem (a + 3) = mem' (a' + 3) := h 3 (by omega)
  rw [read32, read32, h0, h1, h2, h3]

variable (h : ∀ n < 46, mem (a + BitVec.ofNat 32 n) = mem' (a' + BitVec.ofNat 32 n))
include h

lemma elfPhoff_congr : elfPhoff mem a = elfPhoff mem' a' := by
  refine read32_congr fun n hn => ?_
  have hsum := h (28 + n) (by omega)
  rwa [BitVec.ofNat_add, ← BitVec.add_assoc, ← BitVec.add_assoc] at hsum

lemma elfPhnum_congr : elfPhnum mem a = elfPhnum mem' a' := by
  have h44 : mem (a + 44) = mem' (a' + 44) := h 44 (by omega)
  have h45 : mem (a + 45) = mem' (a' + 45) := h 45 (by omega)
  have hnext : ∀ b : Word, b + 44 + 1 = b + 45 := fun b => BitVec.add_assoc _ _ _
  rw [elfPhnum, elfPhnum, read16, read16, hnext, hnext, h44, h45]

lemma elfValidateLoaded_congr : elfValidateLoaded mem a = elfValidateLoaded mem' a' := by
  have h4 : mem (a + 4) = mem' (a' + 4) := h 4 (by omega)
  have h5 : mem (a + 5) = mem' (a' + 5) := h 5 (by omega)
  have hsignature : elfValidSignature mem a = elfValidSignature mem' a' := by
    unfold elfValidSignature
    refine decide_eq_decide.2 ?_
    rw [memcmp_eq_zero, memcmp_eq_zero]
    refine forall_congr' fun j => forall₂_congr fun h0 hj => ?_
    obtain ⟨n, rfl⟩ := Int.eq_ofNat_of_zero_le h0
    have hn : n < 4 := by omega
    rw [pointer, pointer, BitVec.ofInt_natCast, h n (by omega)]
  unfold elfValidateLoaded elfValidClass elfValidEncoding elfHasProgramHeader
  rw [hsignature, elfPhoff_congr h, h4, h5]

end Header

lemma fileMem_bytesAt {file : List Byte} (hsmall : file.length < 2 ^ 32) :
    BytesAt (fileMem file) 0 file := by
  refine bytesAt_of_get fun n hn => ?_
  have hword : (BitVec.ofNat 32 n).toNat = n := by
    rw [BitVec.toNat_ofNat]
    omega
  rw [zero_add, fileMem, hword, List.getD_eq_getElem _ _ hn]

section Bytes
variable {mem : Mem} {image a : Word} {file : List Byte} {n : ℕ}
variable (h : BytesAt mem image file) (hsmall : file.length < 2 ^ 32)
include h hsmall

lemma byte_of_bytesAt (hn : n < file.length) :
    mem (image + BitVec.ofNat 32 n) = fileMem file (0 + BitVec.ofNat 32 n) :=
  (h.get hn).trans ((fileMem_bytesAt hsmall).get hn).symm

lemma header_of_bytesAt (hlen : 46 ≤ file.length) : ∀ n < 46,
    mem (image + BitVec.ofNat 32 n) = fileMem file (0 + BitVec.ofNat 32 n) :=
  fun _ hn => byte_of_bytesAt h hsmall (by omega)

lemma word_of_bytesAt (ha : a.toNat + 4 ≤ file.length) :
    read32 mem (image + a) = read32 (fileMem file) a := by
  refine read32_congr fun n hn => ?_
  have hbyte := byte_of_bytesAt h hsmall (n := a.toNat + n) (by omega)
  rwa [BitVec.ofNat_add, BitVec.ofNat_toNat, BitVec.setWidth_eq, ← BitVec.add_assoc, zero_add]
    at hbyte

/-- A program header inside the file, but for its last field. -/
lemma phdr_of_bytesAt (ha : a.toNat + 28 ≤ file.length) :
    readPhdr mem (image + a) = readPhdr (fileMem file) a := by
  have hword : ∀ n ≤ 24, read32 mem (image + a + BitVec.ofNat 32 n) =
      read32 (fileMem file) (a + BitVec.ofNat 32 n) := by
    intro n hn
    have hsum := toNat_add_ofNat (a := a) (k := n) (by omega)
    rw [BitVec.add_assoc]
    exact word_of_bytesAt h hsmall (by omega)
  have h0 := hword 0 (by omega)
  rw [BitVec.add_zero, BitVec.add_zero] at h0
  rw [readPhdr, readPhdr, h0]
  congr 1
  · exact hword 4 (by omega)
  · exact hword 8 (by omega)
  · exact hword 12 (by omega)
  · exact hword 16 (by omega)
  · exact hword 20 (by omega)
  · exact hword 24 (by omega)

end Bytes

/-- The image of an ELF file in memory. -/
structure HoldsFile (mem : Mem) (image : Word) (file : List Byte) : Prop where
  bytes : BytesAt mem image file
  elf : ElfImage file

section Reading
variable {mem : Mem} {image : Word} {file : List Byte}

lemma ElfImage.length_lt (h : ElfImage file) : file.length < 2 ^ 32 := by
  have hsmall := h.small
  omega

lemma HoldsFile.byte (h : HoldsFile mem image file) {n : ℕ} (hn : n < file.length) :
    mem (image + BitVec.ofNat 32 n) = fileMem file (0 + BitVec.ofNat 32 n) :=
  byte_of_bytesAt h.bytes h.elf.length_lt hn

lemma HoldsFile.header (h : HoldsFile mem image file) : ∀ n < 46,
    mem (image + BitVec.ofNat 32 n) = fileMem file (0 + BitVec.ofNat 32 n) := by
  have hlen := h.elf.header
  exact header_of_bytesAt h.bytes h.elf.length_lt (by omega)

lemma HoldsFile.phoff (h : HoldsFile mem image file) :
    elfPhoff mem image = elfPhoff (fileMem file) 0 := elfPhoff_congr h.header

lemma HoldsFile.phnum (h : HoldsFile mem image file) :
    elfPhnum mem image = elfPhnum (fileMem file) 0 := elfPhnum_congr h.header

lemma HoldsFile.valid (h : HoldsFile mem image file) : elfValidateLoaded mem image = 0 :=
  (elfValidateLoaded_congr h.header).trans h.elf.valid

lemma HoldsFile.phdr (h : HoldsFile mem image file) {i : ℕ}
    (hi : i < (elfPhnum (fileMem file) 0).toNat) :
    readPhdr mem (image + elfPhoff (fileMem file) 0 + BitVec.ofNat 32 (32 * i)) =
      readPhdr (fileMem file) (elfPhoff (fileMem file) 0 + BitVec.ofNat 32 (32 * i)) := by
  have htable := h.elf.table
  have hsmall := h.elf.small
  have hstart := toNat_add_ofNat (a := elfPhoff (fileMem file) 0) (k := 32 * i) (by omega)
  rw [BitVec.add_assoc]
  exact phdr_of_bytesAt h.bytes h.elf.length_lt (by omega)

lemma HoldsFile.same {mem' : Mem} {S : Set ℕ} (h : HoldsFile mem image file) (hS : SameOff S mem mem')
    (hoff : ∀ n < file.length, pageOf (image + BitVec.ofNat 32 n) ∉ S) :
    HoldsFile mem' image file :=
  ⟨h.bytes.congr fun n hn => hS _ (hoff n hn), h.elf⟩

end Reading

section Mapping
variable {mem : Mem} {chunk dir image ptr : Word} {table : ℕ → Word} {file : List Byte} {h : Phdr}

/-- An ordered segment is mapped. -/
lemma mapSegment_ok (hordered : Ordered image h) (mem : Mem) (chunk : Word) :
    (mapSegment mem chunk (image + h.offset) h).1 = 0 :=
  pagingMapTo_res mem chunk (pagingAlignToLowerPage_aligned _) (pagingAlignToLowerPage_aligned _)
    (pagingAlignAddress_aligned _) hordered _

lemma fileHeaders_drop {i : ℕ} (hi : i < (elfPhnum (fileMem file) 0).toNat) :
    (fileHeaders file).drop i =
      readPhdr (fileMem file) (elfPhoff (fileMem file) 0 + BitVec.ofNat 32 (32 * i)) ::
        (fileHeaders file).drop (i + 1) := by
  have hlen : i < (fileHeaders file).length := by simpa [fileHeaders] using hi
  rw [List.drop_eq_getElem_cons hlen]
  simp [fileHeaders]

/-- The headers of a file away from the page tables are read as the file has them. -/
theorem processMapElfLoop_file (hdir : PageDir mem chunk dir table)
    (hptr : (ptr + 112).toNat % 4 = 0) (hptrOff : pageOf (ptr + 112) ∉ tablePages table)
    (himage : elfMemory mem ptr = image) (hfile : HoldsFile mem image file)
    (hoff : ∀ n < file.length, pageOf (image + BitVec.ofNat 32 n) ∉ tablePages table)
    (hordered : ∀ h ∈ fileHeaders file, Ordered image h) {k i : ℕ}
    (hk : (elfPhnum (fileMem file) 0).toNat ≤ i + k) :
    mapElfHeaders chunk ptr image (image + elfPhoff (fileMem file) 0) k i mem =
      (fileHeaders file).drop i ∧
    (processMapElfLoop chunk ptr image (image + elfPhoff (fileMem file) 0) k i 0 mem).1 = 0 := by
  have hend : ∀ j, (elfPhnum (fileMem file) 0).toNat ≤ j → (fileHeaders file).drop j = [] := by
    intro j hj
    exact List.drop_eq_nil_of_le (by simpa [fileHeaders] using hj)
  induction k generalizing mem i with
  | zero => exact ⟨(hend i hk).symm, rfl⟩
  | succ k ih =>
    rw [mapElfHeaders, processMapElfLoop, hfile.phnum]
    by_cases hi : i < (elfPhnum (fileMem file) 0).toNat
    · rw [if_pos hi, if_pos hi]
      dsimp only
      rw [hfile.phdr hi, elfPhdrPhysAddress, himage]
      have hdrop := fileHeaders_drop hi
      generalize readPhdr (fileMem file) _ = h at hdrop ⊢
      have hmem : h ∈ fileHeaders file := by
        have hin : h ∈ (fileHeaders file).drop i := by simp [hdrop]
        exact List.mem_of_mem_drop hin
      have hok := mapSegment_ok (hordered h hmem) mem chunk
      have hnot : ¬ (mapSegment mem chunk (image + h.offset) h).1 < 0 := by omega
      obtain ⟨-, hdir', hsame, -, -⟩ := mapSegment_spec hdir image h hnot
      have himage' : elfMemory (mapSegment mem chunk (image + h.offset) h).2 ptr = image := by
        rw [elfMemory, hsame.read32 hptr hptrOff]
        exact himage
      obtain ⟨hlist, hres⟩ := ih (i := i + 1) hdir' himage' (hfile.same hsame hoff) (by omega)
      rw [if_neg hnot, if_neg hnot, hlist, hok, hdrop]
      exact ⟨rfl, hres⟩
    · rw [if_neg hi, if_neg hi]
      exact ⟨(hend i (by omega)).symm, rfl⟩

lemma HoldsFile.pheader (h : HoldsFile mem image file) :
    elfPheader mem image = image + elfPhoff (fileMem file) 0 := by
  have hvalid := h.elf.valid
  rw [elfValidateLoaded] at hvalid
  split_ifs at hvalid with hall
  · have hne : elfPhoff (fileMem file) 0 ≠ 0 := by simpa [elfHasProgramHeader] using hall.2.2.2
    rw [elfPheader, h.phoff, if_neg hne]
  · exact absurd hvalid (by decide)

theorem processMapElf_file {p : Process} (hdir : PageDir mem chunk dir table)
    (hptr : (p.data + 112).toNat % 4 = 0) (hptrOff : pageOf (p.data + 112) ∉ tablePages table)
    (himage : elfMemory mem p.data = image) (hfile : HoldsFile mem image file)
    (hoff : ∀ n < file.length, pageOf (image + BitVec.ofNat 32 n) ∉ tablePages table)
    (hordered : ∀ h ∈ fileHeaders file, Ordered image h) :
    loadedHeaders mem chunk p = fileHeaders file ∧ (processMapElf mem chunk p).1 = 0 := by
  have hphnum := (elfPhnum (fileMem file) 0).isLt
  have hheader : elfHeader mem p.data = image := himage
  rw [loadedHeaders, processMapElf, hheader, hfile.pheader]
  exact processMapElfLoop_file hdir hptr hptrOff himage hfile hoff hordered (i := 0) (by omega)

end Mapping

/-- The calls on a file that is open, complete and read without an error. -/
def serve (file : List Byte) : FileCalls where
  fopen s := (1, s)
  fstat s _ := (0, BitVec.ofNat 32 file.length, s)
  read s ptr _ _ _ := (1, s.withMem (writeBytes s.mem ptr file))
  fclose s _ := s

/-- The blocks of the image. -/
def fileBlocks (file : List Byte) : ℕ := (heapBlocksFor (BitVec.ofNat 32 file.length)).toNat

section Served
variable {file : List Byte} {k : Kernel} {slot : Fin maxProcesses} {c : ℕ}

lemma Sized.length_toNat (h : Sized file) : (BitVec.ofNat 32 file.length).toNat = file.length := by
  have hsmall := h.small
  rw [BitVec.toNat_ofNat]
  omega

lemma Sized.blocks (h : Sized file) :
    0 < fileBlocks file ∧ file.length ≤ 4096 * fileBlocks file := by
  have hpos := h.pos
  have hlen := h.length_toNat
  have hsmall := h.small
  have hblocks := heapBlocksFor_eq (BitVec.ofNat 32 file.length)
  rw [hlen] at hblocks
  unfold fileBlocks
  omega

lemma processStep_frontier (h : Frontier k.kmem c) (hroom : c + 3 ≤ 25600) :
    (processStep k).1 = blockAddr c ∧ Frontier (processStep k).2 (c + 3) := by
  obtain ⟨heq, hnext⟩ := h.kzalloc (show 0 < (heapBlocksFor 9364).toNat by decide) hroom
  exact ⟨congrArg Prod.fst heq, hnext⟩

lemma fileStep_frontier {s : Kmem} (h : Frontier s c) (hroom : c + 1 ≤ 25600) :
    (fileStep s).1 = blockAddr c ∧ Frontier (fileStep s).2 (c + 1) := by
  obtain ⟨heq, hnext⟩ := h.kzalloc (show 0 < (heapBlocksFor 132).toNat by decide) hroom
  exact ⟨congrArg Prod.fst heq, hnext⟩

/-- The page of a byte of a run of blocks. -/
lemma pageOf_blockAddr_byte {b n : ℕ} (hb : b < 2 ^ 19) (h : 4096 * b + n < 4278190080) :
    pageOf (blockAddr b + BitVec.ofNat 32 n) = 4096 + b + n / 4096 := by
  have haddr := blockAddr_toNat hb
  rw [pageOf, toNat_add_ofNat (by omega), haddr]
  omega

/-- The pages of a run of blocks. -/
lemma pageOf_inRange {b n size : ℕ} (hpool : b + n ≤ 2 ^ 19) (hcover : size ≤ 4096 * n) {x : Word}
    (hx : InRange (blockAddr b) size x) : 4096 + b ≤ pageOf x ∧ pageOf x < 4096 + (b + n) := by
  have hplace : blockAddr b + BitVec.ofNat 32 (x - blockAddr b).toNat = x := by
    rw [BitVec.ofNat_toNat, BitVec.setWidth_eq, add_sub_cancel]
  have hlt : (x - blockAddr b).toNat < size := hx
  have hpage := @pageOf_blockAddr_byte b (x - blockAddr b).toNat (by omega) (by omega)
  rw [hplace] at hpage
  omega

variable {s : Kmem}

lemma imageStep_serve (file : List Byte) (s : Kmem) :
    imageStep (serve file) s = kzalloc (fileStep s).2 (BitVec.ofNat 32 file.length) := rfl

lemma imageStep_served (hfile : Sized file) (h : Frontier s c)
    (hroom : c + 1 + fileBlocks file ≤ 25600) :
    (imageStep (serve file) s).1 = blockAddr (c + 1) ∧
    Frontier (imageStep (serve file) s).2 (c + 1 + fileBlocks file) := by
  obtain ⟨-, hnext⟩ := fileStep_frontier h (by omega)
  obtain ⟨hfirst, hlast⟩ := hnext.kzalloc hfile.blocks.1 hroom
  rw [imageStep_serve, hfirst]
  rw [hfirst] at hlast
  exact ⟨rfl, hlast⟩

lemma elfMemory_storeStep (files : FileCalls) (s : Kmem) :
    elfMemory (storeStep files s).mem (fileStep s).1 = (imageStep files s).1 :=
  read32_write32 _ _ _

lemma readStep_served (hfile : Sized file) (h : Frontier s c)
    (hroom : c + 1 + fileBlocks file ≤ 25600) : readStep (serve file) s =
      (1, (storeStep (serve file) s).withMem
        (writeBytes (storeStep (serve file) s).mem (blockAddr (c + 1)) file)) := by
  have hpos := hfile.pos
  have hlen := hfile.length_toNat
  have hne : BitVec.ofNat 32 file.length ≠ 0 := by
    intro hzero
    rw [hzero] at hlen
    change 0 = _ at hlen
    omega
  rw [readStep, elfMemory_storeStep, (imageStep_served hfile h hroom).1, FileCalls.fread]
  refine if_neg ?_
  rintro (hzero | hone | hfd)
  · exact hne hzero
  · exact absurd hone (by decide)
  · exact absurd hfd (lt_irrefl (1 : ℤ))

/-- The file is in memory, and the block before it is as it was. -/
lemma readStep_bytes (hfile : Sized file) (h : Frontier s c)
    (hroom : c + 1 + fileBlocks file ≤ 25600) :
    BytesAt (readStep (serve file) s).2.mem (blockAddr (c + 1)) file ∧
    ∀ x, pageOf x = 4096 + c →
      (readStep (serve file) s).2.mem x = (storeStep (serve file) s).mem x := by
  obtain ⟨hpos, hlen⟩ := hfile.blocks
  rw [readStep_served hfile h hroom]
  refine ⟨writeBytes_bytesAt (by omega), fun x hx => writeBytes_of_not fun n hn heq => ?_⟩
  have hpage := pageOf_blockAddr_byte (b := c + 1) (n := n) (by omega) (by omega)
  rw [heq] at hpage
  omega

lemma elfMemory_readStep (hfile : Sized file) (h : Frontier s c)
    (hroom : c + 1 + fileBlocks file ≤ 25600) :
    elfMemory (readStep (serve file) s).2.mem (blockAddr c) = blockAddr (c + 1) := by
  have hfirst := (fileStep_frontier h (by omega)).1
  have hstore := elfMemory_storeStep (serve file) s
  rw [hfirst, (imageStep_served hfile h hroom).1] at hstore
  rw [← hstore]
  exact read32_eq_of_same fun x hx =>
    (readStep_bytes hfile h hroom).2 x (elfMemory_page (by omega) hx)

lemma readStep_holds (hfile : ElfImage file) (h : Frontier s c)
    (hroom : c + 1 + fileBlocks file ≤ 25600) :
    HoldsFile (readStep (serve file) s).2.mem (blockAddr (c + 1)) file :=
  ⟨(readStep_bytes hfile.sized h hroom).1, hfile⟩

lemma loads_served (hfile : ElfImage file) (h : Frontier s c)
    (hroom : c + 1 + fileBlocks file ≤ 25600) : Loads (serve file) s := by
  refine ⟨one_pos, lt_irrefl (0 : ℤ), ?_, ?_⟩
  · rw [readStep_served hfile.sized h hroom]
    exact (show ¬ (1 : ℤ) < 0 by decide)
  · have hvalid := (readStep_holds hfile h hroom).valid
    have hheader : elfHeader (readStep (serve file) s).2.mem (fileStep s).1 = blockAddr (c + 1) := by
      rw [(fileStep_frontier h (by omega)).1]
      exact elfMemory_readStep hfile.sized h hroom
    rw [loadStep, elfProcessLoaded, hheader, hvalid]
    exact lt_irrefl (0 : ℤ)

lemma spares_served (hfile : Sized file) (h : Frontier s c)
    (hroom : c + 1 + fileBlocks file ≤ 25600) : (serve file).Spares ∅ s := by
  have hentries : (readStep (serve file) s).2.entries = (storeStep (serve file) s).entries := by
    rw [readStep_served hfile h hroom]
    rfl
  refine ⟨Spared.refl _ _, Spared.refl _ _, ⟨fun b _ => ?_, ?_⟩, fun b _ => ?_,
    Spared.refl _ _, Spared.refl _ _⟩
  · rw [hentries]
    exact fun h => h
  · rintro x ⟨b, hb, hx⟩
    obtain ⟨hlt, heq⟩ := hb.resolve_left (Set.notMem_empty b)
    rw [(fileStep_frontier h (by omega)).1] at heq
    obtain rfl := blockAddr_inj (by omega) (by omega) heq
    exact (readStep_bytes hfile h hroom).2 x hx
  · rw [hentries]
    exact fun h => h

/-- The load hands out the file with its image. -/
theorem elfLoad_served (hfile : ElfImage file) (h : Frontier s c)
    (hroom : c + 1 + fileBlocks file ≤ 25600) :
    (elfLoad (serve file) s).2.1 = blockAddr c ∧
    Frontier (elfLoad (serve file) s).2.2 (c + 1 + fileBlocks file) ∧
    elfMemory (elfLoad (serve file) s).2.2.mem (blockAddr c) = blockAddr (c + 1) ∧
    HoldsFile (elfLoad (serve file) s).2.2.mem (blockAddr (c + 1)) file := by
  obtain ⟨hpos, hlen⟩ := hfile.sized.blocks
  have hfirst := (fileStep_frontier h (by omega)).1
  rw [(loads_served hfile h hroom).elfLoad_eq]
  refine ⟨hfirst, ?_, ?_, ?_⟩
  · have hentries : (readStep (serve file) s).2.entries = (imageStep (serve file) s).2.entries := by
      rw [readStep_served hfile.sized h hroom]
      rfl
    obtain ⟨htaken, hfree⟩ := (imageStep_served hfile.sized h hroom).2
    constructor
    · rw [← hentries] at htaken
      exact htaken
    · rw [← hentries] at hfree
      exact hfree
  · change elfMemory (loadStep (serve file) s).2 _ = _
    rw [loadStep, hfirst, elfMemory_elfProcessLoaded, elfMemory_readStep hfile.sized h hroom]
  · change HoldsFile (loadStep (serve file) s).2 _ _
    refine ⟨(readStep_holds hfile h hroom).bytes.congr fun n hn => elfProcessLoaded_frame ?_, hfile⟩
    have hblock := blockAddr_toNat (b := c) (by omega)
    have hword := toNat_add_ofNat (a := blockAddr c) (k := 116) (by omega)
    have hbyte := toNat_add_ofNat (a := blockAddr (c + 1)) (k := n) (by
      rw [blockAddr_toNat (by omega)]
      omega)
    rw [blockAddr_toNat (by omega)] at hbyte
    rw [hfirst, InRange, BitVec.toNat_sub, hbyte]
    change ¬ (2 ^ 32 - (blockAddr c + BitVec.ofNat 32 116).toNat + _) % 2 ^ 32 < 16
    omega

/-- The pages of taken blocks are not written when the stack is allocated. -/
lemma HoldsFile.kzalloc (h : HoldsFile s.mem (blockAddr c) file) {size : Word}
    (hpos : 0 < (heapBlocksFor size).toNat) (hsize : size.toNat ≤ 2 ^ 30)
    (hroom : c + fileBlocks file ≤ 25600)
    (htaken : ∀ b, c ≤ b → b < c + fileBlocks file → ¬ IsFree s.entries b) :
    HoldsFile (Kheap.kzalloc s size).2.mem (blockAddr c) file := by
  obtain ⟨-, hlen⟩ := h.elf.sized.blocks
  refine ⟨h.bytes.congr fun n hn => ?_, h.elf⟩
  have hpage := pageOf_blockAddr_byte (b := c) (n := n) (by omega) (by omega)
  rw [Nat.add_assoc] at hpage
  exact kzalloc_taken_mem s hpos hsize (by omega) (htaken (c + n / 4096) (by omega) (by omega)) hpage

/-- A kernel whose heap is taken up to block `c`, with room for a load of the file. -/
structure LoadRoom (k : Kernel) (file : List Byte) (c : ℕ) : Prop where
  frontier : Frontier k.kmem c
  room : c + 8 + fileBlocks file + 1028 ≤ 25600

/-- The memory of the process is ready before its task is created. -/
theorem loadedKernel_served (hfile : ElfImage file) (hfrontier : Frontier k.kmem c)
    (hroom : c + 8 + fileBlocks file ≤ 25600) :
    (processStep k).1 = blockAddr c ∧ (dataStep (serve file) k).2.1 = blockAddr (c + 3) ∧
    (stackStep (serve file) k).1 = blockAddr (c + 4 + fileBlocks file) ∧
    Frontier (stackStep (serve file) k).2 (c + 4 + fileBlocks file + 4) ∧
    elfMemory (stackStep (serve file) k).2.mem (blockAddr (c + 3)) = blockAddr (c + 4) ∧
    HoldsFile (stackStep (serve file) k).2.mem (blockAddr (c + 4)) file := by
  obtain ⟨hprocess, hnext⟩ := processStep_frontier hfrontier (by omega)
  obtain ⟨hdata, hlast, himage, hholds⟩ := elfLoad_served hfile hnext (by omega)
  obtain ⟨hstack, hend⟩ := hlast.kzalloc
    (show 0 < (heapBlocksFor userProgramStackSize).toNat by decide) (by
    change c + 4 + fileBlocks file + 4 ≤ 25600
    omega)
  refine ⟨hprocess, hdata, congrArg Prod.fst hstack, hend, ?_, ?_⟩
  · rw [← himage]
    refine read32_eq_of_same fun x hx => kzalloc_taken_mem (c := c + 3) _ (by decide) (by decide)
      (by omega) (hlast.taken _ (by omega)) (elfMemory_page (by omega) hx)
  · exact hholds.kzalloc (by decide) (by decide) (by omega) fun b _ h2 => hlast.taken b (by omega)

lemma LoadRoom.task (hfile : ElfImage file) (h : LoadRoom k file c) (process : Word) :
    isErr (taskNew (loadedKernel (serve file) k slot) process).1 = false := by
  have hroom := h.room
  obtain ⟨-, -, -, hend, -⟩ := loadedKernel_served hfile h.frontier (by omega)
  refine (taskNew_ok _ process (Finset.Ico (c + 4 + fileBlocks file + 4) 25600) ?_ ?_).1
  · rw [Nat.card_Ico]
    omega
  · intro b hb
    obtain ⟨h1, h2⟩ := Finset.mem_Ico.1 hb
    exact ⟨h2, hend.free b h1 h2⟩

/-- The mapping reads the headers of the file and refuses none. -/
theorem processMapElf_served (hfile : ElfImage file) (h : LoadRoom k file c)
    (hordered : ∀ h ∈ fileHeaders file, Ordered (blockAddr (c + 4)) h) :
    programHeaders (serve file) k slot = fileHeaders file ∧
    let started := startedKernel (loadedKernel (serve file) k slot) (blockAddr c)
    (processMapElf started.kmem.mem (started.pageDirectory (blockAddr c))
      (started.procs (blockAddr c))).1 = 0 := by
  have hroom := h.room
  obtain ⟨hprocess, hdata, hstack, hend, himage, hholds⟩ :=
    loadedKernel_served hfile h.frontier (by omega)
  have htask : isErr (taskNew (loadedKernel (serve file) k slot) (blockAddr c)).1 = false :=
    h.task hfile (blockAddr c)
  obtain ⟨dir, table, B, hgrown, hdir, hpages, -⟩ := taskNew_directory _ _ htask
  have hnot : ∀ b < c + 4 + fileBlocks file, b ∉ B := fun b hb hmem =>
    hend.taken b (by omega) (hgrown.fresh b hmem).2
  have hoff : ∀ b < c + 4 + fileBlocks file, 4096 + b ∉ tablePages table := by
    intro b hb hmem
    obtain ⟨d, hd, heq⟩ := hpages _ (tablePages_subset hmem)
    obtain rfl : b = d := by omega
    exact hnot b hb hd
  have hsame : ∀ b < c + 4 + fileBlocks file,
      4096 + b ∉ insert 0 {p | ∃ d ∈ B, p = 4096 + d} := by
    rintro b hb (h0 | ⟨d, hd, heq⟩)
    · omega
    · obtain rfl : b = d := by omega
      exact hnot b hb hd
  have hlen := hfile.sized.blocks.2
  have hbyte : ∀ n < file.length, ∃ b < c + 4 + fileBlocks file,
      pageOf (blockAddr (c + 4) + BitVec.ofNat 32 n) = 4096 + b := fun n hn =>
    ⟨c + 4 + n / 4096, by omega, (pageOf_blockAddr_byte (by omega) (by omega)).trans (Nat.add_assoc _ _ _)⟩
  have hword := toNat_add_ofNat (a := blockAddr (c + 3)) (k := 112) (by
    rw [blockAddr_toNat (by omega)]
    omega)
  rw [blockAddr_toNat (by omega)] at hword
  have hptr : (blockAddr (c + 3) + 112).toNat % 4 = 0 := hword ▸ by omega
  have hpage : pageOf (blockAddr (c + 3) + 112) = 4096 + (c + 3) :=
    pageOf_blockAddr_add (k := 112) (by omega) (by omega)
  have himage' : elfMemory (taskNew (loadedKernel (serve file) k slot) (blockAddr c)).2.kmem.mem
      (blockAddr (c + 3)) = blockAddr (c + 4) := by
    rw [← himage]
    exact hgrown.mem.read32 hptr (hpage ▸ hsame (c + 3) (by omega))
  have hholds' := hholds.same hgrown.mem fun n hn => by
    obtain ⟨b, hb, heq⟩ := hbyte n hn
    rw [heq]
    exact hsame b hb
  have hprocs : ((startedKernel (loadedKernel (serve file) k slot) (blockAddr c)).procs
      (blockAddr c)).data = blockAddr (c + 3) := by
    rw [startedKernel_procs, taskNew_procs _ _ htask, ← hprocess, loadedKernel_procs]
    exact hdata
  rw [← startedKernel_pageDirectory] at hdir
  rw [← startedKernel_kmem] at hdir himage' hholds'
  rw [programHeaders, hprocess]
  refine processMapElf_file hdir ?_ ?_ ?_ hholds' (fun n hn => ?_) hordered
  · rw [hprocs]
    exact hptr
  · rw [hprocs, hpage]
    exact hoff (c + 3) (by omega)
  · rw [hprocs]
    exact himage'
  · obtain ⟨b, hb, heq⟩ := hbyte n hn
    rw [heq]
    exact hoff b hb

lemma processMapMemory_ok {mem : Mem} {directory : Word} {p : Process}
    (helf : p.fileType = processFiletypeElf) (hres : (processMapElf mem directory p).1 = 0) :
    ∃ mem', processMapMemory mem directory p = some (0, mem') := by
  have hnot : ¬ (processMapElf mem directory p).1 < 0 := by omega
  rw [processMapMemory, if_pos helf, Option.map_some, if_neg hnot, hres]
  exact ⟨_, rfl⟩

/-- With room on the heap and a free slot the load of a file succeeds. -/
theorem processLoad_served (hfile : ElfImage file) (h : LoadRoom k file c)
    (hslot : processGetFreeSlot k = some slot)
    (hordered : ∀ h ∈ fileHeaders file, Ordered (blockAddr (c + 4)) h) :
    ∃ mem, processLoad (serve file) k = some (0, blockAddr c,
      registered (startedKernel (loadedKernel (serve file) k slot) (blockAddr c)) slot
        (blockAddr c) mem) := by
  obtain ⟨hfrontier, hroom⟩ := h
  obtain ⟨hprocess, -, hstack, -⟩ := loadedKernel_served hfile hfrontier (by omega)
  obtain ⟨-, hres⟩ := @processMapElf_served file k slot c hfile ⟨hfrontier, hroom⟩ hordered
  have htask : isErr (taskNew (loadedKernel (serve file) k slot) (blockAddr c)).1 = false :=
    LoadRoom.task hfile ⟨hfrontier, hroom⟩ (blockAddr c)
  have hne : ∀ b < 25600, blockAddr b ≠ 0 := fun b hb => blockAddr_ne_zero (by omega)
  have hprocs := startedKernel_procs (loadedKernel (serve file) k slot) (blockAddr c)
  rw [taskNew_procs _ _ htask, ← hprocess, loadedKernel_procs, hprocess] at hprocs
  have helf : ((startedKernel (loadedKernel (serve file) k slot) (blockAddr c)).procs
      (blockAddr c)).fileType = processFiletypeElf := by rw [hprocs, fileProcess]
  obtain ⟨mem, hmap⟩ := processMapMemory_ok helf hres
  refine ⟨mem, ?_⟩
  rw [processLoad_some hslot, processLoadForSlot_eq (processGetFreeSlot_free hslot), hprocess,
    hstack, if_neg (hne c (by omega)), if_neg (hne _ (by omega)), processStart_eq, hmap,
    Option.map_some, if_neg (lt_irrefl 0)]

theorem programLoaded_served (hfile : ElfImage file) (h : LoadRoom k file c)
    (hslot : processGetFreeSlot k = some slot)
    (hordered : ∀ h ∈ fileHeaders file, Ordered (blockAddr (c + 4)) h) :
    ∃ k', ProgramLoaded (serve file) k slot (blockAddr c) k' ∧
      loadedImage (serve file) k = blockAddr (c + 4) ∧
      programHeaders (serve file) k slot = fileHeaders file := by
  obtain ⟨mem, hload⟩ := processLoad_served hfile h hslot hordered
  obtain ⟨hfrontier, hroom⟩ := h
  obtain ⟨hprocess, hdata, -⟩ := loadedKernel_served hfile hfrontier (by omega)
  obtain ⟨-, hnext⟩ := processStep_frontier hfrontier (by omega)
  obtain ⟨hheaders, -⟩ := @processMapElf_served file k slot c hfile ⟨hfrontier, hroom⟩ hordered
  have htask : isErr (taskNew (loadedKernel (serve file) k slot) (blockAddr c)).1 = false :=
    LoadRoom.task hfile ⟨hfrontier, hroom⟩ (blockAddr c)
  have htaskEq : ((startedKernel (loadedKernel (serve file) k slot) (blockAddr c)).procs
      (blockAddr c)).task = (taskNew (loadedKernel (serve file) k slot) (blockAddr c)).1 := by
    rw [startedKernel_procs]
  have hprocs := startedKernel_procs (loadedKernel (serve file) k slot) (blockAddr c)
  rw [taskNew_procs _ _ htask, ← hprocess, loadedKernel_procs, hprocess] at hprocs
  refine ⟨_, ⟨spares_served hfile.sized hnext (by omega), hslot, ⟨0, lt_irrefl 0, hload⟩, ?_, ?_⟩, ?_,
    hheaders⟩
  · rw [registered_procs, hprocs, fileProcess, hdata]
    exact blockAddr_ne_zero (by omega)
  · rw [registered_procs, htaskEq, htask]
  · exact (imageStep_served hfile.sized hnext (by omega)).1

end Served

/-! Program headers as bytes. -/

def wordBytes (w : Word) : List Byte :=
  [w.setWidth 8, (w >>> 8).setWidth 8, (w >>> 16).setWidth 8, (w >>> 24).setWidth 8]

def phdrBytes (h : Phdr) : List Byte :=
  wordBytes h.type ++ (wordBytes h.offset ++ (wordBytes h.vaddr ++ (wordBytes h.paddr ++
    (wordBytes h.filesz ++ (wordBytes h.memsz ++ (wordBytes h.flags ++ [0, 0, 0, 0]))))))

lemma read32_wordBytes {mem : Mem} {a w : Word} (h : BytesAt mem a (wordBytes w)) :
    read32 mem a = w := by
  obtain ⟨h0, h1, h2, h3, -⟩ := h
  have htwo : a + 1 + 1 = a + 2 := BitVec.add_assoc _ _ _
  have hthree : a + 2 + 1 = a + 3 := BitVec.add_assoc _ _ _
  rw [htwo] at h2 h3
  rw [hthree] at h3
  rw [read32, h0, h1, h2, h3]
  exact append_bytes w

lemma readPhdr_phdrBytes {mem : Mem} {a : Word} {h : Phdr} (hbytes : BytesAt mem a (phdrBytes h)) :
    readPhdr mem a = h := by
  have hword : ∀ b : Word, ∀ n : ℕ, b + BitVec.ofNat 32 n + BitVec.ofNat 32 (wordBytes 0).length =
      b + BitVec.ofNat 32 (n + 4) := by
    intro b n
    rw [BitVec.ofNat_add, ← BitVec.add_assoc]
    rfl
  have hstep : ∀ (w : Word) (n : ℕ) (bs : List Byte),
      BytesAt mem (a + BitVec.ofNat 32 n) (wordBytes w ++ bs) →
      read32 mem (a + BitVec.ofNat 32 n) = w ∧ BytesAt mem (a + BitVec.ofNat 32 (n + 4)) bs := by
    intro w n bs hn
    rw [bytesAt_append] at hn
    rw [← hword]
    exact ⟨read32_wordBytes hn.1, hn.2⟩
  have hstart : BytesAt mem (a + BitVec.ofNat 32 0) (phdrBytes h) := by rwa [BitVec.add_zero]
  obtain ⟨h0, hstart⟩ := hstep _ _ _ hstart
  obtain ⟨h4, hstart⟩ := hstep _ _ _ hstart
  obtain ⟨h8, hstart⟩ := hstep _ _ _ hstart
  obtain ⟨h12, hstart⟩ := hstep _ _ _ hstart
  obtain ⟨h16, hstart⟩ := hstep _ _ _ hstart
  obtain ⟨h20, hstart⟩ := hstep _ _ _ hstart
  obtain ⟨h24, -⟩ := hstep _ _ _ hstart
  rw [BitVec.add_zero] at h0
  rw [readPhdr, h0]
  congr 1

/-! A file with any table of headers. -/

section Table

/-- An ELF header in front of a table of so many headers. -/
def tableStart (count : BitVec 16) : List Byte :=
  ([0x7F, 69, 76, 70, 1, 1] ++ List.replicate 22 0 ++ [52, 0, 0, 0] ++ List.replicate 12 0 : List Byte) ++
    [count.setWidth 8, (count >>> 8).setWidth 8] ++ List.replicate 6 0

def tableFile (hs : List Phdr) : List Byte :=
  tableStart (BitVec.ofNat 16 hs.length) ++ hs.flatMap phdrBytes

variable {hs : List Phdr}

lemma tableStart_length (count : BitVec 16) : (tableStart count).length = 52 := rfl

lemma tableFile_length (hs : List Phdr) : (tableFile hs).length = 52 + 32 * hs.length := by
  have hphdr : ∀ h, (phdrBytes h).length = 32 := fun _ => rfl
  rw [tableFile, List.length_append, tableStart_length, List.length_flatMap]
  simp [hphdr, Nat.mul_comm]

lemma tableFile_header (hs : List Phdr) : ∀ n < 46, fileMem (tableFile hs) (0 + BitVec.ofNat 32 n) =
    fileMem (tableStart (BitVec.ofNat 16 hs.length)) (0 + BitVec.ofNat 32 n) := by
  intro n hn
  have hword : (BitVec.ofNat 32 n).toNat = n := by
    rw [BitVec.toNat_ofNat]
    omega
  rw [zero_add, fileMem, fileMem, hword]
  refine List.getD_append _ _ _ _ ?_
  rw [tableStart_length]
  omega

lemma elfPhoff_tableStart (count : BitVec 16) : elfPhoff (fileMem (tableStart count)) 0 = 52 := by
  simp [elfPhoff, read32, fileMem, tableStart]

lemma elfPhoff_tableFile (hs : List Phdr) : elfPhoff (fileMem (tableFile hs)) 0 = 52 :=
  (elfPhoff_congr (tableFile_header hs)).trans (elfPhoff_tableStart _)

lemma elfPhnum_tableFile (hs : List Phdr) :
    elfPhnum (fileMem (tableFile hs)) 0 = BitVec.ofNat 16 hs.length := by
  rw [elfPhnum_congr (tableFile_header hs)]
  generalize BitVec.ofNat 16 hs.length = count
  change (count >>> 8).setWidth 8 ++ count.setWidth 8 = (count : BitVec (8 + 8))
  apply BitVec.eq_of_getLsbD_eq
  intro i hi
  simp only [BitVec.getLsbD_append, BitVec.getLsbD_setWidth, BitVec.getLsbD_ushiftRight]
  grind

lemma readPhdr_table {mem : Mem} {a : Word} (hbytes : BytesAt mem a (hs.flatMap phdrBytes)) {i : ℕ}
    (hi : i < hs.length) : readPhdr mem (a + BitVec.ofNat 32 (32 * i)) = hs[i] := by
  induction hs generalizing a i with
  | nil => exact absurd hi (Nat.not_lt_zero i)
  | cons h hs ih =>
    rw [List.flatMap_cons, bytesAt_append] at hbytes
    cases i with
    | zero =>
      rw [Nat.mul_zero, BitVec.add_zero]
      exact readPhdr_phdrBytes hbytes.1
    | succ i =>
      have hnext : a + BitVec.ofNat 32 (32 * (i + 1)) =
          a + BitVec.ofNat 32 (phdrBytes h).length + BitVec.ofNat 32 (32 * i) := by
        rw [BitVec.add_assoc, ← BitVec.ofNat_add]
        congr 2
        exact Nat.add_comm _ _
      rw [hnext]
      exact ih hbytes.2 (Nat.lt_of_succ_lt_succ hi)

variable (hlen : hs.length < 2 ^ 16)
include hlen

/-- Every list of headers is the table of a file. -/
lemma fileHeaders_tableFile : fileHeaders (tableFile hs) = hs := by
  have hcount : (BitVec.ofNat 16 hs.length).toNat = hs.length := by
    rw [BitVec.toNat_ofNat]
    omega
  have hfile := tableFile_length hs
  have hbytes : BytesAt (fileMem (tableFile hs)) 0 (tableStart (BitVec.ofNat 16 hs.length) ++
      hs.flatMap phdrBytes) := fileMem_bytesAt (by omega)
  rw [bytesAt_append] at hbytes
  apply List.ext_getElem
  · rw [fileHeaders, List.length_map, List.length_range, elfPhnum_tableFile, hcount]
  · intro i _ hi
    simp only [fileHeaders, List.getElem_map, List.getElem_range, elfPhoff_tableFile]
    exact readPhdr_table hbytes.2 hi

lemma elfImage_tableFile : ElfImage (tableFile hs) := by
  have hcount : (BitVec.ofNat 16 hs.length).toNat = hs.length := by
    rw [BitVec.toNat_ofNat]
    omega
  have hfile := tableFile_length hs
  refine ⟨by omega, by omega, ?_, ?_⟩
  · rw [elfValidateLoaded_congr (tableFile_header hs)]
    refine if_pos ⟨rfl, rfl, rfl, ?_⟩
    rw [elfHasProgramHeader, elfPhoff_tableStart]
    rfl
  · rw [elfPhoff_tableFile, elfPhnum_tableFile, hcount, hfile]
    rfl

end Table

/-! A file with one program header. -/

/-- An ELF header followed by a table of one header. -/
def elfStart : List Byte :=
  [0x7F, 69, 76, 70, 1, 1] ++ List.replicate 22 0 ++ [52, 0, 0, 0] ++ List.replicate 12 0 ++ [1, 0] ++
    List.replicate 6 0

def oneSegment (h : Phdr) : List Byte := elfStart ++ phdrBytes h

lemma oneSegment_eq (h : Phdr) : oneSegment h = tableFile [h] := by
  have hstart : elfStart = tableStart 1 := by decide
  rw [oneSegment, hstart, tableFile, List.flatMap_singleton]
  rfl

lemma elfPhoff_oneSegment (h : Phdr) : elfPhoff (fileMem (oneSegment h)) 0 = 52 := by
  rw [oneSegment_eq, elfPhoff_tableFile]

lemma elfPhnum_oneSegment (h : Phdr) : elfPhnum (fileMem (oneSegment h)) 0 = 1 := by
  rw [oneSegment_eq, elfPhnum_tableFile]
  rfl

lemma fileHeaders_oneSegment (h : Phdr) : fileHeaders (oneSegment h) = [h] := by
  rw [oneSegment_eq]
  exact fileHeaders_tableFile (Nat.one_lt_two_pow (by decide))

lemma elfImage_oneSegment (h : Phdr) : ElfImage (oneSegment h) := by
  rw [oneSegment_eq]
  exact elfImage_tableFile (Nat.one_lt_two_pow (by decide))

lemma emptyKmem_frontier : Frontier (zeroKernel emptyKmem).kmem 0 :=
  ⟨fun _ hb => absurd hb (Nat.not_lt_zero _), fun _ _ hb => kheapInit_free _ _ hb⟩

lemma fileBlocks_oneSegment (h : Phdr) : fileBlocks (oneSegment h) = 1 := by
  have hlen : (oneSegment h).length = 84 := rfl
  rw [fileBlocks, hlen]
  decide

/-- What `fread` leaves of it. -/
lemma readStep_oneSegment (h : Phdr) :
    HoldsFile (readStep (serve (oneSegment h)) (processStep (zeroKernel emptyKmem)).2).2.mem
      (blockAddr 4) (oneSegment h) := by
  obtain ⟨-, hnext⟩ := processStep_frontier emptyKmem_frontier (by omega)
  have hblocks := fileBlocks_oneSegment h
  exact readStep_holds (elfImage_oneSegment h) hnext (by omega)

/-- On an empty heap a file with one segment loads when the segment is not refused. -/
theorem programLoaded_oneSegment {h : Phdr} (hordered : Ordered (blockAddr 4) h) :
    ∃ k', ProgramLoaded (serve (oneSegment h)) (zeroKernel emptyKmem) 0 (blockAddr 0) k' ∧
      loadedImage (serve (oneSegment h)) (zeroKernel emptyKmem) = blockAddr 4 ∧
      programHeaders (serve (oneSegment h)) (zeroKernel emptyKmem) 0 = [h] := by
  have hheaders := fileHeaders_oneSegment h
  have hblocks := fileBlocks_oneSegment h
  rw [← hheaders]
  refine programLoaded_served (elfImage_oneSegment h) ⟨emptyKmem_frontier, by omega⟩ rfl ?_
  rw [hheaders]
  simpa using hordered

end AlphaOS.Processes
