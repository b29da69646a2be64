import AlphaOS.ElfResult

/-! The bytes of a file that the loader, `task_init` and `process_map_elf` look at, address by
address, and when they lie in the file. -/
namespace AlphaOS.Processes
open BlockHeap CString Elf Kheap Paging Tasks WordMemory

/-- The addresses of `n` bytes. -/
def bytesOf (a : Word) (n : ℕ) : List Word := (List.range n).map fun i => a + BitVec.ofNat 32 i

/-- `memcmp`, with `k` bytes left from `i` on. At a difference it looks at the byte before. -/
def memcmpReads (mem : Mem) (ptr1 : Word) (ptr2 : ℤ → Byte) : ℕ → ℕ → List Word
  | 0, _ => []
  | k + 1, i =>
    let a := ptr1 + BitVec.ofNat 32 i
    if mem a ≠ ptr2 i then [a, a - 1] else a :: memcmpReads mem ptr1 ptr2 k (i + 1)

/-- `elf_validate_loaded`, whose conditions are joined by `&&`. -/
def elfValidateReads (mem : Mem) (header : Word) : List Word :=
  memcmpReads mem header (literal [0x7F, 69, 76, 70]) 4 0 ++
  (if ¬ elfValidSignature mem header then [] else [header + 4] ++
  (if ¬ elfValidClass mem header then [] else [header + 5] ++
  (if ¬ elfValidEncoding mem header then [] else bytesOf (header + 28) 4)))

/-- `elf_process_phdr_pt_load`. -/
def elfProcessPhdrPtLoadReads (mem : Mem) (file phdr : Word) : List Word :=
  let base := read32 mem (file + 116)
  let lower := elfLowerBase mem file phdr
  let last := read32 lower (file + 120)
  let endVirtualAddress := (readPhdr lower phdr).paddr + (readPhdr lower phdr).filesz
  bytesOf (phdr + 8) 4 ++
  (if (readPhdr mem phdr).vaddr ≤ base ∨ base = 0 then bytesOf (phdr + 4) 4 else []) ++
  bytesOf (phdr + 12) 4 ++ bytesOf (phdr + 16) 4 ++
  (if last ≤ endVirtualAddress ∨ last = 0 then bytesOf (phdr + 4) 4 else [])

/-- `elf_process_pheader`. -/
def elfProcessPheaderReads (mem : Mem) (file phdr : Word) : List Word :=
  bytesOf phdr 4 ++
  (if (readPhdr mem phdr).type = ptLoad then elfProcessPhdrPtLoadReads mem file phdr else [])

/-- The loop of `elf_process_pheaders`, which calls `elf_pheader` for every header. -/
def elfProcessPheadersReadsLoop (file header : Word) : ℕ → ℕ → Mem → List Word
  | 0, _, _ => []
  | k + 1, i, mem =>
    bytesOf (header + 44) 2 ++
    (if i < (elfPhnum mem header).toNat then
      bytesOf (header + 28) 4 ++ (elfProcessPheaderReads mem file (elfProgramHeader mem header i) ++
      elfProcessPheadersReadsLoop file header k (i + 1)
        (elfProcessPheader mem file (elfProgramHeader mem header i)))
    else [])

def elfProcessPheadersReads (mem : Mem) (file : Word) : List Word :=
  elfProcessPheadersReadsLoop file (elfHeader mem file) 65536 0 mem

/-- The entry point in `task_init`. -/
def taskInitReads (mem : Mem) (file : Word) : List Word := bytesOf (elfHeader mem file + 24) 4

/-- A header in `process_map_elf`: the offset, the flags, the address and the size. -/
def mapSegmentReads (phdr : Word) : List Word :=
  bytesOf (phdr + 4) 4 ++ bytesOf (phdr + 24) 4 ++ bytesOf (phdr + 8) 4 ++ bytesOf (phdr + 20) 4

/-- The loop of `process_map_elf`, which ends after a header whose mapping is refused. -/
def processMapElfReadsLoop (directory file header phdrs : Word) : ℕ → ℕ → Mem → List Word
  | 0, _, _ => []
  | k + 1, i, mem =>
    let phdr := phdrs + BitVec.ofNat 32 (32 * i)
    bytesOf (header + 44) 2 ++
    (if i < (elfPhnum mem header).toNat then
      let h := readPhdr mem phdr
      let r := mapSegment mem directory (elfPhdrPhysAddress mem file h) h
      mapSegmentReads phdr ++
      (if r.1 < 0 then [] else processMapElfReadsLoop directory file header phdrs k (i + 1) r.2)
    else [])

def processMapElfReads (mem : Mem) (directory : Word) (process : Process) : List Word :=
  let header := elfHeader mem process.data
  bytesOf (header + 28) 4 ++
  processMapElfReadsLoop directory process.data header (elfPheader mem header) 65536 0 mem

/-- All of them lie in the `n` bytes from `image` on. -/
def Inside (image : Word) (n : ℕ) (reads : List Word) : Prop := ∀ x ∈ reads, InRange image n x

/-- Where the program header of an index is in a file. -/
def phdrOffset (file : List Byte) (i : ℕ) : Word :=
  elfPhoff (fileMem file) 0 + BitVec.ofNat 32 (32 * i)

def filePhdr (file : List Byte) (i : ℕ) : Phdr := readPhdr (fileMem file) (phdrOffset file i)

def filePhnum (file : List Byte) : ℕ := (elfPhnum (fileMem file) 0).toNat

/-- The file has the ELF header up to `e_phnum`, passes the validation, and has what is read of
its program headers: the type of each, the addresses and the size in the file of those to be
loaded, and all up to the flags of those before which no mapping is refused. -/
structure HeaderInside (image : Word) (file : List Byte) : Prop where
  header : 46 ≤ file.length
  valid : elfValidateLoaded (fileMem file) 0 = 0
  type : ∀ i < filePhnum file, (phdrOffset file i).toNat + 4 ≤ file.length
  load : ∀ i < filePhnum file, (filePhdr file i).type = ptLoad →
    (phdrOffset file i).toNat + 20 ≤ file.length
  map : ∀ i < filePhnum file, (∀ j < i, Ordered image (filePhdr file j)) →
    (phdrOffset file i).toNat + 28 ≤ file.length

/-- The `elf_file` points to the image, which holds the file. -/
structure Kept (mem : Mem) (ptr image : Word) (file : List Byte) : Prop where
  pointer : elfMemory mem ptr = image
  bytes : BytesAt mem image file

/-- There was room for the `elf_file` and the image, and the file was opened and read. -/
structure ReadWhole (files : FileCalls) (s : Kmem) : Prop where
  file_ne : (fileStep s).1 ≠ 0
  image_ne : (imageStep files s).1 ≠ 0
  opened : 0 < (openStep files s).1
  stat : ¬ (statStep files s).1 < 0
  read : ¬ (readStep files s).1 < 0

/-- What is read as a header is there and lies in the bytes of the file: in `elf_load`, and, in
any later memory that keeps the file, in `task_init` and in `process_map_elf`, whose page tables
are away from it. -/
structure ReadsInside (files : FileCalls) (s : Kmem) (file : List Byte) : Prop where
  file_ne : (elfLoad files s).2.1 ≠ 0
  image_ne : elfMemory (elfLoad files s).2.2.mem (elfLoad files s).2.1 ≠ 0
  validate : 0 < (openStep files s).1 → ¬ (statStep files s).1 < 0 → ¬ (readStep files s).1 < 0 →
    Inside (imageStep files s).1 file.length
      (elfValidateReads (readStep files s).2.mem (elfHeader (readStep files s).2.mem (fileStep s).1))
  pheaders : Loads files s → Inside (imageStep files s).1 file.length
    (elfProcessPheadersReads (readStep files s).2.mem (fileStep s).1)
  entry : ∀ mem, Kept mem (elfLoad files s).2.1 (imageStep files s).1 file →
    Inside (imageStep files s).1 file.length (taskInitReads mem (elfLoad files s).2.1)
  map : ∀ mem chunk dir table p, Kept mem (elfLoad files s).2.1 (imageStep files s).1 file →
    p.data = (elfLoad files s).2.1 → PageDir mem chunk dir table →
    pageOf (p.data + 112) ∉ tablePages table →
    (∀ n < file.length, pageOf ((imageStep files s).1 + BitVec.ofNat 32 n) ∉ tablePages table) →
    Inside (imageStep files s).1 file.length (processMapElfReads mem chunk p)

/-! When a few bytes lie inside. -/

section Inside
variable {image c : Word} {n m k : ℕ} {reads reads' : List Word}

lemma inside_nil : Inside image n [] := by simp [Inside]

lemma inside_append : Inside image n (reads ++ reads') ↔ Inside image n reads ∧ Inside image n reads' := by
  simp [Inside, or_imp, forall_and]

lemma inside_cons {x : Word} : Inside image n (x :: reads) ↔ InRange image n x ∧ Inside image n reads := by
  simp [Inside]

lemma inRange_image : InRange image n (image + c) ↔ c.toNat < n := by
  have hsub : image + c - image = c := by
    rw [BitVec.add_comm, BitVec.add_sub_cancel]
  rw [InRange, hsub]

/-- A few bytes in a row lie inside when the last of them does. -/
lemma inside_bytesOf (hn : n < 2 ^ 31) (hpos : 0 < k) (hk : k ≤ 4) :
    Inside image n (bytesOf (image + c) k) ↔ c.toNat + k ≤ n := by
  have hoffset : ∀ j < k, c.toNat < n → (c + BitVec.ofNat 32 j).toNat = c.toNat + j := by
    intro j hj hc
    exact toNat_add_ofNat (by omega)
  have hread : Inside image n (bytesOf (image + c) k) ↔
      ∀ j < k, (c + BitVec.ofNat 32 j).toNat < n := by
    simp only [Inside, bytesOf, List.mem_map, List.mem_range, forall_exists_index, and_imp,
      forall_apply_eq_imp_iff₂, BitVec.add_assoc, inRange_image]
  rw [hread]
  constructor
  · intro h
    have hfirst : c.toNat < n := by simpa using h 0 hpos
    have hlast := h (k - 1) (by omega)
    rw [hoffset _ (by omega) hfirst] at hlast
    omega
  · intro h j hj
    rw [hoffset j hj (by omega)]
    omega

/-- The words of a program header whose type lies inside. -/
lemma inside_field (hn : n < 2 ^ 31) (hc : c.toNat + 4 ≤ n) (hm : m ≤ 28) :
    Inside image n (bytesOf (image + c + BitVec.ofNat 32 m) 4) ↔ c.toNat + m + 4 ≤ n := by
  have hsum := toNat_add_ofNat (a := c) (k := m) (by omega)
  rw [BitVec.add_assoc, inside_bytesOf hn (by omega) le_rfl, hsum]

/-- The words of the ELF header. -/
lemma inside_header (hn : n < 2 ^ 31) (hpos : 0 < k) (hk : k ≤ 4) (hm : m + k ≤ n) :
    Inside image n (bytesOf (image + BitVec.ofNat 32 m) k) := by
  refine (inside_bytesOf hn hpos hk).2 ?_
  rw [BitVec.toNat_ofNat]
  omega

end Inside

/-! The file in memory, and what is read of it. -/

section Reading
variable {mem : Mem} {image ptr : Word} {file : List Byte} {n i k : ℕ}

lemma forall_from {P : ℕ → Prop} (hi : i < n) : (∀ j, i ≤ j → j < n → P j) ↔
    P i ∧ ∀ j, i + 1 ≤ j → j < n → P j := by
  refine ⟨fun h => ⟨h i le_rfl hi, fun j hj => h j (by omega)⟩, fun h j hj hlt => ?_⟩
  rcases Nat.eq_or_lt_of_le hj with rfl | hlt'
  · exact h.1
  · exact h.2 j hlt' hlt

lemma inside_memcmpReads {ptr2 : ℤ → Byte}
    (heq : ∀ j, i ≤ j → j < i + k → mem (image + BitVec.ofNat 32 j) = ptr2 j) (hlen : i + k ≤ n) :
    Inside image n (memcmpReads mem image ptr2 k i) := by
  induction k generalizing i with
  | zero => exact inside_nil
  | succ k ih =>
    rw [memcmpReads, if_neg (not_not.2 (heq i le_rfl (by omega))), inside_cons, inRange_image,
      BitVec.toNat_ofNat]
    exact ⟨by omega, ih (fun j hj hlt => heq j (by omega) (by omega)) (by omega)⟩

/-- Everything `elf_validate_loaded` reads of a file it accepts. -/
lemma inside_elfValidateReads (hn : n < 2 ^ 31) (hlen : 32 ≤ n)
    (hvalid : elfValidateLoaded mem image = 0) : Inside image n (elfValidateReads mem image) := by
  unfold elfValidateLoaded at hvalid
  split_ifs at hvalid with hall
  · obtain ⟨hsignature, hclass, hencoding, -⟩ := hall
    have hsame := hsignature
    rw [elfValidSignature, decide_eq_true_eq, memcmp_eq_zero] at hsame
    have hmemcmp : Inside image n (memcmpReads mem image (literal [0x7F, 69, 76, 70]) 4 0) := by
      refine inside_memcmpReads (fun j _ hj => ?_) (by omega)
      have hbyte := hsame j (by omega) (by omega)
      rwa [pointer, BitVec.ofInt_natCast] at hbyte
    have hone : ∀ m < 32, InRange image n (image + BitVec.ofNat 32 m) := by
      intro m hm
      rw [inRange_image, BitVec.toNat_ofNat]
      omega
    rw [elfValidateReads, if_neg (not_not.2 hsignature), if_neg (not_not.2 hclass),
      if_neg (not_not.2 hencoding)]
    simp only [inside_append, inside_cons]
    exact ⟨hmemcmp, ⟨hone 4 (by omega), inside_nil⟩, ⟨hone 5 (by omega), inside_nil⟩,
      inside_header (m := 28) hn (by omega) le_rfl (by omega)⟩
  · exact absurd hvalid (by decide)

variable (hbytes : BytesAt mem image file) (hsmall : file.length < 2 ^ 31)
include hbytes hsmall

lemma phnum_of_bytesAt (hlen : 46 ≤ file.length) : (elfPhnum mem image).toNat = filePhnum file := by
  rw [elfPhnum_congr (header_of_bytesAt hbytes (by omega) hlen), filePhnum]

lemma pheader_of_bytesAt (hlen : 46 ≤ file.length) (hphoff : elfPhoff (fileMem file) 0 ≠ 0) :
    elfPheader mem image = image + elfPhoff (fileMem file) 0 := by
  rw [elfPheader, elfPhoff_congr (header_of_bytesAt hbytes (by omega) hlen), if_neg hphoff]

/-- What `elf_process_pheader` reads of a header. -/
lemma inside_elfProcessPheaderReads {c : Word} :
    Inside image file.length (elfProcessPheaderReads mem ptr (image + c)) ↔
      c.toNat + 4 ≤ file.length ∧
        ((readPhdr (fileMem file) c).type = ptLoad → c.toNat + 20 ≤ file.length) := by
  rw [elfProcessPheaderReads, inside_append, inside_bytesOf hsmall (by omega) le_rfl]
  refine and_congr_right fun hc => ?_
  have htype : (readPhdr mem (image + c)).type = (readPhdr (fileMem file) c).type :=
    word_of_bytesAt hbytes (by omega) hc
  have hfield : ∀ m ≤ 28, Inside image file.length (bytesOf (image + c + BitVec.ofNat 32 m) 4) ↔
      c.toNat + m + 4 ≤ file.length := fun m hm => inside_field hsmall hc hm
  rw [htype]
  split_ifs with hload
  · simp only [elfProcessPhdrPtLoadReads, inside_append]
    constructor
    · rintro ⟨⟨-, hsize⟩, -⟩ -
      have hlast := (hfield 16 (by omega)).1 hsize
      omega
    · intro h
      have hlast := h hload
      have hoffset := (hfield 4 (by omega)).2 (by omega)
      refine ⟨⟨⟨⟨(hfield 8 (by omega)).2 (by omega), ?_⟩, (hfield 12 (by omega)).2 (by omega)⟩,
        (hfield 16 (by omega)).2 (by omega)⟩, ?_⟩
      · split_ifs
        · exact hoffset
        · exact inside_nil
      · split_ifs
        · exact hoffset
        · exact inside_nil
  · exact iff_of_true inside_nil fun h => absurd h hload

/-- What `elf_process_pheaders` reads from header `i` on, if its writes leave the file alone. -/
lemma inside_elfProcessPheadersReadsLoop (hlen : 46 ≤ file.length)
    (hphoff : elfPhoff (fileMem file) 0 ≠ 0)
    (hapart : ∀ n < file.length, ¬ InRange (ptr + 116) 16 (image + BitVec.ofNat 32 n))
    (hk : filePhnum file ≤ i + k) :
    Inside image file.length (elfProcessPheadersReadsLoop ptr image k i mem) ↔
      ∀ j, i ≤ j → j < filePhnum file → (phdrOffset file j).toNat + 4 ≤ file.length ∧
        ((filePhdr file j).type = ptLoad → (phdrOffset file j).toNat + 20 ≤ file.length) := by
  induction k generalizing i mem with
  | zero => exact iff_of_true inside_nil fun j hj hlt => absurd hlt (by omega)
  | succ k ih =>
    have hheader : elfProgramHeader mem image i = image + phdrOffset file i := by
      rw [elfProgramHeader, pheader_of_bytesAt hbytes hsmall hlen hphoff, phdrOffset,
        BitVec.add_assoc]
    have hcount : Inside image file.length (bytesOf (image + 44) 2) :=
      inside_header (m := 44) hsmall (by omega) (by omega) hlen
    have hoffset : Inside image file.length (bytesOf (image + 28) 4) :=
      inside_header (m := 28) hsmall (by omega) le_rfl (by omega)
    have hkept : BytesAt (elfProcessPheader mem ptr (image + phdrOffset file i)) image file :=
      hbytes.congr fun n hn => elfProcessPheader_frame (hapart n hn)
    rw [elfProcessPheadersReadsLoop, phnum_of_bytesAt hbytes hsmall hlen, hheader, inside_append,
      and_iff_right hcount]
    by_cases hi : i < filePhnum file
    · rw [if_pos hi, inside_append, and_iff_right hoffset, inside_append,
        inside_elfProcessPheaderReads hbytes hsmall, ih hkept (by omega), forall_from hi]
      rfl
    · rw [if_neg hi]
      exact iff_of_true inside_nil fun j hj hlt => absurd hlt (by omega)

omit hbytes in
/-- What `process_map_elf` reads of a header. -/
lemma inside_mapSegmentReads {c : Word} (hc : c.toNat + 4 ≤ file.length) :
    Inside image file.length (mapSegmentReads (image + c)) ↔ c.toNat + 28 ≤ file.length := by
  have hfield : ∀ m ≤ 28, Inside image file.length (bytesOf (image + c + BitVec.ofNat 32 m) 4) ↔
      c.toNat + m + 4 ≤ file.length := fun m hm => inside_field hsmall hc hm
  rw [mapSegmentReads]
  simp only [inside_append]
  constructor
  · rintro ⟨⟨⟨-, hflags⟩, -⟩, -⟩
    exact (hfield 24 (by omega)).1 hflags
  · intro h
    exact ⟨⟨⟨(hfield 4 (by omega)).2 (by omega), (hfield 24 (by omega)).2 (by omega)⟩,
      (hfield 8 (by omega)).2 (by omega)⟩, (hfield 20 (by omega)).2 (by omega)⟩

end Reading

/-- The headers before `j`, from `i` on, are mapped. -/
lemma forall_before {P : ℕ → Prop} {i j : ℕ} (hj : i + 1 ≤ j) :
    (∀ l, i ≤ l → l < j → P l) ↔ P i ∧ ∀ l, i + 1 ≤ l → l < j → P l := forall_from (by omega)

/-- What `process_map_elf` reads from header `i` on, with the page tables away from the file. -/
lemma inside_processMapElfReadsLoop {mem : Mem} {chunk dir image ptr : Word} {table : ℕ → Word}
    {file : List Byte} {i k : ℕ} (hdir : PageDir mem chunk dir table)
    (hptr : (ptr + 112).toNat % 4 = 0) (hptrOff : pageOf (ptr + 112) ∉ tablePages table)
    (himage : elfMemory mem ptr = image) (hbytes : BytesAt mem image file)
    (hoff : ∀ n < file.length, pageOf (image + BitVec.ofNat 32 n) ∉ tablePages table)
    (hsmall : file.length < 2 ^ 31) (hlen : 46 ≤ file.length)
    (htype : ∀ j < filePhnum file, (phdrOffset file j).toNat + 4 ≤ file.length)
    (hk : filePhnum file ≤ i + k) :
    Inside image file.length (processMapElfReadsLoop chunk ptr image
      (image + elfPhoff (fileMem file) 0) k i mem) ↔
      ∀ j, i ≤ j → j < filePhnum file → (∀ l, i ≤ l → l < j → Ordered image (filePhdr file l)) →
        (phdrOffset file j).toNat + 28 ≤ file.length := by
  induction k generalizing i mem with
  | zero => exact iff_of_true inside_nil fun j hj hlt => absurd hlt (by omega)
  | succ k ih =>
    have hcount : Inside image file.length (bytesOf (image + 44) 2) :=
      inside_header (m := 44) hsmall (by omega) (by omega) hlen
    have hphdr : image + elfPhoff (fileMem file) 0 + BitVec.ofNat 32 (32 * i) =
        image + phdrOffset file i := by rw [phdrOffset, BitVec.add_assoc]
    rw [processMapElfReadsLoop]
    dsimp only
    rw [phnum_of_bytesAt hbytes hsmall hlen, hphdr, inside_append, and_iff_right hcount]
    by_cases hi : i < filePhnum file
    · rw [if_pos hi, inside_append, inside_mapSegmentReads hsmall (htype i hi), forall_from hi]
      have hfirst : (∀ l, i ≤ l → l < i → Ordered image (filePhdr file l)) ↔ True :=
        iff_true_intro fun l hl hlt => absurd hlt (by omega)
      rw [hfirst, true_imp_iff]
      refine and_congr_right fun hinside => ?_
      have hread : readPhdr mem (image + phdrOffset file i) = filePhdr file i :=
        phdr_of_bytesAt hbytes (by omega) hinside
      rw [hread, elfPhdrPhysAddress, himage]
      split_ifs with hneg
      · refine iff_of_true inside_nil fun j hj _ hbefore => absurd hneg ?_
        rw [mapSegment_ok (hbefore i le_rfl (by omega))]
        exact lt_irrefl 0
      · obtain ⟨-, hdir', hsame, hordered, -⟩ := mapSegment_spec hdir image (filePhdr file i) hneg
        have himage' : elfMemory (mapSegment mem chunk (image + (filePhdr file i).offset)
            (filePhdr file i)).2 ptr = image := by
          rw [elfMemory, hsame.read32 hptr hptrOff]
          exact himage
        have hbytes' := hbytes.congr fun n hn => hsame _ (hoff n hn)
        rw [ih hdir' himage' hbytes' (by omega)]
        refine forall₃_congr fun j hj _ => ?_
        rw [forall_before hj, and_iff_right hordered]
    · rw [if_neg hi]
      exact iff_of_true inside_nil fun j hj hlt => absurd hlt (by omega)

/-! Page tables below the heap, in any memory: 1024 of them, the directory behind them and a
pointer to it as the word after its last entry. -/

def lowTables (m : Mem) : Mem := fun x =>
  if 0x400000 ≤ x.toNat ∧ x.toNat < 0x402000 then
    (BitVec.ofNat 32 (4096 * ((x.toNat - 0x400000) / 4)) >>> (8 * (x.toNat % 4))).setWidth 8
  else m x

lemma read32_lowTables (m : Mem) {i : ℕ} (hi : i < 2048) :
    read32 (lowTables m) (0x400000 + BitVec.ofNat 32 (4 * i)) = BitVec.ofNat 32 (4096 * i) := by
  have hbyte : ∀ j < 4, lowTables m (0x400000 + BitVec.ofNat 32 (4 * i) + BitVec.ofNat 32 j) =
      (BitVec.ofNat 32 (4096 * i) >>> (8 * j)).setWidth 8 := by
    intro j hj
    have haddr : (0x400000 + BitVec.ofNat 32 (4 * i) + BitVec.ofNat 32 j : Word).toNat =
        0x400000 + (4 * i + j) := by
      rw [BitVec.add_assoc, ← BitVec.ofNat_add]
      refine toNat_add_ofNat (a := 0x400000) ?_
      change 0x400000 + (4 * i + j) < 2 ^ 32
      omega
    have hindex : (0x400000 + (4 * i + j) - 0x400000) / 4 = i := by omega
    have hplace : (0x400000 + (4 * i + j)) % 4 = j := by omega
    rw [lowTables, haddr, if_pos (by omega), hindex, hplace]
  generalize BitVec.ofNat 32 (4096 * i) = v at hbyte ⊢
  generalize (0x400000 + BitVec.ofNat 32 (4 * i) : Word) = a at hbyte ⊢
  have h0 := hbyte 0 (by omega)
  rw [BitVec.add_zero] at h0
  have h1 : lowTables m (a + 1) = (v >>> 8).setWidth 8 := hbyte 1 (by omega)
  have h2 : lowTables m (a + 2) = (v >>> 16).setWidth 8 := hbyte 2 (by omega)
  have h3 : lowTables m (a + 3) = (v >>> 24).setWidth 8 := hbyte 3 (by omega)
  rw [read32, h0, h1, h2, h3]
  exact append_bytes v

lemma lowTables_pageDir (m : Mem) :
    PageDir (lowTables m) 0x401000 0x400000 fun i => BitVec.ofNat 32 (4096 * i) := by
  have htable : ∀ i < 1024, (BitVec.ofNat 32 (4096 * i)).toNat = 4096 * i := by
    intro i hi
    rw [BitVec.toNat_ofNat]
    omega
  have hpage : ∀ i < 1024, pageOf (BitVec.ofNat 32 (4096 * i)) = i := by
    intro i hi
    rw [pageOf, htable i hi]
    omega
  refine ⟨by decide, ?_, ?_, by decide, ?_, ?_, ?_, ?_⟩
  · exact read32_lowTables m (i := 1024) (by omega)
  · intro i hi
    rw [hpage i hi]
    change 1025 ≠ i
    omega
  · intro i hi
    rw [htable i hi]
    omega
  · intro i hi
    rw [read32_lowTables m (by omega)]
    apply BitVec.eq_of_toNat_eq
    rw [toNat_and_page, htable i hi]
    omega
  · intro i hi
    rw [hpage i hi]
    change 1024 ≠ i
    omega
  · intro i hi j hj heq
    rwa [hpage i hi, hpage j hj] at heq

lemma lowTables_same {m : Mem} {x : Word} (hx : 4096 ≤ pageOf x) : lowTables m x = m x := by
  unfold pageOf at hx
  exact if_neg (by omega)

/-! No other bytes count: memories that agree on what is read have the same result. -/

section Agreeing
variable {mem mem' : Mem} {a file header phdr : Word} {S : Set Word}

lemma read32_of_reads (h : ∀ x ∈ bytesOf a 4, mem' x = mem x) : read32 mem' a = read32 mem a := by
  refine read32_congr fun n hn => h _ ?_
  exact List.mem_map.2 ⟨n, List.mem_range.2 hn, rfl⟩

lemma elfPhnum_of_reads (h : ∀ x ∈ bytesOf (header + 44) 2, mem' x = mem x) :
    elfPhnum mem' header = elfPhnum mem header := by
  have hlow : header + 44 ∈ bytesOf (header + 44) 2 :=
    List.mem_map.2 ⟨0, by simp, BitVec.add_zero _⟩
  have hhigh : header + 44 + 1 ∈ bytesOf (header + 44) 2 := List.mem_map.2 ⟨1, by simp, rfl⟩
  rw [elfPhnum, elfPhnum, read16, read16, h _ hlow, h _ hhigh]

lemma memcmp_of_reads {ptr2 : ℤ → Byte} {k i : ℕ}
    (h : ∀ x ∈ memcmpReads mem a ptr2 k i, mem' x = mem x) :
    (∀ j, i ≤ j → j < i + k → mem' (a + BitVec.ofNat 32 j) = ptr2 j) ↔
      ∀ j, i ≤ j → j < i + k → mem (a + BitVec.ofNat 32 j) = ptr2 j := by
  induction k generalizing i with
  | zero => exact iff_of_true (fun j _ hlt => absurd hlt (by omega)) fun j _ hlt => absurd hlt (by omega)
  | succ k ih =>
    have hsplit : ∀ m : Mem, (∀ j, i ≤ j → j < i + (k + 1) → m (a + BitVec.ofNat 32 j) = ptr2 j) ↔
        m (a + BitVec.ofNat 32 i) = ptr2 i ∧
          ∀ j, i + 1 ≤ j → j < i + 1 + k → m (a + BitVec.ofNat 32 j) = ptr2 j := by
      intro m
      rw [show i + (k + 1) = i + 1 + k by omega]
      exact forall_from (P := fun j => m (a + BitVec.ofNat 32 j) = ptr2 j) (by omega)
    rw [memcmpReads] at h
    rw [hsplit, hsplit]
    by_cases hne : mem (a + BitVec.ofNat 32 i) = ptr2 i
    · rw [if_neg (not_not.2 hne)] at h
      rw [h _ List.mem_cons_self, ih fun x hx => h x (List.mem_cons_of_mem _ hx)]
    · rw [if_pos hne] at h
      rw [h _ List.mem_cons_self]
      exact iff_of_false (fun hall => hne hall.1) fun hall => hne hall.1

lemma elfValidSignature_of_reads
    (h : ∀ x ∈ memcmpReads mem header (literal [0x7F, 69, 76, 70]) 4 0, mem' x = mem x) :
    elfValidSignature mem' header = elfValidSignature mem header := by
  have hnat : ∀ m : Mem, memcmp (pointer m header) (literal [0x7F, 69, 76, 70]) 4 = 0 ↔
      ∀ j, 0 ≤ j → j < 0 + 4 → m (header + BitVec.ofNat 32 j) = literal [0x7F, 69, 76, 70] j := by
    intro m
    rw [memcmp_eq_zero]
    constructor
    · intro hall j _ hj
      have hbyte := hall j (by omega) (by omega)
      rwa [pointer, BitVec.ofInt_natCast] at hbyte
    · intro hall j h0 hj
      obtain ⟨n, rfl⟩ := Int.eq_ofNat_of_zero_le h0
      rw [pointer, BitVec.ofInt_natCast]
      exact hall n (by omega) (by omega)
  unfold elfValidSignature
  exact decide_eq_decide.2 ((hnat mem').trans ((memcmp_of_reads h).trans (hnat mem).symm))

lemma elfValidateLoaded_of_reads (h : ∀ x ∈ elfValidateReads mem header, mem' x = mem x) :
    elfValidateLoaded mem' header = elfValidateLoaded mem header := by
  rw [elfValidateReads] at h
  have hsignature := elfValidSignature_of_reads fun x hx => h x (List.mem_append_left _ hx)
  replace h := fun x hx => h x (List.mem_append_right _ hx)
  unfold elfValidateLoaded
  rw [hsignature]
  refine if_congr (and_congr_right fun h1 => ?_) rfl rfl
  rw [if_neg (not_not.2 h1)] at h
  have hclass : elfValidClass mem' header = elfValidClass mem header := by
    rw [elfValidClass, elfValidClass, h _ (List.mem_append_left _ List.mem_cons_self)]
  rw [hclass]
  refine and_congr_right fun h2 => ?_
  rw [if_neg (not_not.2 h2)] at h
  replace h := fun x hx => h x (List.mem_append_right _ hx)
  have hencoding : elfValidEncoding mem' header = elfValidEncoding mem header := by
    rw [elfValidEncoding, elfValidEncoding, h _ (List.mem_append_left _ List.mem_cons_self)]
  rw [hencoding]
  refine and_congr_right fun h3 => ?_
  rw [if_neg (not_not.2 h3)] at h
  have hphoff : elfPhoff mem' header = elfPhoff mem header :=
    read32_of_reads fun x hx => h x (List.mem_append_right _ hx)
  rw [elfHasProgramHeader, elfHasProgramHeader, hphoff]

lemma agree_write32 (h : ∀ x ∈ S, mem' x = mem x) (a v : Word) :
    ∀ x ∈ S, write32 mem' a v x = write32 mem a v x := by
  intro x hx
  unfold write32
  rw [h x hx]

section File
variable (hfile : ∀ x, InRange (file + 112) 20 x → x ∈ S)
include hfile

/-- A word of the `elf_file` from the pointer to the image on. -/
lemma fileWord_of_reads (h : ∀ x ∈ S, mem' x = mem x) {c : Word} (hc : c.toNat ≤ 16) :
    read32 mem' (file + 112 + c) = read32 mem (file + 112 + c) :=
  read32_eq_of_same fun x hx => h x (hfile x (inRange_add (by omega) (by omega) hx))

lemma elfLowerBase_of_reads (h : ∀ x ∈ S, mem' x = mem x) (hvaddr : ∀ x ∈ bytesOf (phdr + 8) 4, x ∈ S)
    (hoffset : (readPhdr mem phdr).vaddr ≤ read32 mem (file + 116) ∨ read32 mem (file + 116) = 0 →
      ∀ x ∈ bytesOf (phdr + 4) 4, x ∈ S) :
    ∀ x ∈ S, elfLowerBase mem' file phdr x = elfLowerBase mem file phdr x := by
  have hbase : read32 mem' (file + 116) = read32 mem (file + 116) := by
    have hword := fileWord_of_reads hfile h (c := 4) (by decide)
    rwa [add_assoc] at hword
  have hsame : (readPhdr mem' phdr).vaddr = (readPhdr mem phdr).vaddr :=
    read32_of_reads fun x hx => h x (hvaddr x hx)
  unfold elfLowerBase
  rw [hbase, hsame]
  dsimp only
  split_ifs with hlower
  · have hfirst := agree_write32 h (file + 116) (readPhdr mem phdr).vaddr
    have himage := fileWord_of_reads hfile hfirst (c := 0) (by decide)
    rw [add_zero] at himage
    have hfield := read32_of_reads (a := phdr + 4) fun x hx => hfirst x (hoffset hlower x hx)
    rw [elfMemory, elfMemory, himage]
    change ∀ x ∈ S, write32 _ _ (_ + read32 _ (phdr + 4)) x = _
    rw [hfield]
    exact agree_write32 hfirst _ _
  · exact h

lemma elfProcessPhdrPtLoad_of_reads (h : ∀ x ∈ S, mem' x = mem x)
    (hreads : ∀ x ∈ elfProcessPhdrPtLoadReads mem file phdr, x ∈ S) :
    ∀ x ∈ S, elfProcessPhdrPtLoad mem' file phdr x = elfProcessPhdrPtLoad mem file phdr x := by
  simp only [elfProcessPhdrPtLoadReads, List.mem_append, or_imp, forall_and] at hreads
  obtain ⟨⟨⟨⟨hvaddr, hoffset⟩, hpaddr⟩, hfilesz⟩, hoffset'⟩ := hreads
  have hlower := elfLowerBase_of_reads hfile h hvaddr fun hcond x hx =>
    hoffset x (by rwa [if_pos hcond])
  have hlast : read32 (elfLowerBase mem' file phdr) (file + 120) =
      read32 (elfLowerBase mem file phdr) (file + 120) := by
    have hword := fileWord_of_reads hfile hlower (c := 8) (by decide)
    rwa [add_assoc] at hword
  have hsame : ∀ m m' : Mem, (∀ x ∈ S, m' x = m x) →
      (readPhdr m' phdr).paddr = (readPhdr m phdr).paddr ∧
      (readPhdr m' phdr).filesz = (readPhdr m phdr).filesz := fun m m' hm =>
    ⟨read32_of_reads fun x hx => hm x (hpaddr x hx), read32_of_reads fun x hx => hm x (hfilesz x hx)⟩
  unfold elfProcessPhdrPtLoad
  dsimp only
  rw [hlast, (hsame _ _ hlower).1, (hsame _ _ hlower).2]
  split_ifs at hoffset' ⊢ with hupper
  · have hfirst := agree_write32 hlower (file + 120)
      ((readPhdr (elfLowerBase mem file phdr) phdr).paddr +
        (readPhdr (elfLowerBase mem file phdr) phdr).filesz)
    have himage := fileWord_of_reads hfile hfirst (c := 0) (by decide)
    rw [add_zero] at himage
    have hfield := read32_of_reads (a := phdr + 4) fun x hx => hfirst x (hoffset' x hx)
    rw [elfMemory, elfMemory, himage, (hsame _ _ hfirst).2]
    change ∀ x ∈ S, write32 _ _ (_ + read32 _ (phdr + 4) + _) x = _
    rw [hfield]
    exact agree_write32 hfirst _ _
  · exact hlower

lemma elfProcessPheader_of_reads (h : ∀ x ∈ S, mem' x = mem x)
    (hreads : ∀ x ∈ elfProcessPheaderReads mem file phdr, x ∈ S) :
    ∀ x ∈ S, elfProcessPheader mem' file phdr x = elfProcessPheader mem file phdr x := by
  simp only [elfProcessPheaderReads, List.mem_append, or_imp, forall_and] at hreads
  have htype : (readPhdr mem' phdr).type = (readPhdr mem phdr).type :=
    read32_of_reads fun x hx => h x (hreads.1 x hx)
  rw [elfProcessPheader, elfProcessPheader, htype]
  split_ifs with hload
  · exact elfProcessPhdrPtLoad_of_reads hfile h fun x hx => hreads.2 x (by rwa [if_pos hload])
  · exact h

lemma elfProcessPheadersLoop_of_reads {k i : ℕ} (h : ∀ x ∈ S, mem' x = mem x)
    (hreads : ∀ x ∈ elfProcessPheadersReadsLoop file header k i mem, x ∈ S) :
    ∀ x ∈ S, elfProcessPheadersLoop file header k i mem' x =
      elfProcessPheadersLoop file header k i mem x := by
  induction k generalizing i mem mem' with
  | zero => exact h
  | succ k ih =>
    simp only [elfProcessPheadersReadsLoop, List.mem_append, or_imp, forall_and] at hreads
    obtain ⟨hcount, hrest⟩ := hreads
    rw [elfProcessPheadersLoop, elfProcessPheadersLoop,
      elfPhnum_of_reads fun x hx => h x (hcount x hx)]
    split_ifs at hrest ⊢
    · simp only [List.mem_append, or_imp, forall_and] at hrest
      obtain ⟨hoffset, hphdr, hlast⟩ := hrest
      have hphoff : elfPhoff mem' header = elfPhoff mem header :=
        read32_of_reads fun x hx => h x (hoffset x hx)
      have hprogram : elfProgramHeader mem' header i = elfProgramHeader mem header i := by
        rw [elfProgramHeader, elfProgramHeader, elfPheader, elfPheader, hphoff]
      rw [hprogram]
      exact ih (elfProcessPheader_of_reads hfile h hphdr) hlast
    · exact h

end File

/-- What `elf_process_pheaders` makes of the `elf_file` depends on its reads only. -/
theorem elfProcessPheaders_of_reads
    (h : ∀ x, InRange (file + 112) 20 x ∨ x ∈ elfProcessPheadersReads mem file → mem' x = mem x) :
    ∀ x, InRange (file + 112) 20 x → elfProcessPheaders mem' file x = elfProcessPheaders mem file x := by
  have hfile : ∀ x, InRange (file + 112) 20 x →
      x ∈ {x | InRange (file + 112) 20 x ∨ x ∈ elfProcessPheadersReads mem file} := fun x hx => .inl hx
  have hheader : elfHeader mem' file = elfHeader mem file := by
    have hword := fileWord_of_reads hfile h (c := 0) (by decide)
    rwa [add_zero] at hword
  intro x hx
  rw [elfProcessPheaders, elfProcessPheaders, hheader]
  exact elfProcessPheadersLoop_of_reads hfile h (fun y hy => .inr hy) x (.inl hx)

end Agreeing

section Load
variable {files : FileCalls} {s : Kmem} {file : List Byte}

lemma valid_phoff {mem : Mem} {header : Word} (h : elfValidateLoaded mem header = 0) :
    elfPhoff mem header ≠ 0 := by
  unfold elfValidateLoaded at h
  split_ifs at h with hall
  · simpa [elfHasProgramHeader] using hall.2.2.2
  · exact absurd h (by decide)

/-- A file with the whole ELF header passes the validation in memory when it does by itself. -/
lemma valid_of_bytesAt {mem : Mem} {image : Word} (hbytes : BytesAt mem image file)
    (hsmall : file.length < 2 ^ 31) (hlen : 46 ≤ file.length) :
    elfValidateLoaded mem image = elfValidateLoaded (fileMem file) 0 :=
  elfValidateLoaded_congr (header_of_bytesAt hbytes (by omega) hlen)

/-- A valid file that is read is accepted. -/
lemma ReadWhole.loads (h : ReadWhole files s) (hspares : files.Spares ∅ s)
    (hfile : files.Delivers s file) (hlen : 46 ≤ file.length)
    (hvalid : elfValidateLoaded (fileMem file) 0 = 0) : LoadsWhole files s := by
  refine ⟨h.file_ne, h.image_ne, h.opened, h.stat, h.read, ?_⟩
  have hheader : elfHeader (readStep files s).2.mem (fileStep s).1 = (imageStep files s).1 :=
    hspares.elfMemory_readStep h.file_ne
  rw [loadStep, elfProcessLoaded_fst, hheader,
    valid_of_bytesAt (hfile.read h.read) hfile.small hlen, hvalid]
  exact lt_irrefl 0

lemma elfFile_aligned (h : (fileStep s).1 ≠ 0) : ((fileStep s).1 + 112).toNat % 4 = 0 := by
  obtain ⟨f, hf, -, hfeq, -⟩ := (fileStep_cases s).resolve_left fun heq => h (by rw [heq])
  have hword := toNat_add_ofNat (a := blockAddr f) (k := 112) (by
    rw [blockAddr_toNat (by omega)]
    omega)
  rw [blockAddr_toNat (by omega)] at hword
  rw [hfeq]
  change (blockAddr f + BitVec.ofNat 32 112).toNat % 4 = 0
  omega

/-- The blocks of the file and its `elf_file` are above the page tables at low addresses. -/
lemma kept_lowTables (hfile : files.Delivers s file)
    (hspares : files.Spares ∅ s) (h : LoadsWhole files s) :
    Kept (lowTables (elfLoad files s).2.2.mem) (elfLoad files s).2.1 (imageStep files s).1 file ∧
    4096 ≤ pageOf ((elfLoad files s).2.1 + 112) ∧
    ∀ n < file.length, 4096 ≤ pageOf ((imageStep files s).1 + BitVec.ofNat 32 n) := by
  have hhanded := h.handed hspares hfile
  have hout : (elfLoad files s).2.1 = (fileStep s).1 := by rw [h.loads.elfLoad_eq]
  have hpointer := hspares.elfMemory_eq h.loads h.file_ne
  rw [← hout] at hpointer
  obtain ⟨f, hf, -, hfeq, -⟩ := (fileStep_cases s).resolve_left fun heq => h.file_ne (by rw [heq])
  have hfaddr : (elfLoad files s).2.1 = blockAddr f := by rw [hout, hfeq]
  have hword : ∀ x, InRange ((elfLoad files s).2.1 + 112) 4 x → 4096 ≤ pageOf x := by
    intro x hx
    rw [hfaddr] at hx
    have hpage := elfMemory_page hf hx
    omega
  have hfile' : ∀ n < file.length, 4096 ≤ pageOf ((imageStep files s).1 + BitVec.ofNat 32 n) := by
    intro n hn
    obtain ⟨a, -, haddr, -, hpages⟩ := hfile.image_block h.loads h.image_ne
    obtain ⟨b, hpage, -⟩ := hpages n (.inl hn)
    rw [haddr, hpage]
    omega
  refine ⟨⟨?_, ?_⟩, hword _ ?_, hfile'⟩
  · rw [← hpointer]
    exact read32_eq_of_same fun x hx => lowTables_same (hword x hx)
  · have hbytes := hhanded.bytes
    rw [hpointer] at hbytes
    exact hbytes.congr fun n hn => lowTables_same (hfile' n hn)
  · rw [InRange, sub_self]
    decide

/-- The tables at low addresses are away from the heap. -/
lemma lowTables_off {p : ℕ} (hp : 4096 ≤ p) :
    p ∉ tablePages fun i => BitVec.ofNat 32 (4096 * i) := by
  rintro ⟨i, hi, rfl⟩
  rw [pageOf, BitVec.toNat_ofNat] at hp
  omega

/-- Every read of a header lies in the file exactly when there was room for the file, it was
read, and the header and the program headers it names are in it. -/
theorem readsInside_iff (hspares : files.Spares ∅ s) (hfile : files.Delivers s file) :
    ReadsInside files s file ↔
      ReadWhole files s ∧ HeaderInside (imageStep files s).1 file := by
  have hsmall := hfile.small
  constructor
  · intro h
    obtain ⟨hloads, hout⟩ := Loads.of_handed h.file_ne
    have hfne : (fileStep s).1 ≠ 0 := by
      rw [← hout]
      exact h.file_ne
    have hine : (imageStep files s).1 ≠ 0 := by
      rw [← hspares.elfMemory_eq hloads hfne, ← hout]
      exact h.image_ne
    have hwhole : LoadsWhole files s := ⟨hfne, hine, hloads⟩
    have hbytes := hfile.read hloads.read
    have hheader : elfHeader (readStep files s).2.mem (fileStep s).1 = (imageStep files s).1 :=
      hspares.elfMemory_readStep hfne
    have hpheaders := h.pheaders hloads
    rw [elfProcessPheadersReads, hheader] at hpheaders
    have hlen : 46 ≤ file.length := by
      rw [elfProcessPheadersReadsLoop, inside_append] at hpheaders
      exact (inside_bytesOf (c := 44) hsmall (by omega) (by omega)).1 hpheaders.1
    have hvalid : elfValidateLoaded (fileMem file) 0 = 0 := by
      rw [← valid_of_bytesAt hbytes hsmall hlen]
      exact hwhole.valid hspares
    have hphnum : filePhnum file < 65536 := (elfPhnum (fileMem file) 0).isLt
    rw [inside_elfProcessPheadersReadsLoop hbytes hsmall hlen (valid_phoff hvalid)
      (fun n hn => hfile.image_apart hspares hwhole (.inl hn)) (by omega)] at hpheaders
    have htype : ∀ j < filePhnum file, (phdrOffset file j).toNat + 4 ≤ file.length :=
      fun j hj => (hpheaders j (Nat.zero_le j) hj).1
    obtain ⟨hkept, hptrPage, hpages⟩ := kept_lowTables hfile hspares hwhole
    have hoff := fun n hn => lowTables_off (hpages n hn)
    have hmap := h.map _ _ _ _ { zeroProcess with data := (elfLoad files s).2.1 } hkept rfl
      (lowTables_pageDir _) (lowTables_off hptrPage) hoff
    have hptr : ((elfLoad files s).2.1 + 112).toNat % 4 = 0 := by
      rw [hout]
      exact elfFile_aligned hfne
    rw [processMapElfReads, inside_append] at hmap
    have hloop := hmap.2
    change Inside _ _ (processMapElfReadsLoop _ _ (elfMemory _ (elfLoad files s).2.1)
      (elfPheader _ (elfMemory _ (elfLoad files s).2.1)) _ _ _) at hloop
    rw [hkept.pointer, pheader_of_bytesAt hkept.bytes hsmall hlen (valid_phoff hvalid),
      inside_processMapElfReadsLoop (lowTables_pageDir _) hptr (lowTables_off hptrPage) hkept.pointer
        hkept.bytes hoff hsmall hlen htype (by omega)] at hloop
    exact ⟨⟨hfne, hine, hloads.opened, hloads.stat, hloads.read⟩, hlen, hvalid, htype,
      fun i hi => (hpheaders i (Nat.zero_le i) hi).2,
      fun i hi hbefore => hloop i (Nat.zero_le i) hi fun l _ hl => hbefore l hl⟩
  · rintro ⟨hread, hinside⟩
    have hlen := hinside.header
    have hvalid := hinside.valid
    have hwhole := hread.loads hspares hfile hlen hvalid
    have hhanded := hwhole.handed hspares hfile
    have hout : (elfLoad files s).2.1 = (fileStep s).1 := by rw [hwhole.loads.elfLoad_eq]
    have hbytes := hfile.read hread.read
    have hheader : elfHeader (readStep files s).2.mem (fileStep s).1 = (imageStep files s).1 :=
      hspares.elfMemory_readStep hread.file_ne
    have hphnum : filePhnum file < 65536 := (elfPhnum (fileMem file) 0).isLt
    refine ⟨hhanded.file_ne, hhanded.image_ne, fun _ _ _ => ?_, fun _ => ?_, fun mem hkept => ?_,
      fun mem chunk dir table p hkept hp hdir hptrOff hoff => ?_⟩
    · rw [hheader]
      exact inside_elfValidateReads hsmall (by omega) (hwhole.valid hspares)
    · rw [elfProcessPheadersReads, hheader]
      rw [inside_elfProcessPheadersReadsLoop hbytes hsmall hlen (valid_phoff hvalid)
        (fun n hn => hfile.image_apart hspares hwhole (.inl hn)) (by omega)]
      exact fun j _ hj => ⟨hinside.type j hj, hinside.load j hj⟩
    · rw [taskInitReads]
      change Inside _ _ (bytesOf (elfMemory mem (elfLoad files s).2.1 + 24) 4)
      rw [hkept.pointer]
      exact inside_header (m := 24) hsmall (by omega) le_rfl (by omega)
    · have hptr : (p.data + 112).toNat % 4 = 0 := by
        rw [hp, hout]
        exact elfFile_aligned hread.file_ne
      have hpointer : elfHeader mem p.data = (imageStep files s).1 := by
        rw [hp]
        exact hkept.pointer
      rw [processMapElfReads, hpointer, pheader_of_bytesAt hkept.bytes hsmall hlen (valid_phoff hvalid), inside_append,
        inside_processMapElfReadsLoop hdir hptr hptrOff hpointer hkept.bytes hoff hsmall hlen
          hinside.type (by omega)]
      exact ⟨inside_header (m := 28) hsmall (by omega) le_rfl (by omega),
        fun j _ hj hbefore => hinside.map j hj fun l hl => hbefore l (Nat.zero_le l) hl⟩

/-- A served file is read. -/
lemma readWhole_served {c : ℕ} (hfile : Sized file) (h : Frontier s c)
    (hroom : c + 1 + fileBlocks file ≤ 25600) : ReadWhole (serve file) s := by
  refine ⟨?_, ?_, one_pos, lt_irrefl (0 : ℤ), ?_⟩
  · rw [(fileStep_frontier h (by omega)).1]
    exact blockAddr_ne_zero (by omega)
  · rw [(imageStep_served hfile h hroom).1]
    exact blockAddr_ne_zero (by omega)
  · rw [readStep_served hfile h hroom]
    exact (show ¬ (1 : ℤ) < 0 by decide)

end Load

lemma headerInside_oneSegment (image : Word) (h : Phdr) : HeaderInside image (oneSegment h) := by
  have hlen : (oneSegment h).length = 84 := rfl
  have hcount : filePhnum (oneSegment h) = 1 := by
    rw [filePhnum, elfPhnum_oneSegment]
    rfl
  have hoffset : ∀ i < filePhnum (oneSegment h), (phdrOffset (oneSegment h) i).toNat = 52 := by
    intro i hi
    obtain rfl : i = 0 := by omega
    rw [phdrOffset, elfPhoff_oneSegment]
    rfl
  refine ⟨by omega, (elfImage_oneSegment h).valid, fun i hi => ?_, fun i hi _ => ?_,
    fun i hi _ => ?_⟩ <;>
  · rw [hoffset i hi]
    omega

theorem readsInside_iff_codeSegment :
    ReadsInside (serve (oneSegment codeSegment)) emptyKmem (oneSegment codeSegment) := by
  have hfile := (elfImage_oneSegment codeSegment).sized
  have hblocks := fileBlocks_oneSegment codeSegment
  have hroom : 0 + 1 + fileBlocks (oneSegment codeSegment) ≤ 25600 := by omega
  exact (readsInside_iff (spares_served hfile emptyKmem_frontier hroom)
    (delivers_served hfile emptyKmem_frontier hroom)).2
    ⟨readWhole_served hfile emptyKmem_frontier hroom, headerInside_oneSegment _ _⟩

/-- A file that ends where its only program header should begin is accepted, and the header is
read from the bytes behind it. -/
theorem readsInside_headerOnly : elfStart.length = 52 ∧ Loads (serve elfStart) emptyKmem ∧
    ¬ ReadsInside (serve elfStart) emptyKmem elfStart := by
  have hlen : elfStart.length = 52 := rfl
  have hfile : Sized elfStart := ⟨by omega, by omega⟩
  have hroom : 0 + 1 + fileBlocks elfStart ≤ 25600 := by decide
  have hspares : (serve elfStart).Spares ∅ emptyKmem := spares_served hfile emptyKmem_frontier hroom
  have hdelivers : (serve elfStart).Delivers emptyKmem elfStart :=
    delivers_served hfile emptyKmem_frontier hroom
  have hwhole := (readWhole_served hfile emptyKmem_frontier hroom).loads hspares hdelivers
    (by omega) (by decide)
  refine ⟨hlen, hwhole.loads, fun hreads => ?_⟩
  have hpheaders := hreads.pheaders hwhole.loads
  have hheader : elfHeader (readStep (serve elfStart) emptyKmem).2.mem (fileStep emptyKmem).1 =
      (imageStep (serve elfStart) emptyKmem).1 := hspares.elfMemory_readStep hwhole.file_ne
  have hcount : filePhnum elfStart = 1 := by decide
  have hoffset : (phdrOffset elfStart 0).toNat = 52 := by decide
  rw [elfProcessPheadersReads, hheader, inside_elfProcessPheadersReadsLoop
    (hdelivers.read hwhole.loads.read) (by omega) (by omega) (by decide)
    (fun n hn => hdelivers.image_apart hspares hwhole (.inl hn)) (by omega)] at hpheaders
  have htype := (hpheaders 0 le_rfl (by omega)).1
  omega

end AlphaOS.Processes
