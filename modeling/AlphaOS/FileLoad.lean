import AlphaOS.ElfResult
import AlphaOS.FileRuns
import AlphaOS.LoadKeeps

/-! The load of a program from a volume: the calls that `elf_load` makes, on the files as they are, and
what it hands out. -/
namespace AlphaOS.Fat16
open BlockHeap CString Elf Files Kheap Paging PathParser Processes Streamer WordMemory

/-- Where the path of a load stands, its mode, and the `file_stat` on the stack. -/
structure LoadArguments where
  filename : Word
  modeStr : Word
  stat : Word

section Steps
variable (v : Storage FatState) (fuel : ℕ) (k : FileState FatState) (args : LoadArguments)

/-- Behind the `fopen` of a load. A call that does not return stands here as a failed one. -/
def openedFiles : ℤ × FileState FatState :=
  (fopen v fuel (k.withKmem (fileStep k.kmem).2) args.filename args.modeStr).getD
    (0, k.withKmem (fileStep k.kmem).2)

def statedFiles : ℤ × FileState FatState :=
  fstat v (openedFiles v fuel k args).2 (openedFiles v fuel k args).1 args.stat

/-- `stat.filesize`. -/
def loadSize : Word := read32 (statedFiles v fuel k args).2.kmem.mem (args.stat + 4)

/-- The image and the state with its address in the `elf_file`. -/
def loadImage : Word × Kmem := kzalloc (statedFiles v fuel k args).2.kmem (loadSize v fuel k args)

def storedFiles : FileState FatState :=
  (statedFiles v fuel k args).2.withKmem ((loadImage v fuel k args).2.withMem
    (write32 (loadImage v fuel k args).2.mem ((fileStep k.kmem).1 + 112) (loadImage v fuel k args).1))

def readFiles : ℤ × FileState FatState :=
  fread v (storedFiles v fuel k args)
    (elfMemory (storedFiles v fuel k args).kmem.mem (fileStep k.kmem).1) (loadSize v fuel k args) 1
    (openedFiles v fuel k args).1

/-- The calls of one load, each on the files as the one before leaves them. -/
def diskCalls : FileCalls where
  fopen t := ((fopen v fuel (k.withKmem t) args.filename args.modeStr).map fun r =>
    (r.1, r.2.kmem)).getD (0, t)
  fstat t fd :=
    let r := fstat v ((openedFiles v fuel k args).2.withKmem t) fd args.stat
    (r.1, read32 r.2.kmem.mem (args.stat + 4), r.2.kmem)
  read t ptr size nmemb fd :=
    let r := fread v ((statedFiles v fuel k args).2.withKmem t) ptr size nmemb fd
    (r.1, r.2.kmem)
  fclose t fd := (fclose v ((readFiles v fuel k args).2.withKmem t) fd).2.kmem

/-- The files after the load. -/
def closedFiles : FileState FatState :=
  (fclose v ((readFiles v fuel k args).2.withKmem (closeStep (diskCalls v fuel k args) k.kmem))
    (openedFiles v fuel k args).1).2

end Steps

variable {fuel : ℕ} {disk : Disk} {v : Storage FatState} {C : Content} {p : FatPrivate} {b c m n j : ℕ}
  {k k' : FileState FatState} {T : Table} {i : Fin maxFiledescriptors} {o : OpenEntry} {s : Kmem}
  {args : LoadArguments} {name file : List Byte} {q : ℕ}

/-! The steps of `elf_load` are these. -/

section Equations
variable (v : Storage FatState) (fuel : ℕ) (k : FileState FatState) (args : LoadArguments)

lemma openStep_disk : openStep (diskCalls v fuel k args) k.kmem =
    ((openedFiles v fuel k args).1, (openedFiles v fuel k args).2.kmem) := by
  change ((fopen v fuel (k.withKmem (fileStep k.kmem).2) args.filename args.modeStr).map fun r =>
    (r.1, r.2.kmem)).getD (0, (fileStep k.kmem).2) = _
  unfold openedFiles
  cases fopen v fuel (k.withKmem (fileStep k.kmem).2) args.filename args.modeStr <;> rfl

lemma statStep_disk : statStep (diskCalls v fuel k args) k.kmem =
    ((statedFiles v fuel k args).1, loadSize v fuel k args, (statedFiles v fuel k args).2.kmem) := by
  rw [statStep, openStep_disk]
  rfl

lemma imageStep_disk : imageStep (diskCalls v fuel k args) k.kmem = loadImage v fuel k args := by
  rw [imageStep, statStep_disk]
  rfl

lemma storeStep_disk : storeStep (diskCalls v fuel k args) k.kmem = (storedFiles v fuel k args).kmem := by
  rw [storeStep, imageStep_disk]
  rfl

lemma readStep_disk (hfd : 1 ≤ (openedFiles v fuel k args).1) :
    readStep (diskCalls v fuel k args) k.kmem =
      ((readFiles v fuel k args).1, (readFiles v fuel k args).2.kmem) := by
  rw [readStep, storeStep_disk, statStep_disk, openStep_disk, FileCalls.fread]
  by_cases hzero : loadSize v fuel k args = 0
  · rw [if_pos (.inl hzero), readFiles, fread, if_pos (.inl hzero)]
  · have hasked : ¬ (loadSize v fuel k args = 0 ∨ (1 : Word) = 0 ∨ (openedFiles v fuel k args).1 < 1) := by
      rintro (h0 | h0 | h0)
      · exact hzero h0
      · exact absurd h0 (by decide)
      · omega
    rw [if_neg hasked]
    rfl

end Equations

/-! The files over a load. -/

/-- The path, the mode and the stack of a load, which lie below the heap. -/
structure LoadRequest (k : FileState FatState) (args : LoadArguments) (name : List Byte) : Prop where
  path : PathAt k.kmem args.filename 0 name
  name : FileName name
  mode : k.kmem.mem args.modeStr = 114
  live : pageOf args.modeStr ∉ freePages k.kmem
  stat : args.stat.toNat + 8 ≤ 2 ^ 24

/-- The bytes of a file as the driver finds them, which can be read in one piece. -/
structure FileBytes (disk : Disk) (p : FatPrivate) (C : Content) (j : ℕ) (file : List Byte) : Prop where
  size : C.size j = BitVec.ofNat 32 file.length
  readable : Readable disk p (C.start j) 0 file.length 1
  bytes : ∀ n (hn : n < file.length), file[n] = fileByte disk p (C.start j) n

/-- A request is kept by work on free memory. -/
lemma LoadRequest.other (h : LoadRequest k args name)
    (hmem : ∀ x, pageOf x ∉ freePages k.kmem → s.mem x = k.kmem.mem x)
    (hpages : freePages s ⊆ freePages k.kmem) : LoadRequest (k.withKmem s) args name := by
  have hlength : (driveByte 0 :: 58 :: slash :: (name ++ [0])).length = name.length + 4 := by simp
  refine ⟨⟨h.path.digit, h.path.nonzero, h.path.short, ?_,
      fun n hn => ⟨fun hin => ?_, (h.path.live n hn).2⟩⟩,
    h.name, (hmem _ h.live).trans h.mode, fun hin => h.live (hpages hin), h.stat⟩
  · apply h.path.bytes.congr
    intro n hn
    rw [hlength] at hn
    exact hmem _ (h.path.live n (by omega)).1
  · exact (h.path.live n hn).1 (hpages hin)

/-- A request with a block more, after the `elf_file` is allocated. -/
lemma LoadRequest.request (h : LoadRequest k args name) (hroom : FreeAtLeast k.kmem 10) {f : ℕ}
    (hnew : NewBlock k.kmem (fileStep k.kmem).2 f) :
    Request (k.withKmem (fileStep k.kmem).2) args.filename args.modeStr name := by
  have hother := h.other (fun x hx => @kzalloc_mem_of_live k.kmem 132 (by decide) (by decide) x hx) hnew.pages
  exact ⟨hother.path, hother.name, hother.mode, hother.live, hnew.room hroom⟩

/-- A page of the open files is one of a block that is taken. -/
lemma Holds.filePage_taken (h : Holds fuel disk v p C b m k T) (hq : FilePage b m k q) :
    ∃ c < 25600, q = 4096 + c ∧ ¬ IsFree k.kmem.entries c := by
  have hpool := h.directory.blocks.pool
  rcases hq with ⟨hlow, hhigh⟩ | ⟨i, r, c, hi, hc, haddr, rfl⟩
  · exact ⟨q - 4096, by omega, by omega, h.directory.pinned.taken _ (by omega) (by omega)⟩
  · have hT : T i ≠ none := fun hnone => hi (h.closed i hnone)
    obtain ⟨o, ho⟩ := h.file_some hT
    obtain ⟨c', hc', haddr', hpin⟩ := ho.block r
    obtain rfl : c = c' := blockAddr_inj (by omega) (by omega) (haddr.symm.trans haddr')
    exact ⟨c, hc, rfl, hpin.not_free⟩

/-- What is stored away from the files. -/
lemma Holds.withMem (h : Holds fuel disk v p C b m k T) {mem : Mem}
    (hmem : ∀ x, FilePage b m k (pageOf x) → mem x = k.kmem.mem x) :
    Holds fuel disk v p C b m (k.withKmem (k.kmem.withMem mem)) T := by
  apply h.other
  refine ⟨⟨fun hs => hs, fun hpin => hpin, fun _ x hlow hhigh => hmem x (.inl ⟨hlow, hhigh⟩)⟩,
    fun i r c hi hc haddr => ⟨fun hs => hs, fun hpin => hpin, fun _ x hlow hhigh => ?_⟩⟩
  exact hmem x (.inr ⟨i, r, c, hi, hc, haddr, by omega⟩)

/-- Work that keeps all allocations. -/
lemma Holds.keepsAll (h : Holds fuel disk v p C b m k T) (hkept : KeepsAll k.kmem s) :
    Holds fuel disk v p C b m (k.withKmem s) T :=
  h.other ⟨hkept b m h.directory.nonempty h.directory.blocks.pool,
    fun _ _ c _ hc _ => hkept c 1 one_pos (by omega)⟩

/-- A call that stores to a buffer leaves the heap, and which pages are those of the files. -/
lemma StoresIn.entries {a : Word} (h : StoresIn disk p k k' a n) : k'.kmem.entries = k.kmem.entries := by
  obtain ⟨⟨q, mem, -, rfl⟩, -⟩ := h
  rfl

lemma StoresIn.filePage {a : Word} (h : StoresIn disk p k k' a n) :
    FilePage b m k' q ↔ FilePage b m k q := by
  obtain ⟨⟨_, mem, -, rfl⟩, -⟩ := h
  rfl

/-- The pages of the files behind an `fopen`. -/
lemma filePage_opened (h : Holds fuel disk v p C b m k T) (hkept : KeepsFiles k k') {new : Role → ℕ}
    (hnew : ∀ r, new r < 25600) (hptr : ∀ r, filePtr k' i r = blockAddr (new r)) (hempty : T i = none)
    (hslots : k'.fileDescriptors = Function.update k.fileDescriptors i (blockAddr (new .desc)))
    (hq : FilePage b m k' q) : FilePage b m k q ∨ ∃ r, q = 4096 + new r := by
  have hother : ∀ i', i' ≠ i → k'.fileDescriptors i' = k.fileDescriptors i' := by
    intro i' hi'
    rw [hslots, Function.update_of_ne hi']
  rcases hq with hroot | ⟨i', r, c, hi', hc, haddr, rfl⟩
  · exact .inl (.inl hroot)
  · by_cases heq : i' = i
    · subst heq
      have hlt := hnew r
      rw [hptr] at haddr
      exact .inr ⟨r, by rw [blockAddr_inj (by omega) (by omega) haddr]⟩
    · rw [hother i' heq] at hi'
      have hT : T i' ≠ none := fun hnone => hi' (h.closed i' hnone)
      obtain ⟨o, ho⟩ := h.file_some hT
      have hsame := Fat16.filePtr_eq (hother i' heq) (fun r => by
        obtain ⟨c', hc', haddr', hpin⟩ := ho.block r
        rw [haddr']
        exact hkept.records c' hc' hpin) r
      exact .inl (.inr ⟨i', r, c, hi', hc, by rw [← hsame, haddr], rfl⟩)

/-- The steps of a load up to the image, in the blocks they take. -/
structure LoadSteps (fuel : ℕ) (disk : Disk) (v : Storage FatState) (p : FatPrivate) (C : Content)
    (b m : ℕ) (k : FileState FatState) (T : Table) (args : LoadArguments) (i : Fin maxFiledescriptors)
    (j : ℕ) (file : List Byte) (f : ℕ) (new : Role → ℕ) : Prop where
  elf : (fileStep k.kmem).1 = blockAddr f
  elfBlock : NewBlock k.kmem (fileStep k.kmem).2 f
  fd : (openedFiles v fuel k args).1 = (i : ℤ) + 1
  opened : Holds fuel disk v p C b m (openedFiles v fuel k args).2 (Function.update T i (some ⟨j, 0⟩))
  openKeeps : KeepsAll (fileStep k.kmem).2 (openedFiles v fuel k args).2.kmem
  newPtr : ∀ r, filePtr (openedFiles v fuel k args).2 i r = blockAddr (new r)
  newBlock : ∀ r, new r < 25600 ∧ Unowned (fileStep k.kmem).2 (new r)
  elfApart : ¬ FilePage b m (openedFiles v fuel k args).2 (4096 + f)
  stat : (statedFiles v fuel k args).1 = 0
  size : loadSize v fuel k args = BitVec.ofNat 32 file.length
  stated : StoresIn disk p (openedFiles v fuel k args).2 (statedFiles v fuel k args).2 args.stat 8

/-- The file is opened and its size is known. -/
lemma Holds.loadSteps (h : Holds fuel disk v p C b m k T) (hready : Ready disk p)
    (hserves : Serves fuel disk v) (hrequest : LoadRequest k args name) (hnamed : NamedFile fuel C name j)
    (hfile : FileBytes disk p C j file) (hslot : emptySlot k.fileDescriptors = some i)
    (hfd : slotOf ((i : ℤ) + 1) = some i) (hfree : TailFree k.kmem c) (hroom : c + 10 ≤ 25600) :
    ∃ f new, LoadSteps fuel disk v p C b m k T args i j file f new ∧
      TailFree (statedFiles v fuel k args).2.kmem (c + 10) := by
  obtain ⟨f, helf, hf⟩ := @kzalloc_newBlock_clear k.kmem 132 h.directory.linked
    (FreeFrom.atLeast hfree (by omega)) (by decide) (by decide)
  have hfirst := (TailFree.kzalloc hfree (show 0 < (heapBlocksFor 132).toNat by decide) (by
    change c + 1 ≤ 25600
    omega)).2
  have h₁ := h.keepsAll hf.keeps
  have hempty := (h.emptySlot_some hslot).1
  obtain ⟨k₂, new, hopen, hnew, hkept, hptr, hfileAt, hsame, hslots, htakes⟩ := fopen_opens hserves
    (h₁.ready hready) h₁.rootDirectory (hrequest.request (FreeFrom.atLeast hfree (by omega)) hf) hnamed hslot
  have h₂ := h₁.opens hnew hkept hptr hfileAt hsame hempty hslots
  have hopened : openedFiles v fuel k args = ((i : ℤ) + 1, k₂) := by
    unfold openedFiles
    change (fopen v fuel (k.withKmem (kzalloc k.kmem 132).2) _ _).getD _ = _
    rw [hopen]
    rfl
  have hget : Function.update T i (some ⟨j, 0⟩) i = some ⟨j, 0⟩ := Function.update_self i _ _
  obtain ⟨k₃, hstat, -, hsize, hstated⟩ := h₂.stats hserves hget hfd (bufferApart_low hrequest.stat)
  have hstatedFiles : statedFiles v fuel k args = (0, k₃) := by
    rw [statedFiles, hopened]
    exact hstat
  refine ⟨f, new, ⟨helf, hf, by rw [hopened], by rw [hopened]; exact h₂, by rw [hopened]; exact hnew.keeps,
    by rw [hopened]; exact hptr, fun r => ⟨(hnew.block r).1, (hnew.block r).2.2⟩, ?_, by rw [hstatedFiles],
    ?_, by rw [hopened, hstatedFiles]; exact hstated⟩, ?_⟩
  · rw [hopened]
    intro hpage
    rcases filePage_opened h₁ hkept (fun r => (hnew.block r).1) hptr hempty hslots hpage with
      hold | ⟨r, heq⟩
    · obtain ⟨c, -, heq, htaken⟩ := h.filePage_taken hold
      obtain rfl : f = c := by omega
      exact htaken hf.free
    · obtain ⟨-, -, hunowned⟩ := hnew.block r
      exact hunowned f 1 one_pos (by have := hf.lt; omega) hf.pinned (by rw [Set.mem_Ico]; omega)
  · rw [loadSize, hstatedFiles]
    exact hsize.trans hfile.size
  · rw [hstatedFiles]
    intro d hlow hhigh
    rw [hstated.entries]
    exact htakes.tail (c + 1) (by omega) hfirst d (by omega) hhigh

/-- The blocks of an image are its own. -/
structure ImageBlocks (b m : ℕ) (k : FileState FatState) (s : Kmem) (file : List Byte) (a : ℕ) : Prop where
  pool : a + fileBlocks file ≤ 25600
  free : ∀ d, a ≤ d → d < a + fileBlocks file → IsFree k.kmem.entries d
  pinned : Pinned s.entries a (fileBlocks file)
  apart : BufferApart b m k (blockAddr a) file.length

lemma pageOf_image {a : ℕ} (hpool : a + fileBlocks file ≤ 25600) (hsize : Sized file) {x : Word}
    (hx : InRange (blockAddr a) file.length x) :
    4096 + a ≤ pageOf x ∧ pageOf x < 4096 + (a + fileBlocks file) :=
  pageOf_inRange (by omega) hsize.blocks.2 hx

/-- An image is allocated behind what is taken. -/
lemma Holds.image (h : Holds fuel disk v p C b m k T) (hsize : Sized file) (hfree : TailFree k.kmem c)
    (hroom : c + fileBlocks file ≤ 25600) : ∃ a,
    (kzalloc k.kmem (BitVec.ofNat 32 file.length)).1 = blockAddr a ∧
      ImageBlocks b m k (kzalloc k.kmem (BitVec.ofNat 32 file.length)).2 file a ∧
      Holds fuel disk v p C b m (k.withKmem (kzalloc k.kmem (BitVec.ofNat 32 file.length)).2) T := by
  have hsmall : (BitVec.ofNat 32 file.length).toNat < 2 ^ 31 := by
    rw [hsize.length_toNat]
    have := hsize.small
    omega
  have hpos : 0 < (heapBlocksFor (BitVec.ofNat 32 file.length)).toNat := hsize.blocks.1
  have hfit : FitsAt k.kmem.entries 25600 (fileBlocks file) c :=
    ⟨hroom, fun j hlow hhigh => hfree j hlow (by omega)⟩
  obtain ⟨a, hfirst, -, heq⟩ := kzalloc_room k.kmem hpos ⟨c, hfit⟩
  have ha : FitsAt k.kmem.entries 25600 (fileBlocks file) a := hfirst
  have hpool := ha.1
  have haddr : (kzalloc k.kmem (BitVec.ofNat 32 file.length)).1 = blockAddr a := congrArg Prod.fst heq
  refine ⟨a, haddr, ⟨hpool, fun d hlow hhigh => ha.2 d hlow hhigh, ?_, fun x hx hpage => ?_⟩,
    h.keepsAll fun _ _ hn hpool => keepsRun_kzalloc hn hpool hsmall⟩
  · have hne : (kmalloc k.kmem (BitVec.ofNat 32 file.length)).1 ≠ 0 := by
      rw [← kzalloc_fst, haddr]
      exact blockAddr_ne_zero (by omega)
    obtain ⟨a', ha', haddr', -, hpin⟩ := h.directory.linked.pinned hne hpos
    rw [← kzalloc_fst, haddr] at haddr'
    obtain rfl := blockAddr_inj (by omega) (by omega) haddr'
    exact hpin
  · obtain ⟨hlow, hhigh⟩ := pageOf_image hpool hsize hx
    obtain ⟨d, -, hd, htaken⟩ := h.filePage_taken hpage
    exact htaken (ha.2 d (by omega) (by omega))

/-- The file is read into an image of its own. -/
structure ReadSteps (fuel : ℕ) (disk : Disk) (v : Storage FatState) (p : FatPrivate) (C : Content)
    (b m : ℕ) (k : FileState FatState) (T : Table) (args : LoadArguments) (i : Fin maxFiledescriptors)
    (j : ℕ) (file : List Byte) (a : ℕ) : Prop where
  image : (loadImage v fuel k args).1 = blockAddr a
  blocks : ImageBlocks b m (statedFiles v fuel k args).2 (loadImage v fuel k args).2 file a
  read : (readFiles v fuel k args).1 = 1
  stored : StoresIn disk p (storedFiles v fuel k args) (readFiles v fuel k args).2 (blockAddr a) file.length
  holds : Holds fuel disk v p C b m (readFiles v fuel k args).2 (Function.update T i (some ⟨j, 0⟩))
  bytes : BytesAt (readFiles v fuel k args).2.kmem.mem (blockAddr a) file

variable {f a : ℕ} {new : Role → ℕ}

lemma LoadSteps.readSteps (h : LoadSteps fuel disk v p C b m k T args i j file f new)
    (hready : Ready disk p) (hserves : Serves fuel disk v) (hfile : FileBytes disk p C j file)
    (hsize : Sized file) (hstat : args.stat.toNat + 8 ≤ 2 ^ 24) (hfd : slotOf ((i : ℤ) + 1) = some i)
    (hfree : TailFree (statedFiles v fuel k args).2.kmem c) (hroom : c + fileBlocks file ≤ 25600) :
    ∃ a, ReadSteps fuel disk v p C b m k T args i j file a := by
  have hget : Function.update T i (some ⟨j, 0⟩) i = some ⟨j, 0⟩ := Function.update_self i _ _
  have h₃ := h.opened.stores h.stated (bufferApart_low hstat)
  obtain ⟨a, himage, hblocks, h₄⟩ := h₃.image hsize hfree hroom
  have halloc : loadImage v fuel k args =
      kzalloc (statedFiles v fuel k args).2.kmem (BitVec.ofNat 32 file.length) := by
    rw [loadImage, h.size]
  rw [← halloc] at himage hblocks h₄
  have hholds : Holds fuel disk v p C b m (storedFiles v fuel k args)
      (Function.update T i (some ⟨j, 0⟩)) := by
    refine h₄.withMem fun x hx => if_neg fun hin => h.elfApart ?_
    rw [h.elf] at hin
    rw [← elfMemory_page h.elfBlock.lt hin]
    exact h.stated.filePage.1 hx
  have hbuffer : BufferApart b m (storedFiles v fuel k args) (blockAddr a)
      ((BitVec.ofNat 32 file.length).toNat * (1 : Word).toNat) := by
    rw [hsize.length_toNat, show (1 : Word).toNat = 1 by rfl, Nat.mul_one]
    exact hblocks.apart
  have hne : BitVec.ofNat 32 file.length ≠ 0 := by
    intro hzero
    have hlength := hsize.length_toNat
    rw [hzero] at hlength
    exact absurd hlength (ne_of_lt hsize.pos)
  obtain ⟨code, k', hread, hstored, hcode, hbytes⟩ := hholds.reads hready hserves hget hfd hne
    (show (1 : Word) ≠ 0 by decide) hbuffer
  have hwhole : Readable disk p (C.start j) (0 : Word).toNat (BitVec.ofNat 32 file.length).toNat
      (1 : Word).toNat := by
    rw [hsize.length_toNat]
    exact hfile.readable
  have hpointer : elfMemory (storedFiles v fuel k args).kmem.mem (fileStep k.kmem).1 = blockAddr a :=
    (read32_write32 _ _ _).trans himage
  have hresult : readFiles v fuel k args = (code, k') := by
    rw [readFiles, hpointer, h.size, h.fd]
    exact hread
  have hlength : (BitVec.ofNat 32 file.length).toNat * (1 : Word).toNat = file.length := by
    rw [hsize.length_toNat]
    exact Nat.mul_one _
  have hkept := hholds.stores hstored hbuffer
  rw [hlength] at hstored hbytes
  refine ⟨a, himage, hblocks, ?_, by rw [hresult]; exact hstored, by rw [hresult]; exact hkept, ?_⟩
  · rcases hcode with ⟨hone, -⟩ | ⟨-, hbroken⟩
    · rw [hresult]
      exact hone
    · exact absurd (hwhole.chained hready hne) hbroken
  · rw [hresult]
    refine bytesAt_of_get fun n hn => ?_
    rw [hbytes hwhole n hn, hfile.bytes n hn]
    simp

/-! What is left of the other allocations. -/

variable {b' n' : ℕ}

/-- Stores outside of a run. -/
lemma keepsRun_withMem {mem : Mem} (hmem : ∀ x, 4096 + b' ≤ pageOf x → pageOf x < 4096 + (b' + n') →
    mem x = s.mem x) : KeepsRun b' n' s (s.withMem mem) :=
  ⟨fun hs => hs, fun hpin => hpin, fun _ x hlow hhigh => hmem x hlow hhigh⟩

lemma StoresIn.keepsRun {a : Word} (h : StoresIn disk p k k' a n)
    (hout : ∀ x, InRange a n x → ¬ (4096 + b' ≤ pageOf x ∧ pageOf x < 4096 + (b' + n'))) :
    KeepsRun b' n' k.kmem k'.kmem := by
  obtain ⟨⟨q, mem, -, rfl⟩, hframe⟩ := h
  exact keepsRun_withMem fun x hlow hhigh => hframe x fun hin => hout x hin ⟨hlow, hhigh⟩

/-- The words that the pass over the headers writes lie in the block of the `elf_file`. -/
lemma elfProcessLoaded_of_page (hf : f < 25600) {mem : Mem} {x : Word} (hx : pageOf x ≠ 4096 + f) :
    (elfProcessLoaded mem (blockAddr f)).2 x = mem x := by
  apply elfProcessLoaded_frame
  intro hin
  have haddr := blockAddr_toNat (b := f) (by omega)
  have hword := toNat_add_ofNat (a := blockAddr f) (k := 116) (by omega)
  have hlt := x.isLt
  change (x - (blockAddr f + BitVec.ofNat 32 116)).toNat < 16 at hin
  rw [BitVec.toNat_sub] at hin
  unfold pageOf at hx
  omega

/-- Until the size is known all allocations stay. -/
lemma LoadSteps.keeps (h : LoadSteps fuel disk v p C b m k T args i j file f new)
    (hstat : args.stat.toNat + 8 ≤ 2 ^ 24) : KeepsAll k.kmem (statedFiles v fuel k args).2.kmem := by
  intro b' n' hn hpool
  have hopened := (h.elfBlock.keeps b' n' hn hpool).trans (h.openKeeps b' n' hn hpool)
  refine hopened.trans (h.stated.keepsRun fun x hx hrun => ?_)
  have hlow := pageOf_low hstat hx
  omega

/-! The end of a load. -/

lemma closeStep_disk (h : LoadSteps fuel disk v p C b m k T args i j file f new)
    (hread : ReadSteps fuel disk v p C b m k T args i j file a) :
    closeStep (diskCalls v fuel k args) k.kmem = (readFiles v fuel k args).2.kmem.withMem
      (elfProcessLoaded (readFiles v fuel k args).2.kmem.mem (blockAddr f)).2 := by
  have hfd := h.fd
  have hstat := h.stat
  have hone := hread.read
  rw [closeStep_eq, readStep_disk v fuel k args (by omega), openStep_disk, statStep_disk, if_neg (by omega),
    if_neg (by omega), if_neg (by omega), loadStep, readStep_disk v fuel k args (by omega), h.elf]

lemma LoadSteps.opened_pos (h : LoadSteps fuel disk v p C b m k T args i j file f new) :
    0 < (openStep (diskCalls v fuel k args) k.kmem).1 := by
  have hfd := h.fd
  rw [openStep_disk]
  dsimp only
  omega

/-- What was opened is closed at the end. -/
lemma elfLoad_closeStep {files : FileCalls} (hopen : 0 < (openStep files s).1) :
    (elfLoad files s).2.2 = files.fclose (closeStep files s) (openStep files s).1 := by
  have hnot : ¬ (files.fopen (kzalloc s 132).2).1 ≤ 0 := not_le.2 hopen
  have hnot' : ¬ (openStep files s).1 ≤ 0 := hnot
  rw [closeStep, if_neg hnot', elfLoad]
  dsimp only
  rw [if_neg hnot]
  rfl

lemma StoresIn.filePtr {a : Word} (h : StoresIn disk p k k' a n) (r : Role) :
    filePtr k' i r = Fat16.filePtr k i r := by
  obtain ⟨⟨_, mem, -, rfl⟩, -⟩ := h
  rfl

section Closing
variable (hread : ReadSteps fuel disk v p C b m k T args i j file a)
  (h : LoadSteps fuel disk v p C b m k T args i j file f new) (hserves : Serves fuel disk v)
  (hempty : T i = none) (hfd : slotOf ((i : ℤ) + 1) = some i)
include hread h hserves hempty hfd

/-- The files behind the load, and what the last call leaves of the other allocations. -/
lemma ReadSteps.closes :
    Holds fuel disk v p C b m (closedFiles v fuel k args) T ∧
      (∀ b' n', (∀ r, new r ∉ Set.Ico b' (b' + n')) →
        KeepsRun b' n' (closeStep (diskCalls v fuel k args) k.kmem) (closedFiles v fuel k args).kmem) ∧
      ∀ c, TailFree (closeStep (diskCalls v fuel k args) k.kmem) c →
        TailFree (closedFiles v fuel k args).kmem c := by
  have hget : Function.update T i (some ⟨j, 0⟩) i = some ⟨j, 0⟩ := Function.update_self i _ _
  have hfile : ∀ q, FilePage b m (readFiles v fuel k args).2 q ↔
      FilePage b m (openedFiles v fuel k args).2 q :=
    fun q => hread.stored.filePage.trans h.stated.filePage
  have hholds : Holds fuel disk v p C b m
      ((readFiles v fuel k args).2.withKmem (closeStep (diskCalls v fuel k args) k.kmem))
      (Function.update T i (some ⟨j, 0⟩)) := by
    rw [closeStep_disk h hread]
    refine hread.holds.withMem fun x hx => elfProcessLoaded_of_page h.elfBlock.lt fun hpage => h.elfApart ?_
    rw [← hpage]
    exact (hfile _).1 hx
  obtain ⟨k', hclose, hleft, hkept, htail⟩ := hholds.closes hserves hget hfd
  have hclosed : closedFiles v fuel k args = k' := by
    rw [closedFiles, h.fd, hclose]
  rw [Function.update_idem, Function.update_eq_self_iff.2 hempty.symm] at hleft
  rw [hclosed]
  refine ⟨hleft, fun b' n' hout => hkept b' n' fun r d hd haddr => ?_, htail⟩
  have hptr : filePtr (readFiles v fuel k args).2 i r = blockAddr (new r) :=
    ((hread.stored.filePtr r).trans (h.stated.filePtr r)).trans (h.newPtr r)
  have hlt := (h.newBlock r).1
  obtain rfl : d = new r := blockAddr_inj (by omega) (by omega) (haddr.symm.trans hptr)
  exact hout r

/-- The load keeps the allocations of others. -/
lemma ReadSteps.keeps (hstat : args.stat.toNat + 8 ≤ 2 ^ 24) (hsize : Sized file) :
    KeepsAll k.kmem (closedFiles v fuel k args).kmem := by
  intro b' n' hn hpool
  obtain ⟨hleft, hclosed, -⟩ := hread.closes h hserves hempty hfd
  by_cases hpin : Pinned k.kmem.entries b' n'
  swap
  · exact ⟨fun _ => hleft.directory.linked, fun h => absurd h hpin, fun h => absurd h hpin⟩
  have hstated := h.keeps hstat b' n' hn hpool
  have htaken := (hstated.pinned hpin).taken
  have hf : ∀ x, 4096 + b' ≤ pageOf x → pageOf x < 4096 + (b' + n') → pageOf x ≠ 4096 + f :=
    fun x hlow hhigh heq => hpin.taken f (by omega) (by omega) h.elfBlock.free
  have himage : KeepsRun b' n' (statedFiles v fuel k args).2.kmem (loadImage v fuel k args).2 := by
    refine keepsRun_kzalloc hn hpool ?_
    rw [h.size, hsize.length_toNat]
    have hsmall := hsize.small
    omega
  have hstored : KeepsRun b' n' (loadImage v fuel k args).2 (storedFiles v fuel k args).kmem :=
    keepsRun_withMem fun x hlow hhigh => if_neg fun hin => hf x hlow hhigh (by
      rw [h.elf] at hin
      exact elfMemory_page h.elfBlock.lt hin)
  have hfilled : KeepsRun b' n' (storedFiles v fuel k args).kmem (readFiles v fuel k args).2.kmem := by
    refine hread.stored.keepsRun fun x hx hrun => ?_
    have hpage := pageOf_image hread.blocks.pool hsize hx
    exact htaken (pageOf x - 4096) (by omega) (by omega)
      (hread.blocks.free (pageOf x - 4096) (by omega) (by omega))
  have hprocessed : KeepsRun b' n' (readFiles v fuel k args).2.kmem
      (closeStep (diskCalls v fuel k args) k.kmem) := by
    rw [closeStep_disk h hread]
    exact keepsRun_withMem fun x hlow hhigh => elfProcessLoaded_of_page h.elfBlock.lt (hf x hlow hhigh)
  refine ((((hstated.trans himage).trans hstored).trans hfilled).trans hprocessed).trans
    (hclosed b' n' fun r => ?_)
  obtain ⟨-, hunowned⟩ := h.newBlock r
  exact hunowned b' n' hn hpool ((h.elfBlock.keeps b' n' hn hpool).pinned hpin)

end Closing

/-! What is handed out. -/

lemma closeStep_entries (h : LoadSteps fuel disk v p C b m k T args i j file f new)
    (hread : ReadSteps fuel disk v p C b m k T args i j file a) :
    (closeStep (diskCalls v fuel k args) k.kmem).entries = (loadImage v fuel k args).2.entries := by
  rw [closeStep_disk h hread]
  exact hread.stored.entries

/-- The block of the `elf_file` stays its own. -/
lemma LoadSteps.file_pinned (h : LoadSteps fuel disk v p C b m k T args i j file f new)
    (hstat : args.stat.toNat + 8 ≤ 2 ^ 24) : Pinned (statedFiles v fuel k args).2.kmem.entries f 1 := by
  have hlt := h.elfBlock.lt
  have hstated : KeepsRun f 1 (openedFiles v fuel k args).2.kmem (statedFiles v fuel k args).2.kmem :=
    h.stated.keepsRun fun x hx hrun => by
      have hlow := pageOf_low hstat hx
      omega
  exact hstated.pinned (h.openKeeps.pinned hlt h.elfBlock.pinned)

section Image
variable (hread : ReadSteps fuel disk v p C b m k T args i j file a)
  (h : LoadSteps fuel disk v p C b m k T args i j file f new) (hstat : args.stat.toNat + 8 ≤ 2 ^ 24)
include hread h hstat

/-- The blocks of the opened file are not those of the image. -/
lemma ReadSteps.new_apart (r : Role) : new r ∉ Set.Ico a (a + fileBlocks file) := by
  have hholds := h.opened.stores h.stated (bufferApart_low hstat)
  have hopen : Function.update T i (some ⟨j, 0⟩) i ≠ none := by simp
  obtain ⟨d, -, hd, htaken⟩ := hholds.filePage_taken
    (.inr ⟨i, r, new r, hholds.slot_ne hopen, (h.newBlock r).1, (h.stated.filePtr r).trans (h.newPtr r), rfl⟩)
  obtain rfl : new r = d := by omega
  exact fun hin => htaken (hread.blocks.free (new r) hin.1 hin.2)

variable (hsize : Sized file)
include hsize

/-- The block of the `elf_file` lies apart from the image. -/
lemma ReadSteps.file_apart {x : Word} (hx : InRange (blockAddr a) file.length x) : pageOf x ≠ 4096 + f := by
  have hpage := pageOf_image hread.blocks.pool hsize hx
  intro heq
  exact (h.file_pinned hstat).taken f le_rfl (by omega) (hread.blocks.free f (by omega) (by omega))

/-- It points to the image. -/
lemma ReadSteps.pointer : elfMemory (readFiles v fuel k args).2.kmem.mem (blockAddr f) = blockAddr a := by
  have hstored : elfMemory (storedFiles v fuel k args).kmem.mem (blockAddr f) = blockAddr a := by
    rw [← h.elf, ← hread.image]
    exact read32_write32 _ _ _
  rw [← hstored]
  refine read32_eq_of_same fun x hx => hread.stored.frame x fun hin => ?_
  exact hread.file_apart h hstat hsize hin (elfMemory_page h.elfBlock.lt hx)

/-- The load succeeds exactly when the bytes on the disk are those of an ELF file. -/
lemma ReadSteps.loads_iff (hheader : 46 ≤ file.length) :
    Loads (diskCalls v fuel k args) k.kmem ↔ elfValidateLoaded (fileMem file) 0 = 0 := by
  have hsmall := hsize.small
  have hfd := h.fd
  have hsteps := readStep_disk v fuel k args (by omega)
  have hpointer : Tasks.elfHeader (readFiles v fuel k args).2.kmem.mem (blockAddr f) = blockAddr a :=
    hread.pointer h hstat hsize
  have hload : (loadStep (diskCalls v fuel k args) k.kmem).1 = elfValidateLoaded (fileMem file) 0 := by
    rw [loadStep, hsteps, h.elf, elfProcessLoaded_fst, hpointer]
    exact elfValidateLoaded_congr (header_of_bytesAt hread.bytes (by omega) hheader)
  constructor
  · intro hloads
    have haccepted := hloads.accepted
    rw [hload] at haccepted
    rcases elfValidateLoaded_cases (fileMem file) 0 with hvalid | hbad
    · exact hvalid
    · rw [hbad] at haccepted
      exact absurd (show (-einformat : ℤ) < 0 by decide) haccepted
  · intro hvalid
    refine ⟨h.opened_pos, ?_, ?_, by rw [hload, hvalid]; exact lt_irrefl 0⟩
    · rw [statStep_disk, h.stat]
      exact lt_irrefl 0
    · rw [hsteps, hread.read]
      decide

end Image

/-- An `elf_file` in a block of its own, which points to an image of the file in blocks of its own. -/
structure ImageAt (s : Kmem) (file : List Byte) (f a : ℕ) : Prop where
  lt : f < 25600
  pool : a + fileBlocks file ≤ 25600
  filePinned : Pinned s.entries f 1
  imagePinned : Pinned s.entries a (fileBlocks file)
  pointer : elfMemory s.mem (blockAddr f) = blockAddr a
  bytes : BytesAt s.mem (blockAddr a) file

lemma inRange_image {a : ℕ} (hsize : Sized file) (hn : n < file.length) :
    InRange (blockAddr a) file.length (blockAddr a + BitVec.ofNat 32 n) := by
  have hsmall := hsize.small
  rw [InRange, add_sub_cancel_left, BitVec.toNat_ofNat]
  omega

/-- It stays where both allocations stay. -/
lemma ImageAt.keeps (h : ImageAt s file f a) (hsize : Sized file) {s' : Kmem} (hfile : KeepsRun f 1 s s')
    (himage : KeepsRun a (fileBlocks file) s s') : ImageAt s' file f a := by
  refine ⟨h.lt, h.pool, hfile.pinned h.filePinned, himage.pinned h.imagePinned, ?_,
    h.bytes.congr fun n hn => ?_⟩
  · rw [← h.pointer]
    refine read32_eq_of_same fun x hx => ?_
    have hpage := elfMemory_page h.lt hx
    exact hfile.mem h.filePinned x (by omega) (by omega)
  · have hpage := pageOf_image h.pool hsize (inRange_image hsize hn)
    exact himage.mem h.imagePinned _ hpage.1 hpage.2

/-- The image is left as it was read. -/
lemma ReadSteps.imageAt (hread : ReadSteps fuel disk v p C b m k T args i j file a)
    (h : LoadSteps fuel disk v p C b m k T args i j file f new) (hserves : Serves fuel disk v)
    (hempty : T i = none) (hfd : slotOf ((i : ℤ) + 1) = some i) (hstat : args.stat.toNat + 8 ≤ 2 ^ 24)
    (hsize : Sized file) : ImageAt (closedFiles v fuel k args).kmem file f a := by
  have hlt := h.elfBlock.lt
  obtain ⟨-, hclosed, -⟩ := hread.closes h hserves hempty hfd
  have hentries := closeStep_entries h hread
  have hbefore : ImageAt (closeStep (diskCalls v fuel k args) k.kmem) file f a := by
    refine ⟨hlt, hread.blocks.pool, ?_, ?_, ?_, ?_⟩
    · rw [hentries]
      exact (h.file_pinned hstat).kzalloc one_pos (by omega) _
    · rw [hentries]
      exact hread.blocks.pinned
    · rw [closeStep_disk h hread]
      exact elfMemory_elfProcessLoaded.trans (hread.pointer h hstat hsize)
    · rw [closeStep_disk h hread]
      exact hread.bytes.congr fun n hn =>
        elfProcessLoaded_of_page hlt (hread.file_apart h hstat hsize (inRange_image hsize hn))
  exact hbefore.keeps hsize (hclosed f 1 fun r => (h.newBlock r).2 f 1 one_pos (by omega) h.elfBlock.pinned)
    (hclosed a (fileBlocks file) fun r => hread.new_apart h hstat r)

lemma LoadSteps.elfLoad_kmem (h : LoadSteps fuel disk v p C b m k T args i j file f new) :
    (elfLoad (diskCalls v fuel k args) k.kmem).2.2 = (closedFiles v fuel k args).kmem := by
  rw [elfLoad_closeStep h.opened_pos, openStep_disk]
  rfl

lemma LoadSteps.elfLoad_file (h : LoadSteps fuel disk v p C b m k T args i j file f new)
    (hloads : Loads (diskCalls v fuel k args) k.kmem) :
    (elfLoad (diskCalls v fuel k args) k.kmem).2.1 = blockAddr f := by
  rw [hloads.elfLoad_eq, h.elf]

/-- A program is loaded from a volume. The files that are open and all other allocations stay, and the
load hands out an `elf_file` with the bytes of the file exactly when they are those of an ELF file. -/
theorem elfLoad_disk (h : Holds fuel disk v p C b m k T) (hready : Ready disk p)
    (hserves : Serves fuel disk v) (hrequest : LoadRequest k args name) (hnamed : NamedFile fuel C name j)
    (hfile : FileBytes disk p C j file) (hheader : 46 ≤ file.length) (hsmall : file.length ≤ 2 ^ 30)
    (hslot : emptySlot k.fileDescriptors = some i) (hfd : slotOf ((i : ℤ) + 1) = some i)
    (hfree : TailFree k.kmem c) (hroom : c + 10 + fileBlocks file ≤ 25600) :
    (elfLoad (diskCalls v fuel k args) k.kmem).2.2 = (closedFiles v fuel k args).kmem ∧
      Holds fuel disk v p C b m (closedFiles v fuel k args) T ∧
      KeepsAll k.kmem (closedFiles v fuel k args).kmem ∧
      ((elfLoad (diskCalls v fuel k args) k.kmem).2.1 ≠ 0 ↔ elfValidateLoaded (fileMem file) 0 = 0) ∧
      (elfValidateLoaded (fileMem file) 0 = 0 → Handed (diskCalls v fuel k args) k.kmem file) := by
  have hsize : Sized file := ⟨by omega, hsmall⟩
  obtain ⟨hempty, -⟩ := h.emptySlot_some hslot
  obtain ⟨f, new, hsteps, htail⟩ := h.loadSteps hready hserves hrequest hnamed hfile hslot hfd hfree
    (by omega)
  obtain ⟨a, hread⟩ := hsteps.readSteps hready hserves hfile hsize hrequest.stat hfd htail hroom
  have hlt := hsteps.elfBlock.lt
  have hpool := hread.blocks.pool
  have hloads := hread.loads_iff hsteps hrequest.stat hsize hheader
  have hout := fun hl => hsteps.elfLoad_file hl
  have hne : blockAddr f ≠ 0 := blockAddr_ne_zero (by omega)
  have hclosed := hsteps.elfLoad_kmem
  refine ⟨hclosed, (hread.closes hsteps hserves hempty hfd).1,
    hread.keeps hsteps hserves hempty hfd hrequest.stat hsize, ?_, fun hvalid => ?_⟩
  · rw [← hloads]
    exact ⟨fun hhanded => (Loads.of_handed hhanded).1, fun hl => by rw [hout hl]; exact hne⟩
  · obtain ⟨-, -, -, -, hpointer, hbytes⟩ := hread.imageAt hsteps hserves hempty hfd hrequest.stat hsize
    rw [← hclosed] at hbytes hpointer
    rw [← hout (hloads.2 hvalid)] at hne hpointer
    refine ⟨hne, ?_, ?_, ?_⟩
    · rw [hpointer]
      exact blockAddr_ne_zero (by omega)
    · rw [hpointer]
      exact hbytes
    · change elfValidateLoaded _ (elfMemory _ _) = 0
      rw [hpointer, ← hvalid]
      exact elfValidateLoaded_congr (header_of_bytesAt hbytes (by omega) hheader)

/-- A file that ends in its first cluster can be read in one piece. -/
lemma readable_firstCluster (hsectors : p.header.sectorsPerCluster ≠ 0) {start : ℤ} (hstart : 0 ≤ start)
    (hlength : (n : ℤ) ≤ sizeOfClusterBytes disk p) (hlow : 0 ≤ fat16ClusterToSector p start)
    (hhigh : 512 * fat16ClusterToSector p start + n < 2 ^ 31) :
    Readable disk p start 0 n 1 ∧
      ∀ o : ℕ, o < n → fileByte disk p start o = disk.byte (512 * fat16ClusterToSector p start + o) := by
  have hcluster := sizeOfClusterBytes_pos disk hsectors
  have hfirst : ∀ o : ℤ, 0 ≤ o → o < n → clusterFor disk p start o = start := by
    intro o h0 hn
    unfold clusterFor fat16GetClusterForOffet
    rw [if_neg hcluster.ne', Int.tdiv_eq_zero_of_lt h0 (by omega)]
    rfl
  have hpos : ∀ o : ℤ, 0 ≤ o → o < n → bytePos disk p start o = 512 * fat16ClusterToSector p start + o := by
    intro o h0 hn
    rw [bytePos, hfirst o h0 hn, Int.emod_eq_of_lt h0 (by omega)]
  refine ⟨⟨by omega, fun i hi => ?_⟩, fun o ho => ?_⟩
  · obtain rfl : i = 0 := by omega
    rw [Nat.mul_zero, Nat.add_zero]
    refine ⟨le_rfl, fun o h0 hn => ?_, fun l hl => ?_⟩
    · have hn' : o < n := by simpa using hn
      have h0' : 0 ≤ o := by simpa using h0
      rw [hfirst o h0' hn', hpos o h0' hn']
      omega
    · rw [Nat.cast_zero, Int.zero_emod, zero_add]
      exact Int.emod_lt_of_pos _ hcluster
  · rw [fileByte, hpos o (by omega) (by omega)]

/-- A disk with a program in its file A. -/
def programDisk : Disk where
  addr := 0x200000
  sector s i :=
    if s = 3 ∧ i = 28 then 84
    else if s = 35 then (oneSegment codeSegment).getD i.toNat 0
    else letterDisk.sector s i

def programContent : Content where
  entry i j := programDisk.byte (1536 + (sizeofDirectoryItem * i + j))
  stop := 1
  before := by decide
  terminator := by decide
  counted i := programDisk.byte (1536 + (sizeofDirectoryItem * i + 0))
  countStop := 1
  counted_before := by decide
  counted_terminator := by decide

lemma programDisk_header : FatHeader.ofBytes programDisk.byte = ⟨1, 1, 2, 512, 1⟩ := rfl

lemma programDisk_formatted : Formatted 110 programDisk programContent := by
  obtain ⟨hroot, -⟩ := bootGeometry 1
  refine ⟨by decide, by decide, fun _ => rfl, fun i j => ?_, by decide, by decide⟩
  rw [programDisk_header, hroot]
  rfl

def programStorage : Storage FatState where
  filesystems := fun _ => fat16Fs 110 programDisk
  disk := 0x200000
  disk_ne := letterStorage_disk_ne
  filesystem := 0x300000

lemma programStorage_serves : Serves 110 programDisk programStorage := ⟨by decide, rfl, le_rfl, by decide⟩

lemma programContent_named : NamedFile 110 programContent [97] 0 := by
  have hname : (fat16GetFullRelativeFilename 110 (programContent.entry 0) (fun _ => 0)
      maxPathLength).map (fun r => istrncmp r.out (literal [97]) maxPathLength) = some 0 := by
    decide +kernel
  have htotal : programContent.total = 1 := by decide
  refine ⟨by rw [htotal]; decide, Option.map_eq_some_iff.1 hname, fun i hi _ => ?_, by decide⟩
  omega

lemma programDisk_data (l : Fin 84) :
    (oneSegment codeSegment).getD l 0 = programDisk.byte (512 * 35 + (l : ℕ)) := by
  revert l
  decide +kernel

/-- The data of the file is at sector 35. -/
lemma programDisk_bytes (hlaid : Laid programDisk p) :
    FileBytes programDisk p programContent 0 (oneSegment codeSegment) := by
  have hheader : p.header = ⟨1, 1, 2, 512, 1⟩ := hlaid.header.trans programDisk_header
  have hstart : programContent.start 0 = 2 := by decide
  have hsector : fat16ClusterToSector p 2 = 35 := by
    rw [fat16ClusterToSector, hlaid.data, hheader]
    rfl
  have hcluster : sizeOfClusterBytes programDisk p = 512 := by
    rw [sizeOfClusterBytes, hheader]
    rfl
  have hlength : (oneSegment codeSegment).length = 84 := rfl
  obtain ⟨hreadable, hbyte⟩ := @readable_firstCluster programDisk p 84 (by rw [hheader]; decide) 2
    (by decide) (by rw [hcluster]; decide) (by rw [hsector]; decide) (by rw [hsector]; decide)
  refine ⟨by decide, by rw [hstart]; exact hreadable, fun n hn => ?_⟩
  rw [hlength] at hn
  rw [hstart, hbyte n hn, hsector, ← programDisk_data ⟨n, hn⟩, List.getD_eq_getElem]

/-- The kernel after its start, with the request of a load. -/
lemma programKernel_holds : ∃ k b, Ready programDisk k.fs.fsPrivate ∧ Laid programDisk k.fs.fsPrivate ∧
    FreeFrom k.kmem 9 ∧ LoadRequest k ⟨0x1000, 0x1005, 0x3000⟩ [97] ∧
    emptySlot k.fileDescriptors = some 0 ∧
    Holds 110 programDisk programStorage k.fs.fsPrivate programContent b 4 k fun _ => none := by
  obtain ⟨k, b, hready, hlaid, hfree, hlow, hholds⟩ := programDisk_formatted.letterKernel_holds
    (bootDisk_rootBlocks programDisk_header) (by decide) (v := programStorage)
  have hrequest := letterKernel_request hfree hlow
  have hzero := hholds.closed 0 rfl
  refine ⟨k, b, hready, hlaid, hfree,
    ⟨hrequest.path, hrequest.name, hrequest.mode, hrequest.live, by decide⟩, ?_, hholds⟩
  exact Fin.find?_eq_some_iff.2 ⟨by simpa using hzero, fun i hi => absurd hi (Nat.not_lt_zero _)⟩

theorem elfLoad_disk_program : ∃ k b,
    (elfLoad (diskCalls programStorage 110 k ⟨0x1000, 0x1005, 0x3000⟩) k.kmem).2.2 =
        (closedFiles programStorage 110 k ⟨0x1000, 0x1005, 0x3000⟩).kmem ∧
      Holds 110 programDisk programStorage k.fs.fsPrivate programContent b 4
        (closedFiles programStorage 110 k ⟨0x1000, 0x1005, 0x3000⟩) (fun _ => none) ∧
      Handed (diskCalls programStorage 110 k ⟨0x1000, 0x1005, 0x3000⟩) k.kmem (oneSegment codeSegment) := by
  obtain ⟨k, b, hready, hlaid, hfree, hrequest, hslot, hholds⟩ := programKernel_holds
  have hblocks := fileBlocks_oneSegment codeSegment
  obtain ⟨hclosed, hleft, -, -, hhanded⟩ := elfLoad_disk hholds hready programStorage_serves hrequest
    programContent_named (programDisk_bytes hlaid) (by decide) (by decide) hslot (by decide) hfree (by omega)
  exact ⟨k, b, hclosed, hleft, hhanded (elfImage_oneSegment codeSegment).valid⟩

end AlphaOS.Fat16
