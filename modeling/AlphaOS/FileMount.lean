import AlphaOS.FileService

/-! The start of the file system: the disk is searched for a volume, and a volume that is taken serves
its files from an empty table. -/
namespace AlphaOS.Fat16
open BlockHeap CString Files Kheap Paging PathParser Processes Streamer WordMemory

variable {fuel : ℕ} {disk : Disk} {C : Content} {s s' s'' : Kmem} {b c m n : ℕ} {d : FatDirectory} {size : Word}

lemma FreeFrom.atLeast (h : FreeFrom s c) (hroom : c + n ≤ 25600) : FreeAtLeast s n := by
  have hsubset : Finset.Ico c (c + n) ⊆ (Finset.range 25600).filter fun b => IsFree s.entries b := by
    intro b hb
    rw [Finset.mem_Ico] at hb
    rw [Finset.mem_filter, Finset.mem_range]
    exact ⟨by omega, h b hb.1 (by omega)⟩
  have hcard := Finset.card_le_card hsubset
  rwa [Nat.card_Ico, Nat.add_sub_cancel_left] at hcard

/-- The allocations of others stay, and so does the memory below the heap, but for its table and the
kernel's own variables. -/
structure KeepsOthers (s s' : Kmem) : Prop where
  all : KeepsAll s s'
  low : SameOff highPages s.mem s'.mem

lemma KeepsOthers.trans (h : KeepsOthers s s') (h' : KeepsOthers s' s'') : KeepsOthers s s'' :=
  ⟨h.all.trans h'.all, high_trans h.low h'.low⟩

lemma keepsOthers_kzalloc (s : Kmem) (hlt : size.toNat < 2 ^ 31) : KeepsOthers s (kzalloc s size).2 :=
  ⟨fun _ _ hn hpool => keepsRun_kzalloc hn hpool hlt, kzalloc_high s hlt⟩

/-- A block that is given back later. -/
lemma NewBlock.release_later (h : NewBlock s s' c) (hkept : KeepsAll s' s'') :
    KeepsAll s (kfree s'' (blockAddr c)) := by
  have hlt := h.lt
  have hpin := hkept.pinned hlt h.pinned
  intro b n hn hpool
  have hrun := (h.keeps b n hn hpool).trans (hkept b n hn hpool)
  refine ⟨fun hs => (hrun.linked hs).kfree_pinned hpin (by omega), fun hb => ?_, fun hb => hrun.mem hb⟩
  have hout : c ∉ Set.Ico b (b + n) := fun hmem => hb.taken c hmem.1 hmem.2 h.free
  exact (keepsRun_kfree (hpin.droppable hlt hout)).pinned (hrun.pinned hb)

/-! The search for a volume. -/

/-- `ALPHAOS_MAX_FILESYSTEMS`. -/
abbrev maxFilesystems : ℕ := 12

/-- `fs_get_free_filesystem`. -/
def fsGetFreeFilesystem (filesystems : Fin maxFilesystems → Word) : Option (Fin maxFilesystems) :=
  Fin.find? fun i => filesystems i = 0

/-- Without room it does not return. -/
def fsInsertFilesystem (filesystems : Fin maxFilesystems → Word) (filesystem : Word) :
    Option (Fin maxFilesystems → Word) :=
  (fsGetFreeFilesystem filesystems).map fun i => Function.update filesystems i filesystem

/-- `fs_load`, for the address of `fat16_fs`. -/
def fsLoad (fat16 : Word) : Option (Fin maxFilesystems → Word) := fsInsertFilesystem (fun _ => 0) fat16

/-- The loop of `fs_resolve` over these file systems, for a `resolve` by their addresses. -/
def fsResolveLoop {σ : Type} (resolve : Word → σ → Option (ℤ × σ)) : List Word → σ → Option (Word × σ)
  | [], k => some (0, k)
  | fs :: rest, k =>
    if fs ≠ 0 then
      (resolve fs k).bind fun r => if r.1 = 0 then some (fs, r.2) else fsResolveLoop resolve rest r.2
    else fsResolveLoop resolve rest k

def fsResolve {σ : Type} (resolve : Word → σ → Option (ℤ × σ)) (filesystems : Fin maxFilesystems → Word)
    (k : σ) : Option (Word × σ) := fsResolveLoop resolve (List.ofFn filesystems) k

/-- `fat16_resolve` in the state of the kernel. `disk->fs_private` changes also where it fails. -/
def resolveFiles (fuel : ℕ) (disk : Disk) (k : FileState FatState) : Option (ℤ × FileState FatState) :=
  (fat16Resolve fuel disk k.kmem).map fun r => (r.1, k.withFs (k.fs.withPrivate r.2.2.1, r.2.2.2))

/-- `fs_init` and `disk_search_and_init`: `disk.filesystem`, and the state. -/
def diskSearchAndInit (fuel : ℕ) (disk : Disk) (fat16 : Word) (k : FileState FatState) :
    Option (Word × FileState FatState) :=
  (fsLoad fat16).bind fun filesystems =>
    fsResolve (fun _ k => resolveFiles fuel disk k) filesystems (fsInit k)

lemma fsLoad_eq (fat16 : Word) : fsLoad fat16 = some (Function.update (fun _ => 0) 0 fat16) := by
  have hfirst : fsGetFreeFilesystem (fun _ => 0) = some 0 := by decide
  rw [fsLoad, fsInsertFilesystem, hfirst]
  rfl

/-- The loop goes past empty slots. -/
lemma fsResolveLoop_empty {σ : Type} (resolve : Word → σ → Option (ℤ × σ)) (n : ℕ) (k : σ) :
    fsResolveLoop resolve (List.replicate n 0) k = some (0, k) := by
  induction n with
  | zero => rfl
  | succ n ih =>
    rw [List.replicate_succ, fsResolveLoop, if_neg (not_not.2 rfl)]
    exact ih

/-- The only file system is asked, and taken when it says so. -/
lemma diskSearchAndInit_eq {fat16 : Word} (hne : fat16 ≠ 0) (k : FileState FatState) :
    diskSearchAndInit fuel disk fat16 k = (resolveFiles fuel disk (fsInit k)).map fun r =>
      (if r.1 = 0 then fat16 else 0, r.2) := by
  have hslots : List.ofFn (Function.update (fun _ : Fin maxFilesystems => (0 : Word)) 0 fat16) =
      fat16 :: List.replicate 11 0 := by
    simp [List.ofFn_succ, Function.update, List.replicate]
  rw [diskSearchAndInit, fsLoad_eq, Option.bind_some, fsResolve, hslots, fsResolveLoop, if_pos hne]
  cases resolveFiles fuel disk (fsInit k) with
  | none => rfl
  | some r =>
    rw [Option.bind_some, Option.map_some]
    split_ifs
    · rfl
    · exact fsResolveLoop_empty _ 11 r.2

/-! The root directory in memory. -/

/-- An allocation that holds the entries of a directory whole. -/
lemma directoryStored_of_bytes {len : ℕ} (hlinked : Linked s.entries) (hpin : Pinned s.entries b m)
    (hpool : b + m ≤ 25600) (hm : 0 < m) (hlen : len ≤ 4096 * m) (hitem : d.item = blockAddr b)
    (htotal : d.total = C.total) (hwhole : sizeofDirectoryItem * C.total ≤ len)
    (hbytes : ∀ i (j : ℕ), sizeofDirectoryItem * i + j < len →
      s.mem (d.item + BitVec.ofNat 32 (sizeofDirectoryItem * i + j)) = C.entry i j)
    (hnames : ∀ i < C.total, ∃ l : ℕ, 8 ≤ l ∧ l < fuel ∧ Stops (C.entry i) l ∧
      sizeofDirectoryItem * i + l < len) : DirectoryStored fuel s d C b m := by
  have hplace : ∀ i (j : ℕ), d.entry i + BitVec.ofNat 32 j =
      blockAddr b + BitVec.ofNat 32 (sizeofDirectoryItem * i + j) := by
    intro i j
    rw [FatDirectory.entry, hitem, BitVec.add_assoc, ← BitVec.ofNat_add]
  have hbyte : ∀ i (j : ℕ), sizeofDirectoryItem * i + j < len →
      s.mem (d.entry i + BitVec.ofNat 32 j) = C.entry i j ∧
      4096 + b ≤ pageOf (d.entry i + BitVec.ofNat 32 j) ∧
      pageOf (d.entry i + BitVec.ofNat 32 j) < 4096 + (b + m) := by
    intro i j hj
    have hin := hbytes i j hj
    rw [hitem] at hin
    rw [hplace]
    exact ⟨hin, pageOf_run hpool (by omega)⟩
  have hreads : ∀ i < C.total, ∀ r,
      fat16GetFullRelativeFilename fuel (C.entry i) (fun _ => 0) maxPathLength = some r →
      ∀ j ∈ r.reads, ∃ l : ℕ, j = l ∧ sizeofDirectoryItem * i + l < len := by
    intro i hi r hr j hj
    obtain ⟨l, hl, -, hstop, hin⟩ := hnames i hi
    obtain ⟨hlow, hhigh⟩ := fat16GetFullRelativeFilename_reads_le hr hl hstop j hj
    exact ⟨j.toNat, by omega, by omega⟩
  refine ⟨⟨htotal, fun i hi => ?_, hlinked, hpin, hpool, fun i hi r hr j hj => ?_⟩, hm,
    fun i hi j hj => hbyte i j ?_⟩
  · obtain ⟨l, hl, hfuel, hstop, -⟩ := hnames i hi
    obtain ⟨r, hr⟩ := @fat16GetFullRelativeFilename_returns fuel (C.entry i) (fun _ => 0) maxPathLength l
      hl hstop hfuel
    refine ⟨r, hr, fun j hj => ?_⟩
    obtain ⟨l, rfl, hin⟩ := hreads i hi r hr j hj
    rw [pointer, BitVec.ofInt_natCast]
    exact (hbyte i l hin).1
  · obtain ⟨l, rfl, hin⟩ := hreads i hi r hr j hj
    rw [BitVec.ofInt_natCast]
    exact (hbyte i l hin).2
  · unfold sizeofDirectoryItem at hj hwhole ⊢
    omega

/-- A disk with a boot sector and a root directory that has its entries up to a terminator. -/
structure Formatted (fuel : ℕ) (disk : Disk) (C : Content) : Prop where
  sectors : (FatHeader.ofBytes disk.byte).sectorsPerCluster ≠ 0
  valid : ValidHeader (FatHeader.ofBytes disk.byte)
  consecutive : C.Consecutive
  entry : ∀ i (j : ℕ), C.entry i j =
    disk.byte (rootPos (FatHeader.ofBytes disk.byte) + (sizeofDirectoryItem * i + j : ℕ))
  stop : C.stop < (FatHeader.ofBytes disk.byte).rootDirEntries.toNat
  enough : sizeofDirectoryItem * C.stop < fuel

/-- The blocks of its root directory. -/
def rootBlocks (disk : Disk) : ℕ :=
  (heapBlocksFor (BitVec.ofNat 32 (rootDirSize (FatHeader.ofBytes disk.byte)))).toNat

/-- The terminator of the directory ends every name before it. -/
lemma Formatted.stops (h : Formatted fuel disk C) {i : ℕ} (hi : i ≤ C.stop) :
    Stops (C.entry i) (sizeofDirectoryItem * (C.stop - i) : ℕ) := by
  have hsum : sizeofDirectoryItem * i + sizeofDirectoryItem * (C.stop - i) =
      sizeofDirectoryItem * C.stop := by
    rw [← Nat.mul_add, Nat.add_sub_cancel' hi]
  have hzero : C.entry C.stop ((0 : ℕ) : ℤ) = 0 := C.terminator
  refine .inl ?_
  rw [h.entry, hsum, ← add_zero (sizeofDirectoryItem * C.stop), ← h.entry]
  exact hzero

/-- What is stored into a new allocation leaves the others. -/
lemma keepsOthers_stored {size : Word} {mem : Mem} (hsize : size.toNat < 2 ^ 31)
    (hne : (kzalloc s size).1 ≠ 0) (hb : b < 25600) (haddr : (kzalloc s size).1 = blockAddr b)
    (hframe : ∀ x, ¬ InRange (kzalloc s size).1 size.toNat x → mem x = (kzalloc s size).2.mem x) :
    KeepsOthers s ((kzalloc s size).2.withMem mem) := by
  refine ⟨fun b' n hn hpool => keepsRun_store hn hpool hsize fun x hx => ?_, fun x hx => ?_⟩
  · rw [hframe x (hx hne), kzalloc_mem_of_not hx]
  · have hout := hframe x
    rw [haddr] at hout
    exact (hout (low_not_inRange hb hsize hx)).trans (kzalloc_high s hsize x hx)

/-- The root directory is read into blocks of its own. -/
lemma Formatted.reads (h : Formatted fuel disk C) (hlinked : Linked s.entries) (hfree : FreeFrom s c)
    (hroom : c + rootBlocks disk ≤ 25600) (directory : FatDirectory) : ∃ d stream s' b,
    fat16GetRootDirectory fuel disk (headedPrivate disk) s directory =
        some (0, d, { headedPrivate disk with directoryStream := some stream }, s') ∧
      stream.disk = disk.addr ∧ DirectoryStored fuel s' d C b (rootBlocks disk) ∧ KeepsOthers s s' ∧
      FreeFrom s' (c + rootBlocks disk) ∧
      ∀ a, Pinned s.entries a 1 → a ∉ Set.Ico b (b + rootBlocks disk) := by
  have hsmall := rootDirSize_lt (FatHeader.ofBytes disk.byte)
  have hstop := h.stop
  have henough := h.enough
  have hin : sizeofDirectoryItem * C.stop < rootDirSize (FatHeader.ofBytes disk.byte) := by
    unfold rootDirSize sizeofDirectoryItem
    omega
  unfold rootBlocks at hroom ⊢
  generalize hsize : BitVec.ofNat 32 (rootDirSize (FatHeader.ofBytes disk.byte)) = size at hroom ⊢
  have hwidth : size.toNat = rootDirSize (FatHeader.ofBytes disk.byte) := by
    rw [← hsize, BitVec.toNat_ofNat]
    omega
  have hblocks : 0 < (heapBlocksFor size).toNat := by
    rw [heapBlocksFor_eq]
    omega
  have hcover := heapBlocksFor_toNat hblocks
  obtain ⟨hne, hrest⟩ := TailFree.kzalloc hfree hblocks hroom
  obtain ⟨b, hb, haddr, -, hpin⟩ := hlinked.pinned (by rwa [← kzalloc_fst]) hblocks
  rw [← kzalloc_fst] at haddr
  obtain ⟨d, stream, hload, hon, hitem, htotal⟩ := @fat16GetRootDirectory_loads fuel disk s C
    (headedPrivate disk) ⟨⟨0, disk.addr⟩, rfl, rfl⟩ h.valid directory size hsize.symm hne h.consecutive
    h.entry (show C.stop < 2 ^ 24 by
      have hentries := (FatHeader.ofBytes disk.byte).rootDirEntries.isLt
      omega) (show C.stop < fuel by
      unfold sizeofDirectoryItem at henough
      omega)
  obtain ⟨b', hfit, -, heq⟩ := kzalloc_room s hblocks ⟨c, hroom, fun j hlow hhigh => hfree j hlow (by omega)⟩
  have hpool := hfit.1
  obtain rfl : b = b' := by
    apply blockAddr_inj (by omega) (by omega)
    rw [← haddr, heq]
  have hle : C.total ≤ C.stop := by
    rw [h.consecutive.total_eq]
    exact Nat.count_le _
  have hhead : (headedPrivate disk).header = FatHeader.ofBytes disk.byte := rfl
  rw [hhead, ← hwidth] at hload
  -- what is stored into the buffer
  have hstored : ∀ i (j : ℕ), sizeofDirectoryItem * i + j < size.toNat →
      disk.transfer (rootPos (FatHeader.ofBytes disk.byte)) size.toNat (kzalloc s size).2.mem
        (kzalloc s size).1 (d.item + BitVec.ofNat 32 (sizeofDirectoryItem * i + j)) = C.entry i j := by
    intro i j hj
    obtain ⟨hback, hinside⟩ := @sub_start (kzalloc s size).1 _ _ hj (by omega)
    rw [hitem, Disk.transfer, if_pos hinside, hback, h.entry]
  have hframe : ∀ x, ¬ InRange (kzalloc s size).1 size.toNat x →
      disk.transfer (rootPos (FatHeader.ofBytes disk.byte)) size.toNat (kzalloc s size).2.mem
        (kzalloc s size).1 x = (kzalloc s size).2.mem x := fun x hx => if_neg hx
  generalize disk.transfer _ _ (kzalloc s size).2.mem _ = mem at hload hstored hframe
  refine ⟨d, stream, _, b, hload, hon, ?_, keepsOthers_stored (by omega) hne hb haddr hframe, hrest,
    fun a ha hmem => ha.not_free (hfit.2 a hmem.1 hmem.2)⟩
  refine @directoryStored_of_bytes fuel C ((kzalloc s size).2.withMem mem) b _ d size.toNat
    (hlinked.kzalloc size) hpin hpool hblocks (by omega) (hitem.trans haddr) htotal ?_ hstored
    fun i hi => ?_
  · unfold sizeofDirectoryItem at hin ⊢
    omega
  · refine ⟨sizeofDirectoryItem * (C.stop - i), ?_, ?_, h.stops (by omega), ?_⟩
    all_goals
      unfold sizeofDirectoryItem at *
      omega

/-! The volume. -/

lemma diskstreamerNew_free (disk : Disk) (h : FreeFrom s c) (hc : c < 25600) :
    diskstreamerNew disk s = ((kzalloc s 8).1, some ⟨0, disk.addr⟩, (kzalloc s 8).2) ∧
      FreeFrom (kzalloc s 8).2 (c + 1) := by
  obtain ⟨hne, hnext⟩ := h.kzalloc hc (show (heapBlocksFor 8).toNat = 1 by decide)
  refine ⟨?_, hnext⟩
  unfold diskstreamerNew
  dsimp only
  rw [if_neg hne]

lemma fat16InitPrivate_free (disk : Disk) (h : FreeFrom s c) (hroom : c + 3 ≤ 25600) : ∃ s',
    fat16InitPrivate disk s = (newPrivate disk, s') ∧ KeepsOthers s s' ∧ FreeFrom s' (c + 3) := by
  obtain ⟨hfirst, h₁⟩ := diskstreamerNew_free disk h (by omega)
  obtain ⟨hsecond, h₂⟩ := diskstreamerNew_free disk h₁ (by omega)
  obtain ⟨hthird, h₃⟩ := diskstreamerNew_free disk h₂ (by omega)
  have hkept : ∀ s, KeepsOthers s (kzalloc s 8).2 := fun s => keepsOthers_kzalloc s (by decide)
  refine ⟨_, ?_, ((hkept s).trans (hkept _)).trans (hkept _), h₃⟩
  unfold fat16InitPrivate
  dsimp only
  rw [hfirst, hsecond, hthird]
  rfl

/-- `fat16_resolve` up to the root directory, with memory for its records. -/
lemma fat16Resolve_records (fuel : ℕ) (disk : Disk) (hlinked : Linked s.entries) (hfree : FreeFrom s c)
    (hroom : c + 5 ≤ 25600) : ∃ f a s₁ s₂ s₃,
    NewBlock s s₁ f ∧ KeepsAll s₁ s₂ ∧ NewBlock s₂ s₃ a ∧ SameOff highPages s.mem s₃.mem ∧
      FreeFrom s₃ (c + 5) ∧
      fat16Resolve fuel disk s = if disk.byte 38 ≠ 0x29
        then some (resolveOut (-efsnotus) (blockAddr f) (blockAddr a) (headedPrivate disk) s₃)
        else (fat16GetRootDirectory fuel disk (headedPrivate disk) s₃ (newPrivate disk).rootDirectory).map
          fun root => resolveOut (if root.1 ≠ allOk then -eio else 0) (blockAddr f) (blockAddr a)
            { root.2.2.1 with rootDirectory := root.2.1 } root.2.2.2 := by
  obtain ⟨f, hprivate, hf⟩ := @kzalloc_newBlock_clear s (BitVec.ofNat 32 sizeofFatPrivate) hlinked
    (hfree.atLeast (by omega)) (by decide) (by decide)
  obtain ⟨-, h₁⟩ := hfree.kzalloc (by omega)
    (show (heapBlocksFor (BitVec.ofNat 32 sizeofFatPrivate)).toNat = 1 by decide)
  obtain ⟨s₂, hinit, hkept, h₂⟩ := fat16InitPrivate_free disk h₁ (by omega)
  obtain ⟨hstream, h₃⟩ := diskstreamerNew_free disk h₂ (by omega)
  obtain ⟨a, haddr, ha⟩ := @kzalloc_newBlock_clear s₂ 8 (hkept.all.linked (hf.linked hlinked))
    (h₂.atLeast (n := 1) (by omega)) (by decide) (by decide)
  have hlow := high_trans (@kzalloc_high s (BitVec.ofNat 32 sizeofFatPrivate) (by decide))
    (high_trans hkept.low (@kzalloc_high s₂ 8 (by decide)))
  refine ⟨f, a, _, s₂, _, hf, hkept.all, ha, hlow, h₃, ?_⟩
  obtain ⟨hread, -, -⟩ := @diskstreamerRead_transfer disk 62 ⟨0, disk.addr⟩ (fun _ => 0) 0 rfl le_rfl
    (by norm_num)
  have hsignature : signature (pointer (diskstreamerRead disk ⟨0, disk.addr⟩ (fun _ => 0) 0
      sizeofFatH).mem 0) = disk.byte 38 := headerByte (i := 38) (by decide)
  unfold fat16Resolve
  dsimp only
  rw [hprivate, hinit]
  dsimp only
  rw [hstream, haddr]
  dsimp only
  rw [headerOfBytes, if_neg (not_not.2 hread), hsignature]
  split_ifs
  · rfl
  · change (fat16GetRootDirectory fuel disk (headedPrivate disk) _ (newPrivate disk).rootDirectory).map _ = _
    congr 1
    funext root
    split_ifs <;> rfl

/-- The header is that of the disk, and the clusters begin right behind the root directory. -/
structure Laid (disk : Disk) (p : FatPrivate) : Prop where
  header : p.header = FatHeader.ofBytes disk.byte
  data : p.rootDirectory.endingSectorPos = rootDirSectorPos p.header + rootSectors p.header

/-- A disk with the signature and a root directory is taken, any other one is given up; the allocations
of others stay. -/
lemma Formatted.resolves (h : Formatted fuel disk C) (hlinked : Linked s.entries) (hfree : FreeFrom s c)
    (hroom : c + 5 + rootBlocks disk ≤ 25600) : ∃ res ptr p s',
    fat16Resolve fuel disk s = some (res, ptr, p, s') ∧ KeepsOthers s s' ∧
      (res = 0 ↔ disk.byte 38 = 0x29) ∧ (disk.byte 38 = 0x29 → Ready disk p ∧ Laid disk p ∧
        FreeFrom s' (c + 5 + rootBlocks disk) ∧
        ∃ b, DirectoryStored fuel s' p.rootDirectory C b (rootBlocks disk)) := by
  obtain ⟨f, a, s₁, s₂, s₃, hf, hinit, ha, hlow, hfree₃, hresolve⟩ := fat16Resolve_records fuel disk hlinked
    hfree (by omega)
  have hf_ne : blockAddr f ≠ 0 := blockAddr_ne_zero (by have := hf.lt; omega)
  have ha_ne : blockAddr a ≠ 0 := blockAddr_ne_zero (by have := ha.lt; omega)
  rw [hresolve]
  by_cases hsignature : disk.byte 38 = 0x29
  · rw [if_neg (not_not.2 hsignature)]
    obtain ⟨d, stream, s₄, b, hload, hon, hstored, hkept, hfree₄, hout⟩ := h.reads
      (ha.linked (hinit.linked (hf.linked hlinked))) hfree₃ hroom (newPrivate disk).rootDirectory
    have hreleased := ha.release_later hkept.all
    obtain ⟨hdata, -⟩ := fat16GetRootDirectory_endingSectorPos hload
    rw [hload, Option.map_some]
    dsimp only
    rw [if_neg (not_not.2 rfl), resolveOut_zero ha_ne]
    refine ⟨0, _, _, _, rfl, ⟨(hf.keeps.trans hinit).trans hreleased, high_trans hlow hkept.low⟩,
      by simp [hsignature], fun _ =>
      ⟨⟨⟨⟨⟨0, disk.addr⟩, rfl, rfl⟩, ⟨⟨0, disk.addr⟩, rfl, rfl⟩, h.sectors⟩, stream, rfl, hon⟩,
        ⟨rfl, hdata⟩, hfree₄.kfree _, b, ?_⟩⟩
    apply hstored.keeps
    exact keepsRun_kfree ((hkept.all.pinned ha.lt ha.pinned).droppable ha.lt (hout a ha.pinned))
  · rw [if_pos hsignature]
    have hreleased := hf.release_later (hinit.trans ha.release)
    have hout : resolveOut (-efsnotus) (blockAddr f) (blockAddr a) (headedPrivate disk) s₃ =
        (-efsnotus, 0, headedPrivate disk, kfree (kfree s₃ (blockAddr a)) (blockAddr f)) := by
      unfold resolveOut
      dsimp only
      rw [if_pos (by decide), if_pos ha_ne, if_pos hf_ne]
    exact ⟨_, _, _, _, congrArg some hout, ⟨hreleased, hlow⟩, iff_of_false (by decide) hsignature,
      fun hsame => absurd hsame hsignature⟩

variable {k : FileState FatState} {v : Storage FatState}

/-- A table with nothing open. -/
lemma DirectoryStored.holds_none (h : DirectoryStored fuel k.kmem k.fs.fsPrivate.rootDirectory C b m)
    (hready : Ready disk k.fs.fsPrivate) (hslots : ∀ i, k.fileDescriptors i = 0) :
    Holds fuel disk v k.fs.fsPrivate C b m k fun _ => none := by
  refine ⟨streamed_refl hready.table hready.clusters, h, ?_, fun i _ => hslots i, ?_, ?_⟩
  · simp
  · simp
  · simp

/-- The kernel takes its disk for a volume exactly when the boot sector has the signature. What others
have allocated stays, and a volume that is taken has its files to serve, none of them open. -/
theorem diskSearchAndInit_serves (h : Formatted fuel disk C) (hserves : Serves fuel disk v)
    (hlinked : Linked k.kmem.entries) (hfree : FreeFrom k.kmem c)
    (hroom : c + 5 + rootBlocks disk ≤ 25600) : ∃ k',
    diskSearchAndInit fuel disk v.filesystem k =
        some (if disk.byte 38 = 0x29 then v.filesystem else 0, k') ∧
      KeepsOthers k.kmem k'.kmem ∧ (disk.byte 38 = 0x29 → Ready disk k'.fs.fsPrivate ∧
        Laid disk k'.fs.fsPrivate ∧ FreeFrom k'.kmem (c + 5 + rootBlocks disk) ∧
        ∃ b, Holds fuel disk v k'.fs.fsPrivate C b (rootBlocks disk) k' fun _ => none) := by
  obtain ⟨res, ptr, p, s', hresolve, hkept, hiff, htaken⟩ := h.resolves hlinked hfree hroom
  have hfiles : resolveFiles fuel disk (fsInit k) =
      some (res, (fsInit k).withFs ((fsInit k).fs.withPrivate p, s')) := by
    change (fat16Resolve fuel disk k.kmem).map _ = _
    rw [hresolve]
    rfl
  refine ⟨(fsInit k).withFs ((fsInit k).fs.withPrivate p, s'), ?_, hkept, fun hsignature => ?_⟩
  · rw [diskSearchAndInit_eq hserves.filesystem, hfiles, Option.map_some]
    simp only [hiff]
  · obtain ⟨hready, hlaid, hrest, b, hstored⟩ := htaken hsignature
    exact ⟨hready, hlaid, hrest, b, @DirectoryStored.holds_none _ _ _ _ _ _ v hstored hready fun _ => rfl⟩

/-- A disk with the file A, of ten bytes in cluster 2. -/
def letterDisk : Disk where
  addr := 0x200000
  sector s i :=
    if s = 0 then bootByte i
    else if s = 3 ∧ i = 0 then 0x41
    else if s = 3 ∧ 0 < i ∧ i < 11 then space
    else if s = 3 ∧ i = 26 then 2
    else if s = 3 ∧ i = 28 then 10
    else if s = 35 then BitVec.ofInt 8 i
    else 0

/-- Its root directory, at sector 3. -/
def letterFile : Content where
  entry i j := letterDisk.byte (1536 + (sizeofDirectoryItem * i + j))
  stop := 1
  before := by decide
  terminator := by decide
  counted i := letterDisk.byte (1536 + (sizeofDirectoryItem * i + 0))
  countStop := 1
  counted_before := by decide
  counted_terminator := by decide

lemma letterDisk_formatted : Formatted 110 letterDisk letterFile := by
  have hheader : FatHeader.ofBytes letterDisk.byte = ⟨1, 1, 2, 512, 1⟩ := rfl
  obtain ⟨hroot, -⟩ := bootGeometry 1
  refine ⟨by decide, by decide, fun _ => rfl, fun i j => ?_, by decide, by decide⟩
  rw [hheader, hroot]
  rfl

lemma bootDisk_rootBlocks (hheader : FatHeader.ofBytes disk.byte = ⟨1, 1, 2, 512, 1⟩) :
    rootBlocks disk = 4 := by
  obtain ⟨-, hsize⟩ := bootGeometry 1
  rw [rootBlocks, hheader, hsize, heapBlocksFor_eq]
  rfl

lemma letterDisk_rootBlocks : rootBlocks letterDisk = 4 := bootDisk_rootBlocks rfl

lemma letterStorage_disk_ne : (0x200000 : Word) ≠ 0 := by
  decide

def letterStorage : Storage FatState where
  filesystems := fun _ => fat16Fs 110 letterDisk
  disk := 0x200000
  disk_ne := letterStorage_disk_ne
  filesystem := 0x300000

lemma letterStorage_serves : Serves 110 letterDisk letterStorage := ⟨by decide, rfl, le_rfl, by decide⟩

/-- An empty heap, with `0:/a` and `r` in memory. -/
def letterKernel : FileState FatState where
  kmem := textKmem [48, 58, slash, 97, 0, 114]
  fs := mountedState bootPrivate
  fileDescriptors := fun _ => 0
  descriptors := fun _ => zeroDescriptor

theorem diskSearchAndInit_serves_letter : ∃ k',
    diskSearchAndInit 110 letterDisk 0x300000 letterKernel = some (0x300000, k') ∧
      KeepsOthers letterKernel.kmem k'.kmem ∧ Ready letterDisk k'.fs.fsPrivate ∧
      Laid letterDisk k'.fs.fsPrivate ∧ FreeFrom k'.kmem 9 ∧
      ∃ b, Holds 110 letterDisk letterStorage k'.fs.fsPrivate letterFile b 4 k' fun _ => none := by
  obtain ⟨k', hinit, hkept, htaken⟩ := diskSearchAndInit_serves (k := letterKernel) (c := 0)
    letterDisk_formatted letterStorage_serves (kheapInit_linked _)
    (fun _ _ hb => kheapInit_free _ _ hb) (by rw [letterDisk_rootBlocks]; decide)
  rw [letterDisk_rootBlocks] at htaken
  obtain ⟨hready, hlaid, hfree, hholds⟩ := htaken (by decide)
  exact ⟨k', hinit, hkept, hready, hlaid, hfree, hholds⟩

end AlphaOS.Fat16
