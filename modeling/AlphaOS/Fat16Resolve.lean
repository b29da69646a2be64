import AlphaOS.Fat16Faults
import AlphaOS.Fat16Geometry
import AlphaOS.Fat16Walk
import AlphaOS.FrontierLoad

/-! `fat16_resolve`, which takes a disk for a FAT16 volume. -/
namespace AlphaOS.Fat16
open BlockHeap CString Kheap Paging Processes Streamer WordMemory

variable (fuel : ℕ) (disk : Disk)

/-- `sizeof(struct fat_private)` and `sizeof(struct fat_h)`. -/
abbrev sizeofFatPrivate : ℕ := 92
abbrev sizeofFatH : ℕ := 62

/-- `primary_header` as its bytes have it. -/
def FatHeader.ofBytes (h : ℤ → Byte) : FatHeader where
  sectorsPerCluster := h 13
  reservedSectors := h 15 ++ h 14
  fatCopies := h 16
  rootDirEntries := h 18 ++ h 17
  sectorsPerFat := h 23 ++ h 22

/-- `extended_header.signature`. -/
def signature (h : ℤ → Byte) : Byte := h 38

/-- `diskstreamer_new` for the disk with the id 0: the pointer, and the stream where that is not
null. There is no check for null. -/
def diskstreamerNew (s : Kmem) : Word × Option DiskStream × Kmem :=
  let streamer := kzalloc s 8
  (streamer.1, if streamer.1 = 0 then none else some ⟨0, disk.addr⟩, streamer.2)

/-- The three streams, and all other fields zero. -/
def fat16InitPrivate (s : Kmem) : FatPrivate × Kmem :=
  let clusterReadStream := diskstreamerNew disk s
  let fatReadStream := diskstreamerNew disk clusterReadStream.2.2
  let directoryStream := diskstreamerNew disk fatReadStream.2.2
  (⟨⟨0, 0, 0, 0, 0⟩, ⟨0, 0, 0, 0⟩, clusterReadStream.2.1, fatReadStream.2.1, directoryStream.2.1⟩,
    directoryStream.2.2)

/-- Behind `out:`, the result, `disk->fs_private`, what it points to and the heap. -/
def resolveOut (res : ℤ) (fatPrivate stream : Word) (p : FatPrivate) (s : Kmem) :
    ℤ × Word × FatPrivate × Kmem :=
  let s := if stream ≠ 0 then kfree s stream else s
  if res < 0 then (res, 0, p, if fatPrivate ≠ 0 then kfree s fatPrivate else s)
  else (res, fatPrivate, p, s)

def fat16Resolve (s : Kmem) : Option (ℤ × Word × FatPrivate × Kmem) :=
  let fatPrivate := kzalloc s (BitVec.ofNat 32 sizeofFatPrivate)
  let fresh := fat16InitPrivate disk fatPrivate.2
  let stream := diskstreamerNew disk fresh.2
  let out res p s := resolveOut res fatPrivate.1 stream.1 p s
  match stream.2.1 with
  | none => some (out (-enomem) fresh.1 stream.2.2)
  | some reader =>
    -- the header of the private data, here at address 0 of a memory of its own
    let r := diskstreamerRead disk reader (fun _ => 0) 0 sizeofFatH
    if r.res ≠ allOk then some (out (-eio) fresh.1 stream.2.2) else
    let p := { fresh.1 with header := FatHeader.ofBytes (pointer r.mem 0) }
    if signature (pointer r.mem 0) ≠ 0x29 then some (out (-efsnotus) p stream.2.2) else
    (fat16GetRootDirectory fuel disk p stream.2.2 p.rootDirectory).map fun root =>
      let p := { root.2.2.1 with rootDirectory := root.2.1 }
      if root.1 ≠ allOk then out (-eio) p root.2.2.2 else out 0 p root.2.2.2

variable {fuel : ℕ} {disk : Disk} {p p' : FatPrivate} {s s' : Kmem} {directory d : FatDirectory}

/-- The bytes `fat16_resolve` reads are those at the start of the disk. -/
lemma headerByte {i : ℕ} (hi : i < sizeofFatH) :
    pointer (diskstreamerRead disk ⟨0, disk.addr⟩ (fun _ => 0) 0 sizeofFatH).mem 0 i = disk.byte i := by
  unfold sizeofFatH at hi
  obtain ⟨-, -, hmem⟩ := @diskstreamerRead_transfer disk 62 ⟨0, disk.addr⟩ (fun _ => 0) 0 rfl le_rfl
    (by norm_num)
  have haddr : (0 + BitVec.ofInt 32 (i : ℤ) - 0 : Word).toNat = i := by
    simp only [BitVec.ofInt_natCast, zero_add, sub_zero, BitVec.toNat_ofNat]
    omega
  change (diskstreamerRead disk ⟨0, disk.addr⟩ (fun _ => 0) 0 (62 : ℕ)).mem _ = _
  rw [hmem, Disk.transfer, if_pos (by unfold InRange; omega), haddr]
  congr 1
  exact zero_add _

lemma fat16GetRootDirectory_header {res : ℤ}
    (h : fat16GetRootDirectory fuel disk p s directory = some (res, d, p', s')) :
    p'.header = p.header := by
  obtain ⟨total, hcount, hread⟩ := Option.bind_eq_some_iff.1 h
  have hheader := fat16GetTotalItemsForDirectory_header hcount
  dsimp only at hread
  generalize kzalloc s _ = dir at hread
  unfold readRootDirectory at hread
  by_cases hnull : dir.1 = 0
  · rw [if_pos hnull] at hread
    cases hread
    exact hheader
  · rw [if_neg hnull] at hread
    obtain ⟨stream, -, hend⟩ := Option.map_eq_some_iff.1 hread
    dsimp only at hend
    split_ifs at hend
    all_goals
      cases hend
      exact hheader

lemma resolveOut_ok {res : ℤ} {fatPrivate stream ptr : Word}
    (h : resolveOut res fatPrivate stream p s = (0, ptr, p', s')) : res = 0 ∧ p' = p := by
  unfold resolveOut at h
  dsimp only at h
  split_ifs at h
  all_goals
    cases h
    simp_all

lemma resolveOut_zero {fatPrivate stream : Word} (hne : stream ≠ 0) (p : FatPrivate) (s : Kmem) :
    resolveOut 0 fatPrivate stream p s = (0, fatPrivate, p, kfree s stream) := by
  unfold resolveOut
  dsimp only
  rw [if_neg (lt_irrefl 0), if_pos hne]

lemma diskstreamerNew_some {stream : DiskStream} (h : (diskstreamerNew disk s).2.1 = some stream) :
    stream = ⟨0, disk.addr⟩ := by
  unfold diskstreamerNew at h
  dsimp only at h
  split_ifs at h
  cases h
  rfl

/-- What a volume that is accepted has from the boot sector. -/
lemma fat16Resolve_accepts {ptr : Word} (h : fat16Resolve fuel disk s = some (0, ptr, p, s')) :
    disk.byte 38 = 0x29 ∧ p.header.sectorsPerCluster = disk.byte 13 := by
  have hbyte : ∀ {i : ℕ}, i < sizeofFatH → pointer (diskstreamerRead disk ⟨0, disk.addr⟩
      (fun _ => 0) 0 sizeofFatH).mem 0 i = disk.byte i := headerByte
  unfold fat16Resolve at h
  dsimp only at h
  generalize (fat16InitPrivate disk (kzalloc s (BitVec.ofNat 32 sizeofFatPrivate)).2) = fresh at h
  have hstream : ∀ reader, (diskstreamerNew disk fresh.2).2.1 = some reader →
      reader = ⟨0, disk.addr⟩ := fun _ => diskstreamerNew_some
  generalize diskstreamerNew disk fresh.2 = stream at h hstream
  obtain ⟨streamPtr, reader, heap⟩ := stream
  cases reader with
  | none =>
    obtain ⟨hcode, -⟩ := resolveOut_ok (Option.some.inj h)
    cases hcode
  | some reader =>
    cases hstream reader rfl
    dsimp only at h
    split_ifs at h with hread hsignature
    · obtain ⟨hcode, -⟩ := resolveOut_ok (Option.some.inj h)
      cases hcode
    · obtain ⟨hcode, -⟩ := resolveOut_ok (Option.some.inj h)
      cases hcode
    · obtain ⟨⟨res, d, q, heap'⟩, hroot, hout⟩ := Option.map_eq_some_iff.1 h
      have hheader := fat16GetRootDirectory_header hroot
      dsimp only at hout hheader
      split_ifs at hout
      · obtain ⟨hcode, -⟩ := resolveOut_ok hout
        cases hcode
      · obtain ⟨-, rfl⟩ := resolveOut_ok hout
        refine ⟨(hbyte (i := 38) (by decide)).symm.trans (not_not.1 hsignature), ?_⟩
        change q.header.sectorsPerCluster = _
        rw [hheader]
        exact hbyte (i := 13) (by decide)

/-- A volume is taken whatever its geometry is: its requests never divide by zero exactly when the
boot sector has sectors in a cluster. -/
theorem neverDivides_resolved {ptr : Word} (h : fat16Resolve fuel disk s = some (0, ptr, p, s'))
    {k : FatState} (hk : k.fsPrivate = p) : Faulting.NeverDivides disk k ↔ disk.byte 13 ≠ 0 := by
  obtain ⟨-, hsectors⟩ := fat16Resolve_accepts h
  rw [Faulting.neverDivides_iff, hk, hsectors]

/-! Volumes that are taken. -/

variable {C : Content} {b c : ℕ}

lemma diskstreamerNew_frontier (disk : Disk) (h : Frontier s c) (hroom : c + 1 ≤ 25600) :
    diskstreamerNew disk s = (blockAddr c, some ⟨0, disk.addr⟩, (kzalloc s 8).2) ∧
      Frontier (kzalloc s 8).2 (c + 1) := by
  obtain ⟨haddr, hnext⟩ := @frontier_block s c h 8 (by decide) hroom
  refine ⟨?_, hnext⟩
  unfold diskstreamerNew
  dsimp only
  rw [haddr, if_neg (blockAddr_ne_zero (by omega))]

/-- The private data of a volume before its header is read. -/
def newPrivate (disk : Disk) : FatPrivate where
  header := ⟨0, 0, 0, 0, 0⟩
  rootDirectory := ⟨0, 0, 0, 0⟩
  clusterReadStream := some ⟨0, disk.addr⟩
  fatReadStream := some ⟨0, disk.addr⟩
  directoryStream := some ⟨0, disk.addr⟩

lemma fat16InitPrivate_frontier (disk : Disk) (h : Frontier s c) (hlinked : Linked s.entries)
    (hroom : c + 3 ≤ 25600) : ∃ s', fat16InitPrivate disk s = (newPrivate disk, s') ∧
      Frontier s' (c + 3) ∧ Linked s'.entries ∧ SameOff highPages s.mem s'.mem := by
  obtain ⟨hfirst, h₁⟩ := diskstreamerNew_frontier disk h (by omega)
  obtain ⟨hsecond, h₂⟩ := diskstreamerNew_frontier disk h₁ (by omega)
  obtain ⟨hthird, h₃⟩ := diskstreamerNew_frontier disk h₂ (by omega)
  refine ⟨_, ?_, h₃, ((hlinked.kzalloc 8).kzalloc 8).kzalloc 8, ?_⟩
  · unfold fat16InitPrivate
    dsimp only
    rw [hfirst, hsecond, hthird]
    rfl
  · have hhigh : ∀ s : Kmem, SameOff highPages s.mem (kzalloc s 8).2.mem :=
      fun s => kzalloc_high s (by decide)
    exact high_trans (hhigh s) (high_trans (hhigh _) (hhigh _))

/-- The blocks from `c` on are free. -/
def FreeFrom (s : Kmem) (c : ℕ) : Prop := ∀ b, c ≤ b → b < 25600 → IsFree s.entries b

lemma FreeFrom.kfree (h : FreeFrom s c) (ptr : Word) : FreeFrom (kfree s ptr) c := by
  intro b hlow hhigh
  obtain ⟨m, -, heq⟩ := kfree_run s ptr
  rw [IsFree, heq]
  split_ifs
  · rfl
  · exact h b hlow hhigh

/-- One block is taken, at the latest the first of these. -/
lemma FreeFrom.kzalloc (h : FreeFrom s c) (hc : c < 25600) {size : Word}
    (hsize : (heapBlocksFor size).toNat = 1) :
    (kzalloc s size).1 ≠ 0 ∧ FreeFrom (kzalloc s size).2 (c + 1) := by
  have hfit : FitsAt s.entries 25600 1 c := ⟨by omega, fun j h1 h2 => h j h1 (by omega)⟩
  obtain ⟨b, hb, hleast, heq⟩ := @kzalloc_room s size (by omega) ⟨c, by rwa [hsize]⟩
  rw [hsize] at hb hleast heq
  have hle : b ≤ c := by
    by_contra hlt
    exact hleast c (by omega) hfit
  have hpool := hb.1
  refine ⟨?_, fun j hlow hhigh => ?_⟩
  · rw [heq]
    exact blockAddr_ne_zero (by omega)
  · rw [heq, IsFree]
    change heapGetEntryType (overwrite s.entries b 1 (blockEntry 1) j) = entryFree
    rw [overwrite_natCast, if_neg (by omega)]
    exact h j (by omega) hhigh

/-- A volume whose root directory has its entries in the blocks from `b` on. -/
structure RootLoaded (C : Content) (p : FatPrivate) (s : Kmem) (b : ℕ) : Prop where
  block : b < 25600
  item : p.rootDirectory.item = blockAddr b
  total : p.rootDirectory.total = C.total
  linked : Linked s.entries
  pinned : Pinned s.entries b 1
  bytes : ∀ j : ℕ, j < sizeofDirectoryItem → pointer s.mem (p.rootDirectory.entry 0) j = C.entry 0 j

/-- The volume of a disk with its header. -/
def headedPrivate (disk : Disk) : FatPrivate :=
  { newPrivate disk with header := FatHeader.ofBytes disk.byte }

/-- The same once its root directory is loaded. -/
def resolvedPrivate (disk : Disk) (d : FatDirectory) (stream : DiskStream) : FatPrivate :=
  { headedPrivate disk with rootDirectory := d, directoryStream := some stream }

lemma headerOfBytes : FatHeader.ofBytes (pointer (diskstreamerRead disk ⟨0, disk.addr⟩
    (fun _ => 0) 0 sizeofFatH).mem 0) = FatHeader.ofBytes disk.byte := by
  have hbyte : ∀ i : ℕ, i < sizeofFatH → pointer (diskstreamerRead disk ⟨0, disk.addr⟩
      (fun _ => 0) 0 sizeofFatH).mem 0 i = disk.byte i := fun i => headerByte
  generalize pointer (diskstreamerRead disk ⟨0, disk.addr⟩ (fun _ => 0) 0 sizeofFatH).mem 0 = h at hbyte
  have h13 : h 13 = disk.byte 13 := hbyte 13 (by decide)
  have h14 : h 14 = disk.byte 14 := hbyte 14 (by decide)
  have h15 : h 15 = disk.byte 15 := hbyte 15 (by decide)
  have h16 : h 16 = disk.byte 16 := hbyte 16 (by decide)
  have h17 : h 17 = disk.byte 17 := hbyte 17 (by decide)
  have h18 : h 18 = disk.byte 18 := hbyte 18 (by decide)
  have h22 : h 22 = disk.byte 22 := hbyte 22 (by decide)
  have h23 : h 23 = disk.byte 23 := hbyte 23 (by decide)
  unfold FatHeader.ofBytes
  rw [h13, h14, h15, h16, h17, h18, h22, h23]

lemma RootLoaded.keeps (h : RootLoaded C p s b) (hkept : KeepsRun b 1 s s') : RootLoaded C p s' b := by
  refine ⟨h.block, h.item, h.total, hkept.linked h.linked, hkept.pinned h.pinned, fun j hj => ?_⟩
  have hin := @pageOf_run b 1 j (by have := h.block; omega) (by unfold sizeofDirectoryItem at hj; omega)
  have hplace : p.rootDirectory.entry 0 + BitVec.ofInt 32 j = blockAddr b + BitVec.ofNat 32 j := by
    rw [FatDirectory.entry, h.item, BitVec.ofInt_natCast, Nat.mul_zero, BitVec.add_assoc,
      ← BitVec.ofNat_add, Nat.zero_add]
  rw [← h.bytes j hj, pointer, pointer, hplace]
  exact hkept.mem h.pinned _ hin.1 hin.2

lemma RootLoaded.kzalloc (h : RootLoaded C p s b) {size : Word} (hsize : size.toNat < 2 ^ 31) :
    RootLoaded C p (kzalloc s size).2 b :=
  h.keeps (keepsRun_kzalloc one_pos (by have := h.block; omega) hsize)

lemma RootLoaded.kfree (h : RootLoaded C p s b) {ptr : Word} (hdrop : Droppable (Set.Ico b (b + 1)) s ptr) :
    RootLoaded C p (kfree s ptr) b := h.keeps (keepsRun_kfree hdrop)

/-- The buffer of the root directory, filled from the disk. -/
lemma rootLoaded_buffer {size : Word} {pos : ℤ} {stream : DiskStream} (hlinked : Linked s.entries)
    (hb : b < 25600) (hbuffer : (kzalloc s size).1 = blockAddr b) (hblocks : 0 < (heapBlocksFor size).toNat)
    {len : ℕ} (hlen : 32 ≤ len) (hlt : len < 2 ^ 31)
    (hentry : ∀ j : ℕ, C.entry 0 j = disk.byte (pos + j)) (hitem : d.item = (kzalloc s size).1)
    (htotal : d.total = C.total) : RootLoaded C (resolvedPrivate disk d stream)
      ((kzalloc s size).2.withMem (disk.transfer pos len (kzalloc s size).2.mem (kzalloc s size).1)) b := by
  refine ⟨hb, hitem.trans hbuffer, htotal, hlinked.kzalloc size,
    kzalloc_pinnedAt hlinked hbuffer hb hblocks, fun j hj => ?_⟩
  unfold sizeofDirectoryItem at hj
  obtain ⟨hback, hin⟩ := @sub_start (kzalloc s size).1 j len (by omega) (by omega)
  change disk.transfer pos len _ _ (d.item + BitVec.ofNat 32 (sizeofDirectoryItem * 0) +
    BitVec.ofInt 32 j) = _
  have hplace : d.item + BitVec.ofNat 32 (sizeofDirectoryItem * 0) + BitVec.ofInt 32 j =
      (kzalloc s size).1 + BitVec.ofNat 32 j := by
    rw [hitem, BitVec.ofInt_natCast, Nat.mul_zero, BitVec.add_assoc, ← BitVec.ofNat_add, Nat.zero_add]
  rw [hplace, Disk.transfer, if_pos hin, hback, hentry]

/-- A disk with the signature whose root directory ends is taken, as long as memory is left. -/
lemma fat16Resolve_loads (h : Frontier s c) (hlinked : Linked s.entries)
    (hsignature : disk.byte 38 = 0x29) (hvalid : ValidHeader (FatHeader.ofBytes disk.byte))
    (hC : C.Consecutive) (hentry : ∀ i (j : ℕ), C.entry i j =
      disk.byte (rootPos (FatHeader.ofBytes disk.byte) + (sizeofDirectoryItem * i + j : ℕ)))
    (hstop : C.stop < 2 ^ 24) (hfuel : C.stop < fuel)
    (hentries : (FatHeader.ofBytes disk.byte).rootDirEntries ≠ 0) {n : ℕ}
    (hn : (heapBlocksFor (BitVec.ofNat 32 (rootDirSize (FatHeader.ofBytes disk.byte)))).toNat = n)
    (hroom : c + 5 + n ≤ 25600) :
    ∃ d stream s', fat16Resolve fuel disk s =
        some (0, blockAddr c, resolvedPrivate disk d stream, s') ∧ stream.disk = disk.addr ∧
      RootLoaded C (resolvedPrivate disk d stream) s' (c + 5) ∧ FreeFrom s' (c + 5 + n) ∧
      SameOff highPages s.mem s'.mem ∧ d.endingSectorPos =
        rootDirSectorPos (FatHeader.ofBytes disk.byte) + rootSectors (FatHeader.ofBytes disk.byte) := by
  have hsmall := rootDirSize_lt (FatHeader.ofBytes disk.byte)
  have hfull : 32 ≤ rootDirSize (FatHeader.ofBytes disk.byte) := by
    have hsome : 0 < (FatHeader.ofBytes disk.byte).rootDirEntries.toNat :=
      Nat.pos_of_ne_zero fun hzero => hentries (BitVec.eq_of_toNat_eq hzero)
    unfold rootDirSize sizeofDirectoryItem
    omega
  generalize hsize : BitVec.ofNat 32 (rootDirSize (FatHeader.ofBytes disk.byte)) = size at hn
  have hwidth : size.toNat = rootDirSize (FatHeader.ofBytes disk.byte) := by
    rw [← hsize, BitVec.toNat_ofNat]
    omega
  have hblocks : 0 < (heapBlocksFor size).toNat := by
    rw [heapBlocksFor_eq]
    omega
  obtain ⟨hprivate, h₁⟩ := @frontier_block s c h (BitVec.ofNat 32 sizeofFatPrivate) (by decide) (by omega)
  have hlinked₁ := hlinked.kzalloc (BitVec.ofNat 32 sizeofFatPrivate)
  have hlow₁ := @kzalloc_high s (BitVec.ofNat 32 sizeofFatPrivate) (by decide)
  obtain ⟨s₂, hinit, h₂, hlinked₂, hlow₂⟩ := fat16InitPrivate_frontier disk h₁ hlinked₁ (by omega)
  obtain ⟨hstream, h₃⟩ := diskstreamerNew_frontier disk h₂ (by omega)
  have hlinked₃ := hlinked₂.kzalloc 8
  have hlow₃ := @kzalloc_high s₂ 8 (by decide)
  have hpin := kzalloc_pinnedAt hlinked₂ (congrArg Prod.fst hstream) (by omega) (by decide)
  generalize (kzalloc s₂ 8).2 = s₃ at hstream h₃ hlinked₃ hlow₃ hpin
  obtain ⟨hread, -, -⟩ := @diskstreamerRead_transfer disk 62 ⟨0, disk.addr⟩ (fun _ => 0) 0 rfl le_rfl
    (by norm_num)
  have hsigned : signature (pointer (diskstreamerRead disk ⟨0, disk.addr⟩ (fun _ => 0) 0
      sizeofFatH).mem 0) = 0x29 := (headerByte (i := 38) (by decide)).trans hsignature
  obtain ⟨hfilled, h₄⟩ := h₃.kzalloc hblocks (by omega)
  have hfour : c + 1 + 3 = c + 4 := by omega
  have hfive : c + 1 + 3 + 1 = c + 5 := by omega
  rw [hfive] at hfilled h₄
  have hbuffer : (kzalloc s₃ size).1 = blockAddr (c + 5) := by rw [hfilled]
  have hne : (kzalloc s₃ size).1 ≠ 0 := by
    rw [hbuffer]
    exact blockAddr_ne_zero (by omega)
  obtain ⟨d, stream, hload, hon, hitem, htotal⟩ := @fat16GetRootDirectory_loads fuel disk s₃ C
    (headedPrivate disk) ⟨⟨0, disk.addr⟩, rfl, rfl⟩ hvalid (newPrivate disk).rootDirectory size
    hsize.symm hne hC hentry hstop hfuel
  have hroot := @rootLoaded_buffer disk s₃ d C (c + 5) size (rootPos (FatHeader.ofBytes disk.byte))
    stream hlinked₃ (by omega) hbuffer hblocks _ hfull (by omega) (fun j => by
      rw [hentry, Nat.mul_zero, Nat.zero_add]) hitem htotal
  have hsame : SameOff highPages s₃.mem (disk.transfer (rootPos (FatHeader.ofBytes disk.byte))
      (rootDirSize (FatHeader.ofBytes disk.byte)) (kzalloc s₃ size).2.mem (kzalloc s₃ size).1) := by
    intro x hx
    rw [Disk.transfer, if_neg (by
      rw [hbuffer]
      exact low_not_inRange (by omega) (by omega) hx)]
    exact kzalloc_high s₃ (by omega) x hx
  have hdrop : Droppable (Set.Ico (c + 5) (c + 5 + 1)) (kzalloc s₃ size).2 (blockAddr (c + 4)) := by
    have hpin' : Pinned (kzalloc s₃ size).2.entries (c + 4) 1 := hpin.kzalloc one_pos (by omega) size
    exact hpin'.droppable (by omega) (by
      rw [Set.mem_Ico]
      omega)
  change fat16GetRootDirectory fuel disk (headedPrivate disk) s₃ _ = some (0, d, _,
    (kzalloc s₃ size).2.withMem (disk.transfer (rootPos (FatHeader.ofBytes disk.byte))
      (rootDirSize (FatHeader.ofBytes disk.byte)) (kzalloc s₃ size).2.mem (kzalloc s₃ size).1)) at hload
  generalize disk.transfer _ _ (kzalloc s₃ size).2.mem (kzalloc s₃ size).1 = m at hload hroot hsame
  obtain ⟨hending, -⟩ := fat16GetRootDirectory_endingSectorPos hload
  refine ⟨d, stream, kfree ((kzalloc s₃ size).2.withMem m) (blockAddr (c + 4)), ?_, hon, ?_, ?_, ?_,
    hending⟩
  · unfold fat16Resolve
    dsimp only
    rw [hprivate, hinit]
    dsimp only
    rw [hstream]
    dsimp only
    rw [headerOfBytes, if_neg (not_not.2 hread), if_neg (not_not.2 hsigned)]
    change (fat16GetRootDirectory fuel disk (headedPrivate disk) s₃ (newPrivate disk).rootDirectory).map _ = _
    rw [hload, hfour]
    rw [Option.map_some]
    dsimp only
    rw [if_neg (not_not.2 rfl), resolveOut_zero (blockAddr_ne_zero (by omega))]
    rfl
  · exact hroot.kfree hdrop
  · exact FreeFrom.kfree (show FreeFrom _ _ from fun b hlow hhigh => h₄.free b (by omega) hhigh) _
  · exact high_trans hlow₁ (high_trans hlow₂ (high_trans hlow₃ hsame))

/-! Opening the only entry of a root directory. -/

/-- A name of entry 0 that ends within it is compared as the entry has it. -/
lemma RootLoaded.named (h : RootLoaded C p s b) {l : ℕ} (hl : 8 ≤ l) (hlt : l < sizeofDirectoryItem)
    (hfuel : l < fuel) (hstop : Stops (C.entry 0) l) {name : ℤ → Byte}
    (hname : HasName fuel (C.entry 0) name) :
    hasName fuel s (p.rootDirectory.entry 0) name = some true := by
  have hshown : Shown fuel s.mem p.rootDirectory C.entry 1 := by
    intro i hi
    obtain rfl : i = 0 := by omega
    obtain ⟨r, hr⟩ := @fat16GetFullRelativeFilename_returns fuel (C.entry 0) (fun _ => 0) maxPathLength l
      hl hstop hfuel
    refine ⟨r, hr, fun j hj => ?_⟩
    obtain ⟨hlow, hhigh⟩ := fat16GetFullRelativeFilename_reads_le hr hl hstop j hj
    obtain ⟨j, rfl⟩ := Int.eq_ofNat_of_zero_le hlow
    exact h.bytes j (by omega)
  rcases @Shown.matches fuel s p.rootDirectory name C.entry 1 0 hshown Nat.one_pos with ⟨-, hfound⟩ | ⟨hnot, -⟩
  · exact hfound
  · exact absurd hname hnot

/-- The lookup of the only entry makes its item. -/
lemma findItemLoop_sole {k : FatState} {name : ℤ → Byte}
    (hname : hasName fuel s (d.entry 0) name = some true) {r : Word × FatState × Kmem}
    (hnew : fat16NewFatItemForDirectoryItem fuel disk k s (d.entry 0) = some r) :
    findItemLoop fuel disk d name 1 0 k s 0 = some r := by
  rw [findItemLoop, hname, Option.bind_some, if_pos rfl, hnew, Option.bind_some]
  rfl

/-- `fat16_open` of a path with one part, for the only entry of the root directory. -/
lemma fat16Open_sole {k : FatState} {path : Word} (hfuel : 1 < fuel)
    (htotal : k.fsPrivate.rootDirectory.total = 1) (hroom : (kzalloc s 8).1 ≠ 0)
    (hnext : read32 (kzalloc s 8).2.mem (path + 4) = 0)
    (hname : hasName fuel (kzalloc s 8).2 (k.fsPrivate.rootDirectory.entry 0)
      (pointer (kzalloc s 8).2.mem (read32 (kzalloc s 8).2.mem path)) = some true)
    {r : Word × FatState × Kmem} (hnew : fat16NewFatItemForDirectoryItem fuel disk k (kzalloc s 8).2
      (k.fsPrivate.rootDirectory.entry 0) = some r) (hne : r.1 ≠ 0) :
    fat16Open fuel disk k s path .read =
      some ((kzalloc s 8).1, r.2.1.setDescriptor (kzalloc s 8).1 ⟨r.1, 0⟩, r.2.2) := by
  have hparts : pathParts (kzalloc s 8).2.mem fuel 0 = some [] := by
    cases fuel with
    | zero => omega
    | succ fuel => exact if_pos rfl
  have hfind : fat16FindItemInDirectory fuel disk k (kzalloc s 8).2 k.fsPrivate.rootDirectory
      (pointer (kzalloc s 8).2.mem (read32 (kzalloc s 8).2.mem path)) = some r := by
    rw [fat16FindItemInDirectory, htotal]
    exact findItemLoop_sole hname hnew
  unfold fat16Open
  dsimp only
  rw [if_neg (not_not.2 rfl), if_neg hroom, hnext, hparts, Option.bind_some, fat16GetDirectoryEntry,
    hfind, Option.bind_some, if_neg hne]
  dsimp only [directoryEntryLoop, Option.map_some]
  rw [if_neg hne]

/-- Memory with the path `a` at 0x1000, and zero elsewhere. -/
def pathMem : Mem := fun x => if x = 0x1001 then 0x20 else if x = 0x2000 then 0x61 else 0

lemma pathMem_low {m : Mem} (h : SameOff highPages pathMem m) :
    read32 m 0x1000 = 0x2000 ∧ read32 m (0x1000 + 4) = 0 ∧ pointer m 0x2000 0 = 0x61 ∧
      pointer m 0x2000 1 = 0 := by
  have hlow : ∀ x : Word, x.toNat < 2 ^ 24 → pageOf x ∉ highPages := by
    intro x hx hin
    rw [Set.mem_Ici, pageOf] at hin
    omega
  refine ⟨(h.read32 (by decide) (hlow _ (by decide))).trans (by decide),
    (h.read32 (by decide) (hlow _ (by decide))).trans (by decide),
    (h _ (hlow _ (by decide))).trans (by decide), (h _ (hlow _ (by decide))).trans (by decide)⟩

/-- With that path the entry A is found. -/
lemma fat16Open_loaded (h : RootLoaded C p s b) (htotal : C.total = 1) (hfree : FreeFrom s c)
    (hc : c < 25600) (hlow : SameOff highPages pathMem s.mem) (hstop : Stops (C.entry 0) 8)
    (hname : HasName 100 (C.entry 0) lowerA) {k : FatState} (hk : k.fsPrivate = p)
    {r : Word × FatState × Kmem} (hnew : fat16NewFatItemForDirectoryItem 100 disk k (kzalloc s 8).2
      (p.rootDirectory.entry 0) = some r) (hne : r.1 ≠ 0) :
    fat16Open 100 disk k s 0x1000 .read =
      some ((kzalloc s 8).1, r.2.1.setDescriptor (kzalloc s 8).1 ⟨r.1, 0⟩, r.2.2) := by
  subst hk
  have hroom : (kzalloc s 8).1 ≠ 0 := (hfree.kzalloc hc (by decide)).1
  have hafter : RootLoaded C k.fsPrivate (kzalloc s 8).2 b := h.kzalloc (by decide)
  obtain ⟨hpart, hnext, hfirst, hsecond⟩ := pathMem_low (high_trans hlow (@kzalloc_high s 8 (by decide)))
  have hone : k.fsPrivate.rootDirectory.total = 1 := by
    rw [h.total, htotal]
    rfl
  have hpath : HasName 100 (C.entry 0) (pointer (kzalloc s 8).2.mem 0x2000) := by
    apply @HasName.congr _ _ _ _ hname 1 rfl
    intro j hj
    interval_cases j
    · exact hfirst
    · exact hsecond
  have hfound := hafter.named le_rfl (by decide) (by omega) hstop hpath
  rw [← hpart] at hfound
  exact fat16Open_sole (by omega) hone hroom hnext hfound hnew hne

/-- A disk with the file A whose boot sector has no sectors in a cluster. -/
def zeroClusterDisk : Disk where
  addr := 0x200000
  sector s i := if s = 0 ∧ i = 13 then 0 else oneFileDisk.sector s i

/-- A heap of zero entries over the memory with the path. -/
def pathKmem : Kmem := kheapInit pathMem fun _ => 0

lemma pathKmem_frontier : Frontier pathKmem 0 :=
  ⟨fun _ hb => absurd hb (Nat.not_lt_zero _), fun _ _ hb => kheapInit_free _ _ hb⟩

lemma oneFile_named : HasName 100 (oneFile.entry 0) lowerA := by
  have hname : (fat16GetFullRelativeFilename 100 (oneFile.entry 0) (fun _ => 0)
      maxPathLength).map (fun r => istrncmp r.out lowerA maxPathLength) = some 0 := by
    decide +kernel
  exact Option.map_eq_some_iff.1 hname

lemma zeroClusterDisk_byte {q : ℤ} (hq : 512 ≤ q) : zeroClusterDisk.byte q = oneFileDisk.byte q :=
  if_neg fun h => by omega

/-- The size of the clusters has no part in where the root directory is. -/
lemma bootGeometry (sectorsPerCluster : Byte) : rootPos ⟨sectorsPerCluster, 1, 2, 512, 1⟩ = 1536 ∧
    rootDirSize ⟨sectorsPerCluster, 1, 2, 512, 1⟩ = 16384 := by
  constructor
  · simp [rootPos, rootDirSectorPos]
  · simp [rootDirSize, sizeofDirectoryItem]

/-- A disk with that boot sector and any size of its clusters is taken. -/
lemma bootDisk_resolves {sectorsPerCluster : Byte}
    (hheader : FatHeader.ofBytes disk.byte = ⟨sectorsPerCluster, 1, 2, 512, 1⟩)
    (hsignature : disk.byte 38 = 0x29) (hC : C.Consecutive)
    (hentry : ∀ i (j : ℕ), C.entry i j = disk.byte (1536 + (sizeofDirectoryItem * i + j : ℕ)))
    (hstop : C.stop < 100) : ∃ d stream s', fat16Resolve 100 disk pathKmem =
        some (0, blockAddr 0, resolvedPrivate disk d stream, s') ∧ stream.disk = disk.addr ∧
      RootLoaded C (resolvedPrivate disk d stream) s' 5 ∧ FreeFrom s' 9 ∧
      SameOff highPages pathMem s'.mem ∧ d.endingSectorPos = 35 := by
  obtain ⟨hroot, hsize⟩ := bootGeometry sectorsPerCluster
  rw [← hheader] at hroot hsize
  have hblocks : (heapBlocksFor (BitVec.ofNat 32 (rootDirSize (FatHeader.ofBytes disk.byte)))).toNat =
      4 := by
    rw [hsize, heapBlocksFor_eq]
    rfl
  have hvalid : ValidHeader (FatHeader.ofBytes disk.byte) := by
    rw [hheader]
    exact (by decide : 1 ≤ 256)
  have hentries : (FatHeader.ofBytes disk.byte).rootDirEntries ≠ 0 := by
    rw [hheader]
    exact (by decide : (512 : BitVec 16) ≠ 0)
  have hending : rootDirSectorPos (FatHeader.ofBytes disk.byte) +
      rootSectors (FatHeader.ofBytes disk.byte) = 35 := by
    unfold rootPos at hroot
    unfold rootSectors
    omega
  have hresolve := fat16Resolve_loads pathKmem_frontier (kheapInit_linked _) hsignature hvalid hC
    (by rwa [hroot]) (by omega) hstop hentries hblocks (by omega)
  rwa [hending] at hresolve

theorem neverDivides_resolved_oneFile : ∃ p s', fat16Resolve 100 oneFileDisk pathKmem =
    some (0, blockAddr 0, p, s') ∧ Faulting.NeverDivides oneFileDisk (mountedState p) := by
  obtain ⟨d, stream, s', hresolve, -⟩ := @bootDisk_resolves oneFileDisk oneFile 1 rfl (by decide)
    (fun _ => rfl) (fun _ _ => rfl) (by decide)
  exact ⟨_, s', hresolve, (neverDivides_resolved hresolve rfl).2 (by decide)⟩

/-- The disk is taken; its file opens, and the first read divides by zero. -/
theorem zeroClusterDisk_divides : ∃ p s', fat16Resolve 100 zeroClusterDisk pathKmem =
      some (0, blockAddr 0, p, s') ∧
    ¬ Faulting.NeverDivides zeroClusterDisk (mountedState p) ∧
    ∃ descriptor k s'', Faulting.fat16Open 100 zeroClusterDisk (mountedState p) s' 0x1000 .read =
        .ok (descriptor, k, s'') ∧
      Faulting.fat16Read zeroClusterDisk k s'' descriptor 1 1 0x3000 = .error .divideError := by
  obtain ⟨d, stream, s', hresolve, -, hroot, hfree, hlow, -⟩ := @bootDisk_resolves zeroClusterDisk oneFile 0
    rfl (by decide) (fun _ => rfl) (fun i j => (zeroClusterDisk_byte (by
      unfold sizeofDirectoryItem
      omega)).symm) (by decide)
  have hzero : (resolvedPrivate zeroClusterDisk d stream).header.sectorsPerCluster = 0 := rfl
  generalize resolvedPrivate zeroClusterDisk d stream = p at hresolve hroot hzero
  have hitem : RootLoaded oneFile p (kzalloc s' 8).2 5 := hroot.kzalloc (by decide)
  obtain ⟨r, hnew, hne, -, hprivate⟩ := @fat16NewFatItem_file 100 zeroClusterDisk (mountedState p)
    (kzalloc s' 8).2 (p.rootDirectory.entry 0)
    ((hfree.kzalloc (by decide) (by decide)).2.kzalloc (by decide) (by decide)).1
    ((hitem.bytes 11 (by decide)).trans (by decide))
  have hopen := fat16Open_loaded hroot (by decide) hfree (by decide) hlow (.inr (by decide))
    oneFile_named rfl hnew hne
  refine ⟨p, s', hresolve, fun hnever => Faulting.neverDivides_iff.1 hnever hzero, _, _, _,
    Faulting.ok_of_toOption ((Faulting.fat16Open_toOption _ _).trans hopen),
    Faulting.fat16Read_divides ?_ _ _ _ (by decide)⟩
  change r.2.1.fsPrivate.header.sectorsPerCluster = 0
  rw [hprivate]
  exact hzero

end AlphaOS.Fat16
