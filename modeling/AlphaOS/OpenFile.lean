import AlphaOS.Fat16Files
import AlphaOS.Fat16Read

/-! Calls of `fseek` and `fread` on an open file of the FAT16 file system. -/
namespace AlphaOS.Fat16
open CString Files Kheap Streamer WordMemory

variable {fuel : ℕ} {disk : Disk} {v : Storage FatState} {k k' : FileState FatState} {fd : ℤ}

/-- The private data of a descriptor. -/
def privateData (k : FileState FatState) (fd : ℤ) : Word :=
  (k.descriptors (fileGetDescriptor k fd)).privateData

/-- The position of an open file. -/
def position (k : FileState FatState) (fd : ℤ) : Word := (k.fs.descriptors (privateData k fd)).pos

def openItem (k : FileState FatState) (fd : ℤ) : FatItem :=
  k.fs.items (k.fs.descriptors (privateData k fd)).item

/-- The directory entry of an open file. -/
def openEntry (k : FileState FatState) (fd : ℤ) : FatDirectoryItem :=
  pointer k.kmem.mem (openItem k fd).item

def fileSize (k : FileState FatState) (fd : ℤ) : ℕ := (openEntry k fd).fileSize.toNat

/-- The descriptor is open on a regular file of the disk. -/
structure IsOpen (fuel : ℕ) (disk : Disk) (v : Storage FatState) (k : FileState FatState) (fd : ℤ) :
    Prop where
  valid : fileGetDescriptor k fd ≠ 0
  served : v.filesystems (k.descriptors (fileGetDescriptor k fd)).filesystem = fat16Fs fuel disk
  regular : (openItem k fd).type = .file

/-- The word behind a stored one is kept. -/
lemma read32_write32_before (m : Mem) (a f : Word) :
    read32 (write32 m a f) (a + 4) = read32 m (a + 4) := by
  apply read32_eq_of_same
  intro x hx
  apply if_neg
  unfold InRange at hx ⊢
  rw [BitVec.toNat_sub, BitVec.toNat_add] at hx
  rw [BitVec.toNat_sub]
  have hx' := x.isLt
  have ha := a.isLt
  have hfour : (4 : Word).toNat = 4 := rfl
  omega

/-! Seeking. -/

/-- The state with the position of an open file moved. -/
def moveTo (k : FileState FatState) (fd : ℤ) (pos : Word) : FileState FatState :=
  k.withFs (k.fs.setDescriptor (privateData k fd)
    { k.fs.descriptors (privateData k fd) with pos := pos }, k.kmem)

@[simp] lemma moveTo_privateData (k : FileState FatState) (fd : ℤ) (pos : Word) :
    privateData (moveTo k fd pos) fd = privateData k fd := rfl

@[simp] lemma moveTo_position (k : FileState FatState) (fd : ℤ) (pos : Word) :
    position (moveTo k fd pos) fd = pos := by
  rw [position, moveTo_privateData, moveTo]
  simp [FatState.setDescriptor, FileState.withFs]

@[simp] lemma moveTo_openItem (k : FileState FatState) (fd : ℤ) (pos : Word) :
    openItem (moveTo k fd pos) fd = openItem k fd := by
  rw [openItem, moveTo_privateData, moveTo]
  simp [FatState.setDescriptor, FileState.withFs, openItem]

@[simp] lemma moveTo_fileSize (k : FileState FatState) (fd : ℤ) (pos : Word) :
    fileSize (moveTo k fd pos) fd = fileSize k fd := by
  rw [fileSize, openEntry, moveTo_openItem]
  rfl

/-- `fseek` turns its offset into an unsigned one. -/
lemma IsOpen.fseek_eq (h : IsOpen fuel disk v k fd) (offset : ℤ) (whence : Word) :
    fseek v k fd offset whence =
      ((fat16Seek k.fs k.kmem (privateData k fd) (BitVec.ofInt 32 offset) whence).1,
      k.withFs (fat16Seek k.fs k.kmem (privateData k fd) (BitVec.ofInt 32 offset) whence).2) := by
  simp only [fseek, if_neg h.valid, h.served]
  rfl

/-- What `fseek` makes of the position: nothing on an error. -/
lemma IsOpen.fseek_cases (h : IsOpen fuel disk v k fd) (offset : ℤ) (whence : Word) :
    ((fseek v k fd offset whence).1 < 0 ∧ (fseek v k fd offset whence).2 = k) ∨
    ((BitVec.ofInt 32 offset).toNat < fileSize k fd ∧ ∃ pos,
      (whence = seekSet ∧ pos = BitVec.ofInt 32 offset ∨
        whence = seekCur ∧ pos = position k fd + BitVec.ofInt 32 offset) ∧
      fseek v k fd offset whence = (0, moveTo k fd pos)) := by
  have hregular : (k.fs.items (k.fs.descriptors (privateData k fd)).item).type = .file := h.regular
  have hsize : (FatDirectoryItem.fileSize (pointer k.kmem.mem
      (k.fs.items (k.fs.descriptors (privateData k fd)).item).item)).toNat = fileSize k fd := rfl
  rw [h.fseek_eq]
  simp only [fat16Seek, hregular, ne_eq, not_true_eq_false, if_false, hsize]
  by_cases hlarge : (BitVec.ofInt 32 offset).toNat ≥ fileSize k fd
  · simp only [if_pos hlarge]
    exact .inl ⟨by decide, rfl⟩
  simp only [if_neg hlarge]
  by_cases hset : whence = seekSet
  · simp only [if_pos hset]
    exact .inr ⟨by omega, _, .inl ⟨hset, rfl⟩, rfl⟩
  simp only [if_neg hset]
  by_cases hend : whence = seekEnd
  · simp only [if_pos hend]
    exact .inl ⟨by decide, rfl⟩
  simp only [if_neg hend]
  by_cases hcur : whence = seekCur
  · simp only [if_pos hcur]
    exact .inr ⟨by omega, _, .inr ⟨hcur, rfl⟩, rfl⟩
  · simp only [if_neg hcur]
    exact .inl ⟨by decide, rfl⟩

lemma IsOpen.moveTo (h : IsOpen fuel disk v k fd) (pos : Word) :
    IsOpen fuel disk v (moveTo k fd pos) fd :=
  ⟨h.valid, h.served, by simpa using h.regular⟩

/-- A relative seek whose offset is in the file ends in it, or wraps around. -/
def StaysInside (k : FileState FatState) (fd offset : ℤ) (whence : Word) : Prop :=
  whence = seekCur → (BitVec.ofInt 32 offset).toNat < fileSize k fd →
    (BitVec.ofInt 32 offset).toNat < fileSize k fd - (position k fd).toNat ∨
      2 ^ 32 ≤ (position k fd).toNat + (BitVec.ofInt 32 offset).toNat

/-- One call keeps the position below the size exactly when it stays inside. -/
lemma IsOpen.fseek_below (h : IsOpen fuel disk v k fd) (hpos : (position k fd).toNat < fileSize k fd)
    (offset : ℤ) (whence : Word) :
    IsOpen fuel disk v (fseek v k fd offset whence).2 fd ∧
    fileSize (fseek v k fd offset whence).2 fd = fileSize k fd ∧
    ((position (fseek v k fd offset whence).2 fd).toNat < fileSize k fd ↔
      StaysInside k fd offset whence) := by
  rcases h.fseek_cases offset whence with ⟨herr, hsame⟩ | ⟨hlt, pos, hwhence, heq⟩
  · rw [hsame]
    refine ⟨h, rfl, iff_of_true hpos fun hcur hlt => ?_⟩
    -- a relative seek that passes the check is no error
    rw [h.fseek_eq] at herr
    have hregular : (k.fs.items (k.fs.descriptors (privateData k fd)).item).type = .file := h.regular
    have hsize : (FatDirectoryItem.fileSize (pointer k.kmem.mem
        (k.fs.items (k.fs.descriptors (privateData k fd)).item).item)).toNat = fileSize k fd := rfl
    simp only [fat16Seek, hregular, ne_eq, not_true_eq_false, if_false, hsize, hcur] at herr
    rw [if_neg (by omega), if_neg (by decide), if_neg (by decide), if_pos trivial] at herr
    exact absurd herr (lt_irrefl 0)
  · rw [heq]
    refine ⟨h.moveTo pos, moveTo_fileSize k fd pos, ?_⟩
    rw [moveTo_position, StaysInside]
    rcases hwhence with ⟨hset, rfl⟩ | ⟨hcur, rfl⟩
    · refine iff_of_true hlt fun hcur => absurd (hset.symm.trans hcur) (by decide)
    · have hoff := (BitVec.ofInt 32 offset).isLt
      have hold := (position k fd).isLt
      rw [BitVec.toNat_add]
      constructor
      · intro hnew _ _
        omega
      · intro hinside
        have hcase := hinside hcur hlt
        omega

/-- Calls of `fseek` on one descriptor, each of which meets a condition on the state before it. -/
inductive SeekRun (v : Storage FatState) (fd : ℤ) (C : FileState FatState → ℤ → Word → Prop) :
    FileState FatState → FileState FatState → Prop
  | start (k : FileState FatState) : SeekRun v fd C k k
  | seek {k k' : FileState FatState} (run : SeekRun v fd C k k') (offset : ℤ) (whence : Word)
      (meets : C k' offset whence) : SeekRun v fd C k (fseek v k' fd offset whence).2

/-- After every call of a run the position is in the file, and an error leaves it alone. -/
theorem seekRun_below (hopen : IsOpen fuel disk v k fd)
    (hpos : (position k fd).toNat < fileSize k fd)
    (hrun : SeekRun v fd (fun k => StaysInside k fd) k k') :
    (position k' fd).toNat < fileSize k' fd ∧ fileSize k' fd = fileSize k fd ∧
    ∀ offset whence, (fseek v k' fd offset whence).1 < 0 →
      position (fseek v k' fd offset whence).2 fd = position k' fd := by
  have hinv : IsOpen fuel disk v k' fd ∧ fileSize k' fd = fileSize k fd ∧
      (position k' fd).toNat < fileSize k' fd := by
    induction hrun with
    | start => exact ⟨hopen, rfl, hpos⟩
    | seek run offset whence meets ih =>
      obtain ⟨hopen', hsize', hpos'⟩ := ih
      obtain ⟨hnext, hsize, hiff⟩ := hopen'.fseek_below hpos' offset whence
      exact ⟨hnext, hsize.trans hsize', by rw [hsize]; exact hiff.2 meets⟩
  refine ⟨hinv.2.2, hinv.2.1, fun offset whence herr => ?_⟩
  rcases hinv.1.fseek_cases offset whence with ⟨-, hsame⟩ | ⟨-, pos, -, heq⟩
  · rw [hsame]
  · rw [heq] at herr
    exact absurd herr (lt_irrefl 0)

/-- A file of ten bytes in cluster 2, open as descriptor 1. -/
def tenByteFile : FileState FatState where
  kmem := kheapInit (fun x => if x = 0x101A then 2 else if x = 0x101C then 10 else 0) fun _ => 0
  fs := ⟨bootPrivate, fun _ => ⟨0x1000, .file⟩, fun _ => ⟨0, 0, 0, 0⟩, fun _ => ⟨0x2000, 0⟩, []⟩
  fileDescriptors := fun i => if i = 0 then 0x3000 else 0
  descriptors := fun _ => ⟨1, 0x300000, 0x4000, 0x200000⟩

def countingStorage : Storage FatState where
  filesystems := fun _ => fat16Fs 100 countingDisk
  disk := 0x200000
  disk_ne := by decide
  filesystem := 0x300000

lemma tenByteFile_open : IsOpen 100 countingDisk countingStorage tenByteFile 1 :=
  ⟨by decide, rfl, rfl⟩

theorem seekRun_below_forward : (position (fseek countingStorage tenByteFile 1 6 seekCur).2 1).toNat <
    fileSize (fseek countingStorage tenByteFile 1 6 seekCur).2 1 :=
  (seekRun_below tenByteFile_open (by decide)
    (.seek (.start _) 6 seekCur fun _ _ => .inl (by decide))).1

/-- Two steps of six bytes forward pass the end of the file, and both succeed. -/
theorem fseek_passesEnd :
    let first := fseek countingStorage tenByteFile 1 6 seekCur
    let second := fseek countingStorage first.2 1 6 seekCur
    first.1 = 0 ∧ second.1 = 0 ∧ (position second.2 1).toNat = 12 ∧ fileSize second.2 1 = 10 := by
  decide

/-! Reading. -/

/-- `fread` of an accepted request. -/
lemma IsOpen.fread_eq (h : IsOpen fuel disk v k fd) {size nmemb : Word} (hsize : size ≠ 0)
    (hnmemb : nmemb ≠ 0) (ptr : Word) :
    let r := (fat16Read disk k.fs k.kmem (privateData k fd) size nmemb ptr).getD
      (-eio, k.fs, k.kmem)
    fread v k ptr size nmemb fd = (r.1, k.withFs r.2) := by
  have hfd : ¬ (size = 0 ∨ nmemb = 0 ∨ fd < 1) := by
    rintro (h0 | h0 | h0)
    · exact hsize h0
    · exact hnmemb h0
    · refine h.valid ?_
      rw [fileGetDescriptor, dif_pos (.inl (by omega))]
  simp only [fread, if_neg hfd, if_neg h.valid, h.served]
  rfl

/-- No read moves the position. -/
lemma IsOpen.fread_position (h : IsOpen fuel disk v k fd) (ptr size nmemb : Word) :
    IsOpen fuel disk v (fread v k ptr size nmemb fd).2 fd ∧
      position (fread v k ptr size nmemb fd).2 fd = position k fd := by
  by_cases hsize : size = 0
  · rw [fread, if_pos (.inl hsize)]
    exact ⟨h, rfl⟩
  by_cases hnmemb : nmemb = 0
  · rw [fread, if_pos (.inr (.inl hnmemb))]
    exact ⟨h, rfl⟩
  rw [h.fread_eq hsize hnmemb]
  cases hread : fat16Read disk k.fs k.kmem (privateData k fd) size nmemb ptr with
  | none => exact ⟨⟨h.valid, h.served, h.regular⟩, rfl⟩
  | some r =>
    obtain ⟨r', -, rfl⟩ := Option.map_eq_some_iff.1 hread
    exact ⟨⟨h.valid, h.served, h.regular⟩, rfl⟩

/-- The bytes of a request, given by the size and the number of its members. -/
def requested (request : Word × Word) : ℕ := request.1.toNat * request.2.toNat

/-- Two reads in a row deliver what one read of both lengths does, and each moves the position
by what it delivers. -/
def SplitsReads (v : Storage FatState) (k : FileState FatState) (fd : ℤ) (ptr : Word)
    (first second whole : Word × Word) : Prop :=
  let r := fread v k ptr first.1 first.2 fd
  let r' := fread v r.2 (ptr + BitVec.ofNat 32 (requested first)) second.1 second.2 fd
  let w := fread v k ptr whole.1 whole.2 fd
  (∀ j < requested first + requested second,
    r'.2.kmem.mem (ptr + BitVec.ofNat 32 j) = w.2.kmem.mem (ptr + BitVec.ofNat 32 j)) ∧
  (position r.2 fd).toNat = (position k fd).toNat + requested first ∧
  (position r'.2 fd).toNat = (position r.2 fd).toNat + requested second

/-- Reads of an open file never add up. -/
theorem not_splitsReads (hopen : IsOpen fuel disk v k fd) (ptr : Word)
    {first : Word × Word} (hfirst : 1 ≤ requested first) (second whole : Word × Word) :
    ¬ SplitsReads v k fd ptr first second whole := by
  rintro ⟨-, hmoved, -⟩
  rw [(hopen.fread_position ptr first.1 first.2).2] at hmoved
  omega

/-- The loop of `fat16_read` into a buffer apart from the entry of the file. -/
lemma fat16ReadLoop_chained {p p' : FatPrivate} (hmounted : Mounted disk p)
    (h : Streamed disk p p') {size item : Word} {start : ℤ} (n : ℕ) {mem : Mem} {offset out : Word}
    (hstart : (fat16GetFirstCluster (pointer mem item)).toInt = start)
    (hlen : size.toNat * n < 2 ^ 32)
    (hapart : ∀ j : ℤ, 0 ≤ j → j < 32 → ¬ InRange out (size.toNat * n) (item + BitVec.ofInt 32 j)) :
    ∃ r, fat16ReadLoop disk size item n p' mem offset out = some r ∧ (0 ≤ r.1 ↔
      ∀ i < n, Chained disk p start (offset + BitVec.ofNat 32 i * size).toInt size.toInt) := by
  induction n generalizing p' mem offset out with
  | zero => exact ⟨_, rfl, by simp⟩
  | succ n ih =>
    have hlt : size.toInt < 2 ^ 31 := by
      have htop := BitVec.toInt_lt (x := size)
      simpa using htop
    obtain ⟨res, p'', mem', hread, hstreamed, hframe, -, hiff⟩ := @fat16ReadInternal_chained
      disk p p' start offset.toInt size.toInt hmounted.table hmounted.sectors h hlt mem out
    have hpart : size.toInt.toNat ≤ size.toNat := by
      rw [BitVec.toInt_eq_toNat_cond]
      split_ifs <;> omega
    have hmul : size.toNat * (n + 1) = size.toNat + size.toNat * n := by ring
    rw [hmul] at hlen hapart
    have hsplit := fun x => (inRange_split out x hlen).1
    -- the entry is outside of this member and of the ones that follow
    have hentry : ∀ j : ℤ, 0 ≤ j → j < 32 →
        pointer mem' item j = pointer mem item j := by
      intro j hlow hhigh
      refine hframe _ fun hin => hapart j hlow hhigh ((hsplit _).2 (.inl ?_))
      exact lt_of_lt_of_le hin hpart
    have hcluster : (fat16GetFirstCluster (pointer mem' item)).toInt = start := by
      rw [← hstart, fat16GetFirstCluster, fat16GetFirstCluster]
      simp only [FatDirectoryItem.high16BitsFirstCluster, FatDirectoryItem.low16BitsFirstCluster]
      rw [hentry 21, hentry 20, hentry 27, hentry 26] <;> norm_num
    have hstep : ∀ i : ℕ, offset + BitVec.ofNat 32 (i + 1) * size =
        offset + size + BitVec.ofNat 32 i * size := by
      intro i
      have hone : BitVec.ofNat 32 (i + 1) = BitVec.ofNat 32 i + 1 := BitVec.ofNat_add i 1
      rw [hone]
      ring
    rw [fat16ReadLoop, hstart, hread, Option.bind_some]
    by_cases hneg : res < 0
    · rw [if_pos hneg]
      refine ⟨_, rfl, iff_of_false (by omega) fun hall => ?_⟩
      have hfirst := hall 0 (Nat.succ_pos n)
      simp only [BitVec.zero_mul, BitVec.add_zero] at hfirst
      exact absurd (hiff.2 hfirst) (by omega)
    · rw [if_neg hneg]
      have hout : out + BitVec.ofNat 32 size.toNat = out + size := by simp
      rw [hout] at hsplit
      obtain ⟨r, hr, hall⟩ := @ih p'' hstreamed mem' (offset + size) (out + size) hcluster (by omega)
        fun j hlow hhigh hin => hapart j hlow hhigh ((hsplit _).2 (.inr hin))
      refine ⟨r, hr, hall.trans ⟨fun hrest i hi => ?_, fun hwhole i hi => ?_⟩⟩
      · cases i with
        | zero =>
          simp only [BitVec.zero_mul, BitVec.add_zero]
          exact hiff.1 (by omega)
        | succ i =>
          rw [hstep]
          exact hrest i (by omega)
      · rw [← hstep]
        exact hwhole (i + 1) (by omega)

lemma tenByteFile_mounted : Mounted countingDisk tenByteFile.fs.fsPrivate :=
  ⟨⟨⟨0, 0x200000⟩, rfl, rfl⟩, ⟨⟨0, 0x200000⟩, rfl, rfl⟩, by decide⟩

lemma tenByteFile_clusterFor {o : ℤ} (hlow : 0 ≤ o) (hhigh : o < 512) :
    clusterFor countingDisk bootPrivate 2 o = 2 := by
  have hc : sizeOfClusterBytes countingDisk bootPrivate = 512 := rfl
  have hahead : (o.tdiv 512).toNat = 0 := by
    rw [Int.tdiv_eq_ediv_of_nonneg hlow]
    omega
  rw [(clusterFor_eq countingDisk (show bootPrivate.header.sectorsPerCluster ≠ 0 by decide) 2 o).2,
    hc, hahead]
  rfl

lemma tenByteFile_bytePos {o : ℤ} (hlow : 0 ≤ o) (hhigh : o < 512) :
    bytePos countingDisk bootPrivate 2 o = 17920 + o := by
  have hc : sizeOfClusterBytes countingDisk bootPrivate = 512 := rfl
  have hsector : fat16ClusterToSector bootPrivate 2 = 35 := rfl
  rw [bytePos, tenByteFile_clusterFor hlow hhigh, hsector, hc]
  omega

/-- One member of the file from its start. -/
lemma tenByteFile_fread {k : FileState FatState}
    (hopen : IsOpen 100 countingDisk countingStorage k 1)
    (hstreamed : Streamed countingDisk bootPrivate k.fs.fsPrivate)
    (hcluster : (fat16GetFirstCluster (openEntry k 1)).toInt = 2) (hpos : position k 1 = 0) {n : ℕ}
    (hn : 0 < n) (hlt : n < 512) (ptr : Word) : ∃ p, Streamed countingDisk bootPrivate p ∧
      fread countingStorage k ptr (BitVec.ofNat 32 n) 1 1 =
        (1, k.withFs (k.fs.withPrivate p,
          k.kmem.withMem (countingDisk.transfer 17920 n k.kmem.mem ptr))) := by
  obtain ⟨p, hread⟩ := @fat16ReadInternal_run countingDisk bootPrivate k.fs.fsPrivate 2 0
    tenByteFile_mounted.table tenByteFile_mounted.sectors hstreamed le_rfl n hn (by omega)
    (fun o hlow hhigh => by
      rw [tenByteFile_clusterFor hlow (by omega), tenByteFile_bytePos hlow (by omega)]
      omega) k.kmem.mem ptr
  obtain ⟨res, p', mem', hread', hstreamed', -⟩ := @fat16ReadInternal_chained countingDisk
    bootPrivate k.fs.fsPrivate 2 0 n tenByteFile_mounted.table tenByteFile_mounted.sectors hstreamed
    (by omega) k.kmem.mem ptr
  have hp : p = p' := by
    rw [hread] at hread'
    injection hread' with hread'
    exact congrArg (fun r => r.2.1) hread'
  have hc : sizeOfClusterBytes countingDisk bootPrivate = (512 : ℕ) := rfl
  rw [← transfer_eq_pieces hc (by omega), tenByteFile_bytePos le_rfl (by norm_num),
    Disk.wrapped_transfer (by norm_num) (by omega)] at hread
  have hsize : (BitVec.ofNat 32 n).toInt = n := by
    rw [BitVec.toInt_eq_toNat_of_lt] <;> rw [BitVec.toNat_ofNat] <;> omega
  have hne : BitVec.ofNat 32 n ≠ 0 := by
    intro h0
    rw [h0] at hsize
    change (0 : ℤ) = n at hsize
    omega
  have hloop : fat16ReadLoop countingDisk (BitVec.ofNat 32 n) (openItem k 1).item 1 k.fs.fsPrivate
      k.kmem.mem (position k 1) ptr = some (0, p, countingDisk.transfer 17920 n k.kmem.mem ptr) := by
    have hstart : (fat16GetFirstCluster (pointer k.kmem.mem (openItem k 1).item)).toInt = 2 := hcluster
    rw [fat16ReadLoop, hstart, hpos, hsize]
    change (fat16ReadInternal countingDisk k.fs.fsPrivate 2 0 n k.kmem.mem ptr).bind _ = _
    rw [hread]
    rfl
  have hread16 : fat16Read countingDisk k.fs k.kmem (privateData k 1) (BitVec.ofNat 32 n) 1 ptr =
      some (1, k.fs.withPrivate p,
        k.kmem.withMem (countingDisk.transfer 17920 n k.kmem.mem ptr)) := by
    rw [fat16Read]
    exact congrArg (Option.map _) hloop
  refine ⟨p, hp ▸ hstreamed', ?_⟩
  rw [hopen.fread_eq hne (by decide), hread16]
  rfl

/-- Two reads of one byte deliver the first byte twice; one read of both delivers two bytes. -/
theorem fread_deliversAgain :
    let first := fread countingStorage tenByteFile 0x5000 1 1 1
    let second := fread countingStorage first.2 0x5001 1 1 1
    let whole := fread countingStorage tenByteFile 0x5000 2 1 1
    (first.1 = 1 ∧ second.1 = 1 ∧ whole.1 = 1) ∧ second.2.kmem.mem 0x5001 = 0 ∧
      whole.2.kmem.mem 0x5001 = 1 ∧ position second.2 1 = 0 := by
  obtain ⟨p, hp, hfirst⟩ := tenByteFile_fread tenByteFile_open
    (streamed_refl tenByteFile_mounted.table tenByteFile_mounted.clusters) (by decide) rfl one_pos
    (by norm_num) 0x5000
  obtain ⟨p', -, hwhole⟩ := tenByteFile_fread tenByteFile_open
    (streamed_refl tenByteFile_mounted.table tenByteFile_mounted.clusters) (by decide) rfl two_pos
    (by norm_num) 0x5000
  have hopen := (tenByteFile_open.fread_position 0x5000 1 1).1
  change fread countingStorage tenByteFile 0x5000 1 1 1 = _ at hfirst
  rw [hfirst] at hopen
  obtain ⟨q, -, hsecond⟩ := tenByteFile_fread hopen hp (by
    change (fat16GetFirstCluster (pointer (countingDisk.transfer 17920 1 tenByteFile.kmem.mem 0x5000)
      0x1000)).toInt = 2
    decide) rfl one_pos (by norm_num) 0x5001
  change fread countingStorage _ 0x5001 1 1 1 = _ at hsecond
  change fread countingStorage tenByteFile 0x5000 2 1 1 = _ at hwhole
  dsimp only
  rw [hfirst, hsecond, hwhole]
  refine ⟨⟨rfl, rfl, rfl⟩, ?_, ?_, rfl⟩
  · change countingDisk.transfer 17920 1 (countingDisk.transfer 17920 1 tenByteFile.kmem.mem 0x5000)
      0x5001 0x5001 = 0
    decide
  · change countingDisk.transfer 17920 2 tenByteFile.kmem.mem 0x5000 0x5001 = 1
    decide

theorem not_splitsReads_tenBytes :
    ¬ SplitsReads countingStorage tenByteFile 1 0x5000 (4, 1) (2, 3) (5, 2) :=
  not_splitsReads tenByteFile_open 0x5000 (by decide) (2, 3) (5, 2)

/-- The members of a request that lie in the file as a whole. -/
def completeItems (pos fileSize size nmemb : ℕ) : ℕ := min nmemb ((fileSize - pos) / size)

lemma completeItems_eq {pos fileSize size nmemb : ℕ} (hsize : 0 < size) (hnmemb : 0 < nmemb) :
    completeItems pos fileSize size nmemb = nmemb ↔ pos + size * nmemb ≤ fileSize := by
  have hpos : 0 < size * nmemb := Nat.mul_pos hsize hnmemb
  rw [completeItems, min_eq_left_iff, Nat.le_div_iff_mul_le hsize, Nat.mul_comm nmemb]
  omega

/-- Whatever the buffer holds, no byte from behind the end of the file is stored in it, and the
result is the number of complete members. -/
def ReadsWithin (v : Storage FatState) (k : FileState FatState) (fd : ℤ) (ptr size nmemb : Word) :
    Prop :=
  ∀ mem : Mem, (∀ x, ¬ InRange ptr (size.toNat * nmemb.toNat) x → mem x = k.kmem.mem x) →
    let r := fread v (k.withKmem (k.kmem.withMem mem)) ptr size nmemb fd
    (∀ j < size.toNat * nmemb.toNat, fileSize k fd ≤ (position k fd).toNat + j →
      r.2.kmem.mem (ptr + BitVec.ofNat 32 j) = mem (ptr + BitVec.ofNat 32 j)) ∧
    r.1 = completeItems (position k fd).toNat (fileSize k fd) size.toNat nmemb.toNat

/-- The members of a request start in clusters of the file's chain, and so do their pieces. -/
def ChainedItems (disk : Disk) (k : FileState FatState) (fd : ℤ) (size nmemb : Word) : Prop :=
  ∀ i < nmemb.toNat, Chained disk k.fs.fsPrivate (fat16GetFirstCluster (openEntry k fd)).toInt
    (position k fd + BitVec.ofNat 32 i * size).toInt size.toInt

/-- The result of `fread` is the number of members exactly when they are all in the chain. -/
lemma IsOpen.fread_result (h : IsOpen fuel disk v k fd) (hmounted : Mounted disk k.fs.fsPrivate)
    {ptr size nmemb : Word} (hsize : size ≠ 0) (hnmemb : nmemb ≠ 0)
    (hapart : ∀ j : ℤ, 0 ≤ j → j < 32 → ¬ InRange ptr (size.toNat * nmemb.toNat)
      ((openItem k fd).item + BitVec.ofInt 32 j)) :
    ((fread v k ptr size nmemb fd).1 = nmemb.toInt ∧ ChainedItems disk k fd size nmemb) ∨
    ((fread v k ptr size nmemb fd).1 < 0 ∧ ¬ ChainedItems disk k fd size nmemb) := by
  have hlen : size.toNat * nmemb.toNat < 2 ^ 32 := by
    have hfirst := hapart 0 le_rfl (by norm_num)
    unfold InRange at hfirst
    omega
  obtain ⟨r, hloop, hiff⟩ := @fat16ReadLoop_chained disk k.fs.fsPrivate k.fs.fsPrivate hmounted
    (streamed_refl hmounted.table hmounted.clusters) size (openItem k fd).item _ nmemb.toNat
    k.kmem.mem (position k fd) ptr rfl hlen hapart
  have hread : fat16Read disk k.fs k.kmem (privateData k fd) size nmemb ptr =
      some (if r.1 < 0 then r.1 else nmemb.toInt, k.fs.withPrivate r.2.1,
        k.kmem.withMem r.2.2) := by
    rw [fat16Read]
    exact congrArg (Option.map _) hloop
  rw [h.fread_eq hsize hnmemb, hread]
  by_cases hneg : r.1 < 0
  · exact .inr ⟨by simp [hneg], fun hall => absurd (hiff.2 hall) (by omega)⟩
  · exact .inl ⟨by simp [hneg], hiff.1 (by omega)⟩

/-- A read stays within the file and counts its members exactly when the request ends in the
file, its number of members is an `int`, and the clusters it needs are in the chain. -/
theorem fread_within_iff (hopen : IsOpen fuel disk v k fd) (hmounted : Mounted disk k.fs.fsPrivate)
    {ptr size nmemb : Word} (hsize : size ≠ 0) (hnmemb : nmemb ≠ 0)
    (hapart : ∀ j : ℤ, 0 ≤ j → j < 32 → ¬ InRange ptr (size.toNat * nmemb.toNat)
      ((openItem k fd).item + BitVec.ofInt 32 j)) :
    ReadsWithin v k fd ptr size nmemb ↔
      (position k fd).toNat + size.toNat * nmemb.toNat ≤ fileSize k fd ∧ nmemb.toNat < 2 ^ 31 ∧
      ChainedItems disk k fd size nmemb := by
  have hsize' : 0 < size.toNat := Nat.pos_of_ne_zero fun h0 => hsize (BitVec.eq_of_toNat_eq h0)
  have hnmemb' : 0 < nmemb.toNat := Nat.pos_of_ne_zero fun h0 => hnmemb (BitVec.eq_of_toNat_eq h0)
  have hint : nmemb.toInt = nmemb.toNat ↔ nmemb.toNat < 2 ^ 31 := by
    have hlt := nmemb.isLt
    rw [BitVec.toInt_eq_toNat_cond]
    split_ifs <;> omega
  constructor
  · intro hwithin
    obtain ⟨-, hres⟩ := hwithin k.kmem.mem fun _ _ => rfl
    have hcount : (fread v k ptr size nmemb fd).1 =
      completeItems (position k fd).toNat (fileSize k fd) size.toNat nmemb.toNat := hres
    rcases hopen.fread_result hmounted hsize hnmemb hapart with ⟨heq, hchained⟩ | ⟨hneg, -⟩
    · rw [heq] at hcount
      have hmin : completeItems (position k fd).toNat (fileSize k fd) size.toNat nmemb.toNat ≤
        nmemb.toNat := min_le_left _ _
      have hsmall : nmemb.toNat < 2 ^ 31 := by
        have hlt := nmemb.isLt
        rw [BitVec.toInt_eq_toNat_cond] at hcount
        split_ifs at hcount <;> omega
      refine ⟨(completeItems_eq hsize' hnmemb').1 ?_, hsmall, hchained⟩
      rw [hint.2 hsmall] at hcount
      exact_mod_cast hcount.symm
    · omega
  · rintro ⟨hend, hsmall, hchained⟩ mem hmem
    refine ⟨fun j hj hbehind => by omega, ?_⟩
    -- the entry is the same whatever the buffer holds
    have hentry : ∀ j : ℤ, 0 ≤ j → j < 32 →
        openEntry (k.withKmem (k.kmem.withMem mem)) fd j = openEntry k fd j :=
      fun j hlow hhigh => hmem _ (hapart j hlow hhigh)
    have hcluster : fat16GetFirstCluster (openEntry (k.withKmem (k.kmem.withMem mem)) fd) =
        fat16GetFirstCluster (openEntry k fd) := by
      simp only [fat16GetFirstCluster, FatDirectoryItem.high16BitsFirstCluster,
        FatDirectoryItem.low16BitsFirstCluster]
      rw [hentry 21, hentry 20, hentry 27, hentry 26] <;> norm_num
    have hopen' : IsOpen fuel disk v (k.withKmem (k.kmem.withMem mem)) fd :=
      ⟨hopen.valid, hopen.served, hopen.regular⟩
    rcases hopen'.fread_result hmounted hsize hnmemb hapart with ⟨heq, -⟩ | ⟨-, hbroken⟩
    · rw [(completeItems_eq hsize' hnmemb').2 hend]
      exact heq.trans (hint.2 hsmall)
    · refine absurd ?_ hbroken
      unfold ChainedItems
      rw [hcluster]
      exact hchained

theorem fread_within_iff_tenBytes :
    ReadsWithin countingStorage tenByteFile 1 0x5000 5 2 := by
  refine (fread_within_iff tenByteFile_open tenByteFile_mounted (by decide) (by decide) ?_).2
    ⟨by decide, by decide, fun i hi q hq => ?_⟩
  · intro j hlow hhigh
    change ¬ ((0x1000 + BitVec.ofInt 32 j - 0x5000 : Word).toNat < 10)
    interval_cases j <;> decide
  · have hq0 : q = 0 := by
      have hc : sizeOfClusterBytes countingDisk bootPrivate = 512 := rfl
      have hfive : (5 : Word).toInt = 5 := rfl
      rcases hq with h0 | hlt
      · exact h0
      · change (q : ℤ) * sizeOfClusterBytes countingDisk bootPrivate < _ at hlt
        rw [hc, hfive] at hlt
        omega
    have hi2 : i < 2 := hi
    subst hq0
    change 0 ≤ clusterFor countingDisk bootPrivate 2 _
    interval_cases i
    · rw [tenByteFile_clusterFor (by decide) (by decide)]
      decide
    · rw [tenByteFile_clusterFor (by decide) (by decide)]
      decide

/-- Twelve bytes of the file of ten count as one complete member, and the byte at offset ten is
delivered. -/
theorem fread_pastEnd :
    (fread countingStorage tenByteFile 0x5000 12 1 1).1 = 1 ∧
    completeItems (position tenByteFile 1).toNat (fileSize tenByteFile 1) 12 1 = 0 ∧
    (tenByteFile.kmem.mem 0x500A = 0 ∧
      (fread countingStorage tenByteFile 0x5000 12 1 1).2.kmem.mem 0x500A = 10) := by
  obtain ⟨p, -, hread⟩ := @tenByteFile_fread tenByteFile tenByteFile_open
    (streamed_refl tenByteFile_mounted.table tenByteFile_mounted.clusters) (by decide) rfl 12
    (by norm_num) (by norm_num) 0x5000
  change fread countingStorage tenByteFile 0x5000 12 1 1 = _ at hread
  rw [hread]
  refine ⟨rfl, by decide, by decide, ?_⟩
  change countingDisk.transfer 17920 12 tenByteFile.kmem.mem 0x5000 0x500A = 10
  decide

end AlphaOS.Fat16
