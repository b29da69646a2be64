import AlphaOS.Fat16Directory
import AlphaOS.Fat16Table

/-! The count of the items of a directory, and the root directory it is taken for. -/
namespace AlphaOS.Fat16
open CString Kheap Streamer WordMemory

variable {fuel : ℕ} {disk : Disk} {p p' : FatPrivate} {s s' : Kmem} {stream : DiskStream} {n : ℕ}

/-- The entries among the first `n` that are not deleted. -/
def liveCount (first : ℕ → Byte) (n : ℕ) : ℕ := Nat.count (fun k => first k ≠ 0xE5) n

lemma liveCount_le (first : ℕ → Byte) (n : ℕ) : liveCount first n ≤ n :=
  Nat.count_le _

lemma liveCount_succ' (first : ℕ → Byte) (n : ℕ) : liveCount first (n + 1) =
    liveCount (fun k => first (k + 1)) n + if first 0 = 0xE5 then 0 else 1 := by
  rw [liveCount, Nat.count_succ']
  simp only [liveCount, ite_not]

/-- The first bytes of the entries at a position of the disk. -/
def entryByte (disk : Disk) (pos : ℤ) (k : ℕ) : Byte := disk.byte (pos + sizeofDirectoryItem * k)

lemma entryByte_succ (disk : Disk) (pos : ℤ) (k : ℕ) :
    entryByte disk (pos + sizeofDirectoryItem) k = entryByte disk pos (k + 1) := by
  unfold entryByte
  congr 1
  push_cast
  ring

/-- One turn of the counting loop. -/
lemma totalItemsLoop_succ (hdisk : stream.disk = disk.addr) (hpos : 0 ≤ stream.pos)
    (hend : stream.pos + sizeofDirectoryItem < 2 ^ 31) (fuel : ℕ) (i : ℤ) :
    totalItemsLoop disk (fuel + 1) stream i =
      let stream' := { stream with pos := stream.pos + sizeofDirectoryItem }
      if entryByte disk stream.pos 0 = 0 then some (i, stream') else
      if entryByte disk stream.pos 0 = 0xE5 then totalItemsLoop disk fuel stream' i else
      totalItemsLoop disk fuel stream' (i + 1) := by
  obtain ⟨hres, hstream, hmem⟩ := diskstreamerRead_transfer sizeofDirectoryItem stream (fun _ => 0) 0
    hdisk hpos hend
  have hfirst : disk.transfer stream.pos sizeofDirectoryItem (fun _ => 0) 0 0 =
      entryByte disk stream.pos 0 := by
    simp [Disk.transfer, InRange, entryByte]
  rw [totalItemsLoop, hres, hstream, hmem, hfirst]
  simp

/-- The count stops at the first entry that starts with a zero. -/
lemma totalItemsLoop_terminator (hdisk : stream.disk = disk.addr) (hpos : 0 ≤ stream.pos)
    (hend : stream.pos + sizeofDirectoryItem * ((n + 1 : ℕ) : ℤ) < 2 ^ 31)
    (hbefore : ∀ k < n, entryByte disk stream.pos k ≠ 0) (hterm : entryByte disk stream.pos n = 0)
    (hfuel : n < fuel) (i : ℤ) : totalItemsLoop disk fuel stream i =
      some (i + liveCount (entryByte disk stream.pos) n,
        { stream with pos := stream.pos + sizeofDirectoryItem * ((n + 1 : ℕ) : ℤ) }) := by
  induction n generalizing stream i fuel with
  | zero =>
    obtain ⟨fuel, rfl⟩ : ∃ f, fuel = f + 1 := ⟨fuel - 1, by omega⟩
    rw [totalItemsLoop_succ hdisk hpos (by simpa using hend)]
    simp [hterm, liveCount]
  | succ n ih =>
    obtain ⟨fuel, rfl⟩ : ∃ f, fuel = f + 1 := ⟨fuel - 1, by omega⟩
    have hfirst := hbefore 0 (Nat.succ_pos n)
    unfold sizeofDirectoryItem at hend
    have hrest := fun i => @ih fuel { stream with pos := stream.pos + sizeofDirectoryItem } hdisk
      (by change 0 ≤ stream.pos + _; omega)
      (by change stream.pos + (32 : ℕ) + (32 : ℕ) * _ < _; omega)
      (fun k hk => by
        rw [entryByte_succ]
        exact hbefore (k + 1) (by omega))
      (by rwa [entryByte_succ]) (by omega) i
    have hend : stream.pos + (sizeofDirectoryItem : ℤ) + sizeofDirectoryItem * ((n + 1 : ℕ) : ℤ) =
        stream.pos + sizeofDirectoryItem * ((n + 1 + 1 : ℕ) : ℤ) := by
      push_cast
      ring
    have hcount : liveCount (entryByte disk stream.pos) (n + 1) =
        liveCount (entryByte disk (stream.pos + sizeofDirectoryItem)) n +
          if entryByte disk stream.pos 0 = 0xE5 then 0 else 1 := by
      rw [liveCount_succ', funext (entryByte_succ disk stream.pos)]
    rw [totalItemsLoop_succ hdisk hpos (by unfold sizeofDirectoryItem; omega), hcount]
    simp only [if_neg hfirst, hrest, hend]
    split_ifs
    · simp
    · push_cast
      congr 2
      ring

/-- Without such an entry it does not stop. -/
lemma totalItemsLoop_none (hdisk : stream.disk = disk.addr) (hpos : 0 ≤ stream.pos)
    (hend : stream.pos + sizeofDirectoryItem * (fuel : ℤ) < 2 ^ 31)
    (hall : ∀ k < fuel, entryByte disk stream.pos k ≠ 0) (i : ℤ) :
    totalItemsLoop disk fuel stream i = none := by
  induction fuel generalizing stream i with
  | zero => rfl
  | succ fuel ih =>
    unfold sizeofDirectoryItem at hend
    have hrest := fun i => @ih { stream with pos := stream.pos + sizeofDirectoryItem } hdisk
      (by change 0 ≤ stream.pos + _; omega)
      (by change stream.pos + (32 : ℕ) + (32 : ℕ) * _ < _; omega)
      (fun k hk => by
        rw [entryByte_succ]
        exact hall (k + 1) (by omega)) i
    rw [totalItemsLoop_succ hdisk hpos (by unfold sizeofDirectoryItem; omega)]
    simp only [if_neg (hall 0 (Nat.succ_pos fuel)), hrest, ite_self]

/-- The stream of the directories reads the disk. -/
def DirectoryOpen (disk : Disk) (p : FatPrivate) : Prop :=
  ∃ stream, p.directoryStream = some stream ∧ stream.disk = disk.addr

/-- The position a count starts at. -/
def countPos (directoryStartSector : Word) : ℤ := (directoryStartSector * 512).toInt

lemma fat16GetTotalItemsForDirectory_eq (hopen : DirectoryOpen disk p) (sector : Word) :
    ∃ stream : DiskStream, stream.disk = disk.addr ∧ stream.pos = countPos sector ∧
      fat16GetTotalItemsForDirectory fuel disk p sector =
        (totalItemsLoop disk fuel stream 0).map fun r =>
          (r.1, { p with directoryStream := some r.2 }) := by
  obtain ⟨stream, hstream, hdisk⟩ := hopen
  refine ⟨{ stream with pos := countPos sector }, hdisk, rfl, ?_⟩
  rw [fat16GetTotalItemsForDirectory, hstream]
  rfl

lemma fat16GetTotalItemsForDirectory_header {sector : Word} {total : ℤ × FatPrivate}
    (h : fat16GetTotalItemsForDirectory fuel disk p sector = some total) :
    total.2.header = p.header := by
  unfold fat16GetTotalItemsForDirectory at h
  obtain ⟨stream, -, hloop⟩ := Option.bind_eq_some_iff.1 h
  dsimp only at hloop
  split_ifs at hloop
  · cases hloop
    rfl
  · obtain ⟨r, -, rfl⟩ := Option.map_eq_some_iff.1 hloop
    rfl

/-- The count of a directory with a terminator. -/
lemma fat16GetTotalItemsForDirectory_terminator (hopen : DirectoryOpen disk p) {sector : Word}
    (hpos : 0 ≤ countPos sector)
    (hend : countPos sector + sizeofDirectoryItem * ((n + 1 : ℕ) : ℤ) < 2 ^ 31)
    (hbefore : ∀ k < n, entryByte disk (countPos sector) k ≠ 0)
    (hterm : entryByte disk (countPos sector) n = 0) (hfuel : n < fuel) :
    ∃ stream : DiskStream, stream.disk = disk.addr ∧
      fat16GetTotalItemsForDirectory fuel disk p sector =
        some ((liveCount (entryByte disk (countPos sector)) n : ℤ),
          { p with directoryStream := some stream }) := by
  obtain ⟨stream, hdisk, hstart, heq⟩ := @fat16GetTotalItemsForDirectory_eq fuel disk p hopen sector
  rw [← hstart] at hpos hend hbefore hterm ⊢
  refine ⟨{ stream with pos := stream.pos + sizeofDirectoryItem * ((n + 1 : ℕ) : ℤ) }, hdisk, ?_⟩
  rw [heq, totalItemsLoop_terminator hdisk hpos hend hbefore hterm hfuel]
  simp

/-! The root directory. -/

/-- A table of FAT16 has at most 65536 entries of two bytes. -/
def ValidHeader (header : FatHeader) : Prop := header.sectorsPerFat.toNat ≤ 256

instance (header : FatHeader) : Decidable (ValidHeader header) :=
  inferInstanceAs (Decidable (_ ≤ _))

/-- The position of the root directory. -/
def rootPos (header : FatHeader) : ℤ := rootDirSectorPos header * 512

/-- `root_dir_size`. -/
def rootDirSize (header : FatHeader) : ℕ := header.rootDirEntries.toNat * sizeofDirectoryItem

lemma ValidHeader.rootDirSectorPos_bounds {header : FatHeader} (h : ValidHeader header) :
    0 ≤ rootDirSectorPos header ∧ rootDirSectorPos header < 2 ^ 17 := by
  have hcopies := header.fatCopies.isLt
  have hreserved := header.reservedSectors.isLt
  have hprod : header.fatCopies.toNat * header.sectorsPerFat.toNat ≤ 255 * 256 :=
    Nat.mul_le_mul (by omega) h
  have hcast : rootDirSectorPos header =
      ((header.fatCopies.toNat * header.sectorsPerFat.toNat + header.reservedSectors.toNat : ℕ) : ℤ) := by
    unfold rootDirSectorPos
    push_cast
    rfl
  omega

lemma rootDirSize_lt (header : FatHeader) : rootDirSize header < 2 ^ 21 := by
  have hentries := header.rootDirEntries.isLt
  unfold rootDirSize sizeofDirectoryItem
  omega

/-- The count starts at the root directory. -/
lemma ValidHeader.countPos_eq {header : FatHeader} (h : ValidHeader header) :
    countPos (BitVec.ofInt 32 (rootDirSectorPos header)) = rootPos header := by
  have hbounds := h.rootDirSectorPos_bounds
  have hsize : (512 : Word).toInt = 512 := rfl
  rw [countPos, rootPos, BitVec.toInt_mul, BitVec.toInt_ofInt, hsize, Int.bmod_mul_bmod]
  rw [Int.bmod_eq_of_le] <;> omega

lemma ValidHeader.rootPos_nonneg {header : FatHeader} (h : ValidHeader header) :
    0 ≤ rootPos header := by
  have hbounds := h.rootDirSectorPos_bounds
  unfold rootPos
  omega

lemma ValidHeader.rootPos_lt {header : FatHeader} (h : ValidHeader header) :
    rootPos header < 2 ^ 26 := by
  have hbounds := h.rootDirSectorPos_bounds
  unfold rootPos
  omega

/-- The buffer and the record of a root directory with a count. -/
lemma readRootDirectory_eq (hopen : DirectoryOpen disk p) (hvalid : ValidHeader p.header)
    (directory : FatDirectory) (total : ℤ) {dir : Word} (hdir : dir ≠ 0) :
    ∃ (d : FatDirectory) (stream : DiskStream), readRootDirectory disk p s directory total dir =
      some (0, d, { p with directoryStream := some stream },
        s.withMem (disk.transfer (rootPos p.header) (rootDirSize p.header) s.mem dir)) ∧
      stream.disk = disk.addr ∧ d.item = dir ∧ d.total = total := by
  obtain ⟨stream, hstream, hdisk⟩ := hopen
  have hbound := rootDirSize_lt p.header
  have hlow := hvalid.rootPos_lt
  obtain ⟨hres, hmoved, hmem⟩ := diskstreamerRead_transfer (rootDirSize p.header)
    ⟨rootPos p.header, stream.disk⟩ s.mem dir hdisk hvalid.rootPos_nonneg
    (by change rootPos p.header + _ < _; omega)
  have hsize : (rootDirSize p.header : ℤ) =
      (p.header.rootDirEntries.toNat : ℤ) * (sizeofDirectoryItem : ℕ) := by
    unfold rootDirSize
    push_cast
    rfl
  have habsolute : fat16SectorToAbsolute disk (rootDirSectorPos p.header) = rootPos p.header := rfl
  rw [readRootDirectory, if_neg hdir, hstream, Option.map_some]
  simp only [diskstreamerSeek, habsolute, ne_eq, not_true_eq_false, if_false, ← hsize, hres, hmem]
  refine ⟨_, _, rfl, ?_, rfl, rfl⟩
  rw [hmoved]
  exact hdisk

/-- The count of `directory->total` ends within the entries of the root directory and is no more
than their number, and no name the lookup makes is read behind them. -/
def RootFits (disk : Disk) (p : FatPrivate) (s : Kmem) (directory : FatDirectory) : Prop :=
  let entries := p.header.rootDirEntries.toNat
  ∃ res d p' s', fat16GetRootDirectory entries disk p s directory = some (res, d, p', s') ∧
    (res = 0 → 0 ≤ d.total ∧ d.total ≤ entries ∧ ∀ i < d.total.toNat, ∀ fuel name,
      fat16GetFullRelativeFilename fuel (pointer s'.mem (d.entry i)) (fun _ => 0) maxPathLength =
        some name → ∀ j ∈ name.reads, 0 ≤ j ∧ sizeofDirectoryItem * i + j < sizeofDirectoryItem * entries)

/-- An entry of the buffer of a directory, byte by byte. -/
lemma pointer_entry (mem : Mem) (d : FatDirectory) (i j : ℕ) :
    pointer mem (d.entry i) j = mem (d.item + BitVec.ofNat 32 (sizeofDirectoryItem * i + j)) := by
  rw [pointer, FatDirectory.entry, BitVec.ofInt_natCast, BitVec.add_assoc, ← BitVec.ofNat_add]

lemma RootFits.terminator {directory : FatDirectory} (h : RootFits disk p s directory)
    (hopen : DirectoryOpen disk p) (hvalid : ValidHeader p.header) :
    ∃ n < p.header.rootDirEntries.toNat, entryByte disk (rootPos p.header) n = 0 := by
  have hpos := hvalid.rootPos_nonneg
  obtain ⟨res, d, p', s', heq, -⟩ := h
  by_contra hnone
  obtain ⟨total, htotal, -⟩ := Option.bind_eq_some_iff.1 heq
  obtain ⟨stream, hdisk, hstart, hloop⟩ := @fat16GetTotalItemsForDirectory_eq
    p.header.rootDirEntries.toNat disk p hopen (BitVec.ofInt 32 (rootDirSectorPos p.header))
  rw [hvalid.countPos_eq] at hstart
  have hend : rootPos p.header + sizeofDirectoryItem * (p.header.rootDirEntries.toNat : ℤ) < 2 ^ 31 := by
    have hlow := hvalid.rootPos_lt
    have hentries := p.header.rootDirEntries.isLt
    unfold sizeofDirectoryItem
    omega
  rw [← hstart] at hpos hend hnone
  rw [hloop, totalItemsLoop_none hdisk hpos hend fun k hk h0 => hnone ⟨k, hk, h0⟩] at htotal
  cases htotal

/-- The root directory fits exactly when one of its entries starts with a zero. -/
theorem rootFits_iff (hopen : DirectoryOpen disk p) (hvalid : ValidHeader p.header) (s : Kmem)
    (directory : FatDirectory) : RootFits disk p s directory ↔
      ∃ n < p.header.rootDirEntries.toNat, entryByte disk (rootPos p.header) n = 0 := by
  have hpos := hvalid.rootPos_nonneg
  have hcount := hvalid.countPos_eq
  constructor
  · exact fun h => h.terminator hopen hvalid
  · intro hzero
    -- the first such entry
    obtain ⟨n, ⟨hn, hterm⟩, hleast⟩ := Nat.findX hzero
    have hbefore : ∀ k < n, entryByte disk (rootPos p.header) k ≠ 0 :=
      fun k hk h0 => hleast k hk ⟨by omega, h0⟩
    have hend : rootPos p.header + sizeofDirectoryItem * ((n + 1 : ℕ) : ℤ) < 2 ^ 31 := by
      have hlow := hvalid.rootPos_lt
      have hentries := p.header.rootDirEntries.isLt
      unfold sizeofDirectoryItem
      omega
    rw [← hcount] at hpos hend hbefore hterm
    obtain ⟨stream, hdisk, htotal⟩ := fat16GetTotalItemsForDirectory_terminator hopen hpos hend
      hbefore hterm hn
    rw [hcount] at hterm htotal
    have hle := liveCount_le (entryByte disk (rootPos p.header)) n
    unfold RootFits fat16GetRootDirectory
    dsimp only
    rw [htotal, Option.bind_some]
    generalize hdir : kzalloc s (BitVec.ofNat 32 (p.header.rootDirEntries.toNat *
      sizeofDirectoryItem)) = dir
    by_cases hnull : dir.1 = 0
    · refine ⟨-enomem, directory, { p with directoryStream := some stream }, dir.2, ?_,
        fun h => absurd h (by decide)⟩
      rw [readRootDirectory, if_pos hnull]
    · obtain ⟨d, stream', hread, -, hitem, hd⟩ := @readRootDirectory_eq disk
        { p with directoryStream := some stream } dir.2 ⟨stream, rfl, hdisk⟩ hvalid directory
        (liveCount (entryByte disk (rootPos p.header)) n) dir.1 hnull
      refine ⟨0, d, _, _, hread, fun _ => ⟨by omega, by omega, fun i hi fuel name hname => ?_⟩⟩
      have hi' : i < n := by omega
      have hsize := rootDirSize_lt p.header
      have hstop : Stops (pointer (disk.transfer (rootPos p.header) (rootDirSize p.header) dir.2.mem
          dir.1) (d.entry i)) (sizeofDirectoryItem * (n - i) : ℕ) := by
        have hsum : sizeofDirectoryItem * i + sizeofDirectoryItem * (n - i) =
            sizeofDirectoryItem * n := by
          rw [← Nat.mul_add, Nat.add_sub_cancel' hi'.le]
        have hlt : sizeofDirectoryItem * n < rootDirSize p.header := by
          unfold rootDirSize sizeofDirectoryItem
          omega
        have hback : (dir.1 + BitVec.ofNat 32 (sizeofDirectoryItem * n) - dir.1).toNat =
            sizeofDirectoryItem * n := by
          rw [BitVec.add_comm, BitVec.add_sub_cancel, BitVec.toNat_ofNat]
          omega
        have hin : InRange dir.1 (rootDirSize p.header)
            (dir.1 + BitVec.ofNat 32 (sizeofDirectoryItem * n)) := by
          unfold InRange
          rwa [hback]
        refine .inl ?_
        rw [pointer_entry, hitem, hsum, Disk.transfer, if_pos hin, hback]
        rw [entryByte] at hterm
        push_cast at hterm ⊢
        exact hterm
      intro j hj
      have hbounds := fat16GetFullRelativeFilename_reads_le hname
        (by unfold sizeofDirectoryItem; omega) hstop j hj
      unfold sizeofDirectoryItem at hbounds ⊢
      omega

theorem rootFits_iff_empty :
    RootFits countingDisk bootPrivate (kheapInit (fun _ => 0) fun _ => 0) ⟨0, 0, 0, 0⟩ :=
  (rootFits_iff (⟨⟨0, 0x200000⟩, rfl, rfl⟩ : DirectoryOpen countingDisk bootPrivate)
    (show ValidHeader bootPrivate.header by decide) _ _).2 ⟨0, by decide, by decide⟩

/-- A disk whose root directory, at sectors 3 to 34, is full, as are the five sectors behind. -/
def fullRootDisk : Disk := ⟨0x200000, fun s _ => if s < 40 then 0x41 else 0⟩

lemma fullRootDisk_open : DirectoryOpen fullRootDisk bootPrivate := ⟨⟨0, 0x200000⟩, rfl, rfl⟩

lemma fullRootDisk_entryByte (k : ℕ) :
    entryByte fullRootDisk (rootPos bootPrivate.header) k = if k < 592 then 0x41 else 0 := by
  have hpos : rootPos bootPrivate.header = 1536 := rfl
  have hbyte : ∀ pos, fullRootDisk.byte pos = if pos / 512 < 40 then 0x41 else 0 := fun _ => rfl
  rw [entryByte, hpos, hbyte]
  unfold sizeofDirectoryItem
  by_cases hk : k < 592
  · rw [if_pos hk, if_pos (by omega)]
  · rw [if_neg hk, if_neg (by omega)]

/-- Of 512 entries, 592 are counted. -/
theorem rootFits_fullRoot :
    ¬ RootFits fullRootDisk bootPrivate (kheapInit (fun _ => 0) fun _ => 0) ⟨0, 0, 0, 0⟩ ∧
    (fat16GetTotalItemsForDirectory 600 fullRootDisk bootPrivate
      (BitVec.ofInt 32 (rootDirSectorPos bootPrivate.header))).map Prod.fst = some 592 := by
  have hvalid : ValidHeader bootPrivate.header := by decide
  constructor
  · intro h
    obtain ⟨n, hn, hzero⟩ := h.terminator fullRootDisk_open hvalid
    have hlt : n < 512 := hn
    rw [fullRootDisk_entryByte, if_pos (by omega)] at hzero
    exact absurd hzero (by decide)
  · have hcount := hvalid.countPos_eq
    obtain ⟨stream, -, heq⟩ := @fat16GetTotalItemsForDirectory_terminator 600 fullRootDisk bootPrivate
      592 fullRootDisk_open (BitVec.ofInt 32 (rootDirSectorPos bootPrivate.header))
      (by rw [hcount]; exact hvalid.rootPos_nonneg) (by rw [hcount]; decide)
      (fun k hk => by
        rw [hcount, fullRootDisk_entryByte, if_pos hk]
        decide)
      (by rw [hcount, fullRootDisk_entryByte, if_neg (by norm_num)]) (by norm_num)
    have hall : liveCount (entryByte fullRootDisk (rootPos bootPrivate.header)) 592 = 592 := by
      rw [liveCount, Nat.count_iff_forall]
      intro k hk
      rw [fullRootDisk_entryByte, if_pos hk]
      decide
    rw [heq, hcount, hall]
    rfl

end AlphaOS.Fat16
