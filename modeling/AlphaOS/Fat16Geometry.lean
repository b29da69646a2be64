import AlphaOS.Fat16Lookup

/-! Where the clusters of a volume lie, and which of their bytes the stream can stand at. -/
namespace AlphaOS.Fat16
open BlockHeap Kheap Paging Streamer WordMemory

variable {fuel : ℕ} {disk : Disk} {p p' : FatPrivate} {s s' : Kmem} {directory d : FatDirectory}

def FitsInt (x : ℤ) : Prop := -2 ^ 31 ≤ x ∧ x < 2 ^ 31

/-- The sectors of the root directory, the last one filled in part. -/
def rootSectors (header : FatHeader) : ℕ := (rootDirSize header + 511) / 512

lemma rootSectors_isLeast (header : FatHeader) :
    IsLeast {m : ℕ | 32 * header.rootDirEntries.toNat ≤ 512 * m} (rootSectors header) := by
  have hsize : rootDirSize header = 32 * header.rootDirEntries.toNat := Nat.mul_comm _ _
  rw [← hsize]
  unfold rootSectors
  constructor
  · simp only [Set.mem_ofPred_eq]
    omega
  · intro m hm
    simp only [Set.mem_ofPred_eq] at hm
    omega

/-- Whatever the geometry is, a root directory that was read ends behind its last entry. -/
lemma fat16GetRootDirectory_endingSectorPos
    (h : fat16GetRootDirectory fuel disk p s directory = some (0, d, p', s')) :
    d.endingSectorPos = rootDirSectorPos p.header + rootSectors p.header ∧ p'.header = p.header := by
  obtain ⟨total, hcount, hread⟩ := Option.bind_eq_some_iff.1 h
  have hheader := fat16GetTotalItemsForDirectory_header hcount
  have hsize : ((p.header.rootDirEntries.toNat : ℤ) * (sizeofDirectoryItem : ℕ)) =
      (rootDirSize p.header : ℕ) := by
    unfold rootDirSize
    push_cast
    rfl
  have hsectors : (if ((rootDirSize p.header : ℕ) : ℤ).tmod 512 ≠ 0
      then ((rootDirSize p.header : ℕ) : ℤ).tdiv 512 + 1
      else ((rootDirSize p.header : ℕ) : ℤ).tdiv 512) = rootSectors p.header := by
    rw [Int.tdiv_eq_ediv_of_nonneg (by omega), Int.tmod_eq_emod_of_nonneg (by omega)]
    unfold rootSectors
    split_ifs <;> omega
  generalize kzalloc s (BitVec.ofNat 32 (p.header.rootDirEntries.toNat * sizeofDirectoryItem)) = dir
    at hread
  unfold readRootDirectory at hread
  simp only [hheader, hsize, Disk.sectorSize, hsectors] at hread
  by_cases hnull : dir.1 = 0
  · rw [if_pos hnull] at hread
    cases hread
  · rw [if_neg hnull] at hread
    obtain ⟨stream, -, hend⟩ := Option.map_eq_some_iff.1 hread
    by_cases hfail : (diskstreamerRead disk
        (diskstreamerSeek stream (fat16SectorToAbsolute disk (rootDirSectorPos p.header))).2
        dir.2.mem dir.1 (rootDirSize p.header)).res ≠ allOk
    · simp only [if_pos hfail] at hend
      split_ifs at hend <;> cases hend
    · simp only [if_neg hfail] at hend
      split_ifs at hend
      · cases hend
      · cases hend
        exact ⟨rfl, rfl⟩

/-- The sectors of a cluster. -/
def clusterSectors (p : FatPrivate) (cluster : ℤ) : Set ℤ :=
  Set.Ico (fat16ClusterToSector p cluster)
    (fat16ClusterToSector p cluster + p.header.sectorsPerCluster.toNat)

/-- The `int`s on the way to `ending_sector_pos`. -/
def rootDirectoryInts (header : FatHeader) : List ℤ :=
  [header.fatCopies.toNat * header.sectorsPerFat.toNat, rootDirSectorPos header, rootDirSize header,
    (rootDirSize header : ℤ).tdiv 512, rootSectors header, rootDirSectorPos header + rootSectors header]

/-- The `int`s on the way to the sectors of a cluster. -/
def clusterInts (p : FatPrivate) (cluster : ℤ) : List ℤ :=
  [cluster - 2, (cluster - 2) * p.header.sectorsPerCluster.toNat, fat16ClusterToSector p cluster,
    fat16ClusterToSector p cluster + p.header.sectorsPerCluster.toNat]

lemma fatCopies_mul_lt (header : FatHeader) :
    header.fatCopies.toNat * header.sectorsPerFat.toNat ≤ 255 * 65535 := by
  have hcopies := header.fatCopies.isLt
  have hfat := header.sectorsPerFat.isLt
  exact Nat.mul_le_mul (by omega) (by omega)

lemma rootDirSectorPos_bounds (header : FatHeader) :
    0 ≤ rootDirSectorPos header ∧ rootDirSectorPos header ≤ 255 * 65535 + 65535 := by
  have hprod := fatCopies_mul_lt header
  have hreserved := header.reservedSectors.isLt
  have hcast : rootDirSectorPos header =
      ((header.fatCopies.toNat * header.sectorsPerFat.toNat + header.reservedSectors.toNat : ℕ) : ℤ) := by
    unfold rootDirSectorPos
    push_cast
    rfl
  omega

lemma rootSectors_le (header : FatHeader) : rootSectors header ≤ 4096 := by
  have hsize := rootDirSize_lt header
  unfold rootSectors
  omega

lemma rootDirectoryInts_fit (header : FatHeader) : ∀ x ∈ rootDirectoryInts header, FitsInt x := by
  have hprod := fatCopies_mul_lt header
  have hpos := rootDirSectorPos_bounds header
  have hsize := rootDirSize_lt header
  have hsectors := rootSectors_le header
  have hdiv : (rootDirSize header : ℤ).tdiv 512 = (rootDirSize header : ℤ) / 512 :=
    Int.tdiv_eq_ediv_of_nonneg (by omega)
  have hcast : (header.fatCopies.toNat : ℤ) * header.sectorsPerFat.toNat =
      ((header.fatCopies.toNat * header.sectorsPerFat.toNat : ℕ) : ℤ) := by
    push_cast
    rfl
  intro x hx
  simp only [rootDirectoryInts, hcast, hdiv, List.mem_cons, List.not_mem_nil, or_false] at hx
  unfold FitsInt
  omega

/-- Further on by a number of clusters is further on by their sectors. -/
lemma fat16ClusterToSector_add (p : FatPrivate) (cluster : ℤ) (n : ℕ) :
    fat16ClusterToSector p (cluster + n) =
      fat16ClusterToSector p cluster + n * p.header.sectorsPerCluster.toNat := by
  unfold fat16ClusterToSector
  ring

lemma clusterSectors_disjoint (p : FatPrivate) {c c' : ℤ} (hne : c ≠ c') :
    Disjoint (clusterSectors p c) (clusterSectors p c') := by
  wlog hlt : c < c' generalizing c c'
  · exact (this hne.symm (by omega)).symm
  · obtain ⟨n, hn⟩ := Int.eq_ofNat_of_zero_le (show 0 ≤ c' - (c + 1) by omega)
    obtain rfl : c' = c + (1 + n : ℕ) := by
      push_cast
      omega
    have hstep : (p.header.sectorsPerCluster.toNat : ℤ) ≤
        (1 + n : ℕ) * p.header.sectorsPerCluster.toNat := by
      have hpos : 0 ≤ (n : ℤ) * p.header.sectorsPerCluster.toNat := by positivity
      push_cast
      linarith
    rw [Set.disjoint_left]
    intro x hx hx'
    simp only [clusterSectors, Set.mem_Ico, fat16ClusterToSector_add] at hx hx'
    linarith [hx.2, hx'.1]

lemma clusterInts_fit {p : FatPrivate} {header : FatHeader} (hheader : p.header = header)
    (hending : p.rootDirectory.endingSectorPos = rootDirSectorPos header + rootSectors header) {c : ℤ}
    (hlow : 2 ≤ c) (hhigh : c ≤ 0xFFEF) : ∀ x ∈ clusterInts p c, FitsInt x := by
  subst hheader
  have hpos := rootDirSectorPos_bounds p.header
  have hsectors := rootSectors_le p.header
  have hspc := p.header.sectorsPerCluster.isLt
  obtain ⟨n, hn⟩ := Int.eq_ofNat_of_zero_le (show 0 ≤ c - 2 by omega)
  have hprod : n * p.header.sectorsPerCluster.toNat ≤ 0xFFED * 255 :=
    Nat.mul_le_mul (by omega) (by omega)
  have hcast : (c - 2) * (p.header.sectorsPerCluster.toNat : ℤ) =
      (n * p.header.sectorsPerCluster.toNat : ℕ) := by
    rw [hn]
    push_cast
    rfl
  intro x hx
  simp only [clusterInts, fat16ClusterToSector, hending, hcast, List.mem_cons, List.not_mem_nil,
    or_false] at hx
  unfold FitsInt
  omega

/-- The volume once its root directory is read. -/
def FatPrivate.withRoot (p : FatPrivate) (d : FatDirectory) : FatPrivate :=
  { p with rootDirectory := d }

/-- Clusters lie apart from each other, from the tables and from the root directory, and all
their numbers are `int`s. -/
theorem clusters_apart (h : fat16GetRootDirectory fuel disk p s directory = some (0, d, p', s')) :
    (∀ c c' : ℤ, 2 ≤ c → c ≤ 0xFFEF → 2 ≤ c' → c' ≤ 0xFFEF → c ≠ c' →
      Disjoint (clusterSectors (p'.withRoot d) c) (clusterSectors (p'.withRoot d) c') ∧
      d.endingSectorPos ≤ fat16ClusterToSector (p'.withRoot d) c ∧
      d.endingSectorPos ≤ fat16ClusterToSector (p'.withRoot d) c') ∧
    (∃ k : ℕ, IsLeast {m : ℕ | 32 * p.header.rootDirEntries.toNat ≤ 512 * m} k ∧
      d.endingSectorPos = p.header.reservedSectors.toNat +
        p.header.fatCopies.toNat * p.header.sectorsPerFat.toNat + k) ∧
    (∀ x ∈ rootDirectoryInts p.header, FitsInt x) ∧
    ∀ c : ℤ, 2 ≤ c → c ≤ 0xFFEF → ∀ x ∈ clusterInts (p'.withRoot d) c, FitsInt x := by
  obtain ⟨hending, hheader⟩ := fat16GetRootDirectory_endingSectorPos h
  have hbehind : ∀ c : ℤ, 2 ≤ c → d.endingSectorPos ≤ fat16ClusterToSector (p'.withRoot d) c := by
    intro c hc
    have hnonneg : 0 ≤ (c - 2) * ((p'.withRoot d).header.sectorsPerCluster.toNat : ℤ) :=
      Int.mul_nonneg (by omega) (by omega)
    change d.endingSectorPos ≤ d.endingSectorPos + _
    omega
  refine ⟨fun c c' hc _ hc' _ hne => ⟨clusterSectors_disjoint _ hne, hbehind c hc, hbehind c' hc'⟩,
    ⟨_, rootSectors_isLeast p.header, ?_⟩, rootDirectoryInts_fit p.header,
    fun c hlow hhigh => @clusterInts_fit (p'.withRoot d) _ hheader hending c hlow hhigh⟩
  rw [hending, rootDirSectorPos]
  ring

/-- The geometry of `boot.asm`. -/
def bootAsmPrivate : FatPrivate := { bootPrivate with header := ⟨0x80, 200, 2, 0x40, 0x100⟩ }

/-- A root directory without entries, at sector 712. -/
def emptyRoot : Content where
  entry i j := countingDisk.byte (364544 + (sizeofDirectoryItem * i + j))
  stop := 0
  before := by decide
  terminator := by decide
  counted i := countingDisk.byte (364544 + (sizeofDirectoryItem * i + 0))
  countStop := 0
  counted_before := by decide
  counted_terminator := by decide

lemma bootAsm_loads : ∃ d p' s', fat16GetRootDirectory 1 countingDisk bootAsmPrivate emptyKmem
    ⟨0, 0, 0, 0⟩ = some (0, d, p', s') := by
  have hfrontier : Frontier emptyKmem 0 :=
    ⟨fun _ hb => absurd hb (Nat.not_lt_zero _), fun _ _ hb => kheapInit_free _ _ hb⟩
  generalize hsize : BitVec.ofNat 32 (rootDirSize bootAsmPrivate.header) = size
  have hblocks : (heapBlocksFor size).toNat = 1 := by
    rw [heapBlocksFor_eq, ← hsize]
    rfl
  obtain ⟨hbuffer, -⟩ := @Frontier.kzalloc emptyKmem 0 hfrontier size (by omega) (by omega)
  have hne : (kzalloc emptyKmem size).1 ≠ 0 := by
    rw [hbuffer]
    exact blockAddr_ne_zero (by omega)
  obtain ⟨d, p', s', hload, -⟩ := @rootDirectory_loads 1 countingDisk emptyKmem emptyRoot
    bootAsmPrivate ⟨⟨0, 0x200000⟩, rfl, rfl⟩ (by decide) ⟨0, 0, 0, 0⟩ size hsize.symm hne
    (fun _ => rfl) (fun i j => by
      have hpos : rootPos bootAsmPrivate.header = 364544 := rfl
      rw [hpos]
      rfl) (by decide) (by decide)
  exact ⟨d, p', s', hload⟩

theorem clusters_apart_bootAsm : ∃ d p' s', fat16GetRootDirectory 1 countingDisk bootAsmPrivate
      emptyKmem ⟨0, 0, 0, 0⟩ = some (0, d, p', s') ∧
    Disjoint (clusterSectors (p'.withRoot d) 2) (clusterSectors (p'.withRoot d) 0xFFEF) := by
  obtain ⟨d, p', s', hload⟩ := bootAsm_loads
  exact ⟨d, p', s', hload, ((clusters_apart hload).1 2 0xFFEF (by decide) (by decide) (by decide)
    (by decide) (by decide)).1⟩

/-! The bytes of the clusters. -/

/-- The position for an offset in a cluster is exact and an `int`, and a read from it begins in the
sector and at the offset in the sector that it was made of. -/
structure SeeksExactly (disk : Disk) (p : FatPrivate) (cluster offset : ℤ) : Prop where
  exact : startingPos disk p cluster offset = 512 * fat16ClusterToSector p cluster + offset
  fits : FitsInt (512 * fat16ClusterToSector p cluster + offset)
  sector : ∀ stream mem out total, (diskstreamerRead disk
    (diskstreamerSeek stream (startingPos disk p cluster offset)).2 mem out total).sectors.head? =
      some (fat16ClusterToSector p cluster + offset / 512)
  offset : (startingPos disk p cluster offset).tmod 512 = offset % 512

/-- The stream reaches the bytes of a cluster that lie in the first 2 ^ 22 sectors. -/
theorem seeksExactly_iff (h : fat16GetRootDirectory fuel disk p s directory = some (0, d, p', s'))
    {c o : ℤ} (hc : 2 ≤ c) (ho : 0 ≤ o) : SeeksExactly disk (p'.withRoot d) c o ↔
      rootDirSectorPos p.header + rootSectors p.header + (c - 2) * p.header.sectorsPerCluster.toNat +
        o / 512 < 2 ^ 22 := by
  obtain ⟨hending, hheader⟩ := fat16GetRootDirectory_endingSectorPos h
  have hsector : fat16ClusterToSector (p'.withRoot d) c = rootDirSectorPos p.header +
      rootSectors p.header + (c - 2) * p.header.sectorsPerCluster.toNat := by
    rw [← hending, ← hheader]
    rfl
  have hnonneg : 0 ≤ fat16ClusterToSector (p'.withRoot d) c := by
    have hpos := rootDirSectorPos_bounds p.header
    have hahead : 0 ≤ (c - 2) * (p.header.sectorsPerCluster.toNat : ℤ) :=
      Int.mul_nonneg (by omega) (by omega)
    omega
  rw [← hsector]
  constructor
  · intro hexact
    have hfits := hexact.fits.2
    omega
  · intro hlow
    have hpos := @startingPos_of_bounds disk (p'.withRoot d) c o (by omega) (by omega)
    refine ⟨hpos, ⟨by omega, by omega⟩, fun stream mem out total => ?_, ?_⟩
    · rw [diskstreamerRead_head, hpos]
      change some ((512 * fat16ClusterToSector (p'.withRoot d) c + o).tdiv 512) = _
      rw [Int.tdiv_eq_ediv_of_nonneg (by omega)]
      congr 1
      omega
    · rw [hpos, Int.tmod_eq_emod_of_nonneg (by omega)]
      omega

theorem seeksExactly_iff_bootAsm : ∃ d p' s', fat16GetRootDirectory 1 countingDisk bootAsmPrivate
      emptyKmem ⟨0, 0, 0, 0⟩ = some (0, d, p', s') ∧
    SeeksExactly countingDisk (p'.withRoot d) 3 1000 := by
  obtain ⟨d, p', s', hload⟩ := bootAsm_loads
  exact ⟨d, p', s', hload, (seeksExactly_iff hload (by decide) (by decide)).2 (by decide)⟩

/-- Cluster 32765 of the disk of `boot.asm`, which has 0x773594 sectors. -/
theorem startingPos_negative : ∃ d p' s', fat16GetRootDirectory 1 countingDisk bootAsmPrivate
      emptyKmem ⟨0, 0, 0, 0⟩ = some (0, d, p', s') ∧
    (∀ lba ∈ clusterSectors (p'.withRoot d) 32765, lba < 0x773594) ∧
    startingPos countingDisk (p'.withRoot d) 32765 0 = -2147444736 ∧
    ¬ SeeksExactly countingDisk (p'.withRoot d) 32765 0 := by
  obtain ⟨d, p', s', hload⟩ := bootAsm_loads
  obtain ⟨hending, hheader⟩ := fat16GetRootDirectory_endingSectorPos hload
  have hspc : ((p'.withRoot d).header.sectorsPerCluster.toNat : ℤ) = 128 := by
    change (p'.header.sectorsPerCluster.toNat : ℤ) = 128
    rw [hheader]
    rfl
  have hfirst : rootDirSectorPos bootAsmPrivate.header + rootSectors bootAsmPrivate.header = 716 := rfl
  have hsector : fat16ClusterToSector (p'.withRoot d) 32765 = 4194380 := by
    change d.endingSectorPos + (32765 - 2) * ((p'.withRoot d).header.sectorsPerCluster.toNat : ℤ) = _
    rw [hending, hspc, hfirst]
    rfl
  refine ⟨d, p', s', hload, fun lba hlba => ?_, ?_, fun hexact => ?_⟩
  · have hlt := hlba.2
    rw [hsector, hspc] at hlt
    omega
  · rw [startingPos_eq, hsector]
    rfl
  · have hfits := hexact.fits.2
    rw [hsector] at hfits
    omega

end AlphaOS.Fat16
