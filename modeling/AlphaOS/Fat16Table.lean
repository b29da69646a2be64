import AlphaOS.Fat16

/-! The file allocation table as `fat16_get_fat_entry` reads it, and the walk along a chain. -/
namespace AlphaOS.Fat16
open Streamer WordMemory

variable {disk : Disk} {p : FatPrivate} {stream : DiskStream}

/-- The little-endian 16-bit value at a position of the disk. -/
def diskWord (disk : Disk) (pos : ℤ) : ℤ := (disk.byte (pos + 1) ++ disk.byte pos : BitVec 16).toNat

/-- The stream of the table reads the disk. -/
def TableOpen (disk : Disk) (p : FatPrivate) : Prop :=
  ∃ stream, p.fatReadStream = some stream ∧ stream.disk = disk.addr

/-- The start of the table and the offset in it are multiplied. -/
lemma fatEntryPos_eq (disk : Disk) (p : FatPrivate) (cluster : ℤ) :
    fatEntryPos disk p cluster =
      ((p.header.reservedSectors.toNat : ℤ) * 512 * (2 * cluster)).bmod (2 ^ 32) := by
  have hsector : (fat16GetFirstFatSector p).toInt = p.header.reservedSectors.toNat := by
    have hlt := p.header.reservedSectors.isLt
    rw [fat16GetFirstFatSector, BitVec.toInt_eq_toNat_of_lt] <;> rw [BitVec.toNat_setWidth] <;> omega
  have hsize : (BitVec.ofInt 32 disk.sectorSize).toInt = 512 := rfl
  simp only [fatEntryPos, BitVec.toInt_mul, BitVec.toInt_ofInt, hsector, hsize]
  rw [Int.bmod_mul_bmod, Int.mul_bmod_bmod, Int.mul_comm cluster]

lemma fatEntryPos_emod (disk : Disk) (p : FatPrivate) (cluster : ℤ) :
    fatEntryPos disk p cluster % 512 = 0 := by
  rw [fatEntryPos_eq]
  generalize (p.header.reservedSectors.toNat : ℤ) = r
  have hmod : ((r * 512 * (2 * cluster)).bmod (2 ^ 32)) % (2 ^ 32 : ℕ) =
      (r * 512 * (2 * cluster)) % (2 ^ 32 : ℕ) := Int.bmod_emod
  have hdvd : r * 512 * (2 * cluster) = 512 * (r * (2 * cluster)) := by ring
  generalize r * (2 * cluster) = t at hdvd
  rw [hdvd] at hmod ⊢
  omega

/-- `fat16_get_fat_entry` reads the first two bytes of the sector it seeks. -/
lemma fat16GetFatEntry_eq (hstream : p.fatReadStream = some stream)
    (hdisk : stream.disk = disk.addr) (cluster : ℤ) :
    fat16GetFatEntry disk p cluster = (diskWord disk (fatEntryPos disk p cluster),
      { p with fatReadStream := some (DiskStream.moved ⟨fatEntryPos disk p cluster, stream.disk⟩ 2) }) := by
  have hmod := fatEntryPos_emod disk p cluster
  have hword : ∀ pos, diskWord disk pos = (disk.byte (pos + 1) ++ disk.byte pos : BitVec 16).toNat :=
    fun _ => rfl
  simp only [fat16GetFatEntry, hstream, hword]
  generalize fatEntryPos disk p cluster = pos at hmod ⊢
  have hdvd : (512 : ℤ) ∣ pos := Int.dvd_of_emod_eq_zero hmod
  have htmod : pos.tmod 512 = 0 := Int.tmod_eq_zero_of_dvd hdvd
  have htdiv : pos.tdiv 512 = pos / 512 := (Int.tdiv_eq_ediv_of_dvd hdvd)
  have hread : diskstreamerRead disk (diskstreamerSeek stream pos).2 (fun _ => 0) 0 2 =
      ⟨0, DiskStream.moved ⟨pos, stream.disk⟩ 2,
        copyLoop (disk.sector (pos / 512)) 0 2 0 (fun _ => 0) 0, [pos / 512]⟩ := by
    rw [diskstreamerRead_eq (by exact hdisk)]
    simp [diskstreamerSeek, htmod, htdiv]
  have hlow : disk.byte pos = disk.sector (pos / 512) 0 := by rw [Disk.byte, hmod]
  have hhigh : disk.byte (pos + 1) = disk.sector (pos / 512) 1 := by
    have hdiv : (pos + 1) / 512 = pos / 512 := by omega
    have hone : (pos + 1) % 512 = 1 := by omega
    rw [Disk.byte, hdiv, hone]
  rw [hread, hlow, hhigh]
  rfl

lemma diskWord_eq_iff {a b : ℤ} : diskWord disk a = diskWord disk b ↔
    disk.byte a = disk.byte b ∧ disk.byte (a + 1) = disk.byte (b + 1) := by
  have hword : ∀ pos, diskWord disk pos =
      ((disk.byte (pos + 1)).toNat * 256 + (disk.byte pos).toNat : ℕ) := by
    intro pos
    have hlt := (disk.byte pos).isLt
    rw [diskWord, BitVec.toNat_append, ← Nat.shiftLeft_add_eq_or_of_lt hlt, Nat.shiftLeft_eq]
  rw [hword, hword]
  constructor
  · intro h
    have ha := (disk.byte a).isLt
    have hb := (disk.byte b).isLt
    exact ⟨BitVec.eq_of_toNat_eq (by omega), BitVec.eq_of_toNat_eq (by omega)⟩
  · rintro ⟨hlow, hhigh⟩
    rw [hlow, hhigh]

/-- `fat16_get_fat_entry` gives entry `cluster` of the table exactly when the two bytes where
it looks are those of the entry. -/
theorem fat16GetFatEntry_iff (hopen : TableOpen disk p) (cluster : ℤ) :
    let table : ℤ := p.header.reservedSectors.toNat * 512
    let sought := (table * (2 * cluster)).bmod (2 ^ 32)
    (fat16GetFatEntry disk p cluster).1 = diskWord disk (table + 2 * cluster) ↔
      disk.byte sought = disk.byte (table + 2 * cluster) ∧
      disk.byte (sought + 1) = disk.byte (table + 2 * cluster + 1) := by
  obtain ⟨stream, hstream, hdisk⟩ := hopen
  dsimp only
  rw [fat16GetFatEntry_eq hstream hdisk, fatEntryPos_eq, diskWord_eq_iff]

/-- The geometry of a boot sector: one reserved sector, clusters of one sector, two tables of
one sector, 512 entries in the root directory. -/
def bootByte (i : ℤ) : Byte :=
  if i = 13 then 1 else if i = 14 then 1 else if i = 16 then 2 else if i = 18 then 2
  else if i = 22 then 1 else if i = 38 then 0x29 else 0

/-- A disk whose table has entry 2 with the value 3, and no other entry. -/
def oneEntryDisk : Disk :=
  ⟨0x200000, fun s i => if s = 0 then bootByte i else if s = 1 ∧ i = 4 then 3 else 0⟩

/-- The private data of the disks with that boot sector. -/
def bootPrivate : FatPrivate where
  header := ⟨1, 1, 2, 512, 1⟩
  rootDirectory := ⟨0, 0, 3, 35⟩
  clusterReadStream := some ⟨0, 0x200000⟩
  fatReadStream := some ⟨0, 0x200000⟩
  directoryStream := some ⟨0, 0x200000⟩

lemma bootPrivate_open : TableOpen oneEntryDisk bootPrivate := ⟨⟨0, 0x200000⟩, rfl, rfl⟩

theorem fat16GetFatEntry_iff_oneEntry :
    (fat16GetFatEntry oneEntryDisk bootPrivate 3).1 = diskWord oneEntryDisk 518 :=
  (fat16GetFatEntry_iff bootPrivate_open 3).2 (by decide)

/-- Entry 2 of the table is 3, and `fat16_get_fat_entry` reads 0 for it, at position 2048. -/
theorem fat16GetFatEntry_misses :
    diskWord oneEntryDisk (bootPrivate.header.reservedSectors.toNat * 512 + 2 * 2) = 3 ∧
    (fat16GetFatEntry oneEntryDisk bootPrivate 2).1 = 0 := by
  obtain ⟨stream, hstream, hdisk⟩ := bootPrivate_open
  rw [fat16GetFatEntry_eq hstream hdisk]
  change _ ∧ diskWord oneEntryDisk (fatEntryPos oneEntryDisk bootPrivate 2) = 0
  decide

/-! The walk. -/

/-- The entry `fat16_get_fat_entry` gives for a cluster. -/
def next (disk : Disk) (p : FatPrivate) (cluster : ℤ) : ℤ := (fat16GetFatEntry disk p cluster).1

/-- Nothing but the position of the table's stream has changed. -/
def Moved (disk : Disk) (p p' : FatPrivate) : Prop :=
  ∃ stream : DiskStream, stream.disk = disk.addr ∧ p' = { p with fatReadStream := some stream }

variable {p' : FatPrivate}

lemma TableOpen.refl (h : TableOpen disk p) : Moved disk p p := by
  obtain ⟨stream, hstream, hdisk⟩ := h
  exact ⟨stream, hdisk, by rw [← hstream]⟩

lemma Moved.trans {p'' : FatPrivate} (h : Moved disk p p') (h' : Moved disk p' p'') :
    Moved disk p p'' := by
  obtain ⟨_, _, hp⟩ := h
  obtain ⟨stream, hdisk, hp'⟩ := h'
  exact ⟨stream, hdisk, by rw [hp', hp]⟩

lemma Moved.cancel {p'' : FatPrivate} (h : Moved disk p p') (h' : Moved disk p p'') :
    Moved disk p' p'' := by
  obtain ⟨_, _, hp⟩ := h
  obtain ⟨stream, hdisk, hp'⟩ := h'
  exact ⟨stream, hdisk, by rw [hp', hp]⟩

lemma Moved.isOpen (h : Moved disk p p') : TableOpen disk p' := by
  obtain ⟨stream, hdisk, rfl⟩ := h
  exact ⟨stream, rfl, hdisk⟩

lemma TableOpen.moved (h : TableOpen disk p) (cluster : ℤ) :
    Moved disk p (fat16GetFatEntry disk p cluster).2 := by
  obtain ⟨stream, hstream, hdisk⟩ := h
  rw [fat16GetFatEntry_eq hstream hdisk]
  exact ⟨DiskStream.moved ⟨fatEntryPos disk p cluster, stream.disk⟩ 2, hdisk, rfl⟩

lemma TableOpen.next_eq (h : TableOpen disk p) (cluster : ℤ) :
    next disk p cluster = diskWord disk (fatEntryPos disk p cluster) := by
  obtain ⟨stream, hstream, hdisk⟩ := h
  rw [next, fat16GetFatEntry_eq hstream hdisk]

lemma TableOpen.next_nonneg (h : TableOpen disk p) (cluster : ℤ) : 0 ≤ next disk p cluster := by
  rw [h.next_eq]
  exact Int.natCast_nonneg _

/-- The table's entries do not depend on where its stream stands. -/
lemma Moved.next_eq (h : Moved disk p p') (hopen : TableOpen disk p) :
    next disk p' = next disk p := by
  funext cluster
  rw [h.isOpen.next_eq, hopen.next_eq]
  obtain ⟨-, -, rfl⟩ := h
  rfl

/-- The 16-bit marks of FAT16: free, reserved, bad and end of chain. -/
def Marked (entry : ℤ) : Prop := entry = 0 ∨ 0xFFF0 ≤ entry ∧ entry ≤ 0xFFFF

def EndOfChain (entry : ℤ) : Prop := 0xFFF8 ≤ entry ∧ entry ≤ 0xFFFF

/-- The entries the walk refuses. -/
def Refused (entry : ℤ) : Prop :=
  entry = 0xFF8 ∨ entry = 0xFFF ∨ entry = 0xFF7 ∨ entry = 0xFF0 ∨ entry = 0xFF6 ∨ entry = 0

instance (entry : ℤ) : Decidable (Marked entry) := inferInstanceAs (Decidable (_ ∨ _))
instance (entry : ℤ) : Decidable (EndOfChain entry) := inferInstanceAs (Decidable (_ ∧ _))
instance (entry : ℤ) : Decidable (Refused entry) := inferInstanceAs (Decidable (_ ∨ _))

/-- The first `k` entries of the chain from a cluster on. -/
def entries (disk : Disk) (p : FatPrivate) (cluster : ℤ) (k : ℕ) : List ℤ :=
  List.iterate (next disk p) (next disk p cluster) k

lemma mem_entries {cluster entry : ℤ} {k : ℕ} :
    entry ∈ entries disk p cluster k ↔ ∃ i < k, entry = (next disk p)^[i + 1] cluster := by
  rw [entries, List.mem_iterate]
  rfl

/-- One step of the walk. -/
lemma clusterLoop_succ (k : ℕ) (cluster : ℤ) : clusterLoop disk (k + 1) p cluster =
    if Refused (next disk p cluster) then
      (-eio, [next disk p cluster], (fat16GetFatEntry disk p cluster).2)
    else
      let rest := clusterLoop disk k (fat16GetFatEntry disk p cluster).2 (next disk p cluster)
      (rest.1, next disk p cluster :: rest.2.1, rest.2.2) := by
  rw [clusterLoop, next]
  generalize fat16GetFatEntry disk p cluster = entry
  by_cases hlast : entry.1 = 0xFF8 ∨ entry.1 = 0xFFF
  · rw [if_pos hlast, if_pos (by unfold Refused; omega)]
  · rw [if_neg hlast]
    by_cases hbad : entry.1 = 0xFF7
    · rw [if_pos hbad, if_pos (by unfold Refused; omega)]
    · rw [if_neg hbad]
      by_cases hreserved : entry.1 = 0xFF0 ∨ entry.1 = 0xFF6
      · rw [if_pos hreserved, if_pos (by unfold Refused; omega)]
      · rw [if_neg hreserved]
        by_cases hfree : entry.1 = 0x00
        · rw [if_pos hfree, if_pos (by unfold Refused; omega)]
        · rw [if_neg hfree, if_neg (by unfold Refused; omega)]

/-- The walk moves nothing but the table's stream. -/
lemma clusterLoop_moved (hopen : TableOpen disk p) (k : ℕ) (cluster : ℤ) :
    Moved disk p (clusterLoop disk k p cluster).2.2 := by
  induction k generalizing p cluster with
  | zero => exact hopen.refl
  | succ k ih =>
    have hstep := hopen.moved cluster
    rw [clusterLoop_succ]
    by_cases href : Refused (next disk p cluster)
    · rw [if_pos href]
      exact hstep
    · rw [if_neg href]
      exact hstep.trans (ih hstep.isOpen (next disk p cluster))

/-- Where the walk gets does not depend on where the table's stream stands. -/
lemma Moved.clusterLoop_eq (h : Moved disk p p') (hopen : TableOpen disk p) (k : ℕ) (cluster : ℤ) :
    (clusterLoop disk k p' cluster).1 = (clusterLoop disk k p cluster).1 := by
  induction k generalizing p p' cluster with
  | zero => rfl
  | succ k ih =>
    rw [clusterLoop_succ, clusterLoop_succ, h.next_eq hopen]
    by_cases href : Refused (next disk p cluster)
    · rw [if_pos href, if_pos href]
    · rw [if_neg href, if_neg href]
      have hstep := hopen.moved cluster
      exact ih (hstep.cancel (h.trans (h.isOpen.moved cluster))) hstep.isOpen _

/-- Without a refusal the walk gets to the cluster `k` entries on. -/
lemma clusterLoop_reaches (hopen : TableOpen disk p) (k : ℕ) (cluster : ℤ)
    (hnone : ∀ i < k, ¬ Refused ((next disk p)^[i + 1] cluster)) :
    (clusterLoop disk k p cluster).1 = (next disk p)^[k] cluster ∧
    (clusterLoop disk k p cluster).2.1 = entries disk p cluster k := by
  induction k generalizing p cluster with
  | zero => exact ⟨rfl, rfl⟩
  | succ k ih =>
    have hstep := hopen.moved cluster
    have hnext := hstep.next_eq hopen
    have hfirst : ¬ Refused (next disk p cluster) := hnone 0 (by omega)
    obtain ⟨hreach, hread⟩ := ih hstep.isOpen (next disk p cluster) (by
      intro i hi
      rw [hnext]
      exact hnone (i + 1) (by omega))
    rw [clusterLoop_succ, if_neg hfirst]
    refine ⟨?_, ?_⟩
    · simp only [hreach, hnext, Function.iterate_succ_apply]
    · simp only [hread, entries, hnext, List.iterate]

/-- The walk ends at the first refusal. -/
lemma clusterLoop_refuses (hopen : TableOpen disk p) (k j : ℕ) (cluster : ℤ) (hj : j < k)
    (hbefore : ∀ i < j, ¬ Refused ((next disk p)^[i + 1] cluster))
    (href : Refused ((next disk p)^[j + 1] cluster)) :
    (clusterLoop disk k p cluster).1 = -eio ∧
    (clusterLoop disk k p cluster).2.1 = entries disk p cluster (j + 1) := by
  induction j generalizing p cluster k with
  | zero =>
    obtain ⟨k, rfl⟩ := Nat.exists_eq_add_of_lt hj
    have hfirst : Refused (next disk p cluster) := href
    rw [Nat.zero_add, clusterLoop_succ, if_pos hfirst]
    exact ⟨rfl, rfl⟩
  | succ j ih =>
    obtain ⟨k, rfl⟩ := Nat.exists_eq_succ_of_ne_zero (show k ≠ 0 by omega)
    have hstep := hopen.moved cluster
    have hnext := hstep.next_eq hopen
    have hfirst : ¬ Refused (next disk p cluster) := hbefore 0 (by omega)
    obtain ⟨hres, hread⟩ := ih hstep.isOpen k (next disk p cluster) (by omega) (by
      intro i hi
      rw [hnext]
      exact hbefore (i + 1) (by omega)) (by
      rw [hnext]
      exact href)
    rw [clusterLoop_succ, if_neg hfirst]
    refine ⟨hres, ?_⟩
    simp only [hread, entries, hnext, List.iterate]

/-- The last of the entries read. -/
lemma entries_last (cluster : ℤ) (k : ℕ) : entries disk p cluster (k + 1) =
    entries disk p cluster k ++ [(next disk p)^[k + 1] cluster] := by
  rw [entries, List.iterate_add, entries]
  rfl

/-- What following the chain `k` entries on is to give, and which entries a walk may pass or
give up at. -/
structure FollowsChain (disk : Disk) (p : FatPrivate) (start : ℤ) (k : ℕ)
    (walk : ℤ × List ℤ × FatPrivate) : Prop where
  reached : (∀ i < k, ¬ Marked ((next disk p)^[i + 1] start)) → walk.1 = (next disk p)^[k] start
  refused : (∃ i < k, Marked ((next disk p)^[i + 1] start)) → walk.1 = -eio
  passes : ∀ entry ∈ walk.2.1.dropLast, ¬ EndOfChain entry
  keeps : walk.1 = -eio → ∀ entry ∈ walk.2.1.getLast?, Marked entry

/-- No entry is a mark or refused; or the first one refused is a free mark, and none before it
ends the chain. -/
def ChainReadable (disk : Disk) (p : FatPrivate) (start : ℤ) (k : ℕ) : Prop :=
  (∀ i < k, ¬ Marked ((next disk p)^[i + 1] start) ∧ ¬ Refused ((next disk p)^[i + 1] start)) ∨
  ∃ j < k, (next disk p)^[j + 1] start = 0 ∧
    ∀ i < j, ¬ Refused ((next disk p)^[i + 1] start) ∧ ¬ EndOfChain ((next disk p)^[i + 1] start)

lemma EndOfChain.marked {entry : ℤ} (h : EndOfChain entry) : Marked entry := by
  unfold EndOfChain at h
  unfold Marked
  omega

lemma Refused.eq_zero {entry : ℤ} (h : Refused entry) (hmark : Marked entry) : entry = 0 := by
  unfold Refused at h
  unfold Marked at hmark
  omega

lemma refused_zero : Refused 0 := by simp [Refused]

lemma marked_zero : Marked 0 := .inl rfl

/-- A walk without a refusal. -/
lemma followsChain_reaches (hopen : TableOpen disk p) (k : ℕ) (start : ℤ)
    (hnone : ∀ i < k, ¬ Refused ((next disk p)^[i + 1] start)) :
    FollowsChain disk p start k (clusterLoop disk k p start) ↔ ChainReadable disk p start k := by
  obtain ⟨hreach, hread⟩ := clusterLoop_reaches hopen k start hnone
  have hreadable : ChainReadable disk p start k ↔
      ∀ i < k, ¬ Marked ((next disk p)^[i + 1] start) := by
    constructor
    · intro h i hi
      rcases h with hall | ⟨j, hj, hzero, -⟩
      · exact (hall i hi).1
      · exact absurd (hzero ▸ refused_zero) (hnone j hj)
    · exact fun h => .inl fun i hi => ⟨h i hi, hnone i hi⟩
  have hnonneg : ∀ i, 0 < i → 0 ≤ (next disk p)^[i] start := by
    intro i hi
    obtain ⟨i, rfl⟩ := Nat.exists_eq_succ_of_ne_zero hi.ne'
    rw [Function.iterate_succ_apply']
    exact hopen.next_nonneg _
  rw [hreadable]
  constructor
  · intro h i hi hmark
    have hres := h.refused ⟨i, hi, hmark⟩
    have hpos := hnonneg k (by omega)
    rw [hreach] at hres
    have heio : (-eio : ℤ) = -1 := rfl
    omega
  · intro hall
    refine ⟨fun _ => hreach, fun ⟨i, hi, hmark⟩ => absurd hmark (hall i hi), ?_, ?_⟩
    · intro entry hentry hend
      rw [hread] at hentry
      obtain ⟨i, hi, rfl⟩ := mem_entries.1 (List.mem_of_mem_dropLast hentry)
      exact hall i hi hend.marked
    · intro hres entry hentry
      cases k with
      | zero => simp [hread, entries] at hentry
      | succ k =>
        have hpos := hnonneg (k + 1) (by omega)
        have heio : (-eio : ℤ) = -1 := rfl
        omega

/-- A walk that ends at its first refusal. -/
lemma followsChain_refuses (hopen : TableOpen disk p) (k j : ℕ) (start : ℤ) (hj : j < k)
    (hbefore : ∀ i < j, ¬ Refused ((next disk p)^[i + 1] start))
    (href : Refused ((next disk p)^[j + 1] start)) :
    FollowsChain disk p start k (clusterLoop disk k p start) ↔ ChainReadable disk p start k := by
  obtain ⟨hres, hread⟩ := clusterLoop_refuses hopen k j start hj hbefore href
  rw [entries_last] at hread
  constructor
  · intro h
    have hzero : (next disk p)^[j + 1] start = 0 := by
      refine href.eq_zero (h.keeps hres _ ?_)
      rw [hread, List.getLast?_concat]
      rfl
    refine .inr ⟨j, hj, hzero, fun i hi => ⟨hbefore i hi, fun hend => ?_⟩⟩
    refine h.passes _ ?_ hend
    rw [hread, List.dropLast_concat]
    exact mem_entries.2 ⟨i, hi, rfl⟩
  · intro h
    have hfirst : (next disk p)^[j + 1] start = 0 ∧
        ∀ i < j, ¬ EndOfChain ((next disk p)^[i + 1] start) := by
      rcases h with hall | ⟨j', hj', hzero, hrest⟩
      · exact absurd href (hall j hj).2
      · have hle : j ≤ j' := by
          by_contra hlt
          exact hbefore j' (by omega) (hzero ▸ refused_zero)
        have heq : j = j' := by
          by_contra hne
          exact (hrest j (by omega)).1 href
        subst heq
        exact ⟨hzero, fun i hi => (hrest i hi).2⟩
    obtain ⟨hzero, hends⟩ := hfirst
    refine ⟨fun hall => absurd (hzero ▸ marked_zero) (hall j hj), fun _ => hres, ?_, ?_⟩
    · intro entry hentry
      rw [hread, List.dropLast_concat] at hentry
      obtain ⟨i, hi, rfl⟩ := mem_entries.1 hentry
      exact hends i hi
    · intro _ entry hentry
      rw [hread, List.getLast?_concat, Option.mem_some_iff] at hentry
      rw [← hentry, hzero]
      exact marked_zero

/-- `fat16_get_cluster_for_offet` follows the chain exactly when what it refuses first is a free
entry, and nothing before ends the chain. -/
theorem fat16GetClusterForOffet_iff (hopen : TableOpen disk p)
    (hsize : p.header.sectorsPerCluster ≠ 0) (start : ℤ) {offset : ℤ} (hoffset : 0 ≤ offset) :
    let k := (offset / (p.header.sectorsPerCluster.toNat * 512)).toNat
    ∃ walk, fat16GetClusterForOffet disk p start offset = some walk ∧
      (FollowsChain disk p start k walk ↔ ChainReadable disk p start k) := by
  have hpos : p.header.sectorsPerCluster.toNat ≠ 0 := fun hz => hsize (BitVec.eq_of_toNat_eq hz)
  have hne : sizeOfClusterBytes disk p ≠ 0 := by
    unfold sizeOfClusterBytes Disk.sectorSize
    omega
  dsimp only
  rw [fat16GetClusterForOffet, if_neg hne, Int.tdiv_eq_ediv_of_nonneg hoffset]
  refine ⟨_, rfl, ?_⟩
  generalize hk : (offset / (p.header.sectorsPerCluster.toNat * 512)).toNat = k
  have hloop : (offset / sizeOfClusterBytes disk p).toNat = k := hk
  rw [hloop]
  by_cases hnone : ∀ i < k, ¬ Refused ((next disk p)^[i + 1] start)
  · exact followsChain_reaches hopen k start hnone
  · push Not at hnone
    obtain ⟨hlt, href⟩ := Nat.find_spec hnone
    refine followsChain_refuses hopen k (Nat.find hnone) start hlt (fun i hi hi' => ?_) href
    exact Nat.find_min hnone hi ⟨by omega, hi'⟩

/-- A disk from which `fat16_get_fat_entry` reads 0xFFF8 for cluster 2, 0xFF8 for cluster 3 and 5
for cluster 4. -/
def chainDisk : Disk where
  addr := 0x200000
  sector s i :=
    if s = 0 then bootByte i
    else if s = 4 then (if i = 0 then 0xF8 else 0xFF)
    else if s = 6 then (if i = 0 then 0xF8 else 0x0F)
    else if s = 8 ∧ i = 0 then 5
    else 0

lemma chainDisk_open : TableOpen chainDisk bootPrivate := ⟨⟨0, 0x200000⟩, rfl, rfl⟩

lemma chainDisk_next : next chainDisk bootPrivate 2 = 0xFFF8 ∧
    next chainDisk bootPrivate 3 = 0xFF8 ∧ next chainDisk bootPrivate 4 = 5 := by
  rw [chainDisk_open.next_eq, chainDisk_open.next_eq, chainDisk_open.next_eq]
  decide

theorem fat16GetClusterForOffet_iff_nextCluster :
    ∃ walk, fat16GetClusterForOffet chainDisk bootPrivate 4 512 = some walk ∧
      FollowsChain chainDisk bootPrivate 4 1 walk := by
  obtain ⟨walk, hwalk, hiff⟩ := fat16GetClusterForOffet_iff chainDisk_open
    (show bootPrivate.header.sectorsPerCluster ≠ 0 by decide) 4 (show (0 : ℤ) ≤ 512 by norm_num)
  refine ⟨walk, hwalk, hiff.2 (.inl fun i hi => ?_)⟩
  obtain rfl : i = 0 := by
    change i < 1 at hi
    omega
  change ¬ Marked (next chainDisk bootPrivate 4) ∧ ¬ Refused (next chainDisk bootPrivate 4)
  rw [chainDisk_next.2.2]
  decide

/-- The end of a chain is taken for a cluster, and cluster 0xFF8 for the end of a chain. -/
theorem fat16GetClusterForOffet_misreads :
    (∃ walk, fat16GetClusterForOffet chainDisk bootPrivate 2 512 = some walk ∧
      walk.1 = 0xFFF8 ∧ ¬ FollowsChain chainDisk bootPrivate 2 1 walk) ∧
    ∃ walk, fat16GetClusterForOffet chainDisk bootPrivate 3 512 = some walk ∧
      walk.1 = -eio ∧ ¬ FollowsChain chainDisk bootPrivate 3 1 walk := by
  obtain ⟨htwo, hthree, -⟩ := chainDisk_next
  have hwalk : ∀ start, fat16GetClusterForOffet chainDisk bootPrivate start 512 =
      some (clusterLoop chainDisk 1 bootPrivate start) := by
    intro start
    have hahead : ((512 : ℤ).tdiv (sizeOfClusterBytes chainDisk bootPrivate)).toNat = 1 := by decide
    rw [fat16GetClusterForOffet, if_neg (by decide)]
    simp only [hahead]
  refine ⟨⟨_, hwalk 2, ?_⟩, ⟨_, hwalk 3, ?_⟩⟩
  · have hfirst : ¬ Refused (next chainDisk bootPrivate 2) := by
      rw [htwo]
      decide
    obtain ⟨hreach, -⟩ := clusterLoop_reaches chainDisk_open 1 2 fun i hi => by
      obtain rfl : i = 0 := by omega
      exact hfirst
    have hcluster : (clusterLoop chainDisk 1 bootPrivate 2).1 = 0xFFF8 := hreach.trans htwo
    refine ⟨hcluster, fun h => ?_⟩
    have hres := h.refused ⟨0, one_pos, by
      change Marked (next chainDisk bootPrivate 2)
      rw [htwo]
      decide⟩
    rw [hcluster] at hres
    exact absurd hres (by decide)
  · have hfirst : Refused (next chainDisk bootPrivate 3) := by
      rw [hthree]
      decide
    obtain ⟨hres, -⟩ := clusterLoop_refuses chainDisk_open 1 0 3 one_pos (by omega) hfirst
    refine ⟨hres, fun h => ?_⟩
    have hreach := h.reached fun i hi => by
      obtain rfl : i = 0 := by omega
      change ¬ Marked (next chainDisk bootPrivate 3)
      rw [hthree]
      decide
    rw [hres] at hreach
    change -eio = next chainDisk bootPrivate 3 at hreach
    rw [hthree] at hreach
    exact absurd hreach (by decide)

end AlphaOS.Fat16
