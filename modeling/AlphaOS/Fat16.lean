import AlphaOS.DiskStream

/-! The cluster chains of `fs/fat/fat16.c`: the file allocation table, the walk along it, and
reads of the data clusters. A division by zero is `none`. -/
namespace AlphaOS.Fat16
open Streamer WordMemory

/-- The geometry in `struct fat_header`. -/
structure FatHeader where
  sectorsPerCluster : Byte
  reservedSectors : BitVec 16
  fatCopies : Byte
  rootDirEntries : BitVec 16
  sectorsPerFat : BitVec 16

/-- `struct fat_directory`. -/
structure FatDirectory where
  item : Word
  total : ℤ
  sectorPos : ℤ
  endingSectorPos : ℤ

/-- `struct fat_private`; a null stream is `none`. -/
structure FatPrivate where
  header : FatHeader
  rootDirectory : FatDirectory
  clusterReadStream : Option DiskStream
  fatReadStream : Option DiskStream
  directoryStream : Option DiskStream

abbrev fatEntrySize : ℤ := 0x02
abbrev badSector : ℤ := 0xFF7
abbrev fatUnused : ℤ := 0x00

variable (disk : Disk)

def fat16ClusterToSector (p : FatPrivate) (cluster : ℤ) : ℤ :=
  p.rootDirectory.endingSectorPos + (cluster - 2) * p.header.sectorsPerCluster.toNat

def fat16GetFirstFatSector (p : FatPrivate) : Word := p.header.reservedSectors.setWidth 32

/-- Where `fat16_get_fat_entry` seeks: the product is unsigned, the position an `int`. -/
def fatEntryPos (p : FatPrivate) (cluster : ℤ) : ℤ :=
  let fatTablePosition := fat16GetFirstFatSector p * BitVec.ofInt 32 disk.sectorSize
  (fatTablePosition * BitVec.ofInt 32 (cluster * fatEntrySize)).toInt

def fat16GetFatEntry (p : FatPrivate) (cluster : ℤ) : ℤ × FatPrivate :=
  match p.fatReadStream with
  | none => (-eio, p)
  | some stream =>
    let sought := diskstreamerSeek stream (fatEntryPos disk p cluster)
    if sought.1 < 0 then (sought.1, { p with fatReadStream := some sought.2 }) else
    -- `result` is a local variable, here at address 0 of a memory of its own
    let r := diskstreamerRead disk sought.2 (fun _ => 0) 0 2
    let p := { p with fatReadStream := some r.stream }
    if r.res < 0 then (r.res, p) else
    let result : BitVec 16 := r.mem 1 ++ r.mem 0
    (result.toNat, p)

/-- The walk along the table, with `k` clusters to go. Also the entries it has read. -/
def clusterLoop : ℕ → FatPrivate → ℤ → ℤ × List ℤ × FatPrivate
  | 0, p, clusterToUse => (clusterToUse, [], p)
  | k + 1, p, clusterToUse =>
    let entry := fat16GetFatEntry disk p clusterToUse
    if entry.1 = 0xFF8 ∨ entry.1 = 0xFFF then (-eio, [entry.1], entry.2) else
    if entry.1 = badSector then (-eio, [entry.1], entry.2) else
    if entry.1 = 0xFF0 ∨ entry.1 = 0xFF6 then (-eio, [entry.1], entry.2) else
    if entry.1 = fatUnused then (-eio, [entry.1], entry.2) else
    let rest := clusterLoop k entry.2 entry.1
    (rest.1, entry.1 :: rest.2.1, rest.2.2)

def sizeOfClusterBytes (p : FatPrivate) : ℤ := p.header.sectorsPerCluster.toNat * disk.sectorSize

def fat16GetClusterForOffet (p : FatPrivate) (startingCluster offset : ℤ) :
    Option (ℤ × List ℤ × FatPrivate) :=
  if sizeOfClusterBytes disk p = 0 then none else
  let clusterAhead := offset.tdiv (sizeOfClusterBytes disk p)
  some (clusterLoop disk clusterAhead.toNat p startingCluster)

/-- Where `fat16_read_internal_from_stream` seeks in a cluster. The position is an `int`; where it
does not fit, it wraps around. -/
def startingPos (p : FatPrivate) (cluster offsetFromCluster : ℤ) : ℤ :=
  (BitVec.ofInt 32 (fat16ClusterToSector p cluster) * BitVec.ofInt 32 disk.sectorSize +
    BitVec.ofInt 32 offsetFromCluster).toInt

/-- The result, the private data, the stream and memory. -/
def fat16ReadInternalFromStream (p : FatPrivate) (stream : DiskStream) (cluster offset total : ℤ)
    (mem : Mem) (out : Word) : Option (ℤ × FatPrivate × DiskStream × Mem) :=
  match fat16GetClusterForOffet disk p cluster offset with
  | none => none
  | some (clusterToUse, _, p') =>
    if clusterToUse < 0 then some (clusterToUse, p', stream, mem) else
    if sizeOfClusterBytes disk p = 0 then none else
    let offsetFromCluster := offset.tmod (sizeOfClusterBytes disk p)
    let totalToRead := if total > sizeOfClusterBytes disk p then sizeOfClusterBytes disk p else total
    let sought := diskstreamerSeek stream (startingPos disk p' clusterToUse offsetFromCluster)
    if sought.1 ≠ allOk then some (sought.1, p', sought.2, mem) else
    let r := diskstreamerRead disk sought.2 mem out totalToRead
    if r.res ≠ allOk then some (r.res, p', r.stream, r.mem) else
    if total - totalToRead > 0 then
      fat16ReadInternalFromStream p' r.stream cluster (offset + totalToRead) (total - totalToRead)
        r.mem (out + BitVec.ofInt 32 totalToRead)
    else some (r.res, p', r.stream, r.mem)
termination_by total.toNat
decreasing_by
  have hsize : 0 ≤ sizeOfClusterBytes disk p := by
    unfold sizeOfClusterBytes Disk.sectorSize
    omega
  grind

def fat16ReadInternal (p : FatPrivate) (startingCluster offset total : ℤ) (mem : Mem) (out : Word) :
    Option (ℤ × FatPrivate × Mem) :=
  match p.clusterReadStream with
  | none => none
  | some stream =>
    match fat16ReadInternalFromStream disk p stream startingCluster offset total mem out with
    | none => none
    | some (res, p', stream', mem') => some (res, { p' with clusterReadStream := some stream' }, mem')

end AlphaOS.Fat16
