import AlphaOS.Fat16
import AlphaOS.Fat16Entry
import AlphaOS.Kheap

/-! Directories and items of `fs/fat/fat16.c`. The entries of a directory are bytes of memory;
items, directories and descriptors are kept by address. What is done with them is recorded. A
scan of the disk or a copy that waits for a terminator has a bound. -/
namespace AlphaOS.Fat16
open CString Kheap Streamer WordMemory

inductive FatItemType
  | directory
  | file
  deriving DecidableEq

/-- `struct fat_item`: the pointer of the union and what it points to. -/
structure FatItem where
  item : Word
  type : FatItemType

structure FatFileDescriptor where
  item : Word
  pos : Word

/-- What happens to a block of memory. A use right behind the allocation is not recorded. -/
inductive Access
  | made (ptr : Word)
  | used (ptr : Word)
  | freed (ptr : Word)
  deriving DecidableEq

/-- `disk.fs_private` and the records it hands out. -/
structure FatState where
  fsPrivate : FatPrivate
  items : Word → FatItem
  directories : Word → FatDirectory
  descriptors : Word → FatFileDescriptor
  /-- The latest first. -/
  accesses : List Access

def FatState.log (k : FatState) (a : Access) : FatState := { k with accesses := a :: k.accesses }

def FatState.withPrivate (k : FatState) (p : FatPrivate) : FatState := { k with fsPrivate := p }

def FatState.setItem (k : FatState) (ptr : Word) (item : FatItem) : FatState :=
  { k with items := Function.update k.items ptr item }

def FatState.setDirectory (k : FatState) (ptr : Word) (directory : FatDirectory) : FatState :=
  { k with directories := Function.update k.directories ptr directory }

def FatState.setDescriptor (k : FatState) (ptr : Word) (d : FatFileDescriptor) : FatState :=
  { k with descriptors := Function.update k.descriptors ptr d }

variable (fuel : ℕ) (disk : Disk)

/-- The loop of `fat16_get_total_items_for_directory`: the result, with `i` items counted. The
entry is read into a local variable, here at address 0 of a memory of its own. -/
def totalItemsLoop : ℕ → DiskStream → ℤ → Option (ℤ × DiskStream)
  | 0, _, _ => none
  | fuel + 1, stream, i =>
    let r := diskstreamerRead disk stream (fun _ => 0) 0 sizeofDirectoryItem
    if r.res ≠ allOk then some (-eio, r.stream) else
    if r.mem 0 = 0x00 then some (i, r.stream) else
    if r.mem 0 = 0xE5 then totalItemsLoop fuel r.stream i else
    totalItemsLoop fuel r.stream (i + 1)

/-- The number of items, or an error. -/
def fat16GetTotalItemsForDirectory (p : FatPrivate) (directoryStartSector : Word) :
    Option (ℤ × FatPrivate) :=
  p.directoryStream.bind fun stream =>
    let directoryStartPos := (directoryStartSector * BitVec.ofInt 32 disk.sectorSize).toInt
    let sought := diskstreamerSeek stream directoryStartPos
    if sought.1 ≠ allOk then some (-eio, { p with directoryStream := some sought.2 }) else
    (totalItemsLoop disk fuel sought.2 0).map fun r => (r.1, { p with directoryStream := some r.2 })

def fat16SectorToAbsolute (sector : ℤ) : ℤ := sector * disk.sectorSize

def rootDirSectorPos (header : FatHeader) : ℤ :=
  header.fatCopies.toNat * header.sectorsPerFat.toNat + header.reservedSectors.toNat

/-- The end of `fat16_get_root_directory`, with the count and the buffer. -/
def readRootDirectory (p : FatPrivate) (s : Kmem) (directory : FatDirectory) (totalItems : ℤ)
    (dir : Word) : Option (ℤ × FatDirectory × FatPrivate × Kmem) :=
  let rootDirSize : ℤ := p.header.rootDirEntries.toNat * sizeofDirectoryItem
  let totalSectors := rootDirSize.tdiv disk.sectorSize
  let totalSectors := if rootDirSize.tmod disk.sectorSize ≠ 0 then totalSectors + 1 else totalSectors
  if dir = 0 then some (-enomem, directory, p, s) else
  p.directoryStream.map fun stream =>
    let sought := diskstreamerSeek stream (fat16SectorToAbsolute disk (rootDirSectorPos p.header))
    let p := { p with directoryStream := some sought.2 }
    if sought.1 ≠ allOk then (-eio, directory, p, kfree s dir) else
    let r := diskstreamerRead disk sought.2 s.mem dir rootDirSize
    let p := { p with directoryStream := some r.stream }
    let s := s.withMem r.mem
    if r.res ≠ allOk then (-eio, directory, p, kfree s dir) else
    (0, ⟨dir, totalItems, rootDirSectorPos p.header, rootDirSectorPos p.header + totalSectors⟩, p, s)

/-- The result, the directory and the state. -/
def fat16GetRootDirectory (p : FatPrivate) (s : Kmem) (directory : FatDirectory) :
    Option (ℤ × FatDirectory × FatPrivate × Kmem) :=
  (fat16GetTotalItemsForDirectory fuel disk p (BitVec.ofInt 32 (rootDirSectorPos p.header))).bind
    fun totalItems =>
      let dir := kzalloc s (BitVec.ofNat 32 (p.header.rootDirEntries.toNat * sizeofDirectoryItem))
      readRootDirectory disk totalItems.2 dir.2 directory totalItems.1 dir.1

/-- The new entry or null. -/
def fat16CloneDirectoryItem (k : FatState) (s : Kmem) (item : Word) (size : ℕ) :
    Word × FatState × Kmem :=
  if size < sizeofDirectoryItem then (0, k, s) else
  let newItem := kzalloc s (BitVec.ofNat 32 size)
  if newItem.1 = 0 then (0, k, newItem.2) else
  (newItem.1, k.log (.made newItem.1),
    newItem.2.withMem (memcpy newItem.2.mem newItem.1 item size))

def fat16FreeDirectory (k : FatState) (s : Kmem) (directory : Word) : FatState × Kmem :=
  if directory = 0 then (k, s) else
  let k := k.log (.used directory)
  let item := (k.directories directory).item
  let r := if item ≠ 0 then (k.log (.freed item), kfree s item) else (k, s)
  (r.1.log (.freed directory), kfree r.2 directory)

def fat16FatItemFree (k : FatState) (s : Kmem) (item : Word) : FatState × Kmem :=
  if item = 0 then (k, s) else
  let k := k.log (.used item)
  let r := match (k.items item).type with
    | .directory => fat16FreeDirectory k s (k.items item).item
    | .file => (k.log (.freed (k.items item).item), kfree s (k.items item).item)
  (r.1.log (.freed item), kfree r.2 item)

/-- `fat16_load_fat_directory` behind the count: the buffer and the clusters. -/
def readFatDirectory (k : FatState) (s : Kmem) (directory : Word) (cluster total : ℤ) :
    Option (Word × FatState × Kmem) :=
  let directorySize : Word := BitVec.ofInt 32 total * BitVec.ofNat 32 sizeofDirectoryItem
  let item := kzalloc s directorySize
  let k := k.setDirectory directory ⟨item.1, total, 0, 0⟩
  if item.1 = 0 then
    let r := fat16FreeDirectory k item.2 directory
    some (directory, r.1, r.2)
  else
    let k := k.log (.made item.1)
    (fat16ReadInternal disk k.fsPrivate cluster 0x00 directorySize.toInt item.2.mem item.1).map
      fun res =>
        let k := k.withPrivate res.2.1
        let s := item.2.withMem res.2.2
        if res.1 ≠ allOk then
          let r := fat16FreeDirectory k s directory
          (directory, r.1, r.2)
        else (directory, k, s)

/-- The directory, also after an error that freed it. -/
def fat16LoadFatDirectory (k : FatState) (s : Kmem) (item : Word) : Option (Word × FatState × Kmem) :=
  if FatDirectoryItem.attributes (pointer s.mem item) &&& fatFileSubdirectory = 0 then
    some (0, k, s)
  else
  let directory := kzalloc s 16
  if directory.1 = 0 then some (0, k, directory.2) else
  let k := k.log (.made directory.1)
  let cluster := (fat16GetFirstCluster (pointer directory.2.mem item)).toInt
  let clusterSector := fat16ClusterToSector k.fsPrivate cluster
  (fat16GetTotalItemsForDirectory fuel disk k.fsPrivate (BitVec.ofInt 32 clusterSector)).bind
    fun totalItems =>
      readFatDirectory disk (k.withPrivate totalItems.2) directory.2 directory.1 cluster totalItems.1

def fat16NewFatItemForDirectoryItem (k : FatState) (s : Kmem) (item : Word) :
    Option (Word × FatState × Kmem) :=
  let fItem := kzalloc s 8
  if fItem.1 = 0 then some (0, k, fItem.2) else
  let k := k.log (.made fItem.1)
  if FatDirectoryItem.attributes (pointer fItem.2.mem item) &&& fatFileSubdirectory ≠ 0 then
    (fat16LoadFatDirectory fuel disk k fItem.2 item).map fun directory =>
      (fItem.1, directory.2.1.setItem fItem.1 ⟨directory.1, .directory⟩, directory.2.2)
  else
    let clone := fat16CloneDirectoryItem k fItem.2 item sizeofDirectoryItem
    some (fItem.1, clone.2.1.setItem fItem.1 ⟨clone.1, .file⟩, clone.2.2)

/-- `&directory->item[i]`. -/
def FatDirectory.entry (directory : FatDirectory) (i : ℕ) : Word :=
  directory.item + BitVec.ofNat 32 (sizeofDirectoryItem * i)

/-- The name of an entry in a `tmp_filename` of its own, as `istrncmp` sees it. -/
def hasName (s : Kmem) (item : Word) (name : ℤ → Byte) : Option Bool :=
  (fat16GetFullRelativeFilename fuel (pointer s.mem item) (fun _ => 0) maxPathLength).map fun tmp =>
    istrncmp tmp.out name maxPathLength = 0

/-- The loop of `fat16_find_item_in_directory` with `n` entries left from index `i` on. -/
def findItemLoop (directory : FatDirectory) (name : ℤ → Byte) :
    ℕ → ℕ → FatState → Kmem → Word → Option (Word × FatState × Kmem)
  | 0, _, k, s, fItem => some (fItem, k, s)
  | n + 1, i, k, s, fItem =>
    (hasName fuel s (directory.entry i) name).bind fun found =>
      if found then
        (fat16NewFatItemForDirectoryItem fuel disk k s (directory.entry i)).bind fun r =>
          findItemLoop directory name n (i + 1) r.2.1 r.2.2 r.1
      else findItemLoop directory name n (i + 1) k s fItem

def fat16FindItemInDirectory (k : FatState) (s : Kmem) (directory : FatDirectory)
    (name : ℤ → Byte) : Option (Word × FatState × Kmem) :=
  findItemLoop fuel disk directory name directory.total.toNat 0 k s 0

/-- The loop of `fat16_get_directory_entry` over the parts that are left. -/
def directoryEntryLoop : List (ℤ → Byte) → FatState → Kmem → Word → Option (Word × FatState × Kmem)
  | [], k, s, currentItem => some (currentItem, k, s)
  | part :: path, k, s, currentItem =>
    let k := k.log (.used currentItem)
    if (k.items currentItem).type ≠ .directory then some (0, k, s) else
    let directory := (k.items currentItem).item
    let k := k.log (.used directory)
    (fat16FindItemInDirectory fuel disk k s (k.directories directory) part).bind fun tmpItem =>
      let r := fat16FatItemFree tmpItem.2.1 tmpItem.2.2 currentItem
      directoryEntryLoop path r.1 r.2 tmpItem.1

/-- The path is the texts of its parts; the walk does not write to them. -/
def fat16GetDirectoryEntry (k : FatState) (s : Kmem) (part : ℤ → Byte) (next : List (ℤ → Byte)) :
    Option (Word × FatState × Kmem) :=
  (fat16FindItemInDirectory fuel disk k s k.fsPrivate.rootDirectory part).bind fun rootItem =>
    if rootItem.1 = 0 then some (0, rootItem.2.1, rootItem.2.2) else
    directoryEntryLoop fuel disk next rootItem.2.1 rootItem.2.2 rootItem.1

end AlphaOS.Fat16
