import AlphaOS.PathParser
import AlphaOS.Task

/-! The file calls of `fs/file.c`. The descriptors are kept by address; the file systems are
whatever their function pointers do, with a state of their own. -/
namespace AlphaOS.Files
open CString Kheap PathParser Tasks WordMemory

inductive FileMode
  | read
  | write
  | append
  | invalid
  deriving DecidableEq

/-- The functions of a `struct filesystem`. They get the state of the file systems and memory. -/
structure Filesystem (σ : Type) where
  fsOpen : σ → Kmem → Word → Word → FileMode → Word × σ × Kmem
  fsRead : σ → Kmem → Word → Word → Word → Word → Word → ℤ × σ × Kmem
  fsSeek : σ → Kmem → Word → ℤ → Word → ℤ × σ × Kmem
  fsStat : σ → Kmem → Word → Word → Word → ℤ × σ × Kmem
  fsClose : σ → Kmem → Word → ℤ × σ × Kmem

structure FileDescriptor where
  index : ℤ
  filesystem : Word
  privateData : Word
  disk : Word

/-- A descriptor of zero bytes. -/
def zeroDescriptor : FileDescriptor := ⟨0, 0, 0, 0⟩

/-- The file systems by address and the disk of `disk.c`. -/
structure Storage (σ : Type) where
  filesystems : Word → Filesystem σ
  /-- The address of `disk`. -/
  disk : Word
  disk_ne : disk ≠ 0
  /-- `disk.filesystem`. -/
  filesystem : Word

structure FileState (σ : Type) where
  kmem : Kmem
  fs : σ
  fileDescriptors : Fin maxFiledescriptors → Word
  descriptors : Word → FileDescriptor

variable {σ : Type}

def FileState.withKmem (k : FileState σ) (s : Kmem) : FileState σ := { k with kmem := s }

/-- After a call of the file system. -/
def FileState.withFs (k : FileState σ) (r : σ × Kmem) : FileState σ := { k with fs := r.1, kmem := r.2 }

def FileState.setDescriptor (k : FileState σ) (desc : Word) (d : FileDescriptor) : FileState σ :=
  { k with descriptors := Function.update k.descriptors desc d }

/-- `fs_init`, as far as the descriptors are concerned. -/
def fsInit (k : FileState σ) : FileState σ := { k with fileDescriptors := fun _ => 0 }

/-- An index outside the table leaves the table as it is. -/
def clearDescriptor (fileDescriptors : Fin maxFiledescriptors → Word) (index : ℤ) :
    Fin maxFiledescriptors → Word :=
  fun i => if (i : ℤ) = index then 0 else fileDescriptors i

def fileFreeDescriptor (k : FileState σ) (desc : Word) : FileState σ :=
  let k := { k with
    fileDescriptors := clearDescriptor k.fileDescriptors ((k.descriptors desc).index - 1) }
  k.withKmem (kfree k.kmem desc)

/-- The first empty slot. -/
def emptySlot (fileDescriptors : Fin maxFiledescriptors → Word) : Option (Fin maxFiledescriptors) :=
  Fin.find? fun i => fileDescriptors i = 0

/-- `kzalloc` of a descriptor; there is no check for null. -/
def allocDescriptor (k : FileState σ) : Word × FileState σ :=
  let desc := kzalloc k.kmem 16
  let k := k.withKmem desc.2
  (desc.1, if desc.1 ≠ 0 then k.setDescriptor desc.1 zeroDescriptor else k)

/-- The result and the new descriptor. -/
def fileNewDescriptor (k : FileState σ) : ℤ × Word × FileState σ :=
  match emptySlot k.fileDescriptors with
  | none => (-enomem, 0, k)
  | some i =>
    let desc := allocDescriptor k
    let k := desc.2
    let k := k.setDescriptor desc.1 { k.descriptors desc.1 with index := i + 1 }
    (0, desc.1, { k with fileDescriptors := Function.update k.fileDescriptors i desc.1 })

def fileGetDescriptor (k : FileState σ) (fd : ℤ) : Word :=
  if h : fd ≤ 0 ∨ fd ≥ 512 then 0 else
  k.fileDescriptors ⟨(fd - 1).toNat, by
    change _ < 512
    omega⟩

/-- The string literals `"r"`, `"w"` and `"a"` are 114, 119 and 97. -/
def fileGetModeByString (str : ℤ → Byte) : FileMode :=
  if strncmp str (literal [114]) 1 = 0 then .read
  else if strncmp str (literal [119]) 1 = 0 then .write
  else if strncmp str (literal [97]) 1 = 0 then .append
  else .invalid

def diskGet (v : Storage σ) (index : ℤ) : Word := if index ≠ 0 then 0 else v.disk

/-- The end of `fopen`: a descriptor for the open file. -/
def fopenDescriptor (v : Storage σ) (k : FileState σ) (privateData disk : Word) : ℤ × Word × FileState σ :=
  let res := fileNewDescriptor k
  let desc := res.2.1
  let k := res.2.2
  if res.1 < 0 then res else
  let k := k.setDescriptor desc { k.descriptors desc with
    filesystem := v.filesystem
    privateData := privateData
    disk := disk }
  ((k.descriptors desc).index, desc, k)

/-- `fopen` up to the call of `open`: the result and the private data. -/
def fopenPrivate (v : Storage σ) (k : FileState σ) (rootPath modeStr : Word) :
    ℤ × Word × FileState σ :=
  if rootPath = 0 then (-einvarg, 0, k) else
  let first := read32 k.kmem.mem (rootPath + 4)
  if first = 0 then (-einvarg, 0, k) else
  let disk := diskGet v (read32 k.kmem.mem rootPath).toInt
  if disk = 0 then (-eio, 0, k) else
  if v.filesystem = 0 then (-eio, 0, k) else
  let mode := fileGetModeByString (pointer k.kmem.mem modeStr)
  if mode = .invalid then (-einvarg, 0, k) else
  let privateData := (v.filesystems v.filesystem).fsOpen k.fs k.kmem disk first mode
  let k := k.withFs privateData.2
  if isErr privateData.1 then (privateData.1.toInt, 0, k) else (0, privateData.1, k)

/-- `fopen` behind the path parser. -/
def fopenRoot (v : Storage σ) (k : FileState σ) (rootPath modeStr : Word) :
    ℤ × Word × FileState σ :=
  let disk := diskGet v (read32 k.kmem.mem rootPath).toInt
  let r := fopenPrivate v k rootPath modeStr
  if r.1 < 0 then (r.1, 0, r.2.2) else fopenDescriptor v r.2.2 r.2.1 disk

/-- The result before `out:`, and the descriptor `fopen` created. -/
def fopenResult (v : Storage σ) (fuel : ℕ) (k : FileState σ) (filename modeStr : Word) :
    Option (ℤ × Word × FileState σ) :=
  (pathparserParse fuel k.kmem filename).map fun r => fopenRoot v (k.withKmem r.2) r.1 modeStr

def fopen (v : Storage σ) (fuel : ℕ) (k : FileState σ) (filename modeStr : Word) :
    Option (ℤ × FileState σ) :=
  (fopenResult v fuel k filename modeStr).map fun r => (if r.1 < 0 then 0 else r.1, r.2.2)

def fstat (v : Storage σ) (k : FileState σ) (fd : ℤ) (stat : Word) : ℤ × FileState σ :=
  let desc := fileGetDescriptor k fd
  if desc = 0 then (-eio, k) else
  let d := k.descriptors desc
  let r := (v.filesystems d.filesystem).fsStat k.fs k.kmem d.disk d.privateData stat
  (r.1, k.withFs r.2)

def fclose (v : Storage σ) (k : FileState σ) (fd : ℤ) : ℤ × FileState σ :=
  let desc := fileGetDescriptor k fd
  if desc = 0 then (-eio, k) else
  let d := k.descriptors desc
  let r := (v.filesystems d.filesystem).fsClose k.fs k.kmem d.privateData
  let k := k.withFs r.2
  (r.1, if r.1 = allOk then fileFreeDescriptor k desc else k)

def fseek (v : Storage σ) (k : FileState σ) (fd offset : ℤ) (whence : Word) : ℤ × FileState σ :=
  let desc := fileGetDescriptor k fd
  if desc = 0 then (-eio, k) else
  let d := k.descriptors desc
  let r := (v.filesystems d.filesystem).fsSeek k.fs k.kmem d.privateData offset whence
  (r.1, k.withFs r.2)

def fread (v : Storage σ) (k : FileState σ) (ptr size nmemb : Word) (fd : ℤ) : ℤ × FileState σ :=
  if size = 0 ∨ nmemb = 0 ∨ fd < 1 then (-einvarg, k) else
  let desc := fileGetDescriptor k fd
  if desc = 0 then (-einvarg, k) else
  let d := k.descriptors desc
  let r := (v.filesystems d.filesystem).fsRead k.fs k.kmem d.disk d.privateData size nmemb ptr
  (r.1, k.withFs r.2)

end AlphaOS.Files
