import AlphaOS.Fat16Directory
import AlphaOS.File

/-! The file calls of `fs/fat/fat16.c`, and the table of them that `file.c` calls. -/
namespace AlphaOS.Fat16
open CString Files Kheap PathParser Streamer WordMemory

variable (fuel : ℕ) (disk : Disk)

/-- The texts of a list of path parts in memory. -/
def pathParts (mem : Mem) : ℕ → Word → Option (List (ℤ → Byte))
  | 0, _ => none
  | fuel + 1, part =>
    if part = 0 then some [] else
    (pathParts mem fuel (read32 mem (part + 4))).map fun rest =>
      pointer mem (read32 mem part) :: rest

/-- The descriptor, or the error as a pointer. -/
def fat16Open (k : FatState) (s : Kmem) (path : Word) (mode : FileMode) :
    Option (Word × FatState × Kmem) :=
  if mode ≠ .read then some (BitVec.ofInt 32 (-erdonly), k, s) else
  let descriptor := kzalloc s 8
  if descriptor.1 = 0 then some (BitVec.ofInt 32 (-enomem), k, descriptor.2) else
  (pathParts descriptor.2.mem fuel (read32 descriptor.2.mem (path + 4))).bind fun next =>
    (fat16GetDirectoryEntry fuel disk k descriptor.2
        (pointer descriptor.2.mem (read32 descriptor.2.mem path)) next).map fun item =>
      let k := item.2.1.setDescriptor descriptor.1 ⟨item.1, 0⟩
      if item.1 = 0 then (BitVec.ofInt 32 (-eio), k, kfree item.2.2 descriptor.1)
      else (descriptor.1, k, item.2.2)

def fat16Close (k : FatState) (s : Kmem) (descriptor : Word) : ℤ × FatState × Kmem :=
  if descriptor = 0 then (0, k, s) else
  let item := (k.descriptors descriptor).item
  let r := if item ≠ 0 then fat16FatItemFree k s item else (k, s)
  (0, r.1, kfree r.2 descriptor)

/-- `FILE_STAT_READ_ONLY`. -/
abbrev fileStatReadOnly : Word := 1

/-- The size of `struct file_stat` is stored behind its flags. -/
def fat16Stat (k : FatState) (s : Kmem) (descriptor stat : Word) : ℤ × FatState × Kmem :=
  let item := k.items (k.descriptors descriptor).item
  if item.type ≠ .file then (-einvarg, k, s) else
  let ritem : FatDirectoryItem := pointer s.mem item.item
  let mem := write32 s.mem (stat + 4) ritem.fileSize
  let mem := write32 mem stat 0
  let mem := if FatDirectoryItem.attributes (pointer mem item.item) &&& fatFileReadOnly ≠ 0 then
    write32 mem stat (read32 mem stat ||| fileStatReadOnly) else mem
  (0, k, s.withMem mem)

/-- The loop of `fat16_read` with `n` members left: its result so far, or the error. -/
def fat16ReadLoop (size item : Word) :
    ℕ → FatPrivate → Mem → Word → Word → Option (ℤ × FatPrivate × Mem)
  | 0, p, mem, _, _ => some (0, p, mem)
  | n + 1, p, mem, offset, out =>
    (fat16ReadInternal disk p (fat16GetFirstCluster (pointer mem item)).toInt offset.toInt size.toInt
        mem out).bind fun r =>
      if r.1 < 0 then some r else fat16ReadLoop size item n r.2.1 r.2.2 (offset + size) (out + size)

def fat16Read (k : FatState) (s : Kmem) (descriptor size nmemb out : Word) :
    Option (ℤ × FatState × Kmem) :=
  let fatDesc := k.descriptors descriptor
  (fat16ReadLoop disk size (k.items fatDesc.item).item nmemb.toNat k.fsPrivate s.mem fatDesc.pos
      out).map fun r =>
    (if r.1 < 0 then r.1 else nmemb.toInt, k.withPrivate r.2.1, s.withMem r.2.2)

abbrev seekSet : Word := 0
abbrev seekCur : Word := 1
abbrev seekEnd : Word := 2

def fat16Seek (k : FatState) (s : Kmem) (descriptor offset seekMode : Word) : ℤ × FatState × Kmem :=
  let desc := k.descriptors descriptor
  let descItem := k.items desc.item
  if descItem.type ≠ .file then (-einvarg, k, s) else
  if offset.toNat ≥ (FatDirectoryItem.fileSize (pointer s.mem descItem.item)).toNat then (-eio, k, s) else
  if seekMode = seekSet then (0, k.setDescriptor descriptor { desc with pos := offset }, s) else
  if seekMode = seekEnd then (-eunimp, k, s) else
  if seekMode = seekCur then
    (0, k.setDescriptor descriptor { desc with pos := desc.pos + offset }, s)
  else (-einvarg, k, s)

/-- `fat16_fs`. A call that runs into its bound or divides by zero, and does not return, stands
here as an i/o error. -/
def fat16Fs : Filesystem FatState where
  fsOpen k s _ path mode :=
    (fat16Open fuel disk k s path mode).getD (BitVec.ofInt 32 (-eio), k, s)
  fsRead k s _ descriptor size nmemb out :=
    (fat16Read disk k s descriptor size nmemb out).getD (-eio, k, s)
  fsSeek k s descriptor offset seekMode :=
    fat16Seek k s descriptor (BitVec.ofInt 32 offset) seekMode
  fsStat k s _ descriptor stat := fat16Stat k s descriptor stat
  fsClose k s descriptor := fat16Close k s descriptor

end AlphaOS.Fat16
