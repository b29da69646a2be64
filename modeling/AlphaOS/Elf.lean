import AlphaOS.CString
import AlphaOS.Task

/-! The ELF loader of `loader/formats/elfloader.c`. An `elf_file` holds a file name, the
pointer to the image at 112 and four addresses at 116 to 128; a program header has 32 bytes. -/
namespace AlphaOS.Elf
open CString Kheap Tasks WordMemory

def read16 (mem : Mem) (a : Word) : BitVec 16 := mem (a + 1) ++ mem a

abbrev pfW : Word := 2
abbrev ptLoad : Word := 1

/-- `elf_memory(file)`. -/
def elfMemory (mem : Mem) (file : Word) : Word := read32 mem (file + 112)

/-- `header->e_phoff`. -/
def elfPhoff (mem : Mem) (header : Word) : Word := read32 mem (header + 28)

/-- `header->e_phnum`. -/
def elfPhnum (mem : Mem) (header : Word) : BitVec 16 := read16 mem (header + 44)

/-- A `struct elf32_phdr` as memory holds it. -/
structure Phdr where
  type : Word
  offset : Word
  vaddr : Word
  paddr : Word
  filesz : Word
  memsz : Word
  flags : Word

def readPhdr (mem : Mem) (phdr : Word) : Phdr where
  type := read32 mem phdr
  offset := read32 mem (phdr + 4)
  vaddr := read32 mem (phdr + 8)
  paddr := read32 mem (phdr + 12)
  filesz := read32 mem (phdr + 16)
  memsz := read32 mem (phdr + 20)
  flags := read32 mem (phdr + 24)

def elfValidSignature (mem : Mem) (buffer : Word) : Bool :=
  memcmp (pointer mem buffer) (literal [0x7F, 69, 76, 70]) 4 = 0

/-- `ELFCLASSNONE` is 0 and `ELFCLASS32` is 1. -/
def elfValidClass (mem : Mem) (header : Word) : Bool := mem (header + 4) = 0 ∨ mem (header + 4) = 1

/-- `ELFDATANONE` is 0 and `ELFDATA2LSB` is 1. -/
def elfValidEncoding (mem : Mem) (header : Word) : Bool :=
  mem (header + 5) = 0 ∨ mem (header + 5) = 1

def elfHasProgramHeader (mem : Mem) (header : Word) : Bool := elfPhoff mem header ≠ 0

def elfValidateLoaded (mem : Mem) (header : Word) : ℤ :=
  if elfValidSignature mem header ∧ elfValidClass mem header ∧ elfValidEncoding mem header ∧
    elfHasProgramHeader mem header then allOk else -einformat

def elfPheader (mem : Mem) (header : Word) : Word :=
  if elfPhoff mem header = 0 then 0 else header + elfPhoff mem header

def elfProgramHeader (mem : Mem) (header : Word) (index : ℕ) : Word :=
  elfPheader mem header + BitVec.ofNat 32 (32 * index)

def elfPhdrPhysAddress (mem : Mem) (file : Word) (phdr : Phdr) : Word :=
  elfMemory mem file + phdr.offset

/-- The lowest virtual address at 116, with its physical one at 124. -/
def elfLowerBase (mem : Mem) (file phdr : Word) : Mem :=
  let base := read32 mem (file + 116)
  if (readPhdr mem phdr).vaddr ≤ base ∨ base = 0 then
    let mem := write32 mem (file + 116) (readPhdr mem phdr).vaddr
    write32 mem (file + 124) (elfMemory mem file + (readPhdr mem phdr).offset)
  else mem

/-- The end address at 120, with the physical end at 128. -/
def elfProcessPhdrPtLoad (mem : Mem) (file phdr : Word) : Mem :=
  let mem := elfLowerBase mem file phdr
  let endVirtualAddress := (readPhdr mem phdr).paddr + (readPhdr mem phdr).filesz
  let last := read32 mem (file + 120)
  if last ≤ endVirtualAddress ∨ last = 0 then
    let mem := write32 mem (file + 120) endVirtualAddress
    write32 mem (file + 128)
      (elfMemory mem file + (readPhdr mem phdr).offset + (readPhdr mem phdr).filesz)
  else mem

def elfProcessPheader (mem : Mem) (file phdr : Word) : Mem :=
  if (readPhdr mem phdr).type = ptLoad then elfProcessPhdrPtLoad mem file phdr else mem

/-- The headers from `i` on; there are fewer than 2^16. -/
def elfProcessPheadersLoop (file header : Word) : ℕ → ℕ → Mem → Mem
  | 0, _, mem => mem
  | k + 1, i, mem =>
    if i < (elfPhnum mem header).toNat then
      elfProcessPheadersLoop file header k (i + 1)
        (elfProcessPheader mem file (elfProgramHeader mem header i))
    else mem

def elfProcessPheaders (mem : Mem) (file : Word) : Mem :=
  elfProcessPheadersLoop file (elfHeader mem file) 65536 0 mem

def elfProcessLoaded (mem : Mem) (file : Word) : ℤ × Mem :=
  let res := elfValidateLoaded mem (elfHeader mem file)
  if res < 0 then (res, mem) else (0, elfProcessPheaders mem file)

/-- The calls of `fs/file.c` during one load: what they return and what they make of the
kernel's memory. -/
structure FileCalls where
  fopen : Kmem → ℤ × Kmem
  /-- The result and `stat.filesize`. -/
  fstat : Kmem → ℤ → ℤ × Word × Kmem
  /-- `fread` behind the check of its arguments. -/
  read : Kmem → Word → Word → Word → ℤ → ℤ × Kmem
  fclose : Kmem → ℤ → Kmem

def FileCalls.fread (files : FileCalls) (s : Kmem) (ptr size nmemb : Word) (fd : ℤ) : ℤ × Kmem :=
  if size = 0 ∨ nmemb = 0 ∨ fd < 1 then (-einvarg, s) else files.read s ptr size nmemb fd

/-- The image of the file of a descriptor is read and checked. -/
def elfLoadImage (files : FileCalls) (s : Kmem) (file : Word) (fd : ℤ) : ℤ × Kmem :=
  let stat := files.fstat s fd
  if stat.1 < 0 then (stat.1, stat.2.2) else
  let memory := kzalloc stat.2.2 stat.2.1
  let s := memory.2.withMem (write32 memory.2.mem (file + 112) memory.1)
  let res := files.fread s (elfMemory s.mem file) stat.2.1 1 fd
  if res.1 < 0 then res else
  let loaded := elfProcessLoaded res.2.mem file
  (loaded.1, res.2.withMem loaded.2)

/-- The result, which is 0 in every case, and the file handed out, null after a failure. -/
def elfLoad (files : FileCalls) (s : Kmem) : ℤ × Word × Kmem :=
  let file := kzalloc s 132
  let res := files.fopen file.2
  if res.1 ≤ 0 then (0, 0, files.fclose res.2 0) else
  let image := elfLoadImage files res.2 file.1 res.1
  (0, if image.1 < 0 then 0 else file.1, files.fclose image.2 res.1)

def elfClose (s : Kmem) (file : Word) : Kmem :=
  if file = 0 then s else
  let s := kfree s (elfMemory s.mem file)
  kfree s file

end AlphaOS.Elf
