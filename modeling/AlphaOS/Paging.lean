import AlphaOS.Kheap

/-! The two-level page tables of `memory/paging/paging.c`, held in physical memory.
A `paging_4gb_chunk` is its address; its only field is the word stored there. -/
namespace AlphaOS.Paging
open Kheap WordMemory

abbrev pagingAccessFromAll : Word := 0b00000100
abbrev pagingIsWritable : Word := 0b00000010
abbrev pagingIsPresent : Word := 0b00000001

/-- `entry[j] = (offset + j * PAGING_PAGE_SIZE) | flags` for the entries from `j` on. -/
def pagingFillTable (entry offset flags : Word) : ℕ → ℕ → Mem → Mem
  | 0, _, mem => mem
  | k + 1, j, mem =>
    pagingFillTable entry offset flags k (j + 1)
      (write32 mem (entry + BitVec.ofNat 32 (4 * j))
        ((offset + BitVec.ofNat 32 (j * 4096)) ||| flags))

/-- The tables from `i` on; `offset` wraps around at 2^32. -/
def pagingNewTables (directory flags : Word) : ℕ → ℕ → Word → Kmem → Kmem
  | 0, _, _, s => s
  | k + 1, i, offset, s =>
    let entry := kzalloc s 4096
    let mem := pagingFillTable entry.1 offset flags 1024 0 entry.2.mem
    let mem := write32 mem (directory + BitVec.ofNat 32 (4 * i))
      (entry.1 ||| flags ||| pagingIsWritable)
    pagingNewTables directory flags k (i + 1) (offset + 0x400000) (entry.2.withMem mem)

def pagingNew4gb (s : Kmem) (flags : Byte) : Word × Kmem :=
  let directory := kzalloc s 4096
  let s := pagingNewTables directory.1 (flags.setWidth 32) 1024 0 0 directory.2
  let chunk := kzalloc s 4
  (chunk.1, chunk.2.withMem (write32 chunk.2.mem chunk.1 directory.1))

/-- Free the tables of the entries from `i` on. -/
def pagingFreeTables (chunk : Word) : ℕ → ℕ → Kmem → Kmem
  | 0, _, s => s
  | k + 1, i, s =>
    let entry := read32 s.mem (read32 s.mem chunk + BitVec.ofNat 32 (4 * i))
    pagingFreeTables chunk k (i + 1) (kfree s (entry &&& 0xFFFFF000#32))

def pagingFree4gb (s : Kmem) (chunk : Word) : Kmem :=
  let s := pagingFreeTables chunk 1024 0 s
  let s := kfree s (read32 s.mem chunk)
  kfree s chunk

def pagingIsAligned (addr : Word) : Bool := addr % 4096 = 0

/-- The directory and the table index, or nothing on an unaligned address. -/
def pagingGetIndexes (virtualAddress : Word) : Option (Word × Word) :=
  if pagingIsAligned virtualAddress then
    some (virtualAddress / 0x400000, virtualAddress % 0x400000 / 4096)
  else none

def pagingAlignAddress (ptr : Word) : Word :=
  if ptr % 4096 ≠ 0 then ptr + 4096 - ptr % 4096 else ptr

def pagingAlignToLowerPage (addr : Word) : Word := addr - addr % 4096

def pagingSet (mem : Mem) (directory virtualAddress value : Word) : ℤ × Mem :=
  match pagingGetIndexes virtualAddress with
  | none => (-einvarg, mem)
  | some index =>
    let entry := read32 mem (directory + 4 * index.1)
    let table := entry &&& 0xFFFFF000#32
    (0, write32 mem (table + 4 * index.2) value)

/-- The indexes stay 0 on an unaligned address. -/
def pagingGet (mem : Mem) (directory virtualAddress : Word) : Word :=
  let index := (pagingGetIndexes virtualAddress).getD (0, 0)
  let entry := read32 mem (directory + 4 * index.1)
  let table := entry &&& 0xFFFFF000#32
  read32 mem (table + 4 * index.2)

def pagingGetPhysicalAddress (mem : Mem) (directory virtualAddress : Word) : Word :=
  let newVirtualAddress := pagingAlignToLowerPage virtualAddress
  let difference := virtualAddress - newVirtualAddress
  (pagingGet mem directory newVirtualAddress &&& 0xFFFFF000#32) + difference

def pagingMap (mem : Mem) (chunk virtualAddress physicalAddress flags : Word) : ℤ × Mem :=
  if virtualAddress % 4096 ≠ 0 ∨ physicalAddress % 4096 ≠ 0 then (-einvarg, mem) else
  pagingSet mem (read32 mem chunk) virtualAddress (physicalAddress ||| flags)

/-- At most `k` more pages, with the result of the last call. -/
def pagingMapRangeLoop (chunk flags : Word) : ℕ → ℤ → Word → Word → Mem → ℤ × Mem
  | 0, res, _, _, mem => (res, mem)
  | k + 1, _, virtualAddress, physicalAddress, mem =>
    let r := pagingMap mem chunk virtualAddress physicalAddress flags
    if r.1 < 0 then r else
    pagingMapRangeLoop chunk flags k r.1 (virtualAddress + 4096) (physicalAddress + 4096) r.2

def pagingMapRange (mem : Mem) (chunk virtualAddress physicalAddress : Word) (count : ℤ)
    (flags : Word) : ℤ × Mem :=
  pagingMapRangeLoop chunk flags count.toNat 0 virtualAddress physicalAddress mem

def pagingMapTo (mem : Mem) (chunk virtualAddress physicalAddress physicalEndAddress flags : Word) :
    ℤ × Mem :=
  if virtualAddress % 4096 ≠ 0 then (-einvarg, mem) else
  if physicalAddress % 4096 ≠ 0 then (-einvarg, mem) else
  if physicalEndAddress % 4096 ≠ 0 then (-einvarg, mem) else
  if physicalEndAddress < physicalAddress then (-einvarg, mem) else
  let totalBytes := physicalEndAddress - physicalAddress
  let totalPages := (totalBytes / 4096).toInt
  pagingMapRange mem chunk virtualAddress physicalAddress totalPages flags

end AlphaOS.Paging
