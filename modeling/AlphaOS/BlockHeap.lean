import AlphaOS.Config
import AlphaOS.Tiling

/-! The block heap of `memory/heap/heap.c`. The table entries are indexed by the
C `int` block numbers, so an access outside the table is an access to the bytes
around it. -/
namespace AlphaOS.BlockHeap

abbrev entryTaken : Byte := 0x01
abbrev entryFree : Byte := 0x00
abbrev hasNext : Byte := 0b10000000
abbrev isFirst : Byte := 0b01000000

structure HeapTable where
  entries : ℤ → Byte
  total : Word

structure Heap where
  table : HeapTable
  /-- Start address of the heap data pool. -/
  saddr : Word

def Heap.setEntries (heap : Heap) (entries : ℤ → Byte) : Heap :=
  { heap with table := { heap.table with entries := entries } }

def heapValidateTable (ptr endp : Word) (table : HeapTable) : ℤ :=
  let tableSize := endp - ptr
  let totalBlocks := tableSize / 4096
  if table.total ≠ totalBlocks then -einvarg else 0

def heapValidateAlignment (ptr : Word) : Bool := ptr % 4096 = 0

/-- The entries `memset` clears. -/
def clearEntries (entries : ℤ → Byte) (size : ℕ) : ℤ → Byte :=
  fun i => if 0 ≤ i ∧ i < size then entryFree else entries i

def heapCreate (heap : Heap) (ptr endp : Word) (table : HeapTable) : ℤ × Heap :=
  if ¬ heapValidateAlignment ptr ∨ ¬ heapValidateAlignment endp then (-einvarg, heap) else
  let heap : Heap := { table := table, saddr := ptr }
  let res := heapValidateTable ptr endp table
  if res < 0 then (res, heap) else
  (res, heap.setEntries (clearEntries table.entries table.total.toNat))

def heapAlignValueToUpper (val : Word) : Word :=
  if val % 4096 = 0 then val else (val - val % 4096) + 4096

def heapGetEntryType (entry : Byte) : Byte := entry &&& 0x0f

/-- The scan of `heap_get_start_blocks`: `k` entries from `i` on are left, `bc`
free ones have just been counted and `bs` is where they start, -1 when `bc` is 0. -/
def startBlocksLoop (entries : ℤ → Byte) (totalBlocks : ℕ) : ℕ → ℕ → ℕ → ℤ → ℤ
  | 0, _, _, bs => bs
  | k + 1, i, bc, bs =>
    if heapGetEntryType (entries i) ≠ entryFree then
      startBlocksLoop entries totalBlocks k (i + 1) 0 (-1)
    else
      let bs : ℤ := if bs = -1 then i else bs
      let bc := bc + 1
      if bc = totalBlocks then bs else startBlocksLoop entries totalBlocks k (i + 1) bc bs

def heapGetStartBlocks (heap : Heap) (totalBlocks : Word) : ℤ :=
  let bs := startBlocksLoop heap.table.entries totalBlocks.toNat heap.table.total.toNat 0 0 (-1)
  if bs = -1 then -enomem else bs

def heapBlockToAddress (heap : Heap) (block : ℤ) : Word :=
  heap.saddr + BitVec.ofInt 32 (block * 4096)

/-- The marking loop up to `endBlock`, with the entry to write at `i`. -/
def markTakenLoop (endBlock : ℤ) : ℕ → ℤ → Byte → (ℤ → Byte) → (ℤ → Byte)
  | 0, _, _, table => table
  | k + 1, i, entry, table =>
    let next := if i ≠ endBlock - 1 then entryTaken ||| hasNext else entryTaken
    markTakenLoop endBlock k (i + 1) next (Function.update table i entry)

def heapMarkBlockTaken (heap : Heap) (startBlock : ℤ) (totalBlocks : Word) : Heap :=
  let endBlock := (BitVec.ofInt 32 startBlock + totalBlocks - 1).toInt
  let entry := if totalBlocks.toNat > 1 then entryTaken ||| isFirst ||| hasNext
    else entryTaken ||| isFirst
  heap.setEntries
    (markTakenLoop endBlock (endBlock + 1 - startBlock).toNat startBlock entry heap.table.entries)

def heapMallocBlocks (heap : Heap) (totalBlocks : Word) : Word × Heap :=
  let startBlock := heapGetStartBlocks heap totalBlocks
  if startBlock < 0 then (0, heap) else
  (heapBlockToAddress heap startBlock, heapMarkBlockTaken heap startBlock totalBlocks)

/-- The freeing loop: at most `k` entries from `i` on. -/
def markFreeLoop : ℕ → ℤ → (ℤ → Byte) → (ℤ → Byte)
  | 0, _, table => table
  | k + 1, i, table =>
    let entry := table i
    let table := Function.update table i entryFree
    if entry &&& hasNext = 0 then table else markFreeLoop k (i + 1) table

def heapMarkBlockFree (heap : Heap) (startingBlock : ℤ) : Heap :=
  heap.setEntries
    (markFreeLoop (heap.table.total.toInt - startingBlock).toNat startingBlock heap.table.entries)

/-- C division of the signed pointer difference, truncating toward zero. -/
def heapAddressToBlock (heap : Heap) (address : Word) : ℤ :=
  (address - heap.saddr).toInt.tdiv 4096

/-- The blocks `heap_malloc` asks for. -/
def heapBlocksFor (size : Word) : Word := heapAlignValueToUpper size / 4096

def heapMalloc (heap : Heap) (size : Word) : Word × Heap :=
  heapMallocBlocks heap (heapBlocksFor size)

def heapFree (heap : Heap) (ptr : Word) : Heap :=
  heapMarkBlockFree heap (heapAddressToBlock heap ptr)

end AlphaOS.BlockHeap
