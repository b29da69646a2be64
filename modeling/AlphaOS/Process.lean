import AlphaOS.Kernel

/-! The memory of a process in `task/process.c`: `process_malloc`, `process_free` and
the loop of `process_terminate` over the allocation slots. -/
namespace AlphaOS.Processes
open Kheap Paging WordMemory

/-- The first empty slot, or nothing for `-ENOMEM`. -/
def processFindFreeAllocationIndex (process : Process) : Option (Fin maxProgramAllocations) :=
  Fin.find? fun i => (process.allocations i).ptr = 0

/-- The first slot that holds the address. -/
def processGetAllocationByAddr (process : Process) (addr : Word) :
    Option (Fin maxProgramAllocations) :=
  Fin.find? fun i => (process.allocations i).ptr = addr

def setAllocation (process : Process) (index : Fin maxProgramAllocations)
    (allocation : ProcessAllocation) : Process :=
  { process with allocations := Function.update process.allocations index allocation }

def processAllocationUnjoin (process : Process) (ptr : Word) : Process :=
  match processGetAllocationByAddr process ptr with
  | none => process
  | some i => setAllocation process i ⟨0, 0⟩

def processMalloc (k : Kernel) (process size : Word) : Word × Kernel :=
  let ptr := kzalloc k.kmem size
  if ptr.1 = 0 then (0, k.withKmem ptr.2) else
  match processFindFreeAllocationIndex (k.procs process) with
  | none => (0, k.withKmem (kfree ptr.2 ptr.1))
  | some index =>
    let res := pagingMapTo ptr.2.mem (k.pageDirectory process) ptr.1 ptr.1
      (pagingAlignAddress (ptr.1 + size)) (pagingIsPresent ||| pagingAccessFromAll ||| pagingIsWritable)
    let s := ptr.2.withMem res.2
    if res.1 < 0 then (0, k.withKmem (kfree s ptr.1)) else
    (ptr.1, (k.withKmem s).setProcess process
      (setAllocation (k.procs process) index ⟨ptr.1, size⟩))

def processFree (k : Kernel) (process ptr : Word) : Kernel :=
  match processGetAllocationByAddr (k.procs process) ptr with
  | none => k
  | some i =>
    let allocation := (k.procs process).allocations i
    let res := pagingMapTo k.kmem.mem (k.pageDirectory process) allocation.ptr 0
      (pagingAlignAddress (allocation.ptr + allocation.size)) 0
    let s := k.kmem.withMem res.2
    if res.1 < 0 then k.withKmem s else
    (k.withKmem (kfree s ptr)).setProcess process (processAllocationUnjoin (k.procs process) ptr)

/-- The loop of `process_terminate_allocation` over the slots of a list. -/
def processTerminateAllocationLoop (process : Word) :
    List (Fin maxProgramAllocations) → Kernel → Kernel
  | [], k => k
  | i :: is, k => processTerminateAllocationLoop process is
    (processFree k process ((k.procs process).allocations i).ptr)

def processTerminateAllocation (k : Kernel) (process : Word) : Kernel :=
  processTerminateAllocationLoop process (List.finRange maxProgramAllocations) k

end AlphaOS.Processes
