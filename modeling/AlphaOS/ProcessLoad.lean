import AlphaOS.Elf
import AlphaOS.Process

/-! Loading and terminating processes: the rest of `task/process.c`. A panic gives nothing. -/
namespace AlphaOS.Processes
open Elf Kheap Paging Tasks WordMemory

/-- `process_load_binary`, which runs when the file is no ELF file. -/
def processLoadBinary (files : FileCalls) (k : Kernel) (process : Word) : ℤ × Kernel :=
  let fd := files.fopen k.kmem
  if fd.1 = 0 then (-eio, k.withKmem (files.fclose fd.2 0)) else
  let stat := files.fstat fd.2 fd.1
  if stat.1 ≠ allOk then (stat.1, k.withKmem (files.fclose stat.2.2 fd.1)) else
  let data := kzalloc stat.2.2 stat.2.1
  if data.1 = 0 then (-enomem, k.withKmem (files.fclose data.2 fd.1)) else
  let res := files.fread data.2 data.1 stat.2.1 1 fd.1
  if res.1 ≠ 1 then (-eio, k.withKmem (files.fclose (kfree res.2 data.1) fd.1)) else
  let k := k.withKmem (files.fclose res.2 fd.1)
  (0, k.setProcess process { k.procs process with
    fileType := processFiletypeBinary
    data := data.1
    size := stat.2.1 })

def processLoadElf (files : FileCalls) (k : Kernel) (process : Word) : ℤ × Kernel :=
  let res := elfLoad files k.kmem
  let k := k.withKmem res.2.2
  if res.1 < 0 then (res.1, k) else
  (res.1, k.setProcess process { k.procs process with
    fileType := processFiletypeElf
    data := res.2.1 })

def processLoadData (files : FileCalls) (k : Kernel) (process : Word) : ℤ × Kernel :=
  let res := processLoadElf files k process
  if res.1 = -einformat then processLoadBinary files res.2 process else res

def processMapBinary (mem : Mem) (directory : Word) (process : Process) : ℤ × Mem :=
  (0, (pagingMapTo mem directory programVirtualAddress process.data
    (pagingAlignAddress (process.data + process.size))
    (pagingIsPresent ||| pagingAccessFromAll ||| pagingIsWritable)).2)

/-- The flags a segment is mapped with. -/
def segmentFlags (phdr : Phdr) : Word :=
  if phdr.flags &&& pfW ≠ 0 then pagingIsPresent ||| pagingAccessFromAll ||| pagingIsWritable
  else pagingIsPresent ||| pagingAccessFromAll

def mapSegment (mem : Mem) (directory physAddress : Word) (phdr : Phdr) : ℤ × Mem :=
  pagingMapTo mem directory (pagingAlignToLowerPage phdr.vaddr)
    (pagingAlignToLowerPage physAddress) (pagingAlignAddress (physAddress + phdr.memsz))
    (segmentFlags phdr)

/-- The headers from `i` on, with the result so far; there are fewer than 2^16. -/
def processMapElfLoop (directory file header phdrs : Word) : ℕ → ℕ → ℤ → Mem → ℤ × Mem
  | 0, _, res, mem => (res, mem)
  | k + 1, i, res, mem =>
    if i < (elfPhnum mem header).toNat then
      let phdr := readPhdr mem (phdrs + BitVec.ofNat 32 (32 * i))
      let r := mapSegment mem directory (elfPhdrPhysAddress mem file phdr) phdr
      if r.1 < 0 then r else processMapElfLoop directory file header phdrs k (i + 1) r.1 r.2
    else (res, mem)

def processMapElf (mem : Mem) (directory : Word) (process : Process) : ℤ × Mem :=
  let header := elfHeader mem process.data
  processMapElfLoop directory process.data header (elfPheader mem header) 65536 0 0 mem

def processMapMemory (mem : Mem) (directory : Word) (process : Process) : Option (ℤ × Mem) :=
  let res :=
    if process.fileType = processFiletypeElf then some (processMapElf mem directory process)
    else if process.fileType = processFiletypeBinary then
      some (processMapBinary mem directory process)
    else none
  res.map fun r =>
    if r.1 < 0 then r else
    (r.1, (pagingMapTo r.2 directory programVirtualStackAddressEnd process.stack
      (pagingAlignAddress (process.stack + userProgramStackSize))
      (pagingIsPresent ||| pagingAccessFromAll ||| pagingIsWritable)).2)

def processGetFreeSlot (k : Kernel) : Option (Fin maxProcesses) :=
  Fin.find? fun i => k.processes i = 0

/-- The exit of `process_load_for_slot` with an error. -/
def processLoadFailed (k : Kernel) (process : Word) (res : ℤ) : ℤ × Word × Kernel :=
  let stack := (k.procs process).stack
  (res, 0, if stack ≠ 0 then k.withKmem (kfree k.kmem stack) else k)

/-- The task of a loaded process is created and its memory mapped. -/
def processStart (k : Kernel) (process : Word) (slot : Fin maxProcesses) :
    Option (ℤ × Word × Kernel) :=
  let task := taskNew k process
  let k := task.2
  if task.1 = 0 then some (0, 0, k) else
  let k := k.setProcess process { k.procs process with task := task.1 }
  (processMapMemory k.kmem.mem (k.pageDirectory process) (k.procs process)).map fun r =>
    let k := k.withKmem (k.kmem.withMem r.2)
    if r.1 < 0 then processLoadFailed k process r.1 else
    (r.1, process, { k with processes := Function.update k.processes slot process })

/-- The result and, when it is not an error, the process. -/
def processLoadForSlot (files : FileCalls) (k : Kernel) (slot : Fin maxProcesses) :
    Option (ℤ × Word × Kernel) :=
  if k.processes slot ≠ 0 then some (-eistkn, 0, k) else
  let process := kzalloc k.kmem 9364
  let k := k.withKmem process.2
  if process.1 = 0 then some (-enomem, 0, k) else
  let k := k.setProcess process.1 zeroProcess
  let data := processLoadData files k process.1
  let k := data.2
  if data.1 < 0 then some (processLoadFailed k process.1 data.1) else
  let stack := kzalloc k.kmem userProgramStackSize
  let k := k.withKmem stack.2
  if stack.1 = 0 then some (processLoadFailed k process.1 (-enomem)) else
  let k := k.setProcess process.1 { k.procs process.1 with
    stack := stack.1
    id := BitVec.ofNat 16 slot }
  processStart k process.1 slot

def processLoad (files : FileCalls) (k : Kernel) : Option (ℤ × Word × Kernel) :=
  match processGetFreeSlot k with
  | none => some (-eistkn, 0, k)
  | some slot => processLoadForSlot files k slot

def processLoadSwitch (files : FileCalls) (k : Kernel) : Option (ℤ × Word × Kernel) :=
  (processLoad files k).map fun r =>
    (r.1, r.2.1, if r.1 = 0 then { r.2.2 with currentProcess := r.2.1 } else r.2.2)

def processFreeProgramData (s : Kmem) (process : Process) : ℤ × Kmem :=
  if process.fileType = processFiletypeBinary then (0, kfree s process.data)
  else if process.fileType = processFiletypeElf then (0, elfClose s process.data)
  else (-einvarg, s)

/-- The first process of the table, if there is one. -/
def processSwitchToAny (k : Kernel) : Option Kernel :=
  (Fin.find? fun i => k.processes i ≠ 0).map fun i => { k with currentProcess := k.processes i }

/-- An id outside the table leaves the table as it is. -/
def clearSlot (processes : Fin maxProcesses → Word) (id : BitVec 16) : Fin maxProcesses → Word :=
  fun i => if (i : ℕ) = id.toNat then 0 else processes i

def processUnlik (k : Kernel) (process : Word) : Option Kernel :=
  let k := { k with processes := clearSlot k.processes (k.procs process).id }
  if k.currentProcess = process then processSwitchToAny k else some k

def processTerminate (k : Kernel) (process : Word) : Option Kernel :=
  let k := processTerminateAllocation k process
  let data := processFreeProgramData k.kmem (k.procs process)
  let k := k.withKmem data.2
  if data.1 < 0 then some k else
  let k := k.withKmem (kfree k.kmem (k.procs process).stack)
  let k := taskFree k (k.procs process).task
  processUnlik k process

end AlphaOS.Processes
