import AlphaOS.Paging

/-! The kernel's records and globals: the structures of `task.h` and `process.h`, kept
by address apart from the bytes of memory, and the variables of `task.c`, `process.c`
and `kernel.c`. A null or stray pointer reads whatever record is kept at that address. -/
namespace AlphaOS
open Kheap WordMemory

structure Registers where
  edi : Word
  esi : Word
  ebp : Word
  ebx : Word
  edx : Word
  ecx : Word
  eax : Word
  ip : Word
  cs : Word
  flags : Word
  esp : Word
  ss : Word
  deriving DecidableEq

structure Task where
  /-- The `paging_4gb_chunk` of the task. -/
  pageDirectory : Word
  registers : Registers
  process : Word
  next : Word
  prev : Word
  deriving DecidableEq

structure ProcessAllocation where
  ptr : Word
  size : Word
  deriving DecidableEq

structure KeyboardBuffer where
  buffer : Fin 1024 → Byte
  head : Word
  tail : Word

structure ProcessArguments where
  argc : Word
  argv : Word

structure Process where
  id : BitVec 16
  task : Word
  allocations : Fin maxProgramAllocations → ProcessAllocation
  fileType : Byte
  /-- The union of `ptr` and `elf_file`. -/
  data : Word
  stack : Word
  size : Word
  keyboard : KeyboardBuffer
  arguments : ProcessArguments

/-- A task of zero bytes. -/
def zeroTask : Task := ⟨0, ⟨0, 0, 0, 0, 0, 0, 0, 0, 0, 0, 0, 0⟩, 0, 0, 0⟩

/-- A process of zero bytes. -/
def zeroProcess : Process where
  id := 0
  task := 0
  allocations := fun _ => ⟨0, 0⟩
  fileType := 0
  data := 0
  stack := 0
  size := 0
  keyboard := ⟨fun _ => 0, 0, 0⟩
  arguments := ⟨0, 0⟩

structure Kernel where
  kmem : Kmem
  procs : Word → Process
  tasks : Word → Task
  currentProcess : Word
  processes : Fin maxProcesses → Word
  currentTask : Word
  taskHead : Word
  taskTail : Word
  kernelChunk : Word
  /-- The directory last loaded by `paging_switch`. -/
  currentDirectory : Word

/-- The globals before any process is loaded. -/
def zeroKernel (s : Kmem) : Kernel where
  kmem := s
  procs := fun _ => zeroProcess
  tasks := fun _ => zeroTask
  currentProcess := 0
  processes := fun _ => 0
  currentTask := 0
  taskHead := 0
  taskTail := 0
  kernelChunk := 0
  currentDirectory := 0

def Kernel.withKmem (k : Kernel) (s : Kmem) : Kernel := { k with kmem := s }

def Kernel.setProcess (k : Kernel) (process : Word) (p : Process) : Kernel :=
  { k with procs := Function.update k.procs process p }

def Kernel.setTask (k : Kernel) (task : Word) (t : Task) : Kernel :=
  { k with tasks := Function.update k.tasks task t }

/-- `process->task->page_directory`. -/
def Kernel.pageDirectory (k : Kernel) (process : Word) : Word :=
  (k.tasks (k.procs process).task).pageDirectory

/-- Slot `i` of the process's allocation table. -/
def Kernel.record (k : Kernel) (process : Word) (i : Fin maxProgramAllocations) :
    ProcessAllocation := (k.procs process).allocations i

/-- The word at `process->task->page_directory->directory_entry`. -/
def Kernel.directory (k : Kernel) (process : Word) : Word :=
  read32 k.kmem.mem (k.pageDirectory process)

@[simp] lemma Kernel.withKmem_kmem (k : Kernel) (s : Kmem) : (k.withKmem s).kmem = s := rfl
@[simp] lemma Kernel.withKmem_procs (k : Kernel) (s : Kmem) : (k.withKmem s).procs = k.procs := rfl
@[simp] lemma Kernel.withKmem_tasks (k : Kernel) (s : Kmem) : (k.withKmem s).tasks = k.tasks := rfl
@[simp] lemma Kernel.setProcess_kmem (k : Kernel) (a : Word) (p : Process) :
    (k.setProcess a p).kmem = k.kmem := rfl
@[simp] lemma Kernel.setProcess_procs (k : Kernel) (a : Word) (p : Process) :
    (k.setProcess a p).procs = Function.update k.procs a p := rfl
@[simp] lemma Kernel.setProcess_tasks (k : Kernel) (a : Word) (p : Process) :
    (k.setProcess a p).tasks = k.tasks := rfl
@[simp] lemma Kernel.withKmem_pageDirectory (k : Kernel) (s : Kmem) (a : Word) :
    (k.withKmem s).pageDirectory a = k.pageDirectory a := rfl
@[simp] lemma Kernel.setTask_kmem (k : Kernel) (a : Word) (t : Task) :
    (k.setTask a t).kmem = k.kmem := rfl
@[simp] lemma Kernel.setTask_procs (k : Kernel) (a : Word) (t : Task) :
    (k.setTask a t).procs = k.procs := rfl
@[simp] lemma Kernel.setTask_tasks (k : Kernel) (a : Word) (t : Task) :
    (k.setTask a t).tasks = Function.update k.tasks a t := rfl
@[simp] lemma Kernel.setTask_setTask (k : Kernel) (a : Word) (t u : Task) :
    (k.setTask a t).setTask a u = k.setTask a u := by
  simp [Kernel.setTask]
@[simp] lemma Kernel.setTask_withKmem (k : Kernel) (a : Word) (t : Task) (s : Kmem) :
    (k.setTask a t).withKmem s = (k.withKmem s).setTask a t := rfl
@[simp] lemma Kernel.withKmem_withKmem (k : Kernel) (s s' : Kmem) :
    (k.withKmem s).withKmem s' = k.withKmem s' := rfl

end AlphaOS
