import AlphaOS.Kernel

/-! The task list of `task/task.c`: `task_new`, `task_init`, `task_list_remove` and
`task_free`. The image an `elf_file` points to is read from memory. -/
namespace AlphaOS.Tasks
open Kheap Paging WordMemory

abbrev processFiletypeElf : Byte := 0
abbrev processFiletypeBinary : Byte := 1

/-- `ERROR(value)`. -/
def errorPtr (value : ℤ) : Word := BitVec.ofInt 32 value

/-- `ISERR(value)` of a pointer. -/
def isErr (value : Word) : Bool := value.toInt < 0

/-- `elf_header(file)`, the word at `file->elf_memory`. -/
def elfHeader (mem : Mem) (file : Word) : Word := read32 mem (file + 112)

/-- `header->e_entry`. -/
def elfEntry (mem : Mem) (header : Word) : Word := read32 mem (header + 24)

def taskGetNext (k : Kernel) : Word :=
  if (k.tasks k.currentTask).next = 0 then k.taskHead else (k.tasks k.currentTask).next

/-- `task->prev->next = task->next`, the only link `task_list_remove` writes. -/
def taskUnlink (k : Kernel) (task : Word) : Kernel :=
  let t := k.tasks task
  if t.prev ≠ 0 then k.setTask t.prev { k.tasks t.prev with next := t.next } else k

def taskListRemove (k : Kernel) (task : Word) : Kernel :=
  let k := taskUnlink k task
  let k := { k with taskHead := if task = k.taskHead then (k.tasks task).next else k.taskHead }
  let k := { k with taskTail := if task = k.taskTail then (k.tasks task).prev else k.taskTail }
  { k with currentTask := if task = k.currentTask then taskGetNext k else k.currentTask }

def taskFree (k : Kernel) (task : Word) : Kernel :=
  let k := k.withKmem (pagingFree4gb k.kmem (k.tasks task).pageDirectory)
  let k := taskListRemove k task
  k.withKmem (kfree k.kmem task)

/-- The registers a new task of the process starts with. -/
def startRegisters (mem : Mem) (process : Process) : Registers where
  edi := 0
  esi := 0
  ebp := 0
  ebx := 0
  edx := 0
  ecx := 0
  eax := 0
  ip := if process.fileType = processFiletypeElf then elfEntry mem (elfHeader mem process.data)
    else programVirtualAddress
  cs := userCodeSegment
  flags := 0
  esp := programVirtualStackAddressStart
  ss := userDataSegment

def taskInit (k : Kernel) (task process : Word) : ℤ × Kernel :=
  let k := k.setTask task zeroTask
  let chunk := pagingNew4gb k.kmem 0b101
  let k := (k.withKmem chunk.2).setTask task { zeroTask with pageDirectory := chunk.1 }
  if chunk.1 = 0 then (-eio, k) else
  (0, k.setTask task { k.tasks task with
    registers := startRegisters k.kmem.mem (k.procs process)
    process := process })

/-- The end of `task_new`: the task becomes the last of the list. -/
def taskListAppend (k : Kernel) (task : Word) : Kernel :=
  if k.taskHead = 0 then { k with taskHead := task, taskTail := task, currentTask := task } else
  let k := k.setTask k.taskTail { k.tasks k.taskTail with next := task }
  let k := k.setTask task { k.tasks task with prev := k.taskTail }
  { k with taskTail := task }

/-- A task, or the error as a pointer. -/
def taskNew (k : Kernel) (process : Word) : Word × Kernel :=
  let task := kzalloc k.kmem 64
  let k := k.withKmem task.2
  if task.1 = 0 then (errorPtr (-enomem), k) else
  let res := taskInit k task.1 process
  let k := res.2
  if res.1 ≠ 0 then (errorPtr res.1, taskFree k task.1) else
  (task.1, taskListAppend k task.1)

end AlphaOS.Tasks
