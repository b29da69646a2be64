import AlphaOS.FrontierLoad
import AlphaOS.RecordBytes

/-! The system call that starts a program with arguments: `process_inject_arguments` of
`task/process.c` and `isr80h_command7_invoke_system_command` of `isr80h/process.c`, with the
switches of `task/task.c` they use. A panic, a page fault in the kernel and a loop that does not
end give nothing. -/
namespace AlphaOS.Processes
open BlockHeap CString Elf Kheap Paging Tasks WordMemory

def pagingSwitch (k : Kernel) (directory : Word) : Kernel :=
  { k with currentDirectory := read32 k.kmem.mem directory }

/-- `kernel_page`, but for the segment registers. -/
def kernelPage (k : Kernel) : Kernel := pagingSwitch k k.kernelChunk

def taskSwitch (k : Kernel) (task : Word) : Kernel :=
  pagingSwitch { k with currentTask := task } (k.tasks task).pageDirectory

/-- The byte at a virtual address in a page directory. A page that is not present faults. -/
def pagedByte (mem : Mem) (directory virtualAddress : Word) : Option Byte :=
  if pagingGet mem directory (pagingAlignToLowerPage virtualAddress) &&& pagingIsPresent = 0 then none
  else some (mem (pagingGetPhysicalAddress mem directory virtualAddress))

def pagedWord (mem : Mem) (directory virtualAddress : Word) : Option Word := do
  let b₀ ← pagedByte mem directory virtualAddress
  let b₁ ← pagedByte mem directory (virtualAddress + 1)
  let b₂ ← pagedByte mem directory (virtualAddress + 2)
  let b₃ ← pagedByte mem directory (virtualAddress + 3)
  pure (b₃ ++ b₂ ++ b₁ ++ b₀)

/-- `task->page_directory->directory_entry`. -/
def taskDirectory (k : Kernel) (task : Word) : Word := read32 k.kmem.mem (k.tasks task).pageDirectory

/-- The word is read in the task's pages; the kernel's are loaded after that. -/
def taskGetStackItem (k : Kernel) (task : Word) (index : ℕ) : Option (Word × Kernel) :=
  (pagedWord k.kmem.mem (taskDirectory k task)
    ((k.tasks task).registers.esp + BitVec.ofNat 32 (4 * index))).map fun item =>
      (item, kernelPage (pagingSwitch k (k.tasks task).pageDirectory))

def taskVirtualAddressToPhysical (k : Kernel) (task virtualAddress : Word) : Word :=
  pagingGetPhysicalAddress k.kmem.mem (taskDirectory k task) virtualAddress

/-- `current->next` of a `command_argument`, behind its 512 characters. -/
def argumentNext (mem : Mem) (argument : Word) : Word := read32 mem (argument + 512)

/-- The loop of `process_count_command_arguments`, for a list of at most `fuel` arguments. -/
def processCountCommandArguments (mem : Mem) : ℕ → Word → Option ℕ
  | 0, current => if current = 0 then some 0 else none
  | fuel + 1, current =>
    if current = 0 then some 0
    else (processCountCommandArguments mem fuel (argumentNext mem current)).map (· + 1)

/-- `strncpy` into a block, of a string that may lie in the heap's table or in the process. -/
def strncpyShown (k : Kernel) (process dest src : Word) (n : ℕ) : Mem :=
  overlay k.kmem.mem dest n fun j => strncpy (k.view process) dest src n (dest + BitVec.ofNat 32 j)

/-- The loop of `process_inject_arguments` from argument `i` on. -/
def processInjectArgumentsLoop (process argv : Word) : ℕ → ℕ → Word → Kernel → Option (ℤ × Kernel)
  | 0, _, current, k => if current = 0 then some (0, k) else none
  | fuel + 1, i, current, k =>
    if current = 0 then some (0, k) else
    let argument := processMalloc k process 512
    let k := argument.2
    if argument.1 = 0 then some (-enomem, k) else
    let mem := strncpyShown k process argument.1 current 512
    let mem := write32 mem (argv + BitVec.ofNat 32 (4 * i)) argument.1
    let k := k.withKmem (k.kmem.withMem mem)
    processInjectArgumentsLoop process argv fuel (i + 1) (argumentNext (k.view process) current) k

def processInjectArguments (fuel : ℕ) (k : Kernel) (process rootArgument : Word) :
    Option (ℤ × Kernel) :=
  (processCountCommandArguments (k.view process) fuel rootArgument).bind fun argc =>
  if argc = 0 then some (-eio, k) else
  let argv := processMalloc k process (4 * BitVec.ofNat 32 argc)
  if argv.1 = 0 then some (-enomem, argv.2) else
  (processInjectArgumentsLoop process argv.1 fuel 0 rootArgument argv.2).map fun r =>
    if r.1 < 0 then r else
    (r.1, r.2.setProcess process { r.2.procs process with
      arguments := ⟨BitVec.ofNat 32 argc, argv.1⟩ })

/-- At most `k` characters of a string. -/
def takeString (mem : Mem) (str : Word) : ℕ → List Byte
  | 0 => []
  | k + 1 => if mem str = 0 then [] else mem str :: takeString mem (str + 1) k

/-- `0:/` and the name, which `strncpy` cuts after `sizeof(path) - 1` characters. -/
def commandPath (mem : Mem) (programName : Word) : List Byte :=
  [48, 58, 47] ++ takeString mem programName (maxPathLength - 1)

/-- An error for the caller, or the task that runs next. -/
def isr80hCommand7InvokeSystemCommand (fuel : ℕ) (files : List Byte → FileCalls) (k : Kernel) :
    Option (Except ℤ Word × Kernel) :=
  (taskGetStackItem k k.currentTask 0).bind fun (item, k) =>
  let args := taskVirtualAddressToPhysical k k.currentTask item
  if args = 0 then some (.error (-einvarg), k) else
  (strlen fuel k.kmem.mem args).bind fun len =>
  if len = 0 then some (.error (-einvarg), k) else
  (processLoadSwitch (files (commandPath k.kmem.mem args)) k).bind fun (res, process, k) =>
  if res < 0 then some (.error res, k) else
  (processInjectArguments fuel k process args).map fun (res, k) =>
  if res < 0 then (.error res, k) else
  (.ok (k.procs process).task, taskSwitch k (k.procs process).task)

/-- The table of processes, the current process, the scheduler's list and the heap's table are
as before. -/
structure Restored (k k' : Kernel) : Prop where
  processes : k'.processes = k.processes
  currentProcess : k'.currentProcess = k.currentProcess
  taskHead : k'.taskHead = k.taskHead
  taskTail : k'.taskTail = k.taskTail
  currentTask : k'.currentTask = k.currentTask
  tasks : ∀ live, TaskListOk k live → TaskListOk k' live
  heap : ∀ b : ℕ, b < 25600 → k'.kmem.entries b = k.kmem.entries b

/-- The arguments the current task passes. -/
def commandArguments (k : Kernel) : Option Word :=
  (taskGetStackItem k k.currentTask 0).map fun r => taskVirtualAddressToPhysical r.2 k.currentTask r.1

variable {fuel : ℕ} {files : List Byte → FileCalls} {k k' : Kernel} {res : ℤ}
  {process args size argv : Word}

lemma processMalloc_processes (k : Kernel) (process size : Word) :
    (processMalloc k process size).2.processes = k.processes := by
  unfold processMalloc
  cases processFindFreeAllocationIndex (k.procs process) with
  | none =>
    dsimp only
    split_ifs <;> rfl
  | some index =>
    dsimp only
    split_ifs <;> rfl

lemma processInjectArgumentsLoop_processes {i : ℕ} {current : Word}
    (h : processInjectArgumentsLoop process argv fuel i current k = some (res, k')) :
    k'.processes = k.processes := by
  induction fuel generalizing i current k with
  | zero =>
    rw [processInjectArgumentsLoop] at h
    split_ifs at h
    simp only [Option.some.injEq, Prod.mk.injEq] at h
    rw [← h.2]
  | succ fuel ih =>
    have hmalloc := processMalloc_processes k process 512
    rw [processInjectArgumentsLoop] at h
    dsimp only at h
    split_ifs at h
    · simp only [Option.some.injEq, Prod.mk.injEq] at h
      rw [← h.2]
    · simp only [Option.some.injEq, Prod.mk.injEq] at h
      rw [← h.2, hmalloc]
    · exact (ih h).trans hmalloc

/-- The arguments are stored without a change to the table of processes. -/
lemma processInjectArguments_processes
    (h : processInjectArguments fuel k process args = some (res, k')) :
    k'.processes = k.processes := by
  rw [processInjectArguments] at h
  obtain ⟨argc, -, h⟩ := Option.bind_eq_some_iff.1 h
  have hmalloc := processMalloc_processes k process (4 * BitVec.ofNat 32 argc)
  by_cases hzero : argc = 0
  · rw [if_pos hzero] at h
    simp only [Option.some.injEq, Prod.mk.injEq] at h
    rw [← h.2]
  rw [if_neg hzero] at h
  dsimp only at h
  split_ifs at h
  · simp only [Option.some.injEq, Prod.mk.injEq] at h
    rw [← h.2, hmalloc]
  · obtain ⟨⟨r, k₁⟩, hloop, heq⟩ := Option.map_eq_some_iff.1 h
    have hkept := (processInjectArgumentsLoop_processes hloop).trans hmalloc
    dsimp only at heq
    split_ifs at heq
    · simp only [Prod.mk.injEq] at heq
      rw [← heq.2, hkept]
    · simp only [Prod.mk.injEq] at heq
      rw [← heq.2]
      exact hkept

lemma strlenLoop_le {mem : Mem} {str : Word} {len m : ℕ} (h : strlenLoop mem str fuel len = some m) :
    len ≤ m := by
  induction fuel generalizing len with
  | zero => exact absurd h (Option.some_ne_none m).symm
  | succ fuel ih =>
    rw [strlenLoop] at h
    split_ifs at h
    · exact (Nat.le_succ len).trans (ih h)
    · exact (Option.some.inj h).le

lemma strlen_zero_iff {mem : Mem} {str : Word} {len : ℕ} (h : strlen fuel mem str = some len) :
    len = 0 ↔ mem str = 0 := by
  cases fuel with
  | zero => exact absurd h (Option.some_ne_none len).symm
  | succ fuel =>
    rw [strlen, strlenLoop, BitVec.add_zero] at h
    split_ifs at h with hbyte
    · have hle := strlenLoop_le h
      exact iff_of_false (by omega) hbyte
    · exact iff_of_true (Option.some.inj h).symm (not_not.1 hbyte)

/-- The kernel after an argument of the call was read. -/
def pageLoaded (k : Kernel) : Kernel := kernelPage (pagingSwitch k (k.tasks k.currentTask).pageDirectory)

/-- The call once its argument is known. -/
lemma isr80hCommand7_eq (hargs : commandArguments k = some args) :
    isr80hCommand7InvokeSystemCommand fuel files k =
      if args = 0 then some (.error (-einvarg), pageLoaded k) else
      (strlen fuel k.kmem.mem args).bind fun len =>
      if len = 0 then some (.error (-einvarg), pageLoaded k) else
      (processLoadSwitch (files (commandPath k.kmem.mem args)) (pageLoaded k)).bind fun r =>
      if r.1 < 0 then some (.error r.1, r.2.2) else
      (processInjectArguments fuel r.2.2 r.2.1 args).map fun q =>
      if q.1 < 0 then (.error q.1, q.2) else
      (.ok (q.2.procs r.2.1).task, taskSwitch q.2 (q.2.procs r.2.1).task) := by
  obtain ⟨⟨item, k₀⟩, hitem, haddr⟩ := Option.map_eq_some_iff.1 hargs
  obtain ⟨word, -, hpair⟩ := Option.map_eq_some_iff.1 hitem
  simp only [Prod.mk.injEq] at hpair
  obtain ⟨rfl, rfl⟩ := hpair
  replace haddr : taskVirtualAddressToPhysical
      (kernelPage (pagingSwitch k (k.tasks k.currentTask).pageDirectory))
      (kernelPage (pagingSwitch k (k.tasks k.currentTask).pageDirectory)).currentTask word = args := haddr
  rw [isr80hCommand7InvokeSystemCommand, hitem, Option.bind_some]
  dsimp only
  rw [haddr]
  rfl

/-- Where an error comes from: the arguments, the load or the arguments of the new process. -/
lemma isr80hCommand7_error (hargs : commandArguments k = some args)
    (h : isr80hCommand7InvokeSystemCommand fuel files k = some (.error res, k')) :
    (args = 0 ∨ k.kmem.mem args = 0) ∧ k' = pageLoaded k ∨
    ¬ (args = 0 ∨ k.kmem.mem args = 0) ∧ ∃ r process k₁,
      processLoadSwitch (files (commandPath k.kmem.mem args)) (pageLoaded k) = some (r, process, k₁) ∧
      (r < 0 ∧ k' = k₁ ∨ ¬ r < 0 ∧ processInjectArguments fuel k₁ process args = some (res, k')) := by
  rw [isr80hCommand7_eq hargs] at h
  by_cases hnull : args = 0
  · rw [if_pos hnull] at h
    simp only [Option.some.injEq, Prod.mk.injEq] at h
    exact .inl ⟨.inl hnull, h.2.symm⟩
  rw [if_neg hnull] at h
  obtain ⟨len, hlen, h⟩ := Option.bind_eq_some_iff.1 h
  have hempty : len = 0 ↔ k.kmem.mem args = 0 := strlen_zero_iff hlen
  by_cases hzero : len = 0
  · rw [if_pos hzero] at h
    simp only [Option.some.injEq, Prod.mk.injEq] at h
    exact .inl ⟨.inr (hempty.1 hzero), h.2.symm⟩
  rw [if_neg hzero] at h
  obtain ⟨⟨r, process, k₁⟩, hload, h⟩ := Option.bind_eq_some_iff.1 h
  refine .inr ⟨fun hor => hor.elim hnull fun hbyte => hzero (hempty.2 hbyte), r, process, k₁, hload, ?_⟩
  by_cases hneg : r < 0
  · rw [if_pos hneg] at h
    simp only [Option.some.injEq, Prod.mk.injEq] at h
    exact .inl ⟨hneg, h.2.symm⟩
  · rw [if_neg hneg] at h
    obtain ⟨⟨r', k₂⟩, hinject, heq⟩ := Option.map_eq_some_iff.1 h
    refine .inr ⟨hneg, ?_⟩
    dsimp only at heq hinject
    split_ifs at heq
    · simp only [Prod.mk.injEq, Except.error.injEq] at heq
      rw [hinject, heq.1, heq.2]
    · simp at heq

/-- A load whose arguments cannot be stored leaves its process in the table. -/
lemma processInjectArguments_registered {files : FileCalls} {r : ℤ} {k₁ : Kernel}
    (hload : processLoadSwitch files k = some (r, process, k₁)) (hneg : ¬ r < 0)
    (hinject : processInjectArguments fuel k₁ process args = some (res, k')) :
    ∃ slot, processGetFreeSlot k = some slot ∧ (processStep k).1 ≠ 0 ∧
      k'.processes slot ≠ k.processes slot := by
  obtain ⟨⟨r', process', k₂⟩, hload', heq⟩ := Option.map_eq_some_iff.1 hload
  simp only [Prod.mk.injEq] at heq
  obtain ⟨rfl, rfl, hk₁⟩ := heq
  obtain ⟨slot, mem, hacc⟩ := processLoad_accepted hload' hneg
  have hslot : k₂.processes slot = process' := by
    rw [hacc.result, registered]
    simp
  refine ⟨slot, hacc.slot_eq, hacc.process_ne, ?_⟩
  rw [processGetFreeSlot_free hacc.slot_eq, processInjectArguments_processes hinject, ← hk₁]
  have hne : process' ≠ 0 := hacc.process_eq ▸ hacc.process_ne
  split_ifs <;> rwa [hslot]

/-- A call that reports an error has changed nothing exactly when it failed before the process
structure was allocated. -/
theorem restored_iff (hargs : commandArguments k = some args)
    (hspares : (files (commandPath k.kmem.mem args)).Spares (processBlocks k) (processStep k).2)
    (hlow : Low (dataStep (files (commandPath k.kmem.mem args)) k).2.2.entries)
    (h : isr80hCommand7InvokeSystemCommand fuel files k = some (.error res, k')) :
    Restored k k' ↔ (args = 0 ∨ k.kmem.mem args = 0) ∨ processGetFreeSlot k = none ∨
      (processStep k).1 = 0 := by
  have hpage : Restored k (pageLoaded k) := ⟨rfl, rfl, rfl, rfl, rfl,
    fun _ h => ⟨h.linked, h.next_live, h.prev_live, h.ends_live, h.current_live⟩, fun _ _ => rfl⟩
  rcases isr80hCommand7_error hargs h with ⟨hempty, rfl⟩ | ⟨hname, r, process, k₁, hload, hend⟩
  · exact iff_of_true hpage (.inl hempty)
  rw [or_iff_right hname]
  rcases hend with ⟨hneg, rfl⟩ | ⟨hneg, hinject⟩
  · replace hload := processLoadSwitch_failed hload hneg
    by_cases hearly : processGetFreeSlot k = none ∨ (processStep k).1 = 0
    · rw [@processLoad_early _ (pageLoaded k) _ _ _ hlow hload hneg hearly]
      exact iff_of_true hpage hearly
    · refine iff_of_false (fun hrest => ?_) hearly
      obtain ⟨b, -, hlt, hfree, htaken⟩ :=
        @processLoad_leaks _ (pageLoaded k) _ _ _ hspares hlow hload hneg hearly
      rw [IsFree, hrest.heap b hlt] at htaken
      exact htaken hfree
  · obtain ⟨slot, hslot, hne, hregistered⟩ := processInjectArguments_registered hload hneg hinject
    refine iff_of_false (fun hrest => hregistered (congrFun hrest.processes slot)) ?_
    rintro (hnone | hnull)
    · exact absurd (hslot.symm.trans hnone) (Option.some_ne_none slot)
    · exact hne hnull

/-- The error of a load is handed on. -/
lemma isr80hCommand7_loadError {len : ℕ} {r : ℤ} (hargs : commandArguments k = some args)
    (hne : args ≠ 0) (hlen : strlen fuel k.kmem.mem args = some len) (hpos : len ≠ 0)
    (hload : processLoad (files (commandPath k.kmem.mem args)) (pageLoaded k) =
      some (r, process, k')) (hneg : r < 0) :
    isr80hCommand7InvokeSystemCommand fuel files k = some (.error r, k') := by
  have hswitch : processLoadSwitch (files (commandPath k.kmem.mem args)) (pageLoaded k) =
      some (r, process, k') := by
    rw [processLoadSwitch, hload, Option.map_some, if_neg (by omega)]
  rw [isr80hCommand7_eq hargs, if_neg hne, hlen, Option.bind_some, if_neg hpos, hswitch,
    Option.bind_some, if_pos hneg]

/-- What a task sees at an address whose page is mapped to itself. -/
lemma identity_byte {mem : Mem} {dir : Word} (hget : Identity mem dir) (va : Word) :
    pagingGetPhysicalAddress mem dir va = va ∧ pagedByte mem dir va = some (mem va) := by
  have haligned := pagingAlignToLowerPage_aligned va
  have haddr : pagingGetPhysicalAddress mem dir va = va := by
    rw [pagingGetPhysicalAddress, hget _ haligned, and_page_or_flags haligned (by decide), add_sub_cancel]
  refine ⟨haddr, ?_⟩
  rw [pagedByte, haddr, if_neg]
  rw [hget _ haligned, BitVec.and_or_distrib_right]
  intro h0
  have hbit := congrArg (fun w => w.getLsbD 0) h0
  simp at hbit

lemma identity_word {mem : Mem} {dir : Word} (hget : Identity mem dir) (va : Word) :
    pagedWord mem dir va = some (read32 mem va) := by
  rw [pagedWord, (identity_byte hget va).2, (identity_byte hget _).2, (identity_byte hget _).2,
    (identity_byte hget _).2]
  rfl

/-- The word on the task's stack. -/
lemma CallTask.stackItem {c : ℕ} {item : Word} {str : List Byte} {dir : Word} {table : ℕ → Word}
    (h : CallTask k c item str dir table) (hget : Identity k.kmem.mem dir) :
    taskDirectory k k.currentTask = dir ∧ taskGetStackItem k k.currentTask 0 = some (item, pageLoaded k) := by
  have hdirectory : taskDirectory k k.currentTask = dir := by
    rw [h.current]
    exact h.pageDir.chunk_word
  refine ⟨hdirectory, ?_⟩
  rw [taskGetStackItem, hdirectory, h.current, h.esp]
  change Option.map _ (pagedWord _ _ 0x3FF000) = _
  rw [identity_word hget, h.stack, Option.map_some, pageLoaded, h.current]

lemma CallTask.arguments {c : ℕ} {item : Word} {str : List Byte} {dir : Word} {table : ℕ → Word}
    (h : CallTask k c item str dir table) (hget : Identity k.kmem.mem dir) :
    commandArguments k = some item := by
  obtain ⟨hdirectory, hitem⟩ := h.stackItem hget
  rw [commandArguments, hitem, Option.map_some]
  change some (pagingGetPhysicalAddress k.kmem.mem (taskDirectory k k.currentTask) item) = _
  rw [hdirectory, (identity_byte hget _).1]

/-- The first task with a string, its pages mapped to themselves. -/
lemma oneTask_withString (taken : ℕ) {item : Word} {str : List Byte} (hlen : item.toNat + str.length < 0x7E00) :
    ∃ dir table, CallTask (withString oneTask taken item str) (1030 + taken) item str dir table ∧
      Identity (withString oneTask taken item str).kmem.mem dir := by
  obtain ⟨-, -, dir, table, -, hfirst, hidentity⟩ := oneTask_first
  obtain ⟨hcall, hget⟩ := hfirst.withString taken hlen
  exact ⟨dir, table, hcall, fun v hv => (hget v hv).trans (hidentity v hv)⟩

/-- A task with one character for a name, and memory for a process structure only. -/
def oneName : Kernel := withString oneTask 24567 0x2000 [1]

lemma oneName_ready : ∃ dir table, CallTask oneName 25597 0x2000 [1] dir table ∧ Identity oneName.kmem.mem dir :=
  oneTask_withString 24567 (by decide)

/-- The load gets the process structure and no more. -/
lemma CallTask.command {dir : Word} {table : ℕ → Word} (h : CallTask k 25597 0x2000 [1] dir table)
    (hget : Identity k.kmem.mem dir) :
    (dataStep missing k).2.2 = (processStep k).2 ∧ Frontier (processStep k).2 25600 ∧ ∃ k',
      isr80hCommand7InvokeSystemCommand 2 (fun _ => missing) k = some (.error (-enomem), k') ∧
      k'.kmem = (processStep k).2 := by
  have hlen : strlen 2 k.kmem.mem 0x2000 = some 1 := strlen_eq h.bytes (by decide) (by simp)
  obtain ⟨-, hfull, hdata, k', hload, hkmem⟩ := @processLoad_fullPool (pageLoaded k) 0 25597 h.frontier
    (by omega) h.slot
  exact ⟨hdata, hfull, k', isr80hCommand7_loadError (h.arguments hget) (by decide) hlen (by omega) hload (by decide),
    hkmem⟩

theorem restored_iff_oneName : ∃ k',
    isr80hCommand7InvokeSystemCommand 2 (fun _ => missing) oneName = some (.error (-enomem), k') ∧
    (Restored oneName k' ↔ ((0x2000 : Word) = 0 ∨ oneName.kmem.mem 0x2000 = 0) ∨
      processGetFreeSlot oneName = none ∨ (processStep oneName).1 = 0) := by
  obtain ⟨dir, table, h, hget⟩ := oneName_ready
  obtain ⟨hdata, -, k', hcommand, -⟩ := h.command hget
  refine ⟨k', hcommand, restored_iff (h.arguments hget) (spares_missing _ _) ?_ hcommand⟩
  rw [hdata]
  exact low_processStep h.low

/-- With memory for the process structure only the call returns an error, and the heap has lost
the structure's blocks. -/
theorem restored_oneName : ∃ k',
    isr80hCommand7InvokeSystemCommand 2 (fun _ => missing) oneName = some (.error (-enomem), k') ∧
    ¬ Restored oneName k' := by
  obtain ⟨dir, table, h, hget⟩ := oneName_ready
  obtain ⟨-, hfull, k', hcommand, hkmem⟩ := h.command hget
  refine ⟨k', hcommand, fun hrest => ?_⟩
  have hfree : IsFree oneName.kmem.entries 25597 := h.frontier.free 25597 le_rfl (by omega)
  have htaken := hfull.taken 25597 (by omega)
  rw [← hkmem, IsFree] at htaken
  have hsame := hrest.heap 25597 (by omega)
  rw [hsame] at htaken
  exact htaken hfree

end AlphaOS.Processes
