import AlphaOS.CommandArguments
import AlphaOS.ProgramMap
import AlphaOS.TaskThreads

/-! The end of `kernel_main`: once the heap, the disks and the tables of the processor are set up, the
kernel gets its pages, loads the shell and goes to user mode in its task. From there the tasks are
threads. -/
namespace AlphaOS.Interrupts
open BlockHeap Console CString Elf Kheap Paging Processes Runs Tasks Threads WordMemory

/-- `classic_keyboard_init`, but for the callback. -/
def classicKeyboardInit (s : Computer) : Computer := outb (keyboardSetCapslock s .off) 0x64 0xAE

abbrev kernelFlags : Byte := (pagingIsWritable ||| pagingIsPresent ||| pagingAccessFromAll).setWidth 8

/-- The pages of the kernel are made and loaded. -/
def kernelPaging (k : Kernel) : Kernel :=
  let chunk := pagingNew4gb k.kmem kernelFlags
  pagingSwitch { k.withKmem chunk.2 with kernelChunk := chunk.1 } chunk.1

/-- `task_run_first_ever_task`. -/
def taskRunFirstEverTask (env : Environment) (s : Computer) : Option Running :=
  if s.kernel.currentTask = 0 then none else
  let task := s.kernel.taskHead
  let k := taskSwitch s.kernel task
  some ⟨s.withKernel k, resumedWith (k.tasks task).registers env k (.task task)⟩

/-- The `command_argument` of `kernel_main`, at `arg` on its stack. -/
def shellArgument (mem : Mem) (arg : Word) : Mem :=
  write32 (writeBytes mem arg (literal "SHELL.ELF" ++ [0])) (arg + 512) 0

/-- What the file layer does for the shell. -/
abbrev Environment.shell (env : Environment) : FileCalls := env.files (literal "0:/shell.elf")

/-- The end of `kernel_main`, once the keyboards are set up. A panic gives nothing. -/
def kernelRunShell (arg : Word) (env : Environment) (s : Computer) : Option Running :=
  (processLoadSwitch env.shell s.kernel).bind fun (res, process, k) =>
  if res ≠ allOk then none else
  let k := k.withKmem (k.kmem.withMem (shellArgument k.kmem.mem arg))
  (processInjectArguments env.fuel k process arg).bind fun injected =>
  taskRunFirstEverTask env (s.withKernel injected.2)

/-- The computer with the terminal, the kernel's pages and the keyboard set up. -/
def kernelInit (s : Computer) : Computer :=
  classicKeyboardInit ({ s with terminal := terminalInit s.terminal }.withKernel (kernelPaging s.kernel))

/-- `kernel_main` behind the set-up of the heap, the disks and the tables of the processor. -/
def kernelMain (arg : Word) (env : Environment) (s : Computer) : Option Running :=
  kernelRunShell arg env (kernelInit s)

variable {files : FileCalls} {k k' : Kernel} {slot : Fin maxProcesses} {res : ℤ} {process q dir : Word}
  {table : ℕ → Word} {size root arg : Word} {str : List Byte} {fuel : ℕ} {env : Environment}
  {s : Computer}

/-- A process that was loaded has its pages, and no allocations. -/
theorem processLoad_live (hmeets : LoadMeets files k)
    (hload : processLoad files k = some (res, process, k')) (hres : ¬ res < 0) :
    ∃ dir table, LiveProcess k' process dir table ∧ ∀ i, k'.record process i = ⟨0, 0⟩ := by
  cases hslot : processGetFreeSlot k with
  | none =>
    rw [processLoad_none hslot] at hload
    simp only [Option.some.injEq, Prod.mk.injEq] at hload
    rw [← hload.1] at hres
    exact absurd (by decide) hres
  | some slot =>
    rw [processLoad_some hslot] at hload
    obtain ⟨-, rfl, hp, hs, mem, hmap, rfl⟩ := processLoadForSlot_stages hload hres
    have htask := hmeets.task slot hslot hp hs
    obtain ⟨B, dir, table, hgrown, hdir, hpointers, -⟩ :=
      taskNew_held (loadedKernel files k slot) (processStep k).1 htask
    have hself := startedKernel_procs (loadedKernel files k slot) (processStep k).1
    rw [taskNew_procs _ _ htask, loadedKernel_procs] at hself
    rw [← startedKernel_pageDirectory] at hdir hpointers
    rw [← startedKernel_kmem] at hdir hgrown
    generalize startedKernel (loadedKernel files k slot) (processStep k).1 = started at *
    have hempty : ∀ i, started.record (processStep k).1 i = ⟨0, 0⟩ := fun i => by
      rw [Kernel.record, hself]
      rfl
    refine ⟨dir, table, ⟨(processMapMemory_keeps hdir hmap).pageDir, fun g hg => ?_, fun i hne => ?_⟩,
      hempty⟩
    · obtain ⟨w, hw, rfl⟩ : ∃ w, (w = started.pageDirectory (processStep k).1 ∨ w = dir ∨
          ∃ i < 1024, w = table i) ∧ g = pageOf w := by
        rcases hg with rfl | rfl | ⟨i, hi, rfl⟩
        · exact ⟨_, .inl rfl, rfl⟩
        · exact ⟨_, .inr (.inl rfl), rfl⟩
        · exact ⟨_, .inr (.inr ⟨i, hi, rfl⟩), rfl⟩
      obtain ⟨b, hb, rfl⟩ := hpointers w (.inr hw)
      have hheld : Held started.kmem b := ⟨(hgrown.fresh b hb).1, hgrown.taken b hb⟩
      have hlt := hheld.1
      exact ⟨b, pageOf_blockAddr (by omega), hheld.allocated⟩
    · have hzero : (started.record (processStep k).1 i).ptr = 0 := by rw [hempty]
      exact absurd hzero hne

/-! `process_inject_arguments` returns, with room for the arguments or without. -/

/-- An allocation of one block that succeeds had a block and a slot. -/
lemma processMalloc_room (hone : (heapBlocksFor size).toNat = 1) (hptr : (processMalloc k q size).1 ≠ 0) :
    k.kmem.Room 1 ∧ 0 < (freeSlots k q).card := by
  rw [processMalloc] at hptr
  rcases kzalloc_single k.kmem hone with ⟨-, heq⟩ | ⟨b, hb, hfree, heq⟩
  · rw [heq] at hptr
    exact absurd (if_pos rfl) (fun h => hptr (congrArg Prod.fst h))
  · refine ⟨⟨b, hb, fun j h1 h2 => ?_⟩, ?_⟩
    · obtain rfl : j = b := by omega
      exact hfree
    · rw [heq] at hptr
      dsimp only at hptr
      rw [if_neg (blockAddr_ne_zero (by omega))] at hptr
      cases hslot : processFindFreeAllocationIndex (k.procs q) with
      | none =>
        rw [hslot] at hptr
        exact absurd rfl hptr
      | some index =>
        have hempty := (processFindFreeAllocationIndex_eq_some.1 hslot).1
        exact Finset.card_pos.2 ⟨index, Finset.mem_filter.2 ⟨Finset.mem_univ _, hempty⟩⟩

variable {k₀ : Kernel} {current argv : Word} {args done : List (Word × List Byte)} {n : ℕ}

/-- The copying pass. -/
lemma Injected.returns (h : Injected k₀ k q dir table argv n done) (h₀ : LiveProcess k₀ q dir table)
    (hargs : ArgumentsAt k₀.kmem.mem current args)
    (hoff : ∀ d ∈ args, ∀ x, InRange d.1 516 x → Outside k₀ q table x)
    (hfuel : args.length ≤ fuel) :
    ∃ r, processInjectArgumentsLoop q argv fuel done.length current k = some r := by
  induction args generalizing k done current fuel with
  | nil =>
    have hcurrent : current = 0 := hargs
    cases fuel <;> exact ⟨(0, k), by rw [processInjectArgumentsLoop, if_pos hcurrent]⟩
  | cons d args ih =>
    obtain ⟨argument, str⟩ := d
    obtain ⟨rfl, hne, hzero, hlength, hbytes, hrest⟩ := hargs
    have hfirst := hoff (current, str) List.mem_cons_self
    rw [List.length_cons] at hfuel
    cases fuel with
    | zero => omega
    | succ fuel =>
      rw [processInjectArgumentsLoop, if_neg hne]
      dsimp only
      by_cases hptr : (processMalloc k q 512).1 = 0
      · rw [if_pos hptr]
        exact ⟨_, rfl⟩
      · rw [if_neg hptr]
        obtain ⟨hroom, hslots⟩ := processMalloc_room (by decide) hptr
        have hcard := h.granted.slots
        have hle := freeSlots_card_le k₀ q
        rw [List.length_cons, List.length_map] at hcard
        obtain ⟨-, hstep⟩ := h.step h₀ hbytes hzero hlength hfirst hroom (by omega) (by omega)
        have hnext := @argumentNext_congr _ _ current fun x hx =>
          ((hfirst x hx).view _).trans (hstep.granted.mem_untouched (hfirst x hx).untouched)
        rw [← hnext] at hrest
        obtain ⟨r, hr⟩ := ih hstep hrest (fun d hd => hoff d (List.mem_cons_of_mem _ hd))
          (show args.length ≤ fuel by omega)
        rw [List.length_append, List.length_singleton] at hr
        exact ⟨r, hr⟩

/-- A list in memory that nobody else uses is injected or there is no room for it. -/
theorem processInjectArguments_returns (h : LiveProcess k q dir table)
    (hargs : ArgumentsAt (k.view q) root args) (hlen : args.length < 1024)
    (hoff : ∀ d ∈ args, ∀ x, InRange d.1 516 x → Outside k q table x) (hfuel : args.length ≤ fuel) :
    ∃ r, processInjectArguments fuel k q root = some r := by
  rw [processInjectArguments, hargs.count hfuel, Option.bind_some]
  by_cases hzero : args.length = 0
  · rw [if_pos hzero]
    exact ⟨_, rfl⟩
  rw [if_neg hzero]
  have hone := argvBlocks (show 0 < args.length by omega) hlen
  dsimp only
  by_cases hptr : (processMalloc k q (4 * BitVec.ofNat 32 args.length)).1 = 0
  · rw [if_pos hptr]
    exact ⟨_, rfl⟩
  rw [if_neg hptr]
  obtain ⟨hroom, hslots⟩ := processMalloc_room hone hptr
  obtain ⟨b, hb, heq, -, -, -, hgranted⟩ := h.granted.malloc hone hroom (by simpa using hslots)
  rw [heq]
  have hinjected : Injected k (processMalloc k q (4 * BitVec.ofNat 32 args.length)).2 q dir table
      (blockAddr b) args.length [] := ⟨hgranted, by simp, by simp, by simp⟩
  have hstored : ArgumentsAt k.kmem.mem root args :=
    hargs.congr fun d hd x hx => ((hoff d hd x hx).view k).symm
  obtain ⟨r, hr⟩ := Injected.returns hinjected h hstored hoff hfuel
  rw [List.length_nil] at hr
  exact ⟨_, congrArg (Option.map _) hr⟩

/-! The shell's task is the first, and the only one. -/

lemma pagingNewTables_linked {s : Kmem} (h : Linked s.entries) (directory flags : Word) (m i : ℕ)
    (offset : Word) : Linked (pagingNewTables directory flags m i offset s).entries := by
  induction m generalizing s i offset with
  | zero => exact h
  | succ m ih =>
    have hnext : ∀ mem, Linked ((kzalloc s 4096).2.withMem mem).entries := fun _ => h.kzalloc 4096
    rw [pagingNewTables]
    exact ih (hnext _) _ _

lemma pagingNew4gb_linked {s : Kmem} (h : Linked s.entries) (flags : Byte) :
    Linked (pagingNew4gb s flags).2.entries := by
  obtain ⟨s₁, hs₁⟩ : ∃ s₁, kzalloc s 4096 = ((kzalloc s 4096).1, s₁) := ⟨_, rfl⟩
  have hdir : Linked s₁.entries := by
    have hzeroed := h.kzalloc 4096
    rwa [hs₁] at hzeroed
  obtain ⟨t, ht⟩ : ∃ t, pagingNewTables (kzalloc s 4096).1 (flags.setWidth 32) 1024 0 0 s₁ = t :=
    ⟨_, rfl⟩
  have htables : Linked t.entries := ht ▸ pagingNewTables_linked hdir _ _ _ _ _
  rw [@pagingNew4gb_eq _ _ _ _ _ _ (kzalloc t 4).1 hs₁ ht rfl]
  exact htables.kzalloc 4

/-- The pages of the kernel come out of its heap, and the tasks have nothing to do with them. -/
lemma kernelPaging_eq {chunk : Word} {s : Kmem} (h : pagingNew4gb k.kmem kernelFlags = (chunk, s)) :
    kernelPaging k = pagingSwitch { k.withKmem s with kernelChunk := chunk } chunk := by
  rw [kernelPaging, h]

lemma kernelPaging_linked (h : Linked k.kmem.entries) : Linked (kernelPaging k).kmem.entries := by
  obtain ⟨⟨chunk, s⟩, hnew⟩ : ∃ r, pagingNew4gb k.kmem kernelFlags = r := ⟨_, rfl⟩
  have hlinked := pagingNew4gb_linked h kernelFlags
  rw [hnew] at hlinked
  rw [kernelPaging_eq hnew]
  exact hlinked

/-- The kernel is in user mode for the first time. -/
structure Booted (env : Environment) (r : Running) (t : Word) : Prop where
  sound : Sound r.computer.kernel [t]
  current : r.computer.kernel.currentTask = t
  foreground : r.computer.kernel.currentProcess = (r.computer.kernel.tasks t).process
  pages : r.computer.kernel.currentDirectory = taskDirectory r.computer.kernel t
  user : r.user = { (r.computer.kernel.tasks t).registers with ebp := env.ebp, flags := env.flags }

/-- `arg` lies on the stack of `kernel_main`, below the start of the stack and above the kernel's code. -/
def OnKernelStack (arg : Word) : Prop := 0x100000 ≤ arg.toNat ∧ arg.toNat + 516 ≤ 0x200000

lemma OnKernelStack.toNat (h : OnKernelStack arg) {x : Word} (hx : InRange arg 516 x) :
    0x100000 ≤ x.toNat ∧ x.toNat < 0x200000 := by
  obtain ⟨j, hj, rfl⟩ := exists_of_inRange hx
  have hend := h.2
  rw [toNat_add_ofNat (by omega)]
  exact ⟨h.1.trans (Nat.le_add_right _ _), by omega⟩

/-- The stack is nothing of a process. -/
lemma OnKernelStack.outside (h : OnKernelStack arg) {a : ℕ} (ha : a < 25600) (hq : q = blockAddr a)
    (hlive : LiveProcess k q dir table) {x : Word} (hx : InRange arg 516 x) : Outside k q table x := by
  obtain ⟨hlow, hhigh⟩ := h.toNat hx
  have hpage : pageOf x < 512 := by
    rw [pageOf]
    omega
  refine ⟨⟨fun b _ _ => by omega, fun hin => ?_⟩, fun hin => ?_, fun hin => ?_⟩
  · obtain ⟨b, hb, -⟩ := hlive.held _ (tablePages_subset hin)
    omega
  · have htable := (inTable_toNat hin).2
    omega
  · obtain ⟨j, hj, rfl⟩ := exists_of_inRange (inRecord_subset hin)
    have haddr := blockAddr_toNat (b := a) (by omega)
    rw [hq, toNat_add_ofNat (by omega)] at hhigh
    omega

/-- The argument is a list of one. -/
lemma OnKernelStack.argument (h : OnKernelStack arg) (mem : Mem) :
    ArgumentsAt (shellArgument mem arg) arg [(arg, literal "SHELL.ELF")] := by
  have hlow := h.1
  have hend := h.2
  have hne : arg ≠ 0 := by
    rintro rfl
    exact absurd hlow (by decide)
  have hlen : (literal "SHELL.ELF" ++ [0]).length = 10 := by decide
  refine ⟨rfl, hne, by decide, by decide, ?_, ?_⟩
  · have hbytes : BytesAt (writeBytes mem arg (literal "SHELL.ELF" ++ [0])) arg
        (literal "SHELL.ELF" ++ [0]) := writeBytes_bytesAt (by rw [hlen]; omega)
    refine hbytes.congr fun j hj => if_neg fun hin => ?_
    rw [hlen] at hj
    have hplace : (arg + 512).toNat = arg.toNat + 512 := toNat_add_ofNat (k := 512) (by omega)
    have hbyte := toNat_add_ofNat (a := arg) (k := j) (by omega)
    change (arg + BitVec.ofNat 32 j - (arg + 512)).toNat < 4 at hin
    rw [BitVec.toNat_sub, hplace, hbyte] at hin
    omega
  · exact read32_write32 _ _ _

lemma OnKernelStack.argument_sameOff (h : OnKernelStack arg) (mem : Mem) :
    SameOff {g | g < 512} mem (shellArgument mem arg) := by
  intro x hx
  have hend := h.2
  have hlen : (literal "SHELL.ELF" ++ [0]).length = 10 := by decide
  have hout : ¬ InRange arg 516 x := fun hin => hx (by
    have hhigh := (h.toNat hin).2
    change pageOf x < 512
    rw [pageOf]
    omega)
  have hword : ¬ InRange (arg + 512) 4 x := fun hin =>
    hout ((inRange_split arg x (show 512 + 4 < 2 ^ 32 by omega)).1.2 (.inr hin))
  rw [shellArgument, write32, if_neg hword, writeBytes_of_not fun j hj heq => hout ?_]
  rw [← heq]
  exact inRange_ofNat (by omega) (by omega)

/-- The kernel in which the shell's arguments are injected. -/
def shellKernel (arg process : Word) (k : Kernel) : Kernel :=
  { k.withKmem (k.kmem.withMem (shellArgument k.kmem.mem arg)) with currentProcess := process }

lemma kernelRunShell_eq (hload : processLoad env.shell s.kernel = some (0, process, k)) :
    kernelRunShell arg env s =
      (processInjectArguments env.fuel (shellKernel arg process k) process arg).bind fun injected =>
        taskRunFirstEverTask env (s.withKernel injected.2) := by
  rw [kernelRunShell, processLoadSwitch, hload]
  rfl

/-- With an error the kernel panics. -/
lemma kernelRunShell_loads {r : Running} (h : kernelRunShell arg env s = some r) :
    ∃ process k, processLoad env.shell s.kernel = some (0, process, k) := by
  obtain ⟨⟨res, process, k'⟩, hswitch, hrest⟩ := Option.bind_eq_some_iff.1 h
  obtain ⟨⟨res', process', k⟩, hload, heq⟩ := Option.map_eq_some_iff.1 hswitch
  obtain ⟨rfl, -⟩ := Prod.mk.inj heq
  by_cases hres : res' = allOk
  · rw [hload, hres]
    exact ⟨_, _, rfl⟩
  · exact absurd hrest (by simp [hres])

section Shell
variable (hl : Linked s.kernel.kmem.entries) (hhead : s.kernel.taskHead = 0)
  (hfiles : env.shell.Respects (processBlock s.kernel) (processStep s.kernel).2)
  (hmeets : LoadMeets env.shell s.kernel)
  (hload : processLoad env.shell s.kernel = some (0, process, k)) (harg : OnKernelStack arg)
include hl hhead hfiles hmeets hload

/-- The task of the loaded shell is the only one. -/
lemma shellKernel_sound : ∃ a b, a < 25600 ∧ process = blockAddr a ∧
    Sound (shellKernel arg process k) [blockAddr b] ∧
    ((shellKernel arg process k).tasks (blockAddr b)).process = process := by
  have hnone : ∀ b ∈ (∅ : Set ℕ), b < 25600 ∧ Pinned s.kernel.kmem.entries b 1 := by simp
  rw [← Set.empty_union (processBlock s.kernel)] at hfiles
  obtain ⟨-, heffect⟩ := processLoad_effect hl hnone hfiles hmeets hload
  obtain ⟨a, b, hspawns, hprocess⟩ := heffect.resolve_left (by simp)
  obtain ⟨hsound, -, howner⟩ := Sound.first hl hhead hspawns
  have hblock : process = blockAddr a := hprocess.resolve_left (lt_irrefl 0)
  exact ⟨a, b, hspawns.process_lt, hblock, hsound.frame (SameTasks.list ⟨rfl, rfl, rfl, rfl⟩)
    hsound.current (fun _ _ _ => rfl) (pins_withMem _ _ _), howner.trans hblock.symm⟩

include harg

/-- Its arguments are injected, or there is no room for them. -/
lemma shellKernel_injects (hfuel : 1 ≤ env.fuel) :
    ∃ injected, processInjectArguments env.fuel (shellKernel arg process k) process arg =
      some injected := by
  obtain ⟨a, -, ha, hblock, -⟩ := @shellKernel_sound _ _ arg _ _ hl hhead hfiles hmeets hload
  obtain ⟨dir, table, hlive, hempty⟩ := processLoad_live hmeets hload (lt_irrefl 0)
  have hmem := harg.argument_sameOff k.kmem.mem
  have hlow : Disjoint {g | g < 512} (dirPages (k.pageDirectory process) dir table) := by
    refine Set.disjoint_left.2 fun g hg hin => ?_
    obtain ⟨b, rfl, -⟩ := hlive.held g hin
    have hlt : 4096 + b < 512 := hg
    omega
  have hafter := @LiveProcess.withKmem _ _ _ _ hlive
    (k.kmem.withMem (shellArgument k.kmem.mem arg)) _ hmem hlow fun _ _ hc => hc
  have hshell : LiveProcess (shellKernel arg process k) process dir table :=
    ⟨hafter.pageDir, hafter.held, hafter.live⟩
  have hoff : ∀ d ∈ [(arg, literal "SHELL.ELF")], ∀ x, InRange d.1 516 x →
      Outside (shellKernel arg process k) process table x := fun d hd x hx => by
    obtain rfl := List.mem_singleton.1 hd
    exact harg.outside ha hblock hshell hx
  have hargs : ArgumentsAt ((shellKernel arg process k).view process) arg
      [(arg, literal "SHELL.ELF")] :=
    (harg.argument k.kmem.mem).congr fun d hd x hx => (hoff d hd x hx).view _
  exact processInjectArguments_returns hshell hargs (by simp) hoff hfuel

lemma kernelRunShell_booted (hfuel : 1 ≤ env.fuel ∧ env.fuel < 2 ^ 29) :
    ∃ r t, kernelRunShell arg env s = some r ∧ Booted env r t := by
  obtain ⟨-, b, -, -, hsound, howner⟩ := @shellKernel_sound _ _ arg _ _ hl hhead hfiles hmeets hload
  obtain ⟨⟨res, k'⟩, hinject⟩ :=
    @shellKernel_injects _ _ arg _ _ hl hhead hfiles hmeets hload harg hfuel.1
  have hmem : blockAddr b ∈ [blockAddr b] := List.mem_singleton_self _
  rw [kernelRunShell_eq hload, hinject, Option.bind_some]
  have hown : processInjectArguments env.fuel (shellKernel arg process k)
      ((shellKernel arg process k).tasks (blockAddr b)).process arg = some (res, k') := by
    rw [howner]
    exact hinject
  obtain ⟨hafter, hsame⟩ := hsound.inject hmem hfuel.2 hown
  have hcurrent : k'.currentTask = blockAddr b := List.mem_singleton.1 hafter.current
  have hfirst : k'.taskHead = blockAddr b :=
    List.mem_singleton.1 (hafter.tasks.linked.head_mem (by simp))
  have hne : k'.currentTask ≠ 0 := hafter.ne_zero hafter.current
  have hswitched := hafter.taskSwitch hmem
  have hprocess : (k'.tasks (blockAddr b)).process = process := by rw [hsame.tasks, howner]
  have hrun : taskRunFirstEverTask env (s.withKernel k') = some
      ⟨s.withKernel (taskSwitch k' (blockAddr b)), resumedWith (k'.tasks (blockAddr b)).registers env
        (taskSwitch k' (blockAddr b)) (.task (blockAddr b))⟩ := by
    rw [taskRunFirstEverTask, Computer.withKernel_kernel, if_neg hne, hfirst]
    rfl
  refine ⟨_, blockAddr b, hrun, hswitched, rfl, ?_, rfl, rfl⟩
  exact hsame.currentProcess.trans hprocess.symm

end Shell

lemma kernelInit_kernel (s : Computer) : (kernelInit s).kernel = kernelPaging s.kernel := rfl

lemma kernelPaging_taskHead (k : Kernel) : (kernelPaging k).taskHead = k.taskHead := by
  obtain ⟨⟨chunk, s⟩, hnew⟩ : ∃ r, pagingNew4gb k.kmem kernelFlags = r := ⟨_, rfl⟩
  rw [kernelPaging_eq hnew]
  rfl

/-- The computer in front of the first load, with a shell of one segment. -/
def firstComputer : Computer := ⟨zeroKernel emptyKmem, ⟨fun _ => 0, 0, 0, []⟩, .off, []⟩

def firstEnvironment : Environment where
  scancode := 0
  files := fun _ => serve (oneSegment codeSegment)
  buf := 0x1FE000
  filename := 0x1FE400
  path := 0x1FE500
  fuel := 1
  ebp := 0
  flags := 0x202

end AlphaOS.Interrupts
