import AlphaOS.Keyboard
import AlphaOS.LoadTasks
import AlphaOS.ProcessRelease
import AlphaOS.TaskSchedule
import AlphaOS.TaskStrings

/-! The scheduler's tasks, their processes and the allocations of these as owners of blocks, and what
the kernel's operations do to them. Nothing here depends on the contents of memory. -/
namespace AlphaOS.Processes
open BlockHeap Elf Keyboard Kheap Paging Tasks WordMemory

/-- What a task owns in the heap. -/
inductive Part
  | task
  | process
  | record (i : Fin maxProgramAllocations)
  deriving DecidableEq

def part (k : Kernel) (t : Word) : Part → Word
  | .task => t
  | .process => (k.tasks t).process
  | .record i => (k.record (k.tasks t).process i).ptr

/-- The pointers of the tasks of a list. -/
def owned (k : Kernel) (live : List Word) (x : Word × Part) : Word :=
  if x.1 ∈ live then part k x.1 x.2 else 0

/-- The tasks are those of the scheduler's list, one of them is the current one, and each of them and
each of its pointers has an allocation of its own. -/
structure Sound (k : Kernel) (live : List Word) : Prop where
  tasks : TaskListOk k live
  current : k.currentTask ∈ live
  process : ∀ t ∈ live, (k.tasks t).process ≠ 0
  owns : Owns k.kmem (owned k live)

/-- The list of tasks is the same, with the same processes. -/
structure SameList (k k' : Kernel) : Prop where
  next : ∀ t, (k'.tasks t).next = (k.tasks t).next
  prev : ∀ t, (k'.tasks t).prev = (k.tasks t).prev
  process : ∀ t, (k'.tasks t).process = (k.tasks t).process
  taskHead : k'.taskHead = k.taskHead
  taskTail : k'.taskTail = k.taskTail

/-- A task is the same, but for its links. -/
structure SameTask (k k' : Kernel) (t : Word) : Prop where
  registers : (k'.tasks t).registers = (k.tasks t).registers
  pageDirectory : (k'.tasks t).pageDirectory = (k.tasks t).pageDirectory
  process : (k'.tasks t).process = (k.tasks t).process

/-- And so is its process. -/
structure Preserved (k k' : Kernel) (t : Word) : Prop extends SameTask k k' t where
  record : k'.procs (k.tasks t).process = k.procs (k.tasks t).process

/-- The bytes of what the kernel keeps apart from memory: the heap's table, and of each task its
structure and that of its process. -/
def InRecords (k : Kernel) (live : List Word) (x : Word) : Prop :=
  InTable x ∨ ∃ t ∈ live, InRange t 64 x ∨ InRange (k.tasks t).process 9364 x

/-- A byte that is none of these, whatever tasks there are. -/
def OffRecords (k : Kernel) (x : Word) : Prop := ∀ live, TaskListOk k live → ¬ InRecords k live x

variable {k k' : Kernel} {live : List Word} {t u ptr size process item : Word} {s : Kmem} {b : ℕ}

lemma SameTask.trans {k'' : Kernel} (h : SameTask k k' t) (h' : SameTask k' k'' t) :
    SameTask k k'' t :=
  ⟨h'.registers.trans h.registers, h'.pageDirectory.trans h.pageDirectory,
    h'.process.trans h.process⟩

lemma SameTasks.sameTask (h : SameTasks k k') (t : Word) : SameTask k k' t := by
  have htasks := h.tasks
  exact ⟨by rw [htasks], by rw [htasks], by rw [htasks]⟩


lemma SameTasks.list (h : SameTasks k k') : SameList k k' where
  next t := by rw [h.tasks]
  prev t := by rw [h.tasks]
  process t := by rw [h.tasks]
  taskHead := h.taskHead
  taskTail := h.taskTail

lemma TaskListOk.congr (h : TaskListOk k live) (hlist : SameList k k') (hcurrent : k'.currentTask ∈ live) :
    TaskListOk k' live := by
  have hnext : (fun t => (k'.tasks t).next) = fun t => (k.tasks t).next := funext hlist.next
  have hprev : (fun t => (k'.tasks t).prev) = fun t => (k.tasks t).prev := funext hlist.prev
  refine ⟨?_, fun t ht => ?_, fun t ht => ?_, ?_, .inr hcurrent⟩
  · rw [hnext, hprev, hlist.taskHead, hlist.taskTail]
    exact h.linked
  · rw [hlist.next]
    exact h.next_live t ht
  · rw [hlist.prev]
    exact h.prev_live t ht
  · rw [hlist.taskHead, hlist.taskTail]
    exact h.ends_live

lemma owned_mem (ht : t ∈ live) (x : Part) : owned k live (t, x) = part k t x := if_pos ht

lemma owned_not (ht : t ∉ live) (x : Part) : owned k live (t, x) = 0 := if_neg ht

lemma Sound.ne_zero (h : Sound k live) (ht : t ∈ live) : t ≠ 0 := h.tasks.linked.ne_null t ht

lemma Sound.pinned (h : Sound k live) :
    ∀ b ∈ ownedBlocks (owned k live), b < 25600 ∧ Pinned k.kmem.entries b 1 :=
  fun _ hb => ⟨hb.1, h.owns.block_pinned hb⟩

/-- No two tasks have the same process. -/
lemma Sound.process_injective (h : Sound k live) (ht : t ∈ live) (hu : u ∈ live)
    (heq : (k.tasks t).process = (k.tasks u).process) : t = u := by
  have hsame : owned k live (t, .process) = owned k live (u, .process) := by
    rw [owned_mem ht, owned_mem hu]
    exact heq
  have hne : owned k live (t, .process) ≠ 0 := by
    rw [owned_mem ht]
    exact h.process t ht
  exact congrArg Prod.fst (h.owns.injective _ _ hsame hne)

/-- The pointers are the same when the tasks, their processes and their records are. -/
lemma owned_congr (hlist : SameList k k')
    (hrecords : ∀ t ∈ live, ∀ i, (k'.record (k.tasks t).process i).ptr =
      (k.record (k.tasks t).process i).ptr) : owned k' live = owned k live := by
  funext ⟨t, x⟩
  by_cases ht : t ∈ live
  · rw [owned_mem ht, owned_mem ht]
    cases x with
    | task => rfl
    | process => exact hlist.process t
    | record i =>
      simp only [part, hlist.process]
      exact hrecords t ht i
  · rw [owned_not ht, owned_not ht]

theorem Sound.frame (h : Sound k live) (hlist : SameList k k') (hcurrent : k'.currentTask ∈ live)
    (hrecords : ∀ t ∈ live, ∀ i, (k'.record (k.tasks t).process i).ptr =
      (k.record (k.tasks t).process i).ptr)
    (hpins : Pins (ownedBlocks (owned k live)) k.kmem k'.kmem) : Sound k' live := by
  refine ⟨TaskListOk.congr h.tasks hlist hcurrent, hcurrent, fun t ht => ?_, ?_⟩
  · rw [hlist.process]
    exact h.process t ht
  · rw [owned_congr hlist hrecords]
    exact h.owns.pins hpins

/-- An operation that only allocates and frees for itself. -/
lemma Sound.withKmem (h : Sound k live) (hpins : Pins (ownedBlocks (owned k live)) k.kmem s) :
    Sound (k.withKmem s) live :=
  h.frame (SameTasks.list ⟨rfl, rfl, rfl, rfl⟩) h.current (fun _ _ _ => rfl) hpins

/-- A task may be switched to. -/
lemma Sound.taskSwitch (h : Sound k live) (ht : t ∈ live) : Sound (taskSwitch k t) live :=
  h.frame ⟨fun _ => rfl, fun _ => rfl, fun _ => rfl, rfl, rfl⟩ ht (fun _ _ _ => rfl) (Pins.refl _ _)

lemma Sound.pagingSwitch (h : Sound k live) (directory : Word) :
    Sound (pagingSwitch k directory) live :=
  h.frame ⟨fun _ => rfl, fun _ => rfl, fun _ => rfl, rfl, rfl⟩ h.current (fun _ _ _ => rfl)
    (Pins.refl _ _)

/-- The registers of a task are stored in it. -/
lemma Sound.saveRegisters (h : Sound k live) (t : Word) (registers : Registers) :
    Sound (k.setTask t { k.tasks t with registers := registers }) live := by
  have hfield : ∀ {β : Type} (field : Task → β),
      (∀ v : Task, field { v with registers := registers } = field v) → ∀ u,
      field ((k.setTask t { k.tasks t with registers := registers }).tasks u) = field (k.tasks u) := by
    intro β field hset u
    rw [Kernel.setTask_tasks]
    by_cases hu : u = t
    · rw [hu, Function.update_self, hset]
    · rw [Function.update_of_ne hu]
  exact h.frame ⟨hfield Task.next fun _ => rfl, hfield Task.prev fun _ => rfl,
    hfield Task.process fun _ => rfl, rfl, rfl⟩ h.current (fun _ _ _ => rfl) (Pins.refl _ _)

/-- The scheduler goes to a task of the list. -/
lemma Sound.next_mem (h : Sound k live) : successor k k.currentTask ∈ live := by
  obtain ⟨a, b, hsplit⟩ := List.append_of_mem h.current
  have htasks := h.tasks
  rw [hsplit] at htasks
  have hchain := htasks.isChain_successor
  cases b with
  | nil =>
    cases a with
    | nil =>
      obtain ⟨hnext, -⟩ := List.isChain_cons_cons.1 hchain
      simp [hsplit, hnext]
    | cons x a =>
      obtain ⟨hnext, -⟩ := List.isChain_cons_cons.1 hchain
      simp [hsplit, hnext]
  | cons x b =>
    obtain ⟨hnext, -⟩ := List.isChain_cons_cons.1 hchain
    simp [hsplit, hnext]

/-! Records of a process. -/

/-- A record of the process of a task is set. -/
lemma owned_setRecord (h : Sound k live) (ht : t ∈ live) (i : Fin maxProgramAllocations)
    (a : ProcessAllocation) (s : Kmem) :
    owned ((k.withKmem s).setProcess (k.tasks t).process
      (setAllocation (k.procs (k.tasks t).process) i a)) live =
      Function.update (owned k live) (t, .record i) a.ptr := by
  funext ⟨u, x⟩
  by_cases hu : u ∈ live
  · rw [owned_mem hu]
    by_cases hut : u = t
    · subst hut
      cases x with
      | record j =>
        by_cases hji : j = i
        · rw [hji, Function.update_self]
          simp [part, Kernel.record, setAllocation]
        · have hne : ((u, .record j) : Word × Part) ≠ (u, .record i) := by simpa using hji
          rw [Function.update_of_ne hne, owned_mem hu]
          simp [part, Kernel.record, setAllocation, hji]
      | _ =>
        rw [Function.update_of_ne (by simp), owned_mem hu]
        rfl
    · have hne : ((u, x) : Word × Part) ≠ (t, .record i) := fun heq => hut (congrArg Prod.fst heq)
      rw [Function.update_of_ne hne, owned_mem hu]
      cases x with
      | record j =>
        have hother : (k.tasks u).process ≠ (k.tasks t).process := fun heq =>
          hut (h.process_injective hu ht heq)
        simp [part, Kernel.record, hother]
      | _ => rfl
  · have hne : ((u, x) : Word × Part) ≠ (t, .record i) := by
      intro heq
      obtain rfl : u = t := congrArg Prod.fst heq
      exact hu ht
    rw [owned_not hu, Function.update_of_ne hne, owned_not hu]

theorem Sound.setRecord (h : Sound k live) (ht : t ∈ live) (i : Fin maxProgramAllocations)
    (a : ProcessAllocation) (howns : Owns s (Function.update (owned k live) (t, .record i) a.ptr)) :
    Sound ((k.withKmem s).setProcess (k.tasks t).process
      (setAllocation (k.procs (k.tasks t).process) i a)) live := by
  refine ⟨TaskListOk.congr h.tasks (SameTasks.list ⟨rfl, rfl, rfl, rfl⟩) h.current, h.current,
    h.process, ?_⟩
  rw [owned_setRecord h ht i a s]
  exact howns

/-- A request of a process for memory, of any size that needs a block. -/
theorem Sound.malloc (h : Sound k live) (ht : t ∈ live) (hpos : 0 < (heapBlocksFor size).toNat) :
    Sound (processMalloc k (k.tasks t).process size).2 live ∧
      OwnOnly (k.tasks t).process k (processMalloc k (k.tasks t).process size).2 := by
  have hgranted := h.withKmem (s := (kzalloc k.kmem size).2) (pins_kzalloc ownedBlocks_lt)
  unfold processMalloc
  dsimp only
  have hkept : ∀ s, OwnOnly (k.tasks t).process k (k.withKmem s) := fun s =>
    .of_procs ⟨rfl, rfl, rfl, rfl⟩ rfl rfl
  by_cases hnull : (kzalloc k.kmem size).1 = 0
  · rw [if_pos hnull]
    exact ⟨hgranted, hkept _⟩
  rw [if_neg hnull]
  have hback : ∀ mem : Mem, Sound (k.withKmem
      (kfree ((kzalloc k.kmem size).2.withMem mem) (kzalloc k.kmem size).1)) live := fun mem =>
    h.withKmem (pins_temporary h.owns.linked h.pinned hnull hpos fun L _ => pins_withMem L _ mem)
  cases processFindFreeAllocationIndex (k.procs (k.tasks t).process) with
  | none => exact ⟨hback (kzalloc k.kmem size).2.mem, hkept _⟩
  | some index =>
    dsimp only
    split_ifs
    · exact ⟨hback _, hkept _⟩
    · refine ⟨h.setRecord ht index ⟨_, size⟩ ?_, (hkept _).trans (.setProcess _ rfl rfl)⟩
      exact (h.owns.kzalloc (t, .record index) hnull hpos).pins (pins_withMem _ _ _)

/-- A process frees any pointer. -/
theorem Sound.free (h : Sound k live) (ht : t ∈ live) (ptr : Word) :
    Sound (processFree k (k.tasks t).process ptr) live ∧
      OwnOnly (k.tasks t).process k (processFree k (k.tasks t).process ptr) := by
  cases hfind : processGetAllocationByAddr (k.procs (k.tasks t).process) ptr with
  | none =>
    unfold processFree
    rw [hfind]
    exact ⟨h, .refl _ k⟩
  | some i =>
    have hrecord : owned k live (t, .record i) = ptr := by
      rw [owned_mem ht]
      exact processGetAllocationByAddr_some hfind
    unfold processFree
    rw [hfind]
    dsimp only
    rw [processAllocationUnjoin_eq hfind]
    have hkept : ∀ s, OwnOnly (k.tasks t).process k (k.withKmem s) := fun s =>
      .of_procs ⟨rfl, rfl, rfl, rfl⟩ rfl rfl
    generalize (pagingMapTo k.kmem.mem _ _ _ _ _).2 = mem
    split_ifs
    · exact ⟨h.withKmem (pins_withMem _ _ mem), hkept _⟩
    · refine ⟨h.setRecord ht i ⟨0, 0⟩ ?_, (hkept _).trans (.setProcess _ rfl rfl)⟩
      have howns := (h.owns.pins (pins_withMem _ _ mem)).kfree (t, .record i)
      rwa [hrecord] at howns

/-! Keyboards. -/

/-- A new keyboard buffer for a process. -/
lemma Sound.withKeyboard (h : Sound k live) (process : Word) (keyboard : KeyboardBuffer) :
    Sound (setKeyboard k process keyboard) live := by
  refine h.frame (SameTasks.list ⟨rfl, rfl, rfl, rfl⟩) h.current (fun t _ i => ?_) (Pins.refl _ _)
  rw [Kernel.record, Kernel.record, setKeyboard, Kernel.setProcess_procs]
  by_cases hp : (k.tasks t).process = process
  · rw [hp, Function.update_self]
  · rw [Function.update_of_ne hp]

lemma setKeyboard_self (k : Kernel) (process : Word) :
    setKeyboard k process (k.procs process).keyboard = k := by
  simp [setKeyboard, Kernel.setProcess]

lemma setKeyboard_setKeyboard (k : Kernel) (process : Word) (keyboard keyboard' : KeyboardBuffer) :
    setKeyboard (setKeyboard k process keyboard) process keyboard' = setKeyboard k process keyboard' := by
  simp [setKeyboard, Kernel.setProcess]

/-- The keyboard's operations change the buffer of one process. -/
lemma keyboardPop_eq (k : Kernel) : ∃ keyboard,
    (keyboardPop k).2 = setKeyboard k (k.tasks k.currentTask).process keyboard := by
  unfold keyboardPop
  dsimp only
  split_ifs
  · exact ⟨_, (setKeyboard_self k _).symm⟩
  · exact ⟨_, (setKeyboard_self k _).symm⟩
  · exact ⟨_, setKeyboard_setKeyboard _ _ _ _⟩

lemma keyboardPush_eq (k : Kernel) (c : Byte) : ∃ keyboard,
    keyboardPush k c = setKeyboard k k.currentProcess keyboard := by
  unfold keyboardPush
  dsimp only
  split_ifs
  · exact ⟨_, (setKeyboard_self k _).symm⟩
  · exact ⟨_, (setKeyboard_self k _).symm⟩
  · exact ⟨_, setKeyboard_setKeyboard _ _ _ _⟩

/-! Strings and arguments. -/

lemma stackItem_eq {task : Word} {index : ℕ} (h : taskGetStackItem k task index = some (item, k')) :
    k' = kernelPage (pagingSwitch k (k.tasks task).pageDirectory) := by
  obtain ⟨word, -, heq⟩ := Option.map_eq_some_iff.1 h
  exact (Prod.mk.inj heq).2.symm

lemma Sound.stackItem (h : Sound k live) (process : Word) {task : Word} {index : ℕ}
    (hitem : taskGetStackItem k task index = some (item, k')) :
    Sound k' live ∧ OwnOnly process k k' := by
  rw [stackItem_eq hitem]
  exact ⟨(h.pagingSwitch _).pagingSwitch _, .of_procs ⟨rfl, rfl, rfl, rfl⟩ rfl rfl⟩

/-- The copy stores bytes of memory only. -/
lemma pagedStrncpyLoop_mem {directory dest src : Word} {n i : ℕ} {s s' : Kmem}
    (h : pagedStrncpyLoop directory dest src n i s = some s') : ∃ mem, s' = s.withMem mem := by
  have hstore : ∀ {a : Word} {b : Byte} {s s' : Kmem}, pagedStore s directory a b = some s' →
      ∃ mem, s' = s.withMem mem := by
    intro a b s s' hstored
    unfold pagedStore at hstored
    split_ifs at hstored
    exact ⟨_, (Option.some.inj hstored).symm⟩
  induction n generalizing i s with
  | zero => exact hstore h
  | succ n ih =>
    rw [pagedStrncpyLoop] at h
    obtain ⟨c, -, h⟩ := Option.bind_eq_some_iff.1 h
    split_ifs at h
    · exact hstore h
    · obtain ⟨s₁, hfirst, hrest⟩ := Option.bind_eq_some_iff.1 h
      obtain ⟨mem, rfl⟩ := hstore hfirst
      obtain ⟨mem', rfl⟩ := ih hrest
      exact ⟨mem', rfl⟩

/-- A task and its process are in the pool. -/
lemma Sound.pool (h : Sound k live) (ht : t ∈ live) : (∃ b < 25600, t = blockAddr b) ∧
    ∃ b < 25600, (k.tasks t).process = blockAddr b := by
  have htask : owned k live (t, .task) = t := if_pos ht
  have howned : owned k live (t, .process) = (k.tasks t).process := if_pos ht
  constructor
  · rcases h.owns.pinned (t, .task) with hnull | ⟨b, hb, heq, -⟩
    · exact absurd (htask.symm.trans hnull) (h.ne_zero ht)
    · exact ⟨b, hb, htask.symm.trans heq⟩
  · rcases h.owns.pinned (t, .process) with hnull | ⟨b, hb, heq, -⟩
    · exact absurd (howned.symm.trans hnull) (h.process t ht)
    · exact ⟨b, hb, howned.symm.trans heq⟩

lemma Sound.aboveTable (h : Sound k live) (ht : t ∈ live) : AboveTable (k.tasks t).process := by
  obtain ⟨-, b, hb, heq⟩ := h.pool ht
  have haddr := blockAddr_toNat (b := b) (by omega)
  rw [heq, AboveTable, haddr]
  change 32256 + 25600 ≤ _ ∧ _
  omega

/-- Between the heap's table and the pool nothing is kept. -/
lemma Sound.offRecords (h : Sound k live) {x : Word} (hlow : 0xE200 ≤ x.toNat) (hhigh : x.toNat < 0x1000000) :
    OffRecords k x := by
  have hout : ∀ (b n : ℕ), b < 25600 → n ≤ 9364 → ¬ InRange (blockAddr b) n x := by
    intro b n hb hn hin
    obtain ⟨j, hj, rfl⟩ := exists_of_inRange hin
    have haddr := blockAddr_toNat (b := b) (by omega)
    rw [toNat_add_ofNat (by omega)] at hhigh
    omega
  intro live' hlive hin
  obtain rfl := h.tasks.linked.unique hlive.linked
  rcases hin with htable | ⟨t, ht, htask | hprocess⟩
  · have := (inTable_toNat htable).2
    omega
  · obtain ⟨⟨b, hb, rfl⟩, -⟩ := h.pool ht
    exact hout b 64 hb (by omega) htask
  · obtain ⟨-, b, hb, heq⟩ := h.pool ht
    exact hout b 9364 hb le_rfl (heq ▸ hprocess)

/-- `copy_string_from_task` allocates one page and frees it again. -/
theorem Sound.copyString (h : Sound k live) (process : Word) {task virtual physical : Word} {max res : ℤ}
    (hpos : 0 < (heapBlocksFor (BitVec.ofInt 32 max)).toNat)
    (hcopy : copyStringFromTask k task virtual physical max = some (res, k')) :
    Sound k' live ∧ OwnOnly process k k' := by
  have hkept : ∀ k₁ : Kernel, SameTasks k k₁ ∧ k₁.currentProcess = k.currentProcess ∧
      k₁.procs = k.procs → OwnOnly process k k₁ := fun k₁ hsame => .of_procs hsame.1 hsame.2.1 hsame.2.2
  rw [copyStringFromTask] at hcopy
  dsimp only at hcopy
  split_ifs at hcopy with hmax hnull
  · simp only [Option.some.injEq, Prod.mk.injEq] at hcopy
    obtain ⟨-, rfl⟩ := hcopy
    exact ⟨h, .refl _ k⟩
  · simp only [Option.some.injEq, Prod.mk.injEq] at hcopy
    obtain ⟨-, rfl⟩ := hcopy
    exact ⟨h.withKmem (pins_kzalloc ownedBlocks_lt), hkept _ ⟨⟨rfl, rfl, rfl, rfl⟩, rfl, rfl⟩⟩
  · obtain ⟨s, hloop, heq⟩ := Option.map_eq_some_iff.1 hcopy
    obtain ⟨mem, rfl⟩ := pagedStrncpyLoop_mem hloop
    -- whatever the copy stored, the page is freed
    have hback : ∀ (mem : Mem) (directory : Word), Sound { k.withKmem
        (kfree ((kzalloc k.kmem (BitVec.ofInt 32 max)).2.withMem mem)
          (kzalloc k.kmem (BitVec.ofInt 32 max)).1) with currentDirectory := directory } live :=
      fun mem directory => (h.withKmem (pins_temporary h.owns.linked h.pinned hnull hpos
        fun L _ => pins_withMem L _ mem)).frame
          ⟨fun _ => rfl, fun _ => rfl, fun _ => rfl, rfl, rfl⟩ h.current (fun _ _ _ => rfl)
            (Pins.refl _ _)
    split_ifs at heq
    all_goals
      simp only [Prod.mk.injEq] at heq
      obtain ⟨-, rfl⟩ := heq
      exact ⟨hback _ _, hkept _ ⟨⟨rfl, rfl, rfl, rfl⟩, rfl, rfl⟩⟩

/-- Each argument is stored in a new allocation of the process. -/
lemma Sound.injectLoop (h : Sound k live) (ht : t ∈ live) {argv current : Word} {fuel i : ℕ} {res : ℤ}
    (hloop : processInjectArgumentsLoop (k.tasks t).process argv fuel i current k = some (res, k')) :
    Sound k' live ∧ OwnOnly (k.tasks t).process k k' := by
  induction fuel generalizing i current k with
  | zero =>
    rw [processInjectArgumentsLoop] at hloop
    split_ifs at hloop
    simp only [Option.some.injEq, Prod.mk.injEq] at hloop
    obtain ⟨-, rfl⟩ := hloop
    exact ⟨h, .refl _ k⟩
  | succ fuel ih =>
    rw [processInjectArgumentsLoop] at hloop
    have hpos : 0 < (heapBlocksFor 512).toNat := by decide
    obtain ⟨hmalloc, hsame⟩ := h.malloc ht hpos
    dsimp only at hloop
    split_ifs at hloop
    · simp only [Option.some.injEq, Prod.mk.injEq] at hloop
      obtain ⟨-, rfl⟩ := hloop
      exact ⟨h, .refl _ k⟩
    · simp only [Option.some.injEq, Prod.mk.injEq] at hloop
      obtain ⟨-, rfl⟩ := hloop
      exact ⟨hmalloc, hsame⟩
    · have hprocess : (k.tasks t).process =
          ((processMalloc k (k.tasks t).process 512).2.tasks t).process := by rw [hsame.tasks]
      generalize processMalloc k (k.tasks t).process 512 = argument at hmalloc hsame hloop hprocess
      rw [hprocess] at hloop
      generalize write32 (strncpyShown argument.2 (argument.2.tasks t).process argument.1 current 512)
        (argv + BitVec.ofNat 32 (4 * i)) argument.1 = mem at hloop
      change processInjectArgumentsLoop ((argument.2.withKmem (argument.2.kmem.withMem mem)).tasks
        t).process _ _ _ _ _ = _ at hloop
      obtain ⟨hsound, hrest⟩ := ih (hmalloc.withKmem (pins_withMem _ _ _)) hloop
      have hstored : OwnOnly (k.tasks t).process argument.2
          (argument.2.withKmem (argument.2.kmem.withMem mem)) := .of_procs ⟨rfl, rfl, rfl, rfl⟩ rfl rfl
      rw [hprocess] at hsame hstored ⊢
      exact ⟨hsound, hsame.trans (hstored.trans hrest)⟩

lemma processCountCommandArguments_le {mem : Mem} {fuel n : ℕ} {current : Word}
    (h : processCountCommandArguments mem fuel current = some n) : n ≤ fuel := by
  induction fuel generalizing current n with
  | zero =>
    rw [processCountCommandArguments] at h
    split_ifs at h
    simp only [Option.some.injEq] at h
    omega
  | succ fuel ih =>
    rw [processCountCommandArguments] at h
    split_ifs at h
    · simp only [Option.some.injEq] at h
      omega
    · obtain ⟨m, hm, rfl⟩ := Option.map_eq_some_iff.1 h
      have := ih hm
      omega

/-- The arguments of a process are injected; there are fewer than 2^29. -/
theorem Sound.inject (h : Sound k live) (ht : t ∈ live) {rootArgument : Word} {fuel : ℕ} {res : ℤ}
    (hfuel : fuel < 2 ^ 29)
    (hinject : processInjectArguments fuel k (k.tasks t).process rootArgument = some (res, k')) :
    Sound k' live ∧ OwnOnly (k.tasks t).process k k' := by
  rw [processInjectArguments] at hinject
  obtain ⟨argc, hargc, hinject⟩ := Option.bind_eq_some_iff.1 hinject
  have hle := processCountCommandArguments_le hargc
  by_cases hzero : argc = 0
  · rw [if_pos hzero] at hinject
    simp only [Option.some.injEq, Prod.mk.injEq] at hinject
    obtain ⟨-, rfl⟩ := hinject
    exact ⟨h, .refl _ k⟩
  rw [if_neg hzero] at hinject
  have hpos : 0 < (heapBlocksFor (4 * BitVec.ofNat 32 argc)).toNat := by
    have hfour : (4 : Word).toNat = 4 := rfl
    rw [heapBlocksFor_eq, BitVec.toNat_mul, BitVec.toNat_ofNat, hfour]
    omega
  obtain ⟨hmalloc, hsame⟩ := h.malloc ht hpos
  have hprocess : (k.tasks t).process =
      ((processMalloc k (k.tasks t).process (4 * BitVec.ofNat 32 argc)).2.tasks t).process := by
    rw [hsame.tasks]
  generalize processMalloc k (k.tasks t).process (4 * BitVec.ofNat 32 argc) = argv at *
  dsimp only at hinject
  split_ifs at hinject
  · simp only [Option.some.injEq, Prod.mk.injEq] at hinject
    obtain ⟨-, rfl⟩ := hinject
    exact ⟨hmalloc, hsame⟩
  · obtain ⟨r, hloop, heq⟩ := Option.map_eq_some_iff.1 hinject
    rw [hprocess] at hloop
    obtain ⟨hsound, hrest⟩ := hmalloc.injectLoop ht hloop
    rw [← hprocess] at hrest
    split_ifs at heq
    · rw [heq] at hsound hrest
      exact ⟨hsound, hsame.trans hrest⟩
    · simp only [Prod.mk.injEq] at heq
      obtain ⟨-, rfl⟩ := heq
      refine ⟨hsound.frame (SameTasks.list ⟨rfl, rfl, rfl, rfl⟩) hsound.current (fun u _ i => ?_)
        (Pins.refl _ _), hsame.trans (hrest.trans (.setProcess _ rfl rfl))⟩
      rw [Kernel.record, Kernel.record, Kernel.setProcess_procs]
      by_cases hu : (r.2.tasks u).process = (k.tasks t).process
      · rw [hu, Function.update_self]
      · rw [Function.update_of_ne hu]

/-! Loads. -/

lemma taskListOk_of_linked (h : LinkedList.Linked (fun t => (k.tasks t).next)
    (fun t => (k.tasks t).prev) 0 k.taskHead k.taskTail live) (hcurrent : k.currentTask ∈ live) :
    TaskListOk k live := by
  have hne : live ≠ [] := List.ne_nil_of_mem hcurrent
  exact ⟨h, fun t ht => h.next_mem ht, fun t ht => h.prev_mem ht,
    .inr ⟨h.head_mem hne, h.tail_mem hne⟩, .inr hcurrent⟩

lemma Sound.head_ne (h : Sound k live) : k.taskHead ≠ 0 := fun h0 =>
  List.ne_nil_of_mem h.current (h.tasks.linked.eq_nil_iff.2 h0)

/-- What a new task at the end of the list leaves of the other tasks. -/
lemma Spawned.tasks (hspawn : Spawned k k' t process) (h : Sound k live) (hnot : t ∉ live) :
    (k'.tasks t).process = process ∧ k'.currentTask = k.currentTask ∧ ∀ u ≠ t,
      (k'.tasks u).registers = (k.tasks u).registers ∧
      (k'.tasks u).pageDirectory = (k.tasks u).pageDirectory ∧
      (k'.tasks u).process = (k.tasks u).process := by
  obtain ⟨chunk, registers, hsame⟩ := hspawn
  have hhead : (k.setTask t ⟨chunk, registers, process, 0, 0⟩).taskHead ≠ 0 := h.head_ne
  have hne : t ≠ (k.setTask t ⟨chunk, registers, process, 0, 0⟩).taskTail := by
    intro heq
    have htail := h.tasks.linked.tail_mem (List.ne_nil_of_mem h.current)
    exact hnot (heq ▸ htail)
  have htasks := taskListAppend_tasks hhead hne
  have hself := htasks t
  rw [if_pos rfl, Kernel.setTask_tasks, Function.update_self] at hself
  refine ⟨?_, hsame.currentTask.trans (taskListAppend_ends hhead t).2.2, fun u hu => ?_⟩
  · rw [hsame.tasks, hself]
  · have hother := htasks u
    rw [if_neg hu, Kernel.setTask_tasks, Function.update_of_ne hu] at hother
    rw [hsame.tasks, hother]
    split_ifs <;> exact ⟨rfl, rfl, rfl⟩

lemma Spawned.listOk (hspawn : Spawned k k' t process) (h : Sound k live) (hnot : t ∉ live)
    (ht : t ≠ 0) : TaskListOk k' (live ++ [t]) := by
  have hcurrent := (hspawn.tasks h hnot).2.1
  obtain ⟨chunk, registers, hsame⟩ := hspawn
  have hnew : (k.setTask t ⟨chunk, registers, process, 0, 0⟩).tasks t =
      ⟨chunk, registers, process, 0, 0⟩ := Function.update_self _ _ _
  have hlinked := @taskListAppend_linked k live t (k.setTask t ⟨chunk, registers, process, 0, 0⟩)
    h.tasks.linked hnot ht rfl rfl (fun u hu => Function.update_of_ne (by
      rintro rfl
      exact hnot hu) _ _) (by rw [hnew]) (by rw [hnew])
  refine taskListOk_of_linked ?_ ?_
  · rw [hsame.tasks, hsame.taskHead, hsame.taskTail]
    exact hlinked
  · rw [hcurrent]
    exact List.mem_append_left _ h.current

/-- A load that makes a task gives it what it owns. -/
theorem Sound.spawn (h : Sound k live) {a : ℕ}
    (hload : LoadSpawns (ownedBlocks (owned k live)) k k' a b) :
    Sound k' (live ++ [blockAddr b]) ∧ blockAddr b ∉ live ∧ k'.currentTask = k.currentTask ∧
      (k'.tasks (blockAddr b)).process = blockAddr a ∧ ∀ u ∈ live, Preserved k k' u := by
  have haddr : blockAddr b ≠ 0 := by
    have := hload.task_lt
    exact blockAddr_ne_zero (by omega)
  have hnot : blockAddr b ∉ live := fun hmem =>
    hload.task_not (mem_ownedBlocks (i := (blockAddr b, .task)) hload.task_lt (owned_mem hmem _))
  obtain ⟨hself, hcurrent, hother⟩ := hload.spawned.tasks h hnot
  have hne : ∀ u ∈ live, u ≠ blockAddr b := by
    rintro u hu rfl
    exact hnot hu
  have hprocess : ∀ u ∈ live, (k.tasks u).process ≠ blockAddr a := fun u hu heq =>
    hload.process_not (mem_ownedBlocks (i := (u, .process)) hload.process_lt
      ((owned_mem hu _).trans heq))
  have howned : owned k' (live ++ [blockAddr b]) = Function.update (Function.update (owned k live)
      (blockAddr b, .task) (blockAddr b)) (blockAddr b, .process) (blockAddr a) := by
    funext ⟨u, x⟩
    by_cases hu : u = blockAddr b
    · subst hu
      rw [owned_mem (by simp)]
      cases x with
      | task => simp [part]
      | process => simp [part, hself]
      | record i => simp [part, hself, Kernel.record, hload.allocations, owned_not hnot]
    · rw [Function.update_of_ne (by simp [hu]), Function.update_of_ne (by simp [hu])]
      by_cases hmem : u ∈ live
      · rw [owned_mem (by simp [hmem]), owned_mem hmem]
        cases x with
        | task => rfl
        | process => exact (hother u hu).2.2
        | record i =>
          simp only [part, Kernel.record, (hother u hu).2.2]
          rw [hload.procs _ (hprocess u hmem)]
      · rw [owned_not (by simp [hmem, hu]), owned_not hmem]
  refine ⟨⟨hload.spawned.listOk h hnot haddr, ?_, fun u hu => ?_, ?_⟩, hnot, hcurrent, hself,
    fun u hu => ?_⟩
  · rw [hcurrent]
    exact List.mem_append_left _ h.current
  · rcases List.mem_append.1 hu with hu | hu
    · rw [(hother u (hne u hu)).2.2]
      exact h.process u hu
    · rw [List.mem_singleton.1 hu, hself]
      have := hload.process_lt
      exact blockAddr_ne_zero (by omega)
  · rw [howned]
    refine ((h.owns.pins hload.pins).add _ hload.task_lt hload.task_not hload.task_pinned).add _
      hload.process_lt ?_ hload.process_pinned
    rintro ⟨-, x, hx⟩
    by_cases hxt : x = (blockAddr b, .task)
    · rw [hxt, Function.update_self] at hx
      have hlt := hload.process_lt
      have hlt' := hload.task_lt
      exact hload.apart (blockAddr_inj (by omega) (by omega) hx).symm
    · rw [Function.update_of_ne hxt] at hx
      exact hload.process_not (mem_ownedBlocks hload.process_lt hx)
  · obtain ⟨hregisters, hdirectory, hsame⟩ := hother u (hne u hu)
    exact ⟨⟨hregisters, hdirectory, hsame⟩, hload.procs _ (hprocess u hu)⟩

/-- The first task is the current one. -/
theorem Sound.first {K : Set ℕ} {a : ℕ} (hl : Linked k.kmem.entries) (hhead : k.taskHead = 0)
    (hload : LoadSpawns K k k' a b) : Sound k' [blockAddr b] ∧ k'.currentTask = blockAddr b ∧
      (k'.tasks (blockAddr b)).process = blockAddr a := by
  have hlt := hload.task_lt
  have hlt' := hload.process_lt
  have haddr : blockAddr b ≠ 0 := blockAddr_ne_zero (by omega)
  obtain ⟨chunk, registers, hsame⟩ := hload.spawned
  have hhead' : (k.setTask (blockAddr b) ⟨chunk, registers, blockAddr a, 0, 0⟩).taskHead = 0 := hhead
  unfold taskListAppend at hsame
  rw [if_pos hhead'] at hsame
  have hself : k'.tasks (blockAddr b) = ⟨chunk, registers, blockAddr a, 0, 0⟩ := by
    rw [hsame.tasks]
    exact Function.update_self _ _ _
  have hcurrent : k'.currentTask = blockAddr b := hsame.currentTask
  refine ⟨⟨taskListOk_of_linked ?_ ?_, ?_, fun t ht => ?_, ?_⟩, hcurrent, by rw [hself]⟩
  · rw [hsame.taskHead, hsame.taskTail]
    have hnext : (k'.tasks (blockAddr b)).next = 0 := by rw [hself]
    have hprev : (k'.tasks (blockAddr b)).prev = 0 := by rw [hself]
    exact ⟨⟨rfl, hnext⟩, ⟨rfl, hprev⟩, List.nodup_singleton _, fun t ht => by
      rw [List.mem_singleton.1 ht]
      exact haddr⟩
  · simp [hcurrent]
  · simp [hcurrent]
  · rw [List.mem_singleton.1 ht, hself]
    exact blockAddr_ne_zero (by omega)
  · have howned : owned k' [blockAddr b] = Function.update (Function.update (fun _ => 0)
        (blockAddr b, .task) (blockAddr b)) (blockAddr b, .process) (blockAddr a) := by
      funext ⟨u, x⟩
      by_cases hu : u = blockAddr b
      · subst hu
        rw [owned_mem (by simp)]
        cases x <;> simp [part, hself, Kernel.record, hload.allocations]
      · rw [owned_not (by simp [hu]), Function.update_of_ne (by simp [hu]),
          Function.update_of_ne (by simp [hu])]
    have hnone : Owns k'.kmem (fun _ : Word × Part => (0 : Word)) :=
      ⟨hload.pins.linked hl, fun _ => .inl rfl, fun _ _ _ hne => absurd rfl hne⟩
    rw [howned]
    refine (hnone.add _ hlt ?_ hload.task_pinned).add _ hlt' ?_ hload.process_pinned
    · rintro ⟨-, x, hx⟩
      exact haddr hx.symm
    · rintro ⟨-, x, hx⟩
      by_cases hxt : x = (blockAddr b, .task)
      · rw [hxt, Function.update_self] at hx
        exact hload.apart (blockAddr_inj (by omega) (by omega) hx).symm
      · rw [Function.update_of_ne hxt] at hx
        exact blockAddr_ne_zero (by omega) hx.symm

/-- A load that makes none leaves every task as it was. -/
theorem Sound.idle (h : Sound k live) (hload : LoadIdle (ownedBlocks (owned k live)) k k') :
    Sound k' live ∧ ∀ t ∈ live, Preserved k k' t := by
  obtain ⟨q, hq, hprocs⟩ := hload.procs
  have hrecords : ∀ t ∈ live, k'.procs (k.tasks t).process = k.procs (k.tasks t).process := by
    intro t ht
    apply hprocs
    rintro rfl
    rcases hq with hnull | ⟨a, ha, heq, hnot⟩
    · exact h.process t ht hnull
    · exact hnot (mem_ownedBlocks (i := (t, .process)) ha ((owned_mem ht _).trans heq))
  have hcurrent : k'.currentTask ∈ live := by
    rw [hload.tasks.currentTask]
    exact h.current
  refine ⟨h.frame hload.tasks.list hcurrent (fun t ht i => ?_) hload.pins, fun t ht => ?_⟩
  · rw [Kernel.record, Kernel.record, hrecords t ht]
  · exact ⟨hload.tasks.sameTask t, hrecords t ht⟩

end AlphaOS.Processes
