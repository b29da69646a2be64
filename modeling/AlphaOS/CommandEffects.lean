import AlphaOS.SystemCalls
import AlphaOS.TaskOwners

/-! What the system calls of `isr80h/` make of the tasks and their processes, from a kernel in which the
registers of the calling task are saved. -/
namespace AlphaOS.Interrupts
open BlockHeap Elf Kheap Keyboard Paging Processes Tasks WordMemory

/-! Which calls are considered: none that terminates a process, no request for memory that the heap
grants without giving a block, and none that stores in what the kernel keeps of its tasks. -/

/-- The file layer keeps the blocks of the tasks, and `task_new` gets its memory. -/
structure LoadAllowed (files : FileCalls) (k : Kernel) : Prop where
  respects : ∀ live, TaskListOk k live →
    files.Respects (ownedBlocks (owned k live) ∪ processBlock k) (processStep k).2
  meets : LoadMeets files k

structure CallAllowed (env : Environment) (command : Word) (k : Kernel) : Prop where
  fuel : env.fuel < 2 ^ 29
  /-- The arrays on the kernel's stack, with the bytes that are stored behind `path`. -/
  buffers : ∀ x, InRange env.buf 1024 x ∨ InRange env.filename 108 x ∨ InRange env.path 111 x →
    OffRecords k x
  exit : command.toInt ≠ 9
  malloc : command.toInt = 4 → ∀ size k', taskGetStackItem k k.currentTask 0 = some (size, k') →
    0 < (heapBlocksFor size).toNat
  start : command.toInt = 6 → ∀ start k',
    isr80hCommand6Path env.fuel env.filename env.path k = some (.ok start, k') →
      LoadAllowed (env.files start.path) k'
  invoke : command.toInt = 7 → ∀ args, commandArguments k = some args →
    LoadAllowed (env.files (commandPath k.kmem.mem args)) (pageLoaded k)
  arguments : command.toInt = 8 → ∀ item k',
    taskGetStackItem (k.shown (k.tasks k.currentTask).process) k.currentTask 0 = some (item, k') →
      ∀ x, InRange (taskVirtualAddressToPhysical k' k.currentTask item) 8 x → OffRecords k x

variable {env : Environment} {command : Word} {s s' : Computer} {k k' : Kernel} {live : List Word}
  {leave : Leave} {t : Word}

/-- What a handler makes of the tasks, from a kernel in which the context of the current one is saved. -/
structure Handled (k : Kernel) (live : List Word) (leave : Leave) (k' : Kernel) (live' : List Word) :
    Prop where
  sound : Sound k' live'
  grows : live' = live ∨ ∃ t ∉ live, live' = live ++ [t]
  tasks : ∀ t ∈ live, SameTask k k' t
  foreground : k'.currentProcess = k.currentProcess ∨
    ∃ t ∈ live', t ∉ live ∧ k'.currentProcess = (k'.tasks t).process
  stays : (∀ t, leave ≠ .task t) → k'.currentTask = k.currentTask
  goes : ∀ t, leave = .task t → t ∈ live' ∧ k'.currentTask = t ∧
    k'.currentDirectory = taskDirectory k' t

/-- What a system call makes of the processes besides: those of other tasks are left alone. `reads`
says whether the call takes a character from the keyboard. -/
structure Served (reads : Prop) (k : Kernel) (live : List Word) (leave : Leave) (k' : Kernel)
    (live' : List Word) : Prop extends Handled k live leave k' live' where
  others : ∀ t ∈ live, t ≠ k.currentTask →
    k'.procs (k.tasks t).process = k.procs (k.tasks t).process
  fresh : ∀ t ∈ live', t ∉ live → (k'.procs (k'.tasks t).process).keyboard = ⟨fun _ => 0, 0, 0⟩
  keyboard : ¬ reads → (k'.procs (k.tasks k.currentTask).process).keyboard =
    (k.procs (k.tasks k.currentTask).process).keyboard
  got : reads → leave = .result ((keyboardPop k).1.signExtend 32) ∧
    (k'.procs (k.tasks k.currentTask).process).keyboard =
      ((keyboardPop k).2.procs (k.tasks k.currentTask).process).keyboard

variable {live' : List Word} {process : Word}

lemma Handled.mem (h : Handled k live leave k' live') (ht : t ∈ live) : t ∈ live' := by
  rcases h.grows with hsame | ⟨v, -, hmore⟩
  · exact hsame ▸ ht
  · simp [hmore, ht]

/-- A task from before has another process than a new one. -/
lemma Handled.apart (h : Handled k live leave k' live') {u : Word} (hu : u ∈ live) (ht : t ∈ live')
    (hnot : t ∉ live) : (k'.tasks u).process ≠ (k'.tasks t).process := by
  intro heq
  obtain rfl := h.sound.process_injective (h.mem hu) ht heq
  exact hnot hu

/-- A handler that changes the records of the current task's process only. -/
lemma Served.own (h : Sound k live) (hsound : Sound k' live)
    (hown : OwnOnly (k.tasks k.currentTask).process k k') (hleave : ∀ t, leave ≠ .task t) :
    Served False k live leave k' live where
  sound := hsound
  grows := .inl rfl
  tasks t _ := hown.sameTask t
  foreground := .inl hown.currentProcess
  stays _ := hown.currentTask
  goes u hu := absurd hu (hleave u)
  others _ ht hne := hown.others _ fun heq => hne (h.process_injective ht h.current heq)
  fresh _ ht hnot := absurd ht hnot
  keyboard _ := hown.keyboard
  got := False.elim

/-- That comes before what another handler does. -/
lemma Served.after (h : Sound k live) {k₁ : Kernel}
    (hown : OwnOnly (k.tasks k.currentTask).process k k₁)
    (hrest : Served False k₁ live leave k' live') : Served False k live leave k' live' where
  sound := hrest.sound
  grows := hrest.grows
  tasks t ht := (hown.sameTask t).trans (hrest.tasks t ht)
  foreground := by
    rw [← hown.currentProcess]
    exact hrest.foreground
  stays hleave := (hrest.stays hleave).trans hown.currentTask
  goes := hrest.goes
  others t ht hne := by
    have hsame := hrest.others t ht (by rwa [hown.currentTask])
    rw [hown.tasks] at hsame
    rw [hsame]
    exact hown.others _ fun heq => hne (h.process_injective ht h.current heq)
  fresh := hrest.fresh
  keyboard hreads := by
    have hsame := hrest.keyboard hreads
    rw [hown.tasks, hown.currentTask] at hsame
    rw [hsame, hown.keyboard]
  got := False.elim

/-- Then a handler changes the records of a new task's process. -/
lemma Served.then (h : Served False k live leave k' live') (hcurrent : k.currentTask ∈ live)
    {k₂ : Kernel} (hsound : Sound k₂ live') (ht : t ∈ live') (hnot : t ∉ live)
    (hown : OwnOnly (k'.tasks t).process k' k₂) (hleave : ∀ u, leave ≠ .task u) :
    Served False k live leave k₂ live' where
  sound := hsound
  grows := h.grows
  tasks u hu := (h.tasks u hu).trans (hown.sameTask u)
  foreground := by
    rw [hown.currentProcess, hown.tasks]
    exact h.foreground
  stays hne := hown.currentTask.trans (h.stays hne)
  goes u hu := absurd hu (hleave u)
  others u hu hne := by
    rw [← h.others u hu hne, ← (h.tasks u hu).process]
    exact hown.others _ (h.apart hu ht hnot)
  fresh u hu hnew := by
    rw [hown.tasks, ← h.fresh u hu hnew]
    by_cases hut : u = t
    · rw [hut, hown.keyboard]
    · rw [hown.others _ fun heq => hut (h.sound.process_injective hu ht heq)]
  keyboard hreads := by
    rw [← h.keyboard hreads, ← (h.tasks _ hcurrent).process]
    rw [hown.others _ (h.apart hcurrent ht hnot)]
  got := False.elim

/-- The result is of no matter for the tasks. -/
lemma Served.result {value : Word} (h : Served False k live (.result value) k' live') (value' : Word) :
    Served False k live (.result value') k' live' :=
  ⟨⟨h.sound, h.grows, h.tasks, h.foreground, fun _ => h.stays (by simp), by simp⟩, h.others, h.fresh,
    h.keyboard, False.elim⟩

/-- Then a handler switches to a task. -/
lemma Served.switch (h : Served False k live leave k' live') (ht : t ∈ live') :
    Served False k live (.task t) (taskSwitch k' t) live' where
  sound := h.sound.taskSwitch ht
  grows := h.grows
  tasks u hu := (h.tasks u hu).trans ⟨rfl, rfl, rfl⟩
  foreground := h.foreground
  stays hleave := absurd rfl (hleave t)
  goes u hu := by
    cases hu
    exact ⟨ht, rfl, rfl⟩
  others := h.others
  fresh := h.fresh
  keyboard := h.keyboard
  got := False.elim

/-! The commands. -/

section Commands
variable (h : Sound s.kernel live)
include h

lemma command0_served (hrun : isr80hCommand0Sum env s = some (leave, s')) :
    Served False s.kernel live leave s'.kernel live ∧ ∀ t, leave ≠ .task t := by
  obtain ⟨⟨v2, k₁⟩, h₂, hrun⟩ := Option.bind_eq_some_iff.1 hrun
  obtain ⟨⟨v1, k₂⟩, h₁, heq⟩ := Option.map_eq_some_iff.1 hrun
  obtain ⟨rfl, rfl⟩ := Prod.mk.inj heq
  obtain ⟨hsound₁, hown₁⟩ := Sound.stackItem h (s.kernel.tasks s.kernel.currentTask).process h₂
  obtain ⟨hsound₂, hown₂⟩ := Sound.stackItem hsound₁ (s.kernel.tasks s.kernel.currentTask).process h₁
  exact ⟨.own h hsound₂ (hown₁.trans hown₂) (by simp), by simp⟩

lemma command1_served (hrun : isr80hCommand1Print env s = some (leave, s')) :
    Served False s.kernel live leave s'.kernel live ∧ ∀ t, leave ≠ .task t := by
  obtain ⟨⟨item, k₁⟩, hitem, hrun⟩ := Option.bind_eq_some_iff.1 hrun
  obtain ⟨⟨res, k₂⟩, hcopy, hrun⟩ := Option.bind_eq_some_iff.1 hrun
  obtain ⟨str, -, heq⟩ := Option.map_eq_some_iff.1 hrun
  obtain ⟨rfl, rfl⟩ := Prod.mk.inj heq
  obtain ⟨hsound₁, hown₁⟩ := Sound.stackItem h (s.kernel.tasks s.kernel.currentTask).process hitem
  obtain ⟨hsound₂, hown₂⟩ := hsound₁.copyString (s.kernel.tasks s.kernel.currentTask).process (by decide) hcopy
  exact ⟨.own h hsound₂ (hown₁.trans hown₂) (by simp), by simp⟩

lemma command2_served (hrun : isr80hCommand2Getkey env s = some (leave, s')) :
    Served True s.kernel live leave s'.kernel live ∧ ∀ t, leave ≠ .task t := by
  obtain ⟨rfl, rfl⟩ : Leave.result ((keyboardPop s.kernel).1.signExtend 32) = leave ∧
      s.withKernel (keyboardPop s.kernel).2 = s' := by simpa [isr80hCommand2Getkey] using hrun
  obtain ⟨keyboard, heq⟩ := keyboardPop_eq s.kernel
  have hgot : (keyboardPop s.kernel).2.procs = (setKeyboard s.kernel
    (s.kernel.tasks s.kernel.currentTask).process keyboard).procs := by rw [heq]
  refine ⟨⟨⟨?_, .inl rfl, fun t _ => ?_, .inl ?_, fun _ => ?_, by simp⟩, fun t ht hne => ?_,
    fun t ht hnot => absurd ht hnot, (absurd trivial ·), fun _ => ⟨rfl, rfl⟩⟩, by simp⟩
  · rw [Computer.withKernel_kernel, heq]
    exact Sound.withKeyboard h _ _
  · rw [Computer.withKernel_kernel, heq]
    exact ⟨rfl, rfl, rfl⟩
  · rw [Computer.withKernel_kernel, heq]
    rfl
  · rw [Computer.withKernel_kernel, heq]
    rfl
  · have hother : (s.kernel.tasks t).process ≠ (s.kernel.tasks s.kernel.currentTask).process :=
      fun hsame => hne (h.process_injective ht h.current hsame)
    rw [Computer.withKernel_kernel, hgot]
    simp [setKeyboard, hother]

lemma command3_served (hrun : isr80hCommand3Putchar env s = some (leave, s')) :
    Served False s.kernel live leave s'.kernel live ∧ ∀ t, leave ≠ .task t := by
  obtain ⟨⟨c, k₁⟩, hitem, heq⟩ := Option.map_eq_some_iff.1 hrun
  obtain ⟨rfl, rfl⟩ := Prod.mk.inj heq
  obtain ⟨hsound, hown⟩ := Sound.stackItem h (s.kernel.tasks s.kernel.currentTask).process hitem
  exact ⟨.own h hsound hown (by simp), by simp⟩

lemma command4_served (hpos : ∀ size k', taskGetStackItem s.kernel s.kernel.currentTask 0 =
    some (size, k') → 0 < (heapBlocksFor size).toNat)
    (hrun : isr80hCommand4Malloc env s = some (leave, s')) :
    Served False s.kernel live leave s'.kernel live ∧ ∀ t, leave ≠ .task t := by
  obtain ⟨⟨size, k₁⟩, hitem, heq⟩ := Option.map_eq_some_iff.1 hrun
  obtain ⟨rfl, rfl⟩ := Prod.mk.inj heq
  obtain ⟨hsound, hown⟩ := Sound.stackItem h (s.kernel.tasks s.kernel.currentTask).process hitem
  obtain ⟨hsound', hown'⟩ := hsound.malloc hsound.current (hpos size k₁ hitem)
  refine ⟨.own h hsound' ?_ (by simp), by simp⟩
  rw [← hown.ownProcess] at hown ⊢
  exact hown.trans hown'

lemma command5_served (hrun : isr80hCommand5Free env s = some (leave, s')) :
    Served False s.kernel live leave s'.kernel live ∧ ∀ t, leave ≠ .task t := by
  obtain ⟨⟨ptr, k₁⟩, hitem, heq⟩ := Option.map_eq_some_iff.1 hrun
  obtain ⟨rfl, rfl⟩ := Prod.mk.inj heq
  obtain ⟨hsound, hown⟩ := Sound.stackItem h (s.kernel.tasks s.kernel.currentTask).process hitem
  obtain ⟨hsound', hown'⟩ := hsound.free hsound.current ptr
  rw [Computer.withKernel_kernel]
  refine ⟨.own h hsound' ?_ (by simp), by simp⟩
  rw [← hown.ownProcess] at hown ⊢
  exact hown.trans hown'

/-- The arguments are stored where nothing of the kernel's lies. -/
lemma command8_served (hoff : ∀ item k', taskGetStackItem (s.kernel.shown
      (s.kernel.tasks s.kernel.currentTask).process) s.kernel.currentTask 0 = some (item, k') →
      ∀ x, InRange (taskVirtualAddressToPhysical k' s.kernel.currentTask item) 8 x → OffRecords s.kernel x)
    (hrun : isr80hCommand8 env s = some (leave, s')) :
    Served False s.kernel live leave s'.kernel live ∧ ∀ t, leave ≠ .task t := by
  have habove : AboveTable (s.kernel.tasks s.kernel.currentTask).process := Sound.aboveTable h h.current
  obtain ⟨k₁, harguments, heq⟩ := Option.map_eq_some_iff.1 hrun
  obtain ⟨rfl, rfl⟩ := Prod.mk.inj heq
  obtain ⟨⟨item, k₂⟩, hitem, hstore⟩ := Option.map_eq_some_iff.1 harguments
  have hmiss := hoff item k₂ hitem
  obtain ⟨mem, hmem⟩ := @processGetArguments_off k₂ _ _ habove fun x hx hin => by
    have hrecords := hmiss x hin live h.tasks
    rcases hx with htable | hrecord
    · exact hrecords (.inl htable)
    · exact hrecords (.inr ⟨_, h.current, .inr (inRecord_subset hrecord)⟩)
  rw [Kernel.shown_of_above habove] at hitem
  have hshown : Sound (s.kernel.withKmem (s.kernel.kmem.withMem
      (s.kernel.view (s.kernel.tasks s.kernel.currentTask).process))) live :=
    Sound.withKmem h (pins_withMem _ _ _)
  obtain ⟨hsound, hown⟩ := hshown.stackItem (s.kernel.tasks s.kernel.currentTask).process hitem
  have hbefore : OwnOnly (s.kernel.tasks s.kernel.currentTask).process s.kernel
      (s.kernel.withKmem (s.kernel.kmem.withMem
        (s.kernel.view (s.kernel.tasks s.kernel.currentTask).process))) := .of_procs ⟨rfl, rfl, rfl, rfl⟩ rfl rfl
  have hsame : taskVirtualAddressToPhysical k₂ k₂.currentTask item =
      taskVirtualAddressToPhysical k₂ s.kernel.currentTask item := by
    rw [hown.currentTask]
    rfl
  obtain rfl : k₂.withKmem (k₂.kmem.withMem mem) = k₁ := by
    rw [← hmem, ← hsame]
    exact hstore
  exact ⟨.own h (hsound.withKmem (pins_withMem _ _ _))
    (hbefore.trans (hown.trans (.of_procs ⟨rfl, rfl, rfl, rfl⟩ rfl rfl))) (by simp), by simp⟩

end Commands

/-- A load that the current task asks for. Without an error the task of the new process is ready. -/
lemma load_served (h : Sound k live) {files : FileCalls} (hallowed : LoadAllowed files k) {res : ℤ}
    (hload : processLoadSwitch files k = some (res, process, k')) (hleave : ∀ u, leave ≠ .task u) :
    ∃ live', Served False k live leave k' live' ∧ (¬ res < 0 → (k'.procs process).task ∈ live' ∧
      (k'.procs process).task ∉ live ∧ (k'.tasks (k'.procs process).task).process = process) := by
  obtain ⟨⟨r, p, k₁⟩, hstep, heq⟩ := Option.map_eq_some_iff.1 hload
  simp only [Prod.mk.injEq] at heq
  obtain ⟨rfl, rfl, rfl⟩ := heq
  obtain ⟨hcurrent, heffect⟩ := processLoad_effect h.owns.linked h.pinned
    (hallowed.respects live h.tasks) hallowed.meets hstep
  rcases heffect with ⟨hneg, hidle⟩ | ⟨a, b, hspawns, hprocess⟩
  · obtain ⟨hsound, hkept⟩ := h.idle hidle
    rw [if_neg (by omega)]
    exact ⟨live, ⟨⟨hsound, .inl rfl, fun t ht => (hkept t ht).toSameTask, .inl hcurrent,
      fun _ => hidle.tasks.currentTask, fun u hu => absurd hu (hleave u)⟩,
      fun t ht _ => (hkept t ht).record, fun t ht hnot => absurd ht hnot,
      fun _ => by rw [(hkept _ h.current).record], False.elim⟩, fun hres => absurd hneg hres⟩
  · obtain ⟨hsound, hnot, htask, hnew, hkept⟩ := h.spawn hspawns
    have hempty : (k₁.procs (k₁.tasks (blockAddr b)).process).keyboard = ⟨fun _ => 0, 0, 0⟩ := by
      rw [hnew]
      exact hspawns.keyboard
    -- only the current process may be another one
    have hall : ∀ k₂ : Kernel, SameTasks k₁ k₂ → k₂.procs = k₁.procs → k₂.kmem = k₁.kmem →
        (k₂.currentProcess = k₁.currentProcess ∨ k₂.currentProcess = blockAddr a) →
        Served False k live leave k₂ (live ++ [blockAddr b]) := by
      intro k₂ htasks hprocs hkmem hforeground
      refine ⟨⟨?_, .inr ⟨_, hnot, rfl⟩, fun t ht => (hkept t ht).toSameTask.trans (htasks.sameTask t),
        ?_, fun _ => htasks.currentTask.trans htask, fun u hu => absurd hu (hleave u)⟩,
        fun t ht _ => ?_, fun t ht hnew => ?_, fun _ => ?_, False.elim⟩
      · refine hsound.frame htasks.list ?_ (fun t _ i => ?_) ?_
        · rw [htasks.currentTask]
          exact hsound.current
        · rw [Kernel.record, Kernel.record, hprocs]
        · rw [hkmem]
          exact Pins.refl _ _
      · rcases hforeground with hsame | hnext
        · exact .inl (hsame.trans hcurrent)
        · refine .inr ⟨blockAddr b, by simp, hnot, ?_⟩
          rw [hnext, htasks.tasks, hnew]
      · rw [hprocs, (hkept t ht).record]
      · obtain rfl : t = blockAddr b := by simpa [hnew] using ht
        rw [hprocs, htasks.tasks]
        exact hempty
      · rw [hprocs, (hkept _ h.current).record]
    by_cases hzero : r = 0
    · have hp : p = blockAddr a := hprocess.resolve_left (by omega)
      rw [if_pos hzero, hp]
      refine ⟨_, hall _ ⟨rfl, rfl, rfl, rfl⟩ rfl rfl (.inr rfl), fun _ => ?_⟩
      simp only [hspawns.task_eq, hnew, hnot]
      simp
    · rw [if_neg hzero]
      refine ⟨_, hall _ (.refl k₁) rfl rfl (.inl rfl), fun hres => ?_⟩
      rw [hprocess.resolve_left hres, hspawns.task_eq]
      simp [hnew, hnot]

/-- The name of the program is copied to the kernel's stack. -/
lemma Sound.startPath (h : Sound k live) {filename path : Word} {fuel : ℕ} {start : Except ℤ StartPath}
    (hpath : isr80hCommand6Path fuel filename path k = some (start, k')) :
    Sound k' live ∧ OwnOnly (k.tasks k.currentTask).process k k' := by
  obtain ⟨⟨res, k₁⟩, hcopy, hrest⟩ := Option.bind_eq_some_iff.1 hpath
  obtain ⟨⟨item, k₂⟩, hitem, hstring⟩ := Option.bind_eq_some_iff.1 hcopy
  obtain ⟨hsound₂, hown₂⟩ := Sound.stackItem h (k.tasks k.currentTask).process hitem
  obtain ⟨hsound₁, hown₁⟩ := hsound₂.copyString (k.tasks k.currentTask).process (by decide) hstring
  dsimp only at hrest
  split_ifs at hrest
  · simp only [Option.some.injEq, Prod.mk.injEq] at hrest
    obtain ⟨-, rfl⟩ := hrest
    exact ⟨hsound₁, hown₂.trans hown₁⟩
  · obtain ⟨stores, -, hhand⟩ := Option.bind_eq_some_iff.1 hrest
    obtain ⟨str, -, heq⟩ := Option.map_eq_some_iff.1 hhand
    simp only [Prod.mk.injEq] at heq
    obtain ⟨-, rfl⟩ := heq
    exact ⟨hsound₁.withKmem (pins_withMem _ _ _),
      hown₂.trans (hown₁.trans (.of_procs ⟨rfl, rfl, rfl, rfl⟩ rfl rfl))⟩

lemma command6_served (h : Sound s.kernel live) (hallowed : ∀ start k',
    isr80hCommand6Path env.fuel env.filename env.path s.kernel = some (.ok start, k') →
      LoadAllowed (env.files start.path) k') (hrun : isr80hCommand6 env s = some (leave, s')) :
    ∃ live', Served False s.kernel live leave s'.kernel live' := by
  obtain ⟨⟨next, k'⟩, hstart, heq⟩ := Option.map_eq_some_iff.1 hrun
  simp only [Prod.mk.injEq] at heq
  obtain ⟨rfl, rfl⟩ := heq
  obtain ⟨⟨start, k₁⟩, hpath, hload⟩ := Option.bind_eq_some_iff.1 hstart
  obtain ⟨hsound, hown⟩ := Sound.startPath h hpath
  cases start with
  | error e =>
    simp only [Option.some.injEq, Prod.mk.injEq] at hload
    obtain ⟨rfl, rfl⟩ := hload
    exact ⟨live, .own h hsound hown (by simp)⟩
  | ok start =>
    obtain ⟨⟨res, p, k₂⟩, hswitch, heq⟩ := Option.map_eq_some_iff.1 hload
    have hresult : ∀ u, Leave.result 0 ≠ .task u := by simp
    obtain ⟨live', hserved, hready⟩ := load_served hsound (hallowed start k₁ hpath) hswitch hresult
    dsimp only at heq
    split_ifs at heq with hneg
    · simp only [Prod.mk.injEq] at heq
      obtain ⟨rfl, rfl⟩ := heq
      exact ⟨live', hserved.after h hown⟩
    · simp only [Prod.mk.injEq] at heq
      obtain ⟨rfl, rfl⟩ := heq
      exact ⟨live', (hserved.switch (hready hneg).1).after h hown⟩

lemma command7_served (h : Sound s.kernel live) (hfuel : env.fuel < 2 ^ 29)
    (hallowed : ∀ args, commandArguments s.kernel = some args →
      LoadAllowed (env.files (commandPath s.kernel.kmem.mem args)) (pageLoaded s.kernel))
    (hrun : isr80hCommand7 env s = some (leave, s')) :
    ∃ live', Served False s.kernel live leave s'.kernel live' := by
  obtain ⟨⟨result, k'⟩, hinvoke, heq⟩ := Option.map_eq_some_iff.1 hrun
  have hargs : ∃ args, commandArguments s.kernel = some args := by
    obtain ⟨item, hitem, -⟩ := Option.bind_eq_some_iff.1 hinvoke
    exact ⟨_, Option.map_eq_some_iff.2 ⟨item, hitem, rfl⟩⟩
  obtain ⟨args, hargs⟩ := hargs
  rw [isr80hCommand7_eq hargs] at hinvoke
  have hpage : Sound (pageLoaded s.kernel) live := (h.pagingSwitch _).pagingSwitch _
  have hown : OwnOnly (s.kernel.tasks s.kernel.currentTask).process s.kernel (pageLoaded s.kernel) :=
    .of_procs ⟨rfl, rfl, rfl, rfl⟩ rfl rfl
  have hresult : ∀ value u, Leave.result value ≠ .task u := by simp
  have hquiet : ∀ value, Served False s.kernel live (.result value) (pageLoaded s.kernel) live :=
    fun value => .own h hpage hown (hresult value)
  by_cases hnull : args = 0
  · rw [if_pos hnull] at hinvoke
    simp only [Option.some.injEq, Prod.mk.injEq] at hinvoke
    obtain ⟨rfl, rfl⟩ := hinvoke
    obtain ⟨rfl, rfl⟩ := Prod.mk.inj heq
    exact ⟨live, hquiet _⟩
  rw [if_neg hnull] at hinvoke
  obtain ⟨len, -, hinvoke⟩ := Option.bind_eq_some_iff.1 hinvoke
  by_cases hempty : len = 0
  · rw [if_pos hempty] at hinvoke
    simp only [Option.some.injEq, Prod.mk.injEq] at hinvoke
    obtain ⟨rfl, rfl⟩ := hinvoke
    obtain ⟨rfl, rfl⟩ := Prod.mk.inj heq
    exact ⟨live, hquiet _⟩
  rw [if_neg hempty] at hinvoke
  obtain ⟨⟨res, p, k₁⟩, hswitch, hinvoke⟩ := Option.bind_eq_some_iff.1 hinvoke
  obtain ⟨live', hserved, hready⟩ := load_served hpage (hallowed args hargs) hswitch (hresult 0)
  replace hserved := hserved.after h hown
  by_cases hneg : res < 0
  · rw [if_pos hneg] at hinvoke
    simp only [Option.some.injEq, Prod.mk.injEq] at hinvoke
    obtain ⟨rfl, rfl⟩ := hinvoke
    obtain ⟨rfl, rfl⟩ := Prod.mk.inj heq
    exact ⟨live', hserved.result _⟩
  rw [if_neg hneg] at hinvoke
  obtain ⟨hmem, hnot, hprocess⟩ := hready hneg
  obtain ⟨⟨r, k₂⟩, hinject, hinvoke⟩ := Option.map_eq_some_iff.1 hinvoke
  -- the arguments are injected into the new process
  have hinto := hinject
  rw [← hprocess] at hinto
  obtain ⟨hsound, hnew⟩ := hserved.sound.inject hmem hfuel hinto
  have htask : (k₂.procs p).task = (k₁.procs p).task := by
    have := hnew.task
    rwa [hprocess] at this
  have hinjected := hserved.then h.current hsound hmem hnot hnew (hresult 0)
  dsimp only at hinvoke
  split_ifs at hinvoke
  · simp only [Prod.mk.injEq] at hinvoke
    obtain ⟨rfl, rfl⟩ := hinvoke
    obtain ⟨rfl, rfl⟩ := Prod.mk.inj heq
    exact ⟨live', hinjected.result _⟩
  · simp only [Prod.mk.injEq] at hinvoke
    obtain ⟨rfl, rfl⟩ := hinvoke
    obtain ⟨rfl, rfl⟩ := Prod.mk.inj heq
    rw [htask]
    exact ⟨live', hinjected.switch hmem⟩

/-- The system call of a task, once its registers are saved. Only a load adds a task or goes to one. -/
lemma handleCommand_served (h : Sound s.kernel live) (hallowed : CallAllowed env command s.kernel)
    (hrun : isr80hHandleCommand isr80hCommands command env s = some (leave, s')) :
    ∃ live', Served (command.toInt = 2) s.kernel live leave s'.kernel live' ∧
      (command.toInt ≠ 6 → command.toInt ≠ 7 → live' = live ∧ ∀ t, leave ≠ .task t) := by
  by_cases hlisted : 0 ≤ command.toInt ∧ command.toInt ≤ 9
  · have hcall : ∀ {handler : Handler}, (command.toInt, handler) ∈ systemCommands →
        handler env s = some (leave, s') := by
      intro handler hmem
      have hfound := @handleCommand_listed command (command.toInt, handler) hmem rfl
      rwa [hfound] at hrun
    have hquiet : command.toInt ≠ 2 →
        (Served False s.kernel live leave s'.kernel live ∧ ∀ t, leave ≠ .task t) →
        ∃ live', Served (command.toInt = 2) s.kernel live leave s'.kernel live' ∧
          (command.toInt ≠ 6 → command.toInt ≠ 7 → live' = live ∧ ∀ t, leave ≠ .task t) := by
      intro hne hserved
      rw [eq_false hne]
      exact ⟨live, hserved.1, fun _ _ => ⟨rfl, hserved.2⟩⟩
    have hload : command.toInt = 6 ∨ command.toInt = 7 →
        (∃ live', Served False s.kernel live leave s'.kernel live') →
        ∃ live', Served (command.toInt = 2) s.kernel live leave s'.kernel live' ∧
          (command.toInt ≠ 6 → command.toInt ≠ 7 → live' = live ∧ ∀ t, leave ≠ .task t) := by
      rintro hid ⟨live', hserved⟩
      rw [eq_false (by omega : command.toInt ≠ 2)]
      exact ⟨live', hserved, fun hne hne' => absurd hid (not_or.2 ⟨hne, hne'⟩)⟩
    obtain ⟨hlow, hhigh⟩ := hlisted
    have hexit := hallowed.exit
    generalize hid : command.toInt = id at hlow hhigh hcall hquiet hload hexit
    interval_cases id
    · exact hquiet (by decide) (command0_served h (hcall (by simp [systemCommands])))
    · exact hquiet (by decide) (command1_served h (hcall (by simp [systemCommands])))
    · obtain ⟨hserved, hleave⟩ := command2_served h (hcall (by simp [systemCommands]))
      rw [eq_true rfl]
      exact ⟨live, hserved, fun _ _ => ⟨rfl, hleave⟩⟩
    · exact hquiet (by decide) (command3_served h (hcall (by simp [systemCommands])))
    · exact hquiet (by decide)
        (command4_served h (hallowed.malloc hid) (hcall (by simp [systemCommands])))
    · exact hquiet (by decide) (command5_served h (hcall (by simp [systemCommands])))
    · exact hload (.inl rfl) (command6_served h (hallowed.start hid) (hcall (by simp [systemCommands])))
    · exact hload (.inr rfl)
        (command7_served h hallowed.fuel (hallowed.invoke hid) (hcall (by simp [systemCommands])))
    · exact hquiet (by decide)
        (command8_served h (hallowed.arguments hid) (hcall (by simp [systemCommands])))
    · exact absurd rfl hexit
  · rw [handleCommand_unknown hlisted] at hrun
    simp only [Option.some.injEq, Prod.mk.injEq] at hrun
    obtain ⟨rfl, rfl⟩ := hrun
    rw [eq_false (by omega : command.toInt ≠ 2)]
    exact ⟨live, .own h h (.refl _ _) (by simp), fun _ _ => ⟨rfl, by simp⟩⟩

end AlphaOS.Interrupts
