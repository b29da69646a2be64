import AlphaOS.KernelEntries
import AlphaOS.RegistryRun

/-! The tasks of user mode are threads: over any order of computation, interrupts and system calls each
of them goes on from where it was interrupted, whatever the others do. -/
namespace AlphaOS.Interrupts
open BlockHeap Elf Kheap Paging Processes Runs Tasks Threads

/-- The registers of a task that was resumed by `task_return`. -/
def Resumed (saved user : Registers) : Prop :=
  ∃ ebp flags, user = { saved with ebp := ebp, flags := flags }

/-- Where a task stands: the current one in the registers, another one in the kernel. -/
def contextOf (r : Running) (t : Word) : Registers :=
  if t = r.computer.kernel.currentTask then r.user else (r.computer.kernel.tasks t).registers

/-- The scheduler's tasks are the threads. -/
structure Refines (r : Running) (s : Threads.State Word Registers) : Prop where
  sound : Sound r.computer.kernel s.live
  running : s.running = r.computer.kernel.currentTask
  context : ∀ t ∈ s.live, s.context t = contextOf r t

variable {env : Environment} {r r' : Running} {s : Threads.State Word Registers} {k : Kernel}
  {live' : List Word} {leave : Leave} {t u : Word} {i : Input}

lemma contextOf_saved (r : Running) (t : Word) :
    contextOf r t = ((savedKernel r).tasks t).registers := by
  by_cases ht : t = r.computer.kernel.currentTask <;> simp [contextOf, savedKernel_tasks, ht]

/-- What a handler does before it leaves the kernel, as work of the running thread. -/
lemma Refines.works (h : Refines r s) (hhandled : Handled (savedKernel r) s.live leave k live')
    (c : Registers) : ∃ s₁, Works s s₁ ∧ s₁.live = live' ∧ s₁.running = s.running ∧
      s₁.context s.running = c ∧ ∀ t ∈ live', t ≠ s.running → s₁.context t = (k.tasks t).registers := by
  have hold : ∀ t ∈ s.live, s.context t = (k.tasks t).registers := by
    intro t ht
    rw [h.context t ht, contextOf_saved, (hhandled.tasks t ht).registers]
  have hrunning : s.running ∈ s.live := by
    rw [h.running]
    exact h.sound.current
  rcases hhandled.grows with rfl | ⟨u, hu, rfl⟩
  · refine ⟨s.work c, .work c, rfl, rfl, by simp [State.work], fun t ht hne => ?_⟩
    simp [State.work, hne, hold t ht]
  · have hne : s.running ≠ u := by
      rintro rfl
      exact hu hrunning
    refine ⟨(s.work c).spawn u (k.tasks u).registers, .spawn hu c _, rfl, rfl, ?_, fun t ht hnt => ?_⟩
    · simp [State.work, State.spawn, hne]
    · by_cases htu : t = u
      · simp [State.work, State.spawn, htu]
      · have hmem : t ∈ s.live := by simpa [htu] using ht
        simp [State.work, State.spawn, htu, hnt, hold t hmem]

/-- A handler that has left the kernel has made a turn of the threads. -/
lemma Refines.turn (h : Refines r s) (hhandled : Handled (savedKernel r) s.live leave k live')
    (hkernel : r'.computer.kernel = leftKernel k leave) (env : Environment)
    (huser : ∀ t, leave = .task t → r'.user = resumedWith r.user env k (.task t)) :
    ∃ s', Turn Resumed s s' ∧ Refines r' s' ∧
      r'.computer.kernel.currentDirectory =
        taskDirectory r'.computer.kernel r'.computer.kernel.currentTask := by
  by_cases hleave : ∀ t, leave ≠ .task t
  · have hpage : leftKernel k leave = taskPage k := by
      cases leave with
      | task t => exact absurd rfl (hleave t)
      | _ => rfl
    rw [hpage] at hkernel
    obtain ⟨s₁, hworks, hlive, hrunning, hself, hothers⟩ := h.works hhandled r'.user
    have hcurrent : r'.computer.kernel.currentTask = s.running := by
      rw [hkernel, h.running]
      exact hhandled.stays hleave
    refine ⟨s₁, .stay hworks, ⟨?_, hrunning.trans hcurrent.symm, fun t ht => ?_⟩, by rw [hkernel]; rfl⟩
    · rw [hkernel, hlive]
      exact hhandled.sound.taskSwitch hhandled.sound.current
    · rw [contextOf, hcurrent]
      split_ifs with hrun
      · rw [hrun, hself]
      · rw [hothers t (hlive ▸ ht) hrun, hkernel]
        rfl
  · obtain ⟨t, rfl⟩ : ∃ t, leave = .task t := by simpa using hleave
    obtain ⟨hmem, hcurrent, hdirectory⟩ := hhandled.goes t rfl
    obtain ⟨s₁, hworks, hlive, -, hself, hothers⟩ := h.works hhandled r.user
    rw [← hlive] at hmem
    have hstood : ∀ u ∈ s₁.live, s₁.context u = (k.tasks u).registers := by
      intro u hu
      by_cases hrun : u = s.running
      · have hold := hhandled.tasks s.running (by rw [h.running]; exact h.sound.current)
        rw [hrun, hself, hold.registers, h.running, savedKernel_tasks, Function.update_self]
      · exact hothers u (hlive ▸ hu) hrun
    have hresumed : Resumed (s₁.context t) r'.user := by
      rw [hstood t hmem]
      exact ⟨env.ebp, env.flags, huser t rfl⟩
    have hkernel' : r'.computer.kernel = k := hkernel
    refine ⟨s₁.switch t r'.user, .switch hworks hmem hresumed, ⟨?_, ?_, fun u hu => ?_⟩, ?_⟩
    · rw [hkernel']
      exact hlive ▸ hhandled.sound
    · rw [hkernel', hcurrent]
      rfl
    · rw [contextOf, hkernel', hcurrent]
      split_ifs with hut
      · simp [State.switch, hut]
      · have hother : (s₁.switch t r'.user).context u = s₁.context u := Function.update_of_ne hut _ _
        rw [hother, hstood u hu]
    · rw [hkernel', hcurrent]
      exact hdirectory

/-- User code computes on the registers and writes to memory. -/
lemma Refines.compute (h : Refines r s) (user : Registers) (mem : WordMemory.Mem) :
    Refines ⟨r.computer.withKernel (r.computer.kernel.withKmem (r.computer.kernel.kmem.withMem mem)),
      user⟩ (s.work user) where
  sound := h.sound.withKmem (pins_withMem _ _ _)
  running := h.running
  context t ht := by
    change (s.work user).context t =
      if t = r.computer.kernel.currentTask then user else (r.computer.kernel.tasks t).registers
    have hstood := h.context t ht
    rw [contextOf] at hstood
    by_cases hrun : t = r.computer.kernel.currentTask
    · simp [State.work, hrun, h.running]
    · simp [State.work, hrun, h.running, hstood]

/-- An entry into the kernel and the way back. -/
lemma Refines.enter {vector : Fin 256} (h : Refines r s) (hallowed : Allowed r (.enter vector env))
    (hstep : r.step (.enter vector env) = some r') : ∃ s', Turn Resumed s s' ∧ Refines r' s' ∧
      r'.computer.kernel.currentDirectory =
        taskDirectory r'.computer.kernel r'.computer.kernel.currentTask := by
  obtain ⟨hvector, hcall⟩ := hallowed
  by_cases hsystem : vector = 0x80
  · subst hsystem
    obtain ⟨leave, k, live', hserved, hkernel, huser, -⟩ := call_effect h.sound (hcall rfl) hstep
    refine h.turn hserved.toHandled hkernel env fun t ht => ?_
    rw [huser, ht]
  by_cases hclock : vector = 0x20
  · subst hclock
    obtain ⟨t, -, hserved, hkernel, -, huser⟩ := clock_effect h.sound hstep
    refine h.turn hserved.toHandled hkernel env fun u hu => ?_
    cases hu
    exact huser
  by_cases hkeyboard : vector = 0x21
  · subst hkeyboard
    obtain ⟨k, hhandled, -, hkernel, -, huser⟩ := keyboard_effect h.sound hstep
    exact h.turn hhandled hkernel env (by simp)
  · obtain ⟨hkernel, -, huser⟩ := ignored_effect hvector hsystem hclock hkeyboard hstep
    refine ⟨s.work r.user, .stay (.work _), ⟨?_, ?_, fun t ht => ?_⟩, by rw [hkernel]; rfl⟩
    · rw [hkernel]
      exact (h.sound.pagingSwitch _).taskSwitch h.sound.current
    · rw [hkernel]
      exact h.running
    · rw [contextOf, hkernel, huser]
      exact (h.compute r.user r.computer.kernel.kmem.mem).context t ht

lemma Refines.step (h : Refines r s) (hallowed : Allowed r i) (hstep : r.step i = some r') :
    ∃ s', Turn Resumed s s' ∧ Refines r' s' := by
  cases i with
  | work user mem =>
    obtain rfl := Option.some.inj hstep
    exact ⟨_, .stay (.work user), h.compute user mem⟩
  | enter vector env =>
    obtain ⟨s', hturn, hrefines, -⟩ := h.enter hallowed hstep
    exact ⟨s', hturn, hrefines⟩

/-- Any run of user code and kernel entries is a run of the threads. -/
lemma Refines.run {is : List Input} (h : Refines r s) (run : Run Running.step Allowed r is r') :
    ∃ s', Relation.ReflTransGen (Turn Resumed) s s' ∧ Refines r' s' :=
  run.simulates h fun _ _ _ _ hrefines hallowed hstep => by
    obtain ⟨s', hturn, hrefines'⟩ := hrefines.step hallowed hstep
    exact ⟨s', .single hturn, hrefines'⟩

/-- A task that waits over a run is a thread that waits. -/
lemma Refines.waits {is : List Input} (h : Refines r s)
    (run : Run Running.step (fun r i => Allowed r i ∧ r.computer.kernel.currentTask ≠ t) r is r')
    (hne : r'.computer.kernel.currentTask ≠ t) : ∃ s', Waits Resumed t s s' ∧ Refines r' s' := by
  induction run with
  | start => exact ⟨s, .refl (by rw [h.running]; exact hne.symm), h⟩
  | step run i r₂ hallowed hstep ih =>
    obtain ⟨s₁, hwaits, hrefines⟩ := ih hallowed.2
    obtain ⟨s₂, hturn, hrefines'⟩ := hrefines.step hallowed.1 hstep
    exact ⟨s₂, hwaits.tail hturn (by rw [hrefines'.running]; exact hne.symm), hrefines'⟩

/-- The second of two programs is in the foreground. -/
structure TwoPrograms (k : Kernel) (t u : Word) : Prop where
  apart : t ≠ u
  sound : Sound k [t, u]
  current : k.currentTask = t
  foreground : k.currentProcess = (k.tasks u).process
  keyboards : ∀ v ∈ [t, u], (k.procs (k.tasks v).process).keyboard = ⟨fun _ => 0, 0, 0⟩

/-- The programs are loaded one after the other. -/
lemma twoPrograms : ∃ k t u, TwoPrograms k t u := by
  obtain ⟨hprocess, hnext⟩ := firstLoad_step
  obtain ⟨-, k₁, hload₁, hprocesses, -, hfrontier, hhigh, -⟩ :=
    @processLoad_missing 3 (zeroKernel emptyKmem) 0 0 rfl (by omega) hprocess hnext (by omega) rfl rfl
  have hnone : ∀ b ∈ (∅ : Set ℕ), b < 25600 ∧ Pinned (zeroKernel emptyKmem).kmem.entries b 1 := by
    simp
  obtain ⟨-, heffect₁⟩ := processLoad_effect emptyKmem_linked hnone (respects_missing _ _)
    firstLoad_meets hload₁
  obtain ⟨a₁, b₁, hspawns₁, -⟩ := heffect₁.resolve_left (by simp)
  obtain ⟨hsound₁, hcurrent₁, howner₁⟩ := Sound.first emptyKmem_linked rfl hspawns₁
  -- the second load
  have hzero : k₁.processes 0 ≠ 0 := by
    rw [hprocesses, Function.update_self]
    exact blockAddr_ne_zero (by omega)
  have hone : k₁.processes 1 = 0 := by
    rw [hprocesses]
    rfl
  obtain ⟨hmeets₂, k₂, hload₂, -⟩ := secondLoad_missing hzero hone hfrontier hhigh
  obtain ⟨-, heffect₂⟩ := processLoad_effect hsound₁.owns.linked hsound₁.pinned (respects_missing _ _)
    hmeets₂ hload₂
  obtain ⟨a₂, b₂, hspawns₂, -⟩ := heffect₂.resolve_left (by simp)
  obtain ⟨hsound₂, hnot, hcurrent₂, howner₂, hkept⟩ := hsound₁.spawn hspawns₂
  have happart : blockAddr b₁ ≠ blockAddr b₂ := by simpa [eq_comm] using hnot
  have hfirst := hkept (blockAddr b₁) (by simp)
  refine ⟨{ k₂ with currentProcess := blockAddr a₂ }, blockAddr b₁, blockAddr b₂, happart,
    hsound₂.frame (SameTasks.list ⟨rfl, rfl, rfl, rfl⟩) hsound₂.current (fun _ _ _ => rfl)
      (Pins.refl _ _), ?_, howner₂.symm, fun v hv => ?_⟩
  · exact hcurrent₂.trans hcurrent₁
  · have hcases : v = blockAddr b₁ ∨ v = blockAddr b₂ := by simpa using hv
    rcases hcases with rfl | rfl
    · change (k₂.procs (k₂.tasks (blockAddr b₁)).process).keyboard = _
      rw [hfirst.process, hfirst.record, howner₁, hspawns₁.keyboard]
    · change (k₂.procs (k₂.tasks (blockAddr b₂)).process).keyboard = _
      rw [howner₂, hspawns₂.keyboard]

/-- A computer that runs the first of them. -/
def running (k : Kernel) (user : Registers) : Running :=
  ⟨⟨k, ⟨fun _ => 0, 0, 0, []⟩, .off, []⟩, user⟩

lemma TwoPrograms.successor (h : TwoPrograms k t u) : successor k k.currentTask = u := by
  have hchain := (show TaskListOk k ([] ++ t :: [u]) from h.sound.tasks).isChain_successor
  rw [h.current]
  exact (List.isChain_cons_cons.1 hchain).1

/-- A task is the same and so is its process, but for what is typed. -/
structure Guarded (k k' : Kernel) (t : Word) : Prop extends SameTask k k' t where
  record : ∃ keyboard, k'.procs (k.tasks t).process =
    { k.procs (k.tasks t).process with keyboard := keyboard }

lemma Guarded.refl (k : Kernel) (t : Word) : Guarded k k t := ⟨⟨rfl, rfl, rfl⟩, _, rfl⟩

lemma Guarded.trans {k₁ k₂ : Kernel} (h : Guarded k k₁ t) (h' : Guarded k₁ k₂ t) : Guarded k k₂ t := by
  obtain ⟨keyboard, hrecord⟩ := h.record
  obtain ⟨keyboard', hrecord'⟩ := h'.record
  rw [h.process, hrecord] at hrecord'
  exact ⟨h.toSameTask.trans h'.toSameTask, keyboard', hrecord'⟩

lemma Guarded.of_procs {k₁ : Kernel} (htask : SameTask k k₁ t)
    (hrecord : k₁.procs (k.tasks t).process = k.procs (k.tasks t).process) : Guarded k k₁ t :=
  ⟨htask, _, hrecord⟩

/-- A step of the computer leaves a task that waits alone. -/
lemma step_guarded {live : List Word} (h : Sound r.computer.kernel live) (ht : t ∈ live)
    (hne : r.computer.kernel.currentTask ≠ t) (hallowed : Allowed r i) (hstep : r.step i = some r') :
    ∃ live', Sound r'.computer.kernel live' ∧ t ∈ live' ∧
      Guarded r.computer.kernel r'.computer.kernel t := by
  have hsaved : SameTask r.computer.kernel (savedKernel r) t := by
    have hother : (savedKernel r).tasks t = r.computer.kernel.tasks t := by
      rw [savedKernel_tasks, Function.update_of_ne (Ne.symm hne)]
    exact ⟨by rw [hother], by rw [hother], by rw [hother]⟩
  cases i with
  | work user mem =>
    obtain rfl := Option.some.inj hstep
    exact ⟨live, h.withKmem (pins_withMem _ _ _), ht, ⟨rfl, rfl, rfl⟩, _, rfl⟩
  | enter vector env =>
    obtain ⟨hvector, hcall⟩ := hallowed
    by_cases hsystem : vector = 0x80
    · subst hsystem
      obtain ⟨leave, k, live', hserved, hkernel, -, -⟩ := call_effect h (hcall rfl) hstep
      have hkept : Guarded r.computer.kernel k t := by
        refine .of_procs (hsaved.trans (hserved.tasks t ht)) ?_
        rw [← hsaved.process]
        exact hserved.others t ht (Ne.symm hne)
      rw [hkernel]
      refine ⟨live', ?_, hserved.mem ht, ?_⟩
      · cases leave with
        | task u => exact hserved.sound
        | _ => exact hserved.sound.taskSwitch hserved.sound.current
      · cases leave <;> exact hkept.trans ⟨⟨rfl, rfl, rfl⟩, _, rfl⟩
    by_cases hclock : vector = 0x20
    · subst hclock
      obtain ⟨u, -, hserved, hkernel, -, -⟩ := clock_effect h hstep
      rw [hkernel]
      exact ⟨live, hserved.sound, ht, hsaved.trans ⟨rfl, rfl, rfl⟩, _, rfl⟩
    by_cases hkeyboard : vector = 0x21
    · subst hkeyboard
      obtain ⟨k, hhandled, hprocs, hkernel, -, -⟩ := keyboard_effect h hstep
      obtain ⟨keyboard, hpush⟩ := keyboardPush_eq r.computer.kernel
        (scannedChar r.computer.capslock env.scancode)
      rw [hkernel]
      refine ⟨live, hhandled.sound.taskSwitch hhandled.sound.current, ht,
        hsaved.trans ((hhandled.tasks t ht).trans ⟨rfl, rfl, rfl⟩), ?_⟩
      change ∃ keyboard, k.procs _ = _
      rw [hprocs, hpush]
      by_cases hp : (r.computer.kernel.tasks t).process = r.computer.kernel.currentProcess
      · refine ⟨keyboard, ?_⟩
        simp [Keyboard.setKeyboard, hp]
      · exact ⟨_, by
          simp only [Keyboard.setKeyboard, Kernel.setProcess_procs]
          exact Function.update_of_ne hp _ _⟩
    · obtain ⟨hkernel, -, -⟩ := ignored_effect hvector hsystem hclock hkeyboard hstep
      rw [hkernel]
      exact ⟨live, (h.pagingSwitch _).taskSwitch h.current, ht, ⟨rfl, rfl, rfl⟩, _, rfl⟩

end AlphaOS.Interrupts
