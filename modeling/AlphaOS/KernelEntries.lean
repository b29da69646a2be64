import AlphaOS.CommandEffects
import AlphaOS.Runs
import AlphaOS.Threads

/-! The kernel as user programs meet it: a user task works until an interrupt or a system call enters
the kernel, which comes back to it or goes to another task. Over any order of these steps the tasks are
threads that do not touch each other's contexts. -/
namespace AlphaOS.Interrupts
open BlockHeap Elf Kheap Keyboard Paging Processes Runs Tasks Threads WordMemory

instance neZero_vectors : NeZero 256 := ⟨by decide⟩

/-- The computer in user mode, with the registers of the task that runs. -/
structure Running where
  computer : Computer
  user : Registers

/-- What happens next: the task computes, or it is interrupted. Vector 0x80 is a system call. -/
inductive Input
  | work (user : Registers) (mem : Mem)
  | enter (vector : Fin 256) (env : Environment)

/-- The frame of an entry from user mode. Nothing reads `reserved`. -/
def frameOf (user : Registers) : InterruptFrame where
  edi := user.edi
  esi := user.esi
  ebp := user.ebp
  reserved := 0
  ebx := user.ebx
  edx := user.edx
  ecx := user.ecx
  eax := user.eax
  ip := user.ip
  cs := user.cs
  flags := user.flags
  esp := user.esp
  ss := user.ss

/-- The entry through the gate of a vector. The gate of vector 0 leads to `idt_zero`, which does not come
back to user mode. -/
def kernelEntry (vector : Fin 256) (env : Environment) (r : Running) : Option (Leave × Computer) :=
  if vector = 0 then none else
  if vector = 0x80 then isr80hHandler isr80hCommands r.user.eax (frameOf r.user) env r.computer else
  interruptHandler interruptCallbacks (vector.castLE (by decide)) (frameOf r.user) env r.computer

/-- The labels whose addresses `idt_init` puts into the table. -/
inductive EntryPoint
  | idtZero
  | isr80hWrapper
  | interrupt (i : Fin totalInterrupts)

def EntryPoint.enter (env : Environment) (r : Running) : EntryPoint → Option (Leave × Computer)
  | .idtZero => none
  | .isr80hWrapper => isr80hHandler isr80hCommands r.user.eax (frameOf r.user) env r.computer
  | .interrupt i => interruptHandler interruptCallbacks i (frameOf r.user) env r.computer

local instance neZero_interrupts : NeZero totalInterrupts := ⟨by decide⟩

/-- The table of a kernel that is linked with its labels at the given addresses. -/
def linkedDescriptors (address : EntryPoint → Word) : ℕ → IdtDesc :=
  idtDescriptors (fun i => address (.interrupt (Fin.ofNat _ i))) (address .idtZero)
    (address .isr80hWrapper)

/-- A vector enters the kernel where the gate leads that the processor reads from the table, and user
mode may use every gate. -/
lemma kernelEntry_gate {address : EntryPoint → Word} (haddress : address.Injective) (vector : Fin 256)
    (env : Environment) (r : Running) :
    ∃! point : EntryPoint, gate (linkedDescriptors address vector) = ⟨address point, 0x08, true, 3, 0x0E⟩ ∧
      kernelEntry vector env r = point.enter env r := by
  have hvector : (vector : ℕ) < totalInterrupts := vector.isLt.trans (by decide)
  have hgate : gate (linkedDescriptors address vector) = _ := idtDescriptors_gate _ _ _ hvector
  have hunique : ∀ {point other : EntryPoint}, gate (linkedDescriptors address vector) =
      ⟨address point, 0x08, true, 3, 0x0E⟩ → gate (linkedDescriptors address vector) =
      ⟨address other, 0x08, true, 3, 0x0E⟩ → other = point := fun h₁ h₂ =>
    haddress (Gate.mk.inj (h₂.symm.trans h₁)).1
  by_cases hcall : vector = 0x80
  · subst hcall
    rw [if_pos (by decide)] at hgate
    exact ⟨.isr80hWrapper, ⟨hgate, rfl⟩, fun other h => hunique hgate h.1⟩
  have hcall' : (vector : ℕ) ≠ 0x80 := fun heq => hcall (Fin.ext heq)
  by_cases hzero : vector = 0
  · subst hzero
    rw [if_neg (by decide), if_pos (by decide)] at hgate
    exact ⟨.idtZero, ⟨hgate, rfl⟩, fun other h => hunique hgate h.1⟩
  · have hzero' : (vector : ℕ) ≠ 0 := fun heq => hzero (Fin.ext heq)
    have hlabel : Fin.ofNat totalInterrupts (vector : ℕ) = vector.castLE (by decide) :=
      Fin.ext (Nat.mod_eq_of_lt hvector)
    rw [if_neg hcall', if_neg hzero', hlabel] at hgate
    refine ⟨.interrupt (vector.castLE (by decide)), ⟨hgate, ?_⟩, fun other h => hunique hgate h.1⟩
    rw [kernelEntry, if_neg hzero, if_neg hcall, EntryPoint.enter]

/-- The registers that user mode goes on with. `task_return` loses `ebp` and the flags. -/
def resumedWith (user : Registers) (env : Environment) (k : Kernel) : Leave → Registers
  | .frame => user
  | .result value => { user with eax := value }
  | .task task => { (k.tasks task).registers with ebp := env.ebp, flags := env.flags }

def Running.step (r : Running) : Input → Option Running
  | .work user mem =>
    some ⟨r.computer.withKernel (r.computer.kernel.withKmem (r.computer.kernel.kmem.withMem mem)), user⟩
  | .enter vector env => (kernelEntry vector env r).map fun (leave, s) =>
    ⟨s, resumedWith r.user env s.kernel leave⟩

/-! Which entries are considered: no exceptions, and no system calls but those above. A task that computes
stores nothing in what the kernel keeps of the tasks. -/

/-- The kernel once the registers of the current task are saved. -/
def savedKernel (r : Running) : Kernel :=
  let k := kernelPage r.computer.kernel
  k.setTask k.currentTask { k.tasks k.currentTask with registers := r.user }

def Allowed (r : Running) : Input → Prop
  | .work _ mem => ∀ x, mem x ≠ r.computer.kernel.kmem.mem x → OffRecords r.computer.kernel x
  | .enter vector env => 0x20 ≤ vector ∧ (vector = 0x80 → CallAllowed env r.user.eax (savedKernel r))

variable {env : Environment} {vector : Fin 256} {r r' : Running} {s' : Computer} {k k' : Kernel}
  {live live' : List Word} {leave : Leave} {t : Word}

/-- The kernel as an entry leaves it. -/
def leftKernel (k : Kernel) : Leave → Kernel
  | .task _ => k
  | _ => taskPage k

lemma savedKernel_tasks (r : Running) : (savedKernel r).tasks = Function.update
    r.computer.kernel.tasks r.computer.kernel.currentTask
    { r.computer.kernel.tasks r.computer.kernel.currentTask with registers := r.user } := rfl

@[simp] lemma savedKernel_currentTask (r : Running) :
    (savedKernel r).currentTask = r.computer.kernel.currentTask := rfl

lemma taskCurrentSaveState_some (h : taskCurrentSaveState (kernelPage r.computer.kernel)
    (frameOf r.user) = some k) : k = savedKernel r := by
  unfold taskCurrentSaveState at h
  split_ifs at h
  exact (Option.some.inj h).symm

lemma Sound.saved (h : Sound r.computer.kernel live) : Sound (savedKernel r) live :=
  (Sound.pagingSwitch h _).saveRegisters _ _

/-- A system call. -/
lemma call_effect (h : Sound r.computer.kernel live)
    (hallowed : CallAllowed env r.user.eax (savedKernel r))
    (hstep : r.step (.enter 0x80 env) = some r') : ∃ leave k live',
      Served (r.user.eax.toInt = 2) (savedKernel r) live leave k live' ∧
      r'.computer.kernel = leftKernel k leave ∧ r'.user = resumedWith r.user env k leave ∧
      (r.user.eax.toInt ≠ 6 → r.user.eax.toInt ≠ 7 → live' = live ∧ ∀ t, leave ≠ .task t) := by
  obtain ⟨⟨leave, s⟩, hentry, heq⟩ := Option.map_eq_some_iff.1 hstep
  obtain rfl : (⟨s, resumedWith r.user env s.kernel leave⟩ : Running) = r' := heq
  rw [kernelEntry, if_neg (by decide), if_pos rfl] at hentry
  obtain ⟨k, hsave, hcommand⟩ := Option.bind_eq_some_iff.1 hentry
  obtain rfl := taskCurrentSaveState_some hsave
  obtain ⟨⟨out, s₁⟩, hhandle, heq⟩ := Option.map_eq_some_iff.1 hcommand
  obtain ⟨live', hserved, hload⟩ := @handleCommand_served _ _ (r.computer.withKernel (savedKernel r)) _ _ _
    (Sound.saved h) hallowed hhandle
  refine ⟨out, s₁.kernel, live', hserved, ?_⟩
  cases out <;>
  · obtain ⟨rfl, rfl⟩ := Prod.mk.inj heq
    exact ⟨rfl, rfl, hload⟩

/-- The callback of an interrupt runs in the kernel in which the registers are saved. -/
lemma callback_effect {vector : Fin 256} {callback : Handler} (hvector : vector ≠ 0 ∧ vector ≠ 0x80)
    (hcallback : interruptCallbacks (vector.castLE (by decide)) = some callback)
    (hstep : r.step (.enter vector env) = some r') : ∃ leave s,
      callback env (r.computer.withKernel (savedKernel r)) = some (leave, s) ∧
      r'.computer.kernel = leftKernel s.kernel leave ∧ r'.computer.capslock = s.capslock ∧
      r'.user = match leave with
        | .task t => resumedWith r.user env s.kernel (.task t)
        | _ => r.user := by
  obtain ⟨⟨leave, s⟩, hentry, heq⟩ := Option.map_eq_some_iff.1 hstep
  obtain rfl : (⟨s, resumedWith r.user env s.kernel leave⟩ : Running) = r' := heq
  rw [kernelEntry, if_neg hvector.1, if_neg hvector.2, interruptHandler, hcallback] at hentry
  obtain ⟨k, hsave, hentry⟩ := Option.bind_eq_some_iff.1 hentry
  obtain rfl := taskCurrentSaveState_some hsave
  obtain ⟨⟨out, s₁⟩, hcall, heq⟩ := Option.map_eq_some_iff.1 hentry
  refine ⟨out, s₁, hcall, ?_⟩
  cases out <;>
  · obtain ⟨rfl, rfl⟩ := Prod.mk.inj heq
    exact ⟨rfl, rfl, rfl⟩

/-- A tick of the timer goes to the next task. -/
lemma clock_effect (h : Sound r.computer.kernel live) (hstep : r.step (.enter 0x20 env) = some r') :
    ∃ t, t = successor r.computer.kernel r.computer.kernel.currentTask ∧
      Served False (savedKernel r) live (.task t) (taskSwitch (savedKernel r) t) live ∧
      r'.computer.kernel = taskSwitch (savedKernel r) t ∧ r'.computer.capslock = r.computer.capslock ∧
      r'.user = resumedWith r.user env (taskSwitch (savedKernel r) t) (.task t) := by
  have hcallback := interruptCallbacks_eq (Fin.castLE (by decide : 256 ≤ totalInterrupts) 0x20)
  obtain ⟨leave, s, hcall, hkernel, hcaps, huser⟩ := callback_effect (by decide) hcallback hstep
  obtain ⟨k, hnext, heq⟩ := Option.map_eq_some_iff.1 hcall
  obtain ⟨rfl, rfl⟩ := Prod.mk.inj heq
  have hsuccessor : successor (savedKernel r) = successor r.computer.kernel := by
    have hlinks : (fun t => ((savedKernel r).tasks t).next) = fun t => (r.computer.kernel.tasks t).next := by
      funext t
      by_cases ht : t = r.computer.kernel.currentTask
      · simp [savedKernel_tasks, ht]
      · simp [savedKernel_tasks, ht]
    funext t
    rw [successor, successor, hlinks]
    rfl
  have hmem := (Sound.saved h).next_mem
  change taskNext (savedKernel r) = some k at hnext
  rw [taskNext_successor ((Sound.saved h).ne_zero hmem)] at hnext
  have hself : Served False (savedKernel r) live (.result 0) (savedKernel r) live :=
    .own (Sound.saved h) (Sound.saved h) (.refl _ _) (by simp)
  cases hnext
  rw [hsuccessor] at *
  exact ⟨_, rfl, hself.switch hmem, hkernel, hcaps, huser⟩

/-- An interrupt goes through when its callback does. -/
lemma callback_steps {vector : Fin 256} {callback : Handler} {leave : Leave}
    (h : Sound r.computer.kernel live) (hvector : vector ≠ 0 ∧ vector ≠ 0x80)
    (hcallback : interruptCallbacks (vector.castLE (by decide)) = some callback)
    (hcall : callback env (r.computer.withKernel (savedKernel r)) = some (leave, s')) :
    ∃ r', r.step (.enter vector env) = some r' := by
  have hsaved : taskCurrentSaveState (kernelPage r.computer.kernel) (frameOf r.user) =
      some (savedKernel r) := if_neg (h.ne_zero h.current)
  have hentry : kernelEntry vector env r =
      (some (leave, s')).map fun (leave, s) => match leave with
        | .task task => (.task task, s)
        | _ => (.frame, endOfInterrupt (s.withKernel (taskPage s.kernel))) := by
    rw [kernelEntry, if_neg hvector.1, if_neg hvector.2, interruptHandler, hcallback]
    change (taskCurrentSaveState (kernelPage r.computer.kernel) (frameOf r.user)).bind _ = _
    rw [hsaved, Option.bind_some, ← hcall]
    rfl
  exact ⟨_, Option.map_eq_some_iff.2 ⟨_, hentry, rfl⟩⟩

/-- A tick always finds a task. -/
lemma clock_steps (h : Sound r.computer.kernel live) (env : Environment) :
    ∃ r', r.step (.enter 0x20 env) = some r' := by
  have hcallback := interruptCallbacks_eq (Fin.castLE (by decide : 256 ≤ totalInterrupts) 0x20)
  have hnext := taskNext_successor ((Sound.saved h).ne_zero (Sound.saved h).next_mem)
  have hclock : idtClock env (r.computer.withKernel (savedKernel r)) = (taskNext (savedKernel r)).map
      fun k => (.task k.currentTask, (endOfInterrupt (r.computer.withKernel (savedKernel r))).withKernel k) := rfl
  rw [hnext, Option.map_some] at hclock
  exact callback_steps h (by decide) hcallback hclock

/-- So does a key. -/
lemma keyboard_steps (h : Sound r.computer.kernel live) (env : Environment) :
    ∃ r', r.step (.enter 0x21 env) = some r' := by
  have hcallback := interruptCallbacks_eq (Fin.castLE (by decide : 256 ≤ totalInterrupts) 0x21)
  obtain ⟨k, heq, -⟩ := classicKeyboardHandleInterrupt_eq env (r.computer.withKernel (savedKernel r))
  exact callback_steps h (by decide) hcallback heq

lemma keyboardPush_congr {k₁ k₂ : Kernel} (hprocs : k₁.procs = k₂.procs)
    (hcurrent : k₁.currentProcess = k₂.currentProcess) (c : Byte) :
    (keyboardPush k₁ c).procs = (keyboardPush k₂ c).procs := by
  unfold keyboardPush
  dsimp only
  rw [hcurrent]
  split_ifs
  · exact hprocs
  · exact hprocs
  · simp only [setKeyboard, Kernel.setProcess_procs, hprocs]

/-- A key goes to the foreground process. -/
lemma keyboard_effect (h : Sound r.computer.kernel live) (hstep : r.step (.enter 0x21 env) = some r') :
    ∃ k, Handled (savedKernel r) live .frame k live ∧
      k.procs = (keyboardPush r.computer.kernel (scannedChar r.computer.capslock env.scancode)).procs ∧
      r'.computer.kernel = taskPage k ∧
      r'.computer.capslock = scannedCapslock r.computer.capslock env.scancode ∧ r'.user = r.user := by
  have hcallback := interruptCallbacks_eq (Fin.castLE (by decide : 256 ≤ totalInterrupts) 0x21)
  obtain ⟨leave, s, hcall, hkernel, hcaps, huser⟩ := callback_effect (by decide) hcallback hstep
  obtain ⟨k, heq, hpush⟩ :=
    classicKeyboardHandleInterrupt_eq env (r.computer.withKernel (savedKernel r))
  replace hcall : classicKeyboardHandleInterrupt env (r.computer.withKernel (savedKernel r)) =
    some (leave, s) := hcall
  rw [heq] at hcall
  simp only [Option.some.injEq, Prod.mk.injEq] at hcall
  obtain ⟨rfl, rfl⟩ := hcall
  obtain ⟨keyboard, hbuffer⟩ := keyboardPush_eq (kernelPage (savedKernel r))
    (scannedChar r.computer.capslock env.scancode)
  have hprocs := @keyboardPush_congr (kernelPage (savedKernel r)) r.computer.kernel rfl rfl
    (scannedChar r.computer.capslock env.scancode)
  change k = keyboardPush (kernelPage (savedKernel r)) (scannedChar r.computer.capslock env.scancode) ∨
    k = taskPage (keyboardPush (kernelPage (savedKernel r))
      (scannedChar r.computer.capslock env.scancode)) at hpush
  rw [hbuffer] at hpush hprocs
  have hsound : Sound (setKeyboard (kernelPage (savedKernel r))
      (kernelPage (savedKernel r)).currentProcess keyboard) live :=
    ((Sound.saved h).pagingSwitch _).withKeyboard _ _
  refine ⟨k, ?_, ?_, hkernel, hcaps, huser⟩
  · rcases hpush with rfl | rfl
    · exact ⟨hsound, .inl rfl, fun t _ => ⟨rfl, rfl, rfl⟩, .inl rfl, fun _ => rfl, by simp⟩
    · exact ⟨hsound.taskSwitch hsound.current, .inl rfl, fun t _ => ⟨rfl, rfl, rfl⟩, .inl rfl,
        fun _ => rfl, by simp⟩
  · rw [← hprocs]
    rcases hpush with rfl | rfl <;> rfl

/-- Any other interrupt goes back to the task. -/
lemma ignored_effect {vector : Fin 256} (hvector : 0x20 ≤ vector) (hcall : vector ≠ 0x80)
    (hclock : vector ≠ 0x20) (hkeyboard : vector ≠ 0x21)
    (hstep : r.step (.enter vector env) = some r') :
    r'.computer.kernel = taskPage (kernelPage r.computer.kernel) ∧
      r'.computer.capslock = r.computer.capslock ∧ r'.user = r.user := by
  have hcallback := interruptCallbacks_eq (vector.castLE (by decide))
  have hlow : ¬ (vector : ℕ) < 0x20 := by
    have : ((0x20 : Fin 256) : ℕ) ≤ vector := hvector
    omega
  have htick : (vector : ℕ) ≠ 0x20 := fun heq => hclock (Fin.ext heq)
  have hkey : (vector : ℕ) ≠ 0x21 := fun heq => hkeyboard (Fin.ext heq)
  rw [Fin.val_castLE, if_neg hlow, if_neg htick, if_neg hkey] at hcallback
  obtain ⟨⟨leave, s⟩, hentry, heq⟩ := Option.map_eq_some_iff.1 hstep
  obtain rfl : (⟨s, resumedWith r.user env s.kernel leave⟩ : Running) = r' := heq
  have hzero : vector ≠ 0 := by
    rintro rfl
    exact hlow (by decide)
  rw [kernelEntry, if_neg hzero, if_neg hcall, interruptHandler, hcallback] at hentry
  cases hentry
  exact ⟨rfl, rfl, rfl⟩

end AlphaOS.Interrupts
