import AlphaOS.Interrupts
import AlphaOS.ProgramArguments
import AlphaOS.StartPath

/-! The system calls of `isr80h/`: the ten commands, their registration, and which of them a number
in `eax` calls. -/
namespace AlphaOS.Interrupts
open Console CString Keyboard Processes Tasks WordMemory

/-- `isr80h_command0_sum`. -/
def isr80hCommand0Sum : Handler := fun _ s =>
  (taskGetStackItem s.kernel s.kernel.currentTask 1).bind fun (v2, k) =>
  (taskGetStackItem k k.currentTask 0).map fun (v1, k) => (.result (v1 + v2), s.withKernel k)

def isr80hCommand1Print : Handler := fun env s =>
  (taskGetStackItem s.kernel s.kernel.currentTask 0).bind fun (userSpaceMsgBuffer, k) =>
  (copyStringFromTask k k.currentTask userSpaceMsgBuffer env.buf 1024).bind fun (_, k) =>
  (stringAt k.kmem.mem env.fuel env.buf).map fun buf => (.result 0, print (s.withKernel k) buf)

/-- The character is signed. -/
def isr80hCommand2Getkey : Handler := fun _ s =>
  let c := keyboardPop s.kernel
  some (.result (c.1.signExtend 32), s.withKernel c.2)

def isr80hCommand3Putchar : Handler := fun _ s =>
  (taskGetStackItem s.kernel s.kernel.currentTask 0).map fun (c, k) =>
    (.result 0, { s.withKernel k with terminal := terminalWritechar s.terminal (c.setWidth 8) 15 })

def isr80hCommand4Malloc : Handler := fun _ s =>
  (taskGetStackItem s.kernel s.kernel.currentTask 0).map fun (size, k) =>
    let ptr := processMalloc k (k.tasks k.currentTask).process size
    (.result ptr.1, s.withKernel ptr.2)

def isr80hCommand5Free : Handler := fun _ s =>
  (taskGetStackItem s.kernel s.kernel.currentTask 0).map fun (ptr, k) =>
    (.result 0, s.withKernel (processFree k (k.tasks k.currentTask).process ptr))

def isr80hCommand6 : Handler := fun env s =>
  (isr80hCommand6ProcessLoadStart env.fuel env.files env.filename env.path s.kernel).map
    fun (next, k) => ((next.map Leave.task).getD (.result 0), s.withKernel k)

def isr80hCommand7 : Handler := fun env s =>
  (isr80hCommand7InvokeSystemCommand env.fuel env.files s.kernel).map fun (res, k) =>
    match res with
    | .error e => (.result (errorPtr e), s.withKernel k)
    | .ok task => (.task task, s.withKernel k)

def isr80hCommand8 : Handler := fun _ s =>
  (isr80hCommand8GetProgramArguments s.kernel).map fun k => (.result 0, s.withKernel k)

def isr80hCommand9Exit : Handler := fun _ s =>
  (processTerminate s.kernel (s.kernel.tasks s.kernel.currentTask).process).bind fun k =>
    leaveToNext (s.withKernel k)

/-- The ids of `enum SystemCommands` with their commands. -/
def systemCommands : List (ℤ × Handler) :=
  [(0, isr80hCommand0Sum), (1, isr80hCommand1Print), (2, isr80hCommand2Getkey),
    (3, isr80hCommand3Putchar), (4, isr80hCommand4Malloc), (5, isr80hCommand5Free),
    (6, isr80hCommand6), (7, isr80hCommand7), (8, isr80hCommand8), (9, isr80hCommand9Exit)]

/-- `isr80h_register_commands`, into an empty table. -/
def isr80hRegisterCommands : Option (Fin maxIsr80hCommands → Option Handler) :=
  registerAll systemCommands fun _ => none

/-- The table that system calls find. -/
def isr80hCommands : Fin maxIsr80hCommands → Option Handler :=
  isr80hRegisterCommands.getD fun _ => none

variable {command : Word} {env : Environment} {s s' : Computer} {frame : InterruptFrame} {leave : Leave}

lemma isr80hRegisterCommands_some : isr80hRegisterCommands = some isr80hCommands := by
  have hids : systemCommands.map Prod.fst = [0, 1, 2, 3, 4, 5, 6, 7, 8, 9] := rfl
  have hin : ∀ p ∈ systemCommands, 0 ≤ p.1 ∧ p.1 < maxIsr80hCommands := by
    intro p hp
    have hmem : p.1 ∈ systemCommands.map Prod.fst := List.mem_map_of_mem hp
    rw [hids] at hmem
    exact (by decide : ∀ i ∈ ([0, 1, 2, 3, 4, 5, 6, 7, 8, 9] : List ℤ),
      0 ≤ i ∧ i < maxIsr80hCommands) p.1 hmem
  obtain ⟨table, htable⟩ := @registerAll_exists Handler (fun _ => none) systemCommands
    (fun p hp => ⟨hin p hp, rfl⟩) (by rw [hids]; decide)
  rw [isr80hCommands, isr80hRegisterCommands, htable, Option.getD_some]

/-- The system call with a number from 0 to 9 is the command of that number, whatever the state is. -/
lemma handleCommand_listed {p : ℤ × Handler} (hp : p ∈ systemCommands) (hcommand : command.toInt = p.1) :
    isr80hHandleCommand isr80hCommands command = p.2 :=
  (handleCommand_registered isr80hRegisterCommands_some command).1 p hp hcommand

/-- Any other number does nothing. -/
lemma handleCommand_unknown (hcommand : ¬ (0 ≤ command.toInt ∧ command.toInt ≤ 9)) :
    isr80hHandleCommand isr80hCommands command env s = some (.result 0, s) := by
  refine (handleCommand_registered isr80hRegisterCommands_some command).2 (fun p hp heq => hcommand ?_)
    env s
  have hmem : p.1 ∈ systemCommands.map Prod.fst := List.mem_map_of_mem hp
  rw [heq]
  exact (by decide : ∀ i ∈ ([0, 1, 2, 3, 4, 5, 6, 7, 8, 9] : List ℤ), 0 ≤ i ∧ i ≤ 9) p.1 hmem

end AlphaOS.Interrupts
