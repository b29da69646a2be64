import AlphaOS.Console
import AlphaOS.ContextSwitch
import AlphaOS.Keyboard
import AlphaOS.TaskSchedule

/-! The kernel with its devices, as a kernel entry finds it and leaves it: `print` of `kernel.c` and
the functions of `task/task.c` and `keyboard/keyboard.c` that entries use. -/
namespace AlphaOS.Interrupts
open Console Elf Kheap Keyboard Processes Tasks WordMemory

/-- `KEYBAORD_CAPS_LOCK_STATE`. -/
inductive CapsLockState
  | off
  | on
  deriving DecidableEq

structure Computer where
  kernel : Kernel
  terminal : Terminal
  /-- `classic_keyboard.capslock_state`. -/
  capslock : CapsLockState
  /-- The ports and bytes of `outb`, the last one first. What the disk driver sends to its own ports
  0x1F2 to 0x1F7 while a program is loaded is left out. -/
  outs : List (BitVec 16 × Byte)

/-- What is not under the kernel's control at an entry. -/
structure Environment where
  /-- The byte that port 0x60 gives. -/
  scancode : Byte
  /-- What the file layer does for a path. -/
  files : List Byte → FileCalls
  /-- Where the local array of a command lies on the kernel's stack. -/
  buf : Word
  filename : Word
  path : Word
  /-- A bound for the strings and lists that are walked to their end. -/
  fuel : ℕ
  /-- What `task_return` leaves in `ebp` and in the flags. -/
  ebp : Word
  flags : Word

/-- How an entry leaves the kernel: through the frame it came with, through the frame with a result
in `eax`, or by a `task_return` on the registers of a task. -/
inductive Leave
  | frame
  | result (value : Word)
  | task (task : Word)

/-- A callback of an interrupt or a system command. A panic gives nothing. -/
abbrev Handler := Environment → Computer → Option (Leave × Computer)

def Computer.withKernel (s : Computer) (k : Kernel) : Computer := { s with kernel := k }

@[simp] lemma Computer.withKernel_kernel (s : Computer) (k : Kernel) :
    (s.withKernel k).kernel = k := rfl
@[simp] lemma Computer.withKernel_terminal (s : Computer) (k : Kernel) :
    (s.withKernel k).terminal = s.terminal := rfl
@[simp] lemma Computer.withKernel_capslock (s : Computer) (k : Kernel) :
    (s.withKernel k).capslock = s.capslock := rfl
@[simp] lemma Computer.withKernel_outs (s : Computer) (k : Kernel) :
    (s.withKernel k).outs = s.outs := rfl

def outb (s : Computer) (port : BitVec 16) (data : Byte) : Computer :=
  { s with outs := (port, data) :: s.outs }

@[simp] lemma outb_kernel (s : Computer) (port : BitVec 16) (data : Byte) :
    (outb s port data).kernel = s.kernel := rfl
@[simp] lemma outb_terminal (s : Computer) (port : BitVec 16) (data : Byte) :
    (outb s port data).terminal = s.terminal := rfl
@[simp] lemma outb_capslock (s : Computer) (port : BitVec 16) (data : Byte) :
    (outb s port data).capslock = s.capslock := rfl
@[simp] lemma outb_outs (s : Computer) (port : BitVec 16) (data : Byte) :
    (outb s port data).outs = (port, data) :: s.outs := rfl

/-- The end of an interrupt, for the master PIC. -/
def endOfInterrupt (s : Computer) : Computer := outb s 0x20 0x20

/-- The characters of a string literal. -/
def literal (string : String) : List Byte := string.toList.map fun c => BitVec.ofNat 8 c.toNat

/-- The characters of a string go to the console in colour 15. -/
def print (s : Computer) (string : List Byte) : Computer :=
  { s with terminal := writeAll s.terminal (string.map fun c => (c, 15)) }

@[simp] lemma print_kernel (s : Computer) (string : List Byte) :
    (print s string).kernel = s.kernel := rfl
@[simp] lemma print_capslock (s : Computer) (string : List Byte) :
    (print s string).capslock = s.capslock := rfl
@[simp] lemma print_outs (s : Computer) (string : List Byte) : (print s string).outs = s.outs := rfl

/-- `task_page`, but for the segment registers. -/
def taskPage (k : Kernel) : Kernel := taskSwitch k k.currentTask

/-- `task_current_save_state`. -/
def taskCurrentSaveState (k : Kernel) (frame : InterruptFrame) : Option Kernel :=
  if k.currentTask = 0 then none else
  some (k.setTask k.currentTask { k.tasks k.currentTask with registers := frame.registers })

/-- `task_next` from a handler, which does not return to it. -/
def leaveToNext (s : Computer) : Option (Leave × Computer) :=
  (taskNext s.kernel).map fun k => (.task k.currentTask, s.withKernel k)

end AlphaOS.Interrupts
