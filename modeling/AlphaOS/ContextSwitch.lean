import AlphaOS.Kernel
import AlphaOS.Machine

/-! Saving and resuming the registers of a task: the interrupt entries of `idt.asm`,
`task_save_state` and the code of `task.asm`. -/
namespace AlphaOS.Tasks
open WordMemory X86

/-- What an interrupt entry leaves on the stack. -/
structure InterruptFrame where
  edi : Word
  esi : Word
  ebp : Word
  reserved : Word
  ebx : Word
  edx : Word
  ecx : Word
  eax : Word
  ip : Word
  cs : Word
  flags : Word
  esp : Word
  ss : Word
  deriving DecidableEq

def readFrame (mem : Mem) (frame : Word) : InterruptFrame where
  edi := read32 mem (frame + 0)
  esi := read32 mem (frame + 4)
  ebp := read32 mem (frame + 8)
  reserved := read32 mem (frame + 12)
  ebx := read32 mem (frame + 16)
  edx := read32 mem (frame + 20)
  ecx := read32 mem (frame + 24)
  eax := read32 mem (frame + 28)
  ip := read32 mem (frame + 32)
  cs := read32 mem (frame + 36)
  flags := read32 mem (frame + 40)
  esp := read32 mem (frame + 44)
  ss := read32 mem (frame + 48)

def readRegisters (mem : Mem) (registers : Word) : Registers where
  edi := read32 mem (registers + 0)
  esi := read32 mem (registers + 4)
  ebp := read32 mem (registers + 8)
  ebx := read32 mem (registers + 12)
  edx := read32 mem (registers + 16)
  ecx := read32 mem (registers + 20)
  eax := read32 mem (registers + 24)
  ip := read32 mem (registers + 28)
  cs := read32 mem (registers + 32)
  flags := read32 mem (registers + 36)
  esp := read32 mem (registers + 40)
  ss := read32 mem (registers + 44)

/-- The registers a frame holds. -/
def InterruptFrame.registers (frame : InterruptFrame) : Registers where
  edi := frame.edi
  esi := frame.esi
  ebp := frame.ebp
  ebx := frame.ebx
  edx := frame.edx
  ecx := frame.ecx
  eax := frame.eax
  ip := frame.ip
  cs := frame.cs
  flags := frame.flags
  esp := frame.esp
  ss := frame.ss

/-- The assignments of `task_save_state`: offsets in `struct registers` and in
`struct interrupt_frame`. -/
def saveFields : List (Word × Word) :=
  [(28, 32), (32, 36), (36, 40), (40, 44), (44, 48), -- ip, cs, flags, esp, ss
    (24, 28), (8, 8), (12, 16), (20, 24), (0, 0), (16, 20), (4, 4)] -- eax, ebp, ebx, ecx, edi, edx, esi

def taskSaveState (mem : Mem) (registers frame : Word) : Mem :=
  copyWords mem registers frame saveFields

/-- An interrupt entry passes the frame and the interrupt or the command on. -/
def interruptEntry (argument : Instr) (handler : Word) : List Instr :=
  [.pushad, .push .esp, argument, .call handler]

/-- The macro `interrupt`. -/
def interruptWrapper (interrupt interruptHandler : Word) : List Instr :=
  interruptEntry (.pushImm interrupt) interruptHandler

def isr80hWrapper (isr80hHandler : Word) : List Instr :=
  interruptEntry (.push .eax) isr80hHandler

/-- The two kinds of kernel entry. -/
inductive Entry
  | interrupt (number : Word)
  | isr80h

def Entry.wrapper : Entry → Word → List Instr
  | .interrupt number => interruptWrapper number
  | .isr80h => isr80hWrapper

/-- `task_return` up to its call. -/
def taskReturnFrame : List Instr :=
  [.mov .ebp .esp,
    .load .ebx .ebp 4,
    .pushMem .ebx 44,
    .pushMem .ebx 40,
    .pushf,
    .pop .eax,
    .orImm .eax 0x200,
    .push .eax,
    .pushMem .ebx 32,
    .pushMem .ebx 28,
    .load16 .eax .ebx 44,
    .movSeg .ds .eax,
    .movSeg .es .eax,
    .movSeg .fs .eax,
    .movSeg .gs .eax,
    .pushMem .ebp 4]

def taskReturn (restoreGeneralPurposeRegisters : Word) : List Instr :=
  taskReturnFrame ++ [.call restoreGeneralPurposeRegisters, .addImm .esp 4, .iretd]

/-- `restore_general_purpose_registers` up to its return. -/
def restoreLoads : List Instr :=
  [.push .ebp,
    .mov .ebp .esp,
    .load .ebx .ebp 8,
    .load .edi .ebx 0,
    .load .esi .ebx 4,
    .load .ebp .ebx 8,
    .load .edx .ebx 16,
    .load .ecx .ebx 20,
    .load .eax .ebx 24,
    .load .ebx .ebx 12,
    .pop .ebp]

def restoreGeneralPurposeRegisters : List Instr := restoreLoads ++ [.ret]

/-- The registers of a machine in user mode. -/
def userRegisters (m : Machine) : Registers where
  edi := m.gpr .edi
  esi := m.gpr .esi
  ebp := m.gpr .ebp
  ebx := m.gpr .ebx
  edx := m.gpr .edx
  ecx := m.gpr .ecx
  eax := m.gpr .eax
  ip := m.eip
  cs := m.cs
  flags := m.flags
  esp := m.gpr .esp
  ss := m.ss

lemma taskSaveState_registers {mem : Mem} {registers frame : Word}
    (h : Apart registers 48 frame 52) :
    readRegisters (taskSaveState mem registers frame) registers =
      (readFrame mem frame).registers := by
  have hdst : saveFields.Pairwise fun p q => Apart (registers + p.1) 4 (registers + q.1) 4 := by
    have hfields : saveFields.Pairwise fun p q =>
      4 ≤ (p.1 - q.1).toNat ∧ 4 ≤ (q.1 - p.1).toNat := by simp [saveFields]
    exact hfields.imp fun hpq => apart_offset _ hpq.1 hpq.2
  have hsrc : ∀ p ∈ saveFields, ∀ q ∈ saveFields,
      Apart (frame + p.2) 4 (registers + q.1) 4 := by
    have hfields : ∀ p ∈ saveFields, p.1.toNat + 4 ≤ 48 ∧ p.2.toNat + 4 ≤ 52 := by simp [saveFields]
    exact fun p hp q hq => h.symm.word (hfields p hp).2 (hfields q hq).1
  have hword := copyWords_word mem hdst hsrc
  simp only [saveFields, List.forall_mem_cons] at hword
  obtain ⟨hip, hcs, hflags, hesp, hss, heax, hebp, hebx, hecx, hedi, hedx, hesi, -⟩ := hword
  simp only [readRegisters, taskSaveState, saveFields, readFrame, InterruptFrame.registers, *]

variable {code : Code} {alu : Word → Word → Word}

/-- The pushes of `task_return` do not reach the saved registers. -/
lemma read32_registers {s registers : Word} (hapart : Apart registers 48 (s + 32) 32) {mem : Mem}
    {i j : Word} (hi : i.toNat + 4 ≤ 48) (hj : (j - 32).toNat + 4 ≤ 32) (v : Word) :
    read32 (write32 mem (s + j) v) (registers + i) = read32 mem (registers + i) := by
  have hbase : s + j = s + 32 + (j - 32) := by
    rw [BitVec.add_assoc, BitVec.add_comm 32, BitVec.sub_add_cancel]
  rw [hbase]
  exact read32_write32_apart (hapart.word hi hj) v

variable (alu) in
/-- What `task_return` pushes below its own return address. -/
lemma taskReturnFrame_spec (m : Machine) {s registers : Word} (hesp : m.gpr .esp = s + 64)
    (hargument : read32 m.mem (s + 68) = registers) (hapart : Apart registers 48 (s + 32) 32) :
    let m₁ := taskReturnFrame.foldl (exec alu) m
    m₁.gpr .esp = s + 40 ∧ m₁.gpr .ebp = s + 64 ∧ m₁.cs = m.cs ∧
    read32 m₁.mem (s + 40) = registers ∧
    read32 m₁.mem (s + 44) = read32 m.mem (registers + 28) ∧
    read32 m₁.mem (s + 48) = read32 m.mem (registers + 32) ∧
    read32 m₁.mem (s + 52) = m.flags &&& 0x00FCFFFF ||| 0x200 ∧
    read32 m₁.mem (s + 56) = read32 m.mem (registers + 40) ∧
    read32 m₁.mem (s + 60) = read32 m.mem (registers + 44) ∧
    readRegisters m₁.mem registers = readRegisters m.mem registers := by
  simp only [BitVec.ofNat_eq_ofNat] at hesp hargument
  simp (disch := decide) only [taskReturnFrame, BitVec.ofNat_eq_ofNat, exec, Machine.push,
    Machine.drop, Machine.setReg, Machine.word, hesp, List.foldl_cons, List.foldl_nil,
    Function.update_self, Function.update_of_ne, BitVec.sub_eq_add_neg, BitVec.add_assoc,
    BitVec.reduceNeg, BitVec.reduceAdd, read32_write32, read32_write32_offset, hargument,
    read32_registers hapart, readRegisters, and_self]

variable (alu) in
/-- The loads leave the stack as it was; the last `pop` undoes the load of `ebp`. -/
lemma restoreLoads_spec (m : Machine) {s registers : Word} (hesp : m.gpr .esp = s + 36)
    (hargument : read32 m.mem (s + 40) = registers) (hapart : Apart registers 48 (s + 32) 32) :
    let m₁ := restoreLoads.foldl (exec alu) m
    let r := readRegisters m.mem registers
    m₁.gpr .esp = s + 36 ∧ m₁.cs = m.cs ∧ m₁.mem = write32 m.mem (s + 32) (m.gpr .ebp) ∧
    m₁.gpr .edi = r.edi ∧ m₁.gpr .esi = r.esi ∧ m₁.gpr .ebp = m.gpr .ebp ∧
    m₁.gpr .ebx = r.ebx ∧ m₁.gpr .edx = r.edx ∧ m₁.gpr .ecx = r.ecx ∧ m₁.gpr .eax = r.eax := by
  simp only [BitVec.ofNat_eq_ofNat] at hesp hargument
  simp (disch := decide) only [restoreLoads, BitVec.ofNat_eq_ofNat, exec, Machine.push,
    Machine.drop, Machine.setReg, Machine.word, hesp, List.foldl_cons, List.foldl_nil,
    Function.update_self, Function.update_of_ne, BitVec.sub_eq_add_neg, BitVec.add_assoc,
    BitVec.reduceNeg, BitVec.reduceAdd, read32_write32, read32_write32_offset, hargument,
    read32_registers hapart, readRegisters, and_self]

lemma taskReturnFrame_falls : ∀ i ∈ taskReturnFrame, i.falls := by
  decide

lemma restoreLoads_falls : ∀ i ∈ restoreLoads, i.falls := by
  decide

variable (alu) in
/-- The callee returns with the saved registers, but for `ebp`. -/
lemma restoreGeneralPurposeRegisters_run {m : Machine} {s registers e : Word}
    (hcode : Loaded code m.eip restoreGeneralPurposeRegisters e) (hesp : m.gpr .esp = s + 36)
    (hargument : read32 m.mem (s + 40) = registers) (hapart : Apart registers 48 (s + 32) 32) :
    let r := readRegisters m.mem registers
    ∃ m', run code alu 12 m = some m' ∧ m'.eip = read32 m.mem (s + 36) ∧
      m'.gpr .esp = s + 40 ∧ m'.cs = m.cs ∧ m'.mem = write32 m.mem (s + 32) (m.gpr .ebp) ∧
      m'.gpr .edi = r.edi ∧ m'.gpr .esi = r.esi ∧ m'.gpr .ebp = m.gpr .ebp ∧
      m'.gpr .ebx = r.ebx ∧ m'.gpr .edx = r.edx ∧ m'.gpr .ecx = r.ecx ∧ m'.gpr .eax = r.eax := by
  obtain ⟨b, hloads, hret⟩ := hcode.append
  have hrun := hloads.run alu restoreLoads_falls
  obtain ⟨hesp₁, hcs, hmem, hgpr⟩ := restoreLoads_spec alu m hesp hargument hapart
  generalize restoreLoads.foldl (exec alu) m = m₁ at *
  obtain ⟨next, -, hstep⟩ := Loaded.step alu (m := { m₁ with eip := b }) hret
  refine ⟨_, run_trans hrun (run_one hstep), ?_, ?_, hcs, hmem, ?_⟩
  · have heip : read32 m₁.mem (m₁.gpr .esp + 0) = read32 m.mem (s + 36) := by
      have hzero : s + 36 + 0 = s + 36 := BitVec.add_zero _
      rw [hesp₁, hzero, hmem, read32_write32_offset (by decide) (by decide)]
    exact heip
  · simp [exec, Machine.drop, Machine.setReg, hesp₁, BitVec.add_assoc]
  · simpa [exec, Machine.drop, Machine.setReg] using hgpr

/-- A return to another privilege level loads the whole frame. -/
lemma userRegisters_iretd {m : Machine} (h : rpl (m.word .esp 4) ≠ rpl m.cs) :
    userRegisters m.iretd = { userRegisters m with
      ip := m.word .esp 0
      cs := m.word .esp 4
      flags := m.word .esp 8
      esp := m.word .esp 12
      ss := m.word .esp 16 } := by
  simp only [Machine.iretd, if_neg h]
  simp [userRegisters, Machine.setReg]

variable (alu) in
/-- `task_return` runs into user mode with the registers it is given, but for `ebp` and the
flags, which are the kernel's. -/
theorem taskReturn_run {m : Machine} {registers restore e e' : Word}
    (hcode : Loaded code m.eip (taskReturn restore) e)
    (hrestore : Loaded code restore restoreGeneralPurposeRegisters e')
    (hlevel : rpl m.cs = 0) (huser : rpl (readRegisters m.mem registers).cs = 3)
    (hargument : m.word .esp 4 = registers) (hapart : Apart registers 48 (m.gpr .esp - 32) 32) :
    ∃ m', run code alu 31 m = some m' ∧
      userRegisters m' = { readRegisters m.mem registers with
        ebp := m.gpr .esp
        flags := m.flags &&& 0x00FCFFFF ||| 0x200 } := by
  obtain ⟨s, hs⟩ : ∃ s, m.gpr .esp = s + 64 := ⟨m.gpr .esp - 64, (BitVec.sub_add_cancel _ _).symm⟩
  have hsub : s + 64 - 32 = s + 32 := by simp [BitVec.sub_eq_add_neg, BitVec.add_assoc]
  rw [hs, hsub] at hapart
  have hargument' : read32 m.mem (s + 68) = registers := by
    rw [← hargument, Machine.word, hs, BitVec.add_assoc]
    rfl
  obtain ⟨hesp₁, hebp₁, hcs₁, harg₁, hip₁, hucs₁, hflags₁, huesp₁, huss₁, hregs₁⟩ :=
    taskReturnFrame_spec alu m hs hargument' hapart
  obtain ⟨b, hframe, hrest⟩ := hcode.append
  have hrun₁ := hframe.run alu taskReturnFrame_falls
  generalize taskReturnFrame.foldl (exec alu) m = m₁ at *
  -- the call leaves its return address at `s + 36`
  obtain ⟨ret, hadd, hcall⟩ := Loaded.step alu (m := { m₁ with eip := b }) hrest
  obtain ⟨m₂, hm₂⟩ : ∃ m₂, exec alu { m₁ with eip := ret } (.call restore) = m₂ := ⟨_, rfl⟩
  have hesp₂ : m₂.gpr .esp = s + 36 := by
    rw [← hm₂]
    simp [exec, Machine.push, Machine.setReg, hesp₁, BitVec.sub_eq_add_neg, BitVec.add_assoc]
  have hmem₂ : m₂.mem = write32 m₁.mem (s + 36) ret := by
    rw [← hm₂]
    simp [exec, Machine.push, hesp₁, BitVec.sub_eq_add_neg, BitVec.add_assoc]
  have hebp₂ : m₂.gpr .ebp = s + 64 := by
    rw [← hm₂, ← hebp₁]
    rfl
  have hcs₂ : m₂.cs = m.cs := by
    rw [← hm₂, ← hcs₁]
    rfl
  have heip₂ : m₂.eip = restore := by
    rw [← hm₂]
    rfl
  have hregs₂ : readRegisters m₂.mem registers = readRegisters m.mem registers := by
    rw [← hregs₁, hmem₂]
    simp (disch := decide) only [readRegisters, read32_registers hapart]
  have harg₂ : read32 m₂.mem (s + 40) = registers := by
    rw [hmem₂, read32_write32_offset (by decide) (by decide), harg₁]
  have hret₂ : read32 m₂.mem (s + 36) = ret := by
    rw [hmem₂, read32_write32]
  rw [← heip₂] at hrestore
  obtain ⟨m₃, hrun₃, heip₃, hesp₃, hcs₃, hmem₃, hgpr₃⟩ :=
    restoreGeneralPurposeRegisters_run alu hrestore hesp₂ harg₂ hapart
  rw [hregs₂] at hgpr₃
  rw [hmem₂, hebp₂] at hmem₃
  -- the argument is dropped, then `iretd` pops what the first block pushed
  rw [← hret₂, ← heip₃] at hadd
  obtain ⟨next₄, hiret, hstep₄⟩ := Loaded.step alu hadd
  obtain ⟨m₄, hm₄⟩ : ∃ m₄, exec alu { m₃ with eip := next₄ } (.addImm .esp 4) = m₄ := ⟨_, rfl⟩
  have heip₄ : m₄.eip = next₄ := by
    rw [← hm₄]
    rfl
  rw [← heip₄] at hiret
  obtain ⟨next₅, -, hstep₅⟩ := Loaded.step alu hiret
  have hesp₄ : m₄.gpr .esp = s + 44 := by
    rw [← hm₄]
    simp [exec, Machine.setReg, hesp₃, BitVec.add_assoc]
  have hgpr₄ : ∀ r, r ≠ .esp → m₄.gpr r = m₃.gpr r := by
    intro r hr
    rw [← hm₄]
    simp [exec, Machine.setReg, hr]
  have hpop : ∀ i : Word, 4 ≤ (44 + i - 36).toNat ∧ 4 ≤ (36 - (44 + i)).toNat →
      4 ≤ (44 + i - 32).toNat ∧ 4 ≤ (32 - (44 + i)).toNat →
      m₄.word .esp i = read32 m₁.mem (s + (44 + i)) := by
    intro i h₁ h₂
    have hmem₄ : m₄.mem = m₃.mem := by
      rw [← hm₄]
      rfl
    rw [Machine.word, hesp₄, BitVec.add_assoc, hmem₄, hmem₃, read32_write32_offset h₂.1 h₂.2,
      read32_write32_offset h₁.1 h₁.2]
  have hcs : m₄.word .esp 4 = (readRegisters m.mem registers).cs :=
    (hpop _ (by decide) (by decide)).trans hucs₁
  have hlevels : rpl (m₄.word .esp 4) ≠ rpl m₄.cs := by
    have hcs₄ : m₄.cs = m.cs := by
      rw [← hcs₂, ← hcs₃, ← hm₄]
      rfl
    rw [hcs, huser, hcs₄, hlevel]
    decide
  have hrun : run code alu 31 m = some (exec alu { m₄ with eip := next₅ } .iretd) := by
    have hcallee := run_trans (run_trans hrun₁ (run_one (hm₂ ▸ hcall))) hrun₃
    exact run_trans (run_trans hcallee (run_one (hm₄ ▸ hstep₄))) (run_one hstep₅)
  have hresult : userRegisters (exec alu { m₄ with eip := next₅ } .iretd) =
      userRegisters m₄.iretd := rfl
  refine ⟨_, hrun, ?_⟩
  rw [hresult, userRegisters_iretd hlevels, hcs,
    (hpop 0 (by decide) (by decide)).trans hip₁, (hpop 8 (by decide) (by decide)).trans hflags₁,
    (hpop 12 (by decide) (by decide)).trans huesp₁, (hpop 16 (by decide) (by decide)).trans huss₁]
  simp [userRegisters, hgpr₄, hgpr₃, hebp₂, hs, readRegisters]

variable (alu) in
/-- The frame a kernel entry builds holds the interrupted registers. -/
lemma interruptEntry_run (u : Machine) (esp₀ ss₀ cs₀ : Word) {wrapper handler e : Word}
    {entry : Entry}
    (hcode : Loaded code wrapper (entry.wrapper handler) e) :
    ∃ m, run code alu 4 (u.interrupt esp₀ ss₀ cs₀ wrapper) = some m ∧ m.eip = handler ∧
      m.word .esp 8 = esp₀ - 52 ∧
      (readFrame m.mem (m.word .esp 8)).registers = userRegisters u := by
  obtain ⟨s, hs⟩ : ∃ s, esp₀ = s + 72 := ⟨esp₀ - 72, (BitVec.sub_add_cancel _ _).symm⟩
  obtain ⟨argument, hwrapper, hfalls, v, hpush⟩ : ∃ argument : Instr,
      entry.wrapper handler = [.pushad, .push .esp, argument] ++ [.call handler] ∧
      argument.falls ∧ ∃ v, ∀ m : Machine, m.gpr .eax = u.gpr .eax →
        exec alu m argument = m.push v := by
    cases entry with
    | interrupt n => exact ⟨.pushImm n, rfl, rfl, n, fun m _ => rfl⟩
    | isr80h => exact ⟨.push .eax, rfl, rfl, u.gpr .eax, fun m hm => congrArg m.push hm⟩
  rw [hwrapper] at hcode
  obtain ⟨b, hblock, hcall⟩ := hcode.append
  have heip : (u.interrupt esp₀ ss₀ cs₀ wrapper).eip = wrapper := rfl
  rw [← heip] at hblock
  have hrun := hblock.run alu (List.forall_mem_cons.2 ⟨rfl,
    List.forall_mem_cons.2 ⟨rfl, List.forall_mem_singleton.2 hfalls⟩⟩)
  have hfold : [Instr.pushad, .push .esp, argument].foldl (exec alu)
      (u.interrupt esp₀ ss₀ cs₀ wrapper) =
      ([Instr.pushad, .push .esp].foldl (exec alu) (u.interrupt esp₀ ss₀ cs₀ wrapper)).push v :=
    hpush _ rfl
  rw [hfold] at hrun
  obtain ⟨next, -, hstep⟩ := Loaded.step alu (m := { ([Instr.pushad, .push .esp].foldl
    (exec alu) (u.interrupt esp₀ ss₀ cs₀ wrapper)).push v with eip := b }) hcall
  refine ⟨_, run_trans hrun (run_one hstep), rfl, ?_⟩
  rw [hs]
  simp (disch := decide) only [exec, Machine.interrupt, Machine.pushad, Machine.push,
    Machine.setReg, Machine.word, List.foldl_cons, List.foldl_nil, Function.update_self,
    Function.update_of_ne, BitVec.ofNat_eq_ofNat, BitVec.sub_eq_add_neg, BitVec.add_assoc,
    BitVec.reduceNeg, BitVec.reduceAdd, read32_write32, read32_write32_offset, readFrame,
    InterruptFrame.registers, userRegisters, and_self]

/-- A kernel state in which the frame that `m` has just pushed is about to be saved. -/
structure Saves (m : Machine) (mem : Mem) (registers : Word) : Prop where
  kept : ∀ x, InRange (m.word .esp 8) 52 x → mem x = m.mem x
  apart : Apart registers 48 (m.word .esp 8) 52

/-- A call of `task_return` on registers that are still those of `mem`, on a kernel stack
elsewhere. -/
structure Returns (code : Code) (mem : Mem) (registers : Word) (m : Machine) : Prop where
  level : rpl m.cs = 0
  argument : m.word .esp 4 = registers
  kept : ∀ x, InRange registers 48 x → m.mem x = mem x
  apart : Apart registers 48 (m.gpr .esp - 32) 32
  code : ∃ restore e e', Loaded code m.eip (taskReturn restore) e ∧
    Loaded code restore restoreGeneralPurposeRegisters e'

lemma readFrame_congr {mem mem' : Mem} {frame : Word}
    (h : ∀ x, InRange frame 52 x → mem' x = mem x) : readFrame mem' frame = readFrame mem frame := by
  have hword : ∀ {i : Word}, i.toNat + 4 ≤ 52 → read32 mem' (frame + i) = read32 mem (frame + i) :=
    fun hi => read32_eq_of_same fun x hx => h x (inRange_add hx hi)
  simp (disch := decide) only [readFrame, hword]

lemma readRegisters_congr {mem mem' : Mem} {registers : Word}
    (h : ∀ x, InRange registers 48 x → mem' x = mem x) :
    readRegisters mem' registers = readRegisters mem registers := by
  have hword : ∀ {i : Word}, i.toNat + 4 ≤ 48 →
      read32 mem' (registers + i) = read32 mem (registers + i) :=
    fun hi => read32_eq_of_same fun x hx => h x (inRange_add hx hi)
  simp (disch := decide) only [readRegisters, hword]

variable (alu) in
/-- A task saved at a kernel entry resumes with its registers but for `ebp` and the flags. -/
lemma Returns.run {u m₁ m₂ : Machine} {mem : Mem} {registers : Word} (huser : rpl u.cs = 3)
    (hframe : (readFrame m₁.mem (m₁.word .esp 8)).registers = userRegisters u)
    (hsave : Saves m₁ mem registers)
    (h : Returns code (taskSaveState mem registers (m₁.word .esp 8)) registers m₂) :
    ∃ m₃, run code alu 31 m₂ = some m₃ ∧ userRegisters m₃ = { userRegisters u with
      ebp := m₂.gpr .esp
      flags := m₂.flags &&& 0x00FCFFFF ||| 0x200 } := by
  have hsaved : readRegisters m₂.mem registers = userRegisters u := by
    rw [readRegisters_congr h.kept, taskSaveState_registers hsave.apart,
      readFrame_congr hsave.kept, hframe]
  obtain ⟨restore, e, e', hcode, hrestore⟩ := h.code
  have hrun := taskReturn_run alu hcode hrestore h.level (by rwa [hsaved]) h.argument h.apart
  rwa [hsaved] at hrun

variable (alu) in
/-- The context switch gives a task its registers back exactly when the kernel's stack
pointer and flags at the call of `task_return` are what its `ebp` and flags were. -/
theorem contextSwitch_iff (u : Machine) (esp₀ ss₀ cs₀ : Word) {wrapper handler e : Word}
    {entry : Entry}
    (hcode : Loaded code wrapper (entry.wrapper handler) e) (huser : rpl u.cs = 3) :
    ∃ m₁, run code alu 4 (u.interrupt esp₀ ss₀ cs₀ wrapper) = some m₁ ∧ m₁.eip = handler ∧
      ∀ mem registers m₂, Saves m₁ mem registers →
        Returns code (taskSaveState mem registers (m₁.word .esp 8)) registers m₂ →
        ∃ m₃, run code alu 31 m₂ = some m₃ ∧
          (userRegisters m₃ = { userRegisters u with flags := u.flags ||| 0x200 } ↔
            m₂.gpr .esp = u.gpr .ebp ∧ m₂.flags &&& 0x00FCFFFF ||| 0x200 = u.flags ||| 0x200) := by
  obtain ⟨m₁, hrun, heip, -, hframe⟩ := interruptEntry_run alu u esp₀ ss₀ cs₀ hcode
  refine ⟨m₁, hrun, heip, fun mem registers m₂ hsave hreturn => ?_⟩
  obtain ⟨m₃, hrun₃, hregs⟩ := hreturn.run alu huser hframe hsave
  refine ⟨m₃, hrun₃, ?_⟩
  rw [hregs]
  simp [userRegisters]

/-- Code placed at an address, one address an instruction. -/
def placed (a : Word) (is : List Instr) : Code :=
  fun x => is[(x - a).toNat]?.map fun i => (i, x + 1)

lemma loaded_placed (a : Word) (pre is post : List Instr) (h : (pre ++ is).length < 2 ^ 32) :
    Loaded (placed a (pre ++ is ++ post)) (a + BitVec.ofNat 32 pre.length) is
      (a + BitVec.ofNat 32 (pre ++ is).length) := by
  induction is generalizing pre with
  | nil => simp [Loaded]
  | cons i is ih =>
    have hlength : (pre ++ i :: is).length = pre.length + (is.length + 1) := by simp
    have hindex : (a + BitVec.ofNat 32 pre.length - a).toNat = pre.length := by
      rw [BitVec.add_comm, BitVec.add_sub_cancel, BitVec.toNat_ofNat]
      omega
    have hrest := ih (pre ++ [i]) (by simpa using h)
    rw [List.append_assoc pre [i] is, List.singleton_append] at hrest
    refine ⟨a + BitVec.ofNat 32 (pre ++ [i]).length, ?_, hrest⟩
    rw [placed, hindex, List.length_append, List.length_singleton, BitVec.ofNat_add,
      ← BitVec.add_assoc]
    simp

/-- A timer entry, `task_return` and its callee, one after the other. -/
def oneKernel : Code :=
  placed 0x1000 (interruptWrapper 0x20 0x4000 ++ taskReturn 0x1017 ++
    restoreGeneralPurposeRegisters)

/-- A task interrupted with this `ebp`. -/
def oneTask (ebp : Word) : Machine where
  gpr := fun
    | .ebp => ebp
    | .esp => 0x3FE000
    | _ => 7
  seg := fun _ => 0x23
  eip := 0x400000
  cs := 0x1B
  ss := 0x23
  flags := 0x202
  mem := fun _ => 0

/-- The kernel calling `task_return` with the registers at `0x1000004`. -/
def oneReturn (mem : Mem) : Machine where
  gpr := fun
    | .esp => 0x200000
    | _ => 0
  seg := fun _ => 0x10
  eip := 0x1004
  cs := 0x8
  ss := 0x10
  flags := 0x2
  mem := write32 mem 0x200004 0x1000004

lemma oneKernel_loaded :
    Loaded oneKernel 0x1000 ((Entry.interrupt 0x20).wrapper 0x4000) 0x1004 ∧
    Loaded oneKernel 0x1004 (taskReturn 0x1017) 0x1017 ∧
    Loaded oneKernel 0x1017 restoreGeneralPurposeRegisters 0x1023 := by
  have hwrapper : ∀ n h, (interruptWrapper n h).length = 4 := fun _ _ => rfl
  have hreturn : ∀ a, (taskReturn a).length = 19 := fun _ => rfl
  have hrestore : restoreGeneralPurposeRegisters.length = 12 := rfl
  have h₁ := loaded_placed 0x1000 [] (interruptWrapper 0x20 0x4000)
    (taskReturn 0x1017 ++ restoreGeneralPurposeRegisters)
  have h₂ := loaded_placed 0x1000 (interruptWrapper 0x20 0x4000) (taskReturn 0x1017)
    restoreGeneralPurposeRegisters
  have h₃ := loaded_placed 0x1000 (interruptWrapper 0x20 0x4000 ++ taskReturn 0x1017)
    restoreGeneralPurposeRegisters []
  simp [hwrapper, hreturn, hrestore] at h₁ h₂ h₃
  simp [oneKernel, Entry.wrapper, h₁, h₂, h₃]

lemma oneReturn_returns (mem : Mem) : Returns oneKernel mem 0x1000004 (oneReturn mem) := by
  have hlevel : rpl 0x8 = 0 := by decide
  have hargument : (oneReturn mem).word .esp 4 = 0x1000004 := by
    have haddr : (0x200000 : Word) + 4 = 0x200004 := by decide
    change read32 (write32 mem 0x200004 0x1000004) (0x200000 + 4) = 0x1000004
    rw [haddr, read32_write32]
  have hkept : Apart 0x1000004 48 0x200004 4 := (apart_of_le (by decide) (by decide)).symm
  have hapart : Apart 0x1000004 48 (0x200000 - 32) 32 :=
    (apart_of_le (by decide) (by decide)).symm
  exact ⟨hlevel, hargument, fun x hx => if_neg (hkept x hx), hapart, 0x1017, 0x1017, 0x1023,
    oneKernel_loaded.2⟩

lemma oneTask_saves {m : Machine} (hframe : m.word .esp 8 = 0x600000 - 52) :
    Saves m m.mem 0x1000004 := by
  have hapart : Apart 0x1000004 48 (0x600000 - 52) 52 :=
    (apart_of_le (by decide) (by decide)).symm
  exact ⟨fun _ _ => rfl, by rwa [hframe]⟩

/-- For a task whose `ebp` is by chance the kernel's stack pointer. -/
theorem contextSwitch_iff_oneTask : ∃ m₁ m₃,
    run oneKernel (fun _ v => v) 4 ((oneTask 0x200000).interrupt 0x600000 0x10 0x8 0x1000) =
      some m₁ ∧
    run oneKernel (fun _ v => v) 31
      (oneReturn (taskSaveState m₁.mem 0x1000004 (m₁.word .esp 8))) = some m₃ ∧
    userRegisters m₃ = { userRegisters (oneTask 0x200000) with flags := 0x202 } := by
  have huser : rpl (oneTask 0x200000).cs = 3 := by decide
  have hflags : (2 : Word) &&& 0x00FCFFFF ||| 0x200 = 0x202 ||| 0x200 := by decide
  obtain ⟨m₀, hrun₀, -, hword, -⟩ := interruptEntry_run (fun _ v => v)
    (oneTask 0x200000) 0x600000 0x10 0x8 oneKernel_loaded.1
  obtain ⟨m₁, hrun₁, -, hswitch⟩ := contextSwitch_iff (fun _ v => v)
    (oneTask 0x200000) 0x600000 0x10 0x8 oneKernel_loaded.1 huser
  rw [← Option.some.inj (hrun₀.symm.trans hrun₁)] at hswitch
  obtain ⟨m₃, hrun₃, hiff⟩ := hswitch m₀.mem 0x1000004 _ (oneTask_saves hword) (oneReturn_returns _)
  exact ⟨m₀, m₃, hrun₀, hrun₃, hiff.2 ⟨rfl, hflags⟩⟩

/-- A task interrupted in a function with a frame pointer resumes with the kernel's. -/
theorem contextSwitch_fails : ∃ m₁ m₃,
    run oneKernel (fun _ v => v) 4 ((oneTask 0x3FEF00).interrupt 0x600000 0x10 0x8 0x1000) =
      some m₁ ∧
    run oneKernel (fun _ v => v) 31
      (oneReturn (taskSaveState m₁.mem 0x1000004 (m₁.word .esp 8))) = some m₃ ∧
    (userRegisters m₃).ebp = 0x200000 ∧ (userRegisters (oneTask 0x3FEF00)).ebp = 0x3FEF00 := by
  obtain ⟨m₁, hrun₁, -, hword, hframe⟩ := interruptEntry_run (fun _ v => v)
    (oneTask 0x3FEF00) 0x600000 0x10 0x8 oneKernel_loaded.1
  obtain ⟨m₃, hrun₃, hregs⟩ := (oneReturn_returns _).run (fun _ v => v) (by decide) hframe
    (oneTask_saves hword)
  refine ⟨m₁, m₃, hrun₁, hrun₃, ?_, rfl⟩
  rw [hregs]
  rfl

end AlphaOS.Tasks
