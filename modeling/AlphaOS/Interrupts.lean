import AlphaOS.ClassicKeyboard
import AlphaOS.ProcessLoad

/-! The tables of `idt/idt.c` and what its handlers do with them: the gates of the interrupt
descriptor table, the callbacks of interrupts and the commands of system calls. -/
namespace AlphaOS.Interrupts
open Processes Tasks

abbrev totalInterrupts : ℕ := 512
abbrev maxIsr80hCommands : ℕ := 1024
abbrev kernelCodeSelector : BitVec 16 := 0x08

local instance neZero_descriptor : NeZero 8 := ⟨by decide⟩
local instance neZero_totalInterrupts : NeZero totalInterrupts := ⟨by decide⟩
local instance neZero_maxIsr80hCommands : NeZero maxIsr80hCommands := ⟨by decide⟩

/-! The gates. -/

/-- A `struct idt_desc` as 8 bytes. -/
abbrev IdtDesc := Fin 8 → Byte

/-- `idt_set`, for a descriptor of the table. -/
def idtSet (address : Word) : IdtDesc
  | 0 => (address &&& 0x0000FFFF).setWidth 8
  | 1 => ((address &&& 0x0000FFFF) >>> 8).setWidth 8
  | 2 => kernelCodeSelector.setWidth 8
  | 3 => (kernelCodeSelector >>> 8).setWidth 8
  | 4 => 0x00
  | 5 => 0xEE
  | 6 => (address >>> 16).setWidth 8
  | 7 => ((address >>> 16) >>> 8).setWidth 8

/-- An interrupt gate as a processor reads it. -/
structure Gate where
  offset : Word
  selector : BitVec 16
  present : Bool
  /-- The lowest privilege that may use the gate with `int`. -/
  dpl : BitVec 2
  type : BitVec 5
  deriving DecidableEq

def gate (desc : IdtDesc) : Gate where
  offset := desc 7 ++ desc 6 ++ desc 1 ++ desc 0
  selector := desc 3 ++ desc 2
  present := (desc 5).getLsbD 7
  dpl := (desc 5 >>> 5).setWidth 2
  type := (desc 5).setWidth 5

/-- The loop of `idt_init` over the entries of `interrupt_pointer_table`. -/
def idtSetLoop (interruptPointerTable : ℕ → Word) : ℕ → ℕ → (ℕ → IdtDesc) → ℕ → IdtDesc
  | 0, _, idt => idt
  | k + 1, i, idt =>
    idtSetLoop interruptPointerTable k (i + 1)
      (Function.update idt i (idtSet (interruptPointerTable i)))

/-- The descriptors that `idt_init` leaves. -/
def idtDescriptors (interruptPointerTable : ℕ → Word) (idtZero isr80hWrapper : Word) : ℕ → IdtDesc :=
  let idt := idtSetLoop interruptPointerTable totalInterrupts 0 fun _ _ => 0
  Function.update (Function.update idt 0 (idtSet idtZero)) 0x80 (idtSet isr80hWrapper)

/-! The callbacks. -/

def idtRegisterInterruptCallback {α : Type*} (callbacks : Fin totalInterrupts → Option α)
    (interrupt : ℤ) (callback : α) : ℤ × (Fin totalInterrupts → Option α) :=
  if interrupt < 0 ∨ interrupt ≥ totalInterrupts then (-einvarg, callbacks) else
  (0, Function.update callbacks (Fin.ofNat _ interrupt.toNat) (some callback))

/-- `idt_handle_exception`. -/
def idtHandleException : Handler := fun _ s =>
  (processTerminate s.kernel (s.kernel.tasks s.kernel.currentTask).process).bind fun k =>
    leaveToNext (print (s.withKernel k) (literal "Program terminated due to an exception\n"))

def idtClock : Handler := fun _ s => leaveToNext (endOfInterrupt s)

/-- The loop of `idt_init` over the exceptions. -/
def registerExceptions {α : Type*} (callback : α) : ℕ → ℕ → (Fin totalInterrupts → Option α) →
    Fin totalInterrupts → Option α
  | 0, _, callbacks => callbacks
  | k + 1, i, callbacks =>
    registerExceptions callback k (i + 1) (idtRegisterInterruptCallback callbacks i callback).2

/-- The callbacks once `idt_init` and `classic_keyboard_init` have run. -/
def interruptCallbacks : Fin totalInterrupts → Option Handler :=
  let callbacks := registerExceptions idtHandleException 0x20 0 fun _ => none
  let callbacks := (idtRegisterInterruptCallback callbacks 0x20 idtClock).2
  (idtRegisterInterruptCallback callbacks 0x21 classicKeyboardHandleInterrupt).2

/-- `interrupt_handler`. -/
def interruptHandler (callbacks : Fin totalInterrupts → Option Handler)
    (interrupt : Fin totalInterrupts) (frame : InterruptFrame) (env : Environment) (s : Computer) :
    Option (Leave × Computer) :=
  let s := s.withKernel (kernelPage s.kernel)
  match callbacks interrupt with
  | none => some (.frame, endOfInterrupt (s.withKernel (taskPage s.kernel)))
  | some callback =>
    (taskCurrentSaveState s.kernel frame).bind fun k =>
    (callback env (s.withKernel k)).map fun (leave, s) =>
      match leave with
      | .task task => (.task task, s)
      | _ => (.frame, endOfInterrupt (s.withKernel (taskPage s.kernel)))

/-! The commands of system calls. -/

/-- A panic gives nothing. -/
def isr80hRegisterCommand {α : Type*} (commands : Fin maxIsr80hCommands → Option α) (commandId : ℤ)
    (command : α) : Option (Fin maxIsr80hCommands → Option α) :=
  if commandId < 0 ∨ commandId ≥ maxIsr80hCommands then none else
  if (commands (Fin.ofNat _ commandId.toNat)).isSome then none else
  some (Function.update commands (Fin.ofNat _ commandId.toNat) (some command))

/-- `isr80h_handle_command`; without a command the result is null. -/
def isr80hHandleCommand (commands : Fin maxIsr80hCommands → Option Handler) (command : Word) : Handler :=
  fun env s =>
    if command.toInt < 0 ∨ command.toInt ≥ maxIsr80hCommands then some (.result 0, s) else
    match commands (Fin.ofNat _ command.toInt.toNat) with
    | none => some (.result 0, s)
    | some commandFunc => commandFunc env s

/-- `isr80h_handler`. -/
def isr80hHandler (commands : Fin maxIsr80hCommands → Option Handler) (command : Word)
    (frame : InterruptFrame) (env : Environment) (s : Computer) : Option (Leave × Computer) :=
  (taskCurrentSaveState (kernelPage s.kernel) frame).bind fun k =>
  (isr80hHandleCommand commands command env (s.withKernel k)).map fun (leave, s) =>
    match leave with
    | .task task => (.task task, s)
    | leave => (leave, s.withKernel (taskPage s.kernel))

/-- `isr80h_register_command` for each pair of an id and a command. -/
def registerAll {α : Type*} : List (ℤ × α) → (Fin maxIsr80hCommands → Option α) →
    Option (Fin maxIsr80hCommands → Option α)
  | [], commands => some commands
  | p :: ps, commands => (isr80hRegisterCommand commands p.1 p.2).bind (registerAll ps)

section Tables
variable {α : Type*} {callbacks : Fin totalInterrupts → Option α} {callback : α}
  {commands table : Fin maxIsr80hCommands → Option α} {ps : List (ℤ × α)} {p : ℤ × α}

lemma idtRegisterInterruptCallback_eq {i : ℕ} (hi : i < totalInterrupts) :
    idtRegisterInterruptCallback callbacks i callback =
      (0, Function.update callbacks ⟨i, hi⟩ (some callback)) := by
  have hnot : ¬ ((i : ℤ) < 0 ∨ (i : ℤ) ≥ totalInterrupts) := by omega
  have hslot : Fin.ofNat totalInterrupts (i : ℤ).toNat = ⟨i, hi⟩ := by
    ext
    simp [Nat.mod_eq_of_lt hi]
  simp only [idtRegisterInterruptCallback, hnot, if_false, hslot]

/-- The loop registers its callback for a range of interrupts. -/
lemma registerExceptions_eq {k i : ℕ} (h : i + k ≤ totalInterrupts) (n : Fin totalInterrupts) :
    registerExceptions callback k i callbacks n =
      if i ≤ n ∧ (n : ℕ) < i + k then some callback else callbacks n := by
  induction k generalizing i callbacks with
  | zero => simp [registerExceptions, show ¬ (i ≤ n ∧ (n : ℕ) < i) by omega]
  | succ k ih =>
    have hi : i < totalInterrupts := by omega
    simp only [registerExceptions, idtRegisterInterruptCallback_eq hi, ih (show i + 1 + k ≤ _ by omega)]
    by_cases hn : (n : ℕ) = i
    · obtain rfl : n = ⟨i, hi⟩ := Fin.ext hn
      simp
    · have hne : n ≠ ⟨i, hi⟩ := fun heq => hn (congrArg Fin.val heq)
      rw [Function.update_of_ne hne]
      exact if_congr (by omega) rfl rfl

/-- The gate of every vector leads to the entry of the pointer table, but for two. -/
lemma idtSetLoop_eq {interruptPointerTable : ℕ → Word} {idt : ℕ → IdtDesc} (k i n : ℕ) :
    idtSetLoop interruptPointerTable k i idt n =
      if i ≤ n ∧ n < i + k then idtSet (interruptPointerTable n) else idt n := by
  induction k generalizing i idt with
  | zero => simp [idtSetLoop, show ¬ (i ≤ n ∧ n < i) by omega]
  | succ k ih =>
    rw [idtSetLoop, ih]
    by_cases hn : n = i
    · simp [hn]
    · rw [Function.update_of_ne hn]
      exact if_congr (by omega) rfl rfl

lemma isr80hRegisterCommand_some :
    isr80hRegisterCommand commands p.1 p.2 = some table ↔
      (0 ≤ p.1 ∧ p.1 < maxIsr80hCommands) ∧ commands (Fin.ofNat _ p.1.toNat) = none ∧
        table = Function.update commands (Fin.ofNat _ p.1.toNat) (some p.2) := by
  unfold isr80hRegisterCommand
  split_ifs with hrange htaken
  · exact iff_of_false (by simp) fun h => by omega
  · refine iff_of_false (by simp) fun h => ?_
    rw [h.2.1] at htaken
    exact Bool.false_ne_true htaken
  · rw [Option.not_isSome_iff_eq_none] at htaken
    have hin : 0 ≤ p.1 ∧ p.1 < maxIsr80hCommands := by omega
    simp only [Option.some.injEq, hin, htaken, true_and]
    exact eq_comm

lemma ofNat_toNat_injective {a b : ℤ} (ha : 0 ≤ a ∧ a < maxIsr80hCommands)
    (hb : 0 ≤ b ∧ b < maxIsr80hCommands)
    (h : Fin.ofNat maxIsr80hCommands a.toNat = Fin.ofNat maxIsr80hCommands b.toNat) : a = b := by
  have hval : a.toNat % 1024 = b.toNat % 1024 := congrArg Fin.val h
  have hlt : a < 1024 ∧ b < 1024 := ⟨ha.2, hb.2⟩
  omega

/-- Commands are registered without a panic exactly when their ids are in the table, free and all
different, and then each is found at its id. -/
theorem registerAll_iff : registerAll ps commands = some table ↔
    (∀ p ∈ ps, (0 ≤ p.1 ∧ p.1 < maxIsr80hCommands) ∧ commands (Fin.ofNat _ p.1.toNat) = none) ∧
    (ps.map Prod.fst).Nodup ∧
    (∀ p ∈ ps, table (Fin.ofNat _ p.1.toNat) = some p.2) ∧
    ∀ i, (∀ p ∈ ps, Fin.ofNat _ p.1.toNat ≠ i) → table i = commands i := by
  induction ps generalizing commands with
  | nil =>
    simp only [registerAll, Option.some.injEq, List.not_mem_nil, false_implies, implies_true,
      List.map_nil, List.nodup_nil, true_and, forall_true_left]
    exact ⟨fun h i => h ▸ rfl, fun h => (funext h).symm⟩
  | cons p ps ih =>
    simp only [registerAll, Option.bind_eq_some_iff, isr80hRegisterCommand_some, ih,
      List.forall_mem_cons, List.map_cons, List.nodup_cons]
    constructor
    · rintro ⟨-, ⟨hp, hfree, rfl⟩, hps, hnodup, hfound, hother⟩
      have hapart : ∀ q ∈ ps, Fin.ofNat maxIsr80hCommands q.1.toNat ≠ Fin.ofNat _ p.1.toNat := by
        intro q hq heq
        have hnone := (hps q hq).2
        rw [heq, Function.update_self] at hnone
        exact absurd hnone (Option.some_ne_none _)
      refine ⟨⟨⟨hp, hfree⟩, fun q hq => ⟨(hps q hq).1, ?_⟩⟩, ⟨?_, hnodup⟩, ⟨?_, hfound⟩, ?_⟩
      · have hnone := (hps q hq).2
        rwa [Function.update_of_ne (hapart q hq)] at hnone
      · intro hmem
        obtain ⟨q, hq, heq⟩ := List.mem_map.1 hmem
        exact hapart q hq (by rw [heq])
      · rw [hother _ hapart, Function.update_self]
      · rintro i ⟨hpi, hpsi⟩
        rw [hother i hpsi, Function.update_of_ne hpi.symm]
    · rintro ⟨⟨⟨hp, hfree⟩, hps⟩, ⟨hnew, hnodup⟩, ⟨hfirst, hfound⟩, hother⟩
      have hapart : ∀ q ∈ ps, Fin.ofNat maxIsr80hCommands q.1.toNat ≠ Fin.ofNat _ p.1.toNat := by
        intro q hq heq
        exact hnew (List.mem_map.2 ⟨q, hq, ofNat_toNat_injective (hps q hq).1 hp heq⟩)
      refine ⟨_, ⟨hp, hfree, rfl⟩, fun q hq => ⟨(hps q hq).1, ?_⟩, hnodup, hfound, fun i hi => ?_⟩
      · rw [Function.update_of_ne (hapart q hq)]
        exact (hps q hq).2
      · by_cases hpi : Fin.ofNat _ p.1.toNat = i
        · rw [← hpi, hfirst, Function.update_self]
        · rw [hother i ⟨hpi, hi⟩, Function.update_of_ne (Ne.symm hpi)]

/-- No panic comes while the ids are in the table, free and all different. -/
lemma registerAll_exists (hps : ∀ p ∈ ps, (0 ≤ p.1 ∧ p.1 < maxIsr80hCommands) ∧
    commands (Fin.ofNat _ p.1.toNat) = none) (hnodup : (ps.map Prod.fst).Nodup) :
    ∃ table, registerAll ps commands = some table := by
  induction ps generalizing commands with
  | nil => exact ⟨commands, rfl⟩
  | cons p ps ih =>
    obtain ⟨hp, hrest⟩ := List.forall_mem_cons.1 hps
    obtain ⟨hnew, hnodup⟩ := List.nodup_cons.1 hnodup
    have hfirst := isr80hRegisterCommand_some.2 ⟨hp.1, hp.2, rfl⟩
    have hfree : ∀ q ∈ ps, (0 ≤ q.1 ∧ q.1 < maxIsr80hCommands) ∧
        Function.update commands (Fin.ofNat _ p.1.toNat) (some p.2) (Fin.ofNat _ q.1.toNat) = none := by
      intro q hq
      refine ⟨(hrest q hq).1, ?_⟩
      rw [Function.update_of_ne]
      · exact (hrest q hq).2
      · intro heq
        exact hnew (List.mem_map.2 ⟨q, hq, ofNat_toNat_injective (hrest q hq).1 hp.1 heq⟩)
    obtain ⟨table, htable⟩ := ih hfree hnodup
    exact ⟨table, by simp only [registerAll, hfirst, Option.bind_some, htable]⟩

end Tables

/-- A number calls the command that was registered for it, and any other of the 2^32 numbers calls
none: the result is null and nothing changes. -/
theorem handleCommand_registered {ps : List (ℤ × Handler)} {table : Fin maxIsr80hCommands → Option Handler}
    (h : registerAll ps (fun _ => none) = some table) (command : Word) :
    (∀ p ∈ ps, command.toInt = p.1 → isr80hHandleCommand table command = p.2) ∧
    ((∀ p ∈ ps, command.toInt ≠ p.1) →
      ∀ env s, isr80hHandleCommand table command env s = some (.result 0, s)) := by
  obtain ⟨hps, -, hfound, hother⟩ := registerAll_iff.1 h
  constructor
  · intro p hp hcommand
    have hin := (hps p hp).1
    funext env s
    simp only [isr80hHandleCommand, hcommand, hfound p hp]
    exact if_neg (by omega)
  · intro hnone env s
    unfold isr80hHandleCommand
    split_ifs with hrange
    · rfl
    · have hfree : table (Fin.ofNat _ command.toInt.toNat) = none := by
        refine hother _ fun p hp heq => hnone p hp ?_
        exact (ofNat_toNat_injective (hps p hp).1 (by omega) heq).symm
      rw [hfree]

variable (interruptPointerTable : ℕ → Word) (idtZero isr80hWrapper : Word)

lemma lowHalf_getLsbD (i : ℕ) : (0x0000FFFF : Word).getLsbD i = decide (i < 16) := by
  have hword : ∀ i : Fin 32, (0x0000FFFF : Word).getLsbD i = decide ((i : ℕ) < 16) := by decide
  by_cases hi : i < 32
  · exact hword ⟨i, hi⟩
  · rw [BitVec.getLsbD_of_ge _ _ (by omega), decide_eq_false (by omega)]

/-- What a processor reads out of a descriptor of `idt_set`: a 32-bit gate of the kernel that user
programs may use. -/
lemma gate_idtSet (address : Word) : gate (idtSet address) = ⟨address, 0x08, true, 3, 0x0E⟩ := by
  have hoffset : (gate (idtSet address)).offset = address := by
    apply BitVec.eq_of_getLsbD_eq
    intro i hi
    simp only [gate, idtSet, BitVec.getLsbD_append, BitVec.getLsbD_setWidth,
      BitVec.getLsbD_ushiftRight, BitVec.getLsbD_and, lowHalf_getLsbD]
    grind
  have hselector : (gate (idtSet address)).selector = 0x08 := by simp [gate, idtSet]
  have hpresent : (gate (idtSet address)).present = true := by simp [gate, idtSet]
  have hdpl : (gate (idtSet address)).dpl = 3 := by simp [gate, idtSet]
  have htype : (gate (idtSet address)).type = 0x0E := by simp [gate, idtSet]
  generalize gate (idtSet address) = g at *
  cases g
  simp_all

lemma idtDescriptors_eq {n : ℕ} (hn : n < totalInterrupts) :
    idtDescriptors interruptPointerTable idtZero isr80hWrapper n = idtSet
      (if n = 0x80 then isr80hWrapper else if n = 0 then idtZero else interruptPointerTable n) := by
  have hloop := @idtSetLoop_eq interruptPointerTable (fun _ _ => 0) totalInterrupts 0 n
  rw [if_pos (by omega)] at hloop
  unfold idtDescriptors
  generalize idtSetLoop interruptPointerTable totalInterrupts 0 (fun _ _ => 0) = idt at hloop
  rw [Function.update_apply, Function.update_apply, hloop]
  split_ifs <;> rfl

/-- Where the processor goes for an interrupt once `idt_init` has run. -/
lemma idtDescriptors_gate {n : ℕ} (hn : n < totalInterrupts) :
    gate (idtDescriptors interruptPointerTable idtZero isr80hWrapper n) =
      ⟨if n = 0x80 then isr80hWrapper else if n = 0 then idtZero else interruptPointerTable n, 0x08,
        true, 3, 0x0E⟩ := by
  rw [idtDescriptors_eq _ _ _ hn, gate_idtSet]

/-- Which interrupts have a callback. -/
lemma interruptCallbacks_eq (n : Fin totalInterrupts) : interruptCallbacks n =
    if (n : ℕ) < 0x20 then some idtHandleException
    else if (n : ℕ) = 0x20 then some idtClock
    else if (n : ℕ) = 0x21 then some classicKeyboardHandleInterrupt else none := by
  have hexceptions := @registerExceptions_eq Handler (fun _ => none) idtHandleException 0x20 0
    (by decide) n
  unfold interruptCallbacks
  generalize registerExceptions idtHandleException 0x20 0 (fun _ => none) = callbacks at hexceptions
  have hclock := @idtRegisterInterruptCallback_eq Handler callbacks idtClock 0x20 (by decide)
  have hkeys := fun t => @idtRegisterInterruptCallback_eq Handler t
    classicKeyboardHandleInterrupt 0x21 (by decide)
  push_cast at hclock hkeys
  rw [hclock, hkeys]
  simp only [Function.update_apply, hexceptions, Fin.ext_iff]
  split_ifs <;> first | omega | rfl

end AlphaOS.Interrupts
