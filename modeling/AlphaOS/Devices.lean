import AlphaOS.TaskThreads

/-! What entries do to the devices other than the disk: the interrupt controller gets one end of interrupt
for each interrupt that it may have sent, and caps lock goes with its key. This holds of any run,
whatever the tasks and the heap are. -/
namespace AlphaOS.Interrupts
open Kheap Keyboard Processes Runs Tasks

/-- A port interrupt: neither an exception nor a system call. -/
def Acknowledged : Input → Bool
  | .enter vector _ => 0x20 ≤ vector ∧ vector ≠ 0x80
  | .work _ _ => false

/-- The caps lock key was pressed. -/
def CapsPressed : Input → Bool
  | .enter vector env => vector = 0x21 ∧ env.scancode = 0x3A
  | .work _ _ => false

/-- The ports but those of the disk and the keyboard are as they were. -/
structure Untouched (s s' : Computer) : Prop where
  outs : s'.outs = s.outs
  capslock : s'.capslock = s.capslock

variable {env : Environment} {command : Word} {s s' s'' : Computer} {leave : Leave} {r r' : Running}
  {vector : Fin 256} {i : Input}

lemma Untouched.trans (h : Untouched s s') (h' : Untouched s' s'') : Untouched s s'' :=
  ⟨h'.outs.trans h.outs, h'.capslock.trans h.capslock⟩

lemma leaveToNext_untouched (h : leaveToNext s = some (leave, s')) : Untouched s s' := by
  obtain ⟨k, -, heq⟩ := Option.map_eq_some_iff.1 h
  obtain ⟨-, rfl⟩ := Prod.mk.inj heq
  exact ⟨rfl, rfl⟩

lemma Untouched.withKernel (s : Computer) (k : Kernel) : Untouched s (s.withKernel k) := ⟨rfl, rfl⟩

/-- What a handler makes of a kernel. -/
lemma untouched_map {α : Type*} {x : Option α} {value : α → Leave} {kernel : α → Kernel}
    (h : x.map (fun a => (value a, s.withKernel (kernel a))) = some (leave, s')) : Untouched s s' := by
  obtain ⟨a, -, heq⟩ := Option.map_eq_some_iff.1 h
  obtain ⟨-, rfl⟩ := Prod.mk.inj heq
  exact .withKernel _ _

/-- No command uses the keyboard or a port, apart from the disk driver's under a load. -/
lemma systemCommands_untouched {p : ℤ × Handler} (hp : p ∈ systemCommands)
    (hrun : p.2 env s = some (leave, s')) : Untouched s s' := by
  simp only [systemCommands, List.mem_cons, List.not_mem_nil, or_false] at hp
  rcases hp with rfl | rfl | rfl | rfl | rfl | rfl | rfl | rfl | rfl | rfl
  · obtain ⟨item, -, hrest⟩ := Option.bind_eq_some_iff.1 hrun
    exact untouched_map hrest
  · obtain ⟨item, -, hrest⟩ := Option.bind_eq_some_iff.1 hrun
    obtain ⟨copied, -, hrest⟩ := Option.bind_eq_some_iff.1 hrest
    obtain ⟨buf, -, heq⟩ := Option.map_eq_some_iff.1 hrest
    obtain ⟨-, rfl⟩ := Prod.mk.inj heq
    exact ⟨rfl, rfl⟩
  · obtain ⟨-, rfl⟩ := Prod.mk.inj (Option.some.inj hrun)
    exact .withKernel _ _
  · obtain ⟨item, -, heq⟩ := Option.map_eq_some_iff.1 hrun
    obtain ⟨-, rfl⟩ := Prod.mk.inj heq
    exact ⟨rfl, rfl⟩
  · exact untouched_map hrun
  · exact untouched_map hrun
  · exact untouched_map hrun
  · obtain ⟨⟨res, k⟩, -, heq⟩ := Option.map_eq_some_iff.1 hrun
    cases res <;>
    · obtain ⟨-, rfl⟩ := Prod.mk.inj heq
      exact .withKernel _ _
  · exact untouched_map hrun
  · simp only [isr80hCommand9Exit] at hrun
    obtain ⟨k, -, hnext⟩ := Option.bind_eq_some_iff.1 hrun
    have hleft : Untouched (s.withKernel k) s' := leaveToNext_untouched hnext
    exact (Untouched.withKernel s k).trans hleft

lemma handleCommand_untouched
    (hrun : isr80hHandleCommand isr80hCommands command env s = some (leave, s')) : Untouched s s' := by
  by_cases hlisted : ∃ p ∈ systemCommands, command.toInt = p.1
  · obtain ⟨p, hp, hcommand⟩ := hlisted
    rw [handleCommand_listed hp hcommand] at hrun
    exact systemCommands_untouched hp hrun
  · have hnone := (handleCommand_registered isr80hRegisterCommands_some command).2
      (fun p hp heq => hlisted ⟨p, hp, heq⟩) env s
    rw [hnone] at hrun
    obtain ⟨-, rfl⟩ := Prod.mk.inj (Option.some.inj hrun)
    exact ⟨rfl, rfl⟩

/-- What an entry sends to the ports, and what it makes of caps lock. -/
structure Sent (ends : ℕ) (capslock : CapsLockState) (s s' : Computer) : Prop where
  outs : s'.outs = List.replicate ends (0x20, 0x20) ++ s.outs
  capslock : s'.capslock = capslock

lemma Untouched.acknowledged (h : Untouched s s') : Sent 1 s.capslock s (endOfInterrupt s') := by
  refine ⟨?_, h.capslock⟩
  rw [endOfInterrupt, outb_outs, h.outs]
  rfl

lemma idtHandleException_untouched (h : idtHandleException env s = some (leave, s')) :
    Untouched s s' ∧ ∃ t, leave = .task t := by
  simp only [idtHandleException] at h
  obtain ⟨k, -, hnext⟩ := Option.bind_eq_some_iff.1 h
  have hleft := leaveToNext_untouched hnext
  obtain ⟨k', -, heq⟩ := Option.map_eq_some_iff.1 hnext
  exact ⟨⟨hleft.outs, hleft.capslock⟩, _, (Prod.mk.inj heq).1.symm⟩

/-- An interrupt, from a callback to the way back. -/
lemma interruptHandler_sent {frame : InterruptFrame} {interrupt : Fin totalInterrupts}
    (hrun : interruptHandler interruptCallbacks interrupt frame env s = some (leave, s')) :
    Sent (if (interrupt : ℕ) < 0x20 then 0 else 1)
      (if (interrupt : ℕ) = 0x21 then scannedCapslock s.capslock env.scancode else s.capslock) s s' := by
  have hcallback := interruptCallbacks_eq interrupt
  cases hfound : interruptCallbacks interrupt with
  | none =>
    have hhigh : ¬ (interrupt : ℕ) < 0x20 ∧ (interrupt : ℕ) ≠ 0x21 := by
      rw [hfound] at hcallback
      split_ifs at hcallback with hlow hclock hkey
      exact ⟨hlow, hkey⟩
    rw [interruptHandler, hfound] at hrun
    obtain ⟨-, rfl⟩ := Prod.mk.inj (Option.some.inj hrun)
    rw [if_neg hhigh.1, if_neg hhigh.2]
    exact (Untouched.withKernel s _).acknowledged
  | some callback =>
    rw [interruptHandler, hfound] at hrun
    rw [hfound] at hcallback
    obtain ⟨k, -, hcall⟩ := Option.bind_eq_some_iff.1 hrun
    obtain ⟨⟨out, s₁⟩, hout, heq⟩ := Option.map_eq_some_iff.1 hcall
    split_ifs at hcallback with hlow hclock hkey
    · obtain rfl := Option.some.inj hcallback
      obtain ⟨huntouched, t, rfl⟩ := idtHandleException_untouched hout
      obtain ⟨-, rfl⟩ := Prod.mk.inj heq
      rw [if_pos hlow, if_neg (by omega)]
      exact ⟨huntouched.outs, huntouched.capslock⟩
    · obtain rfl := Option.some.inj hcallback
      obtain ⟨k', -, hnext⟩ := Option.map_eq_some_iff.1 hout
      obtain ⟨rfl, rfl⟩ := Prod.mk.inj hnext
      obtain ⟨-, rfl⟩ := Prod.mk.inj heq
      rw [if_neg hlow, if_neg (by omega)]
      exact ⟨rfl, rfl⟩
    · obtain rfl := Option.some.inj hcallback
      obtain ⟨k', hkeyboard, -⟩ := classicKeyboardHandleInterrupt_eq env (s.withKernel k)
      replace hout : classicKeyboardHandleInterrupt env (s.withKernel k) = some (out, s₁) := hout
      rw [hkeyboard] at hout
      obtain ⟨rfl, rfl⟩ := Prod.mk.inj (Option.some.inj hout)
      obtain ⟨-, rfl⟩ := Prod.mk.inj heq
      rw [if_neg hlow, if_pos hkey]
      exact ⟨rfl, rfl⟩

/-- Any entry into the kernel. -/
lemma enter_sent (hstep : r.step (.enter vector env) = some r') :
    Sent (if Acknowledged (.enter vector env) then 1 else 0)
      (if CapsPressed (.enter vector env) then r.computer.capslock.toggle else r.computer.capslock)
      r.computer r'.computer := by
  obtain ⟨⟨leave, s⟩, hentry, heq⟩ := Option.map_eq_some_iff.1 hstep
  obtain rfl : (⟨s, resumedWith r.user env s.kernel leave⟩ : Running) = r' := heq
  rw [kernelEntry] at hentry
  split_ifs at hentry with hzero hsystem
  · subst hsystem
    obtain ⟨k, -, hcommand⟩ := Option.bind_eq_some_iff.1 hentry
    obtain ⟨⟨out, s₁⟩, hhandle, heq⟩ := Option.map_eq_some_iff.1 hcommand
    have huntouched : Untouched r.computer s₁ :=
      (Untouched.withKernel r.computer k).trans (handleCommand_untouched hhandle)
    have hack : Acknowledged (.enter 0x80 env) = false := by simp [Acknowledged]
    have hcaps : CapsPressed (.enter 0x80 env) = false := by simp [CapsPressed]
    rw [hack, hcaps]
    cases out <;>
    · obtain ⟨-, rfl⟩ := Prod.mk.inj heq
      exact ⟨huntouched.outs, huntouched.capslock⟩
  · have hsent := interruptHandler_sent hentry
    rw [Fin.val_castLE] at hsent
    have hack : Acknowledged (.enter vector env) = true ↔ ¬ (vector : ℕ) < 0x20 :=
      decide_eq_true_iff.trans ⟨fun h => not_lt.2 h.1, fun h => ⟨not_lt.1 h, hsystem⟩⟩
    have hcaps : CapsPressed (.enter vector env) = true ↔ (vector : ℕ) = 0x21 ∧ env.scancode = 0x3A :=
      decide_eq_true_iff.trans (and_congr Fin.ext_iff Iff.rfl)
    refine ⟨?_, ?_⟩
    · rw [hsent.outs, if_congr hack rfl rfl]
      by_cases hlow : (vector : ℕ) < 0x20
      · rw [if_pos hlow, if_neg (not_not.2 hlow)]
      · rw [if_neg hlow, if_pos hlow]
    · rw [hsent.capslock, scannedCapslock, if_congr hcaps rfl rfl]
      by_cases hkey : (vector : ℕ) = 0x21
      · rw [if_pos hkey]
        exact if_congr (and_iff_right hkey).symm rfl rfl
      · rw [if_neg hkey, if_neg fun h => hkey h.1]

end AlphaOS.Interrupts
