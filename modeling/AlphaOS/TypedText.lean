import AlphaOS.TaskThreads

/-! What is typed reaches the programs: over any run the keys pressed while a process was in the
foreground are what its task got by `getkey` and what is still unread, in their order. -/
namespace AlphaOS.Interrupts
open BlockHeap Kheap Keyboard Processes Runs Tasks

/-- The process whose task runs. -/
def Running.own (r : Running) : Word :=
  (r.computer.kernel.tasks r.computer.kernel.currentTask).process

/-- The character that a key sends to the foreground process. -/
def typedBy (r : Running) : Input → List (Word × Byte)
  | .enter vector env =>
    if vector = 0x21 then
      [(r.computer.kernel.currentProcess, scannedChar r.computer.capslock env.scancode)] else []
  | .work _ _ => []

/-- The character that a task finds in `eax` after `getkey`. -/
def gotBy (r r' : Running) : Input → List (Word × Byte)
  | .enter vector _ =>
    if vector = 0x80 ∧ r.user.eax.toInt = 2 then [(r.own, r'.user.eax.setWidth 8)] else []
  | .work _ _ => []

/-- The characters of a process; a zero is none. -/
def text (process : Word) (log : List (Word × Byte)) : List Byte :=
  (log.filter fun x => x.1 = process ∧ x.2 ≠ 0).map Prod.snd

/-- A computer with what was typed and what was got on it. -/
structure Typing where
  running : Running
  typed : List (Word × Byte)
  got : List (Word × Byte)

def Typing.step (s : Typing) (i : Input) : Option Typing :=
  (s.running.step i).map fun r' =>
    ⟨r', s.typed ++ typedBy s.running i, s.got ++ gotBy s.running r' i⟩

/-- The foreground process has room for the character of a key. -/
def Typing.Allowed (s : Typing) (i : Input) : Prop :=
  Interrupts.Allowed s.running i ∧ ∀ x ∈ typedBy s.running i, x.2 ≠ 0 →
    Room (s.running.computer.kernel.procs x.1).keyboard

/-- The keyboards of the tasks' processes hold what was typed and not got. -/
structure Keyboards (k : Kernel) (live : List Word) (typed got : List (Word × Byte)) : Prop where
  foreground : ∃ t ∈ live, k.currentProcess = (k.tasks t).process
  queues : ∀ t ∈ live, ∃ q, Unread (k.procs (k.tasks t).process).keyboard q ∧
    text (k.tasks t).process got ++ q = text (k.tasks t).process typed
  silent : ∀ p, (∀ t ∈ live, (k.tasks t).process ≠ p) → text p typed = [] ∧ text p got = []

variable {env : Environment} {r r' : Running} {k k' : Kernel} {live live' : List Word}
  {typed got got' : List (Word × Byte)} {leave : Leave} {t p q : Word} {c : Byte} {reads : Prop}

@[simp] lemma text_nil : text p [] = [] := rfl

@[simp] lemma text_append (log log' : List (Word × Byte)) :
    text p (log ++ log') = text p log ++ text p log' := by
  simp [text]

lemma delivered_ne (hc : c ≠ 0) : delivered c = [c] := if_neg hc

@[simp] lemma text_self : text p [(p, c)] = delivered c := by
  by_cases hc : c = 0
  · subst hc
    simp [text, delivered]
  · rw [delivered_ne hc, text, List.filter_cons_of_pos (by simpa using hc), List.filter_nil]
    rfl

lemma text_other (h : q ≠ p) : text p [(q, c)] = [] := by
  simp [text, h]

/-- The kernel changes nothing that matters for keyboards. -/
lemma Keyboards.congr (h : Keyboards k live typed got) (hprocs : k'.procs = k.procs)
    (hcurrent : k'.currentProcess = k.currentProcess)
    (htasks : ∀ t ∈ live, (k'.tasks t).process = (k.tasks t).process) : Keyboards k' live typed got where
  foreground := by
    obtain ⟨t, ht, hforeground⟩ := h.foreground
    exact ⟨t, ht, by rw [hcurrent, hforeground, htasks t ht]⟩
  queues t ht := by
    rw [hprocs, htasks t ht]
    exact h.queues t ht
  silent p hp := h.silent p fun t ht => by
    rw [← htasks t ht]
    exact hp t ht

/-- A key adds its character to the foreground process's queue. -/
lemma Keyboards.push (h : Keyboards k live typed got) (hs : Sound k live)
    (hroom : c ≠ 0 → Room (k.procs k.currentProcess).keyboard)
    (hprocs : k'.procs = (keyboardPush k c).procs) (hcurrent : k'.currentProcess = k.currentProcess)
    (htasks : ∀ t ∈ live, (k'.tasks t).process = (k.tasks t).process) :
    Keyboards k' live (typed ++ [(k.currentProcess, c)]) got := by
  obtain ⟨u, hu, hforeground⟩ := h.foreground
  have hzero : k.currentProcess ≠ 0 := by
    rw [hforeground]
    exact hs.process u hu
  refine ⟨⟨u, hu, by rw [hcurrent, hforeground, htasks u hu]⟩, fun t ht => ?_, fun p hp => ?_⟩
  · obtain ⟨q, hunread, htext⟩ := h.queues t ht
    rw [htasks t ht, hprocs]
    by_cases hown : (k.tasks t).process = k.currentProcess
    · by_cases hc : c = 0
      · refine ⟨q, ?_, by simp [hown ▸ htext, hown, hc, delivered]⟩
        rwa [hc, keyboardPush_zero]
      · rw [← hown] at hroom
        refine ⟨q ++ [c], keyboardPush_unread hunread hown.symm (hs.process t ht) hc
          (hunread.room (hroom hc)), ?_⟩
        simp [← hown, ← htext, delivered_ne hc]
    · refine ⟨q, ?_, by simp [htext, text_other (Ne.symm hown)]⟩
      rwa [keyboardPush_procs c hown]
  · obtain ⟨htyped, hgot⟩ := h.silent p fun t ht => by
      rw [← htasks t ht]
      exact hp t ht
    have hne : k.currentProcess ≠ p := by
      rw [hforeground, ← htasks u hu]
      exact hp u hu
    exact ⟨by simp [htyped, text_other hne], hgot⟩

/-- A system call leaves the queues of other tasks alone, and a new one begins empty. -/
lemma Keyboards.served (h : Keyboards k live typed got) (hs : Sound k live)
    (hserved : Served reads k live leave k' live')
    (hown : ∃ q, Unread (k'.procs (k.tasks k.currentTask).process).keyboard q ∧
      text (k.tasks k.currentTask).process got' ++ q = text (k.tasks k.currentTask).process typed)
    (hgot : ∀ p ≠ (k.tasks k.currentTask).process, text p got' = text p got) :
    Keyboards k' live' typed got' := by
  have hsilent : ∀ p, (∀ t ∈ live, (k.tasks t).process ≠ p) → text p typed = [] ∧ text p got' = [] := by
    intro p hp
    obtain ⟨htyped, hnone⟩ := h.silent p hp
    exact ⟨htyped, (hgot p (hp _ hs.current).symm).trans hnone⟩
  refine ⟨?_, fun t ht => ?_, fun p hp => hsilent p fun t ht => ?_⟩
  · rcases hserved.foreground with hsame | ⟨t, ht, -, hnew⟩
    · obtain ⟨t, ht, hforeground⟩ := h.foreground
      refine ⟨t, hserved.mem ht, ?_⟩
      rw [hsame, hforeground, (hserved.tasks t ht).process]
    · exact ⟨t, ht, hnew⟩
  · by_cases hold : t ∈ live
    · rw [(hserved.tasks t hold).process]
      by_cases hcurrent : t = k.currentTask
      · rw [hcurrent]
        exact hown
      · obtain ⟨q, hunread, htext⟩ := h.queues t hold
        have hne : (k.tasks t).process ≠ (k.tasks k.currentTask).process := fun heq =>
          hcurrent (hs.process_injective hold hs.current heq)
        rw [hserved.others t hold hcurrent, hgot _ hne]
        exact ⟨q, hunread, htext⟩
    · have hnew : ∀ u ∈ live, (k.tasks u).process ≠ (k'.tasks t).process := by
        intro u hu
        rw [← (hserved.tasks u hu).process]
        exact hserved.apart hu ht hold
      obtain ⟨htyped, hnone⟩ := hsilent _ hnew
      rw [hserved.fresh t ht hold, htyped, hnone]
      exact ⟨[], RingQueue.Holds.nil (fun _ => rfl) _, rfl⟩
  · rw [← (hserved.tasks t ht).process]
    exact hp t (hserved.mem ht)

/-- A system call that takes no character. -/
lemma Keyboards.quiet (h : Keyboards k live typed got) (hs : Sound k live)
    (hserved : Served reads k live leave k' live') (hreads : ¬ reads) :
    Keyboards k' live' typed got := by
  refine h.served hs hserved ?_ fun _ _ => rfl
  rw [hserved.keyboard hreads]
  exact h.queues _ hs.current

/-- The system call that takes a character gets the oldest one. -/
lemma Keyboards.read (h : Keyboards k live typed got) (hs : Sound k live)
    (hserved : Served reads k live leave k' live') (hreads : reads) :
    Keyboards k' live' typed (got ++ [((k.tasks k.currentTask).process, (keyboardPop k).1)]) := by
  obtain ⟨-, hkeyboard⟩ := hserved.got hreads
  obtain ⟨q, hunread, htext⟩ := h.queues _ hs.current
  obtain ⟨hfirst, hrest⟩ := keyboardPop_unread hunread (hs.ne_zero hs.current) rfl
  refine h.served hs hserved ⟨q.tail, ?_, ?_⟩ fun p hp => ?_
  · rw [hkeyboard]
    exact hrest
  · rw [hfirst]
    cases q with
    | nil => simpa [delivered] using htext
    | cons c q =>
      have hc : c ≠ 0 := hunread.ne_zero c (by simp)
      simpa [delivered_ne hc] using htext
  · simp [text_other (Ne.symm hp)]

lemma Keyboards.saved (h : Keyboards r.computer.kernel live typed got) :
    Keyboards (savedKernel r) live typed got :=
  h.congr rfl rfl fun t _ => by
    by_cases ht : t = r.computer.kernel.currentTask <;> simp [savedKernel_tasks, ht]

lemma Keyboards.left (h : Keyboards k live typed got) (leave : Leave) :
    Keyboards (leftKernel k leave) live typed got := by
  cases leave <;> exact h.congr rfl rfl fun _ _ => rfl

/-- The character of a word that a signed character was extended to. -/
lemma setWidth_signExtend (c : Byte) : (c.signExtend 32).setWidth 8 = c := by
  apply BitVec.eq_of_getLsbD_eq
  intro i hi
  rw [BitVec.getLsbD_setWidth, BitVec.getLsbD_signExtend]
  simp [hi, show i < 32 by omega]

/-- A system call keeps the queues, with what it got. -/
lemma Keyboards.call (h : Keyboards r.computer.kernel live typed got) (hs : Sound r.computer.kernel live)
    (hallowed : CallAllowed env r.user.eax (savedKernel r))
    (hstep : r.step (.enter 0x80 env) = some r') : ∃ live', Sound r'.computer.kernel live' ∧
      Keyboards r'.computer.kernel live' typed (got ++ gotBy r r' (.enter 0x80 env)) := by
  obtain ⟨leave, k, live', hserved, hkernel, huser, -⟩ := call_effect hs hallowed hstep
  have hsound : Sound (leftKernel k leave) live' := by
    cases leave with
    | task t => exact hserved.sound
    | _ => exact hserved.sound.taskSwitch hserved.sound.current
  rw [hkernel]
  refine ⟨live', hsound, ?_⟩
  by_cases hreads : r.user.eax.toInt = 2
  · obtain ⟨rfl, -⟩ := hserved.got hreads
    have hown : ((savedKernel r).tasks (savedKernel r).currentTask).process = r.own := by
      simp [savedKernel_tasks, Running.own]
    have hchar : r'.user.eax.setWidth 8 = (keyboardPop (savedKernel r)).1 := by
      rw [huser]
      exact setWidth_signExtend _
    have hgot : gotBy r r' (.enter 0x80 env) =
        [(((savedKernel r).tasks (savedKernel r).currentTask).process,
          (keyboardPop (savedKernel r)).1)] := by
      rw [hown, ← hchar]
      exact if_pos ⟨rfl, hreads⟩
    rw [hgot]
    exact (h.saved.read (Sound.saved hs) hserved hreads).left _
  · have hgot : gotBy r r' (.enter 0x80 env) = [] := by simp [gotBy, hreads]
    rw [hgot, List.append_nil]
    exact (h.saved.quiet (Sound.saved hs) hserved hreads).left _

/-- So does a key, with what it typed. -/
lemma Keyboards.key (h : Keyboards r.computer.kernel live typed got) (hs : Sound r.computer.kernel live)
    (hroom : scannedChar r.computer.capslock env.scancode ≠ 0 →
      Room (r.computer.kernel.procs r.computer.kernel.currentProcess).keyboard)
    (hstep : r.step (.enter 0x21 env) = some r') : Sound r'.computer.kernel live ∧
      Keyboards r'.computer.kernel live (typed ++
        [(r.computer.kernel.currentProcess, scannedChar r.computer.capslock env.scancode)]) got := by
  obtain ⟨k, hhandled, hprocs, hkernel, -, -⟩ := keyboard_effect hs hstep
  have hcurrent : k.currentProcess = r.computer.kernel.currentProcess := by
    rcases hhandled.foreground with hsame | ⟨t, ht, hnot, -⟩
    · exact hsame
    · exact absurd ht hnot
  have htasks : ∀ t ∈ live, (k.tasks t).process = (r.computer.kernel.tasks t).process := by
    intro t ht
    rw [(hhandled.tasks t ht).process]
    by_cases htc : t = r.computer.kernel.currentTask <;> simp [savedKernel_tasks, htc]
  have hpushed := h.push hs hroom hprocs hcurrent htasks
  rw [hkernel]
  exact ⟨hhandled.sound.taskSwitch hhandled.sound.current, hpushed.congr rfl rfl fun _ _ => rfl⟩

/-- A step of the computer keeps the queues, with what it typed and got. -/
lemma Keyboards.step {i : Input} (h : Keyboards r.computer.kernel live typed got)
    (hs : Sound r.computer.kernel live) (hallowed : Allowed r i)
    (hroom : ∀ x ∈ typedBy r i, x.2 ≠ 0 → Room (r.computer.kernel.procs x.1).keyboard)
    (hstep : r.step i = some r') : ∃ live', Sound r'.computer.kernel live' ∧
      Keyboards r'.computer.kernel live' (typed ++ typedBy r i) (got ++ gotBy r r' i) := by
  cases i with
  | work user mem =>
    obtain rfl := Option.some.inj hstep
    refine ⟨live, hs.withKmem (pins_withMem _ _ _), ?_⟩
    rw [typedBy, gotBy, List.append_nil, List.append_nil]
    exact h.congr rfl rfl fun _ _ => rfl
  | enter vector env =>
    obtain ⟨hvector, hcall⟩ := hallowed
    by_cases hsystem : vector = 0x80
    · subst hsystem
      have htyped : typedBy r (.enter 0x80 env) = [] := by simp [typedBy]
      rw [htyped, List.append_nil]
      exact h.call hs (hcall rfl) hstep
    have hgot : gotBy r r' (.enter vector env) = [] := by simp [gotBy, hsystem]
    rw [hgot, List.append_nil]
    by_cases hkeyboard : vector = 0x21
    · subst hkeyboard
      have htyped : typedBy r (.enter 0x21 env) = [(r.computer.kernel.currentProcess,
        scannedChar r.computer.capslock env.scancode)] := by rw [typedBy, if_pos rfl]
      rw [htyped] at hroom ⊢
      exact ⟨live, h.key hs (hroom _ (List.mem_singleton_self _)) hstep⟩
    have htyped : typedBy r (.enter vector env) = [] := by simp [typedBy, hkeyboard]
    rw [htyped, List.append_nil]
    by_cases hclock : vector = 0x20
    · subst hclock
      obtain ⟨t, -, hserved, hkernel, -, -⟩ := clock_effect hs hstep
      rw [hkernel]
      exact ⟨live, hserved.sound, h.saved.quiet (Sound.saved hs) hserved not_false⟩
    · obtain ⟨hkernel, -, -⟩ := ignored_effect hvector hsystem hclock hkeyboard hstep
      rw [hkernel]
      exact ⟨live, (hs.pagingSwitch _).taskSwitch hs.current, h.congr rfl rfl fun _ _ => rfl⟩

end AlphaOS.Interrupts
