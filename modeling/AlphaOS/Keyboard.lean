import AlphaOS.Kernel
import AlphaOS.RingQueue

/-! The keyboard buffer of a process, `keyboard/keyboard.c`: it is a queue from which the
newest character can also be taken back. -/
namespace AlphaOS.Keyboard
open Kheap RingQueue

/-- `keyboard_get_tail_index`. -/
def keyboardGetTailIndex (process : Process) : Fin 1024 := slot 1024 process.keyboard.tail

/-- `process->keyboard.buffer[i] = c`. -/
def setSlot (keyboard : KeyboardBuffer) (i : Fin 1024) (c : Byte) : KeyboardBuffer :=
  { keyboard with buffer := Function.update keyboard.buffer i c }

def setKeyboard (k : Kernel) (process : Word) (keyboard : KeyboardBuffer) : Kernel :=
  k.setProcess process { k.procs process with keyboard := keyboard }

def keyboardBackspace (k : Kernel) (process : Word) : Kernel :=
  let keyboard := (k.procs process).keyboard
  let k := setKeyboard k process { keyboard with tail := keyboard.tail - 1 }
  let realIndex := keyboardGetTailIndex (k.procs process)
  setKeyboard k process (setSlot (k.procs process).keyboard realIndex 0)

def keyboardPush (k : Kernel) (c : Byte) : Kernel :=
  let process := k.currentProcess
  if process = 0 then k else
  if c = 0 then k else
  let realIndex := keyboardGetTailIndex (k.procs process)
  let k := setKeyboard k process (setSlot (k.procs process).keyboard realIndex c)
  let keyboard := (k.procs process).keyboard
  setKeyboard k process { keyboard with tail := keyboard.tail + 1 }

def keyboardPop (k : Kernel) : Byte × Kernel :=
  if k.currentTask = 0 then (0, k) else
  let process := (k.tasks k.currentTask).process
  let realIndex := slot 1024 (k.procs process).keyboard.head
  let c := (k.procs process).keyboard.buffer realIndex
  if c = 0 then (0, k) else
  let k := setKeyboard k process (setSlot (k.procs process).keyboard realIndex 0)
  let keyboard := (k.procs process).keyboard
  (c, setKeyboard k process { keyboard with head := keyboard.head + 1 })

/-- The unread characters of a buffer. -/
def Unread (keyboard : KeyboardBuffer) (q : List Byte) : Prop :=
  Holds keyboard.buffer keyboard.head keyboard.tail q

@[simp] lemma setKeyboard_keyboard (k : Kernel) (process : Word) (keyboard : KeyboardBuffer) :
    ((setKeyboard k process keyboard).procs process).keyboard = keyboard := by
  simp [setKeyboard]

variable {k k₀ : Kernel} {process : Word} {q : List Byte} {c : Byte}

lemma dvd_counters : 1024 ∣ 2 ^ 32 := by decide

lemma keyboardPush_unread (h : Unread (k.procs process).keyboard q)
    (hcurrent : k.currentProcess = process) (hprocess : process ≠ 0) (hc : c ≠ 0)
    (hroom : q.length < 1024) : Unread ((keyboardPush k c).procs process).keyboard (q ++ [c]) := by
  subst hcurrent
  simp only [keyboardPush, if_neg hprocess, if_neg hc, setKeyboard_keyboard]
  exact h.put dvd_counters hc hroom

lemma keyboardPop_unread (h : Unread (k.procs process).keyboard q) (htask : k.currentTask ≠ 0)
    (hprocess : (k.tasks k.currentTask).process = process) :
    (keyboardPop k).1 = q.headD 0 ∧ Unread ((keyboardPop k).2.procs process).keyboard q.tail := by
  subst hprocess
  have hfront := h.front
  cases q with
  | nil =>
    have hpop : keyboardPop k = (0, k) := by
      simp only [keyboardPop, if_neg htask]
      exact if_pos hfront
    rw [hpop]
    exact ⟨rfl, h⟩
  | cons c q =>
    have hc : c ≠ 0 := h.ne_zero c (by simp)
    rw [List.headD_cons] at hfront
    simp only [keyboardPop, if_neg htask, hfront, if_neg hc, setKeyboard_keyboard]
    exact ⟨rfl, h.take dvd_counters⟩

lemma keyboardBackspace_unread (h : Unread (k.procs process).keyboard q) (hq : q ≠ []) :
    Unread ((keyboardBackspace k process).procs process).keyboard q.dropLast := by
  have hlast := List.dropLast_append_getLast hq
  rw [← hlast] at h
  simp only [keyboardBackspace, keyboardGetTailIndex, setKeyboard_keyboard]
  exact h.unput dvd_counters

/-- A run of keyboard operations on one process from an empty buffer, with the queue they
leave: at most 1024 characters are unread, a backspace finds one, and whatever else the
kernel does keeps the buffer. -/
inductive KeyboardRun (process : Word) (k₀ : Kernel) : Kernel → List Byte → Prop
  | start : KeyboardRun process k₀ k₀ []
  | push {k : Kernel} {q : List Byte} (run : KeyboardRun process k₀ k q) {c : Byte} (hc : c ≠ 0)
      (current : k.currentProcess = process) (room : q.length < 1024) :
      KeyboardRun process k₀ (keyboardPush k c) (q ++ [c])
  | pop {k : Kernel} {q : List Byte} (run : KeyboardRun process k₀ k q) (task : k.currentTask ≠ 0)
      (owner : (k.tasks k.currentTask).process = process) :
      KeyboardRun process k₀ (keyboardPop k).2 q.tail
  | backspace {k : Kernel} {q : List Byte} (run : KeyboardRun process k₀ k q) (unread : q ≠ []) :
      KeyboardRun process k₀ (keyboardBackspace k process) q.dropLast
  | other {k : Kernel} {q : List Byte} (run : KeyboardRun process k₀ k q) (k' : Kernel)
      (same : (k'.procs process).keyboard = (k.procs process).keyboard) :
      KeyboardRun process k₀ k' q

/-- In every state of a run the buffer holds the queue of the unread characters, and a pop
would return the oldest of them, or 0 when there is none. The counters may start and
wrap anywhere. -/
theorem keyboardRun_queue (hprocess : process ≠ 0)
    (hempty : ∀ i, (k₀.procs process).keyboard.buffer i = 0)
    (hcounters : (k₀.procs process).keyboard.tail = (k₀.procs process).keyboard.head)
    (run : KeyboardRun process k₀ k q) :
    Unread (k.procs process).keyboard q ∧
    (k.currentTask ≠ 0 → (k.tasks k.currentTask).process = process →
      (keyboardPop k).1 = q.headD 0) := by
  have hunread : Unread (k.procs process).keyboard q := by
    induction run with
    | start =>
      rw [Unread, hcounters]
      exact Holds.nil hempty _
    | push _ hc hcurrent hroom ih => exact keyboardPush_unread ih hcurrent hprocess hc hroom
    | pop _ htask howner ih => exact (keyboardPop_unread ih htask howner).2
    | backspace _ hq ih => exact keyboardBackspace_unread ih hq
    | other _ _ hsame ih => rwa [hsame]
  exact ⟨hunread, fun htask howner => (keyboardPop_unread hunread htask howner).1⟩

/-- A kernel whose only process is the current one, with counters about to wrap. -/
def oneReader : Kernel :=
  { zeroKernel (kheapInit (fun _ => 0) fun _ => 0) with
    procs := fun _ => { zeroProcess with keyboard := ⟨fun _ => 0, 0xFFFFFFFF, 0xFFFFFFFF⟩ }
    tasks := fun _ => { zeroTask with process := 1 }
    currentProcess := 1
    currentTask := 1 }

theorem keyboardRun_queue_twoKeys :
    (keyboardPop (keyboardPush (keyboardPush oneReader 65) 66)).1 = 65 := by
  have hfirst : KeyboardRun 1 oneReader (keyboardPush oneReader 65) [65] :=
    KeyboardRun.start.push (c := 65) (by decide) rfl (by decide)
  have hrun : KeyboardRun 1 oneReader (keyboardPush (keyboardPush oneReader 65) 66) [65, 66] :=
    hfirst.push (c := 66) (by decide) rfl (by decide)
  exact (keyboardRun_queue (by decide) (fun _ => rfl) rfl hrun).2 (by decide) rfl

/-! What is popped against what was pushed. -/

/-- The counters leave a slot free. -/
def Room (keyboard : KeyboardBuffer) : Prop := (keyboard.tail - keyboard.head).toNat < 1024

instance (keyboard : KeyboardBuffer) : Decidable (Room keyboard) :=
  inferInstanceAs (Decidable (_ < _))

/-- What a pop delivers; a zero means there is nothing. -/
def delivered (c : Byte) : List Byte := if c = 0 then [] else [c]

/-- Any run of pushes and pops on one process, with the characters pushed and popped, in which
every push of a character finds the buffer in a state that `ok` allows. -/
inductive PushPopRun (ok : KeyboardBuffer → Prop) (process : Word) (k₀ : Kernel) :
    Kernel → List Byte → List Byte → Prop
  | start : PushPopRun ok process k₀ k₀ [] []
  | push {k : Kernel} {pushed popped : List Byte} (run : PushPopRun ok process k₀ k pushed popped)
      (c : Byte) (current : k.currentProcess = process)
      (allowed : c ≠ 0 → ok (k.procs process).keyboard) :
      PushPopRun ok process k₀ (keyboardPush k c) (pushed ++ [c]) popped
  | pop {k : Kernel} {pushed popped : List Byte} (run : PushPopRun ok process k₀ k pushed popped)
      (task : k.currentTask ≠ 0) (owner : (k.tasks k.currentTask).process = process) :
      PushPopRun ok process k₀ (keyboardPop k).2 pushed (popped ++ delivered (keyboardPop k).1)
  | other {k : Kernel} {pushed popped : List Byte} (run : PushPopRun ok process k₀ k pushed popped)
      (k' : Kernel) (same : (k'.procs process).keyboard = (k.procs process).keyboard) :
      PushPopRun ok process k₀ k' pushed popped

variable {pushed popped : List Byte}

lemma Unread.room (h : Unread (k.procs process).keyboard q) (hroom : Room (k.procs process).keyboard) :
    q.length < 1024 := by
  have hle : q.length ≤ 1024 := h.le
  rw [Room, h.tail_eq, add_sub_cancel_left, BitVec.toNat_ofNat] at hroom
  omega

/-- While no push finds the buffer full, what was popped and what is unread are the characters
pushed, in order. -/
lemma PushPopRun.queue (hprocess : process ≠ 0)
    (hempty : ∀ i, (k₀.procs process).keyboard.buffer i = 0)
    (hcounters : (k₀.procs process).keyboard.tail = (k₀.procs process).keyboard.head)
    (run : PushPopRun Room process k₀ k pushed popped) :
    ∃ q, Unread (k.procs process).keyboard q ∧ popped ++ q = pushed.filter (· ≠ 0) := by
  induction run with
  | start =>
    refine ⟨[], ?_, rfl⟩
    rw [Unread, hcounters]
    exact Holds.nil hempty _
  | push run c hcurrent hroom ih =>
    obtain ⟨q, hunread, hsplit⟩ := ih
    by_cases hc : c = 0
    · refine ⟨q, ?_, by simpa [hc] using hsplit⟩
      have hsame : ∀ k : Kernel, keyboardPush k c = k := by simp [keyboardPush, hc]
      rwa [hsame]
    · refine ⟨q ++ [c], keyboardPush_unread hunread hcurrent hprocess hc (hunread.room (hroom hc)), ?_⟩
      rw [← List.append_assoc, hsplit, List.filter_append, List.filter_cons_of_pos (by simpa using hc),
        List.filter_nil]
  | pop run htask howner ih =>
    obtain ⟨q, hunread, hsplit⟩ := ih
    obtain ⟨hfirst, hrest⟩ := keyboardPop_unread hunread htask howner
    refine ⟨q.tail, hrest, ?_⟩
    rw [hfirst, ← hsplit, List.append_assoc]
    cases q with
    | nil => simp [delivered]
    | cons c q =>
      have hone : delivered c = [c] := if_neg (hunread.ne_zero c (by simp))
      simp [hone]
  | other run k' hsame ih => rwa [hsame]

/-- In every run whose pushes all find a free slot, the characters popped are in order among the
characters pushed. -/
theorem popped_sublist (hprocess : process ≠ 0)
    (hempty : ∀ i, (k₀.procs process).keyboard.buffer i = 0)
    (hcounters : (k₀.procs process).keyboard.tail = (k₀.procs process).keyboard.head)
    (run : PushPopRun Room process k₀ k pushed popped) : popped.Sublist pushed := by
  obtain ⟨q, -, hsplit⟩ := run.queue hprocess hempty hcounters
  have hfront : popped.Sublist (popped ++ q) := List.sublist_append_left popped q
  rw [hsplit] at hfront
  exact hfront.trans List.filter_sublist

theorem popped_sublist_twoKeys : [65].Sublist ([65, 66] : List Byte) := by
  have hfirst : PushPopRun Room 1 oneReader (keyboardPush oneReader 65) [65] [] :=
    PushPopRun.start.push 65 rfl (by decide)
  have hsecond : PushPopRun Room 1 oneReader (keyboardPush (keyboardPush oneReader 65) 66) [65, 66] [] :=
    hfirst.push 66 rfl (by decide)
  have hrun : PushPopRun Room 1 oneReader (keyboardPop (keyboardPush (keyboardPush oneReader 65) 66)).2
      [65, 66] [65] := hsecond.pop (by decide) rfl
  exact popped_sublist (by decide) (fun _ => rfl) rfl hrun

/-- A pop of a character goes on to the next slot. -/
lemma keyboardPop_next (htask : k.currentTask ≠ 0)
    (howner : (k.tasks k.currentTask).process = process)
    (hslot : (k.procs process).keyboard.buffer (slot 1024 (k.procs process).keyboard.head) = c)
    (hc : c ≠ 0) : (keyboardPop k).1 = c ∧
      (keyboardPop k).2 = setKeyboard (setKeyboard k process
        (setSlot (k.procs process).keyboard (slot 1024 (k.procs process).keyboard.head) 0)) process
        ⟨Function.update (k.procs process).keyboard.buffer
          (slot 1024 (k.procs process).keyboard.head) 0, (k.procs process).keyboard.head + 1,
          (k.procs process).keyboard.tail⟩ := by
  subst howner
  simp only [keyboardPop, if_neg htask, hslot, if_neg hc, setKeyboard_keyboard]
  exact ⟨trivial, rfl⟩

lemma keyboardPush_current (k : Kernel) (c : Byte) :
    (keyboardPush k c).currentProcess = k.currentProcess ∧
    (keyboardPush k c).currentTask = k.currentTask ∧ (keyboardPush k c).tasks = k.tasks := by
  simp only [keyboardPush]
  split_ifs <;> exact ⟨rfl, rfl, rfl⟩

lemma keyboardPop_current (k : Kernel) : (keyboardPop k).2.currentTask = k.currentTask ∧
    (keyboardPop k).2.tasks = k.tasks := by
  simp only [keyboardPop]
  split_ifs <;> exact ⟨rfl, rfl⟩

/-- A push that finds 1024 unread characters replaces the oldest, and the next pop delivers it in
front of the second oldest. -/
lemma overflow_pops {a b : Byte} (h : Unread (k.procs process).keyboard (a :: b :: q))
    (hfull : q.length = 1022) (hc : c ≠ 0) (hprocess : process ≠ 0)
    (hcurrent : k.currentProcess = process) (htask : k.currentTask ≠ 0)
    (howner : (k.tasks k.currentTask).process = process) :
    (keyboardPop (keyboardPush k c)).1 = c ∧
      (keyboardPop (keyboardPop (keyboardPush k c)).2).1 = b := by
  obtain ⟨-, hsameTask, hsameTasks⟩ := keyboardPush_current k c
  have hnext : (k.procs process).keyboard.buffer
      (slot 1024 ((k.procs process).keyboard.head + 1)) = b := h.get 1 (by norm_num)
  have hlap : slot 1024 (k.procs process).keyboard.tail = slot 1024 (k.procs process).keyboard.head := by
    apply Fin.val_injective
    rw [h.tail_eq, slot_add dvd_counters, List.length_cons, List.length_cons, hfull, Nat.add_mod_right]
    rfl
  have hapart : slot 1024 ((k.procs process).keyboard.head + 1) ≠
      slot 1024 (k.procs process).keyboard.head := by
    have hne := slot_ne dvd_counters (k.procs process).keyboard.head
      (show 1 < 1024 by norm_num) (show 0 < 1024 by norm_num) one_ne_zero
    rwa [BitVec.add_zero] at hne
  have hpushed : ((keyboardPush k c).procs process).keyboard =
      ⟨Function.update (k.procs process).keyboard.buffer (slot 1024 (k.procs process).keyboard.head) c,
        (k.procs process).keyboard.head, (k.procs process).keyboard.tail + 1⟩ := by
    subst hcurrent
    simp only [keyboardPush, if_neg hprocess, if_neg hc, setKeyboard_keyboard, keyboardGetTailIndex,
      hlap]
    rfl
  obtain ⟨hfirst, hstate⟩ := @keyboardPop_next (keyboardPush k c) process c (by rwa [hsameTask])
    (by rwa [hsameTasks, hsameTask]) (by simp [hpushed]) hc
  refine ⟨hfirst, ?_⟩
  have hb : b ≠ 0 := h.ne_zero b (by simp)
  rw [hstate]
  refine (@keyboardPop_next _ process b ?_ ?_ ?_ hb).1
  · exact hsameTask.symm ▸ htask
  · change ((keyboardPush k c).tasks (keyboardPush k c).currentTask).process = process
    rwa [hsameTasks, hsameTask]
  · rw [setKeyboard_keyboard, hpushed]
    simp only [Function.update_idem]
    rw [Function.update_of_ne hapart, hnext]

/-- Pushes in a row. -/
lemma PushPopRun.pushes (cs : List Byte)
    (run : PushPopRun (fun _ => True) process k₀ k pushed popped) (hcurrent : k.currentProcess = process) :
    PushPopRun (fun _ => True) process k₀ (cs.foldl keyboardPush k) (pushed ++ cs) popped := by
  induction cs generalizing k pushed with
  | nil => simpa using run
  | cons c cs ih =>
    have hstep := ih (run.push c hcurrent fun _ => trivial) (by rwa [(keyboardPush_current k c).1])
    simpa using hstep

lemma pushes_unread (cs : List Byte) (h : Unread (k.procs process).keyboard q)
    (hcurrent : k.currentProcess = process) (hprocess : process ≠ 0) (hcs : ∀ c ∈ cs, c ≠ 0)
    (hroom : q.length + cs.length ≤ 1024) :
    Unread ((cs.foldl keyboardPush k).procs process).keyboard (q ++ cs) ∧
      (cs.foldl keyboardPush k).currentProcess = k.currentProcess ∧
      (cs.foldl keyboardPush k).currentTask = k.currentTask ∧
      (cs.foldl keyboardPush k).tasks = k.tasks := by
  induction cs generalizing k q with
  | nil => simpa using h
  | cons c cs ih =>
    obtain ⟨hprocess', htask', htasks'⟩ := keyboardPush_current k c
    rw [List.length_cons] at hroom
    have hone := keyboardPush_unread h hcurrent hprocess (hcs c (by simp)) (by omega)
    have hrest := ih hone (by rwa [hprocess']) (fun d hd => hcs d (by simp [hd])) (by simp; omega)
    rw [hprocess', htask', htasks', List.append_assoc] at hrest
    exact hrest

/-- The second oldest of 1024 unread characters is delivered behind one pushed later. -/
lemma overflow_run {a b : Byte} {cs : List Byte} (hlen : cs.length = 1022)
    (hcs : ∀ x ∈ a :: b :: cs, x ≠ 0) (hc : c ≠ 0) :
    ∃ k, PushPopRun (fun _ => True) 1 oneReader k (a :: b :: cs ++ [c]) [c, b] := by
  have hstart : Unread (oneReader.procs 1).keyboard [] := Holds.nil (fun _ => rfl) _
  obtain ⟨hunread, hprocess, htask, htasks⟩ := pushes_unread (a :: b :: cs) hstart rfl (by decide) hcs
    (by simp [hlen])
  have hrun := (PushPopRun.start : PushPopRun (fun _ => True) 1 oneReader oneReader [] []).pushes
    (a :: b :: cs) rfl
  have howner : (oneReader.tasks oneReader.currentTask).process = 1 := rfl
  generalize (a :: b :: cs).foldl keyboardPush oneReader = k at *
  rw [List.nil_append] at hunread hrun
  obtain ⟨-, htask', htasks'⟩ := keyboardPush_current k c
  have hone : k.currentTask ≠ 0 := by
    rw [htask]
    decide
  have hreader : (k.tasks k.currentTask).process = 1 := by rwa [htasks, htask]
  obtain ⟨hfirst, hsecond⟩ := overflow_pops hunread hlen hc (by decide) hprocess hone hreader
  obtain ⟨htask'', htasks''⟩ := keyboardPop_current (keyboardPush k c)
  have hpop := ((hrun.push c hprocess fun _ => trivial).pop (by rwa [htask']) (by rwa [htasks', htask'])).pop
    (by rwa [htask'', htask']) (by rwa [htasks'', htask'', htasks', htask'])
  have hdelivered : delivered c = [c] ∧ delivered b = [b] :=
    ⟨if_neg hc, if_neg (hcs b (by simp))⟩
  rw [hfirst, hsecond, hdelivered.1, hdelivered.2] at hpop
  exact ⟨_, hpop⟩

lemma not_sublist_overflow (n : ℕ) :
    ¬ [67, 66].Sublist (65 :: 66 :: List.replicate n 66 ++ [67] : List Byte) := by
  intro h
  obtain ⟨front, back, hsplit, hfront, hback⟩ := List.sublist_append_iff.1 h
  cases front with
  | nil =>
    rw [List.nil_append] at hsplit
    have hlength := hback.length_le
    rw [← hsplit] at hlength
    exact absurd hlength (by decide)
  | cons x front =>
    obtain rfl : 67 = x := (List.cons.inj hsplit).1
    have hmem := hfront.subset (List.mem_cons_self (a := (67 : Byte)))
    simp only [List.mem_cons, List.mem_replicate] at hmem
    rcases hmem with h65 | h66 | ⟨-, h66⟩
    · exact absurd h65 (by decide)
    · exact absurd h66 (by decide)
    · exact absurd h66 (by decide)

/-- With an `A` and 1023 times `B` unread, a `C` is delivered in front of a `B`. -/
theorem popped_overflow : ¬ ∀ k pushed popped,
    PushPopRun (fun _ => True) 1 oneReader k pushed popped → popped.Sublist pushed := by
  intro hall
  have hnonzero : ∀ x ∈ (65 : Byte) :: 66 :: List.replicate 1022 66, x ≠ 0 := by
    intro x hx
    simp only [List.mem_cons, List.mem_replicate] at hx
    rcases hx with rfl | rfl | ⟨-, rfl⟩ <;> decide
  obtain ⟨k, hrun⟩ := @overflow_run 67 65 66 (List.replicate 1022 66) List.length_replicate
    hnonzero (by decide)
  exact not_sublist_overflow 1022 (hall k _ _ hrun)

end AlphaOS.Keyboard
