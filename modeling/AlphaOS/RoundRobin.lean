import AlphaOS.TaskThreads

/-! Whose turn it is: while no program is loaded, the tick of the timer alone gives the processor to
another task, and the tasks have it in the order of the list. -/
namespace AlphaOS.Interrupts
open BlockHeap Kheap Processes Runs Tasks

def ticks (is : List Input) : ℕ :=
  is.countP fun i => match i with
    | .enter vector _ => vector = 0x20
    | .work _ _ => false

def Loadless (r : Running) : Input → Prop
  | .enter vector _ => vector = 0x80 → r.user.eax.toInt ≠ 6 ∧ r.user.eax.toInt ≠ 7
  | .work _ _ => True

/-- The current task of the state stands first in the list turned by `m` places. -/
def HasTurn (r : Running) (live : List Word) (m : ℕ) : Prop :=
  (live.rotate m).head? = some r.computer.kernel.currentTask

variable {r r' : Running} {k : Kernel} {live : List Word} {i : Input} {m : ℕ} {c : Word}

/-- The successor of a task is the next one of the list, and the first one after the last. -/
lemma head_rotate_succ (h : TaskListOk k live) (hc : (live.rotate m).head? = some c) :
    (live.rotate (m + 1)).head? = some (successor k c) := by
  have hpos : 0 < live.length := by
    rw [List.length_pos_iff]
    rintro rfl
    simp at hc
  have hlt : m % live.length ≤ live.length := (Nat.mod_lt m hpos).le
  have hturned : live.rotate m = live.drop (m % live.length) ++ live.take (m % live.length) := by
    rw [← List.rotate_mod, List.rotate_eq_drop_append_take hlt]
  have hone : live.rotate (m + 1) = (live.rotate m).rotate 1 := (List.rotate_rotate live m 1).symm
  rw [hone, hturned]
  rw [hturned] at hc
  have hlist := List.take_append_drop (m % live.length) live
  generalize live.take (m % live.length) = front at hc hlist ⊢
  generalize live.drop (m % live.length) = back at hc hlist ⊢
  cases back with
  | nil =>
    cases front with
    | nil => simp at hc
    | cons x front =>
      obtain rfl : x = c := by simpa using hc
      rw [← hlist, List.append_nil] at h
      have hchain := (show TaskListOk k ([] ++ x :: front) from h).isChain_successor
      cases front with
      | nil => simpa using (List.isChain_cons_cons.1 hchain).1.symm
      | cons y front => simpa using (List.isChain_cons_cons.1 hchain).1.symm
  | cons x back =>
    obtain rfl : x = c := by simpa using hc
    rw [← hlist] at h
    have hchain := h.isChain_successor
    cases back with
    | nil =>
      cases front with
      | nil => simpa using (List.isChain_cons_cons.1 hchain).1.symm
      | cons y front => simpa using (List.isChain_cons_cons.1 hchain).1.symm
    | cons y back => simpa using (List.isChain_cons_cons.1 hchain).1.symm

/-- A step without a load keeps the list, and the turn passes with a tick. -/
lemma HasTurn.step (h : HasTurn r live m) (hs : Sound r.computer.kernel live) (hallowed : Allowed r i)
    (hload : Loadless r i) (hstep : r.step i = some r') :
    Sound r'.computer.kernel live ∧ HasTurn r' live (m + ticks [i]) := by
  cases i with
  | work user mem =>
    obtain rfl := Option.some.inj hstep
    exact ⟨hs.withKmem (pins_withMem _ _ _), h⟩
  | enter vector env =>
    obtain ⟨hvector, hcall⟩ := hallowed
    by_cases hclock : vector = 0x20
    · subst hclock
      obtain ⟨t, rfl, hserved, hkernel, -, -⟩ := clock_effect hs hstep
      have hnext := head_rotate_succ hs.tasks h
      rw [HasTurn, hkernel]
      exact ⟨hserved.sound, hnext⟩
    have hnone : ticks [.enter vector env] = 0 := by simp [ticks, hclock]
    rw [hnone, Nat.add_zero]
    by_cases hsystem : vector = 0x80
    · subst hsystem
      obtain ⟨leave, k, live', hserved, hkernel, -, hquiet⟩ := call_effect hs (hcall rfl) hstep
      obtain ⟨hsix, hseven⟩ := hload rfl
      obtain ⟨rfl, hleave⟩ := hquiet hsix hseven
      have hpage : leftKernel k leave = taskPage k := by
        cases leave with
        | task t => exact absurd rfl (hleave t)
        | _ => rfl
      have hcurrent : k.currentTask = r.computer.kernel.currentTask := hserved.stays hleave
      rw [HasTurn, hkernel, hpage]
      refine ⟨hserved.sound.taskSwitch hserved.sound.current, ?_⟩
      change (live'.rotate m).head? = some k.currentTask
      rw [hcurrent]
      exact h
    by_cases hkeyboard : vector = 0x21
    · subst hkeyboard
      obtain ⟨k, hhandled, -, hkernel, -, -⟩ := keyboard_effect hs hstep
      have hcurrent : k.currentTask = r.computer.kernel.currentTask := hhandled.stays (by simp)
      rw [HasTurn, hkernel]
      refine ⟨hhandled.sound.taskSwitch hhandled.sound.current, ?_⟩
      change (live.rotate m).head? = some k.currentTask
      rw [hcurrent]
      exact h
    · obtain ⟨hkernel, -, -⟩ := ignored_effect hvector hsystem hclock hkeyboard hstep
      rw [HasTurn, hkernel]
      exact ⟨(hs.pagingSwitch _).taskSwitch hs.current, h⟩

end AlphaOS.Interrupts
