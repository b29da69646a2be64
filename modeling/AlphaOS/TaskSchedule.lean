import AlphaOS.SystemCommand
import AlphaOS.TaskList

/-! The scheduling step of `task/task.c`, `task_next`, and the round it makes of the tasks. -/
namespace AlphaOS.Tasks
open LinkedList Kheap Paging Processes WordMemory

/-- The task returned to is the current one of the result. The panic gives nothing. -/
def taskNext (k : Kernel) : Option Kernel :=
  let nextTask := taskGetNext k
  if nextTask = 0 then none else some (taskSwitch k nextTask)

/-- The tasks that steps one after the other return to. -/
def taskNexts : ℕ → Kernel → Option (List Word × Kernel)
  | 0, k => some ([], k)
  | n + 1, k =>
    (taskNext k).bind fun k' => (taskNexts n k').map fun r => (k'.currentTask :: r.1, r.2)

variable {k k₀ : Kernel} {live l : List Word} {c : Word}

/-- The task that follows one in the round. -/
def successor (k : Kernel) (task : Word) : Word :=
  wrapNext (fun t => (k.tasks t).next) 0 k.taskHead task

/-- A switch changes no link. -/
lemma successor_taskSwitch (k : Kernel) (task : Word) :
    successor (taskSwitch k task) = successor k := rfl

lemma taskNext_successor (hne : successor k k.currentTask ≠ 0) :
    taskNext k = some (taskSwitch k (successor k k.currentTask)) := by
  have hnext : taskGetNext k = successor k k.currentTask := rfl
  simp only [taskNext, hnext, if_neg hne]

/-- Steps follow the successors. -/
lemma taskNexts_follow (hchain : (c :: l).IsChain fun x y => successor k x = y)
    (hne : ∀ x ∈ l, x ≠ 0) (hcurrent : k.currentTask = c) :
    ∃ k', taskNexts l.length k = some (l, k') ∧ (c :: l).getLast? = some k'.currentTask := by
  induction l generalizing k c with
  | nil => exact ⟨k, rfl, by simp [hcurrent]⟩
  | cons x l ih =>
    obtain ⟨hx, hrest⟩ := List.isChain_cons_cons.1 hchain
    have hstep : taskNext k = some (taskSwitch k x) := by
      rw [← hx, ← hcurrent]
      apply taskNext_successor
      rw [hcurrent, hx]
      exact hne x (by simp)
    obtain ⟨k', hsteps, hlast⟩ := @ih (taskSwitch k x) x (by rwa [successor_taskSwitch])
      (fun y hy => hne y (by simp [hy])) rfl
    refine ⟨k', ?_, by rw [List.getLast?_cons_cons]; exact hlast⟩
    simp only [List.length_cons, taskNexts, hstep, hsteps, Option.bind_some, Option.map_some]
    rfl

lemma TaskListOk.isChain_successor {a b : List Word} (h : TaskListOk k (a ++ c :: b)) :
    (c :: (b ++ (a ++ [c]))).IsChain fun x y => successor k x = y :=
  h.linked.isChain_wrap

/-- As many steps as there are tasks return to each task once, in the order of their creation
and around from the last to the first, and end at the task they began with. -/
theorem taskNexts_round (hhead : k₀.taskHead = 0) (htail : k₀.taskTail = 0)
    (hcurrent : k₀.currentTask = 0) (run : TaskRun IsTail k₀ k live) (hc : c ∈ live) :
    let order := live.rotate (live.idxOf c + 1)
    ∃ k', taskNexts live.length { k with currentTask := c } = some (order, k') ∧
      k'.currentTask = c ∧ order.Perm live ∧ live.Nodup ∧ ∀ t ∈ order, t ≠ 0 := by
  obtain ⟨hok, -⟩ := taskRun_ok hhead htail hcurrent run
  obtain ⟨a, b, rfl⟩ := List.mem_iff_append.1 hc
  have hnodup := hok.linked.nodup
  have hnot : c ∉ a := fun hmem => (List.nodup_append.1 hnodup).2.2 c hmem c (by simp) rfl
  have hindex : (a ++ c :: b).idxOf c = a.length := by
    rw [List.idxOf_append_of_notMem hnot, List.idxOf_cons_self, Nat.add_zero]
  have horder : (a ++ c :: b).rotate (a.length + 1) = b ++ (a ++ [c]) := by
    have hsame : a ++ c :: b = (a ++ [c]) ++ b := by simp
    have hlength : a.length + 1 = (a ++ [c]).length := by simp
    rw [hsame, hlength, List.rotate_append_length_eq]
  have hlength : (a ++ c :: b).length = (b ++ (a ++ [c])).length := by
    simp only [List.length_append, List.length_cons, List.length_nil]
    omega
  have hperm : (b ++ (a ++ [c])).Perm (a ++ c :: b) := by
    rw [← horder]
    exact List.rotate_perm _ _
  have hne : ∀ t ∈ b ++ (a ++ [c]), t ≠ 0 := fun t ht => hok.linked.ne_null t (hperm.mem_iff.1 ht)
  intro order
  have hsame : order = b ++ (a ++ [c]) := by rw [← horder, ← hindex]
  obtain ⟨k', hsteps, hlast⟩ := @taskNexts_follow { k with currentTask := c } _ c
    hok.isChain_successor hne rfl
  rw [hsame, hlength]
  refine ⟨k', hsteps, ?_, hperm, hnodup, hne⟩
  have hend : (c :: (b ++ (a ++ [c]))).getLast? = some c := by simp [List.getLast?_cons]
  exact Option.some.inj (hlast.symm.trans hend)

/-- From the first of two tasks. -/
theorem taskNexts_round_twoTasks : ∃ k first second k', first ≠ second ∧
    TaskRun IsTail (zeroKernel emptyKmem) k [first, second] ∧
    taskNexts 2 { k with currentTask := first } = some ([second, first], k') ∧
    k'.currentTask = first := by
  obtain ⟨hcard, hfree⟩ := emptyKmem_free
  generalize hk : zeroKernel emptyKmem = k₀ at hfree
  have hempty : k₀.taskHead = 0 ∧ k₀.taskTail = 0 ∧ k₀.currentTask = 0 := by
    rw [← hk]
    exact ⟨rfl, rfl, rfl⟩
  obtain ⟨hok, left, hlcard, hlfree⟩ := taskNew_ok k₀ 0 (Finset.range 25600) (by omega) hfree
  obtain ⟨hok', -⟩ := taskNew_ok (taskNew k₀ 0).2 0 left (by omega) hlfree
  have hrun := ((@TaskRun.start IsTail k₀).new 0 hok).new 0 hok'
  generalize (taskNew (taskNew k₀ 0).2 0).2 = k at hrun
  generalize (taskNew (taskNew k₀ 0).2 0).1 = second at hrun
  generalize (taskNew k₀ 0).1 = first at hrun
  obtain ⟨k', hsteps, hend, -, hnodup, -⟩ := @taskNexts_round k k₀ [first, second] first hempty.1
    hempty.2.1 hempty.2.2 hrun (by simp)
  have hne : first ≠ second := by simpa using hnodup
  refine ⟨k, first, second, k', hne, hrun, ?_, hend⟩
  rw [List.idxOf_cons_self] at hsteps
  exact hsteps

end AlphaOS.Tasks
