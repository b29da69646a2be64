import AlphaOS.LinkedList
import AlphaOS.TaskMemory

/-! The scheduler's list of tasks over runs of `task_new` and `task_free`. Removing a
task leaves the `prev` link of its successor, so the list stays doubly linked exactly
as long as only its last task is ever freed. -/
namespace AlphaOS.Tasks
open BlockHeap Kheap LinkedList Paging WordMemory

/-- The scheduler's list is the doubly linked list of the live tasks in creation order,
and its three pointers are live, or null when there are none. -/
structure TaskListOk (k : Kernel) (live : List Word) : Prop where
  linked : Linked (fun t => (k.tasks t).next) (fun t => (k.tasks t).prev) 0 k.taskHead k.taskTail
    live
  next_live : ∀ t ∈ live, (k.tasks t).next = 0 ∨ (k.tasks t).next ∈ live
  prev_live : ∀ t ∈ live, (k.tasks t).prev = 0 ∨ (k.tasks t).prev ∈ live
  ends_live : (live = [] ∧ k.taskHead = 0 ∧ k.taskTail = 0) ∨
    (k.taskHead ∈ live ∧ k.taskTail ∈ live)
  current_live : (live = [] ∧ k.currentTask = 0) ∨ k.currentTask ∈ live

/-- The list and the memory of its tasks: `B t` holds the blocks of task `t`. -/
structure TasksInv (k : Kernel) (live : List Word) (B : Word → Set ℕ) : Prop where
  linked : Linked (fun t => (k.tasks t).next) (fun t => (k.tasks t).prev) 0 k.taskHead k.taskTail
    live
  current : (live = [] ∧ k.currentTask = 0) ∨ k.currentTask ∈ live
  held : ∀ t ∈ live, TaskHeld k t (B t)
  apart : ∀ t ∈ live, ∀ u ∈ live, t ≠ u → Disjoint (B t) (B u)

variable {k : Kernel} {live : List Word} {B : Word → Set ℕ} {task t u : Word}

lemma TasksInv.ok (h : TasksInv k live B) : TaskListOk k live := by
  refine ⟨h.linked, fun t ht => h.linked.next_mem ht, fun t ht => h.linked.prev_mem ht, ?_,
    h.current⟩
  by_cases hl : live = []
  · subst hl
    exact .inl ⟨rfl, h.linked.forward, h.linked.backward⟩
  · exact .inr ⟨h.linked.head_mem hl, h.linked.tail_mem hl⟩

/-! What `task_list_remove` writes. -/

lemma taskUnlink_eq (k : Kernel) (task : Word) :
    taskUnlink k task = { k with tasks := (taskUnlink k task).tasks } := by
  unfold taskUnlink
  dsimp only
  split_ifs <;> rfl

/-- A field other than `next` is kept. -/
lemma taskUnlink_field {β : Type*} (field : Task → β)
    (hfield : ∀ (t : Task) (next : Word), field { t with next := next } = field t) (k : Kernel)
    (task u : Word) : field ((taskUnlink k task).tasks u) = field (k.tasks u) := by
  unfold taskUnlink
  dsimp only
  split_ifs with hp
  · rw [Kernel.setTask_tasks]
    by_cases hu : u = (k.tasks task).prev
    · rw [hu, Function.update_self, hfield]
    · rw [Function.update_of_ne hu]
  · rfl

lemma taskUnlink_next (k : Kernel) (task u : Word) : ((taskUnlink k task).tasks u).next =
    if u = (k.tasks task).prev ∧ u ≠ 0 then (k.tasks task).next else (k.tasks u).next := by
  unfold taskUnlink
  dsimp only
  by_cases hu : u = (k.tasks task).prev
  · rw [← hu]
    split_ifs with hp hpu hpu
    · rw [Kernel.setTask_tasks, Function.update_self]
    · exact absurd ⟨rfl, hp⟩ hpu
    · exact absurd hpu.2 hp
    · rfl
  · have hnot : ¬ (u = (k.tasks task).prev ∧ u ≠ 0) := fun h => hu h.1
    rw [if_neg hnot]
    split_ifs with hp
    · rw [Kernel.setTask_tasks, Function.update_of_ne hu]
    · rfl

lemma taskListRemove_tasks (k : Kernel) (task : Word) :
    (taskListRemove k task).tasks = (taskUnlink k task).tasks := rfl

lemma taskListRemove_head (k : Kernel) (task : Word) : (taskListRemove k task).taskHead =
    if task = k.taskHead then ((taskUnlink k task).tasks task).next else k.taskHead := by
  change (if task = (taskUnlink k task).taskHead then _ else (taskUnlink k task).taskHead) = _
  rw [show (taskUnlink k task).taskHead = k.taskHead by rw [taskUnlink_eq]]

lemma taskListRemove_tail (k : Kernel) (task : Word) : (taskListRemove k task).taskTail =
    if task = k.taskTail then (k.tasks task).prev else k.taskTail := by
  change (if task = (taskUnlink k task).taskTail then ((taskUnlink k task).tasks task).prev
    else (taskUnlink k task).taskTail) = _
  rw [show (taskUnlink k task).taskTail = k.taskTail by rw [taskUnlink_eq],
    taskUnlink_field Task.prev (fun _ _ => rfl)]

lemma taskListRemove_current (k : Kernel) (task : Word) : (taskListRemove k task).currentTask =
    if task = k.currentTask then
      if ((taskUnlink k task).tasks task).next = 0 then (taskListRemove k task).taskHead
      else ((taskUnlink k task).tasks task).next
    else k.currentTask := by
  have hcurrent : (taskUnlink k task).currentTask = k.currentTask := by rw [taskUnlink_eq]
  change (if task = (taskUnlink k task).currentTask then
    if ((taskUnlink k task).tasks (taskUnlink k task).currentTask).next = 0
      then (taskListRemove k task).taskHead
      else ((taskUnlink k task).tasks (taskUnlink k task).currentTask).next
    else (taskUnlink k task).currentTask) = _
  rw [hcurrent]
  by_cases heq : task = k.currentTask
  · rw [if_pos heq, if_pos heq, ← heq]
  · rw [if_neg heq, if_neg heq]

lemma taskListRemove_withKmem (k : Kernel) (s : Kmem) (task : Word) :
    taskListRemove (k.withKmem s) task = (taskListRemove k task).withKmem s := by
  have hunlink : taskUnlink (k.withKmem s) task = (taskUnlink k task).withKmem s := by
    unfold taskUnlink
    dsimp only [Kernel.withKmem_tasks]
    split_ifs <;> rfl
  unfold taskListRemove
  rw [hunlink]
  rfl

/-- The memory after `task_free`. -/
def freedTask (k : Kernel) (task : Word) : Kmem :=
  kfree (pagingFree4gb k.kmem (k.tasks task).pageDirectory) task

/-- `task_free` frees the directory and the task, and takes it out of the list. -/
lemma taskFree_eq (k : Kernel) (task : Word) :
    taskFree k task = (taskListRemove k task).withKmem (freedTask k task) := by
  simp only [taskFree, freedTask, taskListRemove_withKmem, Kernel.withKmem_withKmem,
    Kernel.withKmem_kmem]

/-- Freeing a task frees its blocks. -/
lemma taskFree_kmem (h : TaskHeld k task (B task)) :
    ShrunkBy k.kmem (taskFree k task).kmem (B task) := by
  obtain ⟨b, c, d, table, htask, hdir, hheld, hb, hB⟩ := h
  have hfreed := pagingFree4gb_spec hdir
  have hlast := kfree_held (hfreed.held hheld hb)
  rw [← htask] at hlast
  rw [taskFree_eq, Kernel.withKmem_kmem, hB, ← Set.union_singleton]
  exact hfreed.trans hlast

/-! What the end of `task_new` writes. -/

lemma taskListAppend_tasks (hhead : k.taskHead ≠ 0) (hne : task ≠ k.taskTail) (u : Word) :
    (taskListAppend k task).tasks u =
      if u = task then { k.tasks task with prev := k.taskTail }
      else if u = k.taskTail then { k.tasks u with next := task } else k.tasks u := by
  unfold taskListAppend
  rw [if_neg hhead]
  simp only [Kernel.setTask_tasks, Function.update_of_ne hne]
  by_cases hu : u = task
  · rw [if_pos hu, hu, Function.update_self]
    rfl
  · rw [if_neg hu, Function.update_of_ne hu]
    by_cases htail : u = k.taskTail
    · rw [if_pos htail, htail, Function.update_self]
    · rw [if_neg htail, Function.update_of_ne htail]

lemma taskListAppend_pageDirectory (k : Kernel) (task u : Word) :
    ((taskListAppend k task).tasks u).pageDirectory = (k.tasks u).pageDirectory := by
  have hset : ∀ (k : Kernel) (a : Word) (t : Task), t.pageDirectory = (k.tasks a).pageDirectory →
      ((k.setTask a t).tasks u).pageDirectory = (k.tasks u).pageDirectory := by
    intro k a t ht
    rw [Kernel.setTask_tasks]
    by_cases hu : u = a
    · rw [hu, Function.update_self, ht]
    · rw [Function.update_of_ne hu]
  unfold taskListAppend
  by_cases hhead : k.taskHead = 0
  · rw [if_pos hhead]
  · rw [if_neg hhead]
    refine (hset _ task _ ?_).trans (hset _ k.taskTail _ ?_) <;> rfl

lemma taskListAppend_ends (hhead : k.taskHead ≠ 0) (task : Word) :
    (taskListAppend k task).taskHead = k.taskHead ∧ (taskListAppend k task).taskTail = task ∧
    (taskListAppend k task).currentTask = k.currentTask := by
  unfold taskListAppend
  rw [if_neg hhead]
  exact ⟨rfl, rfl, rfl⟩

lemma taskListAppend_first (hhead : k.taskHead = 0) (task : Word) : taskListAppend k task =
    { k with taskHead := task, taskTail := task, currentTask := task } := if_pos hhead

/-- The list with a task at its end. The task is a new one, so its links are null before. -/
lemma taskListAppend_linked {k' : Kernel}
    (h : Linked (fun t => (k.tasks t).next) (fun t => (k.tasks t).prev) 0 k.taskHead k.taskTail live)
    (hnot : task ∉ live) (htask : task ≠ 0) (hhead : k'.taskHead = k.taskHead)
    (htail : k'.taskTail = k.taskTail) (hold : ∀ u ∈ live, k'.tasks u = k.tasks u)
    (hnext : (k'.tasks task).next = 0) (hprev : (k'.tasks task).prev = 0) :
    Linked (fun t => ((taskListAppend k' task).tasks t).next)
      (fun t => ((taskListAppend k' task).tasks t).prev) 0 (taskListAppend k' task).taskHead
      (taskListAppend k' task).taskTail (live ++ [task]) := by
  by_cases hl : live = []
  · rw [hl, List.nil_append, taskListAppend_first (hhead.trans (h.eq_nil_iff.1 hl))]
    refine ⟨⟨rfl, hnext⟩, ⟨rfl, hprev⟩, List.nodup_singleton _, fun x hx => ?_⟩
    rw [List.mem_singleton.1 hx]
    exact htask
  · have hhead₀ : k'.taskHead ≠ 0 := fun h0 => hl (h.eq_nil_iff.2 (hhead.symm.trans h0))
    have hne : task ≠ k'.taskTail := fun heq => hnot (heq ▸ htail ▸ h.tail_mem hl)
    have htasks := taskListAppend_tasks hhead₀ hne
    have hother : ∀ y ∈ live, y ≠ task := fun y hy heq => hnot (heq ▸ hy)
    obtain ⟨hh, ht, -⟩ := taskListAppend_ends hhead₀ task
    rw [hh, ht, hhead]
    refine h.concat hl hnot htask ?_ ?_ ?_ (fun y hy hyt => ?_) fun y hy => ?_
    · rw [htasks, ← htail, if_neg (Ne.symm hne), if_pos rfl]
    · rw [htasks, if_pos rfl]
      exact hnext
    · rw [htasks, if_pos rfl, htail]
    · rw [htasks, if_neg (hother y hy), if_neg (by rwa [htail]), hold y hy]
    · rw [htasks, if_neg (hother y hy), hold y hy]
      split_ifs <;> rfl

/-- Blocks of a new task that no other task has. -/
lemma apart_concat (h : ∀ t ∈ live, ∀ u ∈ live, t ≠ u → Disjoint (B t) (B u)) (hnot : task ∉ live)
    {C : Set ℕ} (hnew : ∀ t ∈ live, Disjoint (B t) C) :
    ∀ t ∈ live ++ [task], ∀ u ∈ live ++ [task], t ≠ u →
      Disjoint (Function.update B task C t) (Function.update B task C u) := by
  intro u hu v hv huv
  have hne : ∀ w ∈ live, w ≠ task := fun w hw heq => hnot (heq ▸ hw)
  rcases List.mem_append.1 hu with hu | hu <;> rcases List.mem_append.1 hv with hv | hv
  · rw [Function.update_of_ne (hne u hu), Function.update_of_ne (hne v hv)]
    exact h u hu v hv huv
  · rw [List.mem_singleton.1 hv, Function.update_of_ne (hne u hu), Function.update_self]
    exact hnew u hu
  · rw [List.mem_singleton.1 hu, Function.update_of_ne (hne v hv), Function.update_self]
    exact (hnew v hv).symm
  · exact absurd ((List.mem_singleton.1 hu).trans (List.mem_singleton.1 hv).symm) huv

/-- A successful `task_new` adds its task at the end. -/
theorem TasksInv.new (h : TasksInv k live B) {process : Word}
    (hok : isErr (taskNew k process).1 = false) :
    ∃ B', TasksInv (taskNew k process).2 (live ++ [(taskNew k process).1]) B' := by
  obtain ⟨b, Bnew, s, t, heq, hgrown, hfresh, hbnew, hheld⟩ := taskNew_spec k process hok
  have hblt := (hgrown.fresh b hbnew).1
  have htask : blockAddr b ≠ 0 := blockAddr_ne_zero (by omega)
  -- the new blocks were free, those of the tasks were not
  have hoff : ∀ u ∈ live, ∀ x ∈ B u, x ∉ Bnew := fun u hu x hx hnew =>
    ((h.held u hu).held hx).not_free (hgrown.fresh x hnew).2
  have hnot : blockAddr b ∉ live := by
    intro hmem
    obtain ⟨b', c, d, table, hb', -, hheld', -, hB⟩ := h.held _ hmem
    have hblt' := hheld'.1
    obtain rfl := blockAddr_inj (by omega) (by omega) hb'
    exact hoff _ hmem b (hB ▸ .inl rfl) hbnew
  obtain ⟨k₁, hk₁⟩ : ∃ k₁, (k.withKmem s).setTask (blockAddr b) t = k₁ := ⟨_, rfl⟩
  have hold : ∀ u ∈ live, k₁.tasks u = k.tasks u := fun u hu => by
    rw [← hk₁]
    exact Function.update_of_ne (fun heq => hnot (by rwa [← heq])) _ _
  have hnewtask : k₁.tasks (blockAddr b) = t := by
    rw [← hk₁]
    exact Function.update_self _ _ _
  have hkmem : k₁.kmem = s := by rw [← hk₁]; rfl
  have hhead : k₁.taskHead = k.taskHead := by rw [← hk₁]; rfl
  have htail : k₁.taskTail = k.taskTail := by rw [← hk₁]; rfl
  have hcurrent : k₁.currentTask = k.currentTask := by rw [← hk₁]; rfl
  rw [hk₁] at hheld heq
  rw [heq]
  have hapart := apart_concat h.apart hnot fun u hu => Set.disjoint_left.2 (hoff u hu)
  refine ⟨Function.update B (blockAddr b) Bnew, ?_, ?_, fun u hu => ?_, hapart⟩
  · exact taskListAppend_linked h.linked hnot htask hhead htail hold
      ((congrArg Task.next hnewtask).trans hfresh.next)
      ((congrArg Task.prev hnewtask).trans hfresh.prev)
  · right
    by_cases hhead₀ : k₁.taskHead = 0
    · rw [taskListAppend_first hhead₀]
      exact List.mem_append_right _ (List.mem_singleton_self _)
    · rw [(taskListAppend_ends hhead₀ (blockAddr b)).2.2, hcurrent]
      rcases h.current with ⟨hl, -⟩ | hcur
      · exact absurd (hhead.trans (h.linked.eq_nil_iff.1 hl)) hhead₀
      · exact List.mem_append_left _ hcur
  · have hdirectory := taskListAppend_pageDirectory k₁ (blockAddr b) u
    have hkmem' := (taskListAppend_kmem k₁ (blockAddr b)).trans hkmem
    rcases List.mem_append.1 hu with hu | hu
    · have hub : u ≠ blockAddr b := fun heq => hnot (heq ▸ hu)
      rw [Function.update_of_ne hub]
      rw [hold u hu] at hdirectory
      refine (h.held u hu).frame hdirectory (fun x hx => ?_)
        (by rw [hkmem']; exact hgrown.mem) fun x hx => ?_
      · rw [hkmem']
        exact hgrown.same x fun c hc heq => hoff u hu x hx (by rwa [Nat.cast_inj.1 heq])
      · rintro (h0 | ⟨c, hc, hcx⟩)
        · omega
        · obtain rfl : x = c := by omega
          exact hoff u hu x hx hc
    · rw [List.mem_singleton.1 hu] at hdirectory ⊢
      rw [Function.update_self]
      exact hheld.frame (S := ∅) hdirectory (fun x _ => by rw [hkmem', hkmem])
        (by rw [hkmem', hkmem]; exact SameOff.refl _ _) fun x _ => Set.notMem_empty _

lemma taskFree_tasks (k : Kernel) (task : Word) :
    (taskFree k task).tasks = (taskUnlink k task).tasks := by
  rw [taskFree_eq, Kernel.withKmem_tasks, taskListRemove_tasks]

lemma taskFree_next (k : Kernel) (task u : Word) : ((taskFree k task).tasks u).next =
    if u = (k.tasks task).prev ∧ u ≠ 0 then (k.tasks task).next else (k.tasks u).next := by
  rw [taskFree_tasks, taskUnlink_next]

lemma taskFree_prev (k : Kernel) (task u : Word) :
    ((taskFree k task).tasks u).prev = (k.tasks u).prev := by
  rw [taskFree_tasks, taskUnlink_field Task.prev fun _ _ => rfl]

lemma taskFree_pageDirectory (k : Kernel) (task u : Word) :
    ((taskFree k task).tasks u).pageDirectory = (k.tasks u).pageDirectory := by
  rw [taskFree_tasks, taskUnlink_field Task.pageDirectory fun _ _ => rfl]

lemma taskFree_head (k : Kernel) (task : Word) : (taskFree k task).taskHead =
    if task = k.taskHead then ((taskFree k task).tasks task).next else k.taskHead := by
  rw [taskFree_tasks, taskFree_eq]
  exact taskListRemove_head k task

lemma taskFree_tail (k : Kernel) (task : Word) : (taskFree k task).taskTail =
    if task = k.taskTail then (k.tasks task).prev else k.taskTail := by
  rw [taskFree_eq]
  exact taskListRemove_tail k task

lemma taskFree_current (k : Kernel) (task : Word) : (taskFree k task).currentTask =
    if task = k.currentTask then
      if ((taskFree k task).tasks task).next = 0 then (taskFree k task).taskHead
      else ((taskFree k task).tasks task).next
    else k.currentTask := by
  rw [taskFree_tasks, taskFree_eq]
  exact taskListRemove_current k task

/-- Freeing the last task removes it. -/
theorem TasksInv.free (h : TasksInv k (live ++ [t]) B) : TasksInv (taskFree k t) live B := by
  have htail : k.taskTail = t := h.linked.tail_eq
  have htlast : (k.tasks t).next = 0 := (reaches_concat.1 h.linked.forward).2
  have ht0 : t ≠ 0 := h.linked.ne_null t (by simp)
  have hnodup := List.nodup_append.1 h.linked.nodup
  have hnot : t ∉ live := fun hmem => hnodup.2.2 t hmem t (by simp) rfl
  have htnext : ((taskFree k t).tasks t).next = 0 := by
    rw [taskFree_next]
    split_ifs <;> exact htlast
  have hshrunk := taskFree_kmem (h.held t (by simp))
  have hheld : ∀ u ∈ live, TaskHeld (taskFree k t) u (B u) := by
    intro u hu
    have hut : u ≠ t := fun heq => hnot (heq ▸ hu)
    refine (h.held u (by simp [hu])).frame (S := ∅) (taskFree_pageDirectory k t u)
      (fun x hx => hshrunk.same x fun c hc heq => ?_) (by rw [hshrunk.mem]; exact SameOff.refl _ _)
      fun x _ => Set.notMem_empty _
    rw [Nat.cast_inj.1 heq] at hx
    exact Set.disjoint_left.1 (h.apart u (by simp [hu]) t (by simp) hut) hx hc
  have hapart : ∀ u ∈ live, ∀ v ∈ live, u ≠ v → Disjoint (B u) (B v) :=
    fun u hu v hv => h.apart u (by simp [hu]) v (by simp [hv])
  cases live using List.reverseRecOn with
  | nil =>
    have hprev : (k.tasks t).prev = 0 := h.linked.backward.2
    have hhead : k.taskHead = t := h.linked.forward.1
    have hhead' : (taskFree k t).taskHead = 0 := by rw [taskFree_head, if_pos hhead.symm, htnext]
    have htail' : (taskFree k t).taskTail = 0 := by rw [taskFree_tail, if_pos htail.symm, hprev]
    have hcurrent : t = k.currentTask := by
      rcases h.current with ⟨hnil, -⟩ | hmem
      · exact absurd hnil (by simp)
      · exact (List.mem_singleton.1 hmem).symm
    refine ⟨?_, .inl ⟨rfl, ?_⟩, hheld, hapart⟩
    · rw [hhead', htail']
      exact Linked.nil
    · rw [taskFree_current, if_pos hcurrent, if_pos htnext, hhead']
  | append_singleton l z =>
    have hlinked := h.linked
    rw [List.append_assoc] at hlinked
    have hprev : (k.tasks t).prev = z := hlinked.prev_eq
    have hz0 : z ≠ 0 := h.linked.ne_null z (by simp)
    have htail' : (taskFree k t).taskTail = z := by rw [taskFree_tail, if_pos htail.symm, hprev]
    have hzl : z ∉ l := fun hmem => (List.nodup_append.1 hnodup.1).2.2 z hmem z (by simp) rfl
    have hnew : Linked (fun u => ((taskFree k t).tasks u).next)
        (fun u => ((taskFree k t).tasks u).prev) 0 k.taskHead z (l ++ [z]) := by
      refine hlinked.dropLast ?_ (fun y hy => ?_) fun y _ => taskFree_prev k t y
      · rw [taskFree_next, if_pos ⟨hprev.symm, hz0⟩, htlast]
      · have hyz : ¬ (y = (k.tasks t).prev ∧ y ≠ 0) := fun h => hzl (by rwa [← hprev, ← h.1])
        rw [taskFree_next, if_neg hyz]
    have hhead' : (taskFree k t).taskHead = k.taskHead := by
      have hne : t ≠ k.taskHead := fun heq => hnot (heq ▸ hnew.head_mem (by simp))
      rw [taskFree_head, if_neg hne]
    refine ⟨?_, .inr ?_, hheld, hapart⟩
    · rw [hhead', htail']
      exact hnew
    · rw [taskFree_current]
      by_cases hcur : t = k.currentTask
      · rw [if_pos hcur, if_pos htnext, hhead']
        exact hnew.head_mem (by simp)
      · rw [if_neg hcur]
        rcases h.current with ⟨hnil, -⟩ | hmem
        · exact absurd hnil (by simp)
        · rcases List.mem_append.1 hmem with hmem | hmem
          · exact hmem
          · exact absurd (List.mem_singleton.1 hmem).symm hcur

/-- Freeing a live task keeps the list in order exactly when it is the last one: the
successor of any other task keeps its `prev` link to the freed task. -/
theorem TasksInv.free_ok_iff (h : TasksInv k live B) (ht : t ∈ live) :
    TaskListOk (taskFree k t) (live.erase t) ↔ t = k.taskTail := by
  obtain ⟨a, b, rfl⟩ := List.mem_iff_append.1 ht
  have hnodup := h.linked.nodup
  have hnot : t ∉ (a ++ t :: b).erase t := hnodup.not_mem_erase
  have hta : t ∉ a := fun hmem => (List.nodup_append.1 hnodup).2.2 t hmem t (by simp) rfl
  cases b with
  | nil =>
    refine iff_of_true ?_ h.linked.tail_eq.symm
    rw [List.erase_append_right _ hta]
    simpa using h.free.ok
  | cons u b =>
    have hprev : ((taskFree k t).tasks u).prev = t := by
      rw [taskFree_prev]
      exact h.linked.prev_eq
    have htu : t ≠ u := by
      rintro rfl
      exact absurd (List.nodup_append.1 hnodup).2.1 (by simp)
    refine iff_of_false (fun hok => ?_) fun htail => ?_
    · have hu : u ∈ (a ++ t :: u :: b).erase t := (List.mem_erase_of_ne htu.symm).2 (by simp)
      have hlive := hok.prev_live u hu
      rw [hprev] at hlive
      rcases hlive with h0 | hmem
      · exact h.linked.ne_null t (by simp) h0
      · exact hnot hmem
    · have hlinked := h.linked
      have hsplit : a ++ t :: u :: b = (a ++ [t]) ++ (u :: b) := by simp
      have hmem : k.taskTail ∈ u :: b := by
        obtain ⟨c, x, hx⟩ : ∃ c x, u :: b = c ++ [x] :=
          ⟨_, _, (List.dropLast_append_getLast (List.cons_ne_nil u b)).symm⟩
        rw [hsplit, hx, ← List.append_assoc] at hlinked
        rw [hlinked.tail_eq, hx]
        simp
      rw [hsplit] at hnodup
      exact (List.nodup_append.1 hnodup).2.2 t (by simp) _ hmem htail

/-- A run of successful `task_new` calls and of `task_free` calls on live tasks that the
guard allows, with the live tasks in creation order. -/
inductive TaskRun (guard : Kernel → Word → Prop) (k₀ : Kernel) : Kernel → List Word → Prop
  | start : TaskRun guard k₀ k₀ []
  | new {k : Kernel} {live : List Word} (run : TaskRun guard k₀ k live) (process : Word)
      (ok : isErr (taskNew k process).1 = false) :
      TaskRun guard k₀ (taskNew k process).2 (live ++ [(taskNew k process).1])
  | free {k : Kernel} {live : List Word} (run : TaskRun guard k₀ k live) {task : Word}
      (ht : task ∈ live) (allowed : guard k task) :
      TaskRun guard k₀ (taskFree k task) (live.erase task)

/-- The guard that only the last task of the list is freed. -/
def IsTail (k : Kernel) (task : Word) : Prop := task = k.taskTail

theorem TaskRun.inv {k₀ : Kernel} (hhead : k₀.taskHead = 0) (htail : k₀.taskTail = 0)
    (hcurrent : k₀.currentTask = 0) (run : TaskRun IsTail k₀ k live) : ∃ B, TasksInv k live B := by
  induction run with
  | start =>
    refine ⟨fun _ => ∅, ?_, .inl ⟨rfl, hcurrent⟩, by simp, by simp⟩
    rw [hhead, htail]
    exact Linked.nil
  | new _ process hok ih =>
    obtain ⟨B, h⟩ := ih
    exact h.new hok
  | @free k live _ task ht hallowed ih =>
    obtain ⟨B, h⟩ := ih
    cases live using List.reverseRecOn with
    | nil => exact absurd ht (by simp)
    | append_singleton l z =>
      obtain rfl : task = z := Eq.trans hallowed h.linked.tail_eq
      have hnot : task ∉ l := fun hmem =>
        (List.nodup_append.1 h.linked.nodup).2.2 task hmem task (by simp) rfl
      rw [List.erase_append_right _ hnot]
      exact ⟨B, by simpa using h.free⟩

/-- Two tasks, of which the first is freed. -/
lemma twoTasks {k₀ : Kernel} (hhead : k₀.taskHead = 0) (htail : k₀.taskTail = 0)
    (hcurrent : k₀.currentTask = 0) (free : Finset ℕ) (hcard : 2054 < free.card)
    (hfree : ∀ b ∈ free, b < 25600 ∧ IsFree k₀.kmem.entries b) (guard : Kernel → Word → Prop)
    (p q : Word) :
    let k₁ := (taskNew k₀ p).2
    let live := [(taskNew k₀ p).1, (taskNew k₁ q).1]
    TaskRun guard k₀ (taskNew k₁ q).2 live ∧ live.Nodup ∧
    IsTail (taskNew k₁ q).2 (taskNew k₁ q).1 ∧
    ¬ TaskListOk (taskFree (taskNew k₁ q).2 (taskNew k₀ p).1) (live.erase (taskNew k₀ p).1) := by
  intro k₁ live
  obtain ⟨hok, left, hlcard, hlfree⟩ := taskNew_ok k₀ p free (by omega) hfree
  obtain ⟨hok', -⟩ := taskNew_ok k₁ q left (by omega) hlfree
  have hrun : ∀ guard, TaskRun guard k₀ (taskNew k₁ q).2 live := fun guard =>
    (TaskRun.start.new p hok).new q hok'
  obtain ⟨B, h⟩ := (hrun IsTail).inv hhead htail hcurrent
  have hlast : (taskNew k₁ q).2.taskTail = (taskNew k₁ q).1 := by
    have hlinked := h.linked
    exact Linked.tail_eq (l := [(taskNew k₀ p).1]) hlinked
  have hnodup : [(taskNew k₀ p).1, (taskNew k₁ q).1].Nodup := h.linked.nodup
  refine ⟨hrun guard, hnodup, hlast.symm, fun hfreed => ?_⟩
  have htail' := (h.free_ok_iff (List.mem_cons_self ..)).1 hfreed
  rw [htail', hlast] at hnodup
  simp at hnodup

/-- In every run from the empty list that frees only the task which is the last one at
that moment, the list is in order after every step; and in such a run the next
`task_free` of a live task keeps it so exactly when the task is the last one. -/
theorem taskRun_ok {k₀ : Kernel} (hhead : k₀.taskHead = 0) (htail : k₀.taskTail = 0)
    (hcurrent : k₀.currentTask = 0) (run : TaskRun IsTail k₀ k live) :
    TaskListOk k live ∧
    ∀ t ∈ live, (TaskListOk (taskFree k t) (live.erase t) ↔ t = k.taskTail) := by
  obtain ⟨B, h⟩ := run.inv hhead htail hcurrent
  exact ⟨h.ok, fun t ht => h.free_ok_iff ht⟩

lemma emptyKmem_free : 2054 < (Finset.range 25600).card ∧
    ∀ b ∈ Finset.range 25600, b < 25600 ∧ IsFree (zeroKernel emptyKmem).kmem.entries b := by
  rw [Finset.card_range]
  exact ⟨by omega, fun b hb => ⟨Finset.mem_range.1 hb, kheapInit_free _ _ (Finset.mem_range.1 hb)⟩⟩

/-- Of two tasks the last is freed. -/
theorem taskRun_ok_lastFreed :
    let k₁ := (taskNew (zeroKernel emptyKmem) 0x1000000).2
    TaskListOk (taskFree (taskNew k₁ 0x1003000).2 (taskNew k₁ 0x1003000).1)
      [(taskNew (zeroKernel emptyKmem) 0x1000000).1] := by
  intro k₁
  obtain ⟨hcard, hfree⟩ := emptyKmem_free
  obtain ⟨hrun, hnodup, hlast, -⟩ :=
    twoTasks rfl rfl rfl (Finset.range 25600) hcard hfree IsTail 0x1000000 0x1003000
  have hok := (taskRun_ok rfl rfl rfl (hrun.free (by simp) hlast)).1
  rwa [List.erase_cons_tail (by simpa using hnodup), List.erase_cons_head] at hok

/-- Freeing the first of two tasks leaves a link to it. -/
theorem taskRun_fails :
    let k₀ := zeroKernel emptyKmem
    let k₁ := (taskNew k₀ 0).2
    let live := [(taskNew k₀ 0).1, (taskNew k₁ 0).1]
    TaskRun (fun _ _ => True) k₀ (taskNew k₁ 0).2 live ∧
    ¬ TaskListOk (taskFree (taskNew k₁ 0).2 (taskNew k₀ 0).1) (live.erase (taskNew k₀ 0).1) := by
  obtain ⟨hcard, hfree⟩ := emptyKmem_free
  obtain ⟨hrun, -, -, hfreed⟩ :=
    twoTasks rfl rfl rfl (Finset.range 25600) hcard hfree (fun _ _ => True) 0 0
  exact ⟨hrun, hfreed⟩

end AlphaOS.Tasks
