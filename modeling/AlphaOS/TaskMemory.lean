import AlphaOS.PagingBalance
import AlphaOS.Task

/-! The memory of tasks: which blocks `task_new` takes and `task_free` gives back. -/
namespace AlphaOS.Tasks
open BlockHeap Kheap Paging WordMemory

/-- A task in a block of its own, with its directory in further blocks; `B` holds all of them. -/
def TaskHeld (k : Kernel) (task : Word) (B : Set ℕ) : Prop :=
  ∃ b c d table, task = blockAddr b ∧
    DirHeld k.kmem (k.tasks task).pageDirectory c d table ∧
    Held k.kmem b ∧ b ∉ dirSet c d table ∧ B = insert b (dirSet c d table)

variable {k : Kernel} {task process : Word} {B : Set ℕ}

lemma TaskHeld.held (h : TaskHeld k task B) {b : ℕ} (hb : b ∈ B) : Held k.kmem b := by
  obtain ⟨b', c, d, table, -, hdir, hheld, -, rfl⟩ := h
  rcases hb with rfl | hb
  · exact hheld
  · exact hdir.held hb

/-- A task survives whatever leaves its blocks and its directory pointer alone. -/
lemma TaskHeld.frame (h : TaskHeld k task B) {k' : Kernel} {S : Set ℕ}
    (hdirectory : (k'.tasks task).pageDirectory = (k.tasks task).pageDirectory)
    (hentries : ∀ b ∈ B, k'.kmem.entries b = k.kmem.entries b)
    (hmem : SameOff S k.kmem.mem k'.kmem.mem) (hS : ∀ b ∈ B, 4096 + b ∉ S) :
    TaskHeld k' task B := by
  obtain ⟨b, c, d, table, htask, hdir, hheld, hb, rfl⟩ := h
  have hkeep : ∀ x ∈ insert b (dirSet c d table), Held k.kmem x → Held k'.kmem x :=
    fun x hx hold => ⟨hold.1, (hentries x hx).trans hold.2⟩
  have hc : c ∈ insert b (dirSet c d table) := .inr (.inl rfl)
  have hd : d ∈ insert b (dirSet c d table) := .inr (.inr (.inl rfl))
  have htab : ∀ i < 1024, table i ∈ insert b (dirSet c d table) :=
    fun i hi => .inr (.inr (.inr ⟨i, hi, rfl⟩))
  have hclt := hdir.chunk_held.1
  have hdlt := hdir.dir_held.1
  have hdaddr := blockAddr_toNat (b := d) (by omega)
  refine ⟨b, c, d, table, htask, ?_, hkeep b (.inl rfl) hheld, hb, rfl⟩
  rw [hdirectory]
  refine ⟨hdir.chunk_eq, ?_, fun i hi => ?_, hkeep c hc hdir.chunk_held, hkeep d hd hdir.dir_held,
    fun i hi => hkeep _ (htab i hi) (hdir.table_held i hi), hdir.chunk_ne, hdir.dir_ne, hdir.inj⟩
  · have hpage : pageOf (k.tasks task).pageDirectory ∉ S := by
      rw [hdir.chunk_eq, pageOf_blockAddr (by omega)]
      exact hS c hc
    have haligned : (k.tasks task).pageDirectory.toNat % 4 = 0 := by
      have := blockAddr_toNat (b := c) (by omega)
      rw [hdir.chunk_eq]
      omega
    rw [hmem.read32 haligned hpage, hdir.word]
  · have hpage : pageOf (blockAddr d) ∉ S := by
      rw [pageOf_blockAddr (by omega)]
      exact hS d hd
    rw [read32_slot_of_sameOff hmem (blockAddr_aligned (by omega)) hpage hi, hdir.entry i hi]

/-- A task as `task_init` leaves it. -/
structure FreshTask (k : Kernel) (process : Word) (s : Kmem) (t : Task) : Prop where
  next : t.next = 0
  prev : t.prev = 0
  registers : t.registers = startRegisters s.mem (k.procs process)
  owner : t.process = process

lemma taskInit_eq {chunk : Word} {s : Kmem} (h : pagingNew4gb k.kmem 0b101 = (chunk, s)) :
    taskInit k task process = if chunk = 0 then
        (-eio, (k.withKmem s).setTask task { zeroTask with pageDirectory := chunk })
      else (0, (k.withKmem s).setTask task
        ⟨chunk, startRegisters s.mem (k.procs process), process, 0, 0⟩) := by
  simp only [taskInit, Kernel.setTask_kmem, h, Kernel.setTask_withKmem, Kernel.setTask_setTask,
    Kernel.setTask_tasks, Function.update_self, Kernel.setTask_procs, Kernel.withKmem_kmem,
    Kernel.withKmem_procs]
  rfl

/-- `task_new` when both allocations succeed. -/
lemma taskNew_eq {b : ℕ} (hb : b < 25600) {s₁ s : Kmem} {chunk : Word}
    (hblock : kzalloc k.kmem 64 = (blockAddr b, s₁)) (hdir : pagingNew4gb s₁ 0b101 = (chunk, s))
    (h0 : chunk ≠ 0) : taskNew k process = (blockAddr b,
      taskListAppend ((k.withKmem s).setTask (blockAddr b)
        ⟨chunk, startRegisters s.mem (k.procs process), process, 0, 0⟩) (blockAddr b)) := by
  have hinit := @taskInit_eq (k.withKmem s₁) (blockAddr b) process _ _ hdir
  rw [if_neg h0] at hinit
  simp only [taskNew, hblock, hinit]
  rw [if_neg (blockAddr_ne_zero (by omega)), if_neg (not_not.2 rfl)]
  rfl

/-- `task_new` finds no room for the task, gives the task back because its directory failed, or
succeeds in both allocations. -/
lemma taskNew_outcomes (k : Kernel) (process : Word) :
    taskNew k process = (errorPtr (-enomem), k) ∨
    (∃ b s₁ s, GrownBy k.kmem s₁ {b} ∧ pagingNew4gb s₁ 0b101 = (0, s) ∧
      taskNew k process = (errorPtr (-eio), taskFree (((k.withKmem s₁).withKmem s).setTask
        (blockAddr b) { zeroTask with pageDirectory := 0 }) (blockAddr b))) ∨
    ∃ b s₁ s chunk d a, b < 25600 ∧ GrownBy k.kmem s₁ {b} ∧ NewDir s₁ s 0b101 chunk d a ∧
      chunk ≠ 0 ∧ taskNew k process = (blockAddr b,
        taskListAppend ((k.withKmem s).setTask (blockAddr b)
          ⟨chunk, startRegisters s.mem (k.procs process), process, 0, 0⟩) (blockAddr b)) := by
  rcases kzalloc_single k.kmem (show (heapBlocksFor 64).toNat = 1 by decide) with
    ⟨-, heq⟩ | ⟨b, hb, hf, heq⟩
  · left
    rw [taskNew, heq]
    rfl
  obtain ⟨-, hgrown⟩ := (GrownBy.refl k.kmem).take hb hf (show (64 : Word).toNat ≤ 4096 by decide)
  have hne : blockAddr b ≠ 0 := blockAddr_ne_zero (by omega)
  generalize (k.kmem.take 1 b).withMem (fill k.kmem.mem (blockAddr b) (64 : Word).toNat 0) = s₁
    at heq hgrown
  rw [insert_empty_eq] at hgrown
  right
  obtain ⟨chunk, s, hchunk⟩ : ∃ chunk s, pagingNew4gb s₁ 0b101 = (chunk, s) := ⟨_, _, rfl⟩
  by_cases h0 : chunk = 0
  · subst h0
    refine .inl ⟨b, s₁, s, hgrown, hchunk, ?_⟩
    have hinit := @taskInit_eq (k.withKmem s₁) (blockAddr b) process _ _ hchunk
    rw [if_pos rfl] at hinit
    simp only [taskNew, heq, hinit]
    rw [if_neg hne, if_pos (by decide)]
  · have hspec := pagingNew4gb_spec s₁ 0b101
    have hfull := fun h => (pagingNew4gb_full s₁ 0b101 h).1
    rw [hchunk] at hspec hfull
    obtain ⟨d, a, hnew⟩ := hspec.resolve_left fun h => h0 (hfull h)
    exact .inr ⟨b, s₁, s, chunk, d, a, hb, hgrown, hnew, h0, taskNew_eq hb heq hchunk h0⟩

/-- `task_new` reports an error, or both of its allocations succeeded. -/
lemma taskNew_cases (k : Kernel) (process : Word) :
    isErr (taskNew k process).1 = true ∨
    ∃ b s₁ s chunk d a, b < 25600 ∧ GrownBy k.kmem s₁ {b} ∧ NewDir s₁ s 0b101 chunk d a ∧
      chunk ≠ 0 ∧ taskNew k process = (blockAddr b,
        taskListAppend ((k.withKmem s).setTask (blockAddr b)
          ⟨chunk, startRegisters s.mem (k.procs process), process, 0, 0⟩) (blockAddr b)) := by
  have herr : ∀ value : ℤ, value = -enomem ∨ value = -eio → isErr (errorPtr value) = true := by
    rintro value (rfl | rfl) <;> decide
  rcases taskNew_outcomes k process with hnone | ⟨b, s₁, s, -, -, hfail⟩ | hnew
  · rw [hnone]
    exact .inl (herr _ (.inl rfl))
  · rw [hfail]
    exact .inl (herr _ (.inr rfl))
  · exact .inr hnew

/-- A `task_new` that does not report an error took free blocks for the task and its
directory and put the task at the end of the list. -/
theorem taskNew_spec (k : Kernel) (process : Word) (hok : isErr (taskNew k process).1 = false) :
    ∃ b B s t, taskNew k process = (blockAddr b,
        taskListAppend ((k.withKmem s).setTask (blockAddr b) t) (blockAddr b)) ∧
      GrownBy k.kmem s B ∧ FreshTask k process s t ∧ b ∈ B ∧
      TaskHeld ((k.withKmem s).setTask (blockAddr b) t) (blockAddr b) B := by
  obtain herr | ⟨b, s₁, s, chunk, d, a, hb, hgrown, hnew, h0, heq⟩ := taskNew_cases k process
  · rw [herr] at hok
    exact absurd hok (by decide)
  · obtain ⟨c, table, hdir, hset⟩ := @NewDir.held _ _ 0b101 _ _ _ hnew h0
    refine ⟨b, {b} ∪ dirSet c d table, s, ⟨chunk, startRegisters s.mem (k.procs process),
      process, 0, 0⟩, heq, ?_, ⟨rfl, rfl, rfl, rfl⟩, .inl rfl, ?_⟩
    · rw [← hset]
      exact hgrown.trans hnew.grown
    · refine ⟨b, c, d, table, rfl, ?_, ?_, ?_, rfl⟩
      · simpa [Kernel.setTask] using hdir
      · have hlast := (hgrown.trans hnew.grown).taken b (.inl rfl)
        exact ⟨hb, hlast⟩
      · intro hmem
        rw [← hset] at hmem
        have hfree := (hnew.grown.fresh b hmem).2
        rw [IsFree, hgrown.taken b rfl, blockEntry_type] at hfree
        exact absurd hfree (by decide)

lemma taskListAppend_kmem (k : Kernel) (task : Word) : (taskListAppend k task).kmem = k.kmem := by
  unfold taskListAppend
  split_ifs <;> rfl

/-- With 1028 free blocks `task_new` succeeds, and takes at most 1027 of them. -/
theorem taskNew_ok (k : Kernel) (process : Word) (free : Finset ℕ) (hcard : 1027 < free.card)
    (hfree : ∀ b ∈ free, b < 25600 ∧ IsFree k.kmem.entries b) :
    isErr (taskNew k process).1 = false ∧
    ∃ left : Finset ℕ, free.card ≤ left.card + 1027 ∧
      ∀ b ∈ left, b < 25600 ∧ IsFree (taskNew k process).2.kmem.entries b := by
  obtain ⟨hfull, -⟩ | ⟨b, hb, hf, heq⟩ :=
    kzalloc_single k.kmem (show (heapBlocksFor 64).toNat = 1 by decide)
  · obtain ⟨b, hb⟩ : free.Nonempty := Finset.card_pos.1 (by omega)
    exact absurd (hfree b hb).2 (hfull b (hfree b hb).1)
  · obtain ⟨-, hgrown⟩ := (GrownBy.refl k.kmem).take hb hf (show (64 : Word).toNat ≤ 4096 by decide)
    generalize (k.kmem.take 1 b).withMem (fill k.kmem.mem (blockAddr b) (64 : Word).toNat 0) = s₁
      at heq hgrown
    have hleft : ∀ x ∈ free.erase b, x < 25600 ∧ IsFree s₁.entries x := by
      intro x hx
      obtain ⟨hne, hx⟩ := Finset.mem_erase.1 hx
      refine ⟨(hfree x hx).1, ?_⟩
      rw [IsFree, hgrown.same x fun c hc hxc => hne ?_]
      · exact (hfree x hx).2
      · have hcb : c = b := hc.resolve_right (Set.notMem_empty c)
        exact (Nat.cast_inj.1 hxc).trans hcb
    have herase := Finset.pred_card_le_card_erase (s := free) (a := b)
    obtain ⟨d, a, hnew, h0, -⟩ := pagingNew4gb_new s₁ 0b101 (free.erase b) (by omega) hleft
    obtain ⟨left, hlcard, hlfree⟩ := hnew.exists_free (free.erase b) hleft
    obtain ⟨chunk, s, hchunk⟩ : ∃ chunk s, pagingNew4gb s₁ 0b101 = (chunk, s) := ⟨_, _, rfl⟩
    rw [hchunk] at h0 hlfree
    have hresult := @taskNew_eq k process b hb s₁ s chunk heq hchunk h0
    have haddr := blockAddr_toNat (b := b) (by omega)
    rw [hresult]
    refine ⟨?_, left, by omega, fun x hx => ?_⟩
    · simp only [isErr, BitVec.toInt_eq_toNat_of_lt (show 2 * (blockAddr b).toNat < 2 ^ 32 by omega)]
      exact decide_eq_false (by omega)
    · rw [taskListAppend_kmem]
      exact hlfree x hx

end AlphaOS.Tasks
