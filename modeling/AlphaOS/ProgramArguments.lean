import AlphaOS.CommandArguments

/-! `isr80h_command8_get_program_arguments` of `isr80h/process.c`, with `process_get_arguments` of
`task/process.c`: the arguments of a process are stored where its task has a structure for them. -/
namespace AlphaOS.Processes
open Kheap Paging WordMemory

/-- The arguments are read from the process structure, `argv` once `argc` is stored. -/
def processGetArguments (k : Kernel) (process argc argv : Word) : Kernel :=
  let k := k.store process argc (k.procs process).arguments.argc
  k.store process argv (k.procs process).arguments.argv

/-- `argv` stands behind the 4 bytes of `argc`. -/
def isr80hCommand8GetProgramArguments (k : Kernel) : Option Kernel :=
  let process := (k.tasks k.currentTask).process
  (taskGetStackItem (k.shown process) k.currentTask 0).map fun (item, k) =>
    let arguments := taskVirtualAddressToPhysical k k.currentTask item
    processGetArguments k process arguments (arguments + 4)

/-- Both levels of a directory map the page of the address as present, writable and for the user. -/
def UserWritable (mem : Mem) (directory va : Word) : Prop :=
  read32 mem (directory + 4 * (va / 0x400000)) &&& userFlags = userFlags ∧
  pagingGet mem directory (pagingAlignToLowerPage va) &&& userFlags = userFlags

/-- The frame that the directory has for a page. -/
def frameAt (mem : Mem) (directory page : Word) : Word := pagingGet mem directory page &&& 0xFFFFF000#32

/-- The next page has the frame behind that of the page. -/
def Adjoining (mem : Mem) (directory va : Word) : Prop :=
  frameAt mem directory (pagingAlignToLowerPage va + 4096) =
    frameAt mem directory (pagingAlignToLowerPage va) + 4096

/-- Only bytes of the structure change, as the directory maps them, and only if all of them are for the
task to write. -/
def ChangesOwn (mem mem' : Mem) (directory va : Word) : Prop :=
  ∀ x, mem' x ≠ mem x →
    (∃ i < 8, x = pagingGetPhysicalAddress mem directory (va + BitVec.ofNat 32 i)) ∧
    ∀ i < 8, UserWritable mem directory (va + BitVec.ofNat 32 i)

/-- Byte `i` of the arguments at `a`, of which `argv` is read once the bytes of `argc` are stored
at `p`. -/
def argumentsByte (mem : Mem) (a p : Word) (i : ℕ) : Byte :=
  if 4 ≤ i ∧ InRange p 4 (a + BitVec.ofNat 32 i) then mem (a + (a + BitVec.ofNat 32 i - p))
  else mem (a + BitVec.ofNat 32 i)

variable {mem : Mem} {dir va item : Word} {k k₁ : Kernel}

lemma physicalAddress_eq (mem : Mem) (dir va : Word) : pagingGetPhysicalAddress mem dir va =
    frameAt mem dir (pagingAlignToLowerPage va) + BitVec.ofNat 32 (va.toNat % 4096) := by
  rw [pagingGetPhysicalAddress, frameAt]
  congr 1
  apply BitVec.eq_of_toNat_eq
  have hlt := va.isLt
  rw [BitVec.toNat_sub, pagingAlignToLowerPage_toNat, BitVec.toNat_ofNat]
  omega

lemma toNat_add_small (va : Word) (i : ℕ) :
    (va + BitVec.ofNat 32 i).toNat = (va.toNat + i) % 2 ^ 32 := by
  rw [BitVec.toNat_add, BitVec.toNat_ofNat]
  omega

/-- The page of an address a little further on. -/
lemma alignToLowerPage_add {i : ℕ} (hi : i < 4096) :
    (va.toNat % 4096 + i < 4096 →
      pagingAlignToLowerPage (va + BitVec.ofNat 32 i) = pagingAlignToLowerPage va) ∧
    (4096 ≤ va.toNat % 4096 + i →
      pagingAlignToLowerPage (va + BitVec.ofNat 32 i) = pagingAlignToLowerPage va + 4096) := by
  have hlt := va.isLt
  have hsum := toNat_add_small va i
  constructor
  · intro hin
    apply BitVec.eq_of_toNat_eq
    rw [pagingAlignToLowerPage_toNat, pagingAlignToLowerPage_toNat, hsum]
    omega
  · intro hout
    apply BitVec.eq_of_toNat_eq
    have hpage : (4096 : Word).toNat = 4096 := rfl
    rw [BitVec.toNat_add, pagingAlignToLowerPage_toNat, pagingAlignToLowerPage_toNat, hsum, hpage]
    omega

lemma frameAt_aligned (mem : Mem) (dir page : Word) : (frameAt mem dir page).toNat % 4096 = 0 := by
  rw [frameAt, toNat_and_page]
  omega

/-- The place of a byte of the structure: in the frame of its page. -/
lemma physicalAddress_add {i : ℕ} (hi : i < 8) :
    pagingGetPhysicalAddress mem dir (va + BitVec.ofNat 32 i) =
      if va.toNat % 4096 + i < 4096 then
        frameAt mem dir (pagingAlignToLowerPage va) + BitVec.ofNat 32 (va.toNat % 4096 + i)
      else frameAt mem dir (pagingAlignToLowerPage va + 4096) + BitVec.ofNat 32 (va.toNat % 4096 + i - 4096) := by
  have hlt := va.isLt
  have hsum := toNat_add_small va i
  obtain ⟨hsame, hnext⟩ := @alignToLowerPage_add va i (by omega)
  rw [physicalAddress_eq, hsum]
  split_ifs with hin
  · have hbyte : (va.toNat + i) % 2 ^ 32 % 4096 = va.toNat % 4096 + i := by omega
    rw [hsame hin, hbyte]
  · have hbyte : (va.toNat + i) % 2 ^ 32 % 4096 = va.toNat % 4096 + i - 4096 := by omega
    rw [hnext (not_lt.1 hin), hbyte]

/-- A byte behind a frame that is a byte of the structure is one of the next page. -/
lemma frame_behind {frame next : Word} (hframe : frame.toNat % 4096 = 0) (hnext : next.toNat % 4096 = 0)
    {o i j : ℕ} (hin : 4096 ≤ o % 4096 + i) (hi : i < 8) (hj : j < 8)
    (heq : frame + BitVec.ofNat 32 (o % 4096 + i) = if o % 4096 + j < 4096 then
      frame + BitVec.ofNat 32 (o % 4096 + j) else next + BitVec.ofNat 32 (o % 4096 + j - 4096)) :
    next = frame + 4096 := by
  have hlt := frame.isLt
  have hlt' := next.isLt
  have hnat := congrArg BitVec.toNat heq
  have hpage : (4096 : Word).toNat = 4096 := rfl
  apply BitVec.eq_of_toNat_eq
  rw [BitVec.toNat_add, hpage]
  rw [BitVec.toNat_add, BitVec.toNat_ofNat] at hnat
  split_ifs at hnat with hsame
  · rw [BitVec.toNat_add, BitVec.toNat_ofNat] at hnat
    omega
  · rw [BitVec.toNat_add, BitVec.toNat_ofNat] at hnat
    omega

/-- The bytes of the structure follow each other in memory up to the end of the page, and behind it
where the frames do. -/
lemma physicalAddress_own {i : ℕ} (hi : i < 8) :
    (∃ j < 8, pagingGetPhysicalAddress mem dir va + BitVec.ofNat 32 i =
      pagingGetPhysicalAddress mem dir (va + BitVec.ofNat 32 j)) ↔
    va.toNat % 4096 + i < 4096 ∨ Adjoining mem dir va := by
  have hframe := frameAt_aligned mem dir (pagingAlignToLowerPage va)
  have hbehind := frameAt_aligned mem dir (pagingAlignToLowerPage va + 4096)
  rw [physicalAddress_eq, add_assoc, ← BitVec.ofNat_add]
  constructor
  · intro ⟨j, hj, heq⟩
    rw [physicalAddress_add hj] at heq
    by_cases hin : va.toNat % 4096 + i < 4096
    · exact .inl hin
    refine .inr ?_
    rw [Adjoining]
    exact frame_behind hframe hbehind (not_lt.1 hin) hi hj heq
  · intro h
    refine ⟨i, hi, ?_⟩
    rw [physicalAddress_add hi]
    split_ifs with hin
    · rfl
    · obtain ⟨l, hl⟩ := Nat.exists_eq_add_of_le (not_lt.1 hin)
      rw [h.resolve_left hin, hl, Nat.add_sub_cancel_left, BitVec.ofNat_add, add_assoc]
      rfl

/-- The call, in the bytes of memory. -/
lemma isr80hCommand8_eq {q p : Word} {V : Mem} (hq : (k.tasks k.currentTask).process = q) (hV : k.view q = V)
    (hitem : taskGetStackItem (k.shown q) k.currentTask 0 = some (item, k₁))
    (hp : pagingGetPhysicalAddress V (taskDirectory (k.shown q) k.currentTask) item = p) :
    ∃ k', isr80hCommand8GetProgramArguments k = some k' ∧
      k'.view q = write32 (write32 V p (read32 V (q + 9356))) (p + 4)
        (read32 (write32 V p (read32 V (q + 9356))) (q + 9360)) := by
  obtain ⟨word, -, hpair⟩ := Option.map_eq_some_iff.1 hitem
  obtain ⟨rfl, rfl⟩ := Prod.mk.inj hpair
  have hcall : isr80hCommand8GetProgramArguments k = some (processGetArguments
      (kernelPage (pagingSwitch (k.shown q) ((k.shown q).tasks k.currentTask).pageDirectory)) q p (p + 4)) := by
    rw [isr80hCommand8GetProgramArguments, hq, hitem, Option.map_some]
    subst hV hp
    rfl
  refine ⟨_, hcall, ?_⟩
  have hview : (kernelPage (pagingSwitch (k.shown q)
      ((k.shown q).tasks k.currentTask).pageDirectory)).view q = V := hV ▸ Kernel.view_reread k q _
  have hargc : ((kernelPage (pagingSwitch (k.shown q)
      ((k.shown q).tasks k.currentTask).pageDirectory)).procs q).arguments.argc = read32 V (q + 9356) :=
    hV ▸ Kernel.reread_argc k q _
  generalize kernelPage (pagingSwitch (k.shown q) ((k.shown q).tasks k.currentTask).pageDirectory) = k₂ at hview hargc
  rw [processGetArguments, hargc, Kernel.store_view, Kernel.store_view, hview, Kernel.store, Kernel.reread_argv, hview]

/-- A byte of a word that is stored is that byte where the word was read. -/
lemma write32_read32_byte (m V : Mem) (p a : Word) {x : Word} (hx : InRange p 4 x) :
    write32 m p (read32 V a) x = V (a + (x - p)) := by
  rw [write32, if_pos hx, read32_byte V a hx, BitVec.ofNat_toNat, BitVec.setWidth_eq]

/-- A byte of the structure once both words are stored. -/
lemma storedArguments_byte (V : Mem) (a p : Word) {i : ℕ} (hi : i < 8) :
    write32 (write32 V p (read32 V a)) (p + 4) (read32 (write32 V p (read32 V a)) (a + 4))
      (p + BitVec.ofNat 32 i) = argumentsByte V a p i := by
  by_cases hfirst : i < 4
  · have hargc : InRange p 4 (p + BitVec.ofNat 32 i) := inRange_ofNat hfirst (by omega)
    have hargv : ¬ InRange (p + 4) 4 (p + BitVec.ofNat 32 i) := by
      intro hin
      obtain ⟨j, hj, heq⟩ := exists_of_inRange hin
      rw [add_assoc, show (4 : Word) = BitVec.ofNat 32 4 from rfl, ← BitVec.ofNat_add, add_right_inj] at heq
      have hnat := congrArg BitVec.toNat heq
      rw [BitVec.toNat_ofNat, BitVec.toNat_ofNat] at hnat
      omega
    rw [argumentsByte, if_neg (fun h => absurd h.1 (by omega))]
    refine (if_neg hargv).trans ((write32_read32_byte V V p a hargc).trans (congrArg V ?_))
    rw [add_sub_cancel_left]
  · obtain ⟨j, rfl⟩ := Nat.exists_eq_add_of_le (not_lt.1 hfirst)
    have hplace : ∀ x : Word, x + BitVec.ofNat 32 (4 + j) = x + 4 + BitVec.ofNat 32 j := fun x => by
      rw [BitVec.ofNat_add, ← add_assoc]
      rfl
    have hargv : InRange (p + 4) 4 (p + 4 + BitVec.ofNat 32 j) := inRange_ofNat (by omega) (by omega)
    rw [argumentsByte, hplace, hplace, write32_read32_byte _ _ _ _ hargv, add_sub_cancel_left]
    split_ifs with halias
    · exact write32_read32_byte V V p a halias.2
    · exact if_neg fun hin => halias ⟨by omega, hin⟩

/-- The call stores the eight bytes of the arguments behind each other. -/
lemma isr80hCommand8_bytes {q p : Word} {V : Mem} (hq : (k.tasks k.currentTask).process = q) (hV : k.view q = V)
    (hitem : taskGetStackItem (k.shown q) k.currentTask 0 = some (item, k₁))
    (hp : pagingGetPhysicalAddress V (taskDirectory (k.shown q) k.currentTask) item = p) :
    ∃ k', isr80hCommand8GetProgramArguments k = some k' ∧
      (∀ i < 8, k'.view q (p + BitVec.ofNat 32 i) = argumentsByte V (q + 9356) p i) ∧
      ∀ x, ¬ InRange p 8 x → k'.view q x = V x := by
  obtain ⟨k', hrun, hview⟩ := isr80hCommand8_eq hq hV hitem hp
  have hargv : q + 9360 = q + 9356 + 4 := (add_assoc q 9356 4).symm
  rw [hargv] at hview
  refine ⟨k', hrun, fun i hi => ?_, fun x hx => ?_⟩
  · rw [hview]
    exact storedArguments_byte V (q + 9356) p hi
  · have hsplit := (inRange_split p x (show 4 + 4 < 2 ^ 32 by omega)).1
    rw [hsplit, not_or] at hx
    rw [hview]
    exact (if_neg hx.2).trans (if_neg hx.1)

/-- Stores that miss the heap's table and the process structure change bytes of memory only. -/
lemma processGetArguments_off {q p : Word} (habove : AboveTable q)
    (hoff : ∀ x, InTable x ∨ InRecord q x → ¬ InRange p 8 x) :
    ∃ mem, processGetArguments k q p (p + 4) = k.withKmem (k.kmem.withMem mem) := by
  have hsplit := fun x => (inRange_split p x (show 4 + 4 < 2 ^ 32 by omega)).1
  have hstore : ∀ (k : Kernel) (a v : Word), (∀ x, InTable x ∨ InRecord q x → ¬ InRange a 4 x) →
      k.store q a v = k.withKmem (k.kmem.withMem (write32 (k.view q) a v)) := fun k a v hmiss =>
    Kernel.reread_of_same habove fun x hx => if_neg (hmiss x hx)
  rw [processGetArguments, hstore _ p _ fun x hx hin => hoff x hx ((hsplit x).2 (.inl hin)),
    hstore _ (p + 4) _ fun x hx hin => hoff x hx ((hsplit x).2 (.inr hin))]
  exact ⟨_, rfl⟩

/-- The call changes only bytes of the structure that the task may write, exactly when each byte that is
stored is there already or else belongs to the structure, which the task may write as a whole. The call
has the frame of the first byte only. -/
theorem getProgramArguments_changes_iff
    (hitem : taskGetStackItem (k.shown (k.tasks k.currentTask).process) k.currentTask 0 = some (item, k₁)) :
    let q := (k.tasks k.currentTask).process
    let V := k.view q
    let dir := taskDirectory (k.shown q) k.currentTask
    let p := pagingGetPhysicalAddress V dir item
    ∃ k', isr80hCommand8GetProgramArguments k = some k' ∧
      (ChangesOwn V (k'.view q) dir item ↔ ∀ i < 8,
        V (p + BitVec.ofNat 32 i) = argumentsByte V (q + 9356) p i ∨
        (∀ j < 8, UserWritable V dir (item + BitVec.ofNat 32 j)) ∧
          (item.toNat % 4096 + i < 4096 ∨ Adjoining V dir item)) := by
  intro q V dir p
  obtain ⟨k', hrun, hin, hout⟩ := @isr80hCommand8_bytes item k k₁ q p V rfl rfl hitem rfl
  refine ⟨k', hrun, fun hown i hi => ?_, fun h x hx => ?_⟩
  · by_cases hsame : V (p + BitVec.ofNat 32 i) = argumentsByte V (q + 9356) p i
    · exact .inl hsame
    · obtain ⟨hplace, hwritable⟩ := hown (p + BitVec.ofNat 32 i) (by rw [hin i hi]; exact Ne.symm hsame)
      exact .inr ⟨hwritable, (physicalAddress_own hi).1 hplace⟩
  · have hrange : InRange p 8 x := by
      by_contra hnot
      exact hx (hout x hnot)
    obtain ⟨i, hi, rfl⟩ := exists_of_inRange hrange
    rcases h i hi with hsame | ⟨hwritable, hplace⟩
    · exact absurd ((hin i hi).trans hsame.symm) hx
    · exact ⟨(physicalAddress_own hi).2 hplace, hwritable⟩

/-! The first task, with arguments of its process and a pointer on its stack. -/

def argumentsTask (k : Kernel) (item : Word) : Kernel :=
  let k := withString k 0 item []
  k.setProcess (blockAddr 0) { k.procs (blockAddr 0) with arguments := ⟨1, 0x1406000⟩ }

/-- What the call finds. -/
structure ArgumentsTask (k : Kernel) (item dir : Word) (entry : Word → Word) : Prop where
  process : (k.tasks k.currentTask).process = blockAddr 0
  directory : taskDirectory (k.shown (blockAddr 0)) k.currentTask = dir
  stackItem : ∃ k₁, taskGetStackItem (k.shown (blockAddr 0)) k.currentTask 0 = some (item, k₁)
  get : ∀ v : Word, v.toNat % 4096 = 0 → pagingGet (k.view (blockAddr 0)) dir v = entry v
  shared : ∀ j < 1024, read32 (k.view (blockAddr 0)) (dir + BitVec.ofNat 32 (4 * j)) &&& 7 = 7
  argc : k.view (blockAddr 0) (blockAddr 0 + 9356) = 1
  argv : k.view (blockAddr 0) (blockAddr 0 + 9361) = 0x60
  clear : ∀ x : Word, x.toNat < 0x7E00 → k.view (blockAddr 0) x = 0

/-- A byte of a page that is present. -/
lemma pagedByte_mapped {pa flags : Word} (hentry : pagingGet mem dir (pagingAlignToLowerPage va) = pa ||| flags)
    (hpa : pa.toNat % 4096 = 0) (hflags : flags.toNat < 4096) (hpresent : (pa ||| flags) &&& pagingIsPresent ≠ 0) :
    pagedByte mem dir va = some (mem (pa + BitVec.ofNat 32 (va.toNat % 4096))) := by
  rw [pagedByte, hentry, if_neg hpresent, physicalAddress_eq, frameAt, hentry, and_page_or_flags hpa hflags]

/-- The word at the start of the stack's last page but one. -/
lemma pagedWord_stack (hentry : pagingGet mem dir 0x3FF000 = 0x3FF000 ||| 5) :
    pagedWord mem dir 0x3FF000 = some (read32 mem 0x3FF000) := by
  have hbyte : ∀ va : Word, pagingAlignToLowerPage va = 0x3FF000 →
      pagedByte mem dir va = some (mem (0x3FF000 + BitVec.ofNat 32 (va.toNat % 4096))) := fun va hva =>
    pagedByte_mapped (by rw [hva]; exact hentry) (by decide) (by decide) (by decide)
  rw [pagedWord, hbyte _ (by decide), hbyte _ (by decide), hbyte _ (by decide), hbyte _ (by decide)]
  rfl

lemma firstTask_above : AboveTable (blockAddr 0) := by
  rw [AboveTable]
  decide

lemma FirstTask.withArguments {dir : Word} {table : ℕ → Word} (h : FirstTask k dir table) {item : Word}
    (hstack : pagingGet k.kmem.mem dir 0x3FF000 = 0x3FF000 ||| 5) (hitem : item.toNat < 0x7E00) :
    ArgumentsTask (argumentsTask k item) item dir (pagingGet k.kmem.mem dir) := by
  obtain ⟨hcall, hget⟩ := @FirstTask.withString k dir table h 0 item [] (by simpa using hitem)
  have hprocs : ((argumentsTask k item).procs (blockAddr 0)).arguments = ⟨1, 0x1406000⟩ := by
    rw [argumentsTask, Kernel.setProcess_procs, Function.update_self]
  replace hcall : CallTask (argumentsTask k item) (1030 + 0) item [] dir table := { hcall with }
  replace hget : ∀ v : Word, v.toNat % 4096 = 0 →
    pagingGet (argumentsTask k item).kmem.mem dir v = pagingGet k.kmem.mem dir v := hget
  generalize argumentsTask k item = k' at hcall hget hprocs ⊢
  have habove := firstTask_above
  have hsame : SameOff {g | g < 4099} k'.kmem.mem (k'.view (blockAddr 0)) := fun x hx =>
    view_high k' (not_lt.1 hx)
  have hpages : Disjoint {g | g < 4099} (dirPages (k'.tasks (blockAddr 3)).pageDirectory dir table) := by
    refine Set.disjoint_left.2 fun g hg hin => ?_
    obtain ⟨b, hfour, -, rfl⟩ := hcall.pages g hin
    rw [Set.mem_ofPred_eq] at hg
    omega
  obtain ⟨hdir, hkept⟩ := hcall.pageDir.unchanged hsame hpages
  have hlow : ∀ x : Word, x.toNat < 0x7E00 → k'.view (blockAddr 0) x = k'.kmem.mem x := by
    intro x hx
    refine view_low k' (fun hin => ?_) (by unfold pageOf; omega)
    have hstart := (inTable_toNat hin).1
    omega
  have hentry : pagingGet (k'.view (blockAddr 0)) dir 0x3FF000 = 0x3FF000 ||| 5 :=
    ((hkept _ (by decide)).trans (hget _ (by decide))).trans hstack
  have hdirectory : taskDirectory (k'.shown (blockAddr 0)) k'.currentTask = dir := by
    change read32 (k'.view (blockAddr 0)) (k'.tasks k'.currentTask).pageDirectory = dir
    rw [hcall.current]
    exact hdir.chunk_word
  refine ⟨by rw [hcall.current, hcall.process], hdirectory, ?_, fun v hv => (hkept v hv).trans (hget v hv),
    fun j hj => ?_, ?_, ?_, fun x hx => ?_⟩
  · have hword : read32 (k'.view (blockAddr 0)) 0x3FF000 = item := by
      rw [← hcall.stack]
      refine read32_eq_of_same fun x hx => ?_
      obtain ⟨j, hj, rfl⟩ := exists_of_inRange hx
      have hpage : pageOf (0x3FF000 + BitVec.ofNat 32 j) = 0x3FF := pageOf_add (by decide) (by omega)
      refine view_low k' (fun hin => ?_) (by omega)
      have hend := (inTable_toNat hin).2
      unfold pageOf at hpage
      omega
    have hpaged : pagedWord (k'.view (blockAddr 0)) dir
        ((k'.tasks k'.currentTask).registers.esp + BitVec.ofNat 32 (4 * 0)) = some item := by
      rw [hcall.current, hcall.esp]
      exact (pagedWord_stack hentry).trans (congrArg some hword)
    exact ⟨_, by rw [taskGetStackItem, hdirectory]; exact congrArg (Option.map _) hpaged⟩
  · have haligned := hcall.pageDir.dir_aligned
    have hword := hsame.read32 (a := dir + BitVec.ofNat 32 (4 * j)) (by
      rw [toNat_add_ofNat (by omega)]
      omega) (by
      rw [pageOf_add haligned (by omega)]
      exact Set.disjoint_right.1 hpages (.inr (.inl rfl)))
    exact (congrArg (· &&& 7) hword).trans (hcall.shared j hj)
  · have hbyte := habove.view_argument (k := k') (show 0 < 8 by omega)
    rw [Process.argumentByte, hprocs] at hbyte
    exact hbyte
  · have hbyte := habove.view_argument (k := k') (show 5 < 8 by omega)
    rw [Process.argumentByte, hprocs] at hbyte
    exact hbyte.trans (by decide)
  · rw [hlow x hx]
    by_cases hin : InRange item 1 x
    · obtain ⟨j, hj, rfl⟩ := exists_of_inRange hin
      obtain rfl : j = 0 := by omega
      rw [BitVec.add_zero]
      exact hcall.bytes.1
    · refine hcall.clear x ?_ ?_ hin <;> unfold pageOf <;> omega

/-- The task may write a page whose entry says so, as all its tables are for it to write. -/
lemma ArgumentsTask.userWritable {entry : Word → Word} (h : ArgumentsTask k item dir entry)
    (hlow : va.toNat < 0x400000) (hentry : entry (pagingAlignToLowerPage va) &&& 7 = 7) :
    UserWritable (k.view (blockAddr 0)) dir va := by
  have hindex : va / 0x400000 = 0 := by
    apply BitVec.eq_of_toNat_eq
    rw [BitVec.toNat_udiv]
    exact Nat.div_eq_of_lt hlow
  refine ⟨?_, ?_⟩
  · rw [hindex]
    exact h.shared 0 (by omega)
  · rw [h.get _ (pagingAlignToLowerPage_aligned va)]
    exact hentry

/-- The arguments are none of the bytes that are stored below the pool. -/
lemma ArgumentsTask.argumentsByte {entry : Word → Word} (h : ArgumentsTask k item dir entry) {p : Word}
    (hp : p.toNat < 0x7E00) : argumentsByte (k.view (blockAddr 0)) (blockAddr 0 + 9356) p 0 = 1 ∧
      argumentsByte (k.view (blockAddr 0)) (blockAddr 0 + 9356) p 5 = 0x60 := by
  have hoff : ¬ InRange p 4 (blockAddr 0 + 9356 + BitVec.ofNat 32 5) := by
    intro hin
    obtain ⟨j, hj, heq⟩ := exists_of_inRange hin
    have hsum := toNat_add_ofNat (a := p) (k := j) (by omega)
    rw [← heq] at hsum
    change 16786577 = _ at hsum
    omega
  constructor
  · rw [Processes.argumentsByte, if_neg (fun hin => absurd hin.1 (by omega)), BitVec.add_zero]
    exact h.argc
  · rw [Processes.argumentsByte, if_neg (fun hin => hoff hin.2)]
    exact h.argv

/-- A structure that lies in a page the task may write, in a page it may only read, and in two pages
whose frames do not follow each other. -/
def writableArguments : Kernel := argumentsTask (mapPage oneTask (blockAddr 0) 0x2000 0x2000 7) 0x2000

def readOnlyArguments : Kernel := argumentsTask oneTask 0x2000

def scatteredArguments : Kernel :=
  argumentsTask (mapPage (mapPage oneTask (blockAddr 0) 0x2000 0x2000 7) (blockAddr 0) 0x3000 0x5000 7) 0x2FFC

lemma arguments_ready :
    (∃ dir entry, ArgumentsTask writableArguments 0x2000 dir entry ∧ entry 0x2000 = 0x2007) ∧
    (∃ dir entry, ArgumentsTask readOnlyArguments 0x2000 dir entry ∧ entry 0x2000 = 0x2005) ∧
    ∃ dir entry, ArgumentsTask scatteredArguments 0x2FFC dir entry ∧ entry 0x2000 = 0x2007 ∧
      entry 0x3000 = 0x5007 := by
  obtain ⟨-, -, dir, table, -, hfirst, hidentity⟩ := oneTask_first
  obtain ⟨hone, hget⟩ := @FirstTask.mapPage _ _ _ hfirst 0x2000 0x2000 (by decide) (by decide) 7
  obtain ⟨htwo, hget'⟩ := @FirstTask.mapPage _ _ _ hone 0x3000 0x5000 (by decide) (by decide) 7
  have hstack := hget 0x3FF000 (by decide)
  rw [if_neg (by decide), hidentity _ (by decide)] at hstack
  have hstack' := hget' 0x3FF000 (by decide)
  rw [if_neg (by decide), hstack] at hstack'
  have hpage := hget' 0x2000 (by decide)
  rw [if_neg (by decide), hget _ (by decide), if_pos rfl] at hpage
  exact ⟨⟨dir, _, hone.withArguments hstack (by decide), (hget _ (by decide)).trans (if_pos rfl)⟩,
    ⟨dir, _, hfirst.withArguments (hidentity _ (by decide)) (by decide), hidentity _ (by decide)⟩,
    ⟨dir, _, htwo.withArguments hstack' (by decide), hpage, (hget' _ (by decide)).trans (if_pos rfl)⟩⟩

/-- The structure of the writable page is all that changes. -/
theorem getProgramArguments_changes_iff_writable : ∃ k',
    isr80hCommand8GetProgramArguments writableArguments = some k' ∧
      ChangesOwn (writableArguments.view (blockAddr 0)) (k'.view (blockAddr 0))
        (taskDirectory (writableArguments.shown (blockAddr 0)) writableArguments.currentTask) 0x2000 := by
  obtain ⟨⟨dir, entry, h, hentry⟩, -⟩ := arguments_ready
  generalize writableArguments = k at h ⊢
  obtain ⟨k₁, hitem⟩ := h.stackItem
  have hprocess := h.process
  rw [← hprocess] at hitem ⊢
  obtain ⟨k', hrun, hiff⟩ := getProgramArguments_changes_iff hitem
  refine ⟨k', hrun, hiff.2 fun i hi => .inr ⟨fun j hj => ?_, .inl ?_⟩⟩
  · rw [hprocess, h.directory]
    have hpage := (@alignToLowerPage_add 0x2000 j (by omega)).1 (by change 0 + j < 4096; omega)
    refine h.userWritable ?_ ?_
    · rw [toNat_add_ofNat (by change 8192 + j < 2 ^ 32; omega)]
      change 8192 + j < 4194304
      omega
    · rw [hpage]
      change entry 0x2000 &&& 7 = 7
      rw [hentry]
      decide
  · change 0 + i < 4096
    omega

/-- A task gets its arguments in a page it may only read; and in two pages that it may write, also behind
the frame of the first. -/
theorem getProgramArguments_unchecked :
    (∃ k', isr80hCommand8GetProgramArguments readOnlyArguments = some k' ∧
      ¬ ChangesOwn (readOnlyArguments.view (blockAddr 0)) (k'.view (blockAddr 0))
        (taskDirectory (readOnlyArguments.shown (blockAddr 0)) readOnlyArguments.currentTask) 0x2000) ∧
    ∃ k', isr80hCommand8GetProgramArguments scatteredArguments = some k' ∧
      (∀ j < 8, UserWritable (scatteredArguments.view (blockAddr 0))
        (taskDirectory (scatteredArguments.shown (blockAddr 0)) scatteredArguments.currentTask)
        (0x2FFC + BitVec.ofNat 32 j)) ∧
      ¬ ChangesOwn (scatteredArguments.view (blockAddr 0)) (k'.view (blockAddr 0))
        (taskDirectory (scatteredArguments.shown (blockAddr 0)) scatteredArguments.currentTask) 0x2FFC := by
  obtain ⟨-, ⟨dir, entry, h, hentry⟩, dir', entry', h', hentry', hnext⟩ := arguments_ready
  constructor
  · generalize readOnlyArguments = k at h ⊢
    obtain ⟨k₁, hitem⟩ := h.stackItem
    have hget := h.get 0x2000 (by decide)
    have hp : pagingGetPhysicalAddress (k.view (blockAddr 0))
        (taskDirectory (k.shown (blockAddr 0)) k.currentTask) 0x2000 = 0x2000 := by
      rw [h.directory, physicalAddress_eq, frameAt, show pagingAlignToLowerPage 0x2000 = 0x2000 by decide,
        hget, hentry]
      decide
    obtain ⟨k', hrun, hbyte, -⟩ := isr80hCommand8_bytes h.process rfl hitem hp
    refine ⟨k', hrun, fun hown => ?_⟩
    have hfirst := hbyte 0 (by omega)
    rw [(h.argumentsByte (by decide)).1, BitVec.add_zero] at hfirst
    obtain ⟨-, hwritable⟩ := hown 0x2000 (by
      rw [hfirst, h.clear _ (by decide)]
      decide)
    have hflags := (hwritable 0 (by omega)).2
    rw [h.directory] at hflags
    change pagingGet (k.view (blockAddr 0)) dir 0x2000 &&& 7 = 7 at hflags
    rw [hget, hentry] at hflags
    exact absurd hflags (by decide)
  · generalize scatteredArguments = k at h' ⊢
    obtain ⟨k₁, hitem⟩ := h'.stackItem
    have hlower : pagingAlignToLowerPage 0x2FFC = 0x2000 := by decide
    have hframe : frameAt (k.view (blockAddr 0)) dir' 0x2000 = 0x2000 := by
      rw [frameAt, h'.get _ (by decide), hentry']
      decide
    have hbehind : frameAt (k.view (blockAddr 0)) dir' (0x2000 + 4096) = 0x5000 := by
      rw [frameAt, show (0x2000 + 4096 : Word) = 0x3000 by decide, h'.get _ (by decide), hnext]
      decide
    have hphys : pagingGetPhysicalAddress (k.view (blockAddr 0)) dir' 0x2FFC = 0x2FFC := by
      rw [physicalAddress_eq, hlower, hframe]
      decide
    obtain ⟨k', hrun, hbyte, -⟩ := isr80hCommand8_bytes h'.process rfl hitem (h'.directory.symm ▸ hphys)
    rw [h'.directory]
    refine ⟨k', hrun, fun j hj => h'.userWritable ?_ ?_, fun hown => ?_⟩
    · rw [toNat_add_ofNat (by change 12284 + j < 2 ^ 32; omega)]
      change 12284 + j < 4194304
      omega
    · obtain ⟨hsame, hcross⟩ := @alignToLowerPage_add 0x2FFC j (by omega)
      rcases Nat.lt_or_ge (4092 + j) 4096 with hin | hout
      · rw [hsame hin, hlower, hentry']
        decide
      · rw [hcross hout, hlower, show (0x2000 + 4096 : Word) = 0x3000 by decide, hnext]
        decide
    · have hsixth := hbyte 5 (by omega)
      rw [(h'.argumentsByte (by decide)).2] at hsixth
      obtain ⟨hplace, -⟩ := hown (0x2FFC + BitVec.ofNat 32 5) (by
        rw [hsixth, h'.clear _ (by decide)]
        decide)
      have hstart := @physicalAddress_own (k.view (blockAddr 0)) dir' 0x2FFC 5 (by omega)
      rw [hphys, Adjoining, hlower, hframe, hbehind] at hstart
      rcases hstart.1 hplace with hin | hframes
      · exact absurd hin (by decide)
      · exact absurd hframes (by decide)

end AlphaOS.Processes
