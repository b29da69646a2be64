import AlphaOS.CommandArguments

/-! `copy_string_from_task` of `task/task.c`: a string is copied through the directory of a task into
a page that both address spaces share, and from there to its destination. -/
namespace AlphaOS.Processes
open BlockHeap CString Kheap Paging WordMemory

/-- A store of the kernel at a virtual address. A page that is not present faults. -/
def pagedStore (s : Kmem) (directory virtualAddress : Word) (b : Byte) : Option Kmem :=
  if pagingGet s.bytes directory (pagingAlignToLowerPage virtualAddress) &&& pagingIsPresent = 0 then none
  else some (s.withMem (Function.update s.mem (pagingGetPhysicalAddress s.bytes directory virtualAddress) b))

/-- The loop of `strncpy` in the pages of a directory. What it reads may lie in the heap's table. -/
def pagedStrncpyLoop (directory dest src : Word) : ℕ → ℕ → Kmem → Option Kmem
  | 0, i, s => pagedStore s directory (dest + BitVec.ofNat 32 i) 0
  | k + 1, i, s =>
    (pagedByte s.bytes directory (src + BitVec.ofNat 32 i)).bind fun c =>
      if c = 0 then pagedStore s directory (dest + BitVec.ofNat 32 i) 0
      else (pagedStore s directory (dest + BitVec.ofNat 32 i) c).bind
        (pagedStrncpyLoop directory dest src k (i + 1))

def copyStringFromTask (k : Kernel) (task virtual physical : Word) (max : ℤ) :
    Option (ℤ × Kernel) :=
  if max ≥ 4096 then some (-einvarg, k) else
  let tmp := kzalloc k.kmem (BitVec.ofInt 32 max)
  let k := k.withKmem tmp.2
  if tmp.1 = 0 then some (-enomem, k) else
  let directory := taskDirectory k task
  let oldEntry := pagingGet k.kmem.mem directory tmp.1
  let mem := (pagingMap k.kmem.mem (k.tasks task).pageDirectory tmp.1 tmp.1
    (pagingIsWritable ||| pagingIsPresent ||| pagingAccessFromAll)).2
  let k := pagingSwitch (k.withKmem (k.kmem.withMem mem)) (k.tasks task).pageDirectory
  (pagedStrncpyLoop k.currentDirectory tmp.1 virtual (max.toNat - 1) 0 k.kmem).map fun s =>
    let k := kernelPage (k.withKmem s)
    let res := pagingSet k.kmem.mem directory tmp.1 oldEntry
    let k := k.withKmem (k.kmem.withMem res.2)
    if res.1 < 0 then (-eio, k.withKmem (kfree k.kmem tmp.1)) else
    let mem := strncpy k.kmem.mem physical tmp.1 max.toNat
    (res.1, k.withKmem (kfree (k.kmem.withMem mem) tmp.1))

/-- The string that a reader through the directory sees, cut to `n` characters. -/
structure Seen (mem : Mem) (directory virtual : Word) (n : ℕ) (str : List Byte) : Prop where
  byte : ∀ j (hj : j < str.length),
    pagedByte mem directory (virtual + BitVec.ofNat 32 j) = some str[j]
  nonzero : 0 ∉ str
  cut : str.length ≤ n
  stop : str.length < n →
    pagedByte mem directory (virtual + BitVec.ofNat 32 str.length) = some 0

variable {mem mem' : Mem} {chunk dir virtual va : Word} {table : ℕ → Word} {str : List Byte}
  {b g n : ℕ} {c : Byte}

lemma alignToLowerPage_block (hb : b < 25600) {j : ℕ} (hj : j < 4096) :
    pagingAlignToLowerPage (blockAddr b + BitVec.ofNat 32 j) = blockAddr b := by
  have haddr := blockAddr_toNat (b := b) (by omega)
  have hsum := @toNat_add_ofNat (blockAddr b) j (by omega)
  apply BitVec.eq_of_toNat_eq
  rw [pagingAlignToLowerPage, BitVec.toNat_sub, BitVec.toNat_umod, hsum, haddr]
  change (2 ^ 32 - (16777216 + 4096 * b + j) % 4096 + (16777216 + 4096 * b + j)) % 2 ^ 32 = _
  omega

lemma present_of_flags (va : Word) : (va ||| userFlags) &&& pagingIsPresent ≠ 0 := by
  rw [BitVec.and_or_distrib_right]
  intro h0
  have hbit := congrArg (fun w => w.getLsbD 0) h0
  simp at hbit

/-- A page that is mapped to itself is where the kernel finds it. -/
lemma pagedStore_block {s : Kmem} (hb : b < 25600) {j : ℕ} (hj : j < 4096)
    (hmap : pagingGet s.bytes dir (blockAddr b) = blockAddr b ||| userFlags) (c : Byte) :
    pagedStore s dir (blockAddr b + BitVec.ofNat 32 j) c =
      some (s.withMem (Function.update s.mem (blockAddr b + BitVec.ofNat 32 j) c)) := by
  have hlower := alignToLowerPage_block hb hj
  have haligned : (blockAddr b).toNat % 4096 = 0 := blockAddr_aligned (by omega)
  rw [pagedStore, hlower, hmap, if_neg (present_of_flags _), pagingGetPhysicalAddress]
  rw [hlower, hmap, and_page_or_flags haligned (by decide), add_sub_cancel]

/-- The heap's table hides nothing of the pool. -/
lemma bytes_high (s : Kmem) {x : Word} (hx : 4096 ≤ pageOf x) : s.bytes x = s.mem x :=
  Kmem.bytes_of_not (not_inTable_of_page hx)

/-- A change of other pages is a change of these bytes. -/
lemma bytes_sameOff {S : Set ℕ} {s : Kmem} (h : SameOff S s.mem mem) :
    SameOff S s.bytes (s.withMem mem).bytes := by
  intro x hx
  by_cases htable : InTable x
  · obtain ⟨j, hj, rfl⟩ := exists_of_inRange htable
    rw [Kmem.bytes_entry hj, Kmem.bytes_entry hj]
    rfl
  · rw [Kmem.bytes_of_not htable, Kmem.bytes_of_not htable]
    exact h x hx

/-- A byte of the heap's table after an allocation. -/
lemma takeZeroed_bytes (s : Kmem) (size : Word) (n b : ℕ) (mem : Mem) {j : ℕ} (hj : j < 25600) :
    ((s.takeZeroed size n b).withMem mem).bytes (heapTableAddress + BitVec.ofNat 32 j) =
      if b ≤ j ∧ j < b + n then blockEntry n (j - b) else s.entries j := by
  rw [Kmem.bytes_entry hj]
  exact overwrite_natCast s.entries b n (blockEntry n) j

/-- A directory of the pool is found in the bytes as well. -/
lemma pageDir_bytes {s : Kmem} (h : PageDir s.mem chunk dir table)
    (hpool : ∀ g ∈ dirPages chunk dir table, 4096 ≤ g) : PageDir s.bytes chunk dir table ∧
    ∀ v : Word, v.toNat % 4096 = 0 → pagingGet s.bytes dir v = pagingGet s.mem dir v := by
  have hsame : SameOff {g | g < 4096} s.mem s.bytes := fun x hx => bytes_high s (not_lt.1 hx)
  refine h.unchanged hsame (Set.disjoint_left.2 fun g hg hin => ?_)
  exact absurd (hpool g hin) (not_le.2 hg)

/-- A store to another page does not change what is read. -/
lemma pagedByte_frame (h : PageDir mem chunk dir table) (hmem : SameOff {g} mem mem')
    (hg : g ∉ dirPages chunk dir table)
    (hphys : pageOf (pagingGetPhysicalAddress mem dir va) ≠ g) :
    pagedByte mem' dir va = pagedByte mem dir va ∧
      pagingGetPhysicalAddress mem' dir va = pagingGetPhysicalAddress mem dir va := by
  have hdisjoint : Disjoint {g} (dirPages chunk dir table) := Set.disjoint_singleton_left.2 hg
  have hget := (h.unchanged hmem hdisjoint).2 _ (pagingAlignToLowerPage_aligned va)
  have haddr : pagingGetPhysicalAddress mem' dir va = pagingGetPhysicalAddress mem dir va := by
    simp only [pagingGetPhysicalAddress, hget]
  refine ⟨?_, haddr⟩
  rw [pagedByte, pagedByte, hget, haddr, hmem _ hphys]

lemma update_sameOff (mem : Mem) (a : Word) (c : Byte) :
    SameOff {pageOf a} mem (Function.update mem a c) := by
  intro x hx
  apply Function.update_of_ne
  rintro rfl
  exact hx rfl

/-- The copy through the directory, of a string that is not read from the page it is copied to. -/
theorem pagedStrncpyLoop_eq {s : Kmem} (hb : b < 25600) {k i : ℕ} (h : PageDir s.bytes chunk dir table)
    (hmap : pagingGet s.bytes dir (blockAddr b) = blockAddr b ||| userFlags)
    (hoff : 4096 + b ∉ dirPages chunk dir table) (hk : i + k < 4096)
    (hbyte : ∀ j (hj : j < str.length),
      pagedByte s.bytes dir (virtual + BitVec.ofNat 32 (i + j)) = some str[j])
    (hzero : 0 ∉ str) (hcut : str.length ≤ k)
    (hstop : str.length < k → pagedByte s.bytes dir (virtual + BitVec.ofNat 32 (i + str.length)) = some 0)
    (hphys : ∀ j ≤ str.length, j < k →
      pageOf (pagingGetPhysicalAddress s.bytes dir (virtual + BitVec.ofNat 32 (i + j))) ≠ 4096 + b) :
    pagedStrncpyLoop dir (blockAddr b) virtual k i s =
      some (s.withMem (writeBytes s.mem (blockAddr b + BitVec.ofNat 32 i) (str ++ [0]))) := by
  induction str generalizing s k i with
  | nil =>
    cases k with
    | zero => exact pagedStore_block hb (by omega) hmap 0
    | succ k =>
      have hread := hstop (by simp)
      rw [List.length_nil, Nat.add_zero] at hread
      rw [pagedStrncpyLoop, hread, Option.bind_some, if_pos rfl]
      exact pagedStore_block hb (by omega) hmap 0
  | cons c str ih =>
    cases k with
    | zero => simp at hcut
    | succ k =>
      have hread : pagedByte s.bytes dir (virtual + BitVec.ofNat 32 i) = some c := hbyte 0 (by simp)
      have hne : c ≠ 0 := fun h0 => hzero (h0 ▸ List.mem_cons_self)
      have hpage : pageOf (blockAddr b + BitVec.ofNat 32 i) = 4096 + b :=
        pageOf_blockAddr_add hb (by omega)
      rw [pagedStrncpyLoop, hread, Option.bind_some, if_neg hne, pagedStore_block hb (by omega) hmap c,
        Option.bind_some]
      have hstore := bytes_sameOff (update_sameOff s.mem (blockAddr b + BitVec.ofNat 32 i) c)
      rw [hpage] at hstore
      set s' := s.withMem (Function.update s.mem (blockAddr b + BitVec.ofNat 32 i) c) with hs'
      have hdisjoint : Disjoint {4096 + b} (dirPages chunk dir table) :=
        Set.disjoint_singleton_left.2 hoff
      obtain ⟨hdir, hget⟩ := h.unchanged hstore hdisjoint
      have hkept : ∀ j ≤ str.length, j < k →
          pagedByte s'.bytes dir (virtual + BitVec.ofNat 32 (i + 1 + j)) =
          pagedByte s.bytes dir (virtual + BitVec.ofNat 32 (i + (j + 1))) ∧
          pagingGetPhysicalAddress s'.bytes dir (virtual + BitVec.ofNat 32 (i + 1 + j)) =
          pagingGetPhysicalAddress s.bytes dir (virtual + BitVec.ofNat 32 (i + (j + 1))) := by
        intro j hj hjk
        rw [show i + 1 + j = i + (j + 1) by omega]
        exact pagedByte_frame h hstore hoff (hphys (j + 1) (by simpa using hj) (by omega))
      have hlength : str.length ≤ k := by simpa using hcut
      rw [ih hdir]
      · have hnext : blockAddr b + BitVec.ofNat 32 i + 1 = blockAddr b + BitVec.ofNat 32 (i + 1) := by
          rw [BitVec.ofNat_add, ← add_assoc]
          rfl
        rw [List.cons_append, writeBytes, hnext]
        rfl
      · rw [hget _ (blockAddr_aligned (by omega))]
        exact hmap
      · omega
      · intro j hj
        rw [(hkept j (by omega) (by omega)).1]
        exact hbyte (j + 1) (by simpa using hj)
      · exact fun h0 => hzero (List.mem_cons_of_mem c h0)
      · exact hlength
      · intro hlt
        rw [(hkept str.length le_rfl hlt).1]
        exact hstop (by simpa using hlt)
      · intro j hj hjk
        rw [(hkept j hj hjk).2]
        exact hphys (j + 1) (by simpa using hj) (by omega)

/-- A word that is stored again, byte for byte. -/
lemma write32_restore (mem mem' : Mem) {a x : Word} (hx : InRange a 4 x) :
    write32 mem' a (read32 mem a) x = mem x := by
  obtain ⟨j, hj, rfl⟩ := exists_of_inRange hx
  rw [write32, if_pos hx, toNat_ofNat_sub (by omega)]
  exact read32_byte mem a hj

/-- The page that the call allocates. -/
def tempPage (k : Kernel) (max : ℤ) : Word := (kzalloc k.kmem (BitVec.ofInt 32 max)).1

/-- The memory while that page is mapped in the task's directory. -/
def editedMem (k : Kernel) (task : Word) (max : ℤ) : Mem :=
  (pagingMap (kzalloc k.kmem (BitVec.ofInt 32 max)).2.mem (k.tasks task).pageDirectory (tempPage k max)
    (tempPage k max) userFlags).2

/-- Its bytes, with those of the heap's table. -/
def editedBytes (k : Kernel) (task : Word) (max : ℤ) : Mem :=
  ((kzalloc k.kmem (BitVec.ofInt 32 max)).2.withMem (editedMem k task max)).bytes

/-- The byte of the heap's table in which that page is marked. -/
def tempEntry (k : Kernel) (max : ℤ) : Word :=
  heapTableAddress + BitVec.ofNat 32 (blockOf (tempPage k max))

variable {k : Kernel} {task physical : Word} {max : ℤ}

/-- The directory is in taken blocks of the heap. -/
def DirLive (k : Kernel) (chunk dir : Word) (table : ℕ → Word) : Prop :=
  ∀ g ∈ dirPages chunk dir table, ∃ b < 25600, g = 4096 + b ∧ ¬ IsFree k.kmem.entries b

lemma DirLive.off_free {chunk : Word} (h : DirLive k chunk dir table) (hfree : IsFree k.kmem.entries b) :
    4096 + b ∉ dirPages chunk dir table := by
  intro hin
  obtain ⟨c, -, heq, hnot⟩ := h _ hin
  obtain rfl : b = c := by omega
  exact hnot hfree

lemma DirLive.pool {chunk : Word} (h : DirLive k chunk dir table) :
    ∀ g ∈ dirPages chunk dir table, 4096 ≤ g := by
  intro g hg
  obtain ⟨b, -, rfl, -⟩ := h g hg
  omega

/-- The page, and what is in memory while it is mapped. -/
lemma editedMem_spec (h : PageDir k.kmem.mem (k.tasks task).pageDirectory dir table)
    (hlive : DirLive k (k.tasks task).pageDirectory dir table) (hroom : k.kmem.Room 1)
    (hmin : 1 ≤ max) (hmax : max < 4096) :
    ∃ b, FitsAt k.kmem.entries 25600 1 b ∧ 4096 + b ∉ dirPages (k.tasks task).pageDirectory dir table ∧
      tempPage k max = blockAddr b ∧
      kzalloc k.kmem (BitVec.ofInt 32 max) =
        (blockAddr b, k.kmem.takeZeroed (BitVec.ofInt 32 max) 1 b) ∧
      let mem := (k.kmem.takeZeroed (BitVec.ofInt 32 max) 1 b).mem
      SameOff {4096 + b} k.kmem.mem mem ∧ PageDir mem (k.tasks task).pageDirectory dir table ∧
      editedMem k task max = write32 mem (slotAddr table (blockAddr b)) (blockAddr b ||| userFlags) ∧
      PageDir (editedMem k task max) (k.tasks task).pageDirectory dir table ∧
      SameOff (tablePages table) mem (editedMem k task max) ∧
      ∀ v : Word, v.toNat % 4096 = 0 → pagingGet (editedMem k task max) dir v =
        if v = blockAddr b then blockAddr b ||| userFlags else pagingGet k.kmem.mem dir v := by
  obtain ⟨m, rfl⟩ := Int.eq_ofNat_of_zero_le (show 0 ≤ max by omega)
  have hsize : (BitVec.ofInt 32 (m : ℤ)).toNat = m := by
    rw [BitVec.ofInt_natCast, BitVec.toNat_ofNat]
    omega
  have hone : (heapBlocksFor (BitVec.ofInt 32 (m : ℤ))).toNat = 1 := by
    rw [heapBlocksFor_eq, hsize]
    omega
  obtain ⟨b, hfit, -, heq⟩ := kzalloc_room k.kmem (show 0 < (heapBlocksFor _).toNat by omega)
    (hone.symm ▸ hroom)
  rw [hone] at hfit heq
  have hb : b < 25600 := by
    have := hfit.1
    omega
  have hoff := hlive.off_free (hfit.2 b le_rfl (by omega))
  have haligned : (blockAddr b).toNat % 4096 = 0 := blockAddr_aligned (by omega)
  have hfill : SameOff {4096 + b} k.kmem.mem (k.kmem.takeZeroed (BitVec.ofInt 32 (m : ℤ)) 1 b).mem := by
    have haddr := blockAddr_toNat (b := b) (by omega)
    have hpages := blockPages_one (show b < 2 ^ 19 by omega)
    rw [← pageOf_blockAddr (show b < 2 ^ 19 by omega), ← hpages, blockPages_eq (by omega)]
    exact fill_sameOff k.kmem.mem haligned (by omega) (by omega) 0
  obtain ⟨hdir, hkept⟩ := h.unchanged hfill (Set.disjoint_singleton_left.2 hoff)
  have htemp : tempPage k m = blockAddr b := by rw [tempPage, heq]
  obtain ⟨-, hedited, htables, hget⟩ := pagingMap_spec hdir haligned haligned userFlags
  have hmem : editedMem k task m = (pagingMap (k.kmem.takeZeroed (BitVec.ofInt 32 (m : ℤ)) 1 b).mem
      (k.tasks task).pageDirectory (blockAddr b) (blockAddr b) userFlags).2 := by
    rw [editedMem, htemp, heq]
  have hwrite : editedMem k task m = write32 (k.kmem.takeZeroed (BitVec.ofInt 32 (m : ℤ)) 1 b).mem
      (slotAddr table (blockAddr b)) (blockAddr b ||| userFlags) := by
    rw [hmem, pagingMap, if_neg, hdir.chunk_word, pagingSet_eq hdir haligned]
    simp only [ne_eq, word_mod_eq_zero]
    omega
  refine ⟨b, hfit, hoff, htemp, heq, hfill, hdir, hwrite, hmem ▸ hedited, hmem ▸ htables, fun v hv => ?_⟩
  rw [hmem, hget v hv, hkept v hv]

@[simp] lemma pagingSwitch_kmem (k : Kernel) (directory : Word) :
    (pagingSwitch k directory).kmem = k.kmem := rfl
@[simp] lemma pagingSwitch_currentDirectory (k : Kernel) (directory : Word) :
    (pagingSwitch k directory).currentDirectory = read32 k.kmem.mem directory := rfl
@[simp] lemma kernelPage_kmem (k : Kernel) : (kernelPage k).kmem = k.kmem := rfl

/-- The steps of the call. -/
lemma copyStringFromTask_eq {p : Word} {s₁ : Kmem} {m₁ m₂ m₃ : Mem} (hmax : max < 4096)
    (halloc : kzalloc k.kmem (BitVec.ofInt 32 max) = (p, s₁)) (hne : p ≠ 0)
    (hdir : read32 s₁.mem (k.tasks task).pageDirectory = dir)
    (hmap : (pagingMap s₁.mem (k.tasks task).pageDirectory p p userFlags).2 = m₁)
    (hdir₁ : read32 m₁ (k.tasks task).pageDirectory = dir)
    (hloop : pagedStrncpyLoop dir p virtual (max.toNat - 1) 0 (s₁.withMem m₁) = some (s₁.withMem m₂))
    (hset : pagingSet m₂ dir p (pagingGet s₁.mem dir p) = (0, m₃)) :
    ∃ k', copyStringFromTask k task virtual physical max = some (0, k') ∧
      k'.kmem = kfree (s₁.withMem (strncpy m₃ physical p max.toNat)) p ∧
      k'.procs = k.procs ∧ k'.tasks = k.tasks := by
  have hdirectory : taskDirectory (k.withKmem s₁) task = dir := hdir
  have hflags : pagingIsWritable ||| pagingIsPresent ||| pagingAccessFromAll = userFlags := by decide
  rw [copyStringFromTask, if_neg (not_le.2 hmax), halloc]
  dsimp only
  rw [if_neg hne, hdirectory, hflags]
  simp only [pagingSwitch_kmem, pagingSwitch_currentDirectory, kernelPage_kmem, Kernel.withKmem_kmem,
    Kernel.withKmem_tasks, Kmem.withMem_mem, hmap]
  rw [hdir₁, hloop, Option.map_some]
  simp only [Kmem.withMem_mem, hset]
  exact ⟨_, rfl, rfl, rfl, rfl⟩

/-- The string of a page goes to a destination outside of it. -/
lemma strncpy_ofPage {mem : Mem} {n : ℕ} (hb : b < 25600) (hn : n < 4096)
    (hbytes : BytesAt mem (blockAddr b) (str ++ [0])) (hzero : 0 ∉ str) (hlength : str.length < n)
    (hdest : ∀ x, InRange physical n x → pageOf x ≠ 4096 + b) :
    strncpy mem physical (blockAddr b) n = writeBytes mem physical (str ++ [0]) := by
  refine strncpy_eq hbytes hzero hlength fun i hi j hj heq => ?_
  refine hdest (physical + BitVec.ofNat 32 i) (inRange_ofNat (by omega) (by omega)) ?_
  rw [← heq, pageOf_blockAddr_add hb (by omega)]

/-- An entry that is put back is what it was, and what the copy left alone beside it is as well. -/
lemma restored_of_not {mem edited copied : Mem} {slot entry x : Word}
    (hedited : edited = write32 mem slot entry) (hcopy : copied x = edited x) :
    write32 copied slot (read32 mem slot) x = mem x := by
  by_cases hslot : InRange slot 4 x
  · exact write32_restore mem copied hslot
  · rw [write32, if_neg hslot, hcopy, hedited, write32, if_neg hslot]

/-- The call, where the string is what is seen while the page is mapped. -/
theorem copyStringFromTask_run (h : PageDir k.kmem.mem (k.tasks task).pageDirectory dir table)
    (hlive : DirLive k (k.tasks task).pageDirectory dir table) (hroom : k.kmem.Room 1)
    (hmin : 1 ≤ max) (hmax : max < 4096)
    (hseen : Seen (editedBytes k task max) dir virtual (max.toNat - 1) str)
    (hphys : ∀ j ≤ str.length, j < max.toNat - 1 →
      pageOf (pagingGetPhysicalAddress (editedBytes k task max) dir (virtual + BitVec.ofNat 32 j)) ≠
        pageOf (tempPage k max))
    (hdest : ∀ x, InRange physical max.toNat x → pageOf x ≠ pageOf (tempPage k max)) :
    ∃ k', copyStringFromTask k task virtual physical max = some (0, k') ∧
      BytesAt k'.kmem.mem physical (str ++ [0]) ∧
      (∀ x, ¬ InRange physical max.toNat x → pageOf x ≠ pageOf (tempPage k max) →
        k'.kmem.mem x = k.kmem.mem x) ∧
      (ZeroFree k.kmem.entries → k'.kmem.entries = k.kmem.entries) ∧
      k'.procs = k.procs ∧ k'.tasks = k.tasks := by
  obtain ⟨b, hfit, hoff, htemp, halloc, hfill, hdir, hedited, heditedDir, htables, hget⟩ :=
    editedMem_spec h hlive hroom hmin hmax
  have hb : b < 25600 := by
    have := hfit.1
    omega
  have haligned : (blockAddr b).toNat % 4096 = 0 := blockAddr_aligned (by omega)
  have hpage : pageOf (blockAddr b) = 4096 + b := pageOf_blockAddr (by omega)
  have hne : blockAddr b ≠ 0 := blockAddr_ne_zero (by omega)
  rw [htemp, hpage] at hphys hdest
  generalize hs₁ : k.kmem.takeZeroed (BitVec.ofInt 32 max) 1 b = s₁ at halloc hfill hdir hedited htables
  have hshown : editedBytes k task max = (s₁.withMem (editedMem k task max)).bytes := by
    rw [editedBytes, halloc]
  rw [hshown] at hseen hphys
  obtain ⟨hshownDir, hshownGet⟩ := @pageDir_bytes _ _ table (s₁.withMem (editedMem k task max)) heditedDir
    hlive.pool
  have hmap : pagingGet (s₁.withMem (editedMem k task max)).bytes dir (blockAddr b) =
      blockAddr b ||| userFlags := by
    rw [hshownGet _ haligned, Kmem.withMem_mem, hget _ haligned, if_pos rfl]
  obtain ⟨hread, hzero, hcut, hstop⟩ := hseen
  -- the copy through the task's directory
  have hloop := @pagedStrncpyLoop_eq _ _ virtual _ str b _ hb (max.toNat - 1) 0 hshownDir hmap hoff
    (by omega) (by simpa only [Nat.zero_add] using hread) hzero hcut
    (by simpa only [Nat.zero_add] using hstop) (by simpa only [Nat.zero_add] using hphys)
  rw [BitVec.add_zero, Kmem.withMem_mem] at hloop
  generalize hm₂ : writeBytes (editedMem k task max) (blockAddr b) (str ++ [0]) = m₂ at hloop
  have hlength : (str ++ [0]).length ≤ max.toNat := by
    rw [List.length_append, List.length_singleton]
    omega
  have hcopy : SameOff {4096 + b} (editedMem k task max) m₂ := by
    rw [← hm₂]
    exact writeBytes_sameOff fun n hn => pageOf_blockAddr_add hb (by omega)
  have hcopied : BytesAt m₂ (blockAddr b) (str ++ [0]) := by
    rw [← hm₂]
    exact writeBytes_bytesAt (by omega)
  obtain ⟨hdir₂, -⟩ := heditedDir.unchanged hcopy (Set.disjoint_singleton_left.2 hoff)
  -- the entry as it was
  have hslotPage : pageOf (slotAddr table (blockAddr b)) ≠ 4096 + b := by
    rw [pageOf_slotAddr h]
    exact fun heq => hoff (heq ▸ tablePages_subset ⟨_, dirIndex_lt _, rfl⟩)
  have hset := pagingSet_eq hdir₂ haligned (pagingGet s₁.mem dir (blockAddr b))
  rw [pagingGet_eq hdir haligned] at hset
  generalize hm₃ : write32 m₂ (slotAddr table (blockAddr b))
    (read32 s₁.mem (slotAddr table (blockAddr b))) = m₃ at hset
  have hback : SameOff {pageOf (slotAddr table (blockAddr b))} m₂ m₃ := by
    rw [← hm₃]
    exact write32_sameOff m₂ (slotAddr_aligned hdir _) _
  have hsecond := hcopied.congr fun n hn => hback _ (by
    rw [pageOf_blockAddr_add hb (by omega)]
    exact hslotPage.symm)
  have hfinal := strncpy_ofPage hb (by omega) hsecond hzero (by omega) hdest
  have hlive₁ : Allocated s₁.kernelHeap b 1 := by
    rw [← hs₁]
    exact allocated_take one_pos hfit
  have hmapped : (pagingMap s₁.mem (k.tasks task).pageDirectory (blockAddr b) (blockAddr b)
      userFlags).2 = editedMem k task max := by
    rw [editedMem, htemp, halloc]
  rw [← pagingGet_eq hdir haligned] at hset
  obtain ⟨k', hrun, hkmem, hprocs, htasks⟩ := @copyStringFromTask_eq dir virtual k task physical max _ _ _
    _ _ hmax halloc hne hdir.chunk_word hmapped heditedDir.chunk_word hloop hset
  have hfreed : kfree (s₁.withMem (writeBytes m₃ physical (str ++ [0]))) (blockAddr b) =
      (s₁.withMem (writeBytes m₃ physical (str ++ [0]))).give 1 b := kfree_spec _ hlive₁
  rw [hfinal, hfreed] at hkmem
  have hmem : k'.kmem.mem = writeBytes m₃ physical (str ++ [0]) := by
    rw [hkmem]
    rfl
  refine ⟨k', hrun, hmem ▸ writeBytes_bytesAt (by omega), fun x hx hxp => ?_, fun hfree => ?_,
    hprocs, htasks⟩
  · rw [htemp, hpage] at hxp
    rw [hmem, writeBytes_of_not]
    · rw [← hfill x hxp, ← hm₃]
      exact restored_of_not hedited (hcopy x hxp)
    · intro n hn heq
      exact hx (heq ▸ inRange_ofNat (by omega) (by omega))
  · rw [hkmem, ← hs₁]
    exact @give_takeZeroed_entries (BitVec.ofInt 32 max) b 1 k.kmem hfree hfit

/-- A place of the string that neither the edit of the directory nor the mark of the page changes. -/
structure Apart (k : Kernel) (dir : Word) (table : ℕ → Word) (max : ℤ) (va : Word) : Prop where
  virtual : pagingAlignToLowerPage va ≠ tempPage k max
  page : pageOf (pagingGetPhysicalAddress k.kmem.bytes dir va) ≠ pageOf (tempPage k max)
  tables : pageOf (pagingGetPhysicalAddress k.kmem.bytes dir va) ∉ tablePages table
  entry : pagingGetPhysicalAddress k.kmem.bytes dir va ≠ tempEntry k max

lemma Apart.byte (h : PageDir k.kmem.mem (k.tasks task).pageDirectory dir table)
    (hlive : DirLive k (k.tasks task).pageDirectory dir table) (hroom : k.kmem.Room 1)
    (hmin : 1 ≤ max) (hmax : max < 4096) (hva : Apart k dir table max va) :
    pagedByte (editedBytes k task max) dir va = pagedByte k.kmem.bytes dir va ∧
      pagingGetPhysicalAddress (editedBytes k task max) dir va =
        pagingGetPhysicalAddress k.kmem.bytes dir va := by
  obtain ⟨b, hfit, -, htemp, halloc, hfill, -, -, hedited, htables, hget⟩ :=
    editedMem_spec h hlive hroom hmin hmax
  obtain ⟨hpage, hphys, htable, hentry⟩ := hva
  have hb := hfit.1
  rw [tempEntry, htemp, blockOf_blockAddr (by omega)] at hentry
  rw [htemp] at hpage hphys
  rw [pageOf_blockAddr (by omega)] at hphys
  have haligned := pagingAlignToLowerPage_aligned va
  have hshown : editedBytes k task max =
      ((k.kmem.takeZeroed (BitVec.ofInt 32 max) 1 b).withMem (editedMem k task max)).bytes := by
    rw [editedBytes, halloc]
  obtain ⟨-, hbefore⟩ := pageDir_bytes h hlive.pool
  obtain ⟨-, hafter⟩ := @pageDir_bytes _ _ table ((k.kmem.takeZeroed (BitVec.ofInt 32 max) 1 b).withMem
    (editedMem k task max)) hedited hlive.pool
  rw [← hshown, Kmem.withMem_mem] at hafter
  have hsame : pagingGet (editedBytes k task max) dir (pagingAlignToLowerPage va) =
      pagingGet k.kmem.bytes dir (pagingAlignToLowerPage va) := by
    rw [hafter _ haligned, hbefore _ haligned, hget _ haligned, if_neg hpage]
  have haddr : pagingGetPhysicalAddress (editedBytes k task max) dir va =
      pagingGetPhysicalAddress k.kmem.bytes dir va := by
    simp only [pagingGetPhysicalAddress, hsame]
  refine ⟨?_, haddr⟩
  rw [pagedByte, pagedByte, hsame, haddr]
  generalize pagingGetPhysicalAddress k.kmem.bytes dir va = x at hphys htable hentry
  have hbyte : editedBytes k task max x = k.kmem.bytes x := by
    rw [hshown]
    by_cases hin : InTable x
    · obtain ⟨j, hj, rfl⟩ := exists_of_inRange hin
      rw [takeZeroed_bytes _ _ _ _ _ hj, Kmem.bytes_entry hj, if_neg]
      rintro ⟨h1, h2⟩
      obtain rfl : j = b := by omega
      exact hentry rfl
    · rw [Kmem.bytes_of_not hin, Kmem.bytes_of_not hin, Kmem.withMem_mem, htables _ htable, hfill _ hphys]
  rw [hbyte]

/-- `copy_string_from_task` of a string that lies neither in the page the call allocates nor in
the task's page tables nor in the byte where the heap marks that page: the destination gets the string
the task sees, and the task's directory, the heap's table and the rest of memory are as before. -/
theorem copyStringFromTask_spec (h : PageDir k.kmem.mem (k.tasks task).pageDirectory dir table)
    (hlive : DirLive k (k.tasks task).pageDirectory dir table) (hroom : k.kmem.Room 1)
    (hfree : ZeroFree k.kmem.entries) (hmin : 1 ≤ max) (hmax : max < 4096)
    (hseen : Seen k.kmem.bytes dir virtual (max.toNat - 1) str)
    (hapart : ∀ j ≤ str.length, j < max.toNat - 1 →
      Apart k dir table max (virtual + BitVec.ofNat 32 j))
    (hdest : ∀ x, InRange physical max.toNat x → pageOf x ≠ pageOf (tempPage k max) ∧ ¬ InTable x) :
    ∃ k', copyStringFromTask k task virtual physical max = some (0, k') ∧
      BytesAt k'.kmem.bytes physical (str ++ [0]) ∧ (str ++ [0]).length ≤ max ∧
      (∀ x, ¬ InRange physical max.toNat x → pageOf x ≠ pageOf (tempPage k max) →
        k'.kmem.bytes x = k.kmem.bytes x) ∧
      (∃ b < 25600, IsFree k.kmem.entries b ∧ tempPage k max = blockAddr b) ∧
      k'.kmem.entries = k.kmem.entries ∧
      ((∀ x, InRange physical max.toNat x →
          pageOf x ∉ dirPages (k.tasks task).pageDirectory dir table) →
        (∀ x, pageOf x ∈ dirPages (k.tasks task).pageDirectory dir table →
          k'.kmem.bytes x = k.kmem.bytes x) ∧
        ∀ v : Word, v.toNat % 4096 = 0 →
          pagingGet k'.kmem.bytes dir v = pagingGet k.kmem.bytes dir v) ∧
      k'.procs = k.procs ∧ k'.tasks = k.tasks := by
  obtain ⟨b, hfit, hoff, htemp, -⟩ := editedMem_spec h hlive hroom hmin hmax
  have hb := hfit.1
  have hpage : pageOf (tempPage k max) = 4096 + b := by
    rw [htemp, pageOf_blockAddr (by omega)]
  have hplace : ∀ j ≤ str.length, j < max.toNat - 1 → _ := fun j hj hlt =>
    Apart.byte h hlive hroom hmin hmax (hapart j hj hlt)
  have hcut := hseen.cut
  have hedited : Seen (editedBytes k task max) dir virtual (max.toNat - 1) str := by
    refine ⟨fun j hj => ?_, hseen.nonzero, hcut, fun hlt => ?_⟩
    · rw [(hplace j (by omega) (by omega)).1]
      exact hseen.byte j hj
    · rw [(hplace str.length le_rfl hlt).1]
      exact hseen.stop hlt
  obtain ⟨k', hrun, hbytes, hmem, hentries, hprocs, htasks⟩ :=
    copyStringFromTask_run h hlive hroom hmin hmax hedited (fun j hj hlt => by
      rw [(hplace j hj hlt).2]
      exact (hapart j hj hlt).page) fun x hx => (hdest x hx).1
  replace hentries := hentries hfree
  have hkept : ∀ x, ¬ InRange physical max.toNat x → pageOf x ≠ pageOf (tempPage k max) →
      k'.kmem.bytes x = k.kmem.bytes x := by
    intro x hx hxp
    by_cases hin : InTable x
    · obtain ⟨j, hj, rfl⟩ := exists_of_inRange hin
      rw [Kmem.bytes_entry hj, Kmem.bytes_entry hj, hentries]
    · rw [Kmem.bytes_of_not hin, Kmem.bytes_of_not hin]
      exact hmem x hx hxp
  refine ⟨k', hrun, hbytes.congr fun n hn => ?_, ?_, hkept,
    ⟨b, by omega, hfit.2 b le_rfl (by omega), htemp⟩, hentries, fun hout => ?_, hprocs, htasks⟩
  · rw [List.length_append, List.length_singleton] at hn
    exact Kmem.bytes_of_not (hdest _ (inRange_ofNat (by omega) (by omega))).2
  · rw [List.length_append, List.length_singleton]
    omega
  · have hdirectory : ∀ x, pageOf x ∈ dirPages (k.tasks task).pageDirectory dir table →
        k'.kmem.bytes x = k.kmem.bytes x := by
      intro x hx
      exact hkept x (fun hin => hout x hin hx) fun heq => hoff (by rwa [← hpage, ← heq])
    have hsame : SameOff (dirPages (k.tasks task).pageDirectory dir table)ᶜ k.kmem.bytes k'.kmem.bytes :=
      fun x hx => hdirectory x (not_not.1 hx)
    obtain ⟨hshown, -⟩ := pageDir_bytes h hlive.pool
    exact ⟨hdirectory, (hshown.unchanged hsame disjoint_compl_left).2⟩

lemma LiveProcess.dirLive {q : Word} (h : LiveProcess k q dir table) :
    DirLive k (k.pageDirectory q) dir table := by
  intro g hg
  obtain ⟨b, heq, hb⟩ := h.held g hg
  have hbound := allocated_bound hb
  exact ⟨b, by omega, heq, allocated_not_free hb⟩

/-- The first task with its directory, in which pages are mapped to themselves. -/
structure TaskDir (k : Kernel) (dir : Word) (table : ℕ → Word) : Prop where
  first : FirstTask k dir table
  pageDir : PageDir k.kmem.mem (k.tasks (blockAddr 3)).pageDirectory dir table
  live : DirLive k (k.tasks (blockAddr 3)).pageDirectory dir table
  room : k.kmem.Room 1
  directory : taskDirectory k (blockAddr 3) = dir
  identity : Identity k.kmem.mem dir

lemma oneTask_task : ∃ dir table, TaskDir oneTask dir table := by
  obtain ⟨-, -, dir, table, -, hfirst, hidentity⟩ := oneTask_first
  have hchunk := hfirst.directory
  generalize oneTask = k at hfirst hidentity hchunk
  refine ⟨dir, table, hfirst, hchunk ▸ hfirst.live.pageDir, hchunk ▸ hfirst.live.dirLive,
    ⟨1030, by omega, fun j h1 h2 => hfirst.frontier.free j h1 (by omega)⟩, ?_, hidentity⟩
  rw [taskDirectory, hchunk]
  exact hfirst.live.directory

/-- The heap's table does not show in it. -/
lemma identity_bytes {s : Kmem} (h : PageDir s.mem chunk dir table)
    (hpool : ∀ g ∈ dirPages chunk dir table, 4096 ≤ g) (hget : Identity s.mem dir) : Identity s.bytes dir := by
  intro v hv
  rw [(pageDir_bytes h hpool).2 v hv]
  exact hget v hv

lemma frontier_tempPage {f : ℕ} (h : Frontier k.kmem f) (hf : f < 25600)
    (hsize : (heapBlocksFor (BitVec.ofInt 32 max)).toNat = 1) : tempPage k max = blockAddr f :=
  (frontier_block h hsize (by omega)).1

lemma FirstTask.tempPage {dir : Word} {table : ℕ → Word} (h : FirstTask k dir table)
    (hsize : (heapBlocksFor (BitVec.ofInt 32 max)).toNat = 1) : tempPage k max = 0x1406000 := by
  rw [frontier_tempPage h.frontier (by omega) hsize]
  decide

/-- A place below the pool, outside the heap's table. -/
lemma apart_low {va : Word} (habove : ∀ g ∈ tablePages table, 4096 ≤ g) (htemp : tempPage k max = 0x1406000)
    (haddr : pagingGetPhysicalAddress k.kmem.bytes dir va = va) (hva : va.toNat < 0x7E00) :
    Apart k dir table max va := by
  have hpage : pageOf va < 4096 := by
    unfold pageOf
    omega
  refine ⟨fun heq => ?_, ?_, ?_, ?_⟩
  · have hlower := pagingAlignToLowerPage_toNat va
    rw [heq, htemp] at hlower
    change 20996096 = _ at hlower
    omega
  · rw [haddr, htemp]
    intro heq
    rw [heq] at hpage
    exact absurd hpage (by decide)
  · rw [haddr]
    intro hin
    have hhigh := habove _ hin
    omega
  · rw [haddr, tempEntry, htemp]
    intro heq
    rw [heq] at hva
    exact absurd hva (by decide)

/-- A destination in a page of low memory. -/
lemma dest_low (htemp : tempPage k max = 0x1406000) (hn : n ≤ 4096) {x : Word} (hx : InRange 0x3000 n x) :
    pageOf x ≠ pageOf (tempPage k max) ∧ ¬ InTable x := by
  have hpage := inRange_page (p := 0x3000) (by decide) hn hx
  refine ⟨fun heq => ?_, ?_⟩
  · rw [hpage, htemp] at heq
    exact absurd heq (by decide)
  · intro hin
    have hstart := (inTable_toNat hin).1
    have hthree : x.toNat / 4096 = 3 := hpage
    omega

/-- An empty string in low memory. -/
theorem copyStringFromTask_spec_empty :
    ∃ k', copyStringFromTask oneTask (blockAddr 3) 0x2000 0x3000 2 = some (0, k') ∧
      k'.kmem.bytes 0x3000 = 0 := by
  obtain ⟨dir, table, hfirst, hdir, hlive, hroom, -, hget⟩ := oneTask_task
  generalize oneTask = k at hfirst hdir hlive hroom hget ⊢
  obtain ⟨haddr, hbyte⟩ := identity_byte (identity_bytes hdir hlive.pool hget) 0x2000
  have hsize : (heapBlocksFor (BitVec.ofInt 32 2)).toNat = 1 := by decide
  have htemp := hfirst.tempPage hsize
  have hzero : k.kmem.bytes 0x2000 = 0 := by
    rw [Kmem.bytes_of_not (by unfold InTable; decide)]
    exact hfirst.clear _ (by decide)
  rw [hzero] at hbyte
  have hseen : Seen k.kmem.bytes dir 0x2000 ((2 : ℤ).toNat - 1) [] :=
    ⟨fun j hj => absurd hj (Nat.not_lt_zero j), by simp, Nat.zero_le _, fun _ => hbyte⟩
  have hapart : ∀ j ≤ ([] : List Byte).length, j < (2 : ℤ).toNat - 1 →
      Apart k dir table 2 (0x2000 + BitVec.ofNat 32 j) := by
    intro j hj _
    obtain rfl : j = 0 := Nat.le_zero.1 hj
    rw [BitVec.add_zero]
    exact apart_low (fun g hg => hlive.pool g (tablePages_subset hg)) htemp haddr (by decide)
  obtain ⟨k', hrun, hbytes, -⟩ := copyStringFromTask_spec hdir hlive hroom hfirst.zeroFree (by omega)
    (by omega) hseen hapart fun x hx => dest_low htemp (by decide) hx
  exact ⟨k', hrun, hbytes.1⟩

/-- A string of one character that the call reads other than the task does. -/
structure CopiesOther (k : Kernel) (task virtual : Word) (seen copied : Byte) : Prop where
  sees : Seen k.kmem.bytes (taskDirectory k task) virtual 1 (if seen = 0 then [] else [seen])
  unmapped : pagingAlignToLowerPage virtual ≠ tempPage k 2
  outside : pageOf (pagingGetPhysicalAddress k.kmem.bytes (taskDirectory k task) virtual) ≠ pageOf (tempPage k 2)
  other : seen ≠ copied
  copies : ∃ k', copyStringFromTask k task virtual 0x3000 2 = some (0, k') ∧ k'.kmem.mem 0x3000 = copied

/-- What is copied is what the call finds while the page is mapped. -/
lemma TaskDir.copiesOther {virtual : Word} {seen copied : Byte} (h : TaskDir k dir table)
    (hbyte : k.kmem.bytes virtual = seen)
    (hpage : pagingAlignToLowerPage virtual ≠ 0x1406000) (hphys : pageOf virtual ≠ pageOf 0x1406000)
    (hother : seen ≠ copied) (hcopied : copied ≠ 0)
    (hedited : editedBytes k (blockAddr 3) 2 virtual = copied) :
    CopiesOther k (blockAddr 3) virtual seen copied := by
  obtain ⟨hfirst, hdir, hlive, hroom, hdirectory, hget⟩ := h
  have hsize : (heapBlocksFor (BitVec.ofInt 32 2)).toNat = 1 := by decide
  have htemp := hfirst.tempPage hsize
  have hblock : blockAddr 1030 = 0x1406000 := by decide
  have hzero : virtual + BitVec.ofNat 32 0 = virtual := BitVec.add_zero _
  have hshown := identity_bytes hdir hlive.pool hget
  obtain ⟨haddr, hread⟩ := identity_byte hshown virtual
  have haligned := pagingAlignToLowerPage_aligned virtual
  -- the page of the string is mapped as before
  obtain ⟨b, -, -, hblockTemp, -, -, -, -, heditedDir, -, hmapped⟩ :=
    editedMem_spec hdir hlive hroom (show (1 : ℤ) ≤ 2 by omega) (by omega)
  have htempBlock : blockAddr b = 0x1406000 := hblockTemp.symm.trans htemp
  obtain ⟨-, hafter⟩ := @pageDir_bytes _ _ table ((kzalloc k.kmem (BitVec.ofInt 32 2)).2.withMem
    (editedMem k (blockAddr 3) 2)) heditedDir hlive.pool
  have hentry : pagingGet (editedBytes k (blockAddr 3) 2) dir (pagingAlignToLowerPage virtual) =
      pagingAlignToLowerPage virtual ||| 5 := by
    rw [editedBytes, hafter _ haligned, Kmem.withMem_mem, hmapped _ haligned, htempBlock, if_neg hpage,
      hget _ haligned]
  have hplace : pagingGetPhysicalAddress (editedBytes k (blockAddr 3) 2) dir virtual = virtual := by
    rw [pagingGetPhysicalAddress, hentry, and_page_or_flags haligned (by decide), add_sub_cancel]
  have hfound : pagedByte (editedBytes k (blockAddr 3) 2) dir virtual = some copied := by
    rw [pagedByte, hshown _ haligned] at hread
    rw [pagedByte, hentry, hplace, hedited]
    split_ifs at hread ⊢
    rfl
  have hseen : Seen (editedBytes k (blockAddr 3) 2) dir virtual ((2 : ℤ).toNat - 1) [copied] := by
    refine ⟨fun j hj => ?_, by simpa using hcopied.symm, le_rfl, fun h => absurd h (by simp)⟩
    obtain rfl : j = 0 := by simpa using hj
    rw [hzero]
    exact hfound
  have hapart : ∀ j ≤ ([copied] : List Byte).length, j < (2 : ℤ).toNat - 1 →
      pageOf (pagingGetPhysicalAddress (editedBytes k (blockAddr 3) 2) dir
        (virtual + BitVec.ofNat 32 j)) ≠ pageOf (tempPage k 2) := by
    intro j _ hj
    change j < 1 at hj
    obtain rfl : j = 0 := by omega
    rwa [hzero, hplace, htemp]
  obtain ⟨k', hrun, hbytes, -⟩ := copyStringFromTask_run hdir hlive hroom (by omega) (by omega) hseen hapart
    fun x hx => (dest_low htemp (by decide) hx).1
  refine ⟨?_, by rwa [htemp], by rwa [hdirectory, haddr, htemp], hother, k', hrun, hbytes.1⟩
  rw [hbyte] at hread
  rw [hdirectory]
  split_ifs with hempty
  · refine ⟨fun j hj => absurd hj (Nat.not_lt_zero j), by simp, Nat.zero_le _, fun _ => ?_⟩
    rw [List.length_nil, hzero, hread, hempty]
  · refine ⟨fun j hj => ?_, by simpa using Ne.symm hempty, le_rfl, fun h => absurd h (by simp)⟩
    obtain rfl : j = 0 := by simpa using hj
    rw [hzero]
    exact hread

/-- The task's own entry of the page that the call will allocate, as a user address. -/
def ownEntry (k : Kernel) : Word := pagingTable k.kmem.mem (taskDirectory k (blockAddr 3)) 5 + 24

/-- In its entry the task sees the character 5 where the call finds 7, and in the heap's table nothing
where the call finds the mark of the page. -/
lemma TaskDir.ownTable (h : TaskDir k dir table) : CopiesOther k (blockAddr 3) (ownEntry k) 5 7 ∧
    CopiesOther k (blockAddr 3) (heapTableAddress + 1030) 0 0x41 := by
  have ⟨hfirst, hdir, hlive, hroom, hdirectory, hget⟩ := h
  have hsize : (heapBlocksFor (BitVec.ofInt 32 2)).toNat = 1 := by decide
  have htemp := hfirst.tempPage hsize
  have hblock : blockAddr 1030 = 0x1406000 := by decide
  obtain ⟨b, hfit, -, hb, halloc, -, hafter, hedited, -, -, -⟩ :=
    editedMem_spec hdir hlive hroom (show (1 : ℤ) ≤ 2 by omega) (by omega)
  have hbound := hfit.1
  obtain rfl : b = 1030 := blockAddr_inj (by omega) (by omega) (by rw [← hb, htemp, hblock])
  refine ⟨?_, ?_⟩
  · have haligned := hdir.aligned 5 (by omega)
    have hhigh := hfirst.above _ (tablePages_subset ⟨5, by omega, rfl⟩)
    have hown : ownEntry k = table 5 + 24 := by
      rw [ownEntry, hdirectory]
      exact congrArg (· + 24) (hdir.entry 5 (by omega))
    have hslot : slotAddr table (blockAddr 1030) = ownEntry k := by
      rw [hown, hblock]
      rfl
    have hpage : pageOf (ownEntry k) = pageOf (table 5) := by
      rw [hown]
      exact pageOf_add haligned (k := 24) (by omega)
    have hentry := hget 0x1406000 (by simp)
    rw [pagingGet_eq hdir (by simp), ← hblock, hslot] at hentry
    have hbyte := read32_byte k.kmem.mem (ownEntry k) (show 0 < 4 by omega)
    rw [hentry, BitVec.add_zero] at hbyte
    have hapart : pageOf (table 5) ≠ pageOf 0x1406000 := by
      intro heq
      have hin := @tablePages_subset (k.tasks (blockAddr 3)).pageDirectory dir table _
        (⟨5, by omega, rfl⟩ : pageOf (table 5) ∈ tablePages table)
      rw [heq] at hin
      exact hlive.off_free (hfirst.frontier.free 1030 le_rfl (by omega)) hin
    refine h.copiesOther ?_ ?_ (by rwa [hpage]) (by decide) (by decide) ?_
    · rw [bytes_high _ (by omega), ← hbyte, hblock]
      decide
    · intro heq
      have hlower := pagingAlignToLowerPage_toNat (ownEntry k)
      rw [heq] at hlower
      apply hapart
      rw [← hpage]
      unfold pageOf
      change 20996096 = _ at hlower
      change _ = 20996096 / 4096
      omega
    · rw [editedBytes, bytes_high _ (by omega), Kmem.withMem_mem, hedited, hslot]
      have hword := read32_byte (write32 (k.kmem.takeZeroed (BitVec.ofInt 32 2) 1 1030).mem (ownEntry k)
        (blockAddr 1030 ||| userFlags)) (ownEntry k) (show 0 < 4 by omega)
      rw [read32_write32, BitVec.add_zero] at hword
      rw [← hword]
      decide
  · refine h.copiesOther ?_ (by decide) (by decide) (by decide)
      (by decide) ?_
    · have hfree := hfirst.zeroFree 1030 (by omega) (hfirst.frontier.free 1030 le_rfl (by omega))
      exact (Kmem.bytes_entry (show 1030 < 25600 by omega)).trans hfree
    · rw [editedBytes, halloc]
      refine (takeZeroed_bytes _ _ _ _ _ (show 1030 < 25600 by omega)).trans ?_
      rw [if_pos ⟨le_rfl, by omega⟩]
      decide

/-- Strings of a task that has room for the page, in its own page table and in the heap's table: each is
copied other than the task sees it. -/
theorem copyStringFromTask_ownTable :
    (∃ dir table, PageDir oneTask.kmem.mem (oneTask.tasks (blockAddr 3)).pageDirectory dir table ∧
      DirLive oneTask (oneTask.tasks (blockAddr 3)).pageDirectory dir table) ∧
    oneTask.kmem.Room 1 ∧ CopiesOther oneTask (blockAddr 3) (ownEntry oneTask) 5 7 ∧
    CopiesOther oneTask (blockAddr 3) (heapTableAddress + 1030) 0 0x41 := by
  obtain ⟨dir, table, htask⟩ := oneTask_task
  exact ⟨⟨dir, table, htask.pageDir, htask.live⟩, htask.room, htask.ownTable⟩

end AlphaOS.Processes
