import AlphaOS.FileService

/-! The calls on an open file that read nothing: `fclose`, `fseek` and `fstat`, and what they make of
the table of open files. -/
namespace AlphaOS.Fat16
open BlockHeap CString Files Kheap Paging PathParser Streamer WordMemory

variable {fuel : ℕ} {disk : Disk} {v : Storage FatState} {C : Content} {p : FatPrivate} {b m n : ℕ}
  {k k' : FileState FatState} {T : Table} {i : Fin maxFiledescriptors} {o : OpenEntry} {fd : ℤ} {s : Kmem}

lemma slot_lt {fd : ℤ} (h : ¬(fd ≤ 0 ∨ fd ≥ 512)) : (fd - 1).toNat < maxFiledescriptors := by
  change _ < 512
  omega

/-- The slot a descriptor stands for; the last one has none. -/
def slotOf (fd : ℤ) : Option (Fin maxFiledescriptors) :=
  if h : fd ≤ 0 ∨ fd ≥ 512 then none else some ⟨(fd - 1).toNat, slot_lt h⟩

/-- The open file of a descriptor. -/
def Table.get (T : Table) (fd : ℤ) : Option OpenEntry := (slotOf fd).bind T

lemma fileGetDescriptor_slotOf (k : FileState FatState) (fd : ℤ) :
    fileGetDescriptor k fd = ((slotOf fd).map k.fileDescriptors).getD 0 := by
  unfold fileGetDescriptor slotOf
  split_ifs <;> rfl

lemma Table.get_some (h : T.get fd = some o) : ∃ i, slotOf fd = some i ∧ T i = some o :=
  Option.bind_eq_some_iff.1 h

/-- A descriptor that nothing is open on. -/
lemma Holds.get_none (h : Holds fuel disk v p C b m k T) (hnone : T.get fd = none) :
    fileGetDescriptor k fd = 0 := by
  rw [fileGetDescriptor_slotOf]
  cases hslot : slotOf fd with
  | none => rfl
  | some i =>
    rw [Table.get, hslot, Option.bind_some] at hnone
    exact h.closed i hnone

lemma FileAt.ptr_ne (h : FileAt v C k i o) (r : Role) : filePtr k i r ≠ 0 := by
  obtain ⟨c, hc, haddr, -⟩ := h.block r
  rw [haddr]
  exact blockAddr_ne_zero (by omega)

lemma slotOf_get (k : FileState FatState) (hslot : slotOf fd = some i) :
    fileGetDescriptor k fd = filePtr k i .desc := by
  rw [fileGetDescriptor_slotOf, hslot]
  rfl

lemma slotOf_privateData (k : FileState FatState) (hslot : slotOf fd = some i) :
    privateData k fd = filePtr k i .fat := by
  rw [privateData, slotOf_get k hslot]
  rfl

section Open
variable (h : FileAt v C k i o) (hslot : slotOf fd = some i)
include h hslot

lemma FileAt.item_eq : openItem k fd = ⟨filePtr k i .clone, .file⟩ := by
  rw [openItem, slotOf_privateData k hslot, h.fat, h.item]

lemma FileAt.position_eq : position k fd = o.pos := by
  rw [position, slotOf_privateData k hslot, h.fat]

/-- The file is open on the disk. -/
lemma FileAt.isOpen (hserves : Serves fuel disk v) : IsOpen fuel disk v k fd := by
  constructor
  · rw [slotOf_get k hslot]
    exact h.ptr_ne .desc
  · rw [slotOf_get k hslot, h.desc]
    exact hserves.fat16
  · rw [h.item_eq hslot]

/-- The copy of its entry. -/
lemma FileAt.entry_eq {n : ℕ} (hn : n < sizeofDirectoryItem) : openEntry k fd n = C.entry o.entry n := by
  rw [openEntry, h.item_eq hslot, pointer, BitVec.ofInt_natCast]
  exact h.bytes n hn

end Open

/-- The size of an entry. -/
def Content.size (C : Content) (i : ℕ) : Word := FatDirectoryItem.fileSize (C.entry i)

/-- The first cluster of an entry. -/
def Content.start (C : Content) (i : ℕ) : ℤ := (fat16GetFirstCluster (C.entry i)).toInt

/-- Its size and its first cluster are among the bytes that are copied. -/
lemma entry_fields {e e' : FatDirectoryItem} (h : ∀ n : ℕ, n < sizeofDirectoryItem → e n = e' n) :
    FatDirectoryItem.fileSize e = FatDirectoryItem.fileSize e' ∧
      fat16GetFirstCluster e = fat16GetFirstCluster e' := by
  have hfields : e 31 = e' 31 ∧ e 30 = e' 30 ∧ e 29 = e' 29 ∧ e 28 = e' 28 ∧ e 27 = e' 27 ∧
      e 26 = e' 26 ∧ e 21 = e' 21 ∧ e 20 = e' 20 :=
    ⟨h 31 (by decide), h 30 (by decide), h 29 (by decide), h 28 (by decide), h 27 (by decide),
      h 26 (by decide), h 21 (by decide), h 20 (by decide)⟩
  simp [FatDirectoryItem.fileSize, fat16GetFirstCluster, FatDirectoryItem.high16BitsFirstCluster,
    FatDirectoryItem.low16BitsFirstCluster, hfields]

lemma FileAt.size_eq (h : FileAt v C k i o) (hslot : slotOf fd = some i) :
    FatDirectoryItem.fileSize (openEntry k fd) = C.size o.entry :=
  (entry_fields fun _ hn => h.entry_eq hslot hn).1

lemma FileAt.start_eq (h : FileAt v C k i o) (hslot : slotOf fd = some i) :
    (fat16GetFirstCluster (openEntry k fd)).toInt = C.start o.entry :=
  congrArg BitVec.toInt (entry_fields fun _ hn => h.entry_eq hslot hn).2

/-! Closing. -/

/-- The blocks `l` are given back. -/
def freeAll (s : Kmem) (l : List ℕ) : Kmem := l.foldl (fun s c => kfree s (blockAddr c)) s

/-- They are allocations of one block each, all different. -/
structure Releasable (s : Kmem) (l : List ℕ) : Prop where
  block : ∀ c ∈ l, c < 25600 ∧ Pinned s.entries c 1
  nodup : l.Nodup

lemma Releasable.tail {c : ℕ} {l : List ℕ} (h : Releasable s (c :: l)) :
    Releasable (kfree s (blockAddr c)) l := by
  obtain ⟨hc, hpin⟩ := h.block c (by simp)
  refine ⟨fun c' hmem => ?_, (List.nodup_cons.1 h.nodup).2⟩
  obtain ⟨hc', hpin'⟩ := h.block c' (by simp [hmem])
  have hne : c ≠ c' := by
    rintro rfl
    exact (List.nodup_cons.1 h.nodup).1 hmem
  have hkept : KeepsRun c' 1 s (kfree s (blockAddr c)) :=
    keepsRun_kfree (hpin.droppable hc (by rw [Set.mem_Ico]; omega))
  exact ⟨hc', hkept.pinned hpin'⟩

/-- Another allocation stays. -/
lemma Releasable.keepsRun {l : List ℕ} (h : Releasable s l) (hout : ∀ c ∈ l, c ∉ Set.Ico b (b + n)) :
    KeepsRun b n s (freeAll s l) := by
  induction l generalizing s with
  | nil => exact KeepsRun.refl b n s
  | cons c l ih =>
    obtain ⟨hc, hpin⟩ := h.block c (by simp)
    have hfirst : KeepsRun b n s (kfree s (blockAddr c)) :=
      keepsRun_kfree (hpin.droppable hc (hout c (by simp)))
    exact hfirst.trans (ih h.tail fun c' hmem => hout c' (by simp [hmem]))

lemma TailFree.freeAll {c : ℕ} (h : TailFree s c) (l : List ℕ) : TailFree (freeAll s l) c := by
  induction l generalizing s with
  | nil => exact h
  | cons a l ih => exact ih (TailFree.kfree h _)

lemma fat16Close_file {fs : FatState} {s : Kmem} {fat item clone pos : Word}
    (hfat : fs.descriptors fat = ⟨item, pos⟩) (hitem : fs.items item = ⟨clone, .file⟩)
    (hfat_ne : fat ≠ 0#32) (hitem_ne : item ≠ 0#32) : ∃ accesses, fat16Close fs s fat =
      (0, { fs with accesses := accesses }, kfree (kfree (kfree s clone) item) fat) := by
  refine ⟨.freed item :: .freed clone :: .used item :: fs.accesses, ?_⟩
  simp [fat16Close, fat16FatItemFree, FatState.log, hfat_ne, hitem_ne, hfat, hitem]

/-- The four blocks of a file are released, and its slot is empty. -/
lemma FileAt.fclose_eq (h : FileAt v C k i o) (hserves : Serves fuel disk v) (hslot : slotOf fd = some i) :
    ∃ k', fclose v k fd = (0, k') ∧
      k'.kmem = kfree (kfree (kfree (kfree k.kmem (filePtr k i .clone)) (filePtr k i .item))
        (filePtr k i .fat)) (filePtr k i .desc) ∧
      k'.fileDescriptors = Function.update k.fileDescriptors i 0 ∧
      k'.fs.fsPrivate = k.fs.fsPrivate ∧ ∀ a, SameRecords k k' a := by
  obtain ⟨accesses, hclose⟩ := @fat16Close_file k.fs k.kmem _ _ _ _ h.fat h.item (h.ptr_ne .fat) (h.ptr_ne .item)
  have hcall := @fclose_desc FatState v k fd (filePtr k i .desc) (slotOf_get k hslot) (h.ptr_ne .desc)
  have hclosed : (v.filesystems v.filesystem).fsClose k.fs k.kmem (filePtr k i .fat) =
      (0, { k.fs with accesses := accesses }, kfree (kfree (kfree k.kmem (filePtr k i .clone))
        (filePtr k i .item)) (filePtr k i .fat)) := by
    rw [hserves.fat16]
    exact hclose
  dsimp only at hcall
  rw [h.desc] at hcall
  dsimp only at hcall
  rw [hclosed] at hcall
  dsimp only at hcall
  rw [if_pos rfl] at hcall
  have hindex : ((i : ℤ) + 1) - 1 = i := by omega
  refine ⟨_, hcall, rfl, ?_, rfl, fun a => ⟨rfl, rfl, rfl⟩⟩
  funext i'
  change (if (i' : ℤ) = (k.descriptors (filePtr k i .desc)).index - 1 then 0 else k.fileDescriptors i') = _
  rw [h.desc, hindex]
  by_cases heq : i' = i
  · subst heq
    rw [if_pos rfl, Function.update_self]
  · rw [Function.update_of_ne heq, if_neg]
    intro hsame
    exact heq (Fin.ext (by exact_mod_cast hsame))

/-- The blocks of a file, as they are given back. -/
def Role.list (c : Role → ℕ) : List ℕ := [c .clone, c .item, c .fat, c .desc]

lemma Role.mem_list {c : Role → ℕ} {a : ℕ} : a ∈ Role.list c ↔ ∃ r, a = c r := by
  constructor
  · intro h
    simp only [Role.list, List.mem_cons, List.not_mem_nil, or_false] at h
    rcases h with h | h | h | h
    · exact ⟨.clone, h⟩
    · exact ⟨.item, h⟩
    · exact ⟨.fat, h⟩
    · exact ⟨.desc, h⟩
  · rintro ⟨r, rfl⟩
    cases r <;> simp [Role.list]

lemma Role.nodup_list {c : Role → ℕ} (h : Function.Injective c) : (Role.list c).Nodup := by
  simp [Role.list, h.eq_iff]

/-- A file that is closed leaves the table, and the others stay. Only its own blocks are released. -/
lemma Holds.closes (h : Holds fuel disk v p C b m k T) (hserves : Serves fuel disk v)
    (hT : T i = some o) (hslot : slotOf fd = some i) : ∃ k', fclose v k fd = (0, k') ∧
      Holds fuel disk v p C b m k' (Function.update T i none) ∧
      (∀ b' n', (∀ r, ∀ c < 25600, filePtr k i r = blockAddr c → c ∉ Set.Ico b' (b' + n')) →
        KeepsRun b' n' k.kmem k'.kmem) ∧ ∀ c, TailFree k.kmem c → TailFree k'.kmem c := by
  have hi : T i ≠ none := by simp [hT]
  have hfile := h.file i o hT
  obtain ⟨k', hclose, hkmem, hslots, hsame, hrecords⟩ := hfile.fclose_eq hserves hslot
  choose c hc haddr hpin using hfile.block
  have hinjective : Function.Injective c := by
    intro r r' heq
    exact (h.distinct i i r r' hi hi (by rw [haddr, haddr, heq])).2
  have hreleased : k'.kmem = freeAll k.kmem (Role.list c) := by
    rw [hkmem, haddr, haddr, haddr, haddr]
    rfl
  have hfree : Releasable k.kmem (Role.list c) := by
    refine ⟨fun a ha => ?_, Role.nodup_list hinjective⟩
    obtain ⟨r, rfl⟩ := Role.mem_list.1 ha
    exact ⟨hc r, hpin r⟩
  have hother : ∀ i', Function.update T i none i' ≠ none → i' ≠ i ∧ T i' ≠ none := by
    intro i' hi'
    by_cases heq : i' = i
    · simp [heq] at hi'
    · rw [Function.update_of_ne heq] at hi'
      exact ⟨heq, hi'⟩
  have hothers : ∀ b' n', (∀ r, ∀ c < 25600, filePtr k i r = blockAddr c → c ∉ Set.Ico b' (b' + n')) →
      KeepsRun b' n' k.kmem k'.kmem := by
    intro b' n' hout
    rw [hreleased]
    apply hfree.keepsRun
    intro a ha
    obtain ⟨r, rfl⟩ := Role.mem_list.1 ha
    exact hout r (c r) (hc r) (haddr r)
  have hroot : KeepsRun b m k.kmem k'.kmem := hothers b m fun r c hc haddr => h.apart i r c hi hc haddr
  have hkept : FilesKept k k' b m (Function.update T i none) := by
    refine ⟨hroot, fun i' hi' => ?_, fun i' _ r => hrecords _, fun i' hi' r a ha haddr' => ?_⟩
    · rw [hslots, Function.update_of_ne (hother i' hi').1]
    · apply hothers
      intro r' c' hc' hptr
      have hne : c' ≠ a := by
        rintro rfl
        exact (hother i' hi').1 (h.distinct i' i r r' (hother i' hi').2 hi (haddr'.trans hptr.symm)).1
      rw [Set.mem_Ico]
      omega
  -- without the slot the table is held before the call, up to the empty slot
  refine ⟨k', hclose, ⟨?_, h.directory.keeps hroot, fun i' o' ho' => ?_, fun i' hi' => ?_,
    fun i₁ i₂ r r' h₁ h₂ heq => ?_, fun i' r a hi' ha heq => ?_⟩, hothers,
    fun c htail => by rw [hreleased]; exact TailFree.freeAll htail _⟩
  · rw [hsame]
    exact h.streamed
  · have hi' : Function.update T i none i' ≠ none := by simp [ho']
    rw [Function.update_of_ne (hother i' hi').1] at ho'
    exact (h.file i' o' ho').keeps (hkept.slots i' hi') (hkept.records i' hi') (hkept.blocks i' hi')
  · rw [hslots]
    by_cases heq : i' = i
    · rw [heq, Function.update_self]
    · rw [Function.update_of_ne heq] at hi' ⊢
      exact h.closed i' hi'
  · rw [hkept.filePtr_eq h₁, hkept.filePtr_eq h₂] at heq
    exact h.distinct i₁ i₂ r r' (hother i₁ h₁).2 (hother i₂ h₂).2 heq
  · rw [hkept.filePtr_eq hi'] at heq
    exact h.apart i' r a (hother i' hi').2 ha heq

/-! Calls that keep the files open. -/

lemma Table.update_ne_none {i' : Fin maxFiledescriptors} {o' : OpenEntry} (hT : T i = some o)
    (h : Function.update T i (some o') i' ≠ none) : T i' ≠ none := by
  by_cases heq : i' = i
  · simp [heq, hT]
  · rwa [Function.update_of_ne heq] at h

/-- One open file may change, when its pointers stay. -/
lemma Holds.changes (h : Holds fuel disk v p C b m k T) (hT : T i = some o) {o' : OpenEntry}
    (hfile : FileAt v C k' i o') (hptr : ∀ r, filePtr k' i r = filePtr k i r)
    (hkept : FilesKept k k' b m (Function.update T i none)) (hstreamed : Streamed disk p k'.fs.fsPrivate)
    (hclosed : ∀ i', T i' = none → k'.fileDescriptors i' = 0) :
    Holds fuel disk v p C b m k' (Function.update T i (some o')) := by
  have hsome := fun i' => @Table.update_ne_none T i o i' o' hT
  have hptrs : ∀ i' r, Function.update T i (some o') i' ≠ none → filePtr k' i' r = filePtr k i' r := by
    intro i' r hi'
    by_cases heq : i' = i
    · rw [heq, hptr]
    · exact hkept.filePtr_eq (by rw [Function.update_of_ne heq] at hi' ⊢; exact hi') r
  refine ⟨hstreamed, h.directory.keeps hkept.root, fun i' o'' ho => ?_, fun i' hi' => ?_,
    fun i₁ i₂ r r' h₁ h₂ heq => ?_, fun i' r c hi' hc heq => ?_⟩
  · by_cases heq : i' = i
    · subst heq
      rw [Function.update_self, Option.some.injEq] at ho
      rwa [← ho]
    · rw [Function.update_of_ne heq] at ho
      have hi' : Function.update T i none i' ≠ none := by
        simp [Function.update_of_ne heq, ho]
      exact (h.file i' o'' ho).keeps (hkept.slots i' hi') (hkept.records i' hi') (hkept.blocks i' hi')
  · by_cases heq : i' = i
    · simp [heq] at hi'
    · rw [Function.update_of_ne heq] at hi'
      exact hclosed i' hi'
  · rw [hptrs i₁ r h₁, hptrs i₂ r' h₂] at heq
    exact h.distinct i₁ i₂ r r' (hsome i₁ h₁) (hsome i₂ h₂) heq
  · rw [hptrs i' r hi'] at heq
    exact h.apart i' r c (hsome i' hi') hc heq

/-- What a seek makes of an open file of this size: the result and the file. -/
def OpenEntry.seek (o : OpenEntry) (size : Word) (offset : ℤ) (whence : Word) : ℤ × OpenEntry :=
  if size.toNat ≤ (BitVec.ofInt 32 offset).toNat then (-eio, o)
  else if whence = seekSet then (0, { o with pos := BitVec.ofInt 32 offset })
  else if whence = seekEnd then (-eunimp, o)
  else if whence = seekCur then (0, { o with pos := o.pos + BitVec.ofInt 32 offset })
  else (-einvarg, o)

lemma FileAt.fseek_eq (h : FileAt v C k i o) (hserves : Serves fuel disk v) (hslot : slotOf fd = some i)
    (offset : ℤ) (whence : Word) :
    ∃ k', fseek v k fd offset whence = ((o.seek (C.size o.entry) offset whence).1, k') ∧
      (k' = k ∧ (o.seek (C.size o.entry) offset whence).2 = o ∨
        k' = moveTo k fd (o.seek (C.size o.entry) offset whence).2.pos ∧
        (o.seek (C.size o.entry) offset whence).2.entry = o.entry) := by
  have hopen := h.isOpen hslot hserves
  have hsize := h.size_eq hslot
  have hpos := h.position_eq hslot
  have hregular : (k.fs.items (k.fs.descriptors (privateData k fd)).item).type = .file := hopen.regular
  have hsize' : FatDirectoryItem.fileSize (pointer k.kmem.mem
      (k.fs.items (k.fs.descriptors (privateData k fd)).item).item) = C.size o.entry := hsize
  rw [hopen.fseek_eq]
  have hpos' : (k.fs.descriptors (privateData k fd)).pos = o.pos := hpos
  simp only [fat16Seek, hregular, ne_eq, not_true_eq_false, if_false, hsize', OpenEntry.seek, ge_iff_le,
    hpos']
  by_cases hbehind : (C.size o.entry).toNat ≤ (BitVec.ofInt 32 offset).toNat
  · simp only [if_pos hbehind]
    exact ⟨_, rfl, .inl ⟨rfl, trivial⟩⟩
  simp only [if_neg hbehind]
  by_cases hset : whence = seekSet
  · simp only [if_pos hset]
    exact ⟨_, rfl, .inr ⟨rfl, trivial⟩⟩
  simp only [if_neg hset]
  by_cases hend : whence = seekEnd
  · simp only [if_pos hend]
    exact ⟨_, rfl, .inl ⟨rfl, trivial⟩⟩
  simp only [if_neg hend]
  by_cases hcur : whence = seekCur
  · simp only [if_pos hcur]
    exact ⟨_, rfl, .inr ⟨rfl, trivial⟩⟩
  · simp only [if_neg hcur]
    exact ⟨_, rfl, .inl ⟨rfl, trivial⟩⟩

/-- A file whose position is moved. -/
lemma Holds.moves (h : Holds fuel disk v p C b m k T) (hT : T i = some o) (hslot : slotOf fd = some i)
    (pos : Word) :
    Holds fuel disk v p C b m (moveTo k fd pos) (Function.update T i (some { o with pos := pos })) := by
  have hi : T i ≠ none := by simp [hT]
  have hfile := h.file i o hT
  have hfat : privateData k fd = filePtr k i .fat := slotOf_privateData k hslot
  have hother : ∀ a, a ≠ filePtr k i .fat → SameRecords k (moveTo k fd pos) a := by
    intro a ha
    refine ⟨rfl, ?_, rfl⟩
    change Function.update k.fs.descriptors (privateData k fd) _ a = _
    rw [hfat, Function.update_of_ne ha]
  have hself : (moveTo k fd pos).fs.descriptors (filePtr k i .fat) = ⟨filePtr k i .item, pos⟩ := by
    change Function.update k.fs.descriptors (privateData k fd) _ _ = _
    rw [hfat, Function.update_self, hfile.fat]
  have hptr : ∀ r, filePtr (moveTo k fd pos) i r = filePtr k i r := by
    have hitem : filePtr (moveTo k fd pos) i .item = filePtr k i .item := by
      rw [filePtr_item, show filePtr (moveTo k fd pos) i .fat = filePtr k i .fat from rfl, hself]
    intro r
    cases r with
    | desc => rfl
    | fat => rfl
    | item => exact hitem
    | clone => rw [filePtr_clone, hitem]; rfl
  apply h.changes hT _ hptr _ h.streamed h.closed
  · exact ⟨fun r => by rw [hptr]; exact hfile.block r, hfile.counted, hfile.desc,
      by rw [hptr, hptr]; exact hself, by rw [hptr, hptr]; exact hfile.item,
      fun n hn => by rw [hptr]; exact hfile.bytes n hn⟩
  · refine ⟨KeepsRun.refl b m k.kmem, fun _ _ => rfl, fun i' hi' r => hother _ fun heq => ?_,
      fun _ _ _ c _ _ => KeepsRun.refl c 1 k.kmem⟩
    by_cases hne : i' = i
    · simp [hne] at hi'
    · rw [Function.update_of_ne hne] at hi'
      exact hne (h.distinct i' i r .fat hi' hi heq).1

lemma Holds.seeks (h : Holds fuel disk v p C b m k T) (hserves : Serves fuel disk v) (hT : T i = some o)
    (hslot : slotOf fd = some i) (offset : ℤ) (whence : Word) : ∃ k',
    fseek v k fd offset whence = ((o.seek (C.size o.entry) offset whence).1, k') ∧
      Holds fuel disk v p C b m k'
        (Function.update T i (some (o.seek (C.size o.entry) offset whence).2)) := by
  obtain ⟨k', hseek, hcases⟩ := (h.file i o hT).fseek_eq hserves hslot offset whence
  refine ⟨k', hseek, ?_⟩
  generalize o.seek (C.size o.entry) offset whence = r at hcases
  rcases hcases with ⟨rfl, hsame⟩ | ⟨rfl, hentry⟩
  · rw [hsame, ← hT, Function.update_eq_self]
    exact h
  · have hmoved := h.moves hT hslot r.2.pos
    rwa [← hentry] at hmoved

/-! Stores to memory. -/

/-- The pages of the open files and of the root directory. -/
def FilePage (b m : ℕ) (k : FileState FatState) (q : ℕ) : Prop :=
  (4096 + b ≤ q ∧ q < 4096 + (b + m)) ∨ ∃ i r c, k.fileDescriptors i ≠ 0 ∧ c < 25600 ∧
    filePtr k i r = blockAddr c ∧ q = 4096 + c

/-- A buffer lies apart from them. -/
def BufferApart (b m : ℕ) (k : FileState FatState) (a : Word) (n : ℕ) : Prop :=
  ∀ x, InRange a n x → ¬ FilePage b m k (pageOf x)

lemma Holds.slot_ne (h : Holds fuel disk v p C b m k T) (hi : T i ≠ none) : k.fileDescriptors i ≠ 0 := by
  obtain ⟨o, ho⟩ := h.file_some hi
  exact ho.ptr_ne .desc

/-- Of the files only the streams of the volume move, and memory changes in a buffer. -/
structure StoresIn (disk : Disk) (p : FatPrivate) (k k' : FileState FatState) (a : Word) (n : ℕ) : Prop where
  state : ∃ q mem, Streamed disk p q ∧ k' = k.withFs (k.fs.withPrivate q, k.kmem.withMem mem)
  frame : ∀ x, ¬ InRange a n x → k'.kmem.mem x = k.kmem.mem x

lemma StoresIn.of_eq {q : FatPrivate} {mem : Mem} {a : Word} (hstreamed : Streamed disk p q)
    (hframe : ∀ x, ¬ InRange a n x → mem x = k.kmem.mem x) :
    StoresIn disk p k (k.withFs (k.fs.withPrivate q, k.kmem.withMem mem)) a n :=
  ⟨⟨q, mem, hstreamed, rfl⟩, hframe⟩

/-- Such a call on a buffer apart from the files leaves them as they are. -/
lemma Holds.stores (h : Holds fuel disk v p C b m k T) {a : Word} (hstored : StoresIn disk p k k' a n)
    (hapart : BufferApart b m k a n) : Holds fuel disk v p C b m k' T := by
  obtain ⟨⟨q, mem, hstreamed, rfl⟩, hframe⟩ := hstored
  have hmem : ∀ x, FilePage b m k (pageOf x) → mem x = k.kmem.mem x := fun x hx =>
    hframe x fun hin => hapart x hin hx
  have hsame : ∀ c n, (∀ x, 4096 + c ≤ pageOf x → pageOf x < 4096 + (c + n) → FilePage b m k (pageOf x)) →
      KeepsRun c n k.kmem (k.kmem.withMem mem) := by
    intro c n hpages
    exact ⟨fun hs => hs, fun hpin => hpin, fun _ x hlow hhigh => hmem x (hpages x hlow hhigh)⟩
  have hkept : FilesKept k (k.withFs (k.fs.withPrivate q, k.kmem.withMem mem)) b m T := by
    refine ⟨hsame b m fun x hlow hhigh => .inl ⟨hlow, hhigh⟩, fun _ _ => rfl,
      fun _ _ _ => ⟨rfl, rfl, rfl⟩, fun i hi r c hc haddr => hsame c 1 fun x hlow hhigh => ?_⟩
    exact .inr ⟨i, r, c, h.slot_ne hi, hc, haddr, by omega⟩
  exact h.keeps hkept hstreamed h.closed

/-- The flags that `fstat` gives for an entry. -/
def Content.flags (C : Content) (i : ℕ) : Word :=
  if FatDirectoryItem.attributes (C.entry i) &&& fatFileReadOnly ≠ 0 then fileStatReadOnly else 0

/-- `fat16_stat` of a file stores its flags and its size. -/
lemma fat16Stat_file {fs : FatState} {descriptor stat item : Word}
    (htype : fs.items (fs.descriptors descriptor).item = ⟨item, .file⟩)
    (hapart : ¬ InRange stat 8 (item + 11)) : ∃ mem,
      fat16Stat fs s descriptor stat = (0, fs, s.withMem mem) ∧
      (∀ x, ¬ InRange stat 8 x → mem x = s.mem x) ∧
      read32 mem stat = (if FatDirectoryItem.attributes (pointer s.mem item) &&& fatFileReadOnly ≠ 0
        then fileStatReadOnly else 0) ∧
      read32 mem (stat + 4) = FatDirectoryItem.fileSize (pointer s.mem item) := by
  have hsplit := fun x => (inRange_split stat x (show 4 + 4 < 2 ^ 32 by omega)).1
  have hout : ∀ x, ¬ InRange stat 8 x → ¬ InRange stat 4 x ∧ ¬ InRange (stat + 4) 4 x := fun x hx =>
    ⟨fun hin => hx ((hsplit x).2 (.inl hin)), fun hin => hx ((hsplit x).2 (.inr hin))⟩
  have hattributes : FatDirectoryItem.attributes (pointer (write32 (write32 s.mem (stat + 4)
      (FatDirectoryItem.fileSize (pointer s.mem item))) stat 0) item) =
      FatDirectoryItem.attributes (pointer s.mem item) := by
    obtain ⟨hfirst, hlast⟩ := hout _ hapart
    change write32 (write32 _ _ _) _ _ (item + 11) = s.mem (item + 11)
    rw [write32, if_neg hfirst, write32, if_neg hlast]
  rw [fat16Stat, htype]
  dsimp only
  rw [if_neg (by simp), hattributes]
  by_cases hreadOnly : FatDirectoryItem.attributes (pointer s.mem item) &&& fatFileReadOnly ≠ 0
  · rw [if_pos hreadOnly, if_pos hreadOnly]
    refine ⟨_, rfl, fun x hx => ?_, ?_, ?_⟩
    · obtain ⟨hfirst, hlast⟩ := hout x hx
      simp only [write32, if_neg hfirst, if_neg hlast]
    · simp
    · rw [read32_write32_before, read32_write32_before, read32_write32]
  · rw [if_neg hreadOnly, if_neg hreadOnly]
    refine ⟨_, rfl, fun x hx => ?_, ?_, ?_⟩
    · obtain ⟨hfirst, hlast⟩ := hout x hx
      simp only [write32, if_neg hfirst, if_neg hlast]
    · simp
    · rw [read32_write32_before, read32_write32]

/-- A byte of the copy of an entry lies on a page of the files. -/
lemma Holds.clone_page (h : Holds fuel disk v p C b m k T) (hT : T i = some o) {n : ℕ}
    (hn : n < sizeofDirectoryItem) : FilePage b m k (pageOf (filePtr k i .clone + BitVec.ofNat 32 n)) := by
  obtain ⟨c, hc, haddr, -⟩ := (h.file i o hT).block .clone
  have hpage := pageOf_blockAddr_add hc (show n < 4096 by unfold sizeofDirectoryItem at hn; omega)
  refine .inr ⟨i, .clone, c, h.slot_ne (by simp [hT]), hc, haddr, ?_⟩
  rw [haddr, hpage]

/-- `fstat` gives the flags and the size of the entry. -/
lemma Holds.stats (h : Holds fuel disk v p C b m k T) (hserves : Serves fuel disk v) (hT : T i = some o)
    (hslot : slotOf fd = some i) {stat : Word} (hapart : BufferApart b m k stat 8) :
    ∃ k', fstat v k fd stat = (0, k') ∧ read32 k'.kmem.mem stat = C.flags o.entry ∧
      read32 k'.kmem.mem (stat + 4) = C.size o.entry ∧ StoresIn disk p k k' stat 8 := by
  have hfile := h.file i o hT
  have hopen := hfile.isOpen hslot hserves
  have hitem : k.fs.items (k.fs.descriptors (privateData k fd)).item = ⟨filePtr k i .clone, .file⟩ :=
    hfile.item_eq hslot
  obtain ⟨mem, hstat, hframe, hflags, hsize⟩ := @fat16Stat_file k.kmem k.fs _ stat _ hitem
    fun hin => hapart _ hin (h.clone_page hT (show 11 < sizeofDirectoryItem by decide))
  have hattributes : FatDirectoryItem.attributes (pointer k.kmem.mem (filePtr k i .clone)) =
      FatDirectoryItem.attributes (C.entry o.entry) :=
    hfile.bytes 11 (by decide)
  refine ⟨_, ?_, ?_, ?_, StoresIn.of_eq h.streamed hframe⟩
  · simp only [fstat, if_neg hopen.valid, hopen.served]
    exact congrArg (fun r : ℤ × FatState × Kmem => (r.1, k.withFs r.2)) hstat
  · rw [hattributes] at hflags
    exact hflags
  · have hfields := hfile.size_eq hslot
    rw [openEntry, hfile.item_eq hslot] at hfields
    exact hsize.trans hfields

end AlphaOS.Fat16
