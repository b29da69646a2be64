import AlphaOS.Fat16Resolve

/-! The union of `struct fat_item` in `fs/fat/fat16.c`: the file calls once more, with the members
as which they read it. -/
namespace AlphaOS.Fat16.Tagged
open CString Kheap Streamer WordMemory

/-- The type of the item and the member as which its union is read, `item` for a file. -/
structure UnionRead where
  type : FatItemType
  member : FatItemType

def readUnion (item : FatItem) (member : FatItemType) : Word × List UnionRead :=
  (item.item, [⟨item.type, member⟩])

variable (disk : Disk)

def fat16FatItemFree (k : FatState) (s : Kmem) (item : Word) : (FatState × Kmem) × List UnionRead :=
  if item = 0 then ((k, s), []) else
  let k := k.log (.used item)
  let r := match (k.items item).type with
    | .directory =>
      let directory := readUnion (k.items item) .directory
      (fat16FreeDirectory k s directory.1, directory.2)
    | .file =>
      let ritem := readUnion (k.items item) .file
      ((k.log (.freed ritem.1), kfree s ritem.1), ritem.2)
  ((r.1.1.log (.freed item), kfree r.1.2 item), r.2)

def fat16Close (k : FatState) (s : Kmem) (descriptor : Word) :
    (ℤ × FatState × Kmem) × List UnionRead :=
  if descriptor = 0 then ((0, k, s), []) else
  let item := (k.descriptors descriptor).item
  let r := if item ≠ 0 then fat16FatItemFree k s item else ((k, s), [])
  ((0, r.1.1, kfree r.1.2 descriptor), r.2)

def fat16Stat (k : FatState) (s : Kmem) (descriptor stat : Word) :
    (ℤ × FatState × Kmem) × List UnionRead :=
  let item := k.items (k.descriptors descriptor).item
  if item.type ≠ .file then ((-einvarg, k, s), []) else
  let ritem := readUnion item .file
  let mem := write32 s.mem (stat + 4) (FatDirectoryItem.fileSize (pointer s.mem ritem.1))
  let mem := write32 mem stat 0
  let mem := if FatDirectoryItem.attributes (pointer mem ritem.1) &&& fatFileReadOnly ≠ 0 then
    write32 mem stat (read32 mem stat ||| fileStatReadOnly) else mem
  ((0, k, s.withMem mem), ritem.2)

/-- There is no test of the type. -/
def fat16Read (k : FatState) (s : Kmem) (descriptor size nmemb out : Word) :
    Option (ℤ × FatState × Kmem) × List UnionRead :=
  let fatDesc := k.descriptors descriptor
  let item := readUnion (k.items fatDesc.item) .file
  ((fat16ReadLoop disk size item.1 nmemb.toNat k.fsPrivate s.mem fatDesc.pos out).map fun r =>
    (if r.1 < 0 then r.1 else nmemb.toInt, k.withPrivate r.2.1, s.withMem r.2.2), item.2)

def fat16Seek (k : FatState) (s : Kmem) (descriptor offset seekMode : Word) :
    (ℤ × FatState × Kmem) × List UnionRead :=
  let desc := k.descriptors descriptor
  let descItem := k.items desc.item
  if descItem.type ≠ .file then ((-einvarg, k, s), []) else
  let ritem := readUnion descItem .file
  if offset.toNat ≥ (FatDirectoryItem.fileSize (pointer s.mem ritem.1)).toNat then
    ((-eio, k, s), ritem.2) else
  if seekMode = seekSet then ((0, k.setDescriptor descriptor { desc with pos := offset }, s), ritem.2) else
  if seekMode = seekEnd then ((-eunimp, k, s), ritem.2) else
  if seekMode = seekCur then
    ((0, k.setDescriptor descriptor { desc with pos := desc.pos + offset }, s), ritem.2)
  else ((-einvarg, k, s), ritem.2)

/-! Without the reads these are the calls of the other modules. -/

variable {disk : Disk} {k k' : FatState} {s s' : Kmem} {descriptor : Word}

lemma fat16FatItemFree_fst (k : FatState) (s : Kmem) (item : Word) :
    (fat16FatItemFree k s item).1 = Fat16.fat16FatItemFree k s item := by
  unfold fat16FatItemFree Fat16.fat16FatItemFree
  dsimp only
  split_ifs
  · rfl
  · generalize (k.log (.used item)).items item = record
    obtain ⟨ptr, type⟩ := record
    cases type <;> rfl

lemma fat16Close_fst (k : FatState) (s : Kmem) (descriptor : Word) :
    (fat16Close k s descriptor).1 = Fat16.fat16Close k s descriptor := by
  have hfree := fat16FatItemFree_fst k s (k.descriptors descriptor).item
  unfold fat16Close Fat16.fat16Close
  dsimp only
  split_ifs
  · rfl
  · dsimp only
    rw [hfree]
  · rfl

lemma fat16Stat_fst (k : FatState) (s : Kmem) (descriptor stat : Word) :
    (fat16Stat k s descriptor stat).1 = Fat16.fat16Stat k s descriptor stat := by
  unfold fat16Stat Fat16.fat16Stat
  dsimp only
  by_cases htype : (k.items (k.descriptors descriptor).item).type ≠ .file
  · rw [if_pos htype, if_pos htype]
  · rw [if_neg htype, if_neg htype]
    rfl

lemma fat16Read_fst (k : FatState) (s : Kmem) (descriptor size nmemb out : Word) :
    (fat16Read disk k s descriptor size nmemb out).1 =
      Fat16.fat16Read disk k s descriptor size nmemb out := rfl

lemma fat16Seek_fst (k : FatState) (s : Kmem) (descriptor offset seekMode : Word) :
    (fat16Seek k s descriptor offset seekMode).1 = Fat16.fat16Seek k s descriptor offset seekMode := by
  unfold fat16Seek Fat16.fat16Seek
  dsimp only [readUnion]
  split_ifs <;> rfl

/-! Calls on one descriptor. -/

inductive Operation
  | read (size nmemb out : Word)
  | seek (offset seekMode : Word)
  | stat (stat : Word)
  | close

def Operation.isRead : Operation → Bool
  | .read _ _ _ => true
  | _ => false

/-- All but the close are meant for files. -/
def Operation.forFiles : Operation → Bool
  | .close => false
  | _ => true

/-- What is seen of a call. One that does not return has no result. -/
structure Event where
  op : Operation
  res : Option ℤ
  reads : List UnionRead

variable (disk) (descriptor) in
/-- The call and the state it leaves, if it returns. -/
def perform (k : FatState) (s : Kmem) : Operation → Option (ℤ × FatState × Kmem) × List UnionRead
  | .read size nmemb out => fat16Read disk k s descriptor size nmemb out
  | .seek offset seekMode =>
    let r := fat16Seek k s descriptor offset seekMode
    (some r.1, r.2)
  | .stat stat =>
    let r := fat16Stat k s descriptor stat
    (some r.1, r.2)
  | .close =>
    let r := fat16Close k s descriptor
    (some r.1, r.2)

variable (disk) (descriptor) in
/-- The calls up to the first that does not return. -/
def run : List Operation → FatState → Kmem → List Event
  | [], _, _ => []
  | op :: ops, k, s =>
    let r := perform disk descriptor k s op
    ⟨op, r.1.map fun x => x.1, r.2⟩ :: r.1.elim [] fun x => run ops x.2.1 x.2.2

/-- The item of the descriptor. -/
def itemOf (k : FatState) (descriptor : Word) : FatItem := k.items (k.descriptors descriptor).item

/-- The union is read as its type has it, and no operation for files returns anything but an error
on a directory. -/
def KeepsToType (type : FatItemType) (e : Event) : Prop :=
  (∀ r ∈ e.reads, r.member = r.type) ∧
  (type = .directory → e.op.forFiles → ∃ res < 0, e.res = some res)

lemma fat16FreeDirectory_records (k : FatState) (s : Kmem) (directory : Word) :
    (fat16FreeDirectory k s directory).1.items = k.items ∧
    (fat16FreeDirectory k s directory).1.descriptors = k.descriptors := by
  unfold fat16FreeDirectory
  dsimp only
  split_ifs <;> exact ⟨rfl, rfl⟩

lemma fat16FatItemFree_records (k : FatState) (s : Kmem) (item : Word) :
    (Fat16.fat16FatItemFree k s item).1.items = k.items ∧
    (Fat16.fat16FatItemFree k s item).1.descriptors = k.descriptors := by
  unfold Fat16.fat16FatItemFree
  dsimp only
  split_ifs
  · exact ⟨rfl, rfl⟩
  · generalize (k.log (.used item)).items item = record
    obtain ⟨ptr, type⟩ := record
    cases type with
    | directory => exact fat16FreeDirectory_records (k.log (.used item)) s ptr
    | file => exact ⟨rfl, rfl⟩

/-- A call leaves the descriptor its item, and the item what it is. -/
lemma perform_itemOf {op : Operation} {res : ℤ}
    (h : (perform disk descriptor k s op).1 = some (res, k', s')) :
    itemOf k' descriptor = itemOf k descriptor := by
  cases op with
  | read size nmemb out =>
    obtain ⟨r, -, hr⟩ := Option.map_eq_some_iff.1 h
    cases hr
    rfl
  | seek offset seekMode =>
    have hseek : (fat16Seek k s descriptor offset seekMode).1 = (res, k', s') := Option.some.inj h
    rw [fat16Seek_fst] at hseek
    unfold Fat16.fat16Seek at hseek
    dsimp only at hseek
    split_ifs at hseek
    all_goals
      cases hseek
      simp [itemOf, FatState.setDescriptor]
  | stat stat =>
    have hstat : (fat16Stat k s descriptor stat).1 = (res, k', s') := Option.some.inj h
    rw [fat16Stat_fst] at hstat
    unfold Fat16.fat16Stat at hstat
    dsimp only at hstat
    split_ifs at hstat
    all_goals
      cases hstat
      rfl
  | close =>
    have hclose : (fat16Close k s descriptor).1 = (res, k', s') := Option.some.inj h
    rw [fat16Close_fst] at hclose
    obtain ⟨hitems, hdescriptors⟩ := fat16FatItemFree_records k s (k.descriptors descriptor).item
    unfold Fat16.fat16Close at hclose
    dsimp only at hclose
    split_ifs at hclose
    · cases hclose
      rfl
    · cases hclose
      unfold itemOf
      rw [hitems, hdescriptors]
    · cases hclose
      rfl

lemma readUnion_keeps (item : FatItem) : ∀ r ∈ (readUnion item item.type).2, r.member = r.type := by
  intro r hr
  cases List.mem_singleton.1 hr
  rfl

/-- A close reads the union by the type. -/
lemma fat16Close_reads (k : FatState) (s : Kmem) (descriptor : Word) :
    ∀ r ∈ (fat16Close k s descriptor).2, r.member = r.type := by
  unfold fat16Close
  dsimp only
  split_ifs
  · exact fun r hr => absurd hr List.not_mem_nil
  · unfold fat16FatItemFree
    dsimp only
    split_ifs
    · exact fun r hr => absurd hr List.not_mem_nil
    · generalize hrecord : (k.log (.used (k.descriptors descriptor).item)).items _ = record
      obtain ⟨ptr, type⟩ := record
      cases type with
      | directory => exact readUnion_keeps ⟨ptr, .directory⟩
      | file => exact readUnion_keeps ⟨ptr, .file⟩
  · exact fun r hr => absurd hr List.not_mem_nil

/-- A seek and a stat test the type first. -/
lemma fat16Seek_keeps (k : FatState) (s : Kmem) (descriptor offset seekMode : Word) :
    (∀ r ∈ (fat16Seek k s descriptor offset seekMode).2, r.member = r.type) ∧
    ((itemOf k descriptor).type = .directory →
      (fat16Seek k s descriptor offset seekMode).1.1 = -einvarg) := by
  unfold fat16Seek itemOf
  dsimp only
  by_cases htype : (k.items (k.descriptors descriptor).item).type = .file
  · have hkeeps := readUnion_keeps (k.items (k.descriptors descriptor).item)
    rw [htype] at hkeeps
    refine ⟨?_, fun hdir => ?_⟩
    · rw [if_neg (not_not.2 htype)]
      split_ifs <;> exact hkeeps
    · rw [htype] at hdir
      cases hdir
  · rw [if_pos htype]
    exact ⟨fun r hr => absurd hr List.not_mem_nil, fun _ => rfl⟩

lemma fat16Stat_keeps (k : FatState) (s : Kmem) (descriptor stat : Word) :
    (∀ r ∈ (fat16Stat k s descriptor stat).2, r.member = r.type) ∧
    ((itemOf k descriptor).type = .directory → (fat16Stat k s descriptor stat).1.1 = -einvarg) := by
  unfold fat16Stat itemOf
  dsimp only
  by_cases htype : (k.items (k.descriptors descriptor).item).type = .file
  · have hkeeps := readUnion_keeps (k.items (k.descriptors descriptor).item)
    rw [htype] at hkeeps
    rw [if_neg (not_not.2 htype)]
    refine ⟨hkeeps, fun hdir => ?_⟩
    rw [htype] at hdir
    cases hdir
  · rw [if_pos htype]
    exact ⟨fun r hr => absurd hr List.not_mem_nil, fun _ => rfl⟩

/-- A single call keeps to the type unless it is a read of a directory. -/
lemma perform_keeps (op : Operation) :
    KeepsToType (itemOf k descriptor).type ⟨op, (perform disk descriptor k s op).1.map fun x => x.1,
      (perform disk descriptor k s op).2⟩ ↔
      (itemOf k descriptor).type = .file ∨ op.isRead = false := by
  cases op with
  | read size nmemb out =>
    constructor
    · rintro ⟨hreads, -⟩
      exact .inl (hreads ⟨(itemOf k descriptor).type, .file⟩ (List.mem_singleton.2 rfl)).symm
    · rintro (hfile | hread)
      · refine ⟨fun r hr => ?_, fun hdir => ?_⟩
        · cases List.mem_singleton.1 hr
          exact hfile.symm
        · rw [hfile] at hdir
          cases hdir
      · cases hread
  | seek offset seekMode =>
    obtain ⟨hreads, hres⟩ := fat16Seek_keeps k s descriptor offset seekMode
    exact iff_of_true ⟨hreads, fun hdir _ => ⟨_, by decide, congrArg some (hres hdir)⟩⟩ (.inr rfl)
  | stat stat =>
    obtain ⟨hreads, hres⟩ := fat16Stat_keeps k s descriptor stat
    exact iff_of_true ⟨hreads, fun hdir _ => ⟨_, by decide, congrArg some (hres hdir)⟩⟩ (.inr rfl)
  | close =>
    refine iff_of_true ⟨fat16Close_reads k s descriptor, fun _ hfor => ?_⟩ (.inr rfl)
    cases hfor

/-- All calls but a read return. -/
lemma perform_returns {op : Operation} (h : op.isRead = false) :
    ∃ x, (perform disk descriptor k s op).1 = some x := by
  cases op with
  | read size nmemb out => cases h
  | seek offset seekMode => exact ⟨_, rfl⟩
  | stat stat => exact ⟨_, rfl⟩
  | close => exact ⟨_, rfl⟩

/-- So do the calls of a sequence, exactly when there is no read of a directory among them. -/
lemma run_keeps (ops : List Operation) (k : FatState) (s : Kmem) :
    (∀ e ∈ run disk descriptor ops k s, KeepsToType (itemOf k descriptor).type e) ↔
      (itemOf k descriptor).type = .file ∨ ∀ op ∈ ops, op.isRead = false := by
  induction ops generalizing k s with
  | nil =>
    exact iff_of_true (fun e he => absurd he List.not_mem_nil)
      (.inr fun op hop => absurd hop List.not_mem_nil)
  | cons op ops ih =>
    have hfirst := @perform_keeps disk k s descriptor op
    rw [run, List.forall_mem_cons, List.forall_mem_cons, hfirst]
    cases hcall : (perform disk descriptor k s op).1 with
    | none =>
      refine ⟨fun h => h.1.imp_right fun hread => ?_, fun h => ⟨h.imp_right And.left, ?_⟩⟩
      · obtain ⟨x, hx⟩ := @perform_returns disk k s descriptor op hread
        rw [hcall] at hx
        cases hx
      · exact fun e he => absurd he List.not_mem_nil
    | some x =>
      obtain ⟨res, k', s'⟩ := x
      have hrest := ih k' s'
      rw [perform_itemOf hcall] at hrest
      dsimp only [Option.elim_some]
      rw [hrest]
      tauto

/-! The item of an open file or directory. -/

variable {fuel : ℕ}

/-- The item is as `fat16_new_fat_item_for_directory_item` made it of a directory entry. -/
def Made (fuel : ℕ) (disk : Disk) (k : FatState) (item : Word) : Prop :=
  ∃ k₁ s₁ entry r, fat16NewFatItemForDirectoryItem fuel disk k₁ s₁ entry = some r ∧ r.1 = item ∧
    k.items item = r.2.1.items item ∧ ((k.items item).type = .directory ↔
      FatDirectoryItem.attributes (pointer (kzalloc s₁ 8).2.mem entry) &&& fatFileSubdirectory ≠ 0)

lemma made_new {entry : Word} {r : Word × FatState × Kmem}
    (h : fat16NewFatItemForDirectoryItem fuel disk k s entry = some r) (hne : r.1 ≠ 0) :
    Made fuel disk r.2.1 r.1 := by
  refine ⟨k, s, entry, r, h, rfl, rfl, ?_⟩
  unfold fat16NewFatItemForDirectoryItem at h
  dsimp only at h
  split_ifs at h with hnull hattributes
  · cases h
    exact absurd rfl hne
  · obtain ⟨directory, -, rfl⟩ := Option.map_eq_some_iff.1 h
    refine iff_of_true ?_ hattributes
    simp [FatState.setItem]
  · generalize fat16CloneDirectoryItem _ _ entry sizeofDirectoryItem = clone at h
    cases h
    refine iff_of_false ?_ hattributes
    simp [FatState.setItem]

lemma findItemLoop_made {directory : FatDirectory} {name : ℤ → Byte} {n i : ℕ} {fItem : Word}
    {r : Word × FatState × Kmem} (hbefore : fItem ≠ 0 → Made fuel disk k fItem)
    (h : findItemLoop fuel disk directory name n i k s fItem = some r) (hne : r.1 ≠ 0) :
    Made fuel disk r.2.1 r.1 := by
  induction n generalizing i k s fItem with
  | zero =>
    cases h
    exact hbefore hne
  | succ n ih =>
    obtain ⟨found, -, hrest⟩ := Option.bind_eq_some_iff.1 h
    cases found with
    | false => exact ih hbefore hrest
    | true =>
      obtain ⟨r', hnew, hrest'⟩ := Option.bind_eq_some_iff.1 hrest
      exact ih (fun hnull => made_new hnew hnull) hrest'

lemma directoryEntryLoop_made {path : List (ℤ → Byte)} {item : Word} {r : Word × FatState × Kmem}
    (hbefore : item ≠ 0 → Made fuel disk k item)
    (h : directoryEntryLoop fuel disk path k s item = some r) (hne : r.1 ≠ 0) :
    Made fuel disk r.2.1 r.1 := by
  induction path generalizing k s item with
  | nil =>
    cases h
    exact hbefore hne
  | cons part path ih =>
    rw [directoryEntryLoop] at h
    dsimp only at h
    split_ifs at h
    · cases h
      exact absurd rfl hne
    · obtain ⟨tmp, hfind, hrest⟩ := Option.bind_eq_some_iff.1 h
      refine ih (fun hnull => ?_) hrest
      obtain ⟨k₁, s₁, entry, r', hnew, hitem, hrecord, htype⟩ :=
        findItemLoop_made (fun hzero => absurd rfl hzero) hfind hnull
      rw [← (fat16FatItemFree_records tmp.2.1 tmp.2.2 item).1] at hrecord htype
      exact ⟨k₁, s₁, entry, r', hnew, hitem, hrecord, htype⟩

/-- An open file or directory has an item with the type of its entry. -/
lemma fat16Open_made {path : Word} {mode : Files.FileMode}
    (h : fat16Open fuel disk k s path mode = some (descriptor, k', s'))
    (hok : Tasks.isErr descriptor = false) :
    Made fuel disk k' (k'.descriptors descriptor).item := by
  unfold fat16Open at h
  dsimp only at h
  split_ifs at h with hmode hnull
  · cases h
    exact absurd hok (by decide)
  · cases h
    exact absurd hok (by decide)
  · obtain ⟨next, -, hentry⟩ := Option.bind_eq_some_iff.1 h
    obtain ⟨item, hwalk, hend⟩ := Option.map_eq_some_iff.1 hentry
    split_ifs at hend with hzero
    · cases hend
      exact absurd hok (by decide)
    · cases hend
      have hmade : Made fuel disk item.2.1 item.1 := by
        obtain ⟨root, hfind, hrest⟩ := Option.bind_eq_some_iff.1 hwalk
        split_ifs at hrest with hroot
        · cases hrest
          exact absurd rfl hzero
        · exact directoryEntryLoop_made
            (fun hne => findItemLoop_made (fun hnone => absurd rfl hnone) hfind hne) hrest hzero
      simp only [FatState.setDescriptor, Function.update_self]
      exact hmade

/-- On a descriptor that was opened all calls keep to the type of its item, which is the one of its
directory entry, exactly when none of them reads a directory. -/
theorem opened_keepsToType {path : Word} {mode : Files.FileMode}
    (h : fat16Open fuel disk k s path mode = some (descriptor, k', s'))
    (hok : Tasks.isErr descriptor = false) :
    Made fuel disk k' (k'.descriptors descriptor).item ∧
    ∀ ops : List Operation,
      (∀ e ∈ run disk descriptor ops k' s', KeepsToType (itemOf k' descriptor).type e) ↔
        (itemOf k' descriptor).type = .file ∨ ∀ op ∈ ops, op.isRead = false :=
  ⟨fat16Open_made h hok, fun ops => run_keeps ops k' s'⟩

/-! An open directory. -/

/-- From the start of an item a read of one byte succeeds, also where the item is a directory. -/
lemma fat16Read_oneByte (hready : Ready disk k.fsPrivate) (hpos : (k.descriptors descriptor).pos = 0)
    (out : Word) : ∃ r, Fat16.fat16Read disk k s descriptor 1 1 out = some (1, r) := by
  generalize hitem : (k.items (k.descriptors descriptor).item).item = item
  have hnonneg := fat16GetFirstCluster_nonneg (pointer s.mem item)
  have hc := sizeOfClusterBytes_pos disk hready.sectors
  obtain ⟨res, p', mem', hread, -, -, hle, hiff⟩ := @fat16ReadInternal_chained disk k.fsPrivate
    k.fsPrivate (fat16GetFirstCluster (pointer s.mem item)).toInt 0 1 hready.table hready.sectors
    (streamed_refl hready.table hready.clusters) (by decide) s.mem out
  have hzero : res = 0 := by
    refine le_antisymm hle (hiff.2 fun q hq => ?_)
    have hq0 : q = 0 := by
      rcases hq with h0 | hlt
      · exact h0
      · by_contra hne
        have hmul : sizeOfClusterBytes disk k.fsPrivate ≤ q * sizeOfClusterBytes disk k.fsPrivate :=
          le_mul_of_one_le_left hc.le (by omega)
        omega
    subst hq0
    rw [(clusterFor_eq disk hready.sectors _ _).2]
    simpa [clusterLoop] using hnonneg
  subst hzero
  unfold Fat16.fat16Read
  dsimp only
  rw [hitem, hpos]
  have hone : (1 : Word).toNat = 1 := rfl
  rw [hone, fat16ReadLoop]
  change ∃ r, ((fat16ReadInternal disk k.fsPrivate _ 0 1 s.mem out).bind _).map _ = some (1, r)
  rw [hread]
  exact ⟨_, rfl⟩

/-- A disk whose root directory has the empty directory A, in cluster 2. -/
def oneDirectoryDisk : Disk where
  addr := 0x200000
  sector s i :=
    if s = 0 then bootByte i
    else if s = 3 ∧ i = 0 then 0x41
    else if s = 3 ∧ 0 < i ∧ i < 11 then space
    else if s = 3 ∧ i = 11 then fatFileSubdirectory
    else if s = 3 ∧ i = 26 then 2
    else 0

/-- Its root directory, at sector 3. -/
def oneDirectory : Content where
  entry i j := oneDirectoryDisk.byte (1536 + (sizeofDirectoryItem * i + j))
  stop := 1
  before := by decide
  terminator := by decide
  counted i := oneDirectoryDisk.byte (1536 + (sizeofDirectoryItem * i + 0))
  countStop := 1
  counted_before := by decide
  counted_terminator := by decide

lemma oneDirectory_named : HasName 100 (oneDirectory.entry 0) lowerA := by
  have hname : (fat16GetFullRelativeFilename 100 (oneDirectory.entry 0) (fun _ => 0)
      maxPathLength).map (fun r => istrncmp r.out lowerA maxPathLength) = some 0 := by
    decide +kernel
  exact Option.map_eq_some_iff.1 hname

/-- The directory opens. -/
lemma oneDirectory_opens : ∃ k₀ s₀ descriptor k s,
    fat16Open 100 oneDirectoryDisk k₀ s₀ 0x1000 .read = some (descriptor, k, s) ∧
    Tasks.isErr descriptor = false ∧ (itemOf k descriptor).type = .directory ∧
    Ready oneDirectoryDisk k.fsPrivate ∧ (k.descriptors descriptor).pos = 0 := by
  obtain ⟨d, stream, s', -, hon, hroot, hfree, hlow, hending⟩ := @bootDisk_resolves oneDirectoryDisk
    oneDirectory 1 rfl (by decide) (fun _ => rfl) (fun _ _ => rfl) (by decide)
  have hready : Ready oneDirectoryDisk (resolvedPrivate oneDirectoryDisk d stream) :=
    ⟨⟨⟨_, rfl, rfl⟩, ⟨_, rfl, rfl⟩, by
      change oneDirectoryDisk.byte 13 ≠ 0
      decide⟩, stream, rfl, hon⟩
  have hsector : fat16ClusterToSector (resolvedPrivate oneDirectoryDisk d stream) 2 = 35 := by
    change d.endingSectorPos + (2 - 2) * _ = 35
    rw [hending]
    ring
  generalize resolvedPrivate oneDirectoryDisk d stream = p at hroot hready hsector
  obtain ⟨hdescriptor, hfree'⟩ := @FreeFrom.kzalloc s' 9 hfree (by decide) 8 (by decide)
  obtain ⟨hitem, -⟩ := @FreeFrom.kzalloc _ _ hfree' (by decide) 8 (by decide)
  have hroot₁ : RootLoaded oneDirectory p (kzalloc s' 8).2 5 := hroot.kzalloc (by decide)
  have hroot₂ : RootLoaded oneDirectory p (kzalloc (kzalloc s' 8).2 8).2 5 := hroot₁.kzalloc (by decide)
  have hroot₃ : RootLoaded oneDirectory p (kzalloc (kzalloc (kzalloc s' 8).2 8).2 16).2 5 :=
    hroot₂.kzalloc (by decide)
  have hcluster : (fat16GetFirstCluster (pointer (kzalloc (kzalloc (kzalloc s' 8).2 8).2 16).2.mem
      (p.rootDirectory.entry 0))).toInt = 2 := by
    rw [fat16GetFirstCluster_congr hroot₃.bytes]
    decide
  obtain ⟨stream', -, hcount⟩ := @fat16GetTotalItemsForDirectory_terminator 100 oneDirectoryDisk p 0
    hready.directory (BitVec.ofInt 32 35) (by decide) (by decide)
    (fun k hk => absurd hk (Nat.not_lt_zero _)) (by decide) (by decide)
  rw [← hsector, ← hcluster] at hcount
  obtain ⟨directory, -, hnew⟩ := @fat16NewFatItem_directory 100 oneDirectoryDisk (mountedState p)
    (kzalloc s' 8).2 hready (p.rootDirectory.entry 0) hitem (by
      rw [FatDirectoryItem.attributes]
      change pointer _ _ ((11 : ℕ) : ℤ) &&& _ ≠ 0
      rw [hroot₂.bytes 11 (by decide)]
      decide) _ hcount
  have hopen := fat16Open_loaded hroot (by decide) hfree (by decide) hlow (.inr (by decide))
    oneDirectory_named rfl hnew hitem
  have hready' := fat16NewFatItem_ready hready (by decide) hnew
  obtain ⟨b, hb, haddr, -⟩ := kzalloc_free hdescriptor
  refine ⟨_, _, _, _, _, hopen, ?_, ?_, hready', ?_⟩
  · have hlt := blockAddr_toNat (b := b) (by omega)
    rw [haddr, Tasks.isErr, BitVec.toInt_eq_toNat_of_lt (by omega)]
    exact decide_eq_false (by omega)
  · simp only [itemOf, FatState.setDescriptor, FatState.setItem, Function.update_self]
  · simp only [FatState.setDescriptor, Function.update_self]

theorem opened_keepsToType_oneDirectory : ∃ k₀ s₀ descriptor k s,
    fat16Open 100 oneDirectoryDisk k₀ s₀ 0x1000 .read = some (descriptor, k, s) ∧
    ∀ e ∈ run oneDirectoryDisk descriptor [.stat 0x3000, .seek 0 Fat16.seekSet, .close] k s,
      KeepsToType (itemOf k descriptor).type e := by
  obtain ⟨k₀, s₀, descriptor, k, s, hopen, hok, -⟩ := oneDirectory_opens
  exact ⟨k₀, s₀, descriptor, k, s, hopen,
    ((opened_keepsToType hopen hok).2 _).2 (.inr (by decide))⟩

/-- The directory A opens, and a read on it takes its record for an entry and succeeds. -/
theorem oneDirectory_misread : ∃ k₀ s₀ descriptor k s,
    fat16Open 100 oneDirectoryDisk k₀ s₀ 0x1000 .read = some (descriptor, k, s) ∧
    Tasks.isErr descriptor = false ∧ (itemOf k descriptor).type = .directory ∧
    (run oneDirectoryDisk descriptor [.read 1 1 0x3000] k s).map (fun e => (e.res, e.reads)) =
      [(some 1, [⟨.directory, .file⟩])] ∧
    ¬ ∀ e ∈ run oneDirectoryDisk descriptor [.read 1 1 0x3000] k s,
      KeepsToType (itemOf k descriptor).type e := by
  obtain ⟨k₀, s₀, descriptor, k, s, hopen, hok, htype, hready, hpos⟩ := oneDirectory_opens
  obtain ⟨⟨k', s'⟩, hread⟩ := @fat16Read_oneByte oneDirectoryDisk k s descriptor hready hpos 0x3000
  have hrun : run oneDirectoryDisk descriptor [.read 1 1 0x3000] k s =
      [⟨.read 1 1 0x3000, some 1, [⟨.directory, .file⟩]⟩] := by
    rw [run]
    have hperform : perform oneDirectoryDisk descriptor k s (.read 1 1 0x3000) =
        (some (1, k', s'), [⟨.directory, .file⟩]) := by
      rw [← hread, ← htype]
      rfl
    rw [hperform]
    rfl
  refine ⟨k₀, s₀, descriptor, k, s, hopen, hok, htype, by rw [hrun]; rfl, fun hkeeps => ?_⟩
  rw [hrun] at hkeeps
  have hmember := (hkeeps _ (List.mem_singleton.2 rfl)).1 ⟨.directory, .file⟩ (List.mem_singleton.2 rfl)
  cases hmember

end AlphaOS.Fat16.Tagged
