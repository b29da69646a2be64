import AlphaOS.Fat16Files
import AlphaOS.Fat16Items

/-! The calls of `fs/fat/fat16.c` once more, with the reason for which one does not return: a
division by zero, or a scan without an end or a null stream. -/
namespace AlphaOS.Fat16.Faulting
open CString Files Kheap Streamer WordMemory

inductive Fault
  | divideError
  | stuck
  deriving DecidableEq

section
variable {ε α β : Type} {fault : ε} {P : α → Prop} {Q : β → Prop}

/-- A value is as said, and an error is not this one. -/
def Yields (fault : ε) (P : α → Prop) : Except ε α → Prop
  | .ok a => P a
  | .error e => e ≠ fault

lemma Yields.mono {P' : α → Prop} {x : Except ε α} (h : Yields fault P x) (hP : ∀ a, P a → P' a) :
    Yields fault P' x := by
  cases x with
  | ok a => exact hP a h
  | error e => exact h

lemma Yields.bind {x : Except ε α} {f : α → Except ε β} (hx : Yields fault P x)
    (hf : ∀ a, P a → Yields fault Q (f a)) : Yields fault Q (x.bind f) := by
  cases x with
  | ok a => exact hf a hx
  | error e => exact hx

lemma Yields.map {x : Except ε α} {f : α → β} (hx : Yields fault P x) (hf : ∀ a, P a → Q (f a)) :
    Yields fault Q (x.map f) := by
  cases x with
  | ok a => exact hf a hx
  | error e => exact hx

lemma toOption_bind (x : Except ε α) (f : α → Except ε β) :
    (x.bind f).toOption = x.toOption.bind fun a => (f a).toOption := by
  cases x <;> rfl

lemma toOption_map (x : Except ε α) (f : α → β) : (x.map f).toOption = x.toOption.map f := by
  cases x <;> rfl

end

/-- The result of a call that does not divide. -/
def orStuck {α : Type} : Option α → Except Fault α
  | some a => .ok a
  | none => .error .stuck

lemma ok_of_toOption {α : Type} {x : Except Fault α} {a : α} (h : x.toOption = some a) : x = .ok a := by
  cases x with
  | ok b => exact congrArg _ (Option.some.inj h)
  | error fault => cases h

@[simp] lemma orStuck_toOption {α : Type} (x : Option α) : (orStuck x).toOption = x := by
  cases x <;> rfl

lemma orStuck_yields {α : Type} {P : α → Prop} {x : Option α} (h : ∀ a, x = some a → P a) :
    Yields .divideError P (orStuck x) := by
  cases x with
  | some a => exact h a rfl
  | none => exact Fault.noConfusion

variable (fuel : ℕ) (disk : Disk)

def fat16GetClusterForOffet (p : FatPrivate) (startingCluster offset : ℤ) :
    Except Fault (ℤ × List ℤ × FatPrivate) :=
  if sizeOfClusterBytes disk p = 0 then .error .divideError else
  let clusterAhead := offset.tdiv (sizeOfClusterBytes disk p)
  .ok (clusterLoop disk clusterAhead.toNat p startingCluster)

/-- The recursion ends because every call has fewer bytes to read. -/
def fat16ReadInternalFromStream (p : FatPrivate) (stream : DiskStream) (cluster offset total : ℤ)
    (mem : Mem) (out : Word) : Except Fault (ℤ × FatPrivate × DiskStream × Mem) :=
  match fat16GetClusterForOffet disk p cluster offset with
  | .error fault => .error fault
  | .ok (clusterToUse, _, p') =>
    if clusterToUse < 0 then .ok (clusterToUse, p', stream, mem) else
    if sizeOfClusterBytes disk p = 0 then .error .divideError else
    let offsetFromCluster := offset.tmod (sizeOfClusterBytes disk p)
    let totalToRead := if total > sizeOfClusterBytes disk p then sizeOfClusterBytes disk p else total
    let sought := diskstreamerSeek stream (startingPos disk p' clusterToUse offsetFromCluster)
    if sought.1 ≠ allOk then .ok (sought.1, p', sought.2, mem) else
    let r := diskstreamerRead disk sought.2 mem out totalToRead
    if r.res ≠ allOk then .ok (r.res, p', r.stream, r.mem) else
    if total - totalToRead > 0 then
      fat16ReadInternalFromStream p' r.stream cluster (offset + totalToRead) (total - totalToRead)
        r.mem (out + BitVec.ofInt 32 totalToRead)
    else .ok (r.res, p', r.stream, r.mem)
termination_by total.toNat
decreasing_by
  have hsize : 0 ≤ sizeOfClusterBytes disk p := by
    unfold sizeOfClusterBytes Disk.sectorSize
    omega
  grind

/-- A null stream is used behind the first division only. -/
def fat16ReadInternal (p : FatPrivate) (startingCluster offset total : ℤ) (mem : Mem) (out : Word) :
    Except Fault (ℤ × FatPrivate × Mem) :=
  match p.clusterReadStream with
  | none => (fat16GetClusterForOffet disk p startingCluster offset).bind fun _ => .error .stuck
  | some stream =>
    (fat16ReadInternalFromStream disk p stream startingCluster offset total mem out).map fun r =>
      (r.1, { r.2.1 with clusterReadStream := some r.2.2.1 }, r.2.2.2)

def readFatDirectory (k : FatState) (s : Kmem) (directory : Word) (cluster total : ℤ) :
    Except Fault (Word × FatState × Kmem) :=
  let directorySize : Word := BitVec.ofInt 32 total * BitVec.ofNat 32 sizeofDirectoryItem
  let item := kzalloc s directorySize
  let k := k.setDirectory directory ⟨item.1, total, 0, 0⟩
  if item.1 = 0 then
    let r := fat16FreeDirectory k item.2 directory
    .ok (directory, r.1, r.2)
  else
    let k := k.log (.made item.1)
    (fat16ReadInternal disk k.fsPrivate cluster 0x00 directorySize.toInt item.2.mem item.1).map
      fun res =>
        let k := k.withPrivate res.2.1
        let s := item.2.withMem res.2.2
        if res.1 ≠ allOk then
          let r := fat16FreeDirectory k s directory
          (directory, r.1, r.2)
        else (directory, k, s)

def fat16LoadFatDirectory (k : FatState) (s : Kmem) (item : Word) :
    Except Fault (Word × FatState × Kmem) :=
  if FatDirectoryItem.attributes (pointer s.mem item) &&& fatFileSubdirectory = 0 then
    .ok (0, k, s)
  else
  let directory := kzalloc s 16
  if directory.1 = 0 then .ok (0, k, directory.2) else
  let k := k.log (.made directory.1)
  let cluster := (fat16GetFirstCluster (pointer directory.2.mem item)).toInt
  let clusterSector := fat16ClusterToSector k.fsPrivate cluster
  (orStuck (fat16GetTotalItemsForDirectory fuel disk k.fsPrivate (BitVec.ofInt 32 clusterSector))).bind
    fun totalItems =>
      readFatDirectory disk (k.withPrivate totalItems.2) directory.2 directory.1 cluster totalItems.1

def fat16NewFatItemForDirectoryItem (k : FatState) (s : Kmem) (item : Word) :
    Except Fault (Word × FatState × Kmem) :=
  let fItem := kzalloc s 8
  if fItem.1 = 0 then .ok (0, k, fItem.2) else
  let k := k.log (.made fItem.1)
  if FatDirectoryItem.attributes (pointer fItem.2.mem item) &&& fatFileSubdirectory ≠ 0 then
    (fat16LoadFatDirectory fuel disk k fItem.2 item).map fun directory =>
      (fItem.1, directory.2.1.setItem fItem.1 ⟨directory.1, .directory⟩, directory.2.2)
  else
    let clone := fat16CloneDirectoryItem k fItem.2 item sizeofDirectoryItem
    .ok (fItem.1, clone.2.1.setItem fItem.1 ⟨clone.1, .file⟩, clone.2.2)

def findItemLoop (directory : FatDirectory) (name : ℤ → Byte) :
    ℕ → ℕ → FatState → Kmem → Word → Except Fault (Word × FatState × Kmem)
  | 0, _, k, s, fItem => .ok (fItem, k, s)
  | n + 1, i, k, s, fItem =>
    (orStuck (hasName fuel s (directory.entry i) name)).bind fun found =>
      if found then
        (fat16NewFatItemForDirectoryItem fuel disk k s (directory.entry i)).bind fun r =>
          findItemLoop directory name n (i + 1) r.2.1 r.2.2 r.1
      else findItemLoop directory name n (i + 1) k s fItem

def fat16FindItemInDirectory (k : FatState) (s : Kmem) (directory : FatDirectory)
    (name : ℤ → Byte) : Except Fault (Word × FatState × Kmem) :=
  findItemLoop fuel disk directory name directory.total.toNat 0 k s 0

def directoryEntryLoop : List (ℤ → Byte) → FatState → Kmem → Word →
    Except Fault (Word × FatState × Kmem)
  | [], k, s, currentItem => .ok (currentItem, k, s)
  | part :: path, k, s, currentItem =>
    let k := k.log (.used currentItem)
    if (k.items currentItem).type ≠ .directory then .ok (0, k, s) else
    let directory := (k.items currentItem).item
    let k := k.log (.used directory)
    (fat16FindItemInDirectory fuel disk k s (k.directories directory) part).bind fun tmpItem =>
      let r := fat16FatItemFree tmpItem.2.1 tmpItem.2.2 currentItem
      directoryEntryLoop path r.1 r.2 tmpItem.1

def fat16GetDirectoryEntry (k : FatState) (s : Kmem) (part : ℤ → Byte) (next : List (ℤ → Byte)) :
    Except Fault (Word × FatState × Kmem) :=
  (fat16FindItemInDirectory fuel disk k s k.fsPrivate.rootDirectory part).bind fun rootItem =>
    if rootItem.1 = 0 then .ok (0, rootItem.2.1, rootItem.2.2) else
    directoryEntryLoop fuel disk next rootItem.2.1 rootItem.2.2 rootItem.1

def fat16Open (k : FatState) (s : Kmem) (path : Word) (mode : FileMode) :
    Except Fault (Word × FatState × Kmem) :=
  if mode ≠ .read then .ok (BitVec.ofInt 32 (-erdonly), k, s) else
  let descriptor := kzalloc s 8
  if descriptor.1 = 0 then .ok (BitVec.ofInt 32 (-enomem), k, descriptor.2) else
  (orStuck (pathParts descriptor.2.mem fuel (read32 descriptor.2.mem (path + 4)))).bind fun next =>
    (fat16GetDirectoryEntry fuel disk k descriptor.2
        (pointer descriptor.2.mem (read32 descriptor.2.mem path)) next).map fun item =>
      let k := item.2.1.setDescriptor descriptor.1 ⟨item.1, 0⟩
      if item.1 = 0 then (BitVec.ofInt 32 (-eio), k, kfree item.2.2 descriptor.1)
      else (descriptor.1, k, item.2.2)

def fat16ReadLoop (size item : Word) :
    ℕ → FatPrivate → Mem → Word → Word → Except Fault (ℤ × FatPrivate × Mem)
  | 0, p, mem, _, _ => .ok (0, p, mem)
  | n + 1, p, mem, offset, out =>
    (fat16ReadInternal disk p (fat16GetFirstCluster (pointer mem item)).toInt offset.toInt size.toInt
        mem out).bind fun r =>
      if r.1 < 0 then .ok r else fat16ReadLoop size item n r.2.1 r.2.2 (offset + size) (out + size)

def fat16Read (k : FatState) (s : Kmem) (descriptor size nmemb out : Word) :
    Except Fault (ℤ × FatState × Kmem) :=
  let fatDesc := k.descriptors descriptor
  (fat16ReadLoop disk size (k.items fatDesc.item).item nmemb.toNat k.fsPrivate s.mem fatDesc.pos
      out).map fun r =>
    (if r.1 < 0 then r.1 else nmemb.toInt, k.withPrivate r.2.1, s.withMem r.2.2)

/-! Without the reasons these are the calls of the other modules. -/

variable {fuel : ℕ} {disk : Disk} {k : FatState} {s : Kmem} {p : FatPrivate} {stream : DiskStream}

lemma fat16GetClusterForOffet_toOption (startingCluster offset : ℤ) :
    (fat16GetClusterForOffet disk p startingCluster offset).toOption =
      Fat16.fat16GetClusterForOffet disk p startingCluster offset := by
  unfold fat16GetClusterForOffet Fat16.fat16GetClusterForOffet
  split_ifs <;> rfl

lemma fat16ReadInternalFromStream_toOption (cluster offset total : ℤ) (mem : Mem) (out : Word) :
    (fat16ReadInternalFromStream disk p stream cluster offset total mem out).toOption =
      Fat16.fat16ReadInternalFromStream disk p stream cluster offset total mem out := by
  fun_induction fat16ReadInternalFromStream disk p stream cluster offset total mem out with
  | case1 p stream offset total mem out fault hfor =>
    rw [Fat16.fat16ReadInternalFromStream, ← fat16GetClusterForOffet_toOption, hfor]
    rfl
  | case2 p stream offset total mem out c l p' hfor hneg =>
    rw [Fat16.fat16ReadInternalFromStream, ← fat16GetClusterForOffet_toOption, hfor]
    exact (if_pos hneg).symm
  | case3 p stream offset total mem out c l p' hfor hneg hsize =>
    rw [Fat16.fat16ReadInternalFromStream, ← fat16GetClusterForOffet_toOption, hfor]
    exact ((if_neg hneg).trans (if_pos hsize)).symm
  | case4 p stream offset total mem out c l p' hfor hneg hsize inside sought hsought =>
    rw [Fat16.fat16ReadInternalFromStream, ← fat16GetClusterForOffet_toOption, hfor]
    exact ((if_neg hneg).trans ((if_neg hsize).trans (if_pos hsought))).symm
  | case5 p stream offset total mem out c l p' hfor hneg hsize inside read sought hsought r hread =>
    rw [Fat16.fat16ReadInternalFromStream, ← fat16GetClusterForOffet_toOption, hfor]
    exact ((if_neg hneg).trans ((if_neg hsize).trans ((if_neg hsought).trans (if_pos hread)))).symm
  | case6 p stream offset total mem out c l p' hfor hneg hsize inside read sought hsought r hread hmore
      ih =>
    refine ih.trans ?_
    conv_rhs => rw [Fat16.fat16ReadInternalFromStream, ← fat16GetClusterForOffet_toOption, hfor]
    exact ((if_neg hneg).trans ((if_neg hsize).trans ((if_neg hsought).trans ((if_neg hread).trans
      (if_pos hmore))))).symm
  | case7 p stream offset total mem out c l p' hfor hneg hsize inside read sought hsought r hread hmore =>
    rw [Fat16.fat16ReadInternalFromStream, ← fat16GetClusterForOffet_toOption, hfor]
    exact ((if_neg hneg).trans ((if_neg hsize).trans ((if_neg hsought).trans ((if_neg hread).trans
      (if_neg hmore))))).symm

lemma fat16ReadInternal_toOption (startingCluster offset total : ℤ) (mem : Mem) (out : Word) :
    (fat16ReadInternal disk p startingCluster offset total mem out).toOption =
      Fat16.fat16ReadInternal disk p startingCluster offset total mem out := by
  unfold fat16ReadInternal Fat16.fat16ReadInternal
  cases p.clusterReadStream with
  | none =>
    rw [toOption_bind]
    exact Option.bind_eq_none_iff.2 fun _ _ => rfl
  | some stream =>
    dsimp only
    rw [toOption_map, fat16ReadInternalFromStream_toOption]
    generalize Fat16.fat16ReadInternalFromStream disk p stream startingCluster offset total mem out = r
    cases r with
    | none => rfl
    | some r => rfl

lemma readFatDirectory_toOption (directory : Word) (cluster total : ℤ) :
    (readFatDirectory disk k s directory cluster total).toOption =
      Fat16.readFatDirectory disk k s directory cluster total := by
  unfold readFatDirectory Fat16.readFatDirectory
  dsimp only
  split_ifs
  · rfl
  · rw [toOption_map, fat16ReadInternal_toOption]

lemma fat16LoadFatDirectory_toOption (item : Word) :
    (fat16LoadFatDirectory fuel disk k s item).toOption =
      Fat16.fat16LoadFatDirectory fuel disk k s item := by
  unfold fat16LoadFatDirectory Fat16.fat16LoadFatDirectory
  dsimp only
  split_ifs
  · rfl
  · rfl
  · simp only [toOption_bind, orStuck_toOption, readFatDirectory_toOption]

lemma fat16NewFatItem_toOption (item : Word) :
    (fat16NewFatItemForDirectoryItem fuel disk k s item).toOption =
      Fat16.fat16NewFatItemForDirectoryItem fuel disk k s item := by
  unfold fat16NewFatItemForDirectoryItem Fat16.fat16NewFatItemForDirectoryItem
  dsimp only
  split_ifs
  · rfl
  · rw [toOption_map, fat16LoadFatDirectory_toOption]
  · rfl

lemma findItemLoop_toOption (directory : FatDirectory) (name : ℤ → Byte) (n i : ℕ) (k : FatState)
    (s : Kmem) (fItem : Word) :
    (findItemLoop fuel disk directory name n i k s fItem).toOption =
      Fat16.findItemLoop fuel disk directory name n i k s fItem := by
  induction n generalizing i k s fItem with
  | zero => rfl
  | succ n ih =>
    rw [findItemLoop, Fat16.findItemLoop, toOption_bind, orStuck_toOption]
    congr 1
    funext found
    cases found with
    | false => exact ih (i + 1) k s fItem
    | true =>
      rw [if_pos rfl, if_pos rfl, toOption_bind, fat16NewFatItem_toOption]
      congr 1
      funext r
      exact ih (i + 1) r.2.1 r.2.2 r.1

lemma directoryEntryLoop_toOption (path : List (ℤ → Byte)) (k : FatState) (s : Kmem)
    (currentItem : Word) : (directoryEntryLoop fuel disk path k s currentItem).toOption =
      Fat16.directoryEntryLoop fuel disk path k s currentItem := by
  induction path generalizing k s currentItem with
  | nil => rfl
  | cons part path ih =>
    rw [directoryEntryLoop, Fat16.directoryEntryLoop]
    dsimp only
    split_ifs
    · rfl
    · rw [toOption_bind, fat16FindItemInDirectory, findItemLoop_toOption]
      simp only [ih]
      rfl

lemma fat16GetDirectoryEntry_toOption (part : ℤ → Byte) (next : List (ℤ → Byte)) :
    (fat16GetDirectoryEntry fuel disk k s part next).toOption =
      Fat16.fat16GetDirectoryEntry fuel disk k s part next := by
  unfold fat16GetDirectoryEntry Fat16.fat16GetDirectoryEntry
  rw [toOption_bind, fat16FindItemInDirectory, findItemLoop_toOption]
  congr 1
  funext rootItem
  split_ifs
  · rfl
  · exact directoryEntryLoop_toOption next rootItem.2.1 rootItem.2.2 rootItem.1

/-- `fat16_open` is the same in both. -/
theorem fat16Open_toOption (path : Word) (mode : FileMode) :
    (fat16Open fuel disk k s path mode).toOption = Fat16.fat16Open fuel disk k s path mode := by
  unfold fat16Open Fat16.fat16Open
  dsimp only
  split_ifs
  · rfl
  · rfl
  · simp only [toOption_bind, toOption_map, orStuck_toOption, fat16GetDirectoryEntry_toOption]

lemma fat16ReadLoop_toOption (size item : Word) (n : ℕ) (p : FatPrivate) (mem : Mem)
    (offset out : Word) : (fat16ReadLoop disk size item n p mem offset out).toOption =
      Fat16.fat16ReadLoop disk size item n p mem offset out := by
  induction n generalizing p mem offset out with
  | zero => rfl
  | succ n ih =>
    rw [fat16ReadLoop, Fat16.fat16ReadLoop, toOption_bind, fat16ReadInternal_toOption]
    congr 1
    funext r
    split_ifs
    · rfl
    · exact ih r.2.1 r.2.2 (offset + size) (out + size)

/-- `fat16_read` is the same in both. -/
theorem fat16Read_toOption (descriptor size nmemb out : Word) :
    (fat16Read disk k s descriptor size nmemb out).toOption =
      Fat16.fat16Read disk k s descriptor size nmemb out := by
  unfold fat16Read Fat16.fat16Read
  rw [toOption_map, fat16ReadLoop_toOption]

/-! With sectors in a cluster nothing divides by zero, and the header stays as it is. -/

lemma sizeOfClusterBytes_eq_zero :
    sizeOfClusterBytes disk p = 0 ↔ p.header.sectorsPerCluster = 0 := by
  rw [← BitVec.toNat_inj]
  unfold sizeOfClusterBytes Disk.sectorSize
  change _ ↔ p.header.sectorsPerCluster.toNat = 0
  omega

lemma fat16GetFatEntry_header (p : FatPrivate) (cluster : ℤ) :
    (fat16GetFatEntry disk p cluster).2.header = p.header := by
  unfold fat16GetFatEntry
  cases p.fatReadStream with
  | none => rfl
  | some stream =>
    dsimp only
    split_ifs <;> rfl

lemma clusterLoop_header (n : ℕ) (p : FatPrivate) (cluster : ℤ) :
    (clusterLoop disk n p cluster).2.2.header = p.header := by
  induction n generalizing p cluster with
  | zero => rfl
  | succ n ih =>
    have hentry := @fat16GetFatEntry_header disk p cluster
    rw [clusterLoop]
    dsimp only
    split_ifs
    · exact hentry
    · exact hentry
    · exact hentry
    · exact hentry
    · exact (ih _ _).trans hentry

lemma fat16GetClusterForOffet_yields (hsize : p.header.sectorsPerCluster ≠ 0)
    (startingCluster offset : ℤ) :
    ∃ c, fat16GetClusterForOffet disk p startingCluster offset = .ok c ∧ c.2.2.header = p.header :=
  ⟨_, if_neg (mt sizeOfClusterBytes_eq_zero.1 hsize), clusterLoop_header _ _ _⟩

/-- The recursion comes to an end. -/
lemma fat16ReadInternalFromStream_returns (hsize : p.header.sectorsPerCluster ≠ 0)
    (cluster offset total : ℤ) (mem : Mem) (out : Word) :
    ∃ r, fat16ReadInternalFromStream disk p stream cluster offset total mem out = .ok r ∧
      r.2.1.header = p.header := by
  fun_induction fat16ReadInternalFromStream disk p stream cluster offset total mem out with
  | case1 p stream offset total mem out fault hfor =>
    obtain ⟨c, hok, -⟩ := @fat16GetClusterForOffet_yields disk p hsize cluster offset
    rw [hok] at hfor
    cases hfor
  | case3 p stream offset total mem out c l p' hfor hneg hzero =>
    exact absurd (sizeOfClusterBytes_eq_zero.1 hzero) hsize
  | case6 p stream offset total mem out c l p' hfor hneg hzero inside read sought hsought r hread hmore
      ih =>
    obtain ⟨x, hok, hheader⟩ := @fat16GetClusterForOffet_yields disk p hsize cluster offset
    rw [hok] at hfor
    cases hfor
    obtain ⟨y, hrest, hheader'⟩ := ih (hheader ▸ hsize)
    exact ⟨y, hrest, hheader'.trans hheader⟩
  | case2 p stream offset total mem out c l p' hfor
  | case4 p stream offset total mem out c l p' hfor
  | case5 p stream offset total mem out c l p' hfor
  | case7 p stream offset total mem out c l p' hfor =>
    obtain ⟨x, hok, hheader⟩ := @fat16GetClusterForOffet_yields disk p hsize cluster offset
    rw [hok] at hfor
    cases hfor
    exact ⟨_, rfl, hheader⟩

lemma fat16ReadInternal_yields (hsize : p.header.sectorsPerCluster ≠ 0)
    (startingCluster offset total : ℤ) (mem : Mem) (out : Word) :
    Yields .divideError (fun r => r.2.1.header = p.header)
      (fat16ReadInternal disk p startingCluster offset total mem out) := by
  unfold fat16ReadInternal
  cases p.clusterReadStream with
  | none =>
    obtain ⟨c, hok, -⟩ := @fat16GetClusterForOffet_yields disk p hsize startingCluster offset
    dsimp only
    rw [hok]
    exact Fault.noConfusion
  | some stream =>
    obtain ⟨r, hok, hheader⟩ := @fat16ReadInternalFromStream_returns disk p stream hsize startingCluster
      offset total mem out
    dsimp only
    rw [hok]
    exact hheader

/-- The header of the volume is this one. -/
def HasHeader (header : FatHeader) (r : Word × FatState × Kmem) : Prop :=
  r.2.1.fsPrivate.header = header

lemma readFatDirectory_yields (hsize : k.fsPrivate.header.sectorsPerCluster ≠ 0) (directory : Word)
    (cluster total : ℤ) : Yields .divideError (HasHeader k.fsPrivate.header)
      (readFatDirectory disk k s directory cluster total) := by
  unfold readFatDirectory
  dsimp only
  split_ifs
  · exact congrArg FatPrivate.header (fat16FreeDirectory_private _ _ _)
  · refine Yields.map (@fat16ReadInternal_yields disk k.fsPrivate hsize _ _ _ _ _) fun res hres => ?_
    split_ifs
    · exact (congrArg FatPrivate.header (fat16FreeDirectory_private _ _ _)).trans hres
    · exact hres

lemma fat16LoadFatDirectory_yields (hsize : k.fsPrivate.header.sectorsPerCluster ≠ 0) (item : Word) :
    Yields .divideError (HasHeader k.fsPrivate.header) (fat16LoadFatDirectory fuel disk k s item) := by
  unfold fat16LoadFatDirectory
  dsimp only
  split_ifs
  · exact rfl
  · exact rfl
  · refine Yields.bind (orStuck_yields fun total htotal =>
      fat16GetTotalItemsForDirectory_header htotal) fun total htotal => ?_
    have hheader : ((k.log (.made (kzalloc s 16).1)).withPrivate total.2).fsPrivate.header =
        k.fsPrivate.header := htotal
    have hread := @readFatDirectory_yields disk _ (kzalloc s 16).2 (hheader ▸ hsize)
      (kzalloc s 16).1 (fat16GetFirstCluster (pointer (kzalloc s 16).2.mem item)).toInt total.1
    rw [hheader] at hread
    exact hread

lemma fat16NewFatItem_yields (hsize : k.fsPrivate.header.sectorsPerCluster ≠ 0) (item : Word) :
    Yields .divideError (HasHeader k.fsPrivate.header)
      (fat16NewFatItemForDirectoryItem fuel disk k s item) := by
  unfold fat16NewFatItemForDirectoryItem
  dsimp only
  split_ifs
  · exact rfl
  · have hload := @fat16LoadFatDirectory_yields fuel disk (k.log (.made (kzalloc s 8).1))
      (kzalloc s 8).2 hsize item
    exact hload.map fun r hr => hr
  · have hclone := fat16CloneDirectoryItem_private (k.log (.made (kzalloc s 8).1)) (kzalloc s 8).2 item
      sizeofDirectoryItem
    generalize fat16CloneDirectoryItem (k.log (.made (kzalloc s 8).1)) (kzalloc s 8).2 item
      sizeofDirectoryItem = clone at hclone
    exact congrArg FatPrivate.header hclone

lemma findItemLoop_yields (directory : FatDirectory) (name : ℤ → Byte) (n i : ℕ)
    (hsize : k.fsPrivate.header.sectorsPerCluster ≠ 0) (fItem : Word) :
    Yields .divideError (HasHeader k.fsPrivate.header)
      (findItemLoop fuel disk directory name n i k s fItem) := by
  induction n generalizing i k s fItem with
  | zero => exact rfl
  | succ n ih =>
    rw [findItemLoop]
    refine Yields.bind (orStuck_yields fun found _ => trivial) fun found _ => ?_
    cases found with
    | false => exact ih (i + 1) hsize fItem
    | true =>
      refine Yields.bind (fat16NewFatItem_yields hsize _) fun r hr => ?_
      have hrest := @ih r.2.1 r.2.2 (i + 1) (by rwa [hr]) r.1
      exact hrest.mono fun r' hr' => hr'.trans hr

lemma fat16FatItemFree_private (k : FatState) (s : Kmem) (item : Word) :
    (fat16FatItemFree k s item).1.fsPrivate = k.fsPrivate := by
  unfold fat16FatItemFree
  dsimp only
  split_ifs
  · rfl
  · cases (k.log (.used item)).items item with
    | mk ptr type =>
      cases type with
      | directory => exact fat16FreeDirectory_private _ _ _
      | file => rfl

lemma directoryEntryLoop_yields (path : List (ℤ → Byte))
    (hsize : k.fsPrivate.header.sectorsPerCluster ≠ 0) (currentItem : Word) :
    Yields .divideError (HasHeader k.fsPrivate.header)
      (directoryEntryLoop fuel disk path k s currentItem) := by
  induction path generalizing k s currentItem with
  | nil => exact rfl
  | cons part path ih =>
    rw [directoryEntryLoop]
    dsimp only
    split_ifs
    · exact rfl
    · generalize hused : (k.log (.used currentItem)).log _ = used
      have hsame : used.fsPrivate.header = k.fsPrivate.header := by rw [← hused]; rfl
      refine Yields.bind (findItemLoop_yields _ _ _ _ (hsame ▸ hsize) _) fun r hr => ?_
      have hfreed : (fat16FatItemFree r.2.1 r.2.2 currentItem).1.fsPrivate.header =
          k.fsPrivate.header :=
        (congrArg FatPrivate.header (fat16FatItemFree_private _ _ _)).trans (hr.trans hsame)
      have hrest := @ih _ (fat16FatItemFree r.2.1 r.2.2 currentItem).2 (hfreed ▸ hsize) r.1
      exact hrest.mono fun r' hr' => hr'.trans hfreed

lemma fat16Open_yields (hsize : k.fsPrivate.header.sectorsPerCluster ≠ 0) (path : Word)
    (mode : FileMode) : Yields .divideError (HasHeader k.fsPrivate.header)
      (fat16Open fuel disk k s path mode) := by
  unfold fat16Open
  dsimp only
  split_ifs
  · exact rfl
  · exact rfl
  · refine Yields.bind (orStuck_yields fun next _ => trivial) fun next _ => ?_
    have hentry : Yields .divideError (HasHeader k.fsPrivate.header) (fat16GetDirectoryEntry fuel disk k
        (kzalloc s 8).2 (pointer (kzalloc s 8).2.mem (read32 (kzalloc s 8).2.mem path)) next) := by
      refine Yields.bind (findItemLoop_yields _ _ _ _ hsize _) fun r hr => ?_
      split_ifs
      · exact hr
      · have hrest := @directoryEntryLoop_yields fuel disk r.2.1 r.2.2 next (by rwa [hr]) r.1
        exact hrest.mono fun r' hr' => hr'.trans hr
    refine hentry.map fun r hr => ?_
    split_ifs <;> exact hr

lemma fat16ReadLoop_yields (size item : Word) (n : ℕ) (hsize : p.header.sectorsPerCluster ≠ 0)
    (mem : Mem) (offset out : Word) : Yields .divideError (fun r => r.2.1.header = p.header)
      (fat16ReadLoop disk size item n p mem offset out) := by
  induction n generalizing p mem offset out with
  | zero => exact rfl
  | succ n ih =>
    rw [fat16ReadLoop]
    refine Yields.bind (fat16ReadInternal_yields hsize _ _ _ _ _) fun r hr => ?_
    split_ifs
    · exact hr
    · have hrest := @ih r.2.1 (by rwa [hr]) r.2.2 (offset + size) (out + size)
      exact hrest.mono fun r' hr' => hr'.trans hr

lemma fat16Read_yields (hsize : k.fsPrivate.header.sectorsPerCluster ≠ 0)
    (descriptor size nmemb out : Word) :
    Yields .divideError (fun r => r.2.1.fsPrivate.header = k.fsPrivate.header)
      (fat16Read disk k s descriptor size nmemb out) :=
  (fat16ReadLoop_yields _ _ _ hsize _ _ _).map fun _ hr => hr

/-! Without any, every read of clusters divides by zero at once. -/

lemma fat16GetClusterForOffet_divides (hzero : p.header.sectorsPerCluster = 0)
    (startingCluster offset : ℤ) :
    fat16GetClusterForOffet disk p startingCluster offset = .error .divideError :=
  if_pos (sizeOfClusterBytes_eq_zero.2 hzero)

lemma fat16ReadInternalFromStream_divides (hzero : p.header.sectorsPerCluster = 0)
    (cluster offset total : ℤ) (mem : Mem) (out : Word) :
    fat16ReadInternalFromStream disk p stream cluster offset total mem out = .error .divideError := by
  rw [fat16ReadInternalFromStream, fat16GetClusterForOffet_divides hzero]

/-- `fat16_read` then faults at its first member. -/
lemma fat16Read_divides (hzero : k.fsPrivate.header.sectorsPerCluster = 0)
    (descriptor size out : Word) {nmemb : Word} (hmembers : nmemb ≠ 0) :
    fat16Read disk k s descriptor size nmemb out = .error .divideError := by
  obtain ⟨n, hn⟩ := Nat.exists_eq_succ_of_ne_zero
    (show nmemb.toNat ≠ 0 from fun h => hmembers (BitVec.eq_of_toNat_eq h))
  have hread : ∀ (cluster offset total : ℤ) (mem : Mem) (out : Word),
      fat16ReadInternal disk k.fsPrivate cluster offset total mem out = .error .divideError := by
    intro cluster offset total mem out
    unfold fat16ReadInternal
    cases k.fsPrivate.clusterReadStream with
    | none =>
      dsimp only
      rw [fat16GetClusterForOffet_divides hzero]
      rfl
    | some stream =>
      dsimp only
      rw [fat16ReadInternalFromStream_divides hzero]
      rfl
  unfold fat16Read
  dsimp only
  rw [hn, fat16ReadLoop, hread]
  rfl

/-! Requests one after the other. -/

inductive Request
  | openPath (path : Word) (mode : FileMode)
  | seek (descriptor offset seekMode : Word)
  | read (descriptor size nmemb out : Word)

def serve (fuel : ℕ) (disk : Disk) (k : FatState) (s : Kmem) : Request → Except Fault FatState
  | .openPath path mode => (fat16Open fuel disk k s path mode).map fun r => r.2.1
  | .seek descriptor offset seekMode => .ok (fat16Seek k s descriptor offset seekMode).2.1
  | .read descriptor size nmemb out => (fat16Read disk k s descriptor size nmemb out).map fun r => r.2.1

/-- Each request finds memory as the rest of the kernel has left it. -/
def serveAll (fuel : ℕ) (disk : Disk) : FatState → List (Kmem × Request) → Except Fault FatState
  | k, [] => .ok k
  | k, (s, request) :: rest =>
    (serve fuel disk k s request).bind fun k' => serveAll fuel disk k' rest

lemma fat16Seek_private (k : FatState) (s : Kmem) (descriptor offset seekMode : Word) :
    (fat16Seek k s descriptor offset seekMode).2.1.fsPrivate = k.fsPrivate := by
  unfold fat16Seek
  dsimp only
  split_ifs <;> rfl

lemma serve_yields (hsize : k.fsPrivate.header.sectorsPerCluster ≠ 0) (request : Request) :
    Yields .divideError (fun k' => k'.fsPrivate.header = k.fsPrivate.header)
      (serve fuel disk k s request) := by
  cases request with
  | openPath path mode => exact (fat16Open_yields hsize path mode).map fun r hr => hr
  | seek descriptor offset seekMode =>
    exact congrArg FatPrivate.header (fat16Seek_private k s descriptor offset seekMode)
  | read descriptor size nmemb out =>
    exact (fat16Read_yields hsize descriptor size nmemb out).map fun r hr => hr

lemma serveAll_yields (requests : List (Kmem × Request))
    (hsize : k.fsPrivate.header.sectorsPerCluster ≠ 0) :
    Yields .divideError (fun k' => k'.fsPrivate.header = k.fsPrivate.header)
      (serveAll fuel disk k requests) := by
  induction requests generalizing k with
  | nil => exact rfl
  | cons call rest ih =>
    refine Yields.bind (serve_yields hsize call.2) fun k' hk' => ?_
    exact (ih (hk' ▸ hsize)).mono fun k'' hk'' => hk''.trans hk'

/-- No requests divide by zero, and behind any of them every read of clusters comes to its end. -/
structure NeverDivides (disk : Disk) (k : FatState) : Prop where
  requests : ∀ fuel requests, serveAll fuel disk k requests ≠ .error .divideError
  returns : ∀ fuel requests k', serveAll fuel disk k requests = .ok k' →
    ∀ (stream : DiskStream) (cluster offset total : ℤ) (mem : Mem) (out : Word), 0 ≤ offset →
      0 ≤ total → ∃ r, fat16ReadInternalFromStream disk k'.fsPrivate stream cluster offset total mem
        out = .ok r

lemma neverDivides_iff :
    NeverDivides disk k ↔ k.fsPrivate.header.sectorsPerCluster ≠ 0 := by
  constructor
  · intro h hzero
    obtain ⟨r, hr⟩ := h.returns 0 [] k rfl ⟨0, 0⟩ 0 0 0 (fun _ => 0) 0 le_rfl le_rfl
    rw [fat16ReadInternalFromStream_divides hzero] at hr
    cases hr
  · intro hsize
    constructor
    · intro fuel requests hdivide
      have hyields := @serveAll_yields fuel disk k requests hsize
      rw [hdivide] at hyields
      exact hyields rfl
    · intro fuel requests k' hrun stream cluster offset total mem out _ _
      have hyields := @serveAll_yields fuel disk k requests hsize
      rw [hrun] at hyields
      obtain ⟨r, hr, -⟩ := @fat16ReadInternalFromStream_returns disk k'.fsPrivate stream
        (by rwa [hyields]) cluster offset total mem out
      exact ⟨r, hr⟩

end AlphaOS.Fat16.Faulting
