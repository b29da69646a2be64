import AlphaOS.FileMount
import AlphaOS.FileReads
import AlphaOS.Runs

/-! Runs of calls on a volume. Programs open, seek in, read and close its files in any order while the
rest of the kernel works, and each call is answered from the files and the table of those open. -/
namespace AlphaOS.Fat16
open BlockHeap CString Files Kheap Paging PathParser Processes Streamer WordMemory

/-! What the users of a volume know of it. -/

/-- The files of a volume, by the number of their entry. -/
structure Volume where
  named : List Byte → ℕ → Prop
  absent : List Byte → Prop
  size : ℕ → Word
  flags : ℕ → Word
  byte : ℕ → ℕ → Byte
  /-- From a position on, so many members of a size have clusters. -/
  chained : ℕ → Word → Word → Word → Prop
  /-- And none of them runs past the end of one. -/
  readable : ℕ → ℕ → ℕ → ℕ → Prop

/-- A call of a program, by the name of the file it opens, or other work of the kernel, which leaves
its memory like this. -/
inductive FileCall
  | fopen (name : List Byte) (filename modeStr : Word)
  | fclose (fd : ℤ)
  | fseek (fd offset : ℤ) (whence : Word)
  | fstat (fd : ℤ) (stat : Word)
  | fread (ptr size nmemb : Word) (fd : ℤ)
  | other (s : Kmem)

/-- The result of a call, and what its buffer holds then. -/
structure Reply where
  code : ℤ
  data : List Byte

/-- A `file_stat` in memory. -/
def statBytes (flags size : Word) : List Byte :=
  (List.range 8).map fun j =>
    if j < 4 then (flags >>> (8 * j)).setWidth 8 else (size >>> (8 * (j - 4))).setWidth 8

/-- The bytes of a request. -/
def Volume.bytes (V : Volume) (o : OpenEntry) (n : ℕ) : List Byte :=
  (List.range n).map fun j => V.byte o.entry (o.pos.toNat + j)

/-- What is answered to a call, and the table after it. -/
inductive Answers (V : Volume) : Table → FileCall → Reply → Table → Prop
  | opened {T : Table} {i : Fin maxFiledescriptors} {j : ℕ} {name : List Byte} (filename modeStr : Word)
      (file : V.named name j) (empty : T i = none) (first : ∀ i' < i, T i' ≠ none) :
      Answers V T (.fopen name filename modeStr) ⟨(i : ℤ) + 1, []⟩ (Function.update T i (some ⟨j, 0⟩))
  | full {T : Table} (name : List Byte) (filename modeStr : Word) (slots : ∀ i, T i ≠ none) :
      Answers V T (.fopen name filename modeStr) ⟨0, []⟩ T
  | missing {name : List Byte} (T : Table) (filename modeStr : Word) (absent : V.absent name) :
      Answers V T (.fopen name filename modeStr) ⟨0, []⟩ T
  | closed {T : Table} {fd : ℤ} {i : Fin maxFiledescriptors} {o : OpenEntry} (slot : slotOf fd = some i)
      (file : T i = some o) : Answers V T (.fclose fd) ⟨0, []⟩ (Function.update T i none)
  | closedNothing {T : Table} {fd : ℤ} (nothing : T.get fd = none) : Answers V T (.fclose fd) ⟨-eio, []⟩ T
  | sought {T : Table} {fd : ℤ} {i : Fin maxFiledescriptors} {o : OpenEntry} (offset : ℤ) (whence : Word)
      (slot : slotOf fd = some i) (file : T i = some o) :
      Answers V T (.fseek fd offset whence) ⟨(o.seek (V.size o.entry) offset whence).1, []⟩
        (Function.update T i (some (o.seek (V.size o.entry) offset whence).2))
  | soughtNothing {T : Table} {fd : ℤ} (offset : ℤ) (whence : Word) (nothing : T.get fd = none) :
      Answers V T (.fseek fd offset whence) ⟨-eio, []⟩ T
  | stated {T : Table} {fd : ℤ} {o : OpenEntry} (stat : Word) (file : T.get fd = some o) :
      Answers V T (.fstat fd stat) ⟨0, statBytes (V.flags o.entry) (V.size o.entry)⟩ T
  | statedNothing {T : Table} {fd : ℤ} (stat : Word) (data : List Byte) (nothing : T.get fd = none) :
      Answers V T (.fstat fd stat) ⟨-eio, data⟩ T
  | read {T : Table} {fd : ℤ} {o : OpenEntry} {size nmemb : Word} (ptr : Word) (file : T.get fd = some o)
      (asked : size ≠ 0 ∧ nmemb ≠ 0) (whole : V.readable o.entry o.pos.toNat size.toNat nmemb.toNat) :
      Answers V T (.fread ptr size nmemb fd) ⟨nmemb.toNat, V.bytes o (size.toNat * nmemb.toNat)⟩ T
  | readAcross {T : Table} {fd code : ℤ} {o : OpenEntry} {size nmemb : Word} (ptr : Word)
      (data : List Byte) (file : T.get fd = some o) (asked : size ≠ 0 ∧ nmemb ≠ 0)
      (result : code = nmemb.toInt ∧ V.chained o.entry o.pos size nmemb ∨
        code < 0 ∧ ¬ V.chained o.entry o.pos size nmemb)
      (across : ¬ V.readable o.entry o.pos.toNat size.toNat nmemb.toNat) :
      Answers V T (.fread ptr size nmemb fd) ⟨code, data⟩ T
  | readNothing {T : Table} {fd : ℤ} {size nmemb : Word} (ptr : Word) (data : List Byte)
      (nothing : size = 0 ∨ nmemb = 0 ∨ T.get fd = none) :
      Answers V T (.fread ptr size nmemb fd) ⟨-einvarg, data⟩ T
  | other (T : Table) (s : Kmem) : Answers V T (.other s) ⟨0, []⟩ T

/-! The calls of the kernel. -/

/-- The memory of a buffer. -/
def buffer (mem : Mem) (a : Word) (n : ℕ) : List Byte := (List.range n).map fun j => mem (a + BitVec.ofNat 32 j)

def fileCall (v : Storage FatState) (fuel : ℕ) (k : FileState FatState) :
    FileCall → Option (Reply × FileState FatState)
  | .fopen _ filename modeStr => (fopen v fuel k filename modeStr).map fun r => (⟨r.1, []⟩, r.2)
  | .fclose fd => some (⟨(fclose v k fd).1, []⟩, (fclose v k fd).2)
  | .fseek fd offset whence => some (⟨(fseek v k fd offset whence).1, []⟩, (fseek v k fd offset whence).2)
  | .fstat fd stat => some (⟨(fstat v k fd stat).1, buffer (fstat v k fd stat).2.kmem.mem stat 8⟩,
      (fstat v k fd stat).2)
  | .fread ptr size nmemb fd => some (⟨(fread v k ptr size nmemb fd).1,
      buffer (fread v k ptr size nmemb fd).2.kmem.mem ptr (size.toNat * nmemb.toNat)⟩,
      (fread v k ptr size nmemb fd).2)
  | .other s => some (⟨0, []⟩, k.withKmem s)

variable {fuel : ℕ} {disk : Disk} {v : Storage FatState} {C : Content} {p : FatPrivate} {b m n : ℕ}
  {k k' : FileState FatState} {T : Table} {i : Fin maxFiledescriptors} {o : OpenEntry} {fd : ℤ} {s : Kmem}

/-- The volume of a disk as the driver finds it: with the names it makes of the entries, and the bytes its
own way through the table leads to. -/
def volume (fuel : ℕ) (disk : Disk) (p : FatPrivate) (C : Content) : Volume where
  named := NamedFile fuel C
  absent name := ∀ i < C.total, ¬ HasName fuel (C.entry i) (literal name)
  size := C.size
  flags := C.flags
  byte i n := fileByte disk p (C.start i) n
  chained i := ChainedMembers disk p (C.start i)
  readable i := Readable disk p (C.start i)

/-- The blocks of the root directory and of the open files stay. -/
structure KeepsBlocks (b m : ℕ) (k : FileState FatState) (s : Kmem) : Prop where
  root : KeepsRun b m k.kmem s
  files : ∀ i r c, k.fileDescriptors i ≠ 0 → c < 25600 → filePtr k i r = blockAddr c →
    KeepsRun c 1 k.kmem s

/-- A name is opened to read, of a file or of nothing; buffers lie apart from the files, and other work
leaves them alone. -/
def AllowedCall (fuel : ℕ) (C : Content) (b m : ℕ) (k : FileState FatState) : FileCall → Prop
  | .fopen name filename modeStr => Request k filename modeStr name ∧ ((∃ j, NamedFile fuel C name j) ∨
      ∀ i < C.total, ¬ HasName fuel (C.entry i) (literal name))
  | .fclose _ => True
  | .fseek _ _ _ => True
  | .fstat _ stat => BufferApart b m k stat 8
  | .fread ptr size nmemb _ => BufferApart b m k ptr (size.toNat * nmemb.toNat)
  | .other s => KeepsBlocks b m k s

/-! Each call is answered. -/

lemma Holds.slot_eq_zero (h : Holds fuel disk v p C b m k T) (i : Fin maxFiledescriptors) :
    k.fileDescriptors i = 0 ↔ T i = none := by
  constructor
  · intro hzero
    by_contra hi
    exact h.slot_ne hi hzero
  · exact h.closed i

/-- The first empty slot is that of the table. -/
lemma Holds.emptySlot_some (h : Holds fuel disk v p C b m k T) (hslot : emptySlot k.fileDescriptors = some i) :
    T i = none ∧ ∀ i' < i, T i' ≠ none := by
  unfold emptySlot at hslot
  obtain ⟨hzero, hfirst⟩ := Fin.find?_eq_some_iff.1 hslot
  refine ⟨(h.slot_eq_zero i).1 (by simpa using hzero), fun i' hi' hnone => ?_⟩
  have hne := hfirst i' hi'
  simp [(h.slot_eq_zero i').2 hnone] at hne

lemma Holds.emptySlot_none (h : Holds fuel disk v p C b m k T) (hslot : emptySlot k.fileDescriptors = none)
    (i : Fin maxFiledescriptors) : T i ≠ none := by
  unfold emptySlot at hslot
  have hne := Fin.find?_eq_none_iff.1 hslot i
  intro hnone
  simp [(h.slot_eq_zero i).2 hnone] at hne

lemma Holds.ready (h : Holds fuel disk v p C b m k T) (hready : Ready disk p) : Ready disk k.fs.fsPrivate :=
  hready.streamed h.streamed

lemma Holds.rootDirectory (h : Holds fuel disk v p C b m k T) :
    DirectoryStored fuel k.kmem k.fs.fsPrivate.rootDirectory C b m := by
  obtain ⟨table, clusters, -, -, heq⟩ := h.streamed
  have hroot : k.fs.fsPrivate.rootDirectory = p.rootDirectory := by rw [heq]
  rw [hroot]
  exact h.directory

/-- What a state and a call are answered with. -/
def AnsweredBy (fuel : ℕ) (disk : Disk) (v : Storage FatState) (p : FatPrivate) (C : Content) (b m : ℕ)
    (k : FileState FatState) (T : Table) (call : FileCall) : Prop :=
  ∃ reply k' T', fileCall v fuel k call = some (reply, k') ∧
    Answers (volume fuel disk p C) T call reply T' ∧ Holds fuel disk v p C b m k' T'

lemma Holds.fopen_answered (h : Holds fuel disk v p C b m k T) (hready : Ready disk p)
    (hserves : Serves fuel disk v) {name : List Byte} {filename modeStr : Word}
    (hrequest : Request k filename modeStr name) (hname : (∃ j, NamedFile fuel C name j) ∨
      ∀ i < C.total, ¬ HasName fuel (C.entry i) (literal name)) :
    AnsweredBy fuel disk v p C b m k T (.fopen name filename modeStr) := by
  unfold AnsweredBy
  rcases hname with ⟨j, hfile⟩ | hnone
  · cases hslot : emptySlot k.fileDescriptors with
    | some i =>
      obtain ⟨hempty, hfirst⟩ := h.emptySlot_some hslot
      obtain ⟨k', new, hopen, hnew, hkept, hptr, hfileAt, hsame, hslots, -⟩ := fopen_opens hserves
        (h.ready hready) h.rootDirectory hrequest hfile hslot
      exact ⟨_, k', _, by simp [fileCall, hopen], .opened filename modeStr hfile hempty hfirst,
        h.opens hnew hkept hptr hfileAt hsame hempty hslots⟩
    | none =>
      obtain ⟨k', hopen, hkept⟩ := fopen_full hserves (h.ready hready) h.rootDirectory hrequest hfile hslot
      exact ⟨_, k', T, by simp [fileCall, hopen], .full name filename modeStr (h.emptySlot_none hslot),
        h.unopened hkept⟩
  · obtain ⟨k', hopen, hkept⟩ := fopen_missing hserves h.rootDirectory hrequest hnone
    exact ⟨_, k', T, by simp [fileCall, hopen], .missing T filename modeStr hnone, h.unopened hkept⟩

lemma Holds.fclose_answered (h : Holds fuel disk v p C b m k T) (hserves : Serves fuel disk v) (fd : ℤ) :
    AnsweredBy fuel disk v p C b m k T (.fclose fd) := by
  unfold AnsweredBy
  cases hget : T.get fd with
  | none =>
    have hclose : fclose v k fd = (-eio, k) := by
      rw [fclose, h.get_none hget]
      rfl
    exact ⟨_, k, T, by simp only [fileCall, hclose], .closedNothing hget, h⟩
  | some o =>
    obtain ⟨i, hslot, hT⟩ := Table.get_some hget
    obtain ⟨k', hclose, hholds, -⟩ := h.closes hserves hT hslot
    exact ⟨_, k', _, by simp only [fileCall, hclose], .closed hslot hT, hholds⟩

lemma Holds.fseek_answered (h : Holds fuel disk v p C b m k T) (hserves : Serves fuel disk v) (fd offset : ℤ)
    (whence : Word) : AnsweredBy fuel disk v p C b m k T (.fseek fd offset whence) := by
  unfold AnsweredBy
  cases hget : T.get fd with
  | none =>
    have hseek : fseek v k fd offset whence = (-eio, k) := by
      rw [fseek, h.get_none hget]
      rfl
    exact ⟨_, k, T, by simp only [fileCall, hseek], .soughtNothing offset whence hget, h⟩
  | some o =>
    obtain ⟨i, hslot, hT⟩ := Table.get_some hget
    obtain ⟨k', hseek, hholds⟩ := h.seeks hserves hT hslot offset whence
    exact ⟨_, k', _, by simp [fileCall, hseek, volume], .sought offset whence hslot hT, hholds⟩

/-- A `file_stat` as its words have it. -/
lemma buffer_stat (mem : Mem) (stat : Word) :
    buffer mem stat 8 = statBytes (read32 mem stat) (read32 mem (stat + 4)) := by
  apply List.map_congr_left
  intro j hj
  rw [List.mem_range] at hj
  split_ifs with hfirst
  · exact (read32_byte mem stat hfirst).symm
  · rw [read32_byte mem (stat + 4) (show j - 4 < 4 by omega), BitVec.add_assoc]
    have hsum : 4 + (j - 4) = j := by omega
    have hword : (4 : Word) + BitVec.ofNat 32 (j - 4) = BitVec.ofNat 32 j := by
      rw [← hsum, BitVec.ofNat_add, hsum]
      rfl
    rw [hword]

lemma Holds.fstat_answered (h : Holds fuel disk v p C b m k T) (hserves : Serves fuel disk v) (fd : ℤ)
    {stat : Word} (hapart : BufferApart b m k stat 8) :
    AnsweredBy fuel disk v p C b m k T (.fstat fd stat) := by
  unfold AnsweredBy
  cases hget : T.get fd with
  | none =>
    have hstat : fstat v k fd stat = (-eio, k) := by
      rw [fstat, h.get_none hget]
      rfl
    exact ⟨_, k, T, by simp only [fileCall, hstat]; rfl, .statedNothing stat _ hget, h⟩
  | some o =>
    obtain ⟨i, hslot, hT⟩ := Table.get_some hget
    obtain ⟨k', hstat, hflags, hsize, hstored⟩ := h.stats hserves hT hslot hapart
    have hdata : buffer k'.kmem.mem stat 8 = statBytes (C.flags o.entry) (C.size o.entry) := by
      rw [buffer_stat, hflags, hsize]
    exact ⟨_, k', T, by simp [fileCall, hstat, hdata, volume], .stated stat hget,
      h.stores hstored hapart⟩

/-- Members that lie in clusters start in them. -/
lemma Readable.chained (hready : Ready disk p) {start : ℤ} {pos size nmemb : Word}
    (h : Readable disk p start pos.toNat size.toNat nmemb.toNat) (hsize : size ≠ 0) :
    ChainedMembers disk p start pos size nmemb := by
  have hpos : 0 < size.toNat := Nat.pos_of_ne_zero fun h0 => hsize (BitVec.eq_of_toNat_eq h0)
  have hint := h.int
  intro i hi q hq
  have hmember := h.member i hi
  have hle : size.toNat * i + size.toNat ≤ size.toNat * nmemb.toNat := by
    rw [← Nat.mul_succ]
    exact Nat.mul_le_mul_left _ hi
  have hoffset : (pos + BitVec.ofNat 32 i * size).toNat = pos.toNat + size.toNat * i := by
    have hprod : (BitVec.ofNat 32 i * size).toNat = size.toNat * i := by
      have hi' := nmemb.isLt
      have hsmall : size.toNat * i < 2 ^ 32 := by omega
      rw [BitVec.toNat_mul, BitVec.toNat_ofNat, Nat.mod_eq_of_lt (show i < 2 ^ 32 by omega), Nat.mul_comm,
        Nat.mod_eq_of_lt hsmall]
    rw [BitVec.toNat_add, hprod]
    omega
  rw [BitVec.toInt_eq_toNat_of_lt (by omega), hoffset]
  rw [BitVec.toInt_eq_toNat_of_lt (by omega)] at hq
  have hcluster := sizeOfClusterBytes_pos disk hready.sectors
  have hnonneg : 0 ≤ (q : ℤ) * sizeOfClusterBytes disk p := Int.mul_nonneg (by omega) hcluster.le
  refine (hmember.chain _ (by omega) ?_).1
  rcases hq with rfl | hq
  · simpa using hpos
  · omega

lemma Holds.fread_answered (h : Holds fuel disk v p C b m k T) (hready : Ready disk p)
    (hserves : Serves fuel disk v) (fd : ℤ) {ptr size nmemb : Word}
    (hapart : BufferApart b m k ptr (size.toNat * nmemb.toNat)) :
    AnsweredBy fuel disk v p C b m k T (.fread ptr size nmemb fd) := by
  unfold AnsweredBy
  by_cases hnothing : size = 0 ∨ nmemb = 0 ∨ T.get fd = none
  · have hread : fread v k ptr size nmemb fd = (-einvarg, k) := by
      unfold fread
      rcases hnothing with hzero | hzero | hget
      · rw [if_pos (.inl hzero)]
      · rw [if_pos (.inr (.inl hzero))]
      · dsimp only
        rw [h.get_none hget, if_pos rfl, ite_self]
    exact ⟨_, k, T, by simp only [fileCall, hread]; rfl, .readNothing ptr _ hnothing, h⟩
  · simp only [not_or] at hnothing
    obtain ⟨hsize, hnmemb, hget⟩ := hnothing
    obtain ⟨o, hget⟩ := Option.ne_none_iff_exists'.1 hget
    obtain ⟨i, hslot, hT⟩ := Table.get_some hget
    obtain ⟨code, k', hread, hstored, hresult, hbytes⟩ := h.reads hready hserves hT hslot hsize hnmemb hapart
    have hholds := h.stores hstored hapart
    by_cases hwhole : Readable disk p (C.start o.entry) o.pos.toNat size.toNat nmemb.toNat
    · have hcode : code = nmemb.toNat := by
        rcases hresult with ⟨hcode, -⟩ | ⟨-, hbroken⟩
        · have hint := hwhole.int
          have hpos : 0 < size.toNat := Nat.pos_of_ne_zero fun h0 => hsize (BitVec.eq_of_toNat_eq h0)
          have hle : nmemb.toNat ≤ size.toNat * nmemb.toNat := Nat.le_mul_of_pos_left _ hpos
          rw [hcode, BitVec.toInt_eq_toNat_of_lt (by omega)]
        · exact absurd (hwhole.chained hready hsize) hbroken
      have hdata : buffer k'.kmem.mem ptr (size.toNat * nmemb.toNat) =
          (volume fuel disk p C).bytes o (size.toNat * nmemb.toNat) :=
        List.map_congr_left fun j hj => hbytes hwhole j (List.mem_range.1 hj)
      exact ⟨_, k', T, by simp only [fileCall, hread, hdata, hcode], .read ptr hget ⟨hsize, hnmemb⟩ hwhole, hholds⟩
    · exact ⟨_, k', T, by simp only [fileCall, hread]; rfl, .readAcross ptr _ hget ⟨hsize, hnmemb⟩ hresult hwhole, hholds⟩

/-- Other work of the kernel leaves the files as they are. -/
lemma Holds.other (h : Holds fuel disk v p C b m k T) (hkept : KeepsBlocks b m k s) :
    Holds fuel disk v p C b m (k.withKmem s) T := by
  have hfiles : FilesKept k (k.withKmem s) b m T :=
    ⟨hkept.root, fun _ _ => rfl, fun _ _ _ => ⟨rfl, rfl, rfl⟩,
      fun i hi r c hc haddr => hkept.files i r c (h.slot_ne hi) hc haddr⟩
  exact h.keeps hfiles h.streamed h.closed

/-- Every allowed call returns and is answered, and the table after it is held. -/
lemma Holds.answered (h : Holds fuel disk v p C b m k T) (hready : Ready disk p)
    (hserves : Serves fuel disk v) {call : FileCall} (hallowed : AllowedCall fuel C b m k call) :
    AnsweredBy fuel disk v p C b m k T call := by
  cases call with
  | fopen name filename modeStr => exact h.fopen_answered hready hserves hallowed.1 hallowed.2
  | fclose fd => exact h.fclose_answered hserves fd
  | fseek fd offset whence => exact h.fseek_answered hserves fd offset whence
  | fstat fd stat => exact h.fstat_answered hserves fd hallowed
  | fread ptr size nmemb fd => exact h.fread_answered hready hserves fd hallowed
  | other s => exact ⟨_, _, T, rfl, .other T s, h.other hallowed⟩

/-- Whatever the programs open, seek in, read and close, and whatever else the kernel does, all calls
return, each is answered from the files of the volume, as the driver finds them, and those that are
open, and no two open files ever share a block. -/
theorem fileCalls_answered {calls : List FileCall} (hready : Ready disk p) (hserves : Serves fuel disk v)
    (h : Holds fuel disk v p C b m k T)
    (hallowed : Runs.AllAllowed (fileCall v fuel) (AllowedCall fuel C b m) calls k) :
    ∃ replies k' T', Runs.calls (fileCall v fuel) calls k = some (replies, k') ∧
      Runs.Answered (Answers (volume fuel disk p C)) T calls replies T' ∧
      Holds fuel disk v p C b m k' T' :=
  Runs.calls_refine (fun _ _ _ hholds hcall => hholds.answered hready hserves hcall) hallowed h

lemma not_mem_freePages {x : Word} (hx : pageOf x ∉ highPages) : pageOf x ∉ freePages s := by
  rintro ⟨c, -, -, heq⟩
  exact hx (by rw [Set.mem_Ici]; omega)

/-- A buffer below the heap is in no block. -/
lemma pageOf_low {a x : Word} (h : a.toNat + n ≤ 2 ^ 24) (hx : InRange a n x) : pageOf x < 4096 := by
  unfold InRange at hx
  rw [BitVec.toNat_sub] at hx
  have hlt := x.isLt
  unfold pageOf
  omega

/-- It lies apart from the files. -/
lemma bufferApart_low {a : Word} (h : a.toNat + n ≤ 2 ^ 24) : BufferApart b m k a n := by
  intro x hx hpage
  have hlow := pageOf_low h hx
  rcases hpage with ⟨hhigh, -⟩ | ⟨i, r, c, -, -, -, hhigh⟩
  · omega
  · omega

lemma letterFile_named : NamedFile 110 letterFile [97] 0 := by
  have hname : (fat16GetFullRelativeFilename 110 (letterFile.entry 0) (fun _ => 0)
      maxPathLength).map (fun r => istrncmp r.out (literal [97]) maxPathLength) = some 0 := by
    decide +kernel
  have htotal : letterFile.total = 1 := by decide
  refine ⟨by rw [htotal]; decide, Option.map_eq_some_iff.1 hname, fun i hi _ => ?_, by decide⟩
  omega

/-- The kernel after its start, with nothing open. -/
lemma Formatted.letterKernel_holds (h : Formatted 110 disk C) (hblocks : rootBlocks disk = 4)
    (hsignature : disk.byte 38 = 0x29) : ∃ k b, Ready disk k.fs.fsPrivate ∧ Laid disk k.fs.fsPrivate ∧
      FreeFrom k.kmem 9 ∧ SameOff highPages letterKernel.kmem.mem k.kmem.mem ∧
      Holds 110 disk v k.fs.fsPrivate C b 4 k fun _ => none := by
  obtain ⟨res, ptr, p, s', -, hkept, -, htaken⟩ := @Formatted.resolves 110 disk C
    letterKernel.kmem 0 h (kheapInit_linked _) (fun _ _ hb => kheapInit_free _ _ hb)
    (by rw [hblocks]; decide)
  rw [hblocks] at htaken
  obtain ⟨hready, hlaid, hfree, b, hstored⟩ := htaken hsignature
  exact ⟨letterKernel.withFs (mountedState p, s'), b, hready, hlaid, hfree, hkept.low,
    @DirectoryStored.holds_none _ _ _ _ _ (letterKernel.withFs (mountedState p, s')) v hstored
      hready fun _ => rfl⟩

/-- The path and the mode are there to be read. -/
lemma letterKernel_request (hfree : FreeFrom k.kmem 9)
    (hlow : SameOff highPages letterKernel.kmem.mem k.kmem.mem) : Request k 0x1000 0x1005 [97] := by
  have hpage : ∀ j < 4096, pageOf (0x1000 + BitVec.ofNat 32 j) = 1 := fun j hj => pageOf_add (by rfl) hj
  have hout : ∀ j < 4096, pageOf (0x1000 + BitVec.ofNat 32 j) ∉ highPages := by
    intro j hj
    rw [hpage j hj, Set.mem_Ici]
    decide
  have hbytes : BytesAt k.kmem.mem 0x1000 ([48, 58, slash, 97, 0] ++ ([114] ++ [0])) :=
    (writeBytes_bytesAt (by decide)).congr fun j hj => hlow _ (hout j (lt_trans hj (by decide)))
  obtain ⟨hpath, hmode⟩ := bytesAt_append.1 hbytes
  exact ⟨⟨by decide, by decide, by decide, hpath, fun j hj => ⟨not_mem_freePages (hout j (by
    exact lt_of_le_of_lt hj (by decide))), by
      rw [hpage j (lt_of_le_of_lt hj (by decide))]
      decide⟩⟩, ⟨by decide, by decide⟩, hmode.1, not_mem_freePages (hout 5 (by decide)),
    hfree.atLeast (by decide)⟩

theorem fileCalls_answered_letter : ∃ k b replies k' T',
    Runs.calls (fileCall letterStorage 110) [.fopen [97] 0x1000 0x1005, .fread 0x3000 5 2 1, .fclose 1] k =
        some (replies, k') ∧
      Runs.Answered (Answers (volume 110 letterDisk k.fs.fsPrivate letterFile)) (fun _ => none)
        [.fopen [97] 0x1000 0x1005, .fread 0x3000 5 2 1, .fclose 1] replies T' ∧
      Holds 110 letterDisk letterStorage k.fs.fsPrivate letterFile b 4 k' T' := by
  obtain ⟨k, b, hready, -, hfree, hlow, hholds⟩ :=
    letterDisk_formatted.letterKernel_holds letterDisk_rootBlocks (by decide)
  have hfirst : AllowedCall 110 letterFile b 4 k (.fopen [97] 0x1000 0x1005) :=
    ⟨letterKernel_request hfree hlow, .inl ⟨0, letterFile_named⟩⟩
  obtain ⟨replies, k', T', hanswered⟩ := @fileCalls_answered 110 letterDisk letterStorage letterFile _ b 4 k
    _ [.fopen [97] 0x1000 0x1005, .fread 0x3000 5 2 1, .fclose 1] hready letterStorage_serves hholds
    ⟨hfirst, fun _ _ => ⟨bufferApart_low (by decide), fun _ _ => ⟨trivial, fun _ _ => trivial⟩⟩⟩
  exact ⟨k, b, replies, k', T', hanswered⟩

end AlphaOS.Fat16
