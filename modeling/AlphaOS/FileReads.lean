import AlphaOS.FileTable

/-! What `fread` delivers of an open file, and that the other files stay. -/
namespace AlphaOS.Fat16
open BlockHeap CString Files Kheap Paging Streamer WordMemory

variable {fuel : ℕ} {disk : Disk} {v : Storage FatState} {C : Content} {p p' : FatPrivate} {b m n : ℕ}
  {k k' : FileState FatState} {T : Table} {i : Fin maxFiledescriptors} {o : OpenEntry} {fd : ℤ}
  {start offset : ℤ}

/-- The byte at an offset of a file, as the driver finds it. -/
def fileByte (disk : Disk) (p : FatPrivate) (start offset : ℤ) : Byte :=
  disk.byte (bytePos disk p start offset)

/-- These bytes of a file have clusters, and no piece of a read of them runs past the end of one. -/
structure InClusters (disk : Disk) (p : FatPrivate) (start offset : ℤ) (n : ℕ) : Prop where
  low : 0 ≤ offset
  chain : ∀ o, offset ≤ o → o < offset + n →
    0 ≤ clusterFor disk p start o ∧ 0 ≤ bytePos disk p start o ∧ bytePos disk p start o < 2 ^ 31
  within : ∀ j : ℕ, j < n →
    offset % sizeOfClusterBytes disk p + j % sizeOfClusterBytes disk p < sizeOfClusterBytes disk p

lemma pieces_byte {mem : Mem} {out : Word} {j : ℕ} (hj : j < n) (hn : n < 2 ^ 32) :
    pieces disk p start offset n mem out (out + BitVec.ofNat 32 j) =
      disk.byte (piecePos disk p start offset j) := by
  have hback : (out + BitVec.ofNat 32 j - out).toNat = j := by
    rw [BitVec.add_comm, BitVec.add_sub_cancel, BitVec.toNat_ofNat]
    omega
  have hin : InRange out n (out + BitVec.ofNat 32 j) := by
    unfold InRange
    omega
  rw [pieces, if_pos hin, hback]

/-- Such a read delivers the bytes of the file. -/
lemma fat16ReadInternal_delivers (hmounted : Mounted disk p) (h : Streamed disk p p') (hpos : 0 < n)
    (hn : n < 2 ^ 31) (hin : InClusters disk p start offset n) (mem : Mem) (out : Word) :
    ∃ p'' mem', fat16ReadInternal disk p' start offset n mem out = some (0, p'', mem') ∧
      Streamed disk p p'' ∧ (∀ x, ¬ InRange out n x → mem' x = mem x) ∧
      ∀ j < n, mem' (out + BitVec.ofNat 32 j) = fileByte disk p start (offset + j) := by
  obtain ⟨p'', hread⟩ := @fat16ReadInternal_run disk p p' start offset hmounted.table hmounted.sectors
    h hin.low n hpos hn hin.chain mem out
  obtain ⟨res, q, mem', hread', hstreamed, hframe, -⟩ := @fat16ReadInternal_chained disk p p' start
    offset n hmounted.table hmounted.sectors h (by omega) mem out
  rw [hread] at hread'
  cases hread'
  refine ⟨p'', _, hread, hstreamed, fun x hx => hframe x hx, fun j hj => ?_⟩
  obtain ⟨-, hlow, hhigh⟩ := hin.chain (offset + j) (by omega) (by omega)
  rw [pieces_byte hj (by omega), piecePos_eq hmounted.sectors hin.low (hin.within j hj) hlow hhigh]
  rfl

/-- A request of `n` members lies in the clusters of a file, member by member. -/
structure Readable (disk : Disk) (p : FatPrivate) (start : ℤ) (pos size n : ℕ) : Prop where
  int : pos + size * n < 2 ^ 31
  member : ∀ i < n, InClusters disk p start (pos + size * i : ℕ) size

lemma Readable.tail {pos size : ℕ} (h : Readable disk p start pos size (n + 1)) :
    Readable disk p start (pos + size) size n := by
  have hmul : ∀ i, size * (i + 1) = size + size * i := fun i => by ring
  refine ⟨by linarith only [h.int, hmul n], fun i hi => ?_⟩
  have hmember := h.member (i + 1) (by omega)
  rwa [hmul, ← Nat.add_assoc] at hmember

/-- The first member is read whole. -/
lemma Readable.first {n : ℕ} {offset size out : Word}
    (h : Readable disk p start offset.toNat size.toNat (n + 1)) (hmounted : Mounted disk p)
    (hstreamed : Streamed disk p p') (hpos : size ≠ 0) {mem mem' : Mem} {res : ℤ} {p'' : FatPrivate}
    (hread : fat16ReadInternal disk p' start offset.toInt size.toInt mem out = some (res, p'', mem')) :
    res = 0 ∧ ∀ j < size.toNat, mem' (out + BitVec.ofNat 32 j) =
      fileByte disk p start (offset.toNat + j : ℕ) := by
  have hint := h.int
  have hmul : size.toNat * (n + 1) = size.toNat + size.toNat * n := by ring
  have hsize : 0 < size.toNat := Nat.pos_of_ne_zero fun h0 => hpos (BitVec.eq_of_toNat_eq h0)
  have hin := h.member 0 (Nat.succ_pos n)
  rw [Nat.mul_zero, Nat.add_zero] at hin
  obtain ⟨q, mem'', hread', -, -, hbytes⟩ := @fat16ReadInternal_delivers disk p p' size.toNat start
    offset.toNat hmounted hstreamed hsize (by omega) hin mem out
  rw [← BitVec.toInt_eq_toNat_of_lt (x := size) (by omega),
    ← BitVec.toInt_eq_toNat_of_lt (x := offset) (by omega), hread] at hread'
  cases hread'
  refine ⟨rfl, fun j hj => ?_⟩
  rw [hbytes j hj, Nat.cast_add]

/-- The first cluster of an entry that stays. -/
lemma firstCluster_same {mem mem' : Mem} {item : Word}
    (h : ∀ j : ℤ, 0 ≤ j → j < 32 → pointer mem' item j = pointer mem item j) :
    fat16GetFirstCluster (pointer mem' item) = fat16GetFirstCluster (pointer mem item) := by
  rw [fat16GetFirstCluster, fat16GetFirstCluster]
  simp only [FatDirectoryItem.high16BitsFirstCluster, FatDirectoryItem.low16BitsFirstCluster]
  rw [h 21, h 20, h 27, h 26] <;> norm_num

/-- The loop of `fat16_read` stores into its buffer only, and what it delivers of members in the
clusters of the file are the bytes of the file. -/
lemma fat16ReadLoop_delivers (hmounted : Mounted disk p) (h : Streamed disk p p') {size item : Word}
    (hpos : size ≠ 0) (n : ℕ) {mem : Mem} {offset out : Word}
    (hstart : (fat16GetFirstCluster (pointer mem item)).toInt = start)
    (hlen : size.toNat * n < 2 ^ 32)
    (hapart : ∀ j : ℤ, 0 ≤ j → j < 32 → ¬ InRange out (size.toNat * n) (item + BitVec.ofInt 32 j)) :
    ∃ r, fat16ReadLoop disk size item n p' mem offset out = some r ∧ Streamed disk p r.2.1 ∧
      (∀ x, ¬ InRange out (size.toNat * n) x → r.2.2 x = mem x) ∧
      (Readable disk p start offset.toNat size.toNat n → ∀ j < size.toNat * n,
        r.2.2 (out + BitVec.ofNat 32 j) = fileByte disk p start (offset.toNat + j : ℕ)) := by
  induction n generalizing p' mem offset out with
  | zero => exact ⟨_, rfl, h, fun _ _ => rfl, by simp⟩
  | succ n ih =>
    have hlt : size.toInt < 2 ^ 31 := by
      have htop := BitVec.toInt_lt (x := size)
      simpa using htop
    obtain ⟨res, p'', mem', hread, hstreamed, hframe, hle, hchained⟩ := @fat16ReadInternal_chained
      disk p p' start offset.toInt size.toInt hmounted.table hmounted.sectors h hlt mem out
    have hpart : size.toInt.toNat ≤ size.toNat := by
      rw [BitVec.toInt_eq_toNat_cond]
      split_ifs <;> omega
    have hmul : size.toNat * (n + 1) = size.toNat + size.toNat * n := by ring
    rw [hmul] at hlen hapart ⊢
    have hout : out + BitVec.ofNat 32 size.toNat = out + size := by simp
    have hsplit := fun x => (inRange_split out x hlen).1
    rw [hout] at hsplit
    have hmember : ∀ x, ¬ InRange out size.toNat x → mem' x = mem x := fun x hx =>
      hframe x fun hin => hx (lt_of_lt_of_le hin hpart)
    have hcluster : (fat16GetFirstCluster (pointer mem' item)).toInt = start := by
      rw [firstCluster_same fun j hlow hhigh => hmember _ fun hin =>
        hapart j hlow hhigh ((hsplit _).2 (.inl hin)), hstart]
    rw [fat16ReadLoop, hstart, hread, Option.bind_some]
    have hfirst := fun hreadable : Readable disk p start offset.toNat size.toNat (n + 1) =>
      hreadable.first hmounted h hpos hread
    by_cases hneg : res < 0
    · rw [if_pos hneg]
      refine ⟨_, rfl, hstreamed, fun x hx => hmember x fun hin => hx ((hsplit x).2 (.inl hin)),
        fun hreadable => ?_⟩
      exact absurd (hfirst hreadable).1 hneg.ne
    rw [if_neg hneg]
    obtain ⟨r, hr, hstreamed', hrest, hbytes⟩ := @ih p'' hstreamed mem' (offset + size) (out + size)
      hcluster (by omega) fun j hlow hhigh hin => hapart j hlow hhigh ((hsplit _).2 (.inr hin))
    refine ⟨r, hr, hstreamed', fun x hx => ?_, fun hreadable j hj => ?_⟩
    · rw [hrest x fun hin => hx ((hsplit x).2 (.inr hin)),
        hmember x fun hin => hx ((hsplit x).2 (.inl hin))]
    · have hint := hreadable.int
      rw [hmul] at hint
      have hnext : (offset + size).toNat = offset.toNat + size.toNat := by
        rw [BitVec.toNat_add]
        omega
      by_cases hearly : j < size.toNat
      · rw [hrest, (hfirst hreadable).2 j hearly]
        unfold InRange
        have hshift : out + BitVec.ofNat 32 j - (out + size) = BitVec.ofNat 32 j - size := by abel
        rw [hshift, BitVec.toNat_sub, BitVec.toNat_ofNat]
        omega
      · obtain ⟨j', rfl⟩ := Nat.exists_eq_add_of_le (Nat.le_of_not_lt hearly)
        have hshift : out + BitVec.ofNat 32 (size.toNat + j') = out + size + BitVec.ofNat 32 j' := by
          rw [BitVec.ofNat_add, BitVec.ofNat_toNat, BitVec.setWidth_eq, BitVec.add_assoc]
        rw [hnext] at hbytes
        rw [hshift, hbytes hreadable.tail j' (by omega), Nat.add_assoc]

/-! `fread` of an open file of the table. -/

/-- Every piece of every member starts in a cluster of the file. -/
def ChainedMembers (disk : Disk) (p : FatPrivate) (start : ℤ) (pos size nmemb : Word) : Prop :=
  ∀ i < nmemb.toNat, Chained disk p start (pos + BitVec.ofNat 32 i * size).toInt size.toInt

/-- The entry of an open file lies outside of a buffer that is apart from the files. -/
lemma Holds.clone_apart (h : Holds fuel disk v p C b m k T) (hT : T i = some o) {ptr : Word}
    (hapart : BufferApart b m k ptr n) {j : ℤ} (hlow : 0 ≤ j) (hhigh : j < 32) :
    ¬ InRange ptr n (filePtr k i .clone + BitVec.ofInt 32 j) := by
  obtain ⟨j, rfl⟩ := Int.eq_ofNat_of_zero_le hlow
  intro hin
  have hpage := h.clone_page hT (show j < sizeofDirectoryItem by unfold sizeofDirectoryItem; omega)
  rw [BitVec.ofInt_natCast] at hin
  exact hapart _ hin hpage

/-- A read counts its members exactly when they are in the chain of the file, and delivers its bytes. -/
lemma Holds.reads (h : Holds fuel disk v p C b m k T) (hready : Ready disk p) (hserves : Serves fuel disk v)
    (hT : T i = some o) (hslot : slotOf fd = some i) {ptr size nmemb : Word} (hsize : size ≠ 0)
    (hnmemb : nmemb ≠ 0) (hapart : BufferApart b m k ptr (size.toNat * nmemb.toNat)) :
    ∃ code k', fread v k ptr size nmemb fd = (code, k') ∧
      StoresIn disk p k k' ptr (size.toNat * nmemb.toNat) ∧
      (code = nmemb.toInt ∧ ChainedMembers disk p (C.start o.entry) o.pos size nmemb ∨
        code < 0 ∧ ¬ ChainedMembers disk p (C.start o.entry) o.pos size nmemb) ∧
      (Readable disk p (C.start o.entry) o.pos.toNat size.toNat nmemb.toNat →
        ∀ j < size.toNat * nmemb.toNat, k'.kmem.mem (ptr + BitVec.ofNat 32 j) =
          fileByte disk p (C.start o.entry) (o.pos.toNat + j : ℕ)) := by
  have hfile := h.file i o hT
  have hopen := hfile.isOpen hslot hserves
  have hitem := hfile.item_eq hslot
  have hpos := hfile.position_eq hslot
  have hstart := hfile.start_eq hslot
  have hmounted := (hready.streamed h.streamed).toMounted
  have hapart' : ∀ j : ℤ, 0 ≤ j → j < 32 → ¬ InRange ptr (size.toNat * nmemb.toNat)
      ((openItem k fd).item + BitVec.ofInt 32 j) := by
    intro j hlow hhigh
    rw [hitem]
    exact h.clone_apart hT hapart hlow hhigh
  have hlen : size.toNat * nmemb.toNat < 2 ^ 32 := by
    have hfirst := hapart' 0 le_rfl (by norm_num)
    unfold InRange at hfirst
    omega
  have hchained : ChainedItems disk k fd size nmemb ↔
      ChainedMembers disk p (C.start o.entry) o.pos size nmemb := by
    unfold ChainedItems ChainedMembers
    rw [hstart, hpos]
    simp only [h.streamed.chained hready.table]
  have hresult := hopen.fread_result hmounted hsize hnmemb hapart'
  rw [hchained] at hresult
  obtain ⟨r, hloop, hstreamed, hframe, hbytes⟩ := @fat16ReadLoop_delivers disk p k.fs.fsPrivate _
    hready.toMounted h.streamed size (openItem k fd).item hsize nmemb.toNat k.kmem.mem (position k fd)
    ptr hstart hlen hapart'
  have hread : fat16Read disk k.fs k.kmem (privateData k fd) size nmemb ptr =
      some (if r.1 < 0 then r.1 else nmemb.toInt, k.fs.withPrivate r.2.1, k.kmem.withMem r.2.2) := by
    rw [fat16Read]
    exact congrArg (Option.map _) hloop
  have heq := hopen.fread_eq hsize hnmemb ptr
  rw [hread] at heq
  rw [heq] at hresult
  rw [hpos] at hbytes
  exact ⟨_, _, heq, .of_eq hstreamed hframe, hresult, hbytes⟩

end AlphaOS.Fat16
