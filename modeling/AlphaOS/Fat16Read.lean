import AlphaOS.Fat16Table

/-! Reads of the data clusters. A request is cut into pieces of the size of a cluster, whatever
the offset of the first one in its cluster. -/
namespace AlphaOS.Fat16
open Streamer WordMemory

variable {disk : Disk} {p p' : FatPrivate} {start offset total : ℤ}

/-- The cluster for an offset of a file. -/
def clusterFor (disk : Disk) (p : FatPrivate) (start offset : ℤ) : ℤ :=
  ((fat16GetClusterForOffet disk p start offset).map Prod.fst).getD (-eio)

/-- The position of the disk that holds the byte at an offset of a file. -/
def bytePos (disk : Disk) (p : FatPrivate) (start offset : ℤ) : ℤ :=
  512 * fat16ClusterToSector p (clusterFor disk p start offset) +
    offset % sizeOfClusterBytes disk p

/-- The position byte `j` of a read comes from: `j % size` after that of the piece's first byte. It
is the stream's `int`, which wraps around where the piece reaches 2 ^ 31. -/
def piecePos (disk : Disk) (p : FatPrivate) (start offset : ℤ) (j : ℕ) : ℤ :=
  (bytePos disk p start (offset + j - j % sizeOfClusterBytes disk p) +
    j % sizeOfClusterBytes disk p).bmod (2 ^ 32)

lemma sizeOfClusterBytes_pos (disk : Disk) (hsize : p.header.sectorsPerCluster ≠ 0) :
    0 < sizeOfClusterBytes disk p := by
  have hpos : p.header.sectorsPerCluster.toNat ≠ 0 := fun hz => hsize (BitVec.eq_of_toNat_eq hz)
  unfold sizeOfClusterBytes Disk.sectorSize
  omega

lemma clusterFor_eq (disk : Disk) (hsize : p.header.sectorsPerCluster ≠ 0) (start offset : ℤ) :
    fat16GetClusterForOffet disk p start offset =
      some (clusterLoop disk (offset.tdiv (sizeOfClusterBytes disk p)).toNat p start) ∧
    clusterFor disk p start offset =
      (clusterLoop disk (offset.tdiv (sizeOfClusterBytes disk p)).toNat p start).1 := by
  have hne := (sizeOfClusterBytes_pos disk hsize).ne'
  have hwalk : fat16GetClusterForOffet disk p start offset =
      some (clusterLoop disk (offset.tdiv (sizeOfClusterBytes disk p)).toNat p start) := by
    rw [fat16GetClusterForOffet, if_neg hne]
  exact ⟨hwalk, by rw [clusterFor, hwalk]; rfl⟩

lemma Moved.size_eq (h : Moved disk p p') : sizeOfClusterBytes disk p' = sizeOfClusterBytes disk p := by
  obtain ⟨-, -, rfl⟩ := h
  rfl

lemma Moved.clusterFor_eq (h : Moved disk p p') (hopen : TableOpen disk p) (start offset : ℤ) :
    clusterFor disk p' start offset = clusterFor disk p start offset := by
  have hsize := h.size_eq
  rw [clusterFor, clusterFor, fat16GetClusterForOffet, fat16GetClusterForOffet, hsize]
  by_cases hzero : sizeOfClusterBytes disk p = 0
  · rw [if_pos hzero, if_pos hzero]
  · rw [if_neg hzero, if_neg hzero]
    exact h.clusterLoop_eq hopen _ start

lemma Moved.bytePos_eq (h : Moved disk p p') (hopen : TableOpen disk p) :
    bytePos disk p' start offset = bytePos disk p start offset := by
  have hcluster := h.clusterFor_eq hopen start offset
  have hsize := h.size_eq
  rw [bytePos, bytePos, hcluster, hsize]
  obtain ⟨-, -, rfl⟩ := h
  rfl

/-- The position is that of the byte where it is an `int`, and wraps around elsewhere. -/
lemma startingPos_eq (disk : Disk) (p : FatPrivate) (cluster offsetFromCluster : ℤ) :
    startingPos disk p cluster offsetFromCluster =
      (512 * fat16ClusterToSector p cluster + offsetFromCluster).bmod (2 ^ 32) := by
  have hsize : (BitVec.ofInt 32 disk.sectorSize).toInt = 512 := rfl
  simp only [startingPos, BitVec.toInt_add, BitVec.toInt_mul, BitVec.toInt_ofInt, hsize]
  rw [Int.bmod_mul_bmod, Int.bmod_add_bmod, Int.add_bmod_bmod, Int.mul_comm]

lemma startingPos_of_bounds {cluster offsetFromCluster : ℤ}
    (hlow : 0 ≤ 512 * fat16ClusterToSector p cluster + offsetFromCluster)
    (hhigh : 512 * fat16ClusterToSector p cluster + offsetFromCluster < 2 ^ 31) :
    startingPos disk p cluster offsetFromCluster =
      512 * fat16ClusterToSector p cluster + offsetFromCluster := by
  rw [startingPos_eq]
  apply Int.bmod_eq_of_le <;> omega

/-- One piece: the read of the piece, and what is left. -/
lemma fat16ReadInternalFromStream_eq (hopen : TableOpen disk p)
    (hsize : p.header.sectorsPerCluster ≠ 0) {stream : DiskStream} (hdisk : stream.disk = disk.addr)
    (hoffset : 0 ≤ offset) (hcluster : 0 ≤ clusterFor disk p start offset)
    (hpos : 0 ≤ bytePos disk p start offset) (hint : bytePos disk p start offset < 2 ^ 31) {n : ℕ}
    (hn : n < 2 ^ 31) {c : ℕ}
    (hc : sizeOfClusterBytes disk p = c) (mem : Mem) (out : Word) :
    ∃ p', Moved disk p p' ∧ fat16ReadInternalFromStream disk p stream start offset n mem out =
      if c < n then
        fat16ReadInternalFromStream disk p'
          (DiskStream.moved ⟨bytePos disk p start offset, stream.disk⟩ c) start
          (offset + c) ((n - c : ℕ) : ℤ)
          (disk.wrapped.transfer (bytePos disk p start offset) c mem out) (out + BitVec.ofNat 32 c)
      else some (0, p', DiskStream.moved ⟨bytePos disk p start offset, stream.disk⟩ n,
        disk.wrapped.transfer (bytePos disk p start offset) n mem out) := by
  obtain ⟨hwalk, hfor⟩ := clusterFor_eq disk hsize start offset
  have hcpos := sizeOfClusterBytes_pos disk hsize
  generalize hw : clusterLoop disk (offset.tdiv (sizeOfClusterBytes disk p)).toNat p start = walk
    at hwalk hfor
  have hmoved : Moved disk p walk.2.2 := by
    rw [← hw]
    exact clusterLoop_moved hopen _ start
  have hstart : startingPos disk walk.2.2 walk.1 (offset.tmod (sizeOfClusterBytes disk p)) =
      bytePos disk p start offset := by
    have hsector : fat16ClusterToSector walk.2.2 walk.1 = fat16ClusterToSector p walk.1 := by
      obtain ⟨_, _, hp⟩ := hmoved
      rw [hp]
      rfl
    rw [bytePos, hfor, ← hsector] at hpos hint ⊢
    rw [Int.tmod_eq_emod_of_nonneg hoffset]
    exact startingPos_of_bounds hpos hint
  refine ⟨walk.2.2, hmoved, ?_⟩
  rw [fat16ReadInternalFromStream, hwalk]
  dsimp only
  rw [if_neg (by omega), if_neg (by omega), hstart, hc]
  simp only [diskstreamerSeek, ne_eq, not_true_eq_false, if_false]
  by_cases hlt : c < n
  · have hlen : (if (n : ℤ) > (c : ℤ) then (c : ℤ) else n) = c := if_pos (by omega)
    have hleft : (n : ℤ) - c = ((n - c : ℕ) : ℤ) := by omega
    obtain ⟨hres, hstream, hmem⟩ := diskstreamerRead_wrapped c
      ⟨bytePos disk p start offset, stream.disk⟩ mem out hdisk (.inl hpos) (by linarith) hint
      (by omega)
    simp only [hlen, hres, hstream, hmem, hleft, if_pos hlt, not_true_eq_false, if_false,
      BitVec.ofInt_natCast]
    rw [if_pos (by omega)]
  · have hlen : (if (n : ℤ) > (c : ℤ) then (c : ℤ) else n) = n := if_neg (by omega)
    obtain ⟨hres, hstream, hmem⟩ := diskstreamerRead_wrapped n
      ⟨bytePos disk p start offset, stream.disk⟩ mem out hdisk (.inl hpos) (by linarith) hint hn
    simp only [hlen, hres, hstream, hmem, if_neg hlt, not_true_eq_false, if_false]
    rw [if_neg (by omega)]

lemma piecePos_lt {c : ℕ} (hc : sizeOfClusterBytes disk p = c) {j : ℕ} (hj : j < c) :
    piecePos disk p start offset j = (bytePos disk p start offset + j).bmod (2 ^ 32) := by
  have hmod : (j : ℤ) % c = j := Int.emod_eq_of_lt (by omega) (by omega)
  rw [piecePos, hc, hmod, Int.add_sub_cancel]

lemma piecePos_add {c : ℕ} (hc : sizeOfClusterBytes disk p = c) (j : ℕ) :
    piecePos disk p start offset (c + j) = piecePos disk p start (offset + c) j := by
  have hmod : ((c + j : ℕ) : ℤ) % c = j % c := by
    push_cast
    exact Int.add_emod_left _ _
  have hstart : offset + ((c + j : ℕ) : ℤ) - j % c = offset + c + j - j % c := by
    push_cast
    ring
  rw [piecePos, piecePos, hc, hmod, hstart]

/-- Memory with the pieces of a read laid over it. -/
def pieces (disk : Disk) (p : FatPrivate) (start offset : ℤ) (n : ℕ) (mem : Mem) (out : Word) : Mem :=
  fun x => if InRange out n x then disk.byte (piecePos disk p start offset (x - out).toNat) else mem x

lemma transfer_eq_pieces {c : ℕ} (hc : sizeOfClusterBytes disk p = c) {n : ℕ} (hn : n ≤ c)
    (mem : Mem) (out : Word) :
    disk.wrapped.transfer (bytePos disk p start offset) n mem out =
      pieces disk p start offset n mem out := by
  funext x
  unfold Disk.transfer pieces
  by_cases hin : InRange out n x
  · have hlt : (x - out).toNat < n := hin
    rw [if_pos hin, if_pos hin, Disk.wrapped_byte, piecePos_lt hc (by omega)]
  · rw [if_neg hin, if_neg hin]

lemma pieces_add {c : ℕ} (hc : sizeOfClusterBytes disk p = c) {n : ℕ} (hn : c + n < 2 ^ 32)
    (mem : Mem) (out : Word) :
    pieces disk p start (offset + c) n (pieces disk p start offset c mem out)
      (out + BitVec.ofNat 32 c) = pieces disk p start offset (c + n) mem out := by
  funext x
  obtain ⟨hsplit, hshift⟩ := inRange_split out x hn
  unfold pieces
  by_cases hlate : InRange (out + BitVec.ofNat 32 c) n x
  · rw [if_pos hlate, if_pos (hsplit.2 (.inr hlate)), hshift hlate, piecePos_add hc]
  · rw [if_neg hlate]
    by_cases hearly : InRange out c x
    · rw [if_pos hearly, if_pos (hsplit.2 (.inl hearly))]
    · rw [if_neg hearly, if_neg (fun hin => (hsplit.1 hin).elim hearly hlate)]

/-- A read whose every offset has a cluster ends with 0 and stores its pieces. -/
lemma fat16ReadInternalFromStream_run (hopen : TableOpen disk p)
    (hsize : p.header.sectorsPerCluster ≠ 0) {c : ℕ} (hc : sizeOfClusterBytes disk p = c) (n : ℕ)
    (hmoved : Moved disk p p') (stream : DiskStream) (hdisk : stream.disk = disk.addr)
    (offset : ℤ) (hoffset : 0 ≤ offset) (hpos : 0 < n) (hn : n < 2 ^ 31)
    (hrange : ∀ o, offset ≤ o → o < offset + n →
      0 ≤ clusterFor disk p start o ∧ 0 ≤ bytePos disk p start o ∧ bytePos disk p start o < 2 ^ 31)
    (mem : Mem) (out : Word) :
    ∃ p'' stream', fat16ReadInternalFromStream disk p' stream start offset n mem out =
      some (0, p'', stream', pieces disk p start offset n mem out) := by
  induction n using Nat.strong_induction_on generalizing p' stream offset mem out with
  | h n ih =>
    obtain ⟨hcluster, hbyte, hint⟩ := hrange offset le_rfl (by omega)
    have hsize' : p'.header.sectorsPerCluster ≠ 0 := by
      obtain ⟨_, _, hp⟩ := hmoved
      rw [hp]
      exact hsize
    have hc' := hmoved.size_eq.trans hc
    have hfor := hmoved.clusterFor_eq hopen start offset
    have hbyteEq := @Moved.bytePos_eq disk p p' start offset hmoved hopen
    obtain ⟨p'', hstep, heq⟩ := fat16ReadInternalFromStream_eq hmoved.isOpen hsize' hdisk hoffset
      (by rwa [hfor]) (by rwa [hbyteEq]) (by rwa [hbyteEq]) hn hc' mem out
    have hcpos := sizeOfClusterBytes_pos disk hsize
    rw [heq, hbyteEq]
    by_cases hlt : c < n
    · rw [if_pos hlt, transfer_eq_pieces hc le_rfl]
      have hsum : c + (n - c) = n := by omega
      obtain ⟨q, stream', hrest⟩ := ih (n - c) (by omega) (hmoved.trans hstep)
        (DiskStream.moved ⟨bytePos disk p start offset, stream.disk⟩ c) hdisk (offset + c) (by omega)
        (by omega)
        (by omega) (fun o hlow hhigh => hrange o (by omega) (by omega))
        (pieces disk p start offset c mem out) (out + BitVec.ofNat 32 c)
      exact ⟨q, stream', by rw [hrest, pieces_add hc (by omega), hsum]⟩
    · rw [if_neg hlt, transfer_eq_pieces hc (by omega)]
      exact ⟨p'', _, rfl⟩

/-- Every piece of a request starts in a cluster of the chain. -/
def Chained (disk : Disk) (p : FatPrivate) (start offset total : ℤ) : Prop :=
  ∀ q : ℕ, q = 0 ∨ q * sizeOfClusterBytes disk p < total →
    0 ≤ clusterFor disk p start (offset + q * sizeOfClusterBytes disk p)

lemma chained_step (hsize : p.header.sectorsPerCluster ≠ 0) :
    Chained disk p start offset total ↔ 0 ≤ clusterFor disk p start offset ∧
      (sizeOfClusterBytes disk p < total →
        Chained disk p start (offset + sizeOfClusterBytes disk p)
          (total - sizeOfClusterBytes disk p)) := by
  have hc := sizeOfClusterBytes_pos disk hsize
  unfold Chained
  generalize sizeOfClusterBytes disk p = c at hc ⊢
  have hshift : ∀ q : ℕ, offset + ((q + 1 : ℕ) : ℤ) * c = offset + c + q * c := by
    intro q
    push_cast
    ring
  constructor
  · intro h
    refine ⟨by simpa using h 0 (.inl rfl), fun hlt q hq => ?_⟩
    rw [← hshift]
    refine h (q + 1) (.inr ?_)
    push_cast
    rcases hq with rfl | hq
    · simpa using hlt
    · linarith
  · rintro ⟨hfirst, hrest⟩ q hq
    cases q with
    | zero => simpa using hfirst
    | succ q =>
      have hq' : ((q : ℤ) + 1) * c < total := by
        have hcase := hq.resolve_left (Nat.succ_ne_zero q)
        push_cast at hcase
        exact hcase
      have hnonneg : 0 ≤ (q : ℤ) * c := Int.mul_nonneg (Int.natCast_nonneg q) hc.le
      rw [hshift]
      exact hrest (by linarith) q (.inr (by linarith))

/-- Wherever a read starts, it succeeds exactly when its pieces are in the chain, and it stores
into its buffer only. -/
lemma fat16ReadInternalFromStream_chained (hopen : TableOpen disk p)
    (hsize : p.header.sectorsPerCluster ≠ 0) (hmoved : Moved disk p p') (stream : DiskStream)
    (hdisk : stream.disk = disk.addr) (offset : ℤ) {total : ℤ} (htotal : total < 2 ^ 31) (mem : Mem)
    (out : Word) : ∃ res p'' stream' mem',
      fat16ReadInternalFromStream disk p' stream start offset total mem out =
        some (res, p'', stream', mem') ∧ Moved disk p p'' ∧ stream'.disk = disk.addr ∧
      (∀ x, ¬ InRange out total.toNat x → mem' x = mem x) ∧ res ≤ 0 ∧
      (0 ≤ res ↔ Chained disk p start offset total) := by
  induction hn : total.toNat using Nat.strong_induction_on
    generalizing p' stream offset total mem out with
  | h n ih =>
    subst hn
    have hsize' : p'.header.sectorsPerCluster ≠ 0 := by
      obtain ⟨_, _, hp⟩ := hmoved
      rw [hp]
      exact hsize
    obtain ⟨hwalk, hfor⟩ := clusterFor_eq disk hsize' start offset
    have hwalked : Moved disk p (clusterLoop disk
        (offset.tdiv (sizeOfClusterBytes disk p')).toNat p' start).2.2 :=
      hmoved.trans (clusterLoop_moved hmoved.isOpen _ start)
    have hfor' := hmoved.clusterFor_eq hopen start offset
    have hc := sizeOfClusterBytes_pos disk hsize
    have hsame := hmoved.size_eq
    rw [hsame] at hwalk hfor hwalked
    rw [fat16ReadInternalFromStream, hsame, hwalk, chained_step hsize, ← hfor', hfor]
    generalize clusterLoop disk (offset.tdiv (sizeOfClusterBytes disk p)).toNat p' start = walk
      at hwalked ⊢
    dsimp only
    by_cases hneg : walk.1 < 0
    · rw [if_pos hneg]
      exact ⟨_, _, _, _, rfl, hwalked, hdisk, fun _ _ => rfl, by omega, by omega⟩
    rw [if_neg hneg, if_neg hc.ne']
    simp only [diskstreamerSeek, ne_eq, not_true_eq_false, if_false]
    generalize startingPos disk walk.2.2 walk.1 (offset.tmod (sizeOfClusterBytes disk p)) = pos
    by_cases hlong : total > sizeOfClusterBytes disk p
    · simp only [if_pos hlong]
      obtain ⟨hres, hstream, hmem⟩ := @diskstreamerRead_stores disk ⟨pos, stream.disk⟩ mem out hdisk
        (sizeOfClusterBytes disk p) (by omega)
      rw [hres, if_neg (by simp), if_pos (by omega)]
      obtain ⟨c, hcc⟩ := Int.eq_ofNat_of_zero_le hc.le
      rw [hcc] at hlong hres hstream hmem ⊢
      obtain ⟨res, p'', stream', mem', heq, hmoved', hdisk', hframe, hle, hiff⟩ :=
        ih (total - c).toNat (by omega) hwalked
          (diskstreamerRead disk ⟨pos, stream.disk⟩ mem out c).stream hstream (offset + c)
          (show total - c < 2 ^ 31 by omega)
          (diskstreamerRead disk ⟨pos, stream.disk⟩ mem out c).mem (out + BitVec.ofInt 32 c) rfl
      refine ⟨res, p'', stream', mem', heq, hmoved', hdisk', fun x hx => ?_, hle, ?_⟩
      · have hsum : c + (total - c).toNat = total.toNat := by omega
        obtain ⟨hsplit, -⟩ := inRange_split out x (show c + (total - c).toNat < 2 ^ 32 by omega)
        rw [hsum] at hsplit
        rw [BitVec.ofInt_natCast] at hframe
        rw [hframe x fun hin => hx (hsplit.2 (.inr hin)),
          hmem x fun hin => hx (hsplit.2 (.inl (by simpa using hin)))]
      · rw [hiff]
        exact ⟨fun h => ⟨by omega, fun _ => h⟩, fun h => h.2 hlong⟩
    · simp only [if_neg hlong]
      obtain ⟨hres, hstream, hmem⟩ := @diskstreamerRead_stores disk ⟨pos, stream.disk⟩ mem out hdisk
        total (by omega)
      rw [hres, if_neg (by simp), if_neg (by omega)]
      exact ⟨_, _, _, _, rfl, hwalked, hstream, hmem, le_rfl,
        iff_of_true le_rfl ⟨by omega, fun h => absurd h (by omega)⟩⟩

/-- The stream of the data clusters reads the disk. -/
def ClustersOpen (disk : Disk) (p : FatPrivate) : Prop :=
  ∃ stream, p.clusterReadStream = some stream ∧ stream.disk = disk.addr

/-- The volume is mounted: its streams read the disk, and a cluster has sectors. -/
structure Mounted (disk : Disk) (p : FatPrivate) : Prop where
  table : TableOpen disk p
  clusters : ClustersOpen disk p
  sectors : p.header.sectorsPerCluster ≠ 0

/-- The table is read without the stream of the data clusters. -/
lemma clusterLoop_clusterStream (disk : Disk) (x : Option DiskStream) (k : ℕ) (p : FatPrivate)
    (cluster : ℤ) : clusterLoop disk k { p with clusterReadStream := x } cluster =
      ((clusterLoop disk k p cluster).1, (clusterLoop disk k p cluster).2.1,
        { (clusterLoop disk k p cluster).2.2 with clusterReadStream := x }) := by
  induction k generalizing p cluster with
  | zero => rfl
  | succ k ih =>
    have hentry : fat16GetFatEntry disk { p with clusterReadStream := x } cluster =
        ((fat16GetFatEntry disk p cluster).1,
          { (fat16GetFatEntry disk p cluster).2 with clusterReadStream := x }) := by
      have hpos : fatEntryPos disk { p with clusterReadStream := x } cluster =
        fatEntryPos disk p cluster := rfl
      obtain ⟨header, root, clusters, table, directory⟩ := p
      cases table with
      | none => rfl
      | some stream =>
        simp only [fat16GetFatEntry, hpos]
        split_ifs <;> rfl
    simp only [clusterLoop, hentry, ih]
    split_ifs <;> rfl

lemma clusterFor_clusterStream (disk : Disk) (x : Option DiskStream) (p : FatPrivate)
    (start offset : ℤ) :
    clusterFor disk { p with clusterReadStream := x } start offset = clusterFor disk p start offset := by
  have hc : sizeOfClusterBytes disk { p with clusterReadStream := x } = sizeOfClusterBytes disk p := rfl
  rw [clusterFor, clusterFor, fat16GetClusterForOffet, fat16GetClusterForOffet, hc]
  split_ifs
  · rfl
  · simp [clusterLoop_clusterStream]

/-- Nothing but the positions of the streams of the table and of the data clusters has changed. -/
def Streamed (disk : Disk) (p p' : FatPrivate) : Prop :=
  ∃ table clusters : DiskStream, table.disk = disk.addr ∧ clusters.disk = disk.addr ∧
    p' = { p with fatReadStream := some table, clusterReadStream := some clusters }

lemma streamed_refl (hopen : TableOpen disk p) (hstream : ClustersOpen disk p) :
    Streamed disk p p := by
  obtain ⟨table, htable, hdisk⟩ := hopen
  obtain ⟨clusters, hclusters, hdisk'⟩ := hstream
  exact ⟨table, clusters, hdisk, hdisk', by rw [← htable, ← hclusters]⟩

lemma Streamed.chained (h : Streamed disk p p') (hopen : TableOpen disk p) :
    Chained disk p' start offset total ↔ Chained disk p start offset total := by
  obtain ⟨table, clusters, hdisk, -, rfl⟩ := h
  have hmoved : Moved disk p { p with fatReadStream := some table } := ⟨table, hdisk, rfl⟩
  have hfor : ∀ o, clusterFor disk
      { p with fatReadStream := some table, clusterReadStream := some clusters } start o =
      clusterFor disk p start o := fun o =>
    (clusterFor_clusterStream disk (some clusters) { p with fatReadStream := some table } start
      o).trans (hmoved.clusterFor_eq hopen start o)
  have hc : sizeOfClusterBytes disk
      { p with fatReadStream := some table, clusterReadStream := some clusters } =
      sizeOfClusterBytes disk p := rfl
  simp only [Chained, hfor, hc]

lemma pieces_clusterStream (disk : Disk) (x : Option DiskStream) (p : FatPrivate)
    (start offset : ℤ) (n : ℕ) (mem : Mem) (out : Word) :
    pieces disk { p with clusterReadStream := x } start offset n mem out =
      pieces disk p start offset n mem out := by
  have hbyte : ∀ o, bytePos disk { p with clusterReadStream := x } start o =
      bytePos disk p start o := by
    intro o
    rw [bytePos, bytePos, clusterFor_clusterStream]
    rfl
  have hpiece : ∀ j, piecePos disk { p with clusterReadStream := x } start offset j =
      piecePos disk p start offset j := by
    intro j
    rw [piecePos, piecePos, hbyte]
    rfl
  funext x
  rw [pieces, pieces, hpiece]

/-- `fat16_read_internal` on open streams, for offsets that have a cluster. -/
lemma fat16ReadInternal_run (hopen : TableOpen disk p) (hsize : p.header.sectorsPerCluster ≠ 0)
    (h : Streamed disk p p') (hoffset : 0 ≤ offset) {n : ℕ} (hpos : 0 < n)
    (hn : n < 2 ^ 31) (hrange : ∀ o, offset ≤ o → o < offset + n →
      0 ≤ clusterFor disk p start o ∧ 0 ≤ bytePos disk p start o ∧ bytePos disk p start o < 2 ^ 31)
    (mem : Mem) (out : Word) :
    ∃ p'', fat16ReadInternal disk p' start offset n mem out =
      some (0, p'', pieces disk p start offset n mem out) := by
  obtain ⟨table, clusters, htable, hdisk, rfl⟩ := h
  have hc : sizeOfClusterBytes disk p = (sizeOfClusterBytes disk p).toNat := by
    have hcpos := sizeOfClusterBytes_pos disk hsize
    omega
  have hmoved : Moved disk { p with clusterReadStream := some clusters }
      { p with fatReadStream := some table, clusterReadStream := some clusters } :=
    ⟨table, htable, rfl⟩
  obtain ⟨stream, hstream, hon⟩ := hopen
  obtain ⟨p'', stream', hread⟩ := @fat16ReadInternalFromStream_run disk
    { p with clusterReadStream := some clusters } _ start ⟨stream, hstream, hon⟩ hsize _ hc n hmoved
    clusters hdisk offset hoffset hpos hn (fun o hlow hhigh => by
      rw [bytePos, clusterFor_clusterStream]
      exact hrange o hlow hhigh) mem out
  rw [pieces_clusterStream] at hread
  refine ⟨{ p'' with clusterReadStream := some stream' }, ?_⟩
  simp only [fat16ReadInternal, hread]

/-- `fat16_read_internal` on open streams, wherever the read starts. -/
lemma fat16ReadInternal_chained (hopen : TableOpen disk p) (hsize : p.header.sectorsPerCluster ≠ 0)
    (h : Streamed disk p p') (htotal : total < 2 ^ 31) (mem : Mem) (out : Word) :
    ∃ res p'' mem', fat16ReadInternal disk p' start offset total mem out = some (res, p'', mem') ∧
      Streamed disk p p'' ∧ (∀ x, ¬ InRange out total.toNat x → mem' x = mem x) ∧ res ≤ 0 ∧
      (0 ≤ res ↔ Chained disk p start offset total) := by
  have hchained := fun start offset total => @Streamed.chained disk p p' start offset total h hopen
  obtain ⟨table, clusters, htable, hclusters, rfl⟩ := h
  have hopen' : TableOpen disk
    { p with fatReadStream := some table, clusterReadStream := some clusters } := ⟨table, rfl, htable⟩
  obtain ⟨res, p'', stream', mem', heq, ⟨table', htable', rfl⟩, hdisk, hframe, hle, hiff⟩ :=
    @fat16ReadInternalFromStream_chained disk _ _ start hopen' hsize hopen'.refl clusters hclusters
      offset total htotal mem out
  refine ⟨res, _, mem', by simp only [fat16ReadInternal, heq],
    ⟨table', stream', htable', hdisk, rfl⟩, hframe, hle, ?_⟩
  rw [hiff, hchained]

lemma ediv_add_of_lt {a r c : ℤ} (hc : 0 < c) (hr : 0 ≤ r) (h : a % c + r < c) :
    (a + r) / c = a / c ∧ (a + r) % c = a % c + r := by
  have hsplit := Int.emod_add_mul_ediv a c
  have hmod := Int.emod_nonneg a hc.ne'
  exact (Int.ediv_emod_unique hc).2 ⟨by linarith, by omega, h⟩

/-- A byte of a piece that stays in the cluster the piece starts in comes from where the chain
has it. -/
lemma piecePos_eq (hsize : p.header.sectorsPerCluster ≠ 0) (hoffset : 0 ≤ offset) {j : ℕ}
    (hinside : offset % sizeOfClusterBytes disk p + j % sizeOfClusterBytes disk p <
      sizeOfClusterBytes disk p) (hlow : 0 ≤ bytePos disk p start (offset + j))
    (hhigh : bytePos disk p start (offset + j) < 2 ^ 31) :
    piecePos disk p start offset j = bytePos disk p start (offset + j) := by
  have hfits : (bytePos disk p start (offset + j)).bmod (2 ^ 32) = bytePos disk p start (offset + j) := by
    apply Int.bmod_eq_of_le <;> omega
  rw [← hfits]
  have hc := sizeOfClusterBytes_pos disk hsize
  have hfor : ∀ o, 0 ≤ o → clusterFor disk p start o =
      (clusterLoop disk (o / sizeOfClusterBytes disk p).toNat p start).1 := by
    intro o ho
    rw [(clusterFor_eq disk hsize start o).2, Int.tdiv_eq_ediv_of_nonneg ho]
  generalize hcs : sizeOfClusterBytes disk p = c at hinside hc hfor
  have hr := Int.emod_nonneg (j : ℤ) hc.ne'
  have hsplit := Int.emod_add_mul_ediv (j : ℤ) c
  have hq : 0 ≤ c * ((j : ℤ) / c) :=
    Int.mul_nonneg hc.le (Int.ediv_nonneg (Int.natCast_nonneg j) hc.le)
  have hsum : offset + j - j % c = offset + c * (j / c) := by linarith
  have hsame : (offset + j - j % c) % c = offset % c := by
    rw [hsum, Int.add_mul_emod_self_left]
  obtain ⟨hdiv, hmod⟩ := @ediv_add_of_lt (offset + j - j % c) (j % c) c hc hr (by rwa [hsame])
  rw [Int.sub_add_cancel] at hdiv hmod
  rw [piecePos, bytePos, bytePos, hcs, hfor _ (by omega), hfor _ (by omega), hdiv, hmod, Int.add_assoc]

/-- A read gives the bytes of the chain exactly when, wherever a piece runs past the end of its
cluster, the bytes that follow on the disk are those of the next cluster of the chain. -/
theorem fat16ReadInternal_iff (hopen : TableOpen disk p) (hstream : ClustersOpen disk p)
    (hsize : p.header.sectorsPerCluster ≠ 0) (hoffset : 0 ≤ offset) (htotal : 0 < total)
    (hint : total < 2 ^ 31)
    (hclusters : ∀ o, offset ≤ o → o < offset + total → 0 ≤ clusterFor disk p start o)
    (hpositions : ∀ o, offset ≤ o → o < offset + total →
      0 ≤ bytePos disk p start o ∧ bytePos disk p start o < 2 ^ 31) (mem : Mem) (out : Word) :
    ∃ res p' mem', fat16ReadInternal disk p start offset total mem out = some (res, p', mem') ∧
      ((res = 0 ∧ ∀ j : ℕ, j < total →
        mem' (out + BitVec.ofNat 32 j) = disk.byte (bytePos disk p start (offset + j))) ↔
      ∀ j : ℕ, j < total → sizeOfClusterBytes disk p ≤
          offset % sizeOfClusterBytes disk p + j % sizeOfClusterBytes disk p →
        disk.byte (piecePos disk p start offset j) =
          disk.byte (bytePos disk p start (offset + j))) := by
  obtain ⟨n, rfl⟩ := Int.eq_ofNat_of_zero_le htotal.le
  obtain ⟨p', hread⟩ := @fat16ReadInternal_run disk p p start offset hopen hsize
    (streamed_refl hopen hstream) hoffset n (by omega) (by omega)
    (fun o hlow hhigh => ⟨hclusters o hlow hhigh, hpositions o hlow hhigh⟩) mem out
  refine ⟨0, p', _, hread, ?_⟩
  have hbyte : ∀ j : ℕ, (j : ℤ) < n →
      pieces disk p start offset n mem out (out + BitVec.ofNat 32 j) =
        disk.byte (piecePos disk p start offset j) := by
    intro j hj
    have hback : (out + BitVec.ofNat 32 j - out).toNat = j := by
      rw [BitVec.add_comm, BitVec.add_sub_cancel, BitVec.toNat_ofNat]
      omega
    have hin : InRange out n (out + BitVec.ofNat 32 j) := by
      unfold InRange
      omega
    rw [pieces, if_pos hin, hback]
  constructor
  · rintro ⟨-, hall⟩ j hj -
    rw [← hbyte j hj]
    exact hall j hj
  · intro hcross
    refine ⟨rfl, fun j hj => ?_⟩
    rw [hbyte j hj]
    by_cases hinside : offset % sizeOfClusterBytes disk p + j % sizeOfClusterBytes disk p <
        sizeOfClusterBytes disk p
    · obtain ⟨hlow, hhigh⟩ := hpositions (offset + j) (by omega) (by omega)
      rw [piecePos_eq hsize hoffset hinside hlow hhigh]
    · exact hcross j hj (by omega)

/-- A disk with a file in clusters 2 and 5. The clusters start at sectors 35 and 38; the first
bytes of clusters 3 and 5 are 1 and 2. -/
def fragmentedDisk : Disk where
  addr := 0x200000
  sector s i :=
    if s = 0 then bootByte i
    else if s = 4 ∧ i = 0 then 5
    else if s = 36 ∧ i = 0 then 1
    else if s = 38 ∧ i = 0 then 2
    else 0

lemma fragmentedDisk_open : TableOpen fragmentedDisk bootPrivate := ⟨⟨0, 0x200000⟩, rfl, rfl⟩

lemma fragmentedDisk_clusters : ClustersOpen fragmentedDisk bootPrivate := ⟨⟨0, 0x200000⟩, rfl, rfl⟩

/-- The first two clusters of the file. -/
lemma fragmentedDisk_clusterFor (o : ℤ) (hlow : 0 ≤ o) (hhigh : o < 1024) :
    clusterFor fragmentedDisk bootPrivate 2 o = if o < 512 then 2 else 5 := by
  have hnext : next fragmentedDisk bootPrivate 2 = 5 := by
    rw [fragmentedDisk_open.next_eq]
    decide
  have hsize : sizeOfClusterBytes fragmentedDisk bootPrivate = 512 := rfl
  rw [(clusterFor_eq _ (show bootPrivate.header.sectorsPerCluster ≠ 0 by decide) 2 o).2, hsize,
    Int.tdiv_eq_ediv_of_nonneg hlow]
  by_cases hfirst : o < 512
  · have hahead : (o / 512).toNat = 0 := by omega
    rw [hahead, if_pos hfirst]
    rfl
  · have hahead : (o / 512).toNat = 1 := by omega
    obtain ⟨hreach, -⟩ := clusterLoop_reaches fragmentedDisk_open 1 2 fun i hi => by
      obtain rfl : i = 0 := by omega
      change ¬ Refused (next fragmentedDisk bootPrivate 2)
      rw [hnext]
      decide
    rw [hahead, if_neg hfirst, hreach]
    exact hnext

lemma fragmentedDisk_bytePos (o : ℤ) (hlow : 0 ≤ o) (hhigh : o < 1024) :
    bytePos fragmentedDisk bootPrivate 2 o = if o < 512 then 17920 + o else 18944 + o := by
  have hsize : sizeOfClusterBytes fragmentedDisk bootPrivate = 512 := rfl
  rw [bytePos, fragmentedDisk_clusterFor o hlow hhigh, hsize]
  by_cases hfirst : o < 512
  · have hsector : fat16ClusterToSector bootPrivate 2 = 35 := rfl
    rw [if_pos hfirst, if_pos hfirst, hsector]
    omega
  · have hsector : fat16ClusterToSector bootPrivate 5 = 38 := rfl
    rw [if_neg hfirst, if_neg hfirst, hsector]
    omega

theorem fat16ReadInternal_iff_bothClusters :
    ∃ res p' mem', fat16ReadInternal fragmentedDisk bootPrivate 2 0 1024 (fun _ => 0) 0x100000 =
      some (res, p', mem') ∧ res = 0 ∧ mem' 0x100200 = 2 := by
  have hrange : ∀ o : ℤ, 0 ≤ o → o < 0 + 1024 →
      0 ≤ bytePos fragmentedDisk bootPrivate 2 o ∧ bytePos fragmentedDisk bootPrivate 2 o < 2 ^ 31 := by
    intro o hlow hhigh
    rw [fragmentedDisk_bytePos o hlow (by omega)]
    split_ifs <;> omega
  obtain ⟨res, p', mem', hread, hiff⟩ := fat16ReadInternal_iff fragmentedDisk_open
    fragmentedDisk_clusters (by decide) (le_refl 0) (show (0 : ℤ) < 1024 by norm_num) (by norm_num)
    (fun o hlow hhigh => by
      rw [fragmentedDisk_clusterFor o hlow (by omega)]
      split_ifs <;> omega) hrange (fun _ => 0) 0x100000
  have hsize : sizeOfClusterBytes fragmentedDisk bootPrivate = 512 := rfl
  obtain ⟨hres, hbytes⟩ := hiff.2 fun j hj hcross => by
    rw [hsize] at hcross
    omega
  refine ⟨res, p', mem', hread, hres, ?_⟩
  have hbyte := hbytes 512 (by norm_num)
  rw [fragmentedDisk_bytePos _ (by norm_num) (by norm_num)] at hbyte
  exact hbyte

/-- Bytes 511 and 512 of the file, read at once: the second comes from cluster 3. -/
theorem fat16ReadInternal_overruns :
    (∀ o, 511 ≤ o → o < 513 → 0 ≤ clusterFor fragmentedDisk bootPrivate 2 o) ∧
    fragmentedDisk.byte (bytePos fragmentedDisk bootPrivate 2 512) = 2 ∧
    ∃ p' mem', fat16ReadInternal fragmentedDisk bootPrivate 2 511 2 (fun _ => 0) 0x100000 =
      some (0, p', mem') ∧ mem' 0x100001 = 1 := by
  have hclusters : ∀ o : ℤ, 511 ≤ o → o < 513 →
      0 ≤ clusterFor fragmentedDisk bootPrivate 2 o := by
    intro o hlow hhigh
    rw [fragmentedDisk_clusterFor o (by omega) (by omega)]
    split_ifs <;> omega
  refine ⟨hclusters, ?_, ?_⟩
  · rw [fragmentedDisk_bytePos 512 (by norm_num) (by norm_num)]
    decide
  · obtain ⟨p', hread⟩ := @fat16ReadInternal_run fragmentedDisk bootPrivate bootPrivate 2 511
      fragmentedDisk_open (by decide) (streamed_refl fragmentedDisk_open fragmentedDisk_clusters)
      (by norm_num) 2 (by norm_num) (by norm_num) (fun o hlow hhigh => ⟨hclusters o hlow (by omega), by
        rw [fragmentedDisk_bytePos o (by omega) (by omega)]
        split_ifs <;> constructor <;> omega⟩) (fun _ => 0) 0x100000
    refine ⟨p', _, hread, ?_⟩
    have hsize : sizeOfClusterBytes fragmentedDisk bootPrivate = (512 : ℕ) := rfl
    have hpos := @piecePos_lt fragmentedDisk bootPrivate 2 511 512 hsize 1 (by norm_num)
    rw [fragmentedDisk_bytePos 511 (by norm_num) (by norm_num)] at hpos
    have hin : InRange 0x100000 2 0x100001 := by decide
    have hone : ((0x100001 : Word) - 0x100000).toNat = 1 := rfl
    rw [pieces, if_pos hin, hone, hpos]
    decide

end AlphaOS.Fat16
