import AlphaOS.Config
import AlphaOS.WordMemory

/-! The disk stream of `disk/streamer.c` over the disk of `disk/disk.c`. Positions and lengths
are the C `int`s. -/
namespace AlphaOS.Streamer
open WordMemory

/-- The one disk of `disk.c`, after `disk_search_and_init`. -/
structure Disk where
  /-- The address of `disk`. -/
  addr : Word
  /-- The bytes the drive transfers for a sector number. -/
  sector : ℤ → ℤ → Byte

def Disk.sectorSize (_ : Disk) : ℤ := 512

/-- The byte at a position of the disk. -/
def Disk.byte (disk : Disk) (p : ℤ) : Byte := disk.sector (p / 512) (p % 512)

structure DiskStream where
  pos : ℤ
  disk : Word

/-- `stream->pos += n`: the position is an `int` and wraps around. -/
def DiskStream.moved (stream : DiskStream) (n : ℤ) : DiskStream :=
  { stream with pos := (stream.pos + n).bmod (2 ^ 32) }

lemma DiskStream.moved_eq {stream : DiskStream} {n : ℤ} (hlow : -2 ^ 31 ≤ stream.pos + n)
    (hhigh : stream.pos + n < 2 ^ 31) : stream.moved n = { stream with pos := stream.pos + n } := by
  have hfits : (stream.pos + n).bmod (2 ^ 32) = stream.pos + n := by
    apply Int.bmod_eq_of_le <;> omega
  rw [DiskStream.moved, hfits]

def diskstreamerSeek (stream : DiskStream) (pos : ℤ) : ℤ × DiskStream := (0, { stream with pos := pos })

/-- The result and the buffer, which is left alone on an error. -/
def diskReadBlock (disk : Disk) (idisk : Word) (lba : ℤ) (buf : ℤ → Byte) : ℤ × (ℤ → Byte) :=
  if idisk ≠ disk.addr then (-eio, buf) else (0, disk.sector lba)

/-- The copying loop: `k` bytes of the buffer from `i` on are left. -/
def copyLoop (buf : ℤ → Byte) (offset : ℤ) : ℕ → ℤ → Mem → Word → Mem
  | 0, _, mem, _ => mem
  | k + 1, i, mem, out =>
    copyLoop buf offset k (i + 1) (Function.update mem out (buf (offset + i))) (out + 1)

/-- What `diskstreamer_read` leaves: its result, the stream, memory, and the sectors it asked
the disk for. -/
structure StreamRead where
  res : ℤ
  stream : DiskStream
  mem : Mem
  sectors : List ℤ

def diskstreamerRead (disk : Disk) (stream : DiskStream) (mem : Mem) (out : Word) (total : ℤ) :
    StreamRead :=
  let sector := stream.pos.tdiv 512
  let offset := stream.pos.tmod 512
  let totalToRead := if offset + total ≥ 512 then total - (offset + total - 512) else total
  let buf := diskReadBlock disk stream.disk sector fun _ => 0
  if buf.1 < 0 then ⟨buf.1, stream, mem, [sector]⟩ else
  let mem := copyLoop buf.2 offset totalToRead.toNat 0 mem out
  let moved := stream.moved totalToRead
  if offset + total ≥ 512 then
    let rest := diskstreamerRead disk moved mem (out + BitVec.ofInt 32 totalToRead)
      (total - totalToRead)
    { rest with sectors := sector :: rest.sectors }
  else ⟨buf.1, moved, mem, [sector]⟩
termination_by total.toNat
decreasing_by
  rename_i overflow
  have hoffset := Int.tmod_lt_of_pos stream.pos (show (0 : ℤ) < 512 by norm_num)
  change stream.pos.tmod 512 + total ≥ 512 at overflow
  change (total - if _ then _ else _).toNat < total.toNat
  rw [if_pos overflow]
  omega

/-- A read begins with the sector of the stream's position. -/
lemma diskstreamerRead_head (disk : Disk) (stream : DiskStream) (mem : Mem) (out : Word) (total : ℤ) :
    (diskstreamerRead disk stream mem out total).sectors.head? = some (stream.pos.tdiv 512) := by
  rw [diskstreamerRead]
  dsimp only
  split_ifs <;> rfl

/-- The equation of `diskstreamer_read` on a stream of the disk. -/
lemma diskstreamerRead_eq {disk : Disk} {stream : DiskStream} (hdisk : stream.disk = disk.addr)
    (mem : Mem) (out : Word) (total : ℤ) :
    diskstreamerRead disk stream mem out total =
      let sector := stream.pos.tdiv 512
      let offset := stream.pos.tmod 512
      if offset + total ≥ 512 then
        let rest := diskstreamerRead disk (stream.moved (512 - offset))
          (copyLoop (disk.sector sector) offset (512 - offset).toNat 0 mem out)
          (out + BitVec.ofInt 32 (512 - offset)) (total - (512 - offset))
        { rest with sectors := sector :: rest.sectors }
      else ⟨0, stream.moved total, copyLoop (disk.sector sector) offset total.toNat 0 mem out,
        [sector]⟩ := by
  rw [diskstreamerRead]
  have hread : ∀ buf, diskReadBlock disk stream.disk (stream.pos.tdiv 512) buf =
      (0, disk.sector (stream.pos.tdiv 512)) := fun buf => by simp [diskReadBlock, hdisk]
  simp only [hread, lt_self_iff_false, if_false]
  by_cases hover : stream.pos.tmod 512 + total ≥ 512
  · have hlen : total - (stream.pos.tmod 512 + total - 512) = 512 - stream.pos.tmod 512 := by ring
    simp only [if_pos hover, hlen]
  · simp only [if_neg hover]

/-- The loop stores the buffer's bytes and nothing else. -/
lemma copyLoop_apply (buf : ℤ → Byte) (offset : ℤ) (k : ℕ) (i : ℤ) (mem : Mem) (out : Word)
    (hk : k < 2 ^ 32) (x : Word) : copyLoop buf offset k i mem out x =
      if InRange out k x then buf (offset + i + (x - out).toNat) else mem x := by
  induction k generalizing i mem out with
  | zero => rw [if_neg (by simp [InRange])]; rfl
  | succ k ih =>
    have hx := x.isLt
    have hout := out.isLt
    have hone : (out + 1).toNat = (out.toNat + 1) % 2 ^ 32 := BitVec.toNat_add _ _
    have hsub : (x - out).toNat = (2 ^ 32 - out.toNat + x.toNat) % 2 ^ 32 := BitVec.toNat_sub _ _
    have hnext : (x - (out + 1)).toNat = (2 ^ 32 - (out + 1).toNat + x.toNat) % 2 ^ 32 :=
      BitVec.toNat_sub _ _
    rw [copyLoop, ih (i + 1) _ (out + 1) (by omega)]
    by_cases heq : x = out
    · subst heq
      have hnot : ¬ InRange (x + 1) k x := by unfold InRange; omega
      rw [if_neg hnot, Function.update_self, if_pos (by simp [InRange])]
      simp
    · have hne : x.toNat ≠ out.toNat := fun h => heq (BitVec.eq_of_toNat_eq h)
      have hstep : (x - out).toNat = (x - (out + 1)).toNat + 1 := by omega
      rw [Function.update_of_ne heq]
      have hiff : InRange (out + 1) k x ↔ InRange out (k + 1) x := by unfold InRange; omega
      by_cases hin : InRange (out + 1) k x
      · rw [if_pos hin, if_pos (hiff.1 hin), hstep]
        congr 1
        push_cast
        ring
      · rw [if_neg hin, if_neg (mt hiff.2 hin)]

/-- Memory with `n` bytes of the disk from a position on laid over it. -/
def Disk.transfer (disk : Disk) (pos : ℤ) (n : ℕ) (mem : Mem) (out : Word) : Mem := fun x =>
  if InRange out n x then disk.byte (pos + (x - out).toNat) else mem x

/-- Two transfers in a row are one. -/
lemma Disk.transfer_add (disk : Disk) (pos : ℤ) {a b : ℕ} (h : a + b < 2 ^ 32) (mem : Mem)
    (out : Word) : disk.transfer (pos + a) b (disk.transfer pos a mem out) (out + BitVec.ofNat 32 a) =
      disk.transfer pos (a + b) mem out := by
  funext x
  obtain ⟨hsplit, hshift⟩ := inRange_split out x h
  simp only [Disk.transfer]
  by_cases hlate : InRange (out + BitVec.ofNat 32 a) b x
  · rw [if_pos hlate, if_pos (hsplit.2 (.inr hlate)), hshift hlate]
    congr 1
    push_cast
    ring
  · rw [if_neg hlate]
    by_cases hearly : InRange out a x
    · rw [if_pos hearly, if_pos (hsplit.2 (.inl hearly))]
    · rw [if_neg hearly, if_neg (fun hin => (hsplit.1 hin).elim hearly hlate)]

/-- The positions whose sector and offset are those of the division with a remainder. -/
def OnSector (pos : ℤ) : Prop := 0 ≤ pos ∨ pos % 512 = 0

lemma OnSector.tdiv_eq {pos : ℤ} (h : OnSector pos) : pos.tdiv 512 = pos / 512 :=
  h.elim Int.tdiv_eq_ediv_of_nonneg fun hzero =>
    Int.tdiv_eq_ediv_of_dvd (Int.dvd_of_emod_eq_zero hzero)

lemma OnSector.tmod_eq {pos : ℤ} (h : OnSector pos) : pos.tmod 512 = pos % 512 := by
  have hsplit := Int.tmod_add_mul_tdiv pos 512
  rw [h.tdiv_eq] at hsplit
  omega

/-- Within one sector the loop copies the bytes of the disk. -/
lemma copyLoop_sector (disk : Disk) {pos : ℤ} (hpos : OnSector pos) {k : ℕ}
    (hk : pos % 512 + k ≤ 512) (mem : Mem) (out : Word) :
    copyLoop (disk.sector (pos.tdiv 512)) (pos.tmod 512) k 0 mem out =
      disk.transfer pos k mem out := by
  funext x
  rw [copyLoop_apply _ _ k 0 mem out (by omega), hpos.tdiv_eq, hpos.tmod_eq, Disk.transfer]
  by_cases hin : InRange out k x
  · have hlt : (x - out).toNat < k := hin
    have hsector : (pos + (x - out).toNat) / 512 = pos / 512 := by omega
    have hoffset : (pos + (x - out).toNat) % 512 = pos % 512 + 0 + (x - out).toNat := by omega
    rw [if_pos hin, if_pos hin, Disk.byte, hsector, hoffset]
  · rw [if_neg hin, if_neg hin]

/-- The disk as a stream reads it: behind position 2 ^ 31 - 1 comes position - 2 ^ 31. -/
def Disk.wrapped (disk : Disk) : Disk where
  addr := disk.addr
  sector s i := disk.byte ((512 * s + i).bmod (2 ^ 32))

lemma Disk.wrapped_byte (disk : Disk) (p : ℤ) : disk.wrapped.byte p = disk.byte (p.bmod (2 ^ 32)) := by
  have hsplit : 512 * (p / 512) + p % 512 = p := by omega
  change disk.byte ((512 * (p / 512) + p % 512).bmod (2 ^ 32)) = _
  rw [hsplit]

lemma Disk.wrapped_transfer {disk : Disk} {pos : ℤ} {n : ℕ} (hlow : -2 ^ 31 ≤ pos)
    (hend : pos + n ≤ 2 ^ 31) (mem : Mem) (out : Word) :
    disk.wrapped.transfer pos n mem out = disk.transfer pos n mem out := by
  funext x
  unfold Disk.transfer
  by_cases hin : InRange out n x
  · have hlt : (x - out).toNat < n := hin
    have hfits : (pos + (x - out).toNat).bmod (2 ^ 32) = pos + (x - out).toNat := by
      apply Int.bmod_eq_of_le <;> omega
    rw [if_pos hin, if_pos hin, Disk.wrapped_byte, hfits]
  · rw [if_neg hin, if_neg hin]

lemma Disk.wrapped_transfer_bmod (disk : Disk) (pos : ℤ) (n : ℕ) (mem : Mem) (out : Word) :
    disk.wrapped.transfer (pos.bmod (2 ^ 32)) n mem out = disk.wrapped.transfer pos n mem out := by
  funext x
  simp only [Disk.transfer, Disk.wrapped_byte, Int.bmod_add_bmod]

/-- Reading transfers the bytes asked for and moves the stream past them. -/
lemma diskstreamerRead_wrapped {disk : Disk} (n : ℕ) (stream : DiskStream) (mem : Mem) (out : Word)
    (hdisk : stream.disk = disk.addr) (hpos : OnSector stream.pos) (hlow : -2 ^ 31 ≤ stream.pos)
    (hhigh : stream.pos < 2 ^ 31) (hn : n < 2 ^ 31) :
    (diskstreamerRead disk stream mem out n).res = 0 ∧
    (diskstreamerRead disk stream mem out n).stream = stream.moved n ∧
    (diskstreamerRead disk stream mem out n).mem = disk.wrapped.transfer stream.pos n mem out := by
  induction n using Nat.strong_induction_on generalizing stream mem out with
  | h n ih =>
    have hmod := hpos.tmod_eq
    rw [diskstreamerRead_eq hdisk]
    by_cases hover : stream.pos.tmod 512 + (n : ℤ) ≥ 512
    · -- the rest of the sector, and what is left of the request from the next one on
      obtain ⟨k, hk⟩ : ∃ k : ℕ, 512 - stream.pos.tmod 512 = k := ⟨(512 - stream.pos % 512).toNat, by omega⟩
      have hleft : (n : ℤ) - k = ((n - k : ℕ) : ℤ) := by omega
      have hsum : k + (n - k) = n := by omega
      -- the next sector begins at a multiple of 512, which may be the one that wraps around
      have hnext : (stream.moved k).pos = stream.pos + k ∨ (stream.moved k).pos = -2 ^ 31 := by
        by_cases hfits : stream.pos + k < 2 ^ 31
        · exact .inl (congrArg DiskStream.pos (DiskStream.moved_eq (by omega) hfits))
        · have htop : stream.pos + k = 2 ^ 31 := by omega
          have hwrap : ((2 : ℤ) ^ 31).bmod (2 ^ 32) = -2 ^ 31 := by decide
          exact .inr (by rw [← hwrap, ← htop]; rfl)
      have hrange := @Int.bmod_lt (stream.pos + k) (2 ^ 32) (by norm_num)
      change (stream.moved k).pos < _ at hrange
      simp only [if_pos hover, hk, hleft, Int.toNat_natCast, BitVec.ofInt_natCast]
      rw [copyLoop_sector disk hpos (by omega)]
      obtain ⟨hres, hstream, hmem⟩ := ih (n - k) (by omega) (stream.moved k)
        (disk.transfer stream.pos k mem out) (out + BitVec.ofNat 32 k) hdisk
        (by unfold OnSector; omega) (by omega) (by norm_num at hrange; omega) (by omega)
      refine ⟨hres, ?_, ?_⟩
      · rw [hstream, DiskStream.moved, DiskStream.moved, DiskStream.moved]
        congr 1
        change ((stream.pos + k).bmod _ + ((n - k : ℕ) : ℤ)).bmod _ = _
        rw [Int.bmod_add_bmod, Int.add_assoc, ← hleft]
        congr 1
        ring
      · rw [hmem, ← Disk.wrapped_transfer hlow (by omega), DiskStream.moved]
        change disk.wrapped.transfer ((stream.pos + k).bmod _) _ _ _ = _
        rw [Disk.wrapped_transfer_bmod, Disk.transfer_add _ stream.pos (by omega), hsum]
    · simp only [if_neg hover, Int.toNat_natCast]
      refine ⟨trivial, trivial, ?_⟩
      rw [copyLoop_sector disk hpos (by omega), Disk.wrapped_transfer hlow (by omega)]

/-- The same where the bytes lie below position 2 ^ 31. -/
lemma diskstreamerRead_transfer {disk : Disk} (n : ℕ) (stream : DiskStream) (mem : Mem) (out : Word)
    (hdisk : stream.disk = disk.addr) (hpos : 0 ≤ stream.pos) (hend : stream.pos + n < 2 ^ 31) :
    (diskstreamerRead disk stream mem out n).res = 0 ∧
    (diskstreamerRead disk stream mem out n).stream = { stream with pos := stream.pos + n } ∧
    (diskstreamerRead disk stream mem out n).mem = disk.transfer stream.pos n mem out := by
  obtain ⟨hres, hstream, hmem⟩ := diskstreamerRead_wrapped n stream mem out hdisk (.inl hpos)
    (by omega) (by omega) (by omega)
  rw [Disk.wrapped_transfer (by omega) (by omega)] at hmem
  exact ⟨hres, by rw [hstream, DiskStream.moved_eq (by omega) hend], hmem⟩

/-- Wherever the stream stands, a read of the disk succeeds and stores into its buffer only. -/
lemma diskstreamerRead_stores {disk : Disk} (stream : DiskStream) (mem : Mem) (out : Word)
    (hdisk : stream.disk = disk.addr) {total : ℤ} (htotal : total < 2 ^ 32) :
    (diskstreamerRead disk stream mem out total).res = 0 ∧
    (diskstreamerRead disk stream mem out total).stream.disk = disk.addr ∧
    ∀ x, ¬ InRange out total.toNat x →
      (diskstreamerRead disk stream mem out total).mem x = mem x := by
  induction hn : total.toNat using Nat.strong_induction_on generalizing stream mem out total with
  | h n ih =>
    subst hn
    have hlt := Int.tmod_lt_of_pos stream.pos (show (0 : ℤ) < 512 by norm_num)
    have hcopy : ∀ (k : ℕ) x, k < 2 ^ 32 → ¬ InRange out k x →
        copyLoop (disk.sector (stream.pos.tdiv 512)) (stream.pos.tmod 512) k 0 mem out x = mem x :=
      fun k x hk hx => by rw [copyLoop_apply _ _ k 0 mem out hk, if_neg hx]
    rw [diskstreamerRead_eq hdisk]
    by_cases hover : stream.pos.tmod 512 + total ≥ 512
    · simp only [if_pos hover]
      obtain ⟨k, hk⟩ : ∃ k : ℕ, 512 - stream.pos.tmod 512 = k :=
        ⟨(512 - stream.pos.tmod 512).toNat, by omega⟩
      rw [hk, Int.toNat_natCast, BitVec.ofInt_natCast]
      obtain ⟨hres, hstream, hmem⟩ := ih (total - k).toNat (by omega)
        (stream.moved k)
        (copyLoop (disk.sector (stream.pos.tdiv 512)) (stream.pos.tmod 512) k 0 mem out)
        (out + BitVec.ofNat 32 k) hdisk (by omega) rfl
      refine ⟨hres, hstream, fun x hx => ?_⟩
      have hsum : k + (total - k).toNat = total.toNat := by omega
      obtain ⟨hsplit, -⟩ := inRange_split out x (show k + (total - k).toNat < 2 ^ 32 by omega)
      rw [hsum] at hsplit
      rw [hmem x fun hin => hx (hsplit.2 (.inr hin)),
        hcopy k x (by omega) fun hin => hx (hsplit.2 (.inl hin))]
    · simp only [if_neg hover]
      exact ⟨trivial, hdisk, fun x hx => hcopy _ x (by omega) hx⟩

/-- A read ends, stores exactly the bytes of the disk from the stream's position on and leaves
the stream behind them; a read in two parts is the read of both at once. -/
theorem diskstreamerRead_spec {disk : Disk} {stream : DiskStream} (hdisk : stream.disk = disk.addr)
    (hpos : 0 ≤ stream.pos) {total : ℤ} (htotal : 0 ≤ total) (hend : stream.pos + total < 2 ^ 31)
    (mem : Mem) (out : Word) :
    let whole := diskstreamerRead disk stream mem out total
    (whole.res = 0 ∧ whole.stream = { stream with pos := stream.pos + total } ∧
      ∀ x, whole.mem x = if InRange out total.toNat x
        then disk.byte (stream.pos + (x - out).toNat) else mem x) ∧
    ∀ a b : ℤ, 0 ≤ a → 0 ≤ b → a + b = total →
      let first := diskstreamerRead disk stream mem out a
      let second := diskstreamerRead disk first.stream first.mem (out + BitVec.ofInt 32 a) b
      first.res = 0 ∧ second.res = 0 ∧ second.stream = whole.stream ∧ second.mem = whole.mem := by
  obtain ⟨n, rfl⟩ := Int.eq_ofNat_of_zero_le htotal
  obtain ⟨hres, hstream, hmem⟩ := diskstreamerRead_transfer n stream mem out hdisk hpos (by omega)
  refine ⟨⟨hres, hstream, fun x => ?_⟩, fun a b ha hb hab => ?_⟩
  · rw [hmem]
    rfl
  · obtain ⟨i, rfl⟩ := Int.eq_ofNat_of_zero_le ha
    obtain ⟨j, rfl⟩ := Int.eq_ofNat_of_zero_le hb
    obtain ⟨hfirst, hmoved, hpart⟩ := diskstreamerRead_transfer i stream mem out hdisk hpos (by omega)
    dsimp only
    rw [hmoved, hpart, BitVec.ofInt_natCast]
    obtain ⟨hsecond, hfinal, hrest⟩ := diskstreamerRead_transfer j { stream with pos := stream.pos + i }
      (disk.transfer stream.pos i mem out) (out + BitVec.ofNat 32 i) hdisk
      (by change 0 ≤ stream.pos + i; omega) (by change stream.pos + i + j < _; omega)
    refine ⟨hfirst, hsecond, ?_, ?_⟩
    · rw [hfinal, hstream]
      congr 1
      change stream.pos + i + j = _
      omega
    · have hsum : i + j = n := by omega
      rw [hrest, hmem, Disk.transfer_add disk stream.pos (by omega), hsum]

/-- A disk whose every sector counts up. -/
def countingDisk : Disk := ⟨0x200000, fun _ i => BitVec.ofInt 8 i⟩

theorem diskstreamerRead_spec_twoSectors :
    (diskstreamerRead countingDisk ⟨500, 0x200000⟩ (fun _ => 0) 0x100000 24).mem 0x10000C = 0 := by
  rw [(@diskstreamerRead_spec countingDisk ⟨500, 0x200000⟩ rfl (by decide) 24 (by decide)
    (by decide) (fun _ => 0) 0x100000).1.2.2]
  decide

end AlphaOS.Streamer
