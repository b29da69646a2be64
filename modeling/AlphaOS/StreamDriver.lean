import AlphaOS.DiskDriver

/-! The stream of `disk/streamer.c` on the ports of the drive. It does what it does on the disk that the
file system is proved about. -/
namespace AlphaOS.Streamer
open Ata WordMemory

variable (m : Medium) (fuel : ℕ) (addr : Word)

/-- `disk_read_block` with the driver, into a buffer of the stack. -/
def portReadBlock (idisk : Word) (lba : ℤ) (d : Drive) : Option ((ℤ × (ℤ → Byte)) × Drive) :=
  if idisk ≠ addr then some ((-eio, fun _ => 0), d) else
  (diskReadSector (ports m) fuel (BitVec.ofInt 32 lba) 1 0 (fun _ => 0) d).map fun r =>
    ((r.1, fun i => r.2.1 (BitVec.ofInt 32 i)), r.2.2)

/-- `diskstreamer_read` with the driver. -/
def portStreamerRead (stream : DiskStream) (mem : Mem) (out : Word) (total : ℤ) (d : Drive) :
    Option (StreamRead × Drive) :=
  let sector := stream.pos.tdiv 512
  let offset := stream.pos.tmod 512
  let totalToRead := if offset + total ≥ 512 then total - (offset + total - 512) else total
  (portReadBlock m fuel addr stream.disk sector d).bind fun (buf, d) =>
  if buf.1 < 0 then some (⟨buf.1, stream, mem, [sector]⟩, d) else
  let mem := copyLoop buf.2 offset totalToRead.toNat 0 mem out
  let moved := stream.moved totalToRead
  if offset + total ≥ 512 then
    (portStreamerRead moved mem (out + BitVec.ofInt 32 totalToRead) (total - totalToRead) d).map fun rest =>
      ({ rest.1 with sectors := sector :: rest.1.sectors }, rest.2)
  else some (⟨buf.1, moved, mem, [sector]⟩, d)
termination_by total.toNat
decreasing_by
  rename_i overflow
  have hoffset := Int.tmod_lt_of_pos stream.pos (show (0 : ℤ) < 512 by norm_num)
  change stream.pos.tmod 512 + total ≥ 512 at overflow
  change (total - if _ then _ else _).toNat < total.toNat
  rw [if_pos overflow]
  omega

/-- What the users of streams do with them. -/
inductive StreamCall
  | seek (stream : Word) (pos : ℤ)
  | read (stream out : Word) (total : ℤ)

/-- The streams by their addresses, and the memory they are read into. -/
structure StreamState where
  streams : Word → DiskStream
  mem : Mem

/-- The state when a stream has been moved and memory written. -/
def StreamState.moved (s : StreamState) (a : Word) (stream : DiskStream) (mem : Mem) : StreamState :=
  ⟨Function.update s.streams a stream, mem⟩

def streamCall (disk : Disk) (s : StreamState) : StreamCall → StreamState
  | .seek a pos => s.moved a (diskstreamerSeek (s.streams a) pos).2 s.mem
  | .read a out total =>
    let r := diskstreamerRead disk (s.streams a) s.mem out total
    s.moved a r.stream r.mem

def portCall (s : StreamState) (d : Drive) : StreamCall → Option (StreamState × Drive)
  | .seek a pos => some (s.moved a (diskstreamerSeek (s.streams a) pos).2 s.mem, d)
  | .read a out total =>
    (portStreamerRead m fuel addr (s.streams a) s.mem out total d).map fun r =>
      (s.moved a r.1.stream r.1.mem, r.2)

def portCalls : List StreamCall → StreamState → Drive → Option (StreamState × Drive)
  | [], s, d => some (s, d)
  | call :: calls, s, d => (portCall m fuel addr s d call).bind fun r => portCalls calls r.1 r.2

/-- A read from a position that is not negative to an end that is an `int`, on a drive that has the
sectors up to the one behind the last byte. -/
def Served (s : StreamState) : StreamCall → Prop
  | .seek _ _ => True
  | .read a _ total => 0 ≤ (s.streams a).pos ∧ 0 ≤ total ∧ (s.streams a).pos + total < 2 ^ 31 ∧
      ∀ q : ℕ, (s.streams a).pos / 512 ≤ q → (q : ℤ) ≤ ((s.streams a).pos + total) / 512 → m.Readable q

/-- Every read of a run is so. -/
def AllServed : List StreamCall → StreamState → Prop
  | [], _ => True
  | call :: calls, s => Served m s call ∧ AllServed calls (streamCall (diskOf m addr) s call)

/-- The streams are streams of the disk. -/
def OnDisk (s : StreamState) : Prop := ∀ a, (s.streams a).disk = addr

variable {m fuel addr} {d : Drive} {stream : DiskStream} {mem : Mem} {out : Word} {s : StreamState}
  {total sector : ℤ} {f g : ℤ → Byte} {offset i : ℤ} {k : ℕ}

/-- The copy looks only at the bytes it copies. -/
lemma copyLoop_congr (h : ∀ j, offset + i ≤ j → j < offset + i + k → f j = g j) :
    copyLoop f offset k i mem out = copyLoop g offset k i mem out := by
  induction k generalizing i mem out with
  | zero => rfl
  | succ k ih =>
    have hfirst := h (offset + i) le_rfl (by push_cast; omega)
    rw [copyLoop, copyLoop, hfirst]
    exact ih fun j hlow hhigh => h j (by omega) (by push_cast; omega)

/-- One sector, through the driver or from the disk. -/
lemma portReadBlock_sector (hidle : d.phase = .idle) (hlow : 0 ≤ sector) (hhigh : sector < 2 ^ 28)
    (hreadable : m.Readable sector.toNat) :
    ∃ least d' buf, d'.phase = .idle ∧ (∀ fuel ≥ least, portReadBlock m fuel addr addr sector d = some ((0, buf), d')) ∧
      ∀ j, 0 ≤ j → j < 512 → buf j = (diskOf m addr).sector sector j := by
  have hval : (BitVec.ofInt 32 sector).toNat = sector.toNat := by
    rw [BitVec.toNat_ofInt]
    omega
  have hbit : (BitVec.ofInt 32 sector).getLsbD 28 = false := by
    rw [← BitVec.testBit_toNat, hval]
    exact Nat.testBit_lt_two_pow (by omega)
  have hnumber : ((BitVec.ofInt 32 sector).setWidth 28).toNat = sector.toNat := by
    rw [BitVec.toNat_setWidth, hval]
    omega
  obtain ⟨least, d', hidle', hread⟩ := diskReadSector_sayable (m := m) addr 0 (fun _ => 0) hidle
    (show Sayable (BitVec.ofInt 32 sector) 1 from ⟨hbit, by omega, by omega⟩) fun j hj => by
      obtain rfl : j = 0 := by omega
      rw [hnumber]
      exact hreadable
  rw [hnumber] at hread
  refine ⟨least, d', fun i => (diskOf m addr).transfer (512 * sector.toNat) 512 (fun _ => 0) 0 (BitVec.ofInt 32 i),
    hidle', fun fuel hfuel => ?_, ?_⟩
  · simp only [portReadBlock, ne_eq, not_true_eq_false, if_false, hread fuel hfuel, Option.map_some]
    rfl
  intro j hj hj'
  have hpos : (BitVec.ofInt 32 j - 0#32).toNat = j.toNat := by
    rw [BitVec.sub_zero, BitVec.toNat_ofInt]
    omega
  have hin : InRange 0#32 512 (BitVec.ofInt 32 j) := by
    unfold InRange
    omega
  have hdiv : (512 * (sector.toNat : ℤ) + (j.toNat : ℤ)) / 512 = sector := by omega
  have hmod : (512 * (sector.toNat : ℤ) + (j.toNat : ℤ)) % 512 = j := by omega
  change (diskOf m addr).transfer (512 * sector.toNat) 512 (fun _ => 0) 0#32 (BitVec.ofInt 32 j) = _
  rw [Disk.transfer, if_pos hin, hpos, Disk.byte, hdiv, hmod]

/-- A read through the driver is the read of the disk. -/
lemma portStreamerRead_eq (n : ℕ) (hidle : d.phase = .idle) (hdisk : stream.disk = addr) (hpos : 0 ≤ stream.pos)
    (hend : stream.pos + n < 2 ^ 31)
    (hreadable : ∀ q : ℕ, stream.pos / 512 ≤ q → (q : ℤ) ≤ (stream.pos + n) / 512 → m.Readable q) :
    ∃ least d', d'.phase = .idle ∧ ∀ fuel ≥ least,
      portStreamerRead m fuel addr stream mem out n d = some (diskstreamerRead (diskOf m addr) stream mem out n, d') := by
  induction n using Nat.strong_induction_on generalizing d stream mem out with
  | h n ih =>
    subst hdisk
    have hdiv : stream.pos.tdiv 512 = stream.pos / 512 := Int.tdiv_eq_ediv_of_nonneg hpos
    have hmod : stream.pos.tmod 512 = stream.pos % 512 := Int.tmod_eq_emod_of_nonneg hpos
    obtain ⟨least, d₁, buf, hidle₁, hread, hbuf⟩ := @portReadBlock_sector m stream.disk d
      (stream.pos / 512) hidle (show 0 ≤ stream.pos / 512 by omega) (by omega)
      (hreadable (stream.pos / 512).toNat (by omega) (by omega))
    rw [@diskstreamerRead_eq (diskOf m stream.disk) stream rfl]
    by_cases hover : stream.pos % 512 + (n : ℤ) ≥ 512
    · -- the rest of the sector, and what is left of the request from the next one on
      obtain ⟨k, hk⟩ : ∃ k : ℕ, 512 - stream.pos % 512 = k := ⟨(512 - stream.pos % 512).toNat, by omega⟩
      have hcopied : (n : ℤ) - (stream.pos % 512 + n - 512) = k := by omega
      have hleft : (n : ℤ) - k = ((n - k : ℕ) : ℤ) := by omega
      have hcopy : copyLoop buf (stream.pos % 512) k 0 mem out =
          copyLoop ((diskOf m stream.disk).sector (stream.pos / 512)) (stream.pos % 512) k 0 mem out :=
        copyLoop_congr fun j hlow hhigh => hbuf j (by omega) (by omega)
      obtain ⟨least', d', hidle', hrest⟩ := @ih (n - k) (by omega) d₁ { stream with pos := stream.pos + k }
        (copyLoop ((diskOf m stream.disk).sector (stream.pos / 512)) (stream.pos % 512) k 0 mem out)
        (out + BitVec.ofInt 32 k) hidle₁ rfl (by change 0 ≤ stream.pos + k; omega)
        (by change stream.pos + k + ((n - k : ℕ) : ℤ) < _; omega)
        (fun q hlow hhigh => by
          change (stream.pos + k) / 512 ≤ q at hlow
          change (q : ℤ) ≤ (stream.pos + k + ((n - k : ℕ) : ℤ)) / 512 at hhigh
          exact hreadable q (by omega) (by omega))
      refine ⟨max least least', d', hidle', fun fuel hfuel => ?_⟩
      rw [portStreamerRead]
      have hmoved := @DiskStream.moved_eq stream k (by omega) (by omega)
      simp only [hmoved, hdiv, hmod, hread fuel (by omega), Option.bind_some, if_pos hover, hcopied, hk, hleft, hcopy,
        Int.toNat_natCast, hrest fuel (by omega), Option.map_some]
      rfl
    · have hcopy : copyLoop buf (stream.pos % 512) n 0 mem out =
          copyLoop ((diskOf m stream.disk).sector (stream.pos / 512)) (stream.pos % 512) n 0 mem out :=
        copyLoop_congr fun j hlow hhigh => hbuf j (by omega) (by omega)
      refine ⟨least, d₁, hidle₁, fun fuel hfuel => ?_⟩
      rw [portStreamerRead]
      simp only [hdiv, hmod, hread fuel hfuel, Option.bind_some, if_neg hover, hcopy, Int.toNat_natCast]
      simp

lemma OnDisk.moved (h : OnDisk addr s) (a : Word) (hdisk : stream.disk = addr) :
    OnDisk addr (s.moved a stream mem) := by
  intro b
  by_cases hb : b = a
  · simp [StreamState.moved, hb, hdisk]
  · simp [StreamState.moved, hb, h b]

/-- One call through the driver. -/
lemma portCall_eq (hidle : d.phase = .idle) (hdisk : OnDisk addr s) {call : StreamCall} (hserved : Served m s call) :
    OnDisk addr (streamCall (diskOf m addr) s call) ∧ ∃ least d', d'.phase = .idle ∧ ∀ fuel ≥ least,
      portCall m fuel addr s d call = some (streamCall (diskOf m addr) s call, d') := by
  cases call with
  | seek a pos => exact ⟨hdisk.moved a (hdisk a), 0, d, hidle, fun fuel _ => rfl⟩
  | read a out total =>
    obtain ⟨hpos, htotal, hend, hreadable⟩ := hserved
    obtain ⟨n, rfl⟩ := Int.eq_ofNat_of_zero_le htotal
    have hstream := (@diskstreamerRead_stores (diskOf m addr) (s.streams a) s.mem out (hdisk a) n (by omega)).2.1
    obtain ⟨least, d', hidle', hread⟩ := @portStreamerRead_eq m addr d (s.streams a) s.mem out n hidle
      (hdisk a) hpos hend hreadable
    exact ⟨hdisk.moved a hstream, least, d', hidle', fun fuel hfuel => by
      simp only [portCall, hread fuel hfuel, Option.map_some]
      rfl⟩

/-- A run of seeks and reads of any streams through the driver ends when the drive has the sectors, and
does to the streams and to memory what the run on the disk does that the file system is proved about; the
drive is idle again. -/
theorem portCalls_refines (hidle : d.phase = .idle) (hdisk : OnDisk addr s) (calls : List StreamCall)
    (hserved : AllServed m addr calls s) : ∃ least d', d'.phase = .idle ∧ ∀ fuel ≥ least,
      portCalls m fuel addr calls s d = some (calls.foldl (streamCall (diskOf m addr)) s, d') := by
  induction calls generalizing s d with
  | nil => exact ⟨0, d, hidle, fun fuel _ => rfl⟩
  | cons call calls ih =>
    obtain ⟨hfirst, hrest⟩ := hserved
    obtain ⟨hdisk₁, least₁, d₁, hidle₁, hcall⟩ := portCall_eq (m := m) hidle hdisk hfirst
    obtain ⟨least₂, d₂, hidle₂, hcalls⟩ := ih hidle₁ hdisk₁ hrest
    refine ⟨max least₁ least₂, d₂, hidle₂, fun fuel hfuel => ?_⟩
    simp [portCalls, hcall fuel (by omega), hcalls fuel (by omega)]

/-- A read over the end of a sector. -/
def acrossSectors : List StreamCall := [.seek 0x1000 500, .read 0x1000 0x2000 24]

def restingStreams : StreamState := ⟨fun _ => ⟨0, 0⟩, fun _ => 0⟩

theorem portCalls_refines_across : ∃ least d', d'.phase = .idle ∧ ∀ fuel ≥ least,
    portCalls numberedMedium fuel 0 acrossSectors restingStreams restingDrive =
      some (acrossSectors.foldl (streamCall (diskOf numberedMedium 0)) restingStreams, d') :=
  portCalls_refines (m := numberedMedium) rfl (fun _ => rfl) acrossSectors
    ⟨trivial, ⟨by simp [streamCall, StreamState.moved, diskstreamerSeek], by norm_num,
      by simp [streamCall, StreamState.moved, diskstreamerSeek], fun q _ hq => by
        simp [streamCall, StreamState.moved, diskstreamerSeek] at hq
        exact ⟨show q < 65536 by omega, decide_eq_false (by omega)⟩⟩, trivial⟩

end AlphaOS.Streamer
