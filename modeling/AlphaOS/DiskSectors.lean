import AlphaOS.DiskStream

/-! The sectors that a read of the stream asks the drive for. -/
namespace AlphaOS.Streamer
open WordMemory

variable {disk : Disk} {stream : DiskStream}

def HoldsRequested (pos total lba : ℤ) : Prop := ∃ p, pos ≤ p ∧ p < pos + total ∧ p / 512 = lba

/-- On a disk of `N` sectors: the drive is asked for sectors of the disk that hold a requested
byte. -/
def AsksForRequested (N pos total : ℤ) (r : StreamRead) : Prop :=
  ∀ lba ∈ r.sectors, 0 ≤ lba ∧ lba < N ∧ HoldsRequested pos total lba

lemma mem_diskstreamerRead_sectors (hdisk : stream.disk = disk.addr) (hpos : 0 ≤ stream.pos)
    (n : ℕ) (hend : stream.pos + n < 2 ^ 31) (mem : Mem) (out : Word) (lba : ℤ) :
    lba ∈ (diskstreamerRead disk stream mem out n).sectors ↔
      stream.pos / 512 ≤ lba ∧ lba ≤ (stream.pos + n) / 512 := by
  induction n using Nat.strong_induction_on generalizing stream mem out with
  | h n ih =>
    have hdiv : stream.pos.tdiv 512 = stream.pos / 512 := Int.tdiv_eq_ediv_of_nonneg hpos
    have hmod : stream.pos.tmod 512 = stream.pos % 512 := Int.tmod_eq_emod_of_nonneg hpos
    rw [diskstreamerRead_eq hdisk]
    simp only [hdiv, hmod]
    by_cases hover : stream.pos % 512 + (n : ℤ) ≥ 512
    · -- the rest is read from the start of the next sector on
      obtain ⟨k, hk⟩ : ∃ k : ℕ, 512 - stream.pos % 512 = k :=
        ⟨(512 - stream.pos % 512).toNat, by omega⟩
      have hleft : (n : ℤ) - k = ((n - k : ℕ) : ℤ) := by omega
      simp only [if_pos hover, hk, hleft, List.mem_cons]
      rw [DiskStream.moved_eq (by omega) (by omega),
        @ih (n - k) (by omega) { stream with pos := stream.pos + k } hdisk
          (show 0 ≤ stream.pos + k by omega) (show stream.pos + k + (n - k : ℕ) < 2 ^ 31 by omega)]
      change lba = _ ∨ (stream.pos + k) / 512 ≤ lba ∧ lba ≤ (stream.pos + k + (n - k : ℕ)) / 512 ↔ _
      omega
    · simp only [if_neg hover, List.mem_singleton]
      omega

/-- A request that reaches position 2 ^ 31 wraps around to the sector at - 2 ^ 31. -/
lemma wrapped_mem_diskstreamerRead_sectors (hdisk : stream.disk = disk.addr)
    (hpos : 0 ≤ stream.pos) (hint : stream.pos < 2 ^ 31) (n : ℕ) (hend : 2 ^ 31 ≤ stream.pos + n)
    (mem : Mem) (out : Word) : -2 ^ 22 ∈ (diskstreamerRead disk stream mem out n).sectors := by
  induction n using Nat.strong_induction_on generalizing stream mem out with
  | h n ih =>
    have hmod : stream.pos.tmod 512 = stream.pos % 512 := Int.tmod_eq_emod_of_nonneg hpos
    have hover : stream.pos % 512 + (n : ℤ) ≥ 512 := by omega
    obtain ⟨k, hk⟩ : ∃ k : ℕ, 512 - stream.pos % 512 = k :=
      ⟨(512 - stream.pos % 512).toNat, by omega⟩
    have hleft : (n : ℤ) - k = ((n - k : ℕ) : ℤ) := by omega
    rw [diskstreamerRead_eq hdisk]
    simp only [hmod, if_pos hover, hk, hleft, List.mem_cons]
    refine .inr ?_
    by_cases hbelow : stream.pos + k < 2 ^ 31
    · rw [DiskStream.moved_eq (by omega) hbelow]
      exact @ih (n - k) (by omega) { stream with pos := stream.pos + k } hdisk
        (show 0 ≤ stream.pos + k by omega) hbelow (show 2 ^ 31 ≤ stream.pos + k + (n - k : ℕ) by omega)
        _ _
    · -- the sector that ends there is the last one of the positive positions
      have htop : stream.pos + k = 2 ^ 31 := by omega
      have hwrap : (((2 : ℤ) ^ 31).bmod (2 ^ 32)).tdiv 512 = -2 ^ 22 := by decide
      rw [← hwrap, ← htop]
      exact List.mem_of_mem_head? (diskstreamerRead_head disk _ _ _ _)

end AlphaOS.Streamer
