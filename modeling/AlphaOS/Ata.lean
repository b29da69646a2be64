import Mathlib

/-! A disk drive on the ATA bus that a host reads by programmed input and output, with sector
numbers of 28 bits: the registers, the read command, and what the drive does from the
command to the last word of its data, or to the sector that it cannot read. -/
namespace AlphaOS.Ata

/-- A device as its host sees it: what its ports take and give. -/
structure Ports (D : Type) where
  outb : D → BitVec 16 → BitVec 8 → D
  insb : D → BitVec 16 → BitVec 8 × D
  insw : D → BitVec 16 → BitVec 16 × D

/-- What is left open about a drive: how many sectors it has and which of them are damaged, their
bytes, how many reads of the status find it busy with the next sector, the bits of the status besides
the data request and the error, and the words that a host gets which reads more than there is. -/
structure Medium where
  capacity : ℕ
  damaged : ℕ → Bool
  sector : ℕ → ℕ → BitVec 8
  delay : ℕ → ℕ
  status : ℕ → BitVec 8
  noise : ℕ → BitVec 16

/-- The sector is there and not damaged. -/
def Medium.Readable (m : Medium) (lba : ℕ) : Prop := lba < m.capacity ∧ m.damaged lba = false

instance (m : Medium) (lba : ℕ) : Decidable (m.Readable lba) := inferInstanceAs (Decidable (_ ∧ _))

inductive Phase
  | idle
  /-- Busy with a sector, with `left` more behind it. -/
  | busy (lba left wait : ℕ)
  /-- A word of a sector is the next to be read. -/
  | data (lba left word : ℕ)
  /-- The command has ended with an error. -/
  | failed
  deriving DecidableEq

/-- A command is taken when none is at work. -/
def Phase.Done (phase : Phase) : Prop := phase = .idle ∨ phase = .failed

instance (phase : Phase) : Decidable phase.Done := inferInstanceAs (Decidable (_ ∨ _))

structure Drive where
  count : BitVec 8
  low : BitVec 8
  mid : BitVec 8
  high : BitVec 8
  device : BitVec 8
  phase : Phase
  /-- How often the host has read from the drive. -/
  reads : ℕ

def Drive.lba (d : Drive) : BitVec 28 := d.device.setWidth 4 ++ d.high ++ d.mid ++ d.low

/-- A count of zero stands for 256 sectors. -/
def Drive.sectors (d : Drive) : ℕ := if d.count = 0#8 then 256 else d.count.toNat

/-- The registers are meant for this drive, not for the second one of the bus. -/
def Drive.selected (d : Drive) : Prop := d.device &&& 0x10#8 = 0#8

instance (d : Drive) : Decidable d.selected := inferInstanceAs (Decidable (_ = _))

variable (m : Medium)

/-- The read command, of sectors that are named by their numbers. -/
def Drive.command (d : Drive) (data : BitVec 8) : Drive :=
  if data = 0x20#8 ∧ d.selected ∧ d.device &&& 0x40#8 ≠ 0#8 ∧ d.phase.Done then
    { d with phase := .busy d.lba.toNat (d.sectors - 1) (m.delay d.reads) }
  else d

def Drive.outb (d : Drive) (port : BitVec 16) (data : BitVec 8) : Drive :=
  if port = 0x1F2#16 then { d with count := data }
  else if port = 0x1F3#16 then { d with low := data }
  else if port = 0x1F4#16 then { d with mid := data }
  else if port = 0x1F5#16 then { d with high := data }
  else if port = 0x1F6#16 then { d with device := data }
  else if port = 0x1F7#16 then d.command m data
  else d

/-- The phase that a read of the status leaves. -/
def Phase.poll : Phase → Phase
  | .busy lba left 0 => if m.Readable lba then .data lba left 0 else .failed
  | .busy lba left (wait + 1) => .busy lba left wait
  | phase => phase

/-- The data request and the error in the status. -/
def Phase.bits : Phase → BitVec 8
  | .data _ _ _ => 0x08#8
  | .failed => 0x01#8
  | _ => 0#8

/-- The status register, where a bus without a second drive shows zero. -/
def Drive.readStatus (d : Drive) : BitVec 8 × Drive :=
  if d.selected then
    (m.status d.reads &&& 0xF6#8 ||| (d.phase.poll m).bits,
      { d with phase := d.phase.poll m, reads := d.reads + 1 })
  else (0#8, { d with reads := d.reads + 1 })

def Drive.insb (d : Drive) (port : BitVec 16) : BitVec 8 × Drive :=
  if port = 0x1F7#16 then d.readStatus m else (0xFF#8, d)

def Medium.word (lba i : ℕ) : BitVec 16 := m.sector lba (2 * i + 1) ++ m.sector lba (2 * i)

/-- The phase that a read of the data leaves. -/
def Drive.afterWord (d : Drive) (lba left word : ℕ) : Phase :=
  if word < 255 then .data lba left (word + 1)
  else if left = 0 then .idle
  else .busy (lba + 1) (left - 1) (m.delay d.reads)

def Drive.readData (d : Drive) : BitVec 16 × Drive :=
  match d.phase with
  | .data lba left word => (m.word lba word, { d with phase := d.afterWord m lba left word, reads := d.reads + 1 })
  | _ => (m.noise d.reads, { d with reads := d.reads + 1 })

def Drive.insw (d : Drive) (port : BitVec 16) : BitVec 16 × Drive :=
  if port = 0x1F0#16 then d.readData m else (0xFFFF#16, d)

def ports : Ports Drive := ⟨Drive.outb m, Drive.insb m, Drive.insw m⟩

/-- Reading the status until the drive requests the transfer of a sector; `none` when the
fuel is gone. -/
def Drive.awaitData (d : Drive) : ℕ → Option Drive
  | 0 => none
  | fuel + 1 =>
    let c := d.insb m 0x1F7#16
    if c.1 &&& 0x08#8 = 0#8 then c.2.awaitData fuel else some c.2

variable {m} {d : Drive} {lba left wait word fuel : ℕ}

lemma bits_and (phase : Phase) (s : BitVec 8) :
    (s &&& 0xF6#8 ||| phase.bits) &&& 0x08#8 = phase.bits &&& 0x08#8 := by
  apply BitVec.eq_of_getLsbD_eq
  intro i hi
  interval_cases i <;> simp

lemma insb_status (hselected : d.selected) :
    (d.insb m 0x1F7#16).1 &&& 0x08#8 = (d.phase.poll m).bits &&& 0x08#8 ∧
    (d.insb m 0x1F7#16).2 = { d with phase := d.phase.poll m, reads := d.reads + 1 } := by
  simp [Drive.insb, Drive.readStatus, hselected, bits_and]

/-- Without a request for data the waiting goes on. -/
lemma awaitData_next (hselected : d.selected) (hbits : (d.phase.poll m).bits &&& 0x08#8 = 0#8) :
    d.awaitData m (fuel + 1) =
      Drive.awaitData m { d with phase := d.phase.poll m, reads := d.reads + 1 } fuel := by
  obtain ⟨hstatus, hdrive⟩ := insb_status (m := m) hselected
  rw [hbits] at hstatus
  simp only [Drive.awaitData, hstatus, hdrive, if_true]

lemma awaitData_wait (hselected : d.selected) (hphase : d.phase = .busy lba left (wait + 1)) :
    d.awaitData m (fuel + 1) =
      Drive.awaitData m { d with phase := .busy lba left wait, reads := d.reads + 1 } fuel := by
  rw [awaitData_next hselected (by simp [hphase, Phase.poll, Phase.bits]), hphase]
  rfl

/-- A busy drive gets ready after as many reads as it takes. -/
lemma awaitData_busy (hselected : d.selected) (hphase : d.phase = .busy lba left wait)
    (hreadable : m.Readable lba) (hfuel : wait < fuel) : d.awaitData m fuel =
      some { d with phase := .data lba left 0, reads := d.reads + wait + 1 } := by
  induction wait generalizing d fuel with
  | zero =>
    obtain ⟨fuel, rfl⟩ := Nat.exists_eq_add_one_of_ne_zero (show fuel ≠ 0 by omega)
    have hstatus := insb_status (m := m) hselected
    simp only [hphase, Phase.poll, if_pos hreadable, Phase.bits] at hstatus
    simp [Drive.awaitData, hstatus]
  | succ wait ih =>
    obtain ⟨fuel, rfl⟩ := Nat.exists_eq_add_one_of_ne_zero (show fuel ≠ 0 by omega)
    have hrest := ih (d := { d with phase := .busy lba left wait, reads := d.reads + 1 }) hselected rfl
      (Nat.lt_of_succ_lt_succ hfuel)
    rw [awaitData_wait hselected hphase, hrest]
    simp
    omega

/-- And not before. -/
lemma awaitData_early (hselected : d.selected) (hphase : d.phase = .busy lba left wait)
    (hfuel : fuel ≤ wait) : d.awaitData m fuel = none := by
  induction fuel generalizing d wait with
  | zero => rfl
  | succ fuel ih =>
    obtain ⟨wait, rfl⟩ := Nat.exists_eq_add_one_of_ne_zero (show wait ≠ 0 by omega)
    rw [awaitData_wait hselected hphase]
    exact ih (d := { d with phase := .busy lba left wait, reads := d.reads + 1 }) hselected rfl
      (Nat.le_of_succ_le_succ hfuel)

/-- A drive at which nothing is at work never gets ready. -/
lemma awaitData_done (hphase : d.phase.Done) : d.awaitData m fuel = none := by
  induction fuel generalizing d with
  | zero => rfl
  | succ fuel ih =>
    by_cases hselected : d.selected
    · have hpoll : d.phase.poll m = d.phase := by
        rcases hphase with hidle | hfailed
        · simp [hidle, Phase.poll]
        · simp [hfailed, Phase.poll]
      have hbits : d.phase.bits &&& 0x08#8 = 0#8 := by
        rcases hphase with hidle | hfailed
        · simp [hidle, Phase.bits]
        · simp [hfailed, Phase.bits]
      rw [awaitData_next hselected (by rw [hpoll]; exact hbits), hpoll]
      exact ih hphase
    · simp [Drive.awaitData, Drive.insb, Drive.readStatus, hselected, ih, hphase]

/-- Nor does one with a sector that it cannot read. -/
lemma awaitData_unreadable (hselected : d.selected) (hphase : d.phase = .busy lba left wait)
    (hreadable : ¬ m.Readable lba) : d.awaitData m fuel = none := by
  induction fuel generalizing d wait with
  | zero => rfl
  | succ fuel ih =>
    cases wait with
    | zero =>
      have hpoll : d.phase.poll m = .failed := by
        rw [hphase]
        exact if_neg hreadable
      rw [awaitData_next hselected (by simp [hpoll, Phase.bits]), hpoll]
      exact awaitData_done (.inr rfl)
    | succ wait =>
      rw [awaitData_wait hselected hphase]
      exact ih (d := { d with phase := .busy lba left wait, reads := d.reads + 1 }) hselected rfl

/-- Nor does a drive that is not selected. -/
lemma awaitData_unselected (hselected : ¬ d.selected) : d.awaitData m fuel = none := by
  induction fuel generalizing d with
  | zero => rfl
  | succ fuel ih =>
    have hrest := ih (d := { d with reads := d.reads + 1 }) hselected
    simp [Drive.awaitData, Drive.insb, Drive.readStatus, hselected, hrest]

/-- A word of a sector. -/
lemma insw_data (hphase : d.phase = .data lba left word) : (ports m).insw d 0x1F0#16 =
    (m.word lba word, { d with phase := d.afterWord m lba left word, reads := d.reads + 1 }) := by
  simp [ports, Drive.insw, Drive.readData, hphase]

end AlphaOS.Ata
