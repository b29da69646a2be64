import AlphaOS.Ata
import AlphaOS.DiskStream

/-! The driver of `disk/disk.c` on the ports of its device, and what it makes with an ATA drive of the
disk that `disk/streamer.c` and the file system read. -/
namespace AlphaOS.Streamer
open Ata WordMemory

/-- A little-endian halfword is stored. -/
def write16 (mem : Mem) (a : Word) (v : BitVec 16) : Mem := fun x =>
  if InRange a 2 x then (v >>> (8 * (x - a).toNat)).setWidth 8 else mem x

section Driver
variable {D : Type} (io : Ports D)

/-- The wait for the buffer; `none` when the fuel is gone. -/
def waitReady : ℕ → D → Option D
  | 0, _ => none
  | fuel + 1, d =>
    let c := io.insb d 0x1F7#16
    if c.1 &&& 0x08#8 = 0#8 then waitReady fuel c.2 else some c.2

/-- The loop that copies from the device to memory, with `k` words to go. -/
def copyWords : ℕ → Word → Mem → D → Word × Mem × D
  | 0, ptr, mem, d => (ptr, mem, d)
  | k + 1, ptr, mem, d =>
    let w := io.insw d 0x1F0#16
    copyWords k (ptr + 2) (write16 mem ptr w.1) w.2

/-- The loop over the sectors, each waited for with the same fuel. -/
def readLoop (fuel : ℕ) : ℕ → Word → Mem → D → Option (Mem × D)
  | 0, _, mem, d => some (mem, d)
  | b + 1, ptr, mem, d =>
    (waitReady io fuel d).bind fun d =>
    let r := copyWords io 256 ptr mem d
    readLoop fuel b r.1 r.2.1 r.2.2

/-- `disk_read_sector`. -/
def diskReadSector (fuel : ℕ) (lba : Word) (total : ℤ) (buf : Word) (mem : Mem) (d : D) :
    Option (ℤ × Mem × D) :=
  let d := io.outb d 0x1F6#16 ((lba.sshiftRight 24 ||| 0xE0).setWidth 8)
  let d := io.outb d 0x1F2#16 (BitVec.ofInt 8 total)
  let d := io.outb d 0x1F3#16 ((lba &&& 0xFF).setWidth 8)
  let d := io.outb d 0x1F4#16 ((lba.sshiftRight 8).setWidth 8)
  let d := io.outb d 0x1F5#16 ((lba.sshiftRight 16).setWidth 8)
  let d := io.outb d 0x1F7#16 0x20#8
  (readLoop io fuel total.toNat buf mem d).map fun r => (0, r)

/-- The bytes that are sent before the loop: those that name the sectors, and the command. -/
def sendCommand (d : D) (lba : Word) (count : Byte) : D :=
  let d := io.outb d 0x1F6#16 ((lba >>> 24 ||| 0xE0).setWidth 8)
  let d := io.outb d 0x1F2#16 count
  let d := io.outb d 0x1F3#16 (lba.setWidth 8)
  let d := io.outb d 0x1F4#16 ((lba >>> 8).setWidth 8)
  let d := io.outb d 0x1F5#16 ((lba >>> 16).setWidth 8)
  io.outb d 0x1F7#16 0x20#8

variable {io} {lba buf : Word} {mem : Mem} {fuel i : ℕ}

/-- The sign does not reach the lower bytes. -/
lemma sshiftRight_byte (lba : Word) (hi : i ≤ 24) :
    (lba.sshiftRight i).setWidth 8 = (lba >>> i).setWidth 8 := by
  apply BitVec.eq_of_getLsbD_eq
  intro j hj
  have hin : i + j < 32 := by omega
  have hwidth : j < 32 := by omega
  simp [hin, hwidth, BitVec.getElem_sshiftRight]

lemma diskReadSector_eq (d : D) (lba : Word) (total : ℤ) : diskReadSector io fuel lba total buf mem d =
    (readLoop io fuel total.toNat buf mem (sendCommand io d lba (BitVec.ofInt 8 total))).map
      fun r => (0, r) := by
  have hlow : (lba &&& 0xFF).setWidth 8 = lba.setWidth 8 := by
    apply BitVec.eq_of_getLsbD_eq
    intro j hj
    interval_cases j <;> simp
  simp only [diskReadSector, sendCommand, BitVec.setWidth_or, hlow, sshiftRight_byte lba (show 24 ≤ 24 by omega),
    sshiftRight_byte lba (show 8 ≤ 24 by omega), sshiftRight_byte lba (show 16 ≤ 24 by omega)]

lemma copyWords_ptr (k : ℕ) (ptr : Word) (mem : Mem) (d : D) :
    (copyWords io k ptr mem d).1 = ptr + BitVec.ofNat 32 (2 * k) := by
  induction k generalizing ptr mem d with
  | zero => simp [copyWords]
  | succ k ih =>
    have htwo : ptr + 2 = ptr + BitVec.ofNat 32 2 := rfl
    have hsum : 2 + 2 * k = 2 * (k + 1) := by ring
    rw [copyWords, ih, htwo, BitVec.add_assoc, ← BitVec.ofNat_add, hsum]

end Driver

variable (m : Medium)

/-- The disk that a drive makes. -/
def diskOf (addr : Word) : Disk := ⟨addr, fun lba i => m.sector lba.toNat i.toNat⟩

/-- The registers that name sectors, as the driver sets them. -/
def named (d : Drive) (lba : Word) (count : Byte) : Drive :=
  { d with
    count := count
    low := lba.setWidth 8
    mid := (lba >>> 8).setWidth 8
    high := (lba >>> 16).setWidth 8
    device := ((lba >>> 24) ||| 0xE0#32).setWidth 8 }

variable {m} {d : Drive} {lba ptr buf addr : Word} {mem : Mem} {fuel b k sector left word wait i : ℕ} {total : ℤ}
  {count : Byte}

/-- The driver waits as the drive wants it. -/
lemma waitReady_eq (d : Drive) : waitReady (ports m) fuel d = d.awaitData m fuel := by
  induction fuel generalizing d with
  | zero => rfl
  | succ fuel ih =>
    simp only [waitReady, Drive.awaitData, ih]
    rfl

lemma named_lba (d : Drive) (lba : Word) (count : Byte) : (named d lba count).lba = lba.setWidth 28 := by
  apply BitVec.eq_of_getLsbD_eq
  intro i hi
  simp only [named, Drive.lba, BitVec.getLsbD_append, BitVec.getLsbD_setWidth, BitVec.getLsbD_ushiftRight,
    BitVec.getLsbD_or]
  interval_cases i <;> simp

lemma named_selected (d : Drive) (lba : Word) (count : Byte) :
    (named d lba count).selected ↔ lba.getLsbD 28 = false := by
  have hbit : (named d lba count).device &&& 0x10#8 = if lba.getLsbD 28 then 0x10#8 else 0#8 := by
    apply BitVec.eq_of_getLsbD_eq
    intro i hi
    simp only [named, BitVec.getLsbD_and, BitVec.getLsbD_or, BitVec.getLsbD_setWidth, BitVec.getLsbD_ushiftRight]
    interval_cases i <;> cases lba.getLsbD 28 <;> simp
  unfold Drive.selected
  rw [hbit]
  cases lba.getLsbD 28 <;> simp

lemma named_device (d : Drive) (lba : Word) (count : Byte) : (named d lba count).device &&& 0x40#8 ≠ 0#8 := by
  intro hzero
  have hbit := congrArg (fun v => v.getLsbD 6) hzero
  simp [named] at hbit

lemma sendCommand_ports (d : Drive) (lba : Word) (count : Byte) :
    sendCommand (ports m) d lba count = (named d lba count).command m 0x20#8 := by
  simp [sendCommand, ports, Drive.outb, named, BitVec.setWidth_or]

/-! One sector. -/

/-- A word of the drive in memory is two bytes of the disk. -/
lemma write16_word (addr : Word) (mem : Mem) (ptr : Word) (hword : word < 256) :
    write16 mem ptr (m.word sector word) = (diskOf m addr).transfer (512 * sector + 2 * word) 2 mem ptr := by
  funext x
  by_cases hx : InRange ptr 2 x
  · have hcases : (x - ptr).toNat = 0 ∨ (x - ptr).toNat = 1 := by
      unfold InRange at hx
      omega
    have hsector : (512 * (sector : ℤ) + 2 * word + (x - ptr).toNat) / 512 = sector := by omega
    have hoffset : (512 * (sector : ℤ) + 2 * word + (x - ptr).toNat) % 512 = (2 * word + (x - ptr).toNat : ℕ) := by
      omega
    have hbyte : ∀ j < 2, (m.word sector word >>> (8 * j)).setWidth 8 = m.sector sector (2 * word + j) := by
      intro j hj
      apply BitVec.eq_of_getLsbD_eq
      intro i hi
      simp only [Medium.word, BitVec.getLsbD_setWidth, BitVec.getLsbD_ushiftRight, BitVec.getLsbD_append]
      interval_cases j
      · simp [hi]
      · simp [hi]
    simp only [write16, Disk.transfer, if_pos hx, Disk.byte, diskOf, hsector, hoffset, Int.toNat_natCast]
    exact hbyte _ hx
  · simp [write16, Disk.transfer, hx]

/-- The phase behind a sector. -/
def behind (m : Medium) (lba left reads : ℕ) : Phase :=
  if left = 0 then .idle else .busy (lba + 1) (left - 1) (m.delay reads)

/-- The rest of a sector. -/
lemma copyWords_data (addr : Word) (hphase : d.phase = .data sector left word) (hrest : word + (k + 1) = 256) :
    copyWords (ports m) (k + 1) ptr mem d = (ptr + BitVec.ofNat 32 (2 * (k + 1)),
      (diskOf m addr).transfer (512 * sector + 2 * word) (2 * (k + 1)) mem ptr,
      { d with phase := behind m sector left (d.reads + k), reads := d.reads + (k + 1) }) := by
  induction k generalizing d ptr mem word with
  | zero =>
    have hlast : word = 255 := by omega
    subst hlast
    simp [copyWords, insw_data hphase, write16_word addr, Drive.afterWord, behind]
  | succ k ih =>
    have hword : word < 255 := by omega
    have htwo : ptr + 2 = ptr + BitVec.ofNat 32 2 := rfl
    have hnext := @ih (d := { d with phase := .data sector left (word + 1), reads := d.reads + 1 }) (ptr + 2)
      (write16 mem ptr (m.word sector word)) (word + 1) rfl (by omega)
    have hpos : (512 * (sector : ℤ) + 2 * ((word + 1 : ℕ) : ℤ)) = 512 * sector + 2 * word + (2 : ℕ) := by
      push_cast
      ring
    rw [copyWords, insw_data hphase]
    simp only [Drive.afterWord, if_pos hword]
    rw [hnext, write16_word addr mem ptr (by omega), hpos, htwo, Disk.transfer_add _ _ (by omega)]
    have hsum : 2 + 2 * (k + 1) = 2 * (k + 1 + 1) := by ring
    have hptr : ptr + 2#32 + BitVec.ofNat 32 (2 * (k + 1)) = ptr + BitVec.ofNat 32 (2 * (k + 1 + 1)) := by
      rw [BitVec.add_assoc, ← BitVec.ofNat_add, hsum]
    have hreads : d.reads + 1 + k = d.reads + (k + 1) := by ring
    simp [hptr, hsum, hreads]
    omega

/-! The loop over the sectors. -/

/-- One turn of the loop, on a drive that is busy with a sector. -/
lemma readLoop_busy (addr : Word) (hselected : d.selected) (hphase : d.phase = .busy sector left wait)
    (hreadable : m.Readable sector) (hfuel : wait < fuel) :
    readLoop (ports m) fuel (b + 1) ptr mem d = readLoop (ports m) fuel b (ptr + 512)
      ((diskOf m addr).transfer (512 * sector) 512 mem ptr)
      { d with
        phase := behind m sector left (d.reads + wait + 1 + 255)
        reads := d.reads + wait + 1 + 256 } := by
  have hwait : waitReady (ports m) fuel d =
      some { d with phase := .data sector left 0, reads := d.reads + wait + 1 } := by
    rw [waitReady_eq, awaitData_busy hselected hphase hreadable hfuel]
  have hcopy := @copyWords_data m { d with phase := .data sector left 0, reads := d.reads + wait + 1 } ptr mem
    255 sector left 0 addr rfl rfl
  simp only [readLoop, hwait, Option.bind_some, hcopy]
  simp

/-- The loop over the sectors that the drive was told to send. -/
lemma readLoop_all (addr ptr : Word) (mem : Mem) (hselected : d.selected)
    (hphase : d.phase = .busy sector left wait) (hleft : left < 2 ^ 20)
    (hreadable : ∀ j ≤ left, m.Readable (sector + j)) :
    ∃ least d', d'.phase = .idle ∧ ∀ fuel ≥ least, readLoop (ports m) fuel (left + 1) ptr mem d =
      some ((diskOf m addr).transfer (512 * sector) (512 * (left + 1)) mem ptr, d') := by
  induction left generalizing d ptr mem sector wait with
  | zero =>
    refine ⟨wait + 1, { d with phase := .idle, reads := d.reads + wait + 1 + 256 }, rfl, fun fuel hfuel => ?_⟩
    rw [readLoop_busy addr hselected hphase (hreadable 0 le_rfl) hfuel]
    simp [readLoop, behind]
  | succ left ih =>
    have hnextReadable : ∀ j ≤ left, m.Readable (sector + 1 + j) := fun j hj => by
      rw [Nat.add_assoc, Nat.add_comm 1 j]
      exact hreadable (j + 1) (by omega)
    obtain ⟨least, d', hidle, hrest⟩ := @ih
      { d with phase := .busy (sector + 1) left (m.delay (d.reads + wait + 1 + 255)), reads := d.reads + wait + 1 + 256 }
      (sector + 1) _ (ptr + 512) ((diskOf m addr).transfer (512 * sector) 512 mem ptr) hselected rfl (by omega)
      hnextReadable
    refine ⟨max least (wait + 1), d', hidle, fun fuel hfuel => ?_⟩
    have hnext : behind m sector (left + 1) (d.reads + wait + 1 + 255) =
        .busy (sector + 1) left (m.delay (d.reads + wait + 1 + 255)) := by simp [behind]
    have hpos : (512 * ((sector + 1 : ℕ) : ℤ)) = 512 * sector + (512 : ℕ) := by
      push_cast
      ring
    have hsum : 512 + 512 * (left + 1) = 512 * (left + 1 + 1) := by ring
    have hptr : ptr + 512 = ptr + BitVec.ofNat 32 512 := rfl
    rw [readLoop_busy addr hselected hphase (hreadable 0 (by omega)) (by omega), hnext, hrest fuel (by omega),
      hpos, hptr, Disk.transfer_add _ _ (by omega), hsum]

/-- The first turn waits for ever, or goes on behind a sector that the drive can read. -/
lemma readLoop_first (hselected : d.selected) (hphase : d.phase = .busy sector left wait) :
    readLoop (ports m) fuel (b + 1) ptr mem d = none ∨
      m.Readable sector ∧ ∃ ptr' mem' r, readLoop (ports m) fuel (b + 1) ptr mem d =
        readLoop (ports m) fuel b ptr' mem' { d with phase := behind m sector left r, reads := r + 1 } := by
  by_cases hreadable : m.Readable sector
  swap
  · exact .inl (by rw [readLoop, waitReady_eq, awaitData_unreadable hselected hphase hreadable, Option.bind_none])
  by_cases hfuel : wait < fuel
  swap
  · exact .inl (by rw [readLoop, waitReady_eq, awaitData_early hselected hphase (by omega), Option.bind_none])
  exact .inr ⟨hreadable, _, _, _, readLoop_busy 0 hselected hphase hreadable hfuel⟩

/-- Who asks for more sectors than the drive was told to send, or for one that it cannot read, waits for
ever. -/
lemma readLoop_stuck (hselected : d.selected) (hphase : d.phase = .busy sector left wait)
    (hbad : left + 1 < b ∨ ∃ j < b, j ≤ left ∧ ¬ m.Readable (sector + j)) :
    readLoop (ports m) fuel b ptr mem d = none := by
  induction left generalizing d ptr mem sector wait b with
  | zero =>
    obtain ⟨b, rfl⟩ := Nat.exists_eq_add_one_of_ne_zero (show b ≠ 0 by omega)
    obtain hnone | ⟨hreadable, ptr', mem', r, heq⟩ := @readLoop_first m d ptr mem fuel b sector 0 wait hselected hphase
    · exact hnone
    obtain ⟨b, rfl⟩ : ∃ c, b = c + 1 := by
      rcases hbad with hmore | ⟨j, -, hj, hnot⟩
      · exact ⟨b - 1, by omega⟩
      · obtain rfl : j = 0 := by omega
        exact absurd hreadable hnot
    rw [heq, readLoop, waitReady_eq, awaitData_done (.inl rfl), Option.bind_none]
  | succ left ih =>
    obtain ⟨b, rfl⟩ := Nat.exists_eq_add_one_of_ne_zero (show b ≠ 0 by omega)
    obtain hnone | ⟨hreadable, ptr', mem', r, heq⟩ :=
      @readLoop_first m d ptr mem fuel b sector (left + 1) wait hselected hphase
    · exact hnone
    rw [heq]
    refine ih hselected (show behind m sector (left + 1) r = .busy (sector + 1) left _ by simp [behind]; rfl) ?_
    rcases hbad with hmore | ⟨j, hj, hle, hnot⟩
    · exact .inl (by omega)
    · obtain ⟨j, rfl⟩ : ∃ l, j = l + 1 := by
        refine ⟨j - 1, ?_⟩
        rcases Nat.eq_zero_or_pos j with hzero | hpos
        · rw [hzero] at hnot
          exact absurd hreadable hnot
        · omega
      exact .inr ⟨j, by omega, by omega, by rwa [Nat.add_assoc, Nat.add_comm 1 j]⟩

/-! The driver. -/

/-- The driver's numbers that the registers can say: a sector of the first drive, and a
count of up to 256. -/
def Sayable (lba : Word) (total : ℤ) : Prop := lba.getLsbD 28 = false ∧ 1 ≤ total ∧ total ≤ 256

/-- The drive has all the sectors that are asked for, undamaged. -/
def AllReadable (m : Medium) (lba : Word) (total : ℤ) : Prop :=
  ∀ j < total.toNat, m.Readable ((lba.setWidth 28).toNat + j)

/-- A drive that has taken the command. -/
def commanded (m : Medium) (d : Drive) (lba : Word) (count : Byte) : Drive :=
  { named d lba count with
    phase := .busy (lba.setWidth 28).toNat ((named d lba count).sectors - 1) (m.delay d.reads) }

/-- The command is taken by an idle drive that the registers name. -/
lemma command_named (count : Byte) (hidle : d.phase = .idle) (hbit : lba.getLsbD 28 = false) :
    (named d lba count).command m 0x20#8 = commanded m d lba count ∧ (commanded m d lba count).selected := by
  have hselected : (named d lba count).selected := (named_selected d lba count).2 hbit
  have htaken : 0x20#8 = 0x20#8 ∧ (named d lba count).selected ∧ (named d lba count).device &&& 0x40#8 ≠ 0#8 ∧
      (named d lba count).phase.Done := ⟨rfl, hselected, named_device d lba count, .inl hidle⟩
  constructor
  · rw [Drive.command, if_pos htaken, named_lba]
    rfl
  · exact hselected

/-- The number of sectors that the drive is told to send. -/
lemma named_sectors (d : Drive) (lba : Word) (htotal : 1 ≤ total) :
    (named d lba (BitVec.ofInt 8 total)).sectors = (total.toNat - 1) % 256 + 1 := by
  have hval : (BitVec.ofInt 8 total).toNat = (total % 256).toNat := by simp
  have hzero : BitVec.ofInt 8 total = 0#8 ↔ total % 256 = 0 := by
    rw [← BitVec.toNat_inj, hval]
    simp
    omega
  unfold Drive.sectors named
  simp only [hzero, hval]
  split <;> omega

/-- A read of an idle drive, of sectors that it has. -/
lemma diskReadSector_sayable (addr buf : Word) (mem : Mem) (hidle : d.phase = .idle)
    (hsay : Sayable lba total) (hreadable : AllReadable m lba total) :
    ∃ least d', d'.phase = .idle ∧ ∀ fuel ≥ least, diskReadSector (ports m) fuel lba total buf mem d =
      some (0, (diskOf m addr).transfer (512 * (lba.setWidth 28).toNat) (512 * total.toNat) mem buf, d') := by
  obtain ⟨hbit, hlow, hhigh⟩ := hsay
  obtain ⟨hcommand, hselected⟩ := command_named (m := m) (BitVec.ofInt 8 total) hidle hbit
  have hsectors := named_sectors d lba hlow
  have hcount : (named d lba (BitVec.ofInt 8 total)).sectors - 1 + 1 = total.toNat := by omega
  obtain ⟨least, d', hidle', hloop⟩ := readLoop_all (m := m) addr buf mem hselected rfl (by omega)
    fun j hj => hreadable j (by omega)
  rw [hcount] at hloop
  exact ⟨least, d', hidle', fun fuel hfuel => by
    rw [diskReadSector_eq, sendCommand_ports, hcommand, hloop fuel hfuel, Option.map_some]⟩

/-- A positive number of sectors is waited for in vain that the registers cannot say, or the drive has
not. -/
lemma diskReadSector_stuck (fuel : ℕ) (buf : Word) (mem : Mem) (hidle : d.phase = .idle) (htotal : 1 ≤ total)
    (hnot : ¬ (Sayable lba total ∧ AllReadable m lba total)) :
    diskReadSector (ports m) fuel lba total buf mem d = none := by
  have hsectors := named_sectors d lba htotal
  rw [diskReadSector_eq, sendCommand_ports]
  cases hbit : lba.getLsbD 28 with
  | true =>
    have hselected : ¬ (named d lba (BitVec.ofInt 8 total)).selected := by simp [named_selected, hbit]
    obtain ⟨b, hb⟩ : ∃ b, total.toNat = b + 1 := ⟨total.toNat - 1, by omega⟩
    simp [Drive.command, hselected, hb, readLoop, waitReady_eq, awaitData_unselected]
  | false =>
    obtain ⟨hcommand, hselected⟩ := command_named (m := m) (BitVec.ofInt 8 total) hidle hbit
    have hbad : (named d lba (BitVec.ofInt 8 total)).sectors - 1 + 1 < total.toNat ∨
        ∃ j < total.toNat, j ≤ (named d lba (BitVec.ofInt 8 total)).sectors - 1 ∧
          ¬ m.Readable ((lba.setWidth 28).toNat + j) := by
      by_cases hlarge : total ≤ 256
      · have hmissing : ¬ AllReadable m lba total := fun hall => hnot ⟨⟨hbit, htotal, hlarge⟩, hall⟩
        unfold AllReadable at hmissing
        push Not at hmissing
        obtain ⟨j, hj, hjnot⟩ := hmissing
        exact .inr ⟨j, hj, by omega, hjnot⟩
      · exact .inl (by omega)
    rw [hcommand, readLoop_stuck hselected rfl hbad]
    rfl

/-- On an idle drive the driver comes back exactly when it asks for nothing, or for sectors that the
registers can say and the drive has; then the sectors asked for are in memory, nothing else has changed
there, and the drive is idle again. -/
theorem diskReadSector_returns (hidle : d.phase = .idle) (lba : Word) (total : ℤ) (addr buf : Word) (mem : Mem) :
    ((∃ fuel r, diskReadSector (ports m) fuel lba total buf mem d = some r) ↔
      total ≤ 0 ∨ Sayable lba total ∧ AllReadable m lba total) ∧
    (Sayable lba total → AllReadable m lba total → ∃ least d', d'.phase = .idle ∧ ∀ fuel ≥ least,
      diskReadSector (ports m) fuel lba total buf mem d = some (0,
        (diskOf m addr).transfer (512 * (lba.setWidth 28).toNat) (512 * total.toNat) mem buf, d')) ∧
    (total ≤ 0 → ∀ fuel, ∃ d', diskReadSector (ports m) fuel lba total buf mem d = some (0, mem, d')) := by
  have hnothing : total ≤ 0 → ∀ fuel, ∃ d', diskReadSector (ports m) fuel lba total buf mem d =
      some (0, mem, d') := by
    intro htotal fuel
    have hzero : total.toNat = 0 := by omega
    exact ⟨_, by rw [diskReadSector_eq, hzero]; rfl⟩
  refine ⟨⟨fun ⟨fuel, r, hread⟩ => ?_, fun h => ?_⟩, diskReadSector_sayable addr buf mem hidle, hnothing⟩
  · by_contra hnot
    have hstuck := diskReadSector_stuck (m := m) fuel buf mem hidle
      (show 1 ≤ total by omega) (fun hserved => hnot (.inr hserved))
    simp [hstuck] at hread
  · rcases h with htotal | ⟨hsay, hreadable⟩
    · obtain ⟨d', hread⟩ := hnothing htotal 0
      exact ⟨0, _, hread⟩
    · obtain ⟨least, d', -, hread⟩ := diskReadSector_sayable addr buf mem hidle hsay hreadable
      exact ⟨least, _, hread least le_rfl⟩

/-- A drive of 32 MiB whose sectors are filled with the low bytes of their numbers; one of them is
damaged. -/
def numberedMedium : Medium where
  capacity := 65536
  damaged lba := lba = 40000
  sector lba _ := BitVec.ofNat 8 lba
  delay _ := 2
  status _ := 0x50
  noise _ := 0

def restingDrive : Drive := ⟨0, 0, 0, 0, 0, .idle, 0⟩

lemma numberedMedium_readable {lba : Word} {total : ℤ} (hlow : (lba.setWidth 28).toNat + total.toNat ≤ 40000) :
    AllReadable numberedMedium lba total := by
  intro j hj
  exact ⟨show _ < 65536 by omega, decide_eq_false (by omega)⟩

theorem diskReadSector_returns_kernel :
    ∃ least d', d'.phase = .idle ∧ ∀ fuel ≥ least,
      diskReadSector (ports numberedMedium) fuel 1 100 0x100000 (fun _ => 0) restingDrive =
        some (0, (diskOf numberedMedium 0).transfer 512 51200 (fun _ => 0) 0x100000, d') :=
  (diskReadSector_returns (m := numberedMedium) (d := restingDrive) rfl 1 100 0 0x100000 fun _ => 0).2.1
    ⟨by decide, by decide, by decide⟩ (numberedMedium_readable (by decide))

end AlphaOS.Streamer
