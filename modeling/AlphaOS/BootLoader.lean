import AlphaOS.DiskDriver

/-! The boot loader of `boot/boot.asm` from `load32` on: its routine `ata_lba_read` reads the kernel
from the drive. Segments are taken to be flat, which the boot loader leaves to the processor (it never
loads the data segment of its table), and the direction flag to be clear. -/
namespace AlphaOS.BootLoader
open Ata Streamer WordMemory

/-- The registers of the boot loader, memory and the device behind the ports. -/
structure Boot (D : Type) where
  eax : Word
  ebx : Word
  ecx : Word
  edx : Word
  edi : Word
  esp : Word
  mem : Mem
  drive : D

variable {D : Type}

def Boot.al (s : Boot D) : Byte := s.eax.setWidth 8

def Boot.dx (s : Boot D) : BitVec 16 := s.edx.setWidth 16

def Boot.setAl (s : Boot D) (v : Byte) : Boot D := { s with eax := s.eax &&& 0xFFFFFF00#32 ||| v.setWidth 32 }

def Boot.setDx (s : Boot D) (v : BitVec 16) : Boot D := { s with edx := s.edx &&& 0xFFFF0000#32 ||| v.setWidth 32 }

def Boot.push (s : Boot D) (v : Word) : Boot D :=
  { s with mem := write32 s.mem (s.esp - 4) v, esp := s.esp - 4 }

def Boot.popEcx (s : Boot D) : Boot D := { s with ecx := read32 s.mem s.esp, esp := s.esp + 4 }

variable (io : Ports D)

/-- `out dx, al`. -/
def Boot.out (s : Boot D) : Boot D := { s with drive := io.outb s.drive s.dx s.al }

/-- `in al, dx`. -/
def Boot.readAl (s : Boot D) : Boot D :=
  let c := io.insb s.drive s.dx
  { s with drive := c.2 }.setAl c.1

/-- `.try_again`; `none` when the fuel is gone. -/
def tryAgain : ℕ → Boot D → Option (Boot D)
  | 0, _ => none
  | fuel + 1, s =>
    let s := (s.setDx 0x1F7#16).readAl io
    if s.al &&& 0x08#8 = 0#8 then tryAgain fuel s else some s

/-- `rep insw` with `k` words to go. -/
def repInsw : ℕ → Boot D → Boot D
  | 0, s => s
  | k + 1, s =>
    let w := io.insw s.drive s.dx
    repInsw k { s with mem := write16 s.mem s.edi w.1, edi := s.edi + 2, ecx := s.ecx - 1, drive := w.2 }

/-- From `.next_sector` up to `loop`, which counts `ecx` down. -/
def readSector (fuel : ℕ) (s : Boot D) : Option (Boot D) :=
  (tryAgain io fuel (s.push s.ecx)).map fun s =>
    let s := { s with ecx := 256 }.setDx 0x1F0#16
    let s := (repInsw io s.ecx.toNat s).popEcx
    { s with ecx := s.ecx - 1 }

/-- `.next_sector`, for so many turns at most. -/
def nextSector (fuel : ℕ) : ℕ → Boot D → Option (Boot D)
  | 0, _ => none
  | turns + 1, s =>
    (readSector io fuel s).bind fun s =>
    if s.ecx = 0 then some s else nextSector fuel turns s

/-- `ata_lba_read` up to its return. -/
def ataLbaRead (fuel : ℕ) (s : Boot D) : Option (Boot D) :=
  let s := { s with ebx := s.eax }
  let s := { s with eax := s.eax >>> 24 }
  let s := { s with eax := s.eax ||| 0xE0#32 }
  let s := (s.setDx 0x1F6#16).out io
  let s := { s with eax := s.ecx }
  let s := (s.setDx 0x1F2#16).out io
  let s := { s with eax := s.ebx }
  let s := (s.setDx 0x1F3#16).out io
  let s := s.setDx 0x1F4#16
  let s := { s with eax := s.ebx }
  let s := { s with eax := s.eax >>> 8 }.out io
  let s := s.setDx 0x1F5#16
  let s := { s with eax := s.ebx }
  let s := { s with eax := s.eax >>> 16 }.out io
  let s := ((s.setDx 0x1F7#16).setAl 0x20#8).out io
  nextSector io fuel fuel s

def kernelAddress : Word := 0x0100000

/-- `load32`, whose call has the return address `back`. The result comes with the address where the
processor goes on. -/
def load32 (fuel : ℕ) (back : Word) (s : Boot D) : Option (Word × Boot D) :=
  let s := { s with eax := 1, ecx := 100, edi := kernelAddress }
  (ataLbaRead io fuel (s.push back)).map fun s =>
    let eip := read32 s.mem s.esp
    (if eip = back then kernelAddress else eip, { s with esp := s.esp + 4 })

/-! The registers. -/

variable {io} {s : Boot D} {fuel turns k n : ℕ} {ptr slot : Word} {mem mem' : Mem} {d : D}

lemma low_word (x : Word) (v : BitVec 16) : (x &&& 0xFFFF0000#32 ||| v.setWidth 32).setWidth 16 = v := by
  apply BitVec.eq_of_getLsbD_eq
  intro i hi
  simp only [BitVec.getLsbD_setWidth, BitVec.getLsbD_or, BitVec.getLsbD_and]
  interval_cases i <;> simp

lemma low_byte (x : Word) (v : Byte) : (x &&& 0xFFFFFF00#32 ||| v.setWidth 32).setWidth 8 = v := by
  apply BitVec.eq_of_getLsbD_eq
  intro i hi
  simp only [BitVec.getLsbD_setWidth, BitVec.getLsbD_or, BitVec.getLsbD_and]
  interval_cases i <;> simp

@[simp] lemma setDx_dx (s : Boot D) (v : BitVec 16) : (s.setDx v).dx = v := low_word s.edx v

@[simp] lemma setAl_al (s : Boot D) (v : Byte) : (s.setAl v).al = v := low_byte s.eax v

/-- Waiting is what the driver does. -/
lemma tryAgain_waitReady (s : Boot D) : match waitReady io fuel s.drive with
    | none => tryAgain io fuel s = none
    | some d => ∃ eax edx, tryAgain io fuel s = some { s with eax := eax, edx := edx, drive := d } := by
  induction fuel generalizing s with
  | zero => rfl
  | succ fuel ih =>
    have hread : (s.setDx 0x1F7#16).readAl io =
        { s.setDx 0x1F7#16 with drive := (io.insb s.drive 0x1F7#16).2 }.setAl (io.insb s.drive 0x1F7#16).1 := by
      simp only [Boot.readAl, setDx_dx]
      rfl
    by_cases hready : (io.insb s.drive 0x1F7#16).1 &&& 0x08#8 = 0#8
    · have hwait : waitReady io (fuel + 1) s.drive = waitReady io fuel (io.insb s.drive 0x1F7#16).2 := by
        simp [waitReady, hready]
      have hagain : tryAgain io (fuel + 1) s = tryAgain io fuel ((s.setDx 0x1F7#16).readAl io) := by
        simp [tryAgain, hread, hready]
      have hdrive : ((s.setDx 0x1F7#16).readAl io).drive = (io.insb s.drive 0x1F7#16).2 := by
        rw [hread]
        rfl
      have hrest := ih ((s.setDx 0x1F7#16).readAl io)
      rw [hdrive] at hrest
      rw [hwait, hagain]
      cases hcase : waitReady io fuel (io.insb s.drive 0x1F7#16).2 with
      | none => simpa [hcase] using hrest
      | some d =>
        simp only [hcase] at hrest
        obtain ⟨eax, edx, hsome⟩ := hrest
        exact ⟨eax, edx, hsome⟩
    · have hwait : waitReady io (fuel + 1) s.drive = some (io.insb s.drive 0x1F7#16).2 := by
        simp [waitReady, hready]
      rw [hwait]
      exact ⟨_, _, by simp only [tryAgain, hread, setAl_al, if_neg hready]; rfl⟩

/-! The routine follows the driver, but for the word of the stack that it counts in. -/

/-- The memories agree off a word of the stack. -/
def SameButSlot (slot : Word) (mem mem' : Mem) : Prop := ∀ x, ¬ InRange slot 4 x → mem x = mem' x

/-- The word lies outside a buffer. -/
def SlotApart (slot ptr : Word) (n : ℕ) : Prop := ∀ x, InRange slot 4 x → ¬ InRange ptr n x

/-- The boot loader is where the driver is. -/
structure Follows (slot : Word) (s : Boot D) (ptr : Word) (mem : Mem) (d : D) : Prop where
  edi : s.edi = ptr
  drive : s.drive = d
  mem : SameButSlot slot s.mem mem

lemma write16_sameButSlot (h : SameButSlot slot mem mem') (a : Word) (v : BitVec 16) :
    SameButSlot slot (write16 mem a v) (write16 mem' a v) := by
  intro x hx
  simp [write16, h x hx]

lemma inRange_two (ptr x : Word) (hk : 2 * (k + 1) < 2 ^ 32) :
    InRange ptr (2 * (k + 1)) x ↔ InRange ptr 2 x ∨ InRange (ptr + 2) (2 * k) x := by
  have hsplit := (inRange_split ptr x (show 2 + 2 * k < 2 ^ 32 by omega)).1
  have hsum : 2 * (k + 1) = 2 + 2 * k := by ring
  rw [hsum]
  exact hsplit

/-- `rep insw` is the copying loop, and leaves the word alone. -/
lemma repInsw_copyWords (hdx : s.dx = 0x1F0#16) (hmem : SameButSlot slot s.mem mem)
    (hk : 2 * k < 2 ^ 32) (hapart : SlotApart slot s.edi (2 * k)) :
    ∃ mem', repInsw io k s = { s with
        edi := (copyWords io k s.edi mem s.drive).1
        ecx := s.ecx - BitVec.ofNat 32 k
        drive := (copyWords io k s.edi mem s.drive).2.2
        mem := mem' } ∧
      SameButSlot slot mem' (copyWords io k s.edi mem s.drive).2.1 ∧ ∀ x, InRange slot 4 x → mem' x = s.mem x := by
  induction k generalizing s mem with
  | zero => exact ⟨s.mem, by simp [repInsw, copyWords], hmem, fun x _ => rfl⟩
  | succ k ih =>
    have hslot : ∀ x, InRange slot 4 x → ¬ InRange s.edi 2 x ∧ ¬ InRange (s.edi + 2) (2 * k) x := fun x hx =>
      ⟨fun hin => hapart x hx ((inRange_two s.edi x hk).2 (.inl hin)),
        fun hin => hapart x hx ((inRange_two s.edi x hk).2 (.inr hin))⟩
    obtain ⟨mem', hrep, hsame, hkept⟩ := @ih
      { s with
        mem := write16 s.mem s.edi (io.insw s.drive 0x1F0#16).1, edi := s.edi + 2, ecx := s.ecx - 1,
        drive := (io.insw s.drive 0x1F0#16).2 } (write16 mem s.edi (io.insw s.drive 0x1F0#16).1) hdx
      (write16_sameButSlot hmem _ _) (by omega) (fun x hx => (hslot x hx).2)
    refine ⟨mem', ?_, hsame, fun x hx => ?_⟩
    · have hecx : s.ecx - 1 - BitVec.ofNat 32 k = s.ecx - BitVec.ofNat 32 (k + 1) := by
        rw [Nat.add_comm, BitVec.ofNat_add, BitVec.sub_sub]
        rfl
      rw [repInsw, hdx]
      simp only [hrep, hecx, copyWords]
    · rw [hkept x hx]
      simp [write16, (hslot x hx).1]

/-- One turn. -/
lemma readSector_turn (hfollows : Follows (s.esp - 4) s ptr mem d) (hapart : SlotApart (s.esp - 4) ptr 512) :
    match waitReady io fuel d with
    | none => readSector io fuel s = none
    | some d₁ => ∃ s', readSector io fuel s = some s' ∧ s'.ecx = s.ecx - 1 ∧ s'.esp = s.esp ∧
        Follows (s.esp - 4) s' (copyWords io 256 ptr mem d₁).1 (copyWords io 256 ptr mem d₁).2.1
          (copyWords io 256 ptr mem d₁).2.2 := by
  obtain ⟨rfl, rfl, hmem⟩ := hfollows
  have hwait := @tryAgain_waitReady D io fuel (s.push s.ecx)
  have hdrive : (s.push s.ecx).drive = s.drive := rfl
  rw [hdrive] at hwait
  cases hcase : waitReady io fuel s.drive with
  | none =>
    simp only [hcase] at hwait
    simp [readSector, hwait]
  | some d₁ =>
    simp only [hcase] at hwait ⊢
    obtain ⟨eax, edx, htry⟩ := hwait
    have hpushed : SameButSlot (s.esp - 4) (write32 s.mem (s.esp - 4) s.ecx) mem := fun x hx => by
      rw [write32, if_neg hx, hmem x hx]
    let s₁ := { s with eax := eax, ecx := 256, edx := edx, esp := s.esp - 4, drive := d₁,
                       mem := write32 s.mem (s.esp - 4) s.ecx }.setDx 0x1F0#16
    have hturn : readSector io fuel s =
        some { (repInsw io 256 s₁).popEcx with ecx := (repInsw io 256 s₁).popEcx.ecx - 1 } := by
      rw [readSector, htry]
      rfl
    obtain ⟨mem', hrep, hsame, hkept⟩ := @repInsw_copyWords D io s₁ 256 (s.esp - 4) mem (setDx_dx _ _) hpushed
      (by norm_num) hapart
    have hpop : read32 mem' (s.esp - 4) = s.ecx := by
      rw [read32_eq_of_same hkept]
      exact read32_write32 _ _ _
    have hedi : s₁.edi = s.edi := rfl
    have hdrive₁ : s₁.drive = d₁ := rfl
    rw [hedi, hdrive₁] at hrep hsame
    generalize copyWords io 256 s.edi mem d₁ = r at hrep hsame ⊢
    rw [hrep] at hturn
    refine ⟨_, hturn, ?_, ?_, rfl, rfl, hsame⟩
    · change read32 mem' (s.esp - 4) - 1 = s.ecx - 1
      rw [hpop]
    · exact BitVec.sub_add_cancel s.esp 4

/-- The loop over the sectors, with so many left. -/
lemma nextSector_readLoop (hfollows : Follows (s.esp - 4) s ptr mem d) (hecx : s.ecx.toNat = n + 1)
    (hapart : SlotApart (s.esp - 4) ptr (512 * (n + 1))) (hn : 512 * (n + 1) < 2 ^ 32) (hturns : n < turns) :
    match readLoop io fuel (n + 1) ptr mem d with
    | none => nextSector io fuel turns s = none
    | some r => ∃ s', nextSector io fuel turns s = some s' ∧ s'.esp = s.esp ∧ s'.drive = r.2 ∧
        SameButSlot (s.esp - 4) s'.mem r.1 := by
  induction n generalizing s ptr mem d turns with
  | zero =>
    obtain ⟨turns, rfl⟩ := Nat.exists_eq_add_one_of_ne_zero (show turns ≠ 0 by omega)
    have hturn := @readSector_turn D io s fuel ptr mem d hfollows hapart
    cases hwait : waitReady io fuel d with
    | none =>
      simp only [hwait] at hturn
      simp [readLoop, nextSector, hwait, hturn]
    | some d₁ =>
      simp only [hwait] at hturn
      obtain ⟨s', hsector, hecx', hesp, -, hdrive, hmem⟩ := hturn
      have hdone : s'.ecx = 0 := by
        apply BitVec.eq_of_toNat_eq
        rw [hecx', BitVec.toNat_sub]
        simp [hecx]
      simp only [readLoop, nextSector, hwait, hsector, Option.bind_some, hdone, if_true]
      exact ⟨s', rfl, hesp, hdrive, hmem⟩
  | succ n ih =>
    obtain ⟨turns, rfl⟩ := Nat.exists_eq_add_one_of_ne_zero (show turns ≠ 0 by omega)
    have hsum : 512 + 512 * (n + 1) = 512 * (n + 1 + 1) := by ring
    have hsplit := fun x => (inRange_split ptr x (hsum ▸ hn)).1
    have hless : 512 * (n + 1) < 2 ^ 32 := lt_of_le_of_lt (hsum ▸ Nat.le_add_left _ _) hn
    rw [hsum] at hsplit
    have hturn := @readSector_turn D io s fuel ptr mem d hfollows
      fun x hx hin => hapart x hx ((hsplit x).2 (.inl hin))
    cases hwait : waitReady io fuel d with
    | none =>
      simp only [hwait] at hturn
      simp [readLoop, nextSector, hwait, hturn]
    | some d₁ =>
      simp only [hwait] at hturn
      obtain ⟨s', hsector, hecx', hesp, hfollows'⟩ := hturn
      have hleft : s'.ecx.toNat = n + 1 := by
        rw [hecx', BitVec.toNat_sub]
        simp
        omega
      have hmore : s'.ecx ≠ 0 := fun hzero => by simp [hzero] at hleft
      have hnext : SlotApart (s.esp - 4) (copyWords io 256 ptr mem d₁).1 (512 * (n + 1)) := by
        rw [copyWords_ptr]
        exact fun x hx hin => hapart x hx ((hsplit x).2 (.inr hin))
      rw [← hesp] at hfollows' hnext ⊢
      have hrest := @ih s' turns _ _ _ hfollows' hleft hnext hless (by omega)
      rw [readLoop, hwait, Option.bind_some, nextSector, hsector, Option.bind_some, if_neg hmore]
      exact hrest

/-- The accesses before the loop are those of the driver. -/
lemma ataLbaRead_eq (s : Boot D) : ∃ s₁, ataLbaRead io fuel s = nextSector io fuel fuel s₁ ∧
    s₁.ecx = s.ecx ∧ s₁.edi = s.edi ∧ s₁.esp = s.esp ∧ s₁.mem = s.mem ∧
    s₁.drive = sendCommand io s.drive s.eax (s.ecx.setWidth 8) := by
  refine ⟨_, rfl, rfl, rfl, rfl, rfl, ?_⟩
  simp only [Boot.out, Boot.setDx, Boot.setAl, Boot.dx, Boot.al, low_word, low_byte]
  rfl

/-- The routine has read what the driver has, or both wait for ever. -/
inductive Agrees (s : Boot D) : Option (ℤ × Mem × D) → Option (Boot D) → Prop
  | waits : Agrees s none none
  | reads (r : ℤ × Mem × D) (s' : Boot D) (hesp : s'.esp = s.esp) (hdrive : s'.drive = r.2.2)
      (hmem : SameButSlot (s.esp - 4) s'.mem r.2.1) : Agrees s (some r) (some s')

/-- The boot loader's routine reads what the kernel's driver would read, waits as long, leaves the drive
the same, and memory too, but for the word of the stack that it counts in. -/
theorem ataLbaRead_follows (hecx : s.ecx ≠ 0) (hsize : 512 * s.ecx.toNat < 2 ^ 32) (hfuel : s.ecx.toNat ≤ fuel)
    (hapart : SlotApart (s.esp - 4) s.edi (512 * s.ecx.toNat)) :
    Agrees s (diskReadSector io fuel s.eax s.ecx.toNat s.edi s.mem s.drive) (ataLbaRead io fuel s) := by
  obtain ⟨s₁, hread, hecx₁, hedi, hesp, hmem, hdrive⟩ := @ataLbaRead_eq D io fuel s
  obtain ⟨n, hn⟩ := Nat.exists_eq_add_one_of_ne_zero
    (show s.ecx.toNat ≠ 0 from fun h => hecx (BitVec.eq_of_toNat_eq h))
  have hcount : BitVec.ofInt 8 (s.ecx.toNat : ℤ) = s.ecx.setWidth 8 := by
    rw [BitVec.ofInt_natCast]
    rfl
  have hloop := @nextSector_readLoop D io s₁ fuel fuel n s₁.edi s₁.mem s₁.drive
    ⟨rfl, rfl, fun x _ => rfl⟩ (by rw [hecx₁, hn]) (by rw [hesp, hedi, ← hn]; exact hapart) (by omega) (by omega)
  rw [diskReadSector_eq, hcount, Int.toNat_natCast, hn, hread]
  rw [hedi, hmem, hdrive, hesp] at hloop
  cases hcase : readLoop io fuel (n + 1) s.edi s.mem (sendCommand io s.drive s.eax (s.ecx.setWidth 8)) with
  | none =>
    simp only [hcase] at hloop
    rw [hloop]
    exact .waits
  | some r =>
    simp only [hcase] at hloop
    obtain ⟨s', hnext, hesp', hdrive', hmem'⟩ := hloop
    rw [hnext]
    exact .reads (0, r) s' hesp' hdrive' hmem'

lemma inRange_apart {a b x : Word} {i j : ℕ} (hab : a.toNat + i ≤ b.toNat) (hb : b.toNat + j ≤ 2 ^ 32)
    (hx : InRange a i x) : ¬ InRange b j x := by
  have hlt := x.isLt
  have hlta := a.isLt
  unfold InRange at hx ⊢
  rw [BitVec.toNat_sub] at hx ⊢
  omega

/-- A resting boot loader. -/
def restingBoot : Boot Drive := ⟨1, 0, 2, 0, 0x100000, 0x7C00, fun _ => 0, restingDrive⟩

theorem ataLbaRead_follows_two : Agrees restingBoot
    (diskReadSector (ports numberedMedium) 3 restingBoot.eax restingBoot.ecx.toNat restingBoot.edi restingBoot.mem
      restingBoot.drive) (ataLbaRead (ports numberedMedium) 3 restingBoot) :=
  @ataLbaRead_follows Drive (ports numberedMedium) restingBoot 3 (by decide) (by decide) (by decide)
    fun _ hx => inRange_apart (by decide) (by decide) hx

variable {m : Medium} {s : Boot Drive}

/-- The routine of an idle drive, for a sector and a count that the registers can say. -/
lemma ataLbaRead_loads {lba count : Word} (hidle : s.drive.phase = .idle) (addr : Word) (heax : s.eax = lba)
    (hecx : s.ecx = count) (hedi : s.edi = ptr) (hesp : s.esp - 4 = slot) (hsay : Sayable lba count.toNat)
    (hreadable : AllReadable m lba count.toNat)
    (hapart : SlotApart slot ptr (512 * count.toNat)) :
    ∃ least, ∀ fuel ≥ least, ∃ s', ataLbaRead (ports m) fuel s = some s' ∧ s'.drive.phase = .idle ∧ s'.esp = s.esp ∧
      SameButSlot slot s'.mem
        ((diskOf m addr).transfer (512 * (lba.setWidth 28).toNat) (512 * count.toNat) s.mem ptr) := by
  subst heax hecx hedi hesp
  obtain ⟨least, d', hidle', hread⟩ := diskReadSector_sayable (m := m) addr s.edi s.mem hidle hsay hreadable
  obtain ⟨-, hlow, hhigh⟩ := hsay
  refine ⟨max least 256, fun fuel hfuel => ?_⟩
  have hagrees := @ataLbaRead_follows Drive (ports m) s fuel (fun hzero => by simp [hzero] at hlow)
    (by omega) (by omega) hapart
  rw [hread fuel (by omega)] at hagrees
  cases hcase : ataLbaRead (ports m) fuel s with
  | none =>
    rw [hcase] at hagrees
    cases hagrees
  | some s' =>
    rw [hcase] at hagrees
    cases hagrees with
    | reads r s' hesp hdrive hmem => exact ⟨s', rfl, by rw [hdrive]; exact hidle', hesp, hmem⟩

/-- From an idle drive that has the sectors 1 to 100 the boot loader gets the kernel: they are in memory from
0x100000 on, nothing else has changed but two words of the stack, and the processor goes on there. -/
theorem load32_loads (hidle : s.drive.phase = .idle)
    (hreadable : ∀ sector, 1 ≤ sector → sector ≤ 100 → m.Readable sector) (addr back : Word) (hesp : 8 ≤ s.esp.toNat)
    (hstack : s.esp.toNat ≤ 0x100000) : ∃ least, ∀ fuel ≥ least, ∃ s',
      load32 (ports m) fuel back s = some (kernelAddress, s') ∧ s'.drive.phase = .idle ∧ s'.esp = s.esp ∧
      ∀ x, ¬ InRange (s.esp - 8) 8 x → s'.mem x = (diskOf m addr).transfer 512 51200 s.mem kernelAddress x := by
  have hslot : (s.esp - 4 - 4).toNat = s.esp.toNat - 8 ∧ (s.esp - 4).toNat = s.esp.toNat - 4 ∧
      (s.esp - 8).toNat = s.esp.toNat - 8 := by
    have hlt := s.esp.isLt
    refine ⟨?_, ?_, ?_⟩ <;> simp only [BitVec.toNat_sub] <;> simp <;> omega
  have hkernel : kernelAddress.toNat = 0x100000 := rfl
  have hapart : SlotApart (s.esp - 4 - 4) kernelAddress (512 * (100#32).toNat) := fun x hx =>
    inRange_apart (by omega) (by simp [hkernel]) hx
  have hall : AllReadable m 1#32 (100#32).toNat := fun j hj => by
    have hlt : j < 100 := hj
    exact hreadable (1 + j) (by omega) (by omega)
  obtain ⟨least, hload⟩ := @ataLbaRead_loads kernelAddress (s.esp - 4 - 4) m
    ({ s with eax := 1, ecx := 100, edi := kernelAddress }.push back) 1#32 100#32 hidle addr rfl rfl rfl rfl
    ⟨by decide, by decide, by decide⟩ hall hapart
  refine ⟨least, fun fuel hfuel => ?_⟩
  obtain ⟨s', hread, hidle', hesp', hmem⟩ := hload fuel hfuel
  have height : s.esp - 4 - 4 = s.esp - 8 := by rw [BitVec.sub_sub]; rfl
  rw [height] at hmem
  change SameButSlot (s.esp - 8) s'.mem
    ((diskOf m addr).transfer 512 51200 (write32 s.mem (s.esp - 4) back) kernelAddress) at hmem
  have hback : read32 s'.mem s'.esp = back := by
    have hsame : ∀ x, InRange (s.esp - 4) 4 x → s'.mem x = write32 s.mem (s.esp - 4) back x := fun x hx => by
      rw [hmem x fun hslot' => inRange_apart (by omega) (by omega) hslot' hx, Disk.transfer,
        if_neg (inRange_apart (by omega) (by rw [hkernel]; norm_num) hx)]
    rw [hesp']
    exact (read32_eq_of_same hsame).trans (read32_write32 _ _ _)
  refine ⟨{ s' with esp := s'.esp + 4 }, ?_, hidle', ?_, fun x hx => ?_⟩
  · simp only [load32, hread, Option.map_some, hback, if_true]
  · change s'.esp + 4 = s.esp
    rw [hesp']
    exact BitVec.sub_add_cancel s.esp 4
  · have hlow : ¬ InRange (s.esp - 8) 4 x := fun hin => hx (by unfold InRange at hin ⊢; omega)
    have hhigh : ¬ InRange (s.esp - 4) 4 x := by
      have hlt := x.isLt
      unfold InRange at hx ⊢
      rw [BitVec.toNat_sub] at hx ⊢
      omega
    rw [hmem x hlow]
    simp only [Disk.transfer, write32, if_neg hhigh]

/-- The stack of `step2`. -/
theorem load32_loads_boot : ∃ least, ∀ fuel ≥ least, ∃ s',
    load32 (ports numberedMedium) fuel 0x7C50 restingBoot = some (kernelAddress, s') ∧ s'.drive.phase = .idle ∧
      s'.esp = restingBoot.esp ∧ ∀ x, ¬ InRange (restingBoot.esp - 8) 8 x →
        s'.mem x = (diskOf numberedMedium 0).transfer 512 51200 restingBoot.mem kernelAddress x :=
  load32_loads (m := numberedMedium) (s := restingBoot) rfl
    (fun sector _ hle => ⟨show sector < 65536 by omega, decide_eq_false (by omega)⟩) 0 0x7C50 (by decide) (by decide)

end AlphaOS.BootLoader
