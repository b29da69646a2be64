import AlphaOS.Kernel

/-! The bytes of the data that is kept apart from memory: the heap's table and, of a process structure,
the allocations at 116 and the arguments at 9356. They are what a pointer into that data shows, and a
store there changes the data. The structure has 9364 bytes. -/
namespace AlphaOS
open Kheap WordMemory

local instance neZero_maxProgramAllocations : NeZero maxProgramAllocations := ⟨by decide⟩

/-- `ALPHAOS_HEAP_TABLE_ADDRESS`. -/
abbrev heapTableAddress : Word := 0x00007E00

def wordByte (w : Word) (j : ℕ) : Byte := (w >>> (8 * j)).setWidth 8

/-- Byte `j` of the allocations. -/
def Process.allocationByte (p : Process) (j : ℕ) : Byte :=
  let allocation := p.allocations (Fin.ofNat 1024 (j / 8))
  if j % 8 < 4 then wordByte allocation.ptr (j % 4) else wordByte allocation.size (j % 4)

/-- Byte `j` of the arguments. -/
def Process.argumentByte (p : Process) (j : ℕ) : Byte :=
  if j < 4 then wordByte p.arguments.argc j else wordByte p.arguments.argv (j - 4)

/-- Memory with the table of the heap in it. -/
def Kheap.Kmem.bytes (s : Kmem) : Mem := overlay s.mem heapTableAddress 25600 fun b => s.entries b

/-- Memory with the table, and with the allocations and arguments of a process. -/
def Kernel.view (k : Kernel) (process : Word) : Mem :=
  let p := k.procs process
  let mem := overlay k.kmem.mem (process + 116) 8192 p.allocationByte
  let mem := overlay mem (process + 9356) 8 p.argumentByte
  (k.kmem.withMem mem).bytes

/-- The entries of the heap's table that lie in the bytes of memory. -/
def entriesAt (mem : Mem) (entries : ℤ → Byte) (b : ℤ) : Byte :=
  if 0 ≤ b ∧ b < 25600 then mem (heapTableAddress + BitVec.ofNat 32 b.toNat) else entries b

/-- The structure with the allocations and arguments that lie in the bytes of memory. -/
def Process.readFrom (p : Process) (mem : Mem) (process : Word) : Process :=
  { p with
    allocations := fun i =>
      ⟨read32 mem (process + BitVec.ofNat 32 (116 + 8 * i)),
        read32 mem (process + BitVec.ofNat 32 (116 + 8 * i + 4))⟩
    arguments := ⟨read32 mem (process + BitVec.ofNat 32 9356), read32 mem (process + BitVec.ofNat 32 9360)⟩ }

/-- The kernel once these are all bytes of memory. -/
def Kernel.reread (k : Kernel) (process : Word) (mem : Mem) : Kernel :=
  (k.withKmem ((k.kmem.withEntries (entriesAt mem k.kmem.entries)).withMem mem)).setProcess process
    ((k.procs process).readFrom mem process)

/-- The kernel with these bytes in its memory. -/
def Kernel.shown (k : Kernel) (process : Word) : Kernel := k.reread process (k.view process)

/-- A store through a pointer. -/
def Kernel.store (k : Kernel) (process a v : Word) : Kernel :=
  k.reread process (write32 (k.view process) a v)

/-- The addresses of the table, of the allocations and of the arguments. -/
def InTable (x : Word) : Prop := InRange heapTableAddress 25600 x

def InRecord (process x : Word) : Prop :=
  InRange (process + 116) 8192 x ∨ InRange (process + 9356) 8 x

variable {k : Kernel} {s : Kmem} {mem : Mem} {process x : Word}

lemma wordByte_read32 (mem : Mem) (a : Word) {j : ℕ} (hj : j < 4) :
    wordByte (read32 mem a) j = mem (a + BitVec.ofNat 32 j) := read32_byte mem a hj

/-- A word is its bytes. -/
lemma read32_of_wordByte {a w : Word} (h : ∀ j < 4, mem (a + BitVec.ofNat 32 j) = wordByte w j) :
    read32 mem a = w := by
  have h₀ := h 0 (by omega)
  rw [BitVec.add_zero] at h₀
  have h₁ : mem (a + 1) = wordByte w 1 := h 1 (by omega)
  have h₂ : mem (a + 2) = wordByte w 2 := h 2 (by omega)
  have h₃ : mem (a + 3) = wordByte w 3 := h 3 (by omega)
  rw [read32, h₀, h₁, h₂, h₃]
  exact append_bytes w

/-- The table ends below the pool. -/
lemma inTable_toNat (hx : InTable x) : 0x7E00 ≤ x.toNat ∧ x.toNat < 0xE200 := by
  have hlt := x.isLt
  rw [InTable, InRange, BitVec.toNat_sub] at hx
  change (2 ^ 32 - 32256 + x.toNat) % 2 ^ 32 < 25600 at hx
  omega

lemma Kheap.Kmem.bytes_of_not (hx : ¬ InTable x) : s.bytes x = s.mem x := overlay_of_not hx

lemma Kheap.Kmem.bytes_entry {b : ℕ} (hb : b < 25600) :
    s.bytes (heapTableAddress + BitVec.ofNat 32 b) = s.entries b := overlay_byte hb (by decide)

lemma Kernel.view_of_not (htable : ¬ InTable x) (hrecord : ¬ InRecord process x) :
    k.view process x = k.kmem.mem x := by
  rw [InRecord, not_or] at hrecord
  rw [Kernel.view, Kmem.bytes_of_not htable]
  exact (overlay_of_not hrecord.2).trans (overlay_of_not hrecord.1)

lemma Kernel.view_table {b : ℕ} (hb : b < 25600) :
    k.view process (heapTableAddress + BitVec.ofNat 32 b) = k.kmem.entries b := Kmem.bytes_entry hb

/-- Bytes that the data was read from are its bytes. -/
lemma Process.readFrom_allocationByte (p : Process) (mem : Mem) (process : Word) {j : ℕ} (hj : j < 8192) :
    (p.readFrom mem process).allocationByte j = mem (process + 116 + BitVec.ofNat 32 j) := by
  have hstart : process + 116 + BitVec.ofNat 32 j = process + BitVec.ofNat 32 (116 + j) := by
    rw [BitVec.ofNat_add, ← add_assoc]
    rfl
  have hindex : ((Fin.ofNat 1024 (j / 8) : Fin 1024) : ℕ) = j / 8 := Nat.mod_eq_of_lt (by omega)
  rw [Process.allocationByte, Process.readFrom, hstart]
  dsimp only
  rw [hindex]
  split_ifs with hword
  · rw [wordByte_read32 _ _ (by omega), add_assoc, ← BitVec.ofNat_add]
    congr 3
    omega
  · rw [wordByte_read32 _ _ (by omega), add_assoc, ← BitVec.ofNat_add]
    congr 3
    omega

lemma Process.readFrom_argumentByte (p : Process) (mem : Mem) (process : Word) {j : ℕ} (hj : j < 8) :
    (p.readFrom mem process).argumentByte j = mem (process + 9356 + BitVec.ofNat 32 j) := by
  rw [Process.argumentByte, Process.readFrom]
  dsimp only
  split_ifs with hword
  · exact wordByte_read32 _ _ hword
  · have hsecond : process + BitVec.ofNat 32 9360 = process + 9356 + BitVec.ofNat 32 4 :=
      (add_assoc process 9356 (BitVec.ofNat 32 4)).symm
    rw [wordByte_read32 _ _ (by omega), hsecond, add_assoc (process + 9356), ← BitVec.ofNat_add]
    congr 3
    omega

/-- The bytes of a memory whose data was read again are those of that memory. -/
theorem Kernel.view_reread (k : Kernel) (process : Word) (mem : Mem) :
    (k.reread process mem).view process = mem := by
  have hrecord : (k.reread process mem).procs process = (k.procs process).readFrom mem process := by
    rw [Kernel.reread, Kernel.setProcess_procs, Function.update_self]
  have hallocations : overlay mem (process + 116) 8192
      ((k.reread process mem).procs process).allocationByte = mem := by
    rw [hrecord]
    exact overlay_same (by decide) fun j hj => Process.readFrom_allocationByte _ _ _ hj
  have harguments : overlay mem (process + 9356) 8
      ((k.reread process mem).procs process).argumentByte = mem := by
    rw [hrecord]
    exact overlay_same (by decide) fun j hj => Process.readFrom_argumentByte _ _ _ hj
  have hmem : (k.reread process mem).kmem.mem = mem := rfl
  rw [Kernel.view, hmem, hallocations, harguments]
  refine overlay_same (by decide) fun b hb => ?_
  have hentries : (k.reread process mem).kmem.entries = entriesAt mem k.kmem.entries := rfl
  rw [Kmem.entries, Kmem.withMem_kernelHeap]
  change (k.reread process mem).kmem.entries b = _
  rw [hentries, entriesAt, if_pos ⟨Int.natCast_nonneg b, by exact_mod_cast hb⟩, Int.toNat_natCast]
  rfl

lemma Kernel.store_view (k : Kernel) (process a v : Word) :
    (k.store process a v).view process = write32 (k.view process) a v := Kernel.view_reread _ _ _

/-- The arguments that were read again. -/
lemma Kernel.reread_argc (k : Kernel) (process : Word) (mem : Mem) :
    ((k.reread process mem).procs process).arguments.argc = read32 mem (process + 9356) := by
  rw [Kernel.reread, Kernel.setProcess_procs, Function.update_self]
  rfl

lemma Kernel.reread_argv (k : Kernel) (process : Word) (mem : Mem) :
    ((k.reread process mem).procs process).arguments.argv = read32 mem (process + 9360) := by
  rw [Kernel.reread, Kernel.setProcess_procs, Function.update_self]
  rfl

/-- They lie in the 9364 bytes of the structure. -/
lemma inRecord_subset (h : InRecord process x) : InRange process 9364 x := by
  have hshift : ∀ (j m : ℕ), j + m ≤ 9364 → InRange (process + BitVec.ofNat 32 j) m x →
      InRange process 9364 x := by
    intro j m hle hin
    obtain ⟨i, hi, rfl⟩ := exists_of_inRange hin
    rw [add_assoc, ← BitVec.ofNat_add]
    exact inRange_ofNat (by omega) (by omega)
  rcases h with hin | hin
  · exact hshift 116 8192 (by omega) hin
  · exact hshift 9356 8 le_rfl hin

/-- The structure lies above the table. -/
def AboveTable (process : Word) : Prop :=
  heapTableAddress.toNat + 25600 ≤ process.toNat ∧ process.toNat + 9364 ≤ 2 ^ 32

lemma AboveTable.not_inTable (h : AboveTable process) {j : ℕ} (hj : j < 9364) :
    ¬ InTable (process + BitVec.ofNat 32 j) := by
  intro hin
  have hstart : 32256 + 25600 ≤ process.toNat := h.1
  have hend := h.2
  have htable := (inTable_toNat hin).2
  rw [toNat_add_ofNat (by omega)] at htable
  omega

lemma AboveTable.view_allocation (h : AboveTable process) {j : ℕ} (hj : j < 8192) :
    k.view process (process + BitVec.ofNat 32 (116 + j)) =
      (k.procs process).allocationByte j := by
  have hout : ¬ InRange (process + BitVec.ofNat 32 9356) 8
      (process + BitVec.ofNat 32 (116 + j)) := by
    intro hin
    obtain ⟨i, hi, heq⟩ := exists_of_inRange hin
    rw [add_assoc, ← BitVec.ofNat_add, add_right_inj] at heq
    have hnat := congrArg BitVec.toNat heq
    rw [BitVec.toNat_ofNat, BitVec.toNat_ofNat] at hnat
    omega
  rw [Kernel.view, Kmem.bytes_of_not (h.not_inTable (by omega))]
  refine (overlay_of_not hout).trans ?_
  rw [BitVec.ofNat_add, ← add_assoc]
  exact overlay_byte hj (by decide)

lemma AboveTable.view_argument (h : AboveTable process) {j : ℕ} (hj : j < 8) :
    k.view process (process + BitVec.ofNat 32 (9356 + j)) =
      (k.procs process).argumentByte j := by
  rw [Kernel.view, Kmem.bytes_of_not (h.not_inTable (by omega)), BitVec.ofNat_add, ← add_assoc]
  exact overlay_byte hj (by decide)

/-- Where the bytes of the data are the same, only the bytes of memory change. -/
lemma Kernel.reread_of_same (h : AboveTable process)
    (hsame : ∀ x, InTable x ∨ InRecord process x → mem x = k.view process x) :
    k.reread process mem = k.withKmem (k.kmem.withMem mem) := by
  have hentries : entriesAt mem k.kmem.entries = k.kmem.entries := by
    funext b
    by_cases hb : 0 ≤ b ∧ b < 25600
    · obtain ⟨n, rfl⟩ := Int.eq_ofNat_of_zero_le hb.1
      have hn : n < 25600 := by exact_mod_cast hb.2
      rw [entriesAt, if_pos hb, Int.toNat_natCast, hsame _ (.inl (inRange_ofNat hn (by decide)))]
      exact Kernel.view_table hn
    · exact if_neg hb
  have hword : ∀ (n : ℕ) (w : Word), (∀ j < 4, InRecord process (process + BitVec.ofNat 32 (n + j)) ∧
      k.view process (process + BitVec.ofNat 32 (n + j)) = wordByte w j) →
      read32 mem (process + BitVec.ofNat 32 n) = w := by
    intro n w hbytes
    refine read32_of_wordByte fun j hj => ?_
    rw [add_assoc, ← BitVec.ofNat_add, hsame _ (.inr (hbytes j hj).1)]
    exact (hbytes j hj).2
  have hallocation : ∀ j < 8192,
      InRecord process (process + BitVec.ofNat 32 (116 + j)) := by
    intro j hj
    rw [BitVec.ofNat_add, ← add_assoc]
    exact .inl (inRange_ofNat hj (by decide))
  have hargument : ∀ j < 8, InRecord process (process + BitVec.ofNat 32 (9356 + j)) := by
    intro j hj
    rw [BitVec.ofNat_add, ← add_assoc]
    exact .inr (inRange_ofNat hj (by decide))
  have hrecord : (k.procs process).readFrom mem process = k.procs process := by
    have hallocations : ∀ i : Fin maxProgramAllocations,
        (⟨read32 mem (process + BitVec.ofNat 32 (116 + 8 * i)),
          read32 mem (process + BitVec.ofNat 32 (116 + 8 * i + 4))⟩ : ProcessAllocation) =
        (k.procs process).allocations i := by
      intro i
      have hi : (i : ℕ) < 1024 := i.isLt
      have hindex : ∀ j < 8, Fin.ofNat 1024 ((8 * (i : ℕ) + j) / 8) = i := by
        intro j hj
        apply Fin.ext
        rw [Fin.val_ofNat]
        omega
      rw [hword _ ((k.procs process).allocations i).ptr, hword _ ((k.procs process).allocations i).size]
      · intro j hj
        rw [add_assoc, add_assoc]
        refine ⟨hallocation _ (by omega), ?_⟩
        rw [h.view_allocation (by omega), Process.allocationByte, hindex _ (by omega), if_neg (by omega)]
        congr 1
        omega
      · intro j hj
        rw [add_assoc]
        refine ⟨hallocation _ (by omega), ?_⟩
        rw [h.view_allocation (by omega), Process.allocationByte, hindex _ (by omega), if_pos (by omega)]
        congr 1
        omega
    have hargc : read32 mem (process + BitVec.ofNat 32 9356) =
        (k.procs process).arguments.argc := by
      refine hword _ _ fun j hj => ⟨hargument j (by omega), ?_⟩
      rw [h.view_argument (by omega), Process.argumentByte, if_pos hj]
    have hargv : read32 mem (process + BitVec.ofNat 32 9360) = (k.procs process).arguments.argv := by
      refine hword _ _ fun j hj => ?_
      have hnext : 9360 + j = 9356 + (4 + j) := by omega
      rw [hnext]
      refine ⟨hargument _ (by omega), ?_⟩
      rw [h.view_argument (by omega), Process.argumentByte, if_neg (by omega)]
      congr 1
      omega
    rw [Process.readFrom, funext hallocations, hargc, hargv]
  rw [Kernel.reread, hentries, hrecord, Kernel.setProcess]
  rw [Kernel.withKmem_procs, Function.update_eq_self]
  rfl

lemma Kernel.shown_of_above (h : AboveTable process) :
    k.shown process = k.withKmem (k.kmem.withMem (k.view process)) :=
  Kernel.reread_of_same h fun _ _ => rfl

end AlphaOS
