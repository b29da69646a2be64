import AlphaOS.BlockHeapSpec
import AlphaOS.WordMemory

/-! The kernel heap of `memory/heap/kheap.c` together with physical memory. The pool
and the table size are the ones `kheap_init` sets up. -/
namespace AlphaOS.Kheap
open BlockHeap WordMemory

structure Kmem where
  mem : Mem
  kernelHeap : Heap
  saddr_eq : kernelHeap.saddr = heapAddress
  total_eq : kernelHeap.table.total = 25600
  /-- The pointers passed to `kfree` so far, the latest first. -/
  kfreed : List Word

def Kmem.withMem (s : Kmem) (mem : Mem) : Kmem := { s with mem := mem }

/-- `kheap_init` over the bytes found at the table's address. -/
def kheapInit (mem : Mem) (entries : ℤ → Byte) : Kmem where
  mem := mem
  kernelHeap := (heapCreate ⟨⟨entries, 25600⟩, 0⟩ heapAddress (heapAddress + 104857600)
    ⟨entries, 25600⟩).2
  saddr_eq := rfl
  total_eq := rfl
  kfreed := []

def kmalloc (s : Kmem) (size : Word) : Word × Kmem :=
  let r := heapMalloc s.kernelHeap size
  (r.1, { s with
    kernelHeap := r.2
    saddr_eq := (heapMalloc_saddr _ _).trans s.saddr_eq
    total_eq := (heapMalloc_total _ _).trans s.total_eq })

def kzalloc (s : Kmem) (size : Word) : Word × Kmem :=
  let r := kmalloc s size
  if r.1 ≠ 0 then (r.1, r.2.withMem (fill r.2.mem r.1 size.toNat 0)) else r

def kfree (s : Kmem) (ptr : Word) : Kmem :=
  { s with
    kernelHeap := heapFree s.kernelHeap ptr
    saddr_eq := s.saddr_eq
    total_eq := s.total_eq
    kfreed := ptr :: s.kfreed }

/-- The entries of the kernel heap's table. -/
abbrev Kmem.entries (s : Kmem) : ℤ → Byte := s.kernelHeap.table.entries

def Kmem.withEntries (s : Kmem) (entries : ℤ → Byte) : Kmem :=
  { s with
    kernelHeap := s.kernelHeap.setEntries entries
    saddr_eq := s.saddr_eq
    total_eq := s.total_eq }

@[simp] lemma Kmem.withMem_mem (s : Kmem) (m : Mem) : (s.withMem m).mem = m := rfl
@[simp] lemma Kmem.withMem_kernelHeap (s : Kmem) (m : Mem) :
    (s.withMem m).kernelHeap = s.kernelHeap := rfl
@[simp] lemma Kmem.withMem_kfreed (s : Kmem) (m : Mem) : (s.withMem m).kfreed = s.kfreed := rfl
@[simp] lemma Kmem.withEntries_entries (s : Kmem) (e : ℤ → Byte) :
    (s.withEntries e).entries = e := rfl
@[simp] lemma Kmem.withEntries_mem (s : Kmem) (e : ℤ → Byte) : (s.withEntries e).mem = s.mem := rfl
@[simp] lemma Kmem.withEntries_kfreed (s : Kmem) (e : ℤ → Byte) :
    (s.withEntries e).kfreed = s.kfreed := rfl

@[simp] lemma kmalloc_mem (s : Kmem) (size : Word) : (kmalloc s size).2.mem = s.mem := rfl
@[simp] lemma kmalloc_kfreed (s : Kmem) (size : Word) :
    (kmalloc s size).2.kfreed = s.kfreed := rfl
@[simp] lemma kfree_mem (s : Kmem) (ptr : Word) : (kfree s ptr).mem = s.mem := rfl
@[simp] lemma kfree_kfreed (s : Kmem) (ptr : Word) :
    (kfree s ptr).kfreed = ptr :: s.kfreed := rfl

@[simp] lemma kzalloc_fst (s : Kmem) (size : Word) : (kzalloc s size).1 = (kmalloc s size).1 := by
  unfold kzalloc
  dsimp only
  split_ifs <;> rfl

@[simp] lemma kzalloc_kfreed (s : Kmem) (size : Word) :
    (kzalloc s size).2.kfreed = s.kfreed := by
  unfold kzalloc
  dsimp only
  split_ifs <;> rfl

@[simp] lemma kzalloc_kernelHeap (s : Kmem) (size : Word) :
    (kzalloc s size).2.kernelHeap = (kmalloc s size).2.kernelHeap := by
  unfold kzalloc
  dsimp only
  split_ifs <;> rfl

lemma Kmem.total_toNat (s : Kmem) : s.kernelHeap.table.total.toNat = 25600 := by
  rw [s.total_eq]
  rfl

/-- The address of a block of the pool. -/
def blockAddr (b : ℕ) : Word := heapAddress + BitVec.ofNat 32 (4096 * b)

lemma blockAddr_toNat {b : ℕ} (hb : b < 2 ^ 19) : (blockAddr b).toNat = 16777216 + 4096 * b := by
  unfold blockAddr
  rw [toNat_add_ofNat] <;> simp
  omega

lemma blockAddr_aligned {b : ℕ} (hb : b < 2 ^ 19) : (blockAddr b).toNat % 4096 = 0 := by
  rw [blockAddr_toNat hb]
  omega

lemma blockAddr_ne_zero {b : ℕ} (hb : b < 2 ^ 19) : blockAddr b ≠ 0 := by
  intro h
  have h0 := blockAddr_toNat hb
  rw [h] at h0
  have hz : (0 : Word).toNat = 0 := rfl
  omega

lemma blockAddr_inj {b c : ℕ} (hb : b < 2 ^ 19) (hc : c < 2 ^ 19) (h : blockAddr b = blockAddr c) :
    b = c := by
  have h1 := blockAddr_toNat hb
  have h2 := blockAddr_toNat hc
  rw [h] at h1
  omega

lemma pageOf_blockAddr {b : ℕ} (hb : b < 2 ^ 19) : pageOf (blockAddr b) = 4096 + b := by
  unfold pageOf
  rw [blockAddr_toNat hb]
  omega

lemma pageOf_blockAddr_add {b : ℕ} (hb : b < 25600) {k : ℕ} (hk : k < 4096) :
    pageOf (blockAddr b + BitVec.ofNat 32 k) = 4096 + b := by
  rw [pageOf_add (blockAddr_aligned (by omega)) hk, pageOf_blockAddr (by omega)]

lemma heapBlockToAddress_eq (s : Kmem) (b : ℕ) :
    heapBlockToAddress s.kernelHeap b = blockAddr b := by
  unfold heapBlockToAddress blockAddr
  rw [s.saddr_eq, Nat.mul_comm]
  congr 1

lemma heapAddressToBlock_eq (s : Kmem) {b : ℕ} (hb : b < 2 ^ 19) :
    heapAddressToBlock s.kernelHeap (blockAddr b) = b := by
  rw [← heapBlockToAddress_eq s b]
  exact heapAddressToBlock_blockToAddress s.kernelHeap hb

/-- The state after an allocation of `n` blocks at block `b`. -/
def Kmem.take (s : Kmem) (n b : ℕ) : Kmem :=
  s.withEntries (overwrite s.entries b n (blockEntry n))

/-- The state after the blocks from `b` on are freed again. -/
def Kmem.give (s : Kmem) (n b : ℕ) : Kmem :=
  { s.withEntries (overwrite s.entries b n (fun _ => entryFree)) with
    kfreed := blockAddr b :: s.kfreed }

/-- Some `n` consecutive blocks of the pool are free. -/
def Kmem.Room (s : Kmem) (n : ℕ) : Prop := ∃ b, FitsAt s.entries 25600 n b

/-- Every pointer of `kmalloc`, for any size, is null or the address of a block. -/
lemma kmalloc_addr (s : Kmem) (size : Word) :
    (kmalloc s size).1 = 0 ∨ ∃ b < 25600, (kmalloc s size).1 = blockAddr b := by
  rcases heapMalloc_addr s.kernelHeap size with h0 | ⟨b, hb, heq⟩
  · exact .inl h0
  · rw [s.total_toNat] at hb
    exact .inr ⟨b, hb, heq.trans (heapBlockToAddress_eq s b)⟩

/-- `kmalloc` of at least one block takes the first fit; without one it fails or
takes a free tail of the pool that is too short. -/
theorem kmalloc_spec (s : Kmem) (size : Word) (hn : 0 < (heapBlocksFor size).toNat) :
    (∃ b, FitsAt s.entries 25600 (heapBlocksFor size).toNat b ∧
      (∀ b' < b, ¬ FitsAt s.entries 25600 (heapBlocksFor size).toNat b') ∧
      kmalloc s size = (blockAddr b, s.take (heapBlocksFor size).toNat b)) ∨
    (¬ s.Room (heapBlocksFor size).toNat ∧ (kmalloc s size = (0, s) ∨
      ∃ b < 25600, (∀ j, b ≤ j → j < 25600 → IsFree s.entries j) ∧
        kmalloc s size = (blockAddr b, s.take (heapBlocksFor size).toNat b))) := by
  have hat : ∀ b : ℕ, heapMalloc s.kernelHeap size =
      mallocAt s.kernelHeap (heapBlocksFor size).toNat b →
      kmalloc s size = (blockAddr b, s.take (heapBlocksFor size).toNat b) := by
    intro b hb
    simp only [kmalloc, hb, mallocAt, heapBlockToAddress_eq]
    rfl
  have h := heapMalloc_spec s.kernelHeap (by rw [s.total_toNat]; decide) size hn
  rw [s.total_toNat] at h
  rcases h with ⟨b, hfit, hleast, heq⟩ | ⟨hno, heq | ⟨b, hb, htail, heq⟩⟩
  · exact .inl ⟨b, hfit, hleast, hat b heq⟩
  · refine .inr ⟨not_exists.2 hno, .inl ?_⟩
    simp only [kmalloc, heq]
  · exact .inr ⟨not_exists.2 hno, .inr ⟨b, hb, htail, hat b heq⟩⟩

/-- The state after `kzalloc` took `n` blocks at block `b` for `size` bytes. -/
def Kmem.takeZeroed (s : Kmem) (size : Word) (n b : ℕ) : Kmem :=
  (s.take n b).withMem (fill s.mem (blockAddr b) size.toNat 0)

/-- `kzalloc` with room for the request takes the first fit and clears it. -/
theorem kzalloc_room (s : Kmem) {size : Word} (hn : 0 < (heapBlocksFor size).toNat)
    (hroom : s.Room (heapBlocksFor size).toNat) :
    ∃ b, FitsAt s.entries 25600 (heapBlocksFor size).toNat b ∧
      (∀ b' < b, ¬ FitsAt s.entries 25600 (heapBlocksFor size).toNat b') ∧
      kzalloc s size = (blockAddr b, s.takeZeroed size (heapBlocksFor size).toNat b) := by
  obtain ⟨b, hfit, hleast, heq⟩ | ⟨hno, -⟩ := kmalloc_spec s size hn
  swap
  · exact absurd hroom hno
  have hb := hfit.1
  refine ⟨b, hfit, hleast, ?_⟩
  simp only [kzalloc, heq]
  rw [if_pos (blockAddr_ne_zero (by omega))]
  rfl

/-- A request that gets null changes nothing. -/
lemma kzalloc_null (s : Kmem) {size : Word} (hn : 0 < (heapBlocksFor size).toNat)
    (hnull : (kmalloc s size).1 = 0) : kzalloc s size = (0, s) := by
  obtain ⟨b, hfit, -, heq⟩ | ⟨-, heq | ⟨b, hb, -, heq⟩⟩ := kmalloc_spec s size hn
  · have hb := hfit.1
    rw [heq] at hnull
    exact absurd hnull (blockAddr_ne_zero (by omega))
  · simp [kzalloc, heq]
  · rw [heq] at hnull
    exact absurd hnull (blockAddr_ne_zero (by omega))

lemma allocated_bound {s : Kmem} {b n : ℕ} (h : Allocated s.kernelHeap b n) :
    0 < n ∧ b + n ≤ 25600 := by
  have h2 := h.2.1
  rw [s.total_toNat] at h2
  exact ⟨h.1, h2⟩

/-- `kfree` of an allocation clears exactly its blocks. -/
theorem kfree_spec (s : Kmem) {b n : ℕ} (h : Allocated s.kernelHeap b n) :
    kfree s (blockAddr b) = s.give n b := by
  have hentries := heapMarkBlockFree_entries s.kernelHeap (by rw [s.total_toNat]; decide) h
  have hheap : heapFree s.kernelHeap (blockAddr b) =
      s.kernelHeap.setEntries (overwrite s.entries b n (fun _ => entryFree)) := by
    have hb := allocated_bound h
    rw [heapFree, heapAddressToBlock_eq s (by omega), ← hentries]
    rfl
  simp only [kfree, Kmem.give, hheap]
  rfl

end AlphaOS.Kheap
