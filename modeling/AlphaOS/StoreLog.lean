import AlphaOS.CString

/-! A record of stores: the memory with the addresses of all bytes that were written to it. -/
namespace AlphaOS.StoreLog
open CString WordMemory

/-- Stores into a memory, the last address first; a byte that was not written is as before. -/
structure Stores where
  before : Mem
  mem : Mem
  written : List Word
  kept : ∀ x ∉ written, mem x = before x

/-- No store yet. -/
def Stores.start (mem : Mem) : Stores := ⟨mem, mem, [], fun _ _ => rfl⟩

def Stores.store (s : Stores) (a : Word) (b : Byte) : Stores where
  before := s.before
  mem := Function.update s.mem a b
  written := a :: s.written
  kept := by
    intro x hx
    rw [List.mem_cons, not_or] at hx
    rw [Function.update_of_ne hx.1, s.kept x hx.2]

/-- Stores bytes one after the other. -/
def Stores.storeBytes (s : Stores) : Word → List Byte → Stores
  | _, [] => s
  | a, b :: bs => (s.store a b).storeBytes (a + 1) bs

variable {s : Stores} {a x : Word} {bs : List Byte}

@[simp] lemma store_mem (s : Stores) (a : Word) (b : Byte) :
    (s.store a b).mem = Function.update s.mem a b := rfl
@[simp] lemma store_written (s : Stores) (a : Word) (b : Byte) :
    (s.store a b).written = a :: s.written := rfl
@[simp] lemma start_mem (mem : Mem) : (Stores.start mem).mem = mem := rfl
@[simp] lemma start_written (mem : Mem) : (Stores.start mem).written = [] := rfl

@[simp] lemma storeBytes_mem (s : Stores) (a : Word) (bs : List Byte) :
    (s.storeBytes a bs).mem = writeBytes s.mem a bs := by
  induction bs generalizing s a with
  | nil => rfl
  | cons b bs ih => exact ih _ _

lemma mem_storeBytes : x ∈ (s.storeBytes a bs).written ↔
    x ∈ s.written ∨ ∃ j < bs.length, x = a + BitVec.ofNat 32 j := by
  induction bs generalizing s a with
  | nil => simp [Stores.storeBytes]
  | cons b bs ih =>
    rw [Stores.storeBytes, ih, store_written, List.mem_cons]
    constructor
    · rintro ((rfl | hx) | ⟨j, hj, rfl⟩)
      · exact .inr ⟨0, Nat.succ_pos _, (BitVec.add_zero x).symm⟩
      · exact .inl hx
      · exact .inr ⟨j + 1, Nat.succ_lt_succ hj, add_one_add a j⟩
    · rintro (hx | ⟨j, hj, rfl⟩)
      · exact .inl (.inr hx)
      · cases j with
        | zero => exact .inl (.inl (BitVec.add_zero a))
        | succ j => exact .inr ⟨j, Nat.lt_of_succ_lt_succ hj, (add_one_add a j).symm⟩

end AlphaOS.StoreLog
