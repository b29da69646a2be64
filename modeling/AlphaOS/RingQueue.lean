import Mathlib

/-! A ring of `n` slots between two counters that run freely modulo `2 ^ w`, with blank
slots outside the queued items, read as a queue that also gives back its newest item. -/
namespace AlphaOS.RingQueue

variable {α : Type*} [Zero α] {n w : ℕ} [NeZero n]

/-- The slot a counter points to. -/
def slot (n : ℕ) [NeZero n] (i : BitVec w) : Fin n := Fin.ofNat n i.toNat

/-- The items from `head` up to `tail`, oldest first. -/
structure Holds (slots : Fin n → α) (head tail : BitVec w) (q : List α) : Prop where
  le : q.length ≤ n
  tail_eq : tail = head + BitVec.ofNat w q.length
  get : ∀ i < n, slots (slot n (head + BitVec.ofNat w i)) = q.getD i 0
  ne_zero : ∀ c ∈ q, c ≠ 0

variable {slots : Fin n → α} {head tail : BitVec w} {q : List α} {c : α}

lemma slot_add (hn : n ∣ 2 ^ w) (head : BitVec w) (i : ℕ) :
    (slot n (head + BitVec.ofNat w i)).val = (head.toNat + i) % n := by
  rw [slot, Fin.val_ofNat, BitVec.toNat_add, BitVec.toNat_ofNat, Nat.add_mod_mod,
    Nat.mod_mod_of_dvd _ hn]

/-- Fewer than `n` steps apart, counters point to different slots. -/
lemma slot_ne (hn : n ∣ 2 ^ w) (head : BitVec w) {i j : ℕ} (hi : i < n) (hj : j < n) (hij : i ≠ j) :
    slot n (head + BitVec.ofNat w i) ≠ slot n (head + BitVec.ofNat w j) := by
  intro heq
  have hmod := congrArg Fin.val heq
  rw [slot_add hn, slot_add hn] at hmod
  have hcancel : i ≡ j [MOD n] := Nat.ModEq.add_left_cancel' head.toNat hmod
  exact hij (hcancel.eq_of_lt_of_lt hi hj)

lemma add_succ (head : BitVec w) (i : ℕ) :
    head + 1 + BitVec.ofNat w i = head + BitVec.ofNat w (i + 1) := by
  have hone : BitVec.ofNat w (i + 1) = 1 + BitVec.ofNat w i := by
    rw [Nat.add_comm, BitVec.ofNat_add]
    rfl
  rw [hone, BitVec.add_assoc]

/-- A ring of blank slots is empty, wherever its counters stand. -/
lemma Holds.nil (h : ∀ i, slots i = 0) (head : BitVec w) : Holds slots head head [] where
  le := Nat.zero_le n
  tail_eq := by simp
  get i _ := h _
  ne_zero := by simp

/-- The slot at `head` holds the oldest item, or nothing. -/
lemma Holds.front (h : Holds slots head tail q) : slots (slot n head) = q.headD 0 := by
  have hget := h.get 0 (Nat.pos_of_ne_zero (NeZero.ne n))
  rw [BitVec.add_zero] at hget
  rw [hget]
  cases q <;> rfl

/-- An item is put at the back while there is room. -/
lemma Holds.put (hn : n ∣ 2 ^ w) (h : Holds slots head tail q) (hc : c ≠ 0) (hroom : q.length < n) :
    Holds (Function.update slots (slot n tail) c) head (tail + 1) (q ++ [c]) := by
  refine ⟨by simpa using hroom, ?_, fun i hi => ?_, fun x hx => ?_⟩
  · rw [h.tail_eq, BitVec.add_assoc, List.length_append, List.length_singleton, BitVec.ofNat_add]
    rfl
  · rw [h.tail_eq]
    by_cases hlast : i = q.length
    · rw [hlast, Function.update_self]
      simp
    · rw [Function.update_of_ne (slot_ne hn head hi hroom hlast), h.get i hi]
      rcases Nat.lt_or_gt_of_ne hlast with hlt | hgt
      · rw [List.getD_append _ _ _ _ hlt]
      · rw [List.getD_eq_default _ _ (by omega), List.getD_eq_default _ _ (by simp; omega)]
  · rcases List.mem_append.1 hx with hx | hx
    · exact h.ne_zero x hx
    · rw [List.mem_singleton.1 hx]
      exact hc

/-- Blanking the slot at `head` removes the oldest item. -/
lemma Holds.take (hn : n ∣ 2 ^ w) (h : Holds slots head tail (c :: q)) :
    Holds (Function.update slots (slot n head) 0) (head + 1) tail q := by
  have hle : q.length + 1 ≤ n := h.le
  have hhead : head = head + BitVec.ofNat w 0 := by simp
  refine ⟨by omega, ?_, fun i hi => ?_, fun x hx => h.ne_zero x (by simp [hx])⟩
  · rw [h.tail_eq, add_succ]
    rfl
  · rw [add_succ]
    by_cases hlast : i + 1 = n
    · have hsame : slot n (head + BitVec.ofNat w (i + 1)) = slot n head := by
        apply Fin.val_injective
        rw [slot_add hn, hlast, Nat.add_mod_right]
        rfl
      rw [hsame, Function.update_self, List.getD_eq_default _ _ (by omega)]
    · have hne : slot n (head + BitVec.ofNat w (i + 1)) ≠ slot n head := by
        conv_rhs => rw [hhead]
        exact slot_ne hn head (by omega) (by omega) (by omega)
      rw [Function.update_of_ne hne, h.get (i + 1) (by omega)]
      rfl

/-- Blanking the slot before `tail` removes the newest item. -/
lemma Holds.unput (hn : n ∣ 2 ^ w) (h : Holds slots head tail (q ++ [c])) :
    Holds (Function.update slots (slot n (tail - 1)) 0) head (tail - 1) q := by
  have hle : q.length + 1 ≤ n := by simpa using h.le
  have htail : tail - 1 = head + BitVec.ofNat w q.length := by
    have hone : BitVec.ofNat w (q.length + 1) = BitVec.ofNat w q.length + 1 := by
      rw [BitVec.ofNat_add]
      rfl
    rw [h.tail_eq, List.length_append, List.length_singleton, hone, ← BitVec.add_assoc,
      BitVec.add_sub_cancel]
  refine ⟨by omega, htail, fun i hi => ?_, fun x hx => h.ne_zero x (by simp [hx])⟩
  rw [htail]
  by_cases hlast : i = q.length
  · rw [hlast, Function.update_self, List.getD_eq_default _ _ le_rfl]
  · rw [Function.update_of_ne (slot_ne hn head hi (by omega) hlast), h.get i hi]
    rcases Nat.lt_or_gt_of_ne hlast with hlt | hgt
    · rw [List.getD_append _ _ _ _ hlt]
    · rw [List.getD_eq_default _ _ (by simp; omega), List.getD_eq_default _ _ (by omega)]

end AlphaOS.RingQueue
