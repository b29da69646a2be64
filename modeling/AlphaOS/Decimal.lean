import Mathlib

/-! Decimal numerals as strings of bytes: the numeral of an integer, what a string reads as, and that
numerals are read back. -/
namespace AlphaOS.Decimal

/-- The decimal digits of a number; 0 has none. -/
def digits (n : ℕ) : List (BitVec 8) :=
  (Nat.digits 10 n).reverse.map fun d => BitVec.ofNat 8 (48 + d)

def unsignedNumeral (n : ℕ) : List (BitVec 8) := if n = 0 then [48] else digits n

/-- The numeral of an integer: `'-'` is 45 and `'0'` is 48. -/
def numeral (v : ℤ) : List (BitVec 8) :=
  if v < 0 then 45 :: unsignedNumeral v.natAbs else unsignedNumeral v.natAbs

def readDigits (s : List (BitVec 8)) : ℕ := s.foldl (fun n c => 10 * n + (c.toNat - 48)) 0

/-- The integer a string of digits stands for, with a sign or without. -/
def readNumeral (s : List (BitVec 8)) : ℤ :=
  if s.head? = some 45 then -(readDigits s.tail : ℤ) else readDigits s

/-- Digits without a leading zero, or one zero alone. -/
structure IsUnsigned (s : List (BitVec 8)) : Prop where
  ne_nil : s ≠ []
  digit : ∀ c ∈ s, 48 ≤ c.toNat ∧ c.toNat ≤ 57
  head : s.head? = some 48 → s = [48]

/-- A sign stands before negative numbers only. -/
def IsNumeral (v : ℤ) (s : List (BitVec 8)) : Prop :=
  if v < 0 then s.head? = some 45 ∧ IsUnsigned s.tail else IsUnsigned s

variable {n k : ℕ} {v : ℤ} {c : BitVec 8}

@[simp] lemma digits_zero : digits 0 = [] := by simp [digits]

lemma digits_eq (h : n ≠ 0) : digits n = digits (n / 10) ++ [BitVec.ofNat 8 (48 + n % 10)] := by
  rw [digits, Nat.digits_def' (by decide) (Nat.pos_of_ne_zero h), List.reverse_cons, List.map_append]
  rfl

lemma length_digits_le (h : n < 10 ^ k) : (digits n).length ≤ k := by
  rw [digits, List.length_map, List.length_reverse]
  exact (Nat.digits_length_le_iff (by decide) n).2 h

lemma digit_toNat (n : ℕ) : (BitVec.ofNat 8 (48 + n % 10)).toNat = 48 + n % 10 := by
  rw [BitVec.toNat_ofNat]
  omega

lemma mem_digits (h : c ∈ digits n) : 48 ≤ c.toNat ∧ c.toNat ≤ 57 := by
  induction n using Nat.strong_induction_on with
  | _ n ih =>
    by_cases hn : n = 0
    · simp [hn] at h
    · rw [digits_eq hn, List.mem_append, List.mem_singleton] at h
      rcases h with h | rfl
      · exact ih (n / 10) (by omega) h
      · have hdigit := digit_toNat n
        omega

lemma digits_ne_nil (h : n ≠ 0) : digits n ≠ [] := by
  rw [digits_eq h]
  simp

lemma digits_head (h : n ≠ 0) : (digits n).head? ≠ some 48 := by
  induction n using Nat.strong_induction_on with
  | _ n ih =>
    rw [digits_eq h]
    by_cases hn : n / 10 = 0
    · -- the only digit is the number itself
      rw [hn, digits_zero, List.nil_append, List.head?_cons]
      intro heq
      have hdigit := digit_toNat n
      rw [Option.some.inj heq] at hdigit
      change 48 = _ at hdigit
      omega
    · rw [List.head?_append_of_ne_nil _ (digits_ne_nil hn)]
      exact ih (n / 10) (by omega) hn

lemma readDigits_append (s : List (BitVec 8)) (c : BitVec 8) :
    readDigits (s ++ [c]) = 10 * readDigits s + (c.toNat - 48) := by
  simp [readDigits]

lemma readDigits_digits (n : ℕ) : readDigits (digits n) = n := by
  induction n using Nat.strong_induction_on with
  | _ n ih =>
    by_cases hn : n = 0
    · simp [hn, readDigits]
    · rw [digits_eq hn, readDigits_append, ih (n / 10) (by omega), digit_toNat]
      omega

lemma isUnsigned_unsignedNumeral (n : ℕ) : IsUnsigned (unsignedNumeral n) := by
  rw [unsignedNumeral]
  split_ifs with hn
  · exact ⟨by simp, by simp, fun _ => rfl⟩
  · exact ⟨digits_ne_nil hn, fun _ hc => mem_digits hc, fun h => absurd h (digits_head hn)⟩

lemma readDigits_unsignedNumeral (n : ℕ) : readDigits (unsignedNumeral n) = n := by
  rw [unsignedNumeral]
  split_ifs with hn
  · exact hn.symm
  · exact readDigits_digits n

theorem isNumeral_numeral (v : ℤ) : IsNumeral v (numeral v) := by
  rw [IsNumeral, numeral]
  split_ifs
  · exact ⟨rfl, isUnsigned_unsignedNumeral _⟩
  · exact isUnsigned_unsignedNumeral _

/-- A numeral is read back. -/
theorem readNumeral_numeral (v : ℤ) : readNumeral (numeral v) = v := by
  rw [readNumeral, numeral]
  split_ifs with hneg hhead hhead
  · rw [List.tail_cons, readDigits_unsignedNumeral]
    omega
  · exact absurd rfl hhead
  · -- no digit is a sign
    have hdigit := (isUnsigned_unsignedNumeral v.natAbs).digit 45 (List.mem_of_mem_head? hhead)
    exact absurd hdigit.1 (by decide)
  · rw [readDigits_unsignedNumeral]
    omega

/-- A numeral holds no zero byte. -/
lemma zero_notMem_numeral (v : ℤ) : 0 ∉ numeral v := by
  have hdigits : 0 ∉ unsignedNumeral v.natAbs := by
    intro h0
    exact absurd ((isUnsigned_unsignedNumeral _).digit 0 h0).1 (by decide)
  rw [numeral]
  split_ifs
  · simpa using hdigits
  · exact hdigits

lemma length_unsignedNumeral_le (h : n < 10 ^ k) (hk : k ≠ 0) : (unsignedNumeral n).length ≤ k := by
  rw [unsignedNumeral]
  split_ifs
  · exact Nat.one_le_iff_ne_zero.2 hk
  · exact length_digits_le h

end AlphaOS.Decimal
