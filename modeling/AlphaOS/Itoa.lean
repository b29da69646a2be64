import AlphaOS.CString
import AlphaOS.Decimal

/-! `itoa` of the programs' library, with its buffer of 12 characters. A store outside the buffer and
a result outside `int` give nothing. -/
namespace AlphaOS.Stdlib
open CString Decimal WordMemory

def int32 (x : ℤ) : Option ℤ := if -2 ^ 31 ≤ x ∧ x < 2 ^ 31 then some x else none

/-- `text[loc] = c`. -/
def textStore (text : Word) (mem : Mem) (loc : ℕ) (c : ℤ) : Option Mem :=
  if loc < 12 then some (Function.update mem (text + BitVec.ofNat 32 loc) (BitVec.ofInt 8 c)) else none

/-- `text[--loc] = c`, with the new place. -/
def textPush (text : Word) (mem : Mem) : ℕ → ℤ → Option (ℕ × Mem)
  | 0, _ => none
  | loc + 1, c => (textStore text mem loc c).map fun mem => (loc, mem)

/-- `while (value)`: the digits are stored from the last one on. Every pass takes one place. -/
def itoaLoop (text : Word) : ℕ → ℤ → Mem → Option (ℕ × Mem)
  | 0, value, mem => if value = 0 then some (0, mem) else none
  | loc + 1, value, mem =>
    if value = 0 then some (loc + 1, mem) else
    (int32 (48 - value.tmod 10)).bind fun digit =>
    (textStore text mem loc digit).bind fun mem =>
    (int32 (value.tdiv 10)).bind fun value => itoaLoop text loc value mem

/-- The pointer returned goes into the buffer at `text`. -/
def itoa (text : Word) (mem : Mem) (value : ℤ) : Option (Word × Mem) :=
  (textStore text mem 11 0).bind fun mem =>
  let neg := ¬ value ≥ 0
  (if value ≥ 0 then int32 (-value) else some value).bind fun value =>
  (itoaLoop text 11 value mem).bind fun (loc, mem) =>
  (if loc = 11 then textPush text mem loc 48 else some (loc, mem)).bind fun (loc, mem) =>
  (if neg then textPush text mem loc 45 else some (loc, mem)).map fun (loc, mem) =>
  (text + BitVec.ofNat 32 loc, mem)

variable {text : Word} {mem : Mem} {loc n : ℕ} {x : ℤ}

lemma int32_of_bounds (h : -2 ^ 31 ≤ x) (h' : x < 2 ^ 31) : int32 x = some x := if_pos ⟨h, h'⟩

lemma itoaLoop_digits (hloc : loc ≤ 12) (hn : n < 10 ^ loc) (hint : n ≤ 2 ^ 31) :
    ∃ mem', itoaLoop text loc (-n) mem = some (loc - (digits n).length, mem') ∧
      BytesAt mem' (text + BitVec.ofNat 32 (loc - (digits n).length)) (digits n) ∧
      ∀ x, (∀ i < loc, x ≠ text + BitVec.ofNat 32 i) → mem' x = mem x := by
  induction loc generalizing n mem with
  | zero =>
    obtain rfl : n = 0 := by simpa using hn
    exact ⟨mem, by simp [itoaLoop], by simp [BytesAt], fun _ _ => rfl⟩
  | succ loc ih =>
    by_cases hzero : n = 0
    · subst hzero
      exact ⟨mem, by simp [itoaLoop], by simp [BytesAt], fun _ _ => rfl⟩
    have hmod : (-(n : ℤ)).tmod 10 = -((n % 10 : ℕ) : ℤ) := by
      rw [Int.neg_tmod]
      rfl
    have hdiv : (-(n : ℤ)).tdiv 10 = -((n / 10 : ℕ) : ℤ) := by
      rw [Int.neg_tdiv]
      rfl
    have hdigit : int32 (48 - (-(n : ℤ)).tmod 10) = some ((48 + n % 10 : ℕ) : ℤ) := by
      rw [hmod, int32_of_bounds (by omega) (by omega)]
      congr 1
      omega
    have hvalue : int32 ((-(n : ℤ)).tdiv 10) = some (-((n / 10 : ℕ) : ℤ)) := by
      rw [hdiv]
      exact int32_of_bounds (by omega) (by omega)
    have hpow : n / 10 < 10 ^ loc := by
      rw [Nat.div_lt_iff_lt_mul (by decide), ← pow_succ]
      exact hn
    obtain ⟨mem', hrest, hbytes, hsame⟩ := @ih
      (Function.update mem (text + BitVec.ofNat 32 loc) (BitVec.ofNat 8 (48 + n % 10))) (n / 10)
      (by omega) hpow (by omega)
    have hlength : (digits n).length = (digits (n / 10)).length + 1 := by
      rw [digits_eq hzero, List.length_append]
      rfl
    have hle : (digits (n / 10)).length ≤ loc := length_digits_le hpow
    have hplace : loc + 1 - (digits n).length = loc - (digits (n / 10)).length := by omega
    have hapart : ∀ i < loc, text + BitVec.ofNat 32 loc ≠ text + BitVec.ofNat 32 i :=
      fun i hi => add_ofNat_ne (by omega) (by omega) (by omega) text
    refine ⟨mem', ?_, ?_, fun x hx => ?_⟩
    · have hne : -(n : ℤ) ≠ 0 := by omega
      rw [itoaLoop, if_neg hne, hdigit, Option.bind_some, textStore, if_pos (by omega),
        Option.bind_some, hvalue, Option.bind_some, hplace]
      exact hrest
    · rw [hplace, digits_eq hzero, bytesAt_append]
      refine ⟨hbytes, ?_, trivial⟩
      have hend : text + BitVec.ofNat 32 (loc - (digits (n / 10)).length) +
          BitVec.ofNat 32 (digits (n / 10)).length = text + BitVec.ofNat 32 loc := by
        rw [add_assoc, ← BitVec.ofNat_add, Nat.sub_add_cancel hle]
      rw [hend, hsame _ hapart, Function.update_self]
    · rw [hsame x fun i hi => hx i (by omega)]
      exact Function.update_of_ne (hx loc (by omega)) _ _

lemma itoaLoop_unsigned (h11 : mem (text + BitVec.ofNat 32 11) = 0) (hint : n ≤ 2 ^ 31) :
    ∃ loc mem₁ mem', itoaLoop text 11 (-n) mem = some (loc, mem₁) ∧
      (if loc = 11 then textPush text mem₁ loc 48 else some (loc, mem₁)) =
        some (11 - (unsignedNumeral n).length, mem') ∧
      BytesAt mem' (text + BitVec.ofNat 32 (11 - (unsignedNumeral n).length))
        (unsignedNumeral n ++ [0]) ∧
      ∀ x, (∀ i < 12, x ≠ text + BitVec.ofNat 32 i) → mem' x = mem x := by
  obtain ⟨mem', hloop, hbytes, hsame⟩ := @itoaLoop_digits text mem 11 n (by omega)
    (hint.trans_lt (by decide)) hint
  have hlast : mem' (text + BitVec.ofNat 32 11) = 0 := by
    rw [hsame _ fun i hi => add_ofNat_ne (by omega) (by omega) (by omega) text, h11]
  have hkept : ∀ x, (∀ i < 12, x ≠ text + BitVec.ofNat 32 i) → mem' x = mem x :=
    fun x hx => hsame x fun i hi => hx i (by omega)
  by_cases hzero : n = 0
  · subst hzero
    refine ⟨11, mem', Function.update mem' (text + BitVec.ofNat 32 10) 48, hloop, rfl,
      ⟨Function.update_self _ _ _, ?_, trivial⟩, fun x hx => ?_⟩
    · have hne : text + BitVec.ofNat 32 11 ≠ text + BitVec.ofNat 32 10 :=
        add_ofNat_ne (by omega) (by omega) (by omega) text
      have hnext : text + BitVec.ofNat 32 (11 - 1) + 1 = text + BitVec.ofNat 32 11 := by
        rw [add_assoc]
        rfl
      change Function.update mem' (text + BitVec.ofNat 32 10) 48 (text + BitVec.ofNat 32 (11 - 1) + 1) = 0
      rw [hnext, Function.update_of_ne hne, hlast]
    · rw [Function.update_of_ne (hx 10 (by omega)), hkept x hx]
  · have hpos := List.length_pos_of_ne_nil (digits_ne_nil hzero)
    have hle : (digits n).length ≤ 11 := length_digits_le (hint.trans_lt (by decide))
    rw [unsignedNumeral, if_neg hzero]
    refine ⟨_, mem', mem', hloop, if_neg (by omega), bytesAt_append.2 ⟨hbytes, ?_, trivial⟩, hkept⟩
    rw [add_assoc, ← BitVec.ofNat_add, Nat.sub_add_cancel hle, hlast]

lemma itoa_spec (text : Word) (mem : Mem) (hlow : -2 ^ 31 ≤ x) (hhigh : x < 2 ^ 31) :
    ∃ mem', itoa text mem x = some (text + BitVec.ofNat 32 (11 - (numeral x).length), mem') ∧
      (numeral x).length ≤ 11 ∧
      BytesAt mem' (text + BitVec.ofNat 32 (11 - (numeral x).length)) (numeral x ++ [0]) ∧
      ∀ a, ¬ InRange text 12 a → mem' a = mem a := by
  obtain ⟨loc, mem₁, mem', hloop, hdigits, hbytes, hsame⟩ := @itoaLoop_unsigned text
    (Function.update mem (text + BitVec.ofNat 32 11) 0) x.natAbs (Function.update_self _ _ _) (by omega)
  have hle : (unsignedNumeral x.natAbs).length ≤ 10 := by
    apply length_unsignedNumeral_le _ (by decide)
    exact (show x.natAbs ≤ 2 ^ 31 by omega).trans_lt (by decide)
  have hkept : ∀ a, ¬ InRange text 12 a → mem' a = mem a := fun a ha =>
    (hsame a fun i hi => ne_of_not_inRange ha (by omega) hi).trans
      (Function.update_of_ne (ne_of_not_inRange ha (by omega) (by omega)) _ _)
  have hvalue : (if x ≥ 0 then int32 (-x) else some x) = some (-(x.natAbs : ℤ)) := by
    split_ifs with hx
    · rw [int32_of_bounds (by omega) (by omega)]
      congr 1
      omega
    · congr 1
      omega
  have hitoa : itoa text mem x =
      (if ¬ x ≥ 0 then textPush text mem' (11 - (unsignedNumeral x.natAbs).length) 45
        else some (11 - (unsignedNumeral x.natAbs).length, mem')).map fun (loc, mem) =>
      (text + BitVec.ofNat 32 loc, mem) := by
    rw [itoa, textStore, if_pos (by decide), Option.bind_some]
    dsimp only
    rw [hvalue, Option.bind_some]
    change ((itoaLoop text 11 _ (Function.update mem (text + BitVec.ofNat 32 11) 0)).bind _) = _
    rw [hloop, Option.bind_some]
    dsimp only
    rw [hdigits, Option.bind_some]
  by_cases hx : x ≥ 0
  · have hnumeral : numeral x = unsignedNumeral x.natAbs := if_neg (by omega)
    rw [hitoa, if_neg (not_not.2 hx), hnumeral]
    exact ⟨mem', rfl, by omega, hbytes, hkept⟩
  · have hnumeral : numeral x = 45 :: unsignedNumeral x.natAbs := if_pos (by omega)
    obtain ⟨place, hplace⟩ : ∃ place, 11 - (unsignedNumeral x.natAbs).length = place + 1 :=
      ⟨10 - (unsignedNumeral x.natAbs).length, by omega⟩
    have hsign : 11 - (numeral x).length = place := by
      rw [hnumeral, List.length_cons]
      omega
    rw [hplace] at hitoa hbytes
    rw [hsign, hitoa, if_pos hx, textPush, textStore, if_pos (by omega), hnumeral, List.length_cons]
    refine ⟨Function.update mem' (text + BitVec.ofNat 32 place) 45, rfl, by omega,
      ⟨Function.update_self _ _ _, ?_⟩, fun a ha => ?_⟩
    · have hnext : text + BitVec.ofNat 32 place + 1 = text + BitVec.ofNat 32 (place + 1) := by
        rw [BitVec.ofNat_add, ← add_assoc]
        rfl
      rw [hnext]
      refine hbytes.congr fun n hn => Function.update_of_ne ?_ _ _
      rw [List.length_append, List.length_singleton] at hn
      rw [add_assoc, ← BitVec.ofNat_add]
      exact add_ofNat_ne (by omega) (by omega) (by omega) text
    · rw [Function.update_of_ne (ne_of_not_inRange ha (by omega) (by omega)), hkept a ha]

/-- For every `int` the code ends without a store outside the buffer and without an overflow; the
string it returns is the canonical numeral, which reads as the value and belongs to no other. -/
theorem itoa_canonical (text : Word) (mem : Mem) (value : Word) :
    ∃ loc s mem', itoa text mem value.toInt = some (text + BitVec.ofNat 32 loc, mem') ∧
      loc + s.length = 11 ∧ BytesAt mem' (text + BitVec.ofNat 32 loc) (s ++ [0]) ∧
      (∀ a, ¬ InRange text 12 a → mem' a = mem a) ∧ IsNumeral value.toInt s ∧ readNumeral s = value.toInt ∧
      ∀ text₂ mem₂ p mem₂' (other : Word), itoa text₂ mem₂ other.toInt = some (p, mem₂') →
        BytesAt mem₂' p (s ++ [0]) → other = value := by
  have hbounds : ∀ v : Word, -2 ^ 31 ≤ v.toInt ∧ v.toInt < 2 ^ 31 := fun v =>
    ⟨BitVec.le_toInt v, BitVec.toInt_lt⟩
  obtain ⟨mem', hitoa, hle, hbytes, hsame⟩ := itoa_spec text mem (hbounds value).1 (hbounds value).2
  refine ⟨_, numeral value.toInt, mem', hitoa, by omega, hbytes, hsame, isNumeral_numeral _,
    readNumeral_numeral _, fun text₂ mem₂ p mem₂' other hother hstring => ?_⟩
  obtain ⟨mem₃, hitoa₂, -, hbytes₂, -⟩ := itoa_spec text₂ mem₂ (hbounds other).1 (hbounds other).2
  rw [hother, Option.some.injEq, Prod.mk.injEq] at hitoa₂
  rw [← hitoa₂.1, ← hitoa₂.2] at hbytes₂
  have heq := bytesAt_unique hstring hbytes₂ (zero_notMem_numeral _) (zero_notMem_numeral _)
  have hread := congrArg readNumeral heq
  rw [readNumeral_numeral, readNumeral_numeral] at hread
  exact BitVec.eq_of_toInt_eq hread.symm

end AlphaOS.Stdlib
