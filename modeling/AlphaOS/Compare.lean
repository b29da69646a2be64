import AlphaOS.CString

/-! What `istrncmp` and `memcmp` compare, and which places of their arguments they read to do so. -/
namespace AlphaOS.CString

/-! Comparing names. -/

/-- `istrncmpLoop` with the places that it reads in both strings. -/
def istrncmpSteps (str1 str2 : ℤ → Byte) : ℕ → ℤ → ℤ × List ℤ
  | 0, _ => (0, [])
  | n + 1, i =>
    if str1 i ≠ str2 i ∧ tolower (str1 i) ≠ tolower (str2 i) then
      ((str1 i).toNat - (str2 i).toNat, [i])
    else if str1 i = 0 then (0, [i])
    else ((istrncmpSteps str1 str2 n (i + 1)).1, i :: (istrncmpSteps str1 str2 n (i + 1)).2)

def istrncmpReads (str1 str2 : ℤ → Byte) (n : ℕ) : List ℤ := (istrncmpSteps str1 str2 n 0).2

/-- The characters from a place on, up to their terminator. -/
def IsString (str : ℤ → Byte) : ℤ → List Byte → Prop
  | i, [] => str i = 0
  | i, c :: cs => str i = c ∧ c ≠ 0 ∧ IsString str (i + 1) cs

/-- A pointer to a string. What stands before the string and behind its terminator is not known. -/
structure CStr where
  str : ℤ → Byte
  text : List Byte
  isString : IsString str 0 text

/-- `'A'` to `'Z'` are 65 to 90, and 32 is the way to the small letters. -/
def asciiLower (c : Byte) : Byte := if 65 ≤ c.toNat ∧ c.toNat ≤ 90 then c + 32 else c

variable {str1 str2 ptr1 ptr2 : ℤ → Byte} {as bs : List Byte} {c d : Byte} {n : ℕ} {i : ℤ}

lemma istrncmpSteps_fst (n : ℕ) (i : ℤ) :
    (istrncmpSteps str1 str2 n i).1 = istrncmpLoop str1 str2 n i := by
  induction n generalizing i with
  | zero => rfl
  | succ n ih =>
    rw [istrncmpSteps, istrncmpLoop]
    split_ifs
    · rfl
    · rfl
    · exact ih (i + 1)

/-- A byte above 127 is negative as a `char`, and no capital letter. -/
lemma tolower_eq (c : Byte) : tolower c = asciiLower c := by
  have hletter : (65 ≤ c.toInt ∧ c.toInt ≤ 90) ↔ (65 ≤ c.toNat ∧ c.toNat ≤ 90) := by
    rw [BitVec.toInt_eq_toNat_cond]
    have hlt := c.isLt
    split_ifs <;> omega
  rw [tolower, asciiLower]
  exact if_congr hletter rfl rfl

lemma asciiLower_eq_zero : asciiLower c = 0 ↔ c = 0 := by
  rw [asciiLower]
  split_ifs with hletter
  · refine iff_of_false (fun h0 => ?_) fun h0 => ?_
    · have htoNat := congrArg BitVec.toNat h0
      rw [BitVec.toNat_add] at htoNat
      change (c.toNat + 32) % 256 = 0 at htoNat
      omega
    · rw [h0] at hletter
      exact absurd hletter.1 (by decide)
  · exact Iff.rfl

lemma differs_iff : (c ≠ d ∧ tolower c ≠ tolower d) ↔ asciiLower c ≠ asciiLower d := by
  rw [tolower_eq, tolower_eq]
  exact and_iff_right_of_imp fun hne heq => hne (congrArg asciiLower heq)

/-- `istrncmp` is 0 exactly on the same characters but for their case. -/
lemma istrncmpLoop_eq_zero (ha : IsString str1 i as) (hb : IsString str2 i bs) :
    istrncmpLoop str1 str2 n i = 0 ↔ (as.take n).map asciiLower = (bs.take n).map asciiLower := by
  have hzero : asciiLower 0 = 0 := asciiLower_eq_zero.2 rfl
  induction n generalizing i as bs with
  | zero => simp [istrncmpLoop]
  | succ n ih =>
    rw [istrncmpLoop]
    by_cases hsame : asciiLower (str1 i) = asciiLower (str2 i)
    · rw [if_neg fun hdiffer => differs_iff.1 hdiffer hsame]
      cases as with
      | nil =>
        have h1 : str1 i = 0 := ha
        rw [h1, hzero, eq_comm, asciiLower_eq_zero] at hsame
        cases bs with
        | nil => simp [h1]
        | cons d bs => exact absurd (hb.1.symm.trans hsame) hb.2.1
      | cons c as =>
        obtain ⟨rfl, hc, has⟩ := ha
        rw [if_neg hc]
        cases bs with
        | nil =>
          have h2 : str2 i = 0 := hb
          rw [h2, hzero, asciiLower_eq_zero] at hsame
          exact absurd hsame hc
        | cons d bs =>
          obtain ⟨rfl, -, hbs⟩ := hb
          refine (ih has hbs).trans ?_
          simp [hsame]
    · rw [if_pos (differs_iff.2 hsame)]
      have hne : str1 i ≠ str2 i := fun heq => hsame (congrArg asciiLower heq)
      refine iff_of_false (fun h0 => hne (BitVec.eq_of_toNat_eq (by omega))) fun heq => ?_
      cases as with
      | nil =>
        have h1 : str1 i = 0 := ha
        cases bs with
        | nil => exact hne (h1.trans (Eq.symm hb))
        | cons d bs => simp at heq
      | cons c as =>
        cases bs with
        | nil => simp at heq
        | cons d bs =>
          obtain ⟨rfl, -, -⟩ := ha
          obtain ⟨rfl, -, -⟩ := hb
          exact hsame (List.cons.inj heq).1

/-- Nothing is read behind a terminator or a difference. -/
lemma istrncmpSteps_reads (n : ℕ) (i : ℤ) : ∀ j ∈ (istrncmpSteps str1 str2 n i).2,
    i ≤ j ∧ j < i + n ∧ ∀ k, i ≤ k → k < j →
      str1 k ≠ 0 ∧ str2 k ≠ 0 ∧ asciiLower (str1 k) = asciiLower (str2 k) := by
  induction n generalizing i with
  | zero => simp [istrncmpSteps]
  | succ n ih =>
    intro j hj
    have hfirst : j = i → i ≤ j ∧ j < i + (n + 1 : ℕ) ∧ ∀ k, i ≤ k → k < j →
        str1 k ≠ 0 ∧ str2 k ≠ 0 ∧ asciiLower (str1 k) = asciiLower (str2 k) := by
      rintro rfl
      exact ⟨le_rfl, by omega, fun k h1 h2 => absurd h2 (not_lt.2 h1)⟩
    rw [istrncmpSteps] at hj
    split_ifs at hj with hdiffer hzero
    · exact hfirst (List.mem_singleton.1 hj)
    · exact hfirst (List.mem_singleton.1 hj)
    · rcases List.mem_cons.1 hj with hj | hj
      · exact hfirst hj
      · obtain ⟨hlow, hhigh, hbefore⟩ := ih (i + 1) j hj
        have hsame : asciiLower (str1 i) = asciiLower (str2 i) := by
          by_contra hne
          exact hdiffer (differs_iff.2 hne)
        refine ⟨by omega, by push_cast at hhigh ⊢; omega, fun k h1 h2 => ?_⟩
        rcases h1.eq_or_lt with rfl | h1
        · refine ⟨hzero, fun h0 => hzero ?_, hsame⟩
          rwa [h0, asciiLower_eq_zero.2 rfl, asciiLower_eq_zero] at hsame
        · exact hbefore k (by omega) h2

/-- `istrncmp` is 0 exactly on strings whose first `n` characters, as far as they go, are the same in
small letters; it reads up to the first terminator or difference. So it is an equivalence that
does not look at the case of letters. -/
theorem istrncmp_caseless (n : ℕ) :
    (∀ a b : CStr, istrncmp a.str b.str n = 0 ↔
      (a.text.take n).map asciiLower = (b.text.take n).map asciiLower) ∧
    (∀ str1 str2 : ℤ → Byte, ∀ j ∈ istrncmpReads str1 str2 n, 0 ≤ j ∧ j < n ∧ ∀ k, 0 ≤ k → k < j →
      str1 k ≠ 0 ∧ str2 k ≠ 0 ∧ asciiLower (str1 k) = asciiLower (str2 k)) ∧
    Equivalence (fun a b : CStr => istrncmp a.str b.str n = 0) ∧
    ∀ a a' b b' : CStr, a.text.map asciiLower = a'.text.map asciiLower →
      b.text.map asciiLower = b'.text.map asciiLower →
      (istrncmp a.str b.str n = 0 ↔ istrncmp a'.str b'.str n = 0) := by
  have hzero : ∀ a b : CStr, istrncmp a.str b.str n = 0 ↔
      (a.text.take n).map asciiLower = (b.text.take n).map asciiLower :=
    fun a b => istrncmpLoop_eq_zero a.isString b.isString
  refine ⟨hzero, fun str1 str2 j hj => ?_, ⟨?_, ?_, ?_⟩, fun a a' b b' ha hb => ?_⟩
  · obtain ⟨hlow, hhigh, hbefore⟩ := istrncmpSteps_reads n 0 j hj
    exact ⟨hlow, by omega, hbefore⟩
  · exact fun a => (hzero a a).2 rfl
  · exact fun h => (hzero _ _).2 ((hzero _ _).1 h).symm
  · exact fun h h' => (hzero _ _).2 (((hzero _ _).1 h).trans ((hzero _ _).1 h'))
  · rw [hzero, hzero, List.map_take, List.map_take, List.map_take, List.map_take, ha, hb]

/-! Comparing buffers. The programs' library has the same `memcmp`. -/

/-- `memcmpLoop` with the places that it reads in both buffers. -/
def memcmpSteps (ptr1 ptr2 : ℤ → Byte) : ℕ → ℤ → ℤ × List ℤ
  | 0, _ => (0, [])
  | size + 1, i =>
    if ptr1 i ≠ ptr2 i then
      (if (ptr1 (i - 1)).toInt < (ptr2 (i - 1)).toInt then -1 else 1, [i, i - 1])
    else ((memcmpSteps ptr1 ptr2 size (i + 1)).1, i :: (memcmpSteps ptr1 ptr2 size (i + 1)).2)

def memcmpReads (ptr1 ptr2 : ℤ → Byte) (size : ℕ) : List ℤ := (memcmpSteps ptr1 ptr2 size 0).2

def SameBytes (ptr1 ptr2 : ℤ → Byte) (size : ℕ) : Prop := ∀ j < size, ptr1 (j : ℕ) = ptr2 (j : ℕ)

/-- The first of `size` bytes that differ is number `j`. -/
structure FirstDifference (ptr1 ptr2 : ℤ → Byte) (size j : ℕ) : Prop where
  lt : j < size
  before : SameBytes ptr1 ptr2 j
  differ : ptr1 j ≠ ptr2 j

/-- `memcmp` orders two buffers as `less` orders the first bytes that differ, and reads no others. -/
structure Compares (less : Byte → Byte → Prop) (ptr1 ptr2 : ℤ → Byte) (size : ℕ) : Prop where
  zero : memcmp ptr1 ptr2 size = 0 ↔ SameBytes ptr1 ptr2 size
  neg : ∀ j, FirstDifference ptr1 ptr2 size j → less (ptr1 j) (ptr2 j) → memcmp ptr1 ptr2 size < 0
  pos : ∀ j, FirstDifference ptr1 ptr2 size j → less (ptr2 j) (ptr1 j) → 0 < memcmp ptr1 ptr2 size
  reads : ∀ i ∈ memcmpReads ptr1 ptr2 size, 0 ≤ i ∧ i < size

variable {less : Byte → Byte → Prop} {size j : ℕ}

lemma memcmpSteps_fst (size : ℕ) (i : ℤ) :
    (memcmpSteps ptr1 ptr2 size i).1 = memcmpLoop ptr1 ptr2 size i := by
  induction size generalizing i with
  | zero => rfl
  | succ size ih =>
    rw [memcmpSteps, memcmpLoop]
    split_ifs
    · rfl
    · rfl
    · exact ih (i + 1)

/-- Without a difference all bytes are read, and only they. -/
lemma memcmpSteps_same (size : ℕ) (i : ℤ) (h : ∀ j < size, ptr1 (i + (j : ℕ)) = ptr2 (i + (j : ℕ))) :
    (memcmpSteps ptr1 ptr2 size i).1 = 0 ∧ ∀ j ∈ (memcmpSteps ptr1 ptr2 size i).2, i ≤ j ∧ j < i + size := by
  induction size generalizing i with
  | zero => simp [memcmpSteps]
  | succ size ih =>
    have hfirst : ptr1 i = ptr2 i := by simpa using h 0 (by omega)
    obtain ⟨hzero, hreads⟩ := ih (i + 1) fun j hj => by
      have hnext := h (j + 1) (by omega)
      rwa [show i + ((j + 1 : ℕ) : ℤ) = i + 1 + j by push_cast; ring] at hnext
    rw [memcmpSteps, if_neg (not_not.2 hfirst)]
    refine ⟨hzero, fun j hj => ?_⟩
    rcases List.mem_cons.1 hj with rfl | hj
    · exact ⟨le_rfl, by omega⟩
    · obtain ⟨hlow, hhigh⟩ := hreads j hj
      exact ⟨by omega, by push_cast at hhigh ⊢; omega⟩

/-- At a difference the bytes before it decide, and they are read too. -/
lemma memcmpSteps_differ (d size : ℕ) (i : ℤ) (hd : d < size)
    (hbefore : ∀ j < d, ptr1 (i + (j : ℕ)) = ptr2 (i + (j : ℕ))) (hdiffer : ptr1 (i + d) ≠ ptr2 (i + d)) :
    (memcmpSteps ptr1 ptr2 size i).1 =
      (if (ptr1 (i + d - 1)).toInt < (ptr2 (i + d - 1)).toInt then -1 else 1) ∧
    i + d - 1 ∈ (memcmpSteps ptr1 ptr2 size i).2 ∧
    ∀ j ∈ (memcmpSteps ptr1 ptr2 size i).2, i ≤ j ∧ j ≤ i + d ∨ j = i + d - 1 := by
  induction d generalizing i size with
  | zero =>
    cases size with
    | zero => exact absurd hd (Nat.not_lt_zero 0)
    | succ size =>
      have hplace : i + ((0 : ℕ) : ℤ) = i := add_zero i
      rw [hplace] at hdiffer ⊢
      rw [memcmpSteps, if_pos hdiffer]
      refine ⟨rfl, by simp, fun j hj => ?_⟩
      simp only [List.mem_cons, List.not_mem_nil, or_false] at hj
      omega
  | succ d ih =>
    cases size with
    | zero => exact absurd hd (Nat.not_lt_zero _)
    | succ size =>
      have hplace : i + ((d + 1 : ℕ) : ℤ) = i + 1 + d := by push_cast; ring
      have hfirst : ptr1 i = ptr2 i := by simpa using hbefore 0 (by omega)
      rw [hplace] at hdiffer ⊢
      obtain ⟨hresult, hlast, hreads⟩ := ih size (i + 1) (by omega) (fun j hj => by
        have hnext := hbefore (j + 1) (by omega)
        rwa [show i + ((j + 1 : ℕ) : ℤ) = i + 1 + j by push_cast; ring] at hnext) hdiffer
      rw [memcmpSteps, if_neg (not_not.2 hfirst)]
      refine ⟨hresult, List.mem_cons_of_mem i hlast, fun j hj => ?_⟩
      rcases List.mem_cons.1 hj with rfl | hj
      · omega
      · have hj := hreads j hj
        omega

lemma exists_firstDifference (h : ¬ SameBytes ptr1 ptr2 size) : ∃ j, FirstDifference ptr1 ptr2 size j := by
  have hex : ∃ j : ℕ, j < size ∧ ptr1 j ≠ ptr2 j := by
    by_contra hnone
    push Not at hnone
    exact h hnone
  obtain ⟨hlt, hdiffer⟩ := Nat.find_spec hex
  refine ⟨Nat.find hex, hlt, fun k hk => ?_, hdiffer⟩
  by_contra hne
  exact Nat.find_min hex hk ⟨hk.trans hlt, hne⟩

lemma FirstDifference.not_same (h : FirstDifference ptr1 ptr2 size j) : ¬ SameBytes ptr1 ptr2 size :=
  fun hsame => h.differ (hsame j h.lt)

lemma FirstDifference.unique {k : ℕ} (h : FirstDifference ptr1 ptr2 size j)
    (h' : FirstDifference ptr1 ptr2 size k) : j = k := by
  rcases lt_trichotomy j k with hlt | heq | hlt
  · exact absurd (h'.before j hlt) h.differ
  · exact heq
  · exact absurd (h.before k hlt) h'.differ

lemma FirstDifference.steps (h : FirstDifference ptr1 ptr2 size j) :
    memcmp ptr1 ptr2 size =
      (if (ptr1 ((j : ℤ) - 1)).toInt < (ptr2 ((j : ℤ) - 1)).toInt then -1 else 1) ∧
    (j : ℤ) - 1 ∈ memcmpReads ptr1 ptr2 size ∧
    ∀ i ∈ memcmpReads ptr1 ptr2 size, 0 ≤ i ∧ i ≤ j ∨ i = (j : ℤ) - 1 := by
  have hsteps := @memcmpSteps_differ ptr1 ptr2 j size 0 h.lt
    (fun k hk => by simpa only [Int.zero_add] using h.before k hk)
    (by simpa only [Int.zero_add] using h.differ)
  rw [memcmpSteps_fst, Int.zero_add] at hsteps
  exact hsteps

/-- At a difference behind the first byte the bytes compared are the same, and the result is 1. -/
lemma FirstDifference.memcmp_eq (h : FirstDifference ptr1 ptr2 size j) (hj : 1 ≤ j) :
    memcmp ptr1 ptr2 size = 1 ∧ ∀ i ∈ memcmpReads ptr1 ptr2 size, 0 ≤ i ∧ i < size := by
  obtain ⟨hresult, -, hreads⟩ := h.steps
  have hprevious := h.before (j - 1) (by omega)
  rw [show (j : ℤ) - 1 = (j - 1 : ℕ) by omega, hprevious, if_neg (lt_irrefl _)] at hresult
  refine ⟨hresult, fun i hi => ?_⟩
  have hlt := h.lt
  have hi := hreads i hi
  omega

/-- The order of `memcmp` is the one of the first bytes that differ, with no byte outside of the
buffers read, exactly for equal buffers, and for those that differ behind their first byte with
the larger byte in the first buffer. -/
theorem memcmp_compares_iff (less : Byte → Byte → Prop) [IsStrictTotalOrder Byte less]
    (ptr1 ptr2 : ℤ → Byte) (size : ℕ) :
    Compares less ptr1 ptr2 size ↔ SameBytes ptr1 ptr2 size ∨
      ∃ j, 1 ≤ j ∧ FirstDifference ptr1 ptr2 size j ∧ less (ptr2 j) (ptr1 j) := by
  constructor
  · intro h
    by_cases hsame : SameBytes ptr1 ptr2 size
    · exact .inl hsame
    · obtain ⟨j, hfirst⟩ := exists_firstDifference hsame
      have hj : 1 ≤ j := by
        have hbefore := h.reads _ hfirst.steps.2.1
        omega
      have hone := (hfirst.memcmp_eq hj).1
      refine .inr ⟨j, hj, hfirst, ?_⟩
      rcases trichotomous_of less (ptr1 j) (ptr2 j) with hless | heq | hmore
      · have hneg := h.neg j hfirst hless
        omega
      · exact absurd heq hfirst.differ
      · exact hmore
  · rintro (hsame | ⟨j, hj, hfirst, hmore⟩)
    · obtain ⟨hzero, hreads⟩ := memcmpSteps_same size 0 fun k hk => by
        simpa only [Int.zero_add] using hsame k hk
      rw [memcmpSteps_fst] at hzero
      refine ⟨iff_of_true hzero hsame, fun j hfirst => ?_, fun j hfirst => ?_, fun i hi => ?_⟩
      · exact absurd hsame hfirst.not_same
      · exact absurd hsame hfirst.not_same
      · have hi := hreads i hi
        omega
    · obtain ⟨hone, hreads⟩ := hfirst.memcmp_eq hj
      refine ⟨iff_of_false (by omega) hfirst.not_same, fun k hk hless => ?_, fun _ _ _ => by omega, hreads⟩
      obtain rfl := hfirst.unique hk
      exact absurd hless (asymm hmore)

/-- The order of the unsigned bytes. -/
instance : IsStrictTotalOrder Byte (fun a b => a.toNat < b.toNat) :=
  have hembed : (fun a b : Byte => a.toNat < b.toNat) ↪r ((· < ·) : ℕ → ℕ → Prop) :=
    ⟨⟨BitVec.toNat, fun _ _ h => BitVec.eq_of_toNat_eq h⟩, Iff.rfl⟩
  hembed.isStrictTotalOrder

theorem memcmp_compares_iff_unsigned :
    Compares (fun a b : Byte => a.toNat < b.toNat) (literal [5, 9]) (literal [5, 7]) 2 :=
  (memcmp_compares_iff (fun a b : Byte => a.toNat < b.toNat) (literal [5, 9]) (literal [5, 7]) 2).2
    (.inr ⟨1, le_rfl, ⟨by decide, by unfold SameBytes; decide, by decide⟩, by decide⟩)

/-- Each of two buffers is larger than the other, so no order of the bytes fits. A difference in the
first byte reads the bytes before the buffers. -/
theorem memcmp_bothLarger :
    memcmp (literal [0, 1]) (literal [0, 2]) 2 = 1 ∧ memcmp (literal [0, 2]) (literal [0, 1]) 2 = 1 ∧
    -1 ∈ memcmpReads (literal [1]) (literal [2]) 1 ∧
    ¬ ∃ less, IsStrictTotalOrder Byte less ∧ ∀ ptr1 ptr2 size, Compares less ptr1 ptr2 size := by
  have hdiffer : FirstDifference (literal [0, 1]) (literal [0, 2]) 2 1 :=
    ⟨by decide, by unfold SameBytes; decide, by decide⟩
  have hdiffer' : FirstDifference (literal [0, 2]) (literal [0, 1]) 2 1 :=
    ⟨by decide, by unfold SameBytes; decide, by decide⟩
  refine ⟨rfl, rfl, by decide, fun ⟨less, _, hall⟩ => ?_⟩
  have hneg := (hall _ _ _).neg 1 hdiffer
  have hneg' := (hall _ _ _).neg 1 hdiffer'
  rcases trichotomous_of less 1 2 with hless | heq | hless
  · exact absurd (hneg hless) (by decide)
  · exact absurd heq (by decide)
  · exact absurd (hneg' hless) (by decide)

end AlphaOS.CString
