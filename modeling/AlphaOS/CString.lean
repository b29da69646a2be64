import AlphaOS.Config
import AlphaOS.WordMemory

/-! Bytes and strings in memory: `string/string.c` and `memory/memory.c` as far as paths
and files need them. A loop that waits for a terminator has a bound and gives nothing when the
bound is reached first. -/
namespace AlphaOS.CString
open WordMemory

/-- `while (str[len]) len++`. -/
def strlenLoop (mem : Mem) (str : Word) : ℕ → ℕ → Option ℕ
  | 0, _ => none
  | fuel + 1, len =>
    if mem (str + BitVec.ofNat 32 len) ≠ 0 then strlenLoop mem str fuel (len + 1) else some len

def strlen (fuel : ℕ) (mem : Mem) (str : Word) : Option ℕ := strlenLoop mem str fuel 0

/-- The loop of `strnlen` with `k` characters left to the maximum. -/
def strnlenLoop (mem : Mem) (str : Word) : ℕ → ℕ → ℕ
  | 0, len => len
  | k + 1, len =>
    if mem (str + BitVec.ofNat 32 len) ≠ 0 then strnlenLoop mem str k (len + 1) else len

def strnlen (mem : Mem) (str : Word) (max : ℕ) : ℕ := strnlenLoop mem str max 0

/-- `'0'` is 48 and `'9'` is 57. -/
def isdigit (c : Byte) : Bool := 48 ≤ c.toInt ∧ c.toInt ≤ 57

def tonumericdigit (c : Byte) : ℤ := c.toInt - 48

/-- The loop of `memcmp` at index `i`: on a difference it compares the bytes before. -/
def memcmpLoop (ptr1 ptr2 : ℤ → Byte) : ℕ → ℤ → ℤ
  | 0, _ => 0
  | size + 1, i =>
    if ptr1 i ≠ ptr2 i then if (ptr1 (i - 1)).toInt < (ptr2 (i - 1)).toInt then -1 else 1
    else memcmpLoop ptr1 ptr2 size (i + 1)

def memcmp (ptr1 ptr2 : ℤ → Byte) (size : ℕ) : ℤ := memcmpLoop ptr1 ptr2 size 0

/-- The loop of `strncmp` at index `i`, with `n` characters left. -/
def strncmpLoop (str1 str2 : ℤ → Byte) : ℕ → ℤ → ℤ
  | 0, _ => 0
  | n + 1, i =>
    if str1 i ≠ str2 i then (str1 i).toNat - (str2 i).toNat
    else if str1 i = 0 then 0 else strncmpLoop str1 str2 n (i + 1)

def strncmp (str1 str2 : ℤ → Byte) (n : ℕ) : ℤ := strncmpLoop str1 str2 n 0

/-- `'A'` is 65 and `'Z'` is 90. -/
def tolower (c : Byte) : Byte := if 65 ≤ c.toInt ∧ c.toInt ≤ 90 then c + 32 else c

/-- The loop of `istrncmp` at index `i`, with `n` characters left. -/
def istrncmpLoop (str1 str2 : ℤ → Byte) : ℕ → ℤ → ℤ
  | 0, _ => 0
  | n + 1, i =>
    if str1 i ≠ str2 i ∧ tolower (str1 i) ≠ tolower (str2 i) then (str1 i).toNat - (str2 i).toNat
    else if str1 i = 0 then 0 else istrncmpLoop str1 str2 n (i + 1)

def istrncmp (str1 str2 : ℤ → Byte) (n : ℕ) : ℤ := istrncmpLoop str1 str2 n 0

/-- The bytes around an address. -/
def pointer (mem : Mem) (a : Word) : ℤ → Byte := fun i => mem (a + BitVec.ofInt 32 i)

/-- A string literal; what stands around it is not known. -/
def literal (s : List Byte) : ℤ → Byte := fun i => s.getD i.toNat 0

/-- `memcpy` of `n` bytes, one after the other. -/
def memcpy (mem : Mem) (dest src : Word) : ℕ → Mem
  | 0 => mem
  | n + 1 => memcpy (Function.update mem dest (mem src)) (dest + 1) (src + 1) n

/-- The characters up to the terminator. -/
def stringAt (mem : Mem) : ℕ → Word → Option (List Byte)
  | 0, _ => none
  | fuel + 1, a => if mem a = 0 then some [] else (stringAt mem fuel (a + 1)).map (mem a :: ·)

/-- The bytes from an address on. -/
def BytesAt (mem : Mem) : Word → List Byte → Prop
  | _, [] => True
  | a, b :: bs => mem a = b ∧ BytesAt mem (a + 1) bs

variable {mem mem' : Mem} {a : Word} {bs cs : List Byte} {b : Byte} {n : ℕ} {x : Word}

lemma add_one_add (a : Word) (n : ℕ) : a + 1 + BitVec.ofNat 32 n = a + BitVec.ofNat 32 (n + 1) := by
  have hone : BitVec.ofNat 32 (n + 1) = 1 + BitVec.ofNat 32 n := by
    rw [Nat.add_comm, BitVec.ofNat_add]
    rfl
  rw [hone, BitVec.add_assoc]

lemma BytesAt.get (h : BytesAt mem a bs) (hn : n < bs.length) :
    mem (a + BitVec.ofNat 32 n) = bs[n] := by
  induction bs generalizing a n with
  | nil => simp at hn
  | cons b bs ih =>
    cases n with
    | zero => simpa using h.1
    | succ n =>
      rw [← add_one_add]
      exact ih h.2 (by simpa using hn)

lemma bytesAt_of_get (h : ∀ n (hn : n < bs.length), mem (a + BitVec.ofNat 32 n) = bs[n]) :
    BytesAt mem a bs := by
  induction bs generalizing a with
  | nil => trivial
  | cons b bs ih =>
    have hfirst : mem (a + BitVec.ofNat 32 0) = b := h 0 (by simp)
    refine ⟨by simpa using hfirst, ih fun n hn => ?_⟩
    rw [add_one_add]
    exact h (n + 1) (by simpa using hn)

lemma bytesAt_append : BytesAt mem a (bs ++ cs) ↔
    BytesAt mem a bs ∧ BytesAt mem (a + BitVec.ofNat 32 bs.length) cs := by
  induction bs generalizing a with
  | nil => simp [BytesAt]
  | cons b bs ih =>
    rw [List.cons_append, BytesAt, ih, BytesAt, add_one_add, and_assoc]
    rfl

/-- Bytes that are not written stay. -/
lemma BytesAt.congr (h : BytesAt mem a bs)
    (hsame : ∀ n < bs.length, mem' (a + BitVec.ofNat 32 n) = mem (a + BitVec.ofNat 32 n)) :
    BytesAt mem' a bs :=
  bytesAt_of_get fun n hn => (hsame n hn).trans (h.get hn)

/-- A string without a zero byte ends at its length. -/
lemma strlenLoop_eq (h : BytesAt mem a (bs ++ [0])) (hbs : 0 ∉ bs) {fuel len : ℕ}
    (hlen : len ≤ bs.length) (hfuel : bs.length < len + fuel) :
    strlenLoop mem a fuel len = some bs.length := by
  induction fuel generalizing len with
  | zero => omega
  | succ fuel ih =>
    have hbound : len < (bs ++ [0]).length := by
      rw [List.length_append]
      exact Nat.lt_succ_of_le hlen
    rw [strlenLoop, h.get hbound]
    by_cases hend : len = bs.length
    · subst hend
      simp
    · have hlt : len < bs.length := by omega
      have hne : (bs ++ [0])[len] ≠ 0 := by
        rw [List.getElem_append_left hlt]
        exact fun h0 => hbs (h0 ▸ List.getElem_mem hlt)
      rw [if_pos hne, ih hlt (by omega)]

lemma strlen_eq (h : BytesAt mem a (bs ++ [0])) (hbs : 0 ∉ bs) {fuel : ℕ}
    (hfuel : bs.length < fuel) : strlen fuel mem a = some bs.length :=
  strlenLoop_eq h hbs (Nat.zero_le _) (by omega)

lemma strnlenLoop_eq (h : BytesAt mem a (bs ++ [0])) (hbs : 0 ∉ bs) {k len : ℕ}
    (hlen : len ≤ bs.length) : strnlenLoop mem a k len = min bs.length (len + k) := by
  induction k generalizing len with
  | zero => simp [strnlenLoop, hlen]
  | succ k ih =>
    have hbound : len < (bs ++ [0]).length := by
      rw [List.length_append]
      exact Nat.lt_succ_of_le hlen
    rw [strnlenLoop, h.get hbound]
    by_cases hend : len = bs.length
    · subst hend
      simp
    · have hlt : len < bs.length := by omega
      have hne : (bs ++ [0])[len] ≠ 0 := by
        rw [List.getElem_append_left hlt]
        exact fun h0 => hbs (h0 ▸ List.getElem_mem hlt)
      rw [if_pos hne, ih hlt]
      omega

lemma strnlen_eq (h : BytesAt mem a (bs ++ [0])) (hbs : 0 ∉ bs) (max : ℕ) :
    strnlen mem a max = min bs.length max := by
  rw [strnlen, strnlenLoop_eq h hbs (Nat.zero_le _), Nat.zero_add]

lemma memcmpLoop_eq_zero {ptr1 ptr2 : ℤ → Byte} {size : ℕ} {i : ℤ} :
    memcmpLoop ptr1 ptr2 size i = 0 ↔ ∀ j, i ≤ j → j < i + size → ptr1 j = ptr2 j := by
  induction size generalizing i with
  | zero =>
    simp only [memcmpLoop, true_iff]
    intro j h1 h2
    omega
  | succ size ih =>
    rw [memcmpLoop]
    by_cases hi : ptr1 i = ptr2 i
    · rw [if_neg (not_not.2 hi), ih]
      refine ⟨fun h j h1 h2 => ?_, fun h j h1 h2 => h j (by omega) (by omega)⟩
      rcases eq_or_ne j i with rfl | hne
      · exact hi
      · exact h j (by omega) (by omega)
    · rw [if_pos hi]
      refine iff_of_false ?_ fun h => hi (h i le_rfl (by omega))
      split_ifs <;> decide

/-- `memcmp` is 0 exactly on equal bytes. -/
lemma memcmp_eq_zero {ptr1 ptr2 : ℤ → Byte} {size : ℕ} :
    memcmp ptr1 ptr2 size = 0 ↔ ∀ j : ℤ, 0 ≤ j → j < size → ptr1 j = ptr2 j := by
  rw [memcmp, memcmpLoop_eq_zero, Int.zero_add]

/-- The loop of `strncpy` at index `i`, with at most `k` more characters before the zero. -/
def strncpyLoop (dest src : Word) : ℕ → ℕ → Mem → Mem
  | 0, i, mem => Function.update mem (dest + BitVec.ofNat 32 i) 0
  | k + 1, i, mem =>
    let c := mem (src + BitVec.ofNat 32 i)
    if c = 0 then Function.update mem (dest + BitVec.ofNat 32 i) 0
    else strncpyLoop dest src k (i + 1) (Function.update mem (dest + BitVec.ofNat 32 i) c)

def strncpy (mem : Mem) (dest src : Word) (n : ℕ) : Mem := strncpyLoop dest src (n - 1) 0 mem

/-- Stores bytes one after the other. -/
def writeBytes (mem : Mem) : Word → List Byte → Mem
  | _, [] => mem
  | a, b :: bs => writeBytes (Function.update mem a b) (a + 1) bs

/-- `istrncmp` looks at the second string up to its terminator only. -/
lemma istrncmpLoop_congr {str a b : ℤ → Byte} {n m : ℕ} {i : ℤ} (hzero : a (i + m) = 0)
    (hsame : ∀ j : ℕ, j ≤ m → b (i + j) = a (i + j)) :
    istrncmpLoop str b n i = istrncmpLoop str a n i := by
  induction n generalizing m i with
  | zero => rfl
  | succ n ih =>
    have hfirst : b i = a i := by
      have hstart := hsame 0 (Nat.zero_le m)
      rwa [Nat.cast_zero, add_zero] at hstart
    rw [istrncmpLoop, istrncmpLoop, hfirst]
    cases m with
    | zero =>
      -- at the terminator both loops end
      rw [Nat.cast_zero, add_zero] at hzero
      have hlower : tolower (str i) = tolower 0 → str i = 0 := by
        generalize str i = c
        revert c
        decide +kernel
      rw [hzero]
      by_cases hdiffer : str i ≠ 0 ∧ tolower (str i) ≠ tolower 0
      · rw [if_pos hdiffer, if_pos hdiffer]
      · have hend : str i = 0 := by
          by_contra hne
          exact hdiffer ⟨hne, fun heq => hne (hlower heq)⟩
        rw [if_neg hdiffer, if_neg hdiffer, if_pos hend, if_pos hend]
    | succ m =>
      have hshift : ∀ j : ℕ, i + 1 + (j : ℤ) = i + ((j + 1 : ℕ) : ℤ) := by
        intro j
        push_cast
        ring
      rw [@ih m (i + 1) (by rwa [hshift]) fun j hj => by
        rw [hshift]
        exact hsame (j + 1) (by omega)]

lemma writeBytes_of_not (h : ∀ n < bs.length, a + BitVec.ofNat 32 n ≠ x) :
    writeBytes mem a bs x = mem x := by
  induction bs generalizing mem a with
  | nil => rfl
  | cons b bs ih =>
    have hne : x ≠ a := by
      have hfirst := h 0 (by simp)
      rw [BitVec.add_zero] at hfirst
      exact hfirst.symm
    rw [writeBytes, ih, Function.update_of_ne hne]
    intro n hn
    rw [add_one_add]
    exact h (n + 1) (by simpa using hn)

lemma add_ofNat_ne {m n : ℕ} (hm : m < 2 ^ 32) (hn : n < 2 ^ 32) (h : m ≠ n) (a : Word) :
    a + BitVec.ofNat 32 m ≠ a + BitVec.ofNat 32 n := by
  intro heq
  have hcancel := congrArg BitVec.toNat (add_left_cancel heq)
  rw [BitVec.toNat_ofNat, BitVec.toNat_ofNat] at hcancel
  omega

lemma writeBytes_bytesAt (h : bs.length ≤ 2 ^ 32) : BytesAt (writeBytes mem a bs) a bs := by
  induction bs generalizing mem a with
  | nil => trivial
  | cons b bs ih =>
    have hlength : bs.length + 1 ≤ 2 ^ 32 := h
    refine ⟨?_, ih (by omega)⟩
    rw [writeBytes, writeBytes_of_not, Function.update_self]
    intro n hn
    rw [add_one_add]
    have hne := add_ofNat_ne (show n + 1 < 2 ^ 32 by omega) (show 0 < 2 ^ 32 by omega) (by omega) a
    rwa [BitVec.add_zero] at hne

/-- What is stored within one page. -/
lemma writeBytes_sameOff {g : ℕ} (h : ∀ n < bs.length, pageOf (a + BitVec.ofNat 32 n) = g) :
    SameOff {g} mem (writeBytes mem a bs) := by
  intro x hx
  apply writeBytes_of_not
  intro n hn heq
  rw [← heq, h n hn] at hx
  exact hx rfl

/-- `strncpy` stores at most as many bytes as it was told. -/
lemma strncpyLoop_of_not {dest src : Word} {k i : ℕ}
    (h : ∀ m ≤ k, dest + BitVec.ofNat 32 (i + m) ≠ x) : strncpyLoop dest src k i mem x = mem x := by
  have hfirst : x ≠ dest + BitVec.ofNat 32 i := (h 0 (Nat.zero_le k)).symm
  induction k generalizing mem i with
  | zero => exact Function.update_of_ne hfirst _ _
  | succ k ih =>
    rw [strncpyLoop]
    by_cases hend : mem (src + BitVec.ofNat 32 i) = 0
    · rw [if_pos hend, Function.update_of_ne hfirst]
    · rw [if_neg hend, ih, Function.update_of_ne hfirst]
      · intro m hm
        rw [Nat.add_assoc, Nat.add_comm 1 m]
        exact h (m + 1) (by omega)
      · exact (h 1 (by omega)).symm

/-- The loop of `strncpy` copies what fits of a string that does not lie where it is copied to. -/
lemma strncpyLoop_take {dest src : Word} {k i : ℕ}
    (h : BytesAt mem (src + BitVec.ofNat 32 i) (bs ++ [0])) (hbs : 0 ∉ bs)
    (hoff : ∀ m < bs.length, m < k → ∀ m' ≤ bs.length, m < m' →
      src + BitVec.ofNat 32 (i + m') ≠ dest + BitVec.ofNat 32 (i + m)) :
    strncpyLoop dest src k i mem = writeBytes mem (dest + BitVec.ofNat 32 i) (bs.take k ++ [0]) := by
  induction bs generalizing mem k i with
  | nil =>
    cases k with
    | zero => rfl
    | succ k =>
      rw [strncpyLoop]
      exact if_pos h.1
  | cons b bs ih =>
    cases k with
    | zero => rfl
    | succ k =>
      have hnext : ∀ p : Word, p + BitVec.ofNat 32 i + 1 = p + BitVec.ofNat 32 (i + 1) := by
        intro p
        rw [BitVec.ofNat_add, ← add_assoc]
        rfl
      have hne : mem (src + BitVec.ofNat 32 i) ≠ 0 := by
        rw [h.1]
        exact fun h0 => hbs (h0 ▸ List.mem_cons_self)
      rw [strncpyLoop, if_neg hne, h.1, ih]
      · rw [List.take_succ_cons, List.cons_append, writeBytes, hnext]
      · have hrest : BytesAt mem (src + BitVec.ofNat 32 i + 1) (bs ++ [0]) := h.2
        rw [hnext] at hrest
        refine hrest.congr fun m hm => Function.update_of_ne ?_ _ _
        have hapart := hoff 0 (by simp) (Nat.succ_pos k) (m + 1) (by simpa [Nat.lt_succ_iff] using hm)
          (Nat.succ_pos m)
        rwa [Nat.add_comm m 1, ← Nat.add_assoc, BitVec.ofNat_add, ← add_assoc] at hapart
      · exact fun h0 => hbs (List.mem_cons_of_mem b h0)
      · intro m hm hmk m' hm' hlt
        have hapart := hoff (m + 1) (by simpa using hm) (by omega) (m' + 1) (by simpa using hm') (by omega)
        rwa [show i + (m' + 1) = i + 1 + m' by omega, show i + (m + 1) = i + 1 + m by omega] at hapart

lemma strncpy_take {dest src : Word} (h : BytesAt mem src (bs ++ [0])) (hbs : 0 ∉ bs)
    (hoff : ∀ m < bs.length, m < n - 1 → ∀ m' ≤ bs.length, m < m' →
      src + BitVec.ofNat 32 m' ≠ dest + BitVec.ofNat 32 m) :
    strncpy mem dest src n = writeBytes mem dest (bs.take (n - 1) ++ [0]) := by
  rw [strncpy, strncpyLoop_take]
  · rw [BitVec.add_zero]
  · rwa [BitVec.add_zero]
  · exact hbs
  · simpa only [Nat.zero_add] using hoff

lemma strncpy_eq {dest src : Word} (h : BytesAt mem src (bs ++ [0])) (hbs : 0 ∉ bs)
    (hn : bs.length < n) (hoff : ∀ m < bs.length, ∀ m' ≤ bs.length,
      src + BitVec.ofNat 32 m' ≠ dest + BitVec.ofNat 32 m) :
    strncpy mem dest src n = writeBytes mem dest (bs ++ [0]) := by
  rw [strncpy_take h hbs fun m hm _ m' hm' _ => hoff m hm m' hm', List.take_of_length_le (by omega)]

lemma stringAt_eq (h : BytesAt mem a (bs ++ [0])) (hbs : 0 ∉ bs) {fuel : ℕ} (hfuel : bs.length < fuel) :
    stringAt mem fuel a = some bs := by
  induction bs generalizing a fuel with
  | nil =>
    cases fuel with
    | zero => simp at hfuel
    | succ fuel => exact if_pos h.1
  | cons b bs ih =>
    cases fuel with
    | zero => simp at hfuel
    | succ fuel =>
      have hne : mem a ≠ 0 := by
        rw [h.1]
        exact fun h0 => hbs (h0 ▸ List.mem_cons_self)
      have hrest := ih h.2 (fun h0 => hbs (List.mem_cons_of_mem b h0)) (by simpa using hfuel)
      rw [stringAt, if_neg hne, hrest, Option.map_some, h.1]

lemma stringAt_some {fuel : ℕ} (h : stringAt mem fuel a = some bs) : BytesAt mem a (bs ++ [0]) ∧ 0 ∉ bs := by
  induction fuel generalizing a bs with
  | zero => simp [stringAt] at h
  | succ fuel ih =>
    rw [stringAt] at h
    split_ifs at h with hend
    · cases Option.some.inj h
      exact ⟨⟨hend, trivial⟩, by simp⟩
    · obtain ⟨rest, hrest, rfl⟩ := Option.map_eq_some_iff.1 h
      obtain ⟨hbytes, hzero⟩ := ih hrest
      exact ⟨⟨rfl, hbytes⟩, by simpa using ⟨Ne.symm hend, hzero⟩⟩

/-- Two strings without a zero byte that stand at one place. -/
lemma bytesAt_unique {bs' : List Byte} (h : BytesAt mem a (bs ++ [0])) (h' : BytesAt mem a (bs' ++ [0]))
    (hbs : 0 ∉ bs) (hbs' : 0 ∉ bs') : bs = bs' := by
  induction bs generalizing a bs' with
  | nil =>
    cases bs' with
    | nil => rfl
    | cons c bs' => exact absurd (h.1.symm.trans h'.1) fun h0 => hbs' (h0 ▸ List.mem_cons_self)
  | cons c bs ih =>
    cases bs' with
    | nil => exact absurd (h'.1.symm.trans h.1) fun h0 => hbs (h0 ▸ List.mem_cons_self)
    | cons c' bs' =>
      obtain rfl : c = c' := h.1.symm.trans h'.1
      congr 1
      exact ih h.2 h'.2 (fun h0 => hbs (List.mem_cons_of_mem c h0))
        fun h0 => hbs' (List.mem_cons_of_mem c h0)

lemma ne_of_not_inRange {size i : ℕ} (h : ¬ InRange a size x) (hsize : size ≤ 2 ^ 32)
    (hi : i < size) : x ≠ a + BitVec.ofNat 32 i := by
  rintro rfl
  apply h
  rw [InRange, add_sub_cancel_left, BitVec.toNat_ofNat]
  omega

lemma memcpy_of_not {dest src : Word} (hn : n < 2 ^ 32) (h : ¬ InRange dest n x) :
    memcpy mem dest src n x = mem x := by
  induction n generalizing mem dest src with
  | zero => rfl
  | succ n ih =>
    have hsplit : InRange dest (n + 1) x ↔ InRange dest 1 x ∨ InRange (dest + 1) n x := by
      rw [Nat.add_comm]
      exact (inRange_split dest x (show 1 + n < 2 ^ 32 by omega)).1
    have hne : x ≠ dest := by
      rintro rfl
      exact h (hsplit.2 (.inl (by simp [InRange])))
    rw [memcpy, ih (by omega) fun hin => h (hsplit.2 (.inr hin)), Function.update_of_ne hne]

end AlphaOS.CString
