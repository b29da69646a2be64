import Mathlib

/-! Flat byte-addressed memory of a 32-bit machine: little-endian words, fills, and
the frame relation between two memories that agree outside a set of 4096-byte pages. -/
namespace AlphaOS.WordMemory

/-- Memory over all 32-bit addresses. -/
abbrev Mem := BitVec 32 → BitVec 8

/-- The `n` addresses from `a` on, wrapping at the top of the address space. -/
def InRange (a : BitVec 32) (n : ℕ) (x : BitVec 32) : Prop := (x - a).toNat < n

instance (a : BitVec 32) (n : ℕ) (x : BitVec 32) : Decidable (InRange a n x) :=
  inferInstanceAs (Decidable (_ < _))

def read32 (m : Mem) (a : BitVec 32) : BitVec 32 := m (a + 3) ++ m (a + 2) ++ m (a + 1) ++ m a

def write32 (m : Mem) (a v : BitVec 32) : Mem := fun x =>
  if InRange a 4 x then (v >>> (8 * (x - a).toNat)).setWidth 8 else m x

def fill (m : Mem) (a : BitVec 32) (n : ℕ) (b : BitVec 8) : Mem := fun x =>
  if InRange a n x then b else m x

/-- Memory with other bytes at the `n` addresses from `a` on. -/
def overlay (m : Mem) (a : BitVec 32) (n : ℕ) (bytes : ℕ → BitVec 8) : Mem := fun x =>
  if InRange a n x then bytes (x - a).toNat else m x

/-- The page an address lies in. -/
def pageOf (a : BitVec 32) : ℕ := a.toNat / 4096

/-- The memories agree outside the pages of `S`. -/
def SameOff (S : Set ℕ) (m m' : Mem) : Prop := ∀ x, pageOf x ∉ S → m' x = m x

lemma append_bytes (v : BitVec 32) :
    (v >>> 24).setWidth 8 ++ (v >>> 16).setWidth 8 ++ (v >>> 8).setWidth 8 ++ v.setWidth 8 = v := by
  apply BitVec.eq_of_getLsbD_eq
  intro i hi
  simp only [BitVec.getLsbD_append, BitVec.getLsbD_setWidth, BitVec.getLsbD_ushiftRight]
  grind

@[simp] lemma read32_write32 (m : Mem) (a v : BitVec 32) : read32 (write32 m a v) a = v := by
  simp only [read32, write32, InRange]
  simpa using append_bytes v

/-- The bytes of a word. -/
lemma read32_byte (m : Mem) (a : BitVec 32) {j : ℕ} (hj : j < 4) :
    (read32 m a >>> (8 * j)).setWidth 8 = m (a + BitVec.ofNat 32 j) := by
  have hzero : a + BitVec.ofNat 32 0 = a := BitVec.add_zero a
  have hcases : j = 0 ∨ j = 1 ∨ j = 2 ∨ j = 3 := by omega
  apply BitVec.eq_of_getLsbD_eq
  intro i hi
  rcases hcases with rfl | rfl | rfl | rfl
  all_goals
    simp only [read32, hzero, BitVec.getLsbD_append, BitVec.getLsbD_setWidth,
      BitVec.getLsbD_ushiftRight]
    grind

lemma toNat_add_ofNat {a : BitVec 32} {k : ℕ} (h : a.toNat + k < 2 ^ 32) :
    (a + BitVec.ofNat 32 k).toNat = a.toNat + k := by
  rw [BitVec.toNat_add, BitVec.toNat_ofNat]
  omega

lemma pageOf_add {a : BitVec 32} (ha : a.toNat % 4096 = 0) {k : ℕ} (hk : k < 4096) :
    pageOf (a + BitVec.ofNat 32 k) = pageOf a := by
  have hlt := a.isLt
  unfold pageOf
  rw [toNat_add_ofNat (by omega)]
  omega

/-- The bytes of an aligned word lie in one page. -/
lemma InRange.pageOf_eq {a x : BitVec 32} (ha : a.toNat % 4 = 0) (h : InRange a 4 x) :
    pageOf x = pageOf a := by
  unfold InRange at h
  rw [BitVec.toNat_sub] at h
  have hx := x.isLt
  have hlt := a.isLt
  unfold pageOf
  omega

/-- A range splits where the first part ends. -/
lemma inRange_split (out x : BitVec 32) {a b : ℕ} (h : a + b < 2 ^ 32) :
    (InRange out (a + b) x ↔ InRange out a x ∨ InRange (out + BitVec.ofNat 32 a) b x) ∧
    (InRange (out + BitVec.ofNat 32 a) b x →
      (x - out).toNat = a + (x - (out + BitVec.ofNat 32 a)).toNat) := by
  have hx := x.isLt
  have hout := out.isLt
  have hsum : (out + BitVec.ofNat 32 a).toNat = (out.toNat + a) % 2 ^ 32 := by
    rw [BitVec.toNat_add, BitVec.toNat_ofNat]
    omega
  have hsub : (x - out).toNat = (2 ^ 32 - out.toNat + x.toNat) % 2 ^ 32 := BitVec.toNat_sub _ _
  have hnext : (x - (out + BitVec.ofNat 32 a)).toNat =
      (2 ^ 32 - (out + BitVec.ofNat 32 a).toNat + x.toNat) % 2 ^ 32 := BitVec.toNat_sub _ _
  unfold InRange
  omega

lemma inRange_ofNat {p : BitVec 32} {j m : ℕ} (hj : j < m) (hm : m < 2 ^ 32) :
    InRange p m (p + BitVec.ofNat 32 j) := by
  rw [InRange, BitVec.add_comm, BitVec.add_sub_cancel, BitVec.toNat_ofNat]
  omega

lemma exists_of_inRange {a x : BitVec 32} {m : ℕ} (h : InRange a m x) :
    ∃ j < m, x = a + BitVec.ofNat 32 j := by
  refine ⟨(x - a).toNat, h, ?_⟩
  rw [BitVec.ofNat_toNat, BitVec.setWidth_eq, add_sub_cancel]

lemma toNat_ofNat_sub {a : BitVec 32} {j : ℕ} (hj : j < 2 ^ 32) :
    (a + BitVec.ofNat 32 j - a).toNat = j := by
  rw [BitVec.add_comm, BitVec.add_sub_cancel, BitVec.toNat_ofNat]
  omega

lemma overlay_of_not {m : Mem} {a x : BitVec 32} {n : ℕ} {bytes : ℕ → BitVec 8}
    (h : ¬ InRange a n x) : overlay m a n bytes x = m x := if_neg h

lemma overlay_byte {m : Mem} {a : BitVec 32} {n j : ℕ} {bytes : ℕ → BitVec 8} (hj : j < n)
    (hn : n < 2 ^ 32) : overlay m a n bytes (a + BitVec.ofNat 32 j) = bytes j := by
  rw [overlay, if_pos (inRange_ofNat hj hn), toNat_ofNat_sub (by omega)]

/-- The bytes that are there already change nothing. -/
lemma overlay_same {m : Mem} {a : BitVec 32} {n : ℕ} {bytes : ℕ → BitVec 8} (hn : n < 2 ^ 32)
    (h : ∀ j < n, bytes j = m (a + BitVec.ofNat 32 j)) : overlay m a n bytes = m := by
  funext x
  by_cases hx : InRange a n x
  · obtain ⟨j, hj, rfl⟩ := exists_of_inRange hx
    rw [overlay_byte hj hn, h j hj]
  · exact overlay_of_not hx

lemma read32_eq_of_same {m m' : Mem} {a : BitVec 32}
    (h : ∀ x, InRange a 4 x → m' x = m x) : read32 m' a = read32 m a := by
  unfold read32
  rw [h, h, h, h] <;> simp [InRange]

/-- Distinct aligned words do not overlap. -/
lemma read32_write32_of_ne {m : Mem} {a b v : BitVec 32} (ha : a.toNat % 4 = 0)
    (hb : b.toNat % 4 = 0) (hab : b ≠ a) : read32 (write32 m a v) b = read32 m b := by
  apply read32_eq_of_same
  intro x hx
  apply if_neg
  unfold InRange at hx ⊢
  rw [BitVec.toNat_sub] at hx ⊢
  have hne : b.toNat ≠ a.toNat := fun h => hab (BitVec.eq_of_toNat_eq h)
  have hxl := x.isLt
  have hal := a.isLt
  have hbl := b.isLt
  omega

lemma SameOff.refl (S : Set ℕ) (m : Mem) : SameOff S m m := fun _ _ => rfl

lemma SameOff.trans {S T : Set ℕ} {m m' m'' : Mem} (h : SameOff S m m') (h' : SameOff T m' m'') :
    SameOff (S ∪ T) m m'' := by
  intro x hx
  rw [Set.mem_union, not_or] at hx
  rw [h' x hx.2, h x hx.1]

lemma SameOff.mono {S T : Set ℕ} {m m' : Mem} (h : SameOff S m m') (hST : S ⊆ T) :
    SameOff T m m' := fun x hx => h x fun hS => hx (hST hS)

lemma SameOff.read32 {S : Set ℕ} {m m' : Mem} (h : SameOff S m m') {a : BitVec 32}
    (ha : a.toNat % 4 = 0) (hS : pageOf a ∉ S) : read32 m' a = read32 m a :=
  read32_eq_of_same fun x hx => h x (by rw [hx.pageOf_eq ha]; exact hS)

lemma write32_sameOff (m : Mem) {a : BitVec 32} (ha : a.toNat % 4 = 0) (v : BitVec 32) :
    SameOff {pageOf a} m (write32 m a v) := by
  intro x hx
  apply if_neg
  intro h
  exact hx (h.pageOf_eq ha)

/-! The 1024 words of a page. -/

lemma toNat_slot {a : BitVec 32} (ha : a.toNat % 4096 = 0) {l : ℕ} (hl : l < 1024) :
    (a + BitVec.ofNat 32 (4 * l)).toNat = a.toNat + 4 * l := by
  have hlt := a.isLt
  exact toNat_add_ofNat (by omega)

lemma read32_slot_of_sameOff {S : Set ℕ} {m m' : Mem} (h : SameOff S m m') {a : BitVec 32}
    (ha : a.toNat % 4096 = 0) (hS : pageOf a ∉ S) {l : ℕ} (hl : l < 1024) :
    read32 m' (a + BitVec.ofNat 32 (4 * l)) = read32 m (a + BitVec.ofNat 32 (4 * l)) := by
  refine h.read32 ?_ ?_
  · rw [toNat_slot ha hl]
    omega
  · rwa [pageOf_add ha (by omega)]

lemma write32_slot_sameOff (m : Mem) {a : BitVec 32} (ha : a.toNat % 4096 = 0) {i : ℕ}
    (hi : i < 1024) (v : BitVec 32) :
    SameOff {pageOf a} m (write32 m (a + BitVec.ofNat 32 (4 * i)) v) := by
  have hword : (a + BitVec.ofNat 32 (4 * i)).toNat % 4 = 0 := by
    rw [toNat_slot ha hi]
    omega
  have hwrite := write32_sameOff m hword v
  rwa [pageOf_add ha (by omega)] at hwrite

lemma read32_write32_slot (m : Mem) {a : BitVec 32} (ha : a.toNat % 4096 = 0) {i l : ℕ}
    (hi : i < 1024) (hl : l < 1024) (v : BitVec 32) :
    read32 (write32 m (a + BitVec.ofNat 32 (4 * i)) v) (a + BitVec.ofNat 32 (4 * l)) =
      if l = i then v else read32 m (a + BitVec.ofNat 32 (4 * l)) := by
  by_cases hli : l = i
  · rw [if_pos hli, hli]
    exact read32_write32 _ _ _
  · have hwritten := toNat_slot ha hi
    have hother := toNat_slot ha hl
    rw [if_neg hli, read32_write32_of_ne (by omega) (by omega)]
    intro heq
    rw [heq] at hother
    omega

/-- A fill from an aligned address stays in the pages its bytes cover. -/
lemma fill_sameOff (m : Mem) {a : BitVec 32} (ha : a.toNat % 4096 = 0) {n k : ℕ}
    (hn : n ≤ 4096 * k) (hfit : a.toNat + 4096 * k ≤ 2 ^ 32) (b : BitVec 8) :
    SameOff {p | pageOf a ≤ p ∧ p < pageOf a + k} m (fill m a n b) := by
  intro x hx
  apply if_neg
  intro h
  apply hx
  unfold InRange at h
  rw [BitVec.toNat_sub] at h
  have hxl := x.isLt
  have hal := a.isLt
  simp only [Set.mem_ofPred_eq, pageOf]
  omega

/-- Masking the low twelve bits rounds down to a page. -/
lemma toNat_and_page (e : BitVec 32) : (e &&& 0xFFFFF000#32).toNat = e.toNat / 4096 * 4096 := by
  have hbit : ∀ i < 32, (0xFFFFF000#32).getLsbD i = decide (12 ≤ i) := by decide
  have hshift : e &&& 0xFFFFF000#32 = (e >>> 12) <<< 12 := by
    apply BitVec.eq_of_getLsbD_eq
    intro i hi
    rw [BitVec.getLsbD_and, hbit i hi, BitVec.getLsbD_shiftLeft, BitVec.getLsbD_ushiftRight]
    by_cases h12 : 12 ≤ i
    · simp [h12, hi]
    · simp [h12]
  rw [hshift, BitVec.toNat_shiftLeft, BitVec.toNat_ushiftRight]
  have := e.isLt
  simp only [Nat.shiftRight_eq_div_pow, Nat.shiftLeft_eq]
  omega

/-- Flags packed under a page address. -/
lemma toNat_or_flags {a f : BitVec 32} (ha : a.toNat % 4096 = 0) (hf : f.toNat < 4096) :
    (a ||| f).toNat = a.toNat + f.toNat := by
  have h := Nat.two_pow_add_eq_or_of_lt (i := 12) (b := f.toNat) hf (a.toNat / 4096)
  rw [show 2 ^ 12 * (a.toNat / 4096) = a.toNat by omega] at h
  rw [BitVec.toNat_or, h]

/-- The mask recovers a page address from under its flags. -/
lemma and_page_or_flags {a f : BitVec 32} (ha : a.toNat % 4096 = 0) (hf : f.toNat < 4096) :
    (a ||| f) &&& 0xFFFFF000#32 = a := by
  apply BitVec.eq_of_toNat_eq
  rw [toNat_and_page, toNat_or_flags ha hf]
  omega

end AlphaOS.WordMemory
