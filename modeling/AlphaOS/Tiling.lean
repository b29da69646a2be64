import Mathlib

/-! Tables of cells tiled by live extents. A table is tiled when its live extents
are pairwise apart, each holds its own code, and every other cell is blank. The
cell type, the code and the blank value are arbitrary. -/
namespace AlphaOS.Tiling

structure Extent where
  start : ℕ
  len : ℕ
  deriving DecidableEq, Repr

/-- The cells of an extent. -/
def Extent.Has (e : Extent) (i : ℕ) : Prop := e.start ≤ i ∧ i < e.start + e.len

instance (e : Extent) (i : ℕ) : Decidable (e.Has i) := inferInstanceAs (Decidable (_ ∧ _))

def Extent.Apart (e f : Extent) : Prop := ∀ i, ¬ (e.Has i ∧ f.Has i)

lemma Extent.Apart.symm {e f : Extent} (h : e.Apart f) : f.Apart e := fun i hi => h i hi.symm

lemma Extent.has_iff {e : Extent} {i : ℕ} : e.Has i ↔ ∃ j < e.len, i = e.start + j := by
  constructor
  · intro h
    exact ⟨i - e.start, by have := h.1; have := h.2; omega, by have := h.1; omega⟩
  · rintro ⟨j, hj, rfl⟩
    exact ⟨by omega, by omega⟩

variable {β : Type*}

/-- The table `f` below `total` is the disjoint union of the live extents, each
holding `code len offset` in its cells, and of blank cells. -/
structure Tiled (code : ℕ → ℕ → β) (blank : β) (f : ℕ → β) (total : ℕ)
    (live : List Extent) : Prop where
  pos : ∀ e ∈ live, 0 < e.len
  bound : ∀ e ∈ live, e.start + e.len ≤ total
  apart : live.Pairwise Extent.Apart
  coded : ∀ e ∈ live, ∀ j < e.len, f (e.start + j) = code e.len j
  free : ∀ i < total, (∀ e ∈ live, ¬ e.Has i) → f i = blank

/-- Write the code of an extent over its cells. -/
def place (code : ℕ → ℕ → β) (f : ℕ → β) (e : Extent) : ℕ → β :=
  fun i => if e.Has i then code e.len (i - e.start) else f i

/-- Blank the cells of an extent. -/
def clear (blank : β) (f : ℕ → β) (e : Extent) : ℕ → β :=
  fun i => if e.Has i then blank else f i

variable {code : ℕ → ℕ → β} {blank : β} {f : ℕ → β} {total : ℕ} {live : List Extent}

lemma place_has {e : Extent} {j : ℕ} (hj : j < e.len) :
    place code f e (e.start + j) = code e.len j := by
  simp [place, Extent.Has, hj]

lemma place_of_not_has {e : Extent} {i : ℕ} (hi : ¬ e.Has i) : place code f e i = f i :=
  if_neg hi

lemma clear_has {e : Extent} {i : ℕ} (hi : e.Has i) : clear blank f e i = blank := if_pos hi

lemma clear_of_not_has {e : Extent} {i : ℕ} (hi : ¬ e.Has i) : clear blank f e i = f i :=
  if_neg hi

lemma Tiled.nil (hf : ∀ i < total, f i = blank) : Tiled code blank f total [] :=
  ⟨by simp, by simp, List.Pairwise.nil, by simp, fun i hi _ => hf i hi⟩

/-- A cell of a live extent is not blank when no code is. -/
lemma Tiled.ne_blank (h : Tiled code blank f total live)
    (hcode : ∀ n j, j < n → code n j ≠ blank) {e : Extent} (he : e ∈ live) {i : ℕ}
    (hi : e.Has i) : f i ≠ blank := by
  obtain ⟨j, hj, rfl⟩ := Extent.has_iff.1 hi
  rw [h.coded e he j hj]
  exact hcode _ _ hj

/-- Placing an extent over blank cells adds it to the live extents. -/
theorem Tiled.place (h : Tiled code blank f total live)
    (hcode : ∀ n j, j < n → code n j ≠ blank) {e : Extent} (hpos : 0 < e.len)
    (hbound : e.start + e.len ≤ total) (hblank : ∀ i, e.Has i → f i = blank) :
    Tiled code blank (place code f e) total (e :: live) := by
  have hapart : ∀ l ∈ live, e.Apart l := fun l hl i hi =>
    h.ne_blank hcode hl hi.2 (hblank i hi.1)
  refine ⟨?_, ?_, List.pairwise_cons.2 ⟨hapart, h.apart⟩, ?_, ?_⟩
  · intro l hl
    rcases List.mem_cons.1 hl with rfl | hl
    · exact hpos
    · exact h.pos l hl
  · intro l hl
    rcases List.mem_cons.1 hl with rfl | hl
    · exact hbound
    · exact h.bound l hl
  · intro l hl j hj
    rcases List.mem_cons.1 hl with rfl | hl
    · exact place_has hj
    · have hl' : l.Has (l.start + j) := Extent.has_iff.2 ⟨j, hj, rfl⟩
      rw [place_of_not_has (fun he => hapart l hl _ ⟨he, hl'⟩)]
      exact h.coded l hl j hj
  · intro i hi hno
    rw [place_of_not_has (hno e (by simp))]
    exact h.free i hi fun l hl => hno l (by simp [hl])

lemma Tiled.perm (h : Tiled code blank f total live) {live' : List Extent}
    (hp : live.Perm live') : Tiled code blank f total live' :=
  ⟨fun e he => h.pos e (hp.mem_iff.2 he), fun e he => h.bound e (hp.mem_iff.2 he),
    h.apart.perm hp fun hab => hab.symm, fun e he => h.coded e (hp.mem_iff.2 he),
    fun i hi hno => h.free i hi fun e he => hno e (hp.mem_iff.1 he)⟩

/-- Clearing a live extent removes it and leaves the others in place. -/
theorem Tiled.clear {e : Extent} (h : Tiled code blank f total (e :: live)) :
    Tiled code blank (clear blank f e) total live := by
  have hapart : ∀ l ∈ live, e.Apart l := (List.pairwise_cons.1 h.apart).1
  refine ⟨fun l hl => h.pos l (by simp [hl]), fun l hl => h.bound l (by simp [hl]),
    (List.pairwise_cons.1 h.apart).2, ?_, ?_⟩
  · intro l hl j hj
    have hl' : l.Has (l.start + j) := Extent.has_iff.2 ⟨j, hj, rfl⟩
    rw [clear_of_not_has (fun hh => hapart l hl _ ⟨hh, hl'⟩)]
    exact h.coded l (by simp [hl]) j hj
  · intro i hi hno
    by_cases hh : e.Has i
    · exact clear_has hh
    · rw [clear_of_not_has hh]
      refine h.free i hi fun l hl => ?_
      rcases List.mem_cons.1 hl with rfl | hl
      · exact hh
      · exact hno l hl

end AlphaOS.Tiling
