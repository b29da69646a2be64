import AlphaOS.Config

/-! The text console of `kernel.c`: characters go to the cells of the video memory, at a cursor of two
16-bit counters. -/
namespace AlphaOS.Console

abbrev vgaWidth : ℕ := 80
abbrev vgaHeight : ℕ := 25

/-- A character with its colour. -/
abbrev Cell := BitVec 16

/-- The variables of the console, and the indexes of the cells written since it was set up, the
last one first. -/
structure Terminal where
  videoMemory : ℕ → Cell
  row : BitVec 16
  col : BitVec 16
  written : List ℕ

/-- Both characters are signed and extended before they meet. -/
def terminalMakeChar (c color : Byte) : Cell :=
  (color.signExtend 32 <<< 8 ||| c.signExtend 32).setWidth 16

def terminalPutchar (t : Terminal) (x y : ℕ) (c color : Byte) : Terminal :=
  let i := y * vgaWidth + x
  { t with
    videoMemory := Function.update t.videoMemory i (terminalMakeChar c color)
    written := i :: t.written }

/-- What `terminal_writechar` does with a character that is no newline and no backspace. -/
def writeGlyph (t : Terminal) (c color : Byte) : Terminal :=
  let t := terminalPutchar t t.col.toNat t.row.toNat c color
  let t := { t with col := t.col + 1 }
  if t.col.toNat ≥ vgaWidth then { t with col := 0, row := t.row + 1 } else t

/-- The space is written by `terminal_writechar`, which calls this function on a backspace. -/
def terminalBackspace (t : Terminal) : Terminal :=
  if t.row = 0 ∧ t.col = 0 then t else
  let t := if t.col = 0 then { t with row := t.row - 1, col := BitVec.ofNat 16 vgaWidth } else t
  let t := { t with col := t.col - 1 }
  let t := writeGlyph t 32 15
  { t with col := t.col - 1 }

/-- `'\n'` is 10 and `'\b'` is 8. -/
def terminalWritechar (t : Terminal) (c color : Byte) : Terminal :=
  if c = 10 then { t with col := 0, row := t.row + 1 } else
  if c = 8 then terminalBackspace t else
  writeGlyph t c color

/-- The loop over `x` of `terminal_init`, with `k` columns left. -/
def clearColumns (y : ℕ) : ℕ → ℕ → Terminal → Terminal
  | 0, _, t => t
  | k + 1, x, t => clearColumns y k (x + 1) (terminalPutchar t x y 32 0)

/-- The loop over `y`, with `k` rows left. -/
def clearRows : ℕ → ℕ → Terminal → Terminal
  | 0, _, t => t
  | k + 1, y, t => clearRows k (y + 1) (clearColumns y vgaWidth 0 t)

def terminalInit (t : Terminal) : Terminal :=
  clearRows vgaHeight 0 { t with row := 0, col := 0, written := [] }

/-- Characters one after the other, each with its colour. -/
def writeAll (t : Terminal) (cs : List (Byte × Byte)) : Terminal :=
  cs.foldl (fun t c => terminalWritechar t c.1 c.2) t

/-- The column is on the screen, and so is every cell that was written. -/
structure Inside (t : Terminal) : Prop where
  col : t.col.toNat < vgaWidth
  written : ∀ i ∈ t.written, i < vgaWidth * vgaHeight

/-- The cursor has a cell to write: its own for a character, and for a backspace the cell before it in
the same row. A newline writes none, and neither does a backspace at the start of the screen. -/
def HasCell (t : Terminal) (c : Byte) : Prop :=
  if c = 10 then True else
  if c = 8 then t.row = 0 ∧ t.col = 0 ∨ t.col ≠ 0 ∧ t.row.toNat < vgaHeight else
  t.row.toNat < vgaHeight

variable {t : Terminal} {c color : Byte} {cs : List (Byte × Byte)} {k x y : ℕ}

/-- The text of the source: the space goes through `terminal_writechar`. -/
lemma terminalBackspace_eq (t : Terminal) :
    terminalBackspace t =
      if t.row = 0 ∧ t.col = 0 then t else
      let t := if t.col = 0 then { t with row := t.row - 1, col := BitVec.ofNat 16 vgaWidth } else t
      let t := terminalWritechar { t with col := t.col - 1 } 32 15
      { t with col := t.col - 1 } := rfl

lemma writeAll_append (t : Terminal) (cs ds : List (Byte × Byte)) :
    writeAll t (cs ++ ds) = writeAll (writeAll t cs) ds :=
  List.foldl_append

lemma toNat_add_one (h : t.col.toNat < 80) : (t.col + 1).toNat = t.col.toNat + 1 := by
  have hone : (1 : BitVec 16).toNat = 1 := rfl
  rw [BitVec.toNat_add, hone]
  omega

lemma toNat_sub_one {w : BitVec 16} (h : w ≠ 0) : (w - 1).toNat = w.toNat - 1 := by
  have hpos : w.toNat ≠ 0 := fun h0 => h (BitVec.eq_of_toNat_eq h0)
  have hone : (1 : BitVec 16).toNat = 1 := rfl
  rw [BitVec.toNat_sub, hone]
  omega

/-- A character that does not end its row. -/
lemma writeGlyph_of_lt (h : t.col.toNat + 1 < 80) :
    writeGlyph t c color =
      { terminalPutchar t t.col.toNat t.row.toNat c color with col := t.col + 1 } := by
  have hcol := @toNat_add_one t (by omega)
  have hnot : ¬ (t.col + 1).toNat ≥ 80 := by omega
  exact if_neg hnot

/-- The last character of a row. -/
lemma writeGlyph_of_eq (h : t.col.toNat + 1 = 80) :
    writeGlyph t c color =
      { terminalPutchar t t.col.toNat t.row.toNat c color with col := 0, row := t.row + 1 } := by
  have hcol := @toNat_add_one t (by omega)
  have hfull : (t.col + 1).toNat ≥ 80 := by omega
  exact if_pos hfull

/-- A backspace behind the start of a row. -/
lemma terminalBackspace_of_ne (h : t.col ≠ 0) (hcol : t.col.toNat < 80) :
    terminalBackspace t =
      { terminalPutchar t (t.col.toNat - 1) t.row.toNat 32 15 with col := t.col - 1 } := by
  have hsub := toNat_sub_one h
  have hpos : t.col.toNat ≠ 0 := fun h0 => h (BitVec.eq_of_toNat_eq h0)
  have hlt : (t.col - 1).toNat + 1 < 80 := by omega
  rw [terminalBackspace, if_neg fun h0 => h h0.2, if_neg h]
  dsimp only
  rw [@writeGlyph_of_lt { t with col := t.col - 1 } 32 15 hlt]
  simp only [terminalPutchar, hsub, BitVec.sub_add_cancel]

/-- A backspace at the start of a row but the first: the space that is written ends the row
before, and the column counts down from 0. -/
lemma terminalBackspace_of_eq (h : t.col = 0) (hrow : t.row ≠ 0) :
    terminalBackspace t =
      { terminalPutchar t 79 (t.row - 1).toNat 32 15 with col := 65535 } := by
  rw [terminalBackspace, if_neg fun h0 => hrow h0.1, if_pos h]
  dsimp only
  rw [@writeGlyph_of_eq { t with row := t.row - 1, col := BitVec.ofNat 16 80 - 1 } 32 15 rfl]
  simp only [terminalPutchar, BitVec.sub_add_cancel]
  rfl

/-! Runs that stay on the screen. -/

/-- The cell of a putchar joins the others. -/
lemma inside_putchar (h : Inside t) (t' : Terminal) (hx : x < 80)
    (hwritten : t'.written = (y * 80 + x) :: t.written) (hcol : t'.col.toNat < 80) :
    Inside t' ↔ y < 25 := by
  constructor
  · intro hinside
    have hcell := hinside.written (y * 80 + x) (by simp [hwritten])
    change _ < 80 * 25 at hcell
    omega
  · intro hy
    refine ⟨hcol, fun i hi => ?_⟩
    rw [hwritten, List.mem_cons] at hi
    rcases hi with rfl | hi
    · change _ < 80 * 25
      omega
    · exact h.written i hi

lemma inside_writeGlyph (h : Inside t) : Inside (writeGlyph t c color) ↔ t.row.toNat < 25 := by
  have hcol : t.col.toNat < 80 := h.col
  by_cases hfull : t.col.toNat + 1 = 80
  · rw [writeGlyph_of_eq hfull]
    exact inside_putchar h _ hcol rfl (show (0 : BitVec 16).toNat < 80 by decide)
  · rw [writeGlyph_of_lt (by omega)]
    apply inside_putchar h _ hcol rfl
    change (t.col + 1).toNat < 80
    rw [toNat_add_one hcol]
    omega

/-- One character: the console stays on the screen exactly when the cursor has a cell for it. -/
lemma inside_terminalWritechar (h : Inside t) :
    Inside (terminalWritechar t c color) ↔ HasCell t c := by
  rw [terminalWritechar, HasCell]
  by_cases hnewline : c = 10
  · rw [if_pos hnewline, if_pos hnewline]
    exact iff_of_true ⟨show (0 : BitVec 16).toNat < 80 by decide, h.written⟩ trivial
  rw [if_neg hnewline, if_neg hnewline]
  by_cases hback : c = 8
  · rw [if_pos hback, if_pos hback]
    by_cases hcol : t.col = 0
    · by_cases hrow : t.row = 0
      · rw [terminalBackspace, if_pos ⟨hrow, hcol⟩]
        exact iff_of_true h (.inl ⟨hrow, hcol⟩)
      · rw [terminalBackspace_of_eq hcol hrow]
        refine iff_of_false (fun hinside => ?_) ?_
        · exact absurd hinside.col (show ¬ (65535 : BitVec 16).toNat < 80 by decide)
        · rintro (hstart | hbehind)
          · exact hrow hstart.1
          · exact hbehind.1 hcol
    · have hlt : t.col.toNat < 80 := h.col
      rw [terminalBackspace_of_ne hcol hlt, or_iff_right fun h0 => hcol h0.2, and_iff_right hcol]
      apply inside_putchar h _ (by omega) rfl
      change (t.col - 1).toNat < 80
      rw [toNat_sub_one hcol]
      omega
  · rw [if_neg hback, if_neg hback]
    exact inside_writeGlyph h

lemma inside_clearColumns (h : Inside t) (hy : y < 25) (hx : x + k ≤ 80) :
    Inside (clearColumns y k x t) := by
  induction k generalizing x t with
  | zero => exact h
  | succ k ih =>
    have hput : Inside (terminalPutchar t x y 32 0) :=
      (inside_putchar h (terminalPutchar t x y 32 0) (by omega) rfl h.col).2 hy
    exact ih hput (by omega)

lemma inside_clearRows (h : Inside t) (hy : y + k ≤ 25) : Inside (clearRows k y t) := by
  induction k generalizing y t with
  | zero => exact h
  | succ k ih =>
    apply ih _ (by omega)
    exact inside_clearColumns h (by omega) le_rfl

lemma clearColumns_cursor (y k x : ℕ) (t : Terminal) :
    (clearColumns y k x t).row = t.row ∧ (clearColumns y k x t).col = t.col := by
  induction k generalizing x t with
  | zero => exact ⟨rfl, rfl⟩
  | succ k ih => exact ih (x + 1) (terminalPutchar t x y 32 0)

lemma clearRows_cursor (k y : ℕ) (t : Terminal) :
    (clearRows k y t).row = t.row ∧ (clearRows k y t).col = t.col := by
  induction k generalizing y t with
  | zero => exact ⟨rfl, rfl⟩
  | succ k ih =>
    have hcolumns := clearColumns_cursor y vgaWidth 0 t
    rw [clearRows, (ih _ _).1, (ih _ _).2]
    exact hcolumns

lemma terminalInit_cursor (t : Terminal) : (terminalInit t).row = 0 ∧ (terminalInit t).col = 0 :=
  clearRows_cursor _ _ _

/-- The console is set up with 2000 cells and the cursor at their start. -/
lemma inside_terminalInit (t : Terminal) : Inside (terminalInit t) := by
  apply inside_clearRows _ le_rfl
  exact ⟨show (0 : BitVec 16).toNat < 80 by decide, by simp⟩

/-- After every number of characters the console is on the screen, exactly when at each of them the
cursor had a cell for it. -/
theorem inside_iff_hasCell (t : Terminal) (cs : List (Byte × Byte)) :
    (∀ ds, ds <+: cs → Inside (writeAll (terminalInit t) ds)) ↔
      ∀ ds c, ds ++ [c] <+: cs → HasCell (writeAll (terminalInit t) ds) c.1 := by
  have hstep : ∀ ds c, writeAll (terminalInit t) (ds ++ [c]) =
      terminalWritechar (writeAll (terminalInit t) ds) c.1 c.2 := by
    intro ds c
    rw [writeAll_append]
    rfl
  constructor
  · intro hinside ds c hprefix
    have hbefore := hinside ds ((List.prefix_append ds [c]).trans hprefix)
    have hafter := hinside (ds ++ [c]) hprefix
    rw [hstep] at hafter
    exact (inside_terminalWritechar hbefore).1 hafter
  · intro hcells ds hprefix
    induction ds using List.reverseRecOn with
    | nil => exact inside_terminalInit t
    | append_singleton ds c ih =>
      have hbefore := ih ((List.prefix_append ds [c]).trans hprefix)
      rw [hstep]
      exact (inside_terminalWritechar hbefore).2 (hcells ds c hprefix)

lemma writeAll_newlines (h : t.col = 0) (n : ℕ) :
    writeAll t (List.replicate n (10, 15)) = { t with row := t.row + BitVec.ofNat 16 n } := by
  induction n with
  | zero => simp [writeAll]
  | succ n ih =>
    rw [List.replicate_succ', writeAll_append, ih, BitVec.ofNat_add, ← BitVec.add_assoc, h]
    rfl

/-- A character behind 25 lines is written below the screen, and a backspace at the start of the
second line leaves the column at 65535. -/
theorem lines_leaveScreen :
    let t := terminalInit ⟨fun _ => 0, 0, 0, []⟩
    2000 ∈ (writeAll t (List.replicate 25 (10, 15) ++ [(65, 15)])).written ∧
      (writeAll t [(10, 15), (8, 15)]).col = 65535 := by
  have hcursor := terminalInit_cursor ⟨fun _ => 0, 0, 0, []⟩
  intro t
  change t.row = 0 ∧ t.col = 0 at hcursor
  revert hcursor
  generalize t = t
  intro hcursor
  cases t with
  | mk videoMemory row col written =>
    obtain ⟨rfl, rfl⟩ := hcursor
    have hglyph := @writeGlyph_of_lt ⟨videoMemory, BitVec.ofNat 16 25, 0, written⟩ 65 15
      (show (0 : BitVec 16).toNat + 1 < 80 by decide)
    rw [writeAll_append, writeAll_newlines rfl]
    change 2000 ∈ (writeGlyph ⟨videoMemory, BitVec.ofNat 16 25, 0, written⟩ 65 15).written ∧ _
    have hback := @terminalBackspace_of_eq ⟨videoMemory, 0 + 1, 0, written⟩ rfl
      (show (0 + 1 : BitVec 16) ≠ 0 by decide)
    rw [hglyph]
    exact ⟨List.mem_cons_self, congrArg Terminal.col hback⟩

/-! Taking back what was typed. -/

def cursor (t : Terminal) : BitVec 16 × BitVec 16 := (t.row, t.col)

/-- `k` backspaces. -/
def erase : ℕ → Terminal → Terminal
  | 0, t => t
  | k + 1, t => erase k (terminalWritechar t 8 15)

/-- Every backspace takes the cursor to where it was before the character it erases. At the
end the cells of the word are blank, and the others as they were. -/
structure Undone (t : Terminal) (cs : List (Byte × Byte)) : Prop where
  cursor : ∀ k ≤ cs.length,
    cursor (erase k (writeAll t cs)) = cursor (writeAll t (cs.take (cs.length - k)))
  blank : ∀ j < cs.length, (erase cs.length (writeAll t cs)).videoMemory
    (t.row.toNat * vgaWidth + t.col.toNat + j) = terminalMakeChar 32 15
  others : ∀ i, (∀ j < cs.length, i ≠ t.row.toNat * vgaWidth + t.col.toNat + j) →
    (erase cs.length (writeAll t cs)).videoMemory i = t.videoMemory i

/-- Neither a newline nor a backspace. -/
def IsGlyph (c : Byte) : Prop := c ≠ 10 ∧ c ≠ 8

lemma terminalWritechar_glyph (h : IsGlyph c) : terminalWritechar t c color = writeGlyph t c color := by
  rw [terminalWritechar, if_neg h.1, if_neg h.2]

lemma erase_succ (k : ℕ) (t : Terminal) : erase (k + 1) t = terminalBackspace (erase k t) := by
  induction k generalizing t with
  | zero => rfl
  | succ k ih => exact ih _

/-- A word that stays in its row. -/
lemma writeAll_word (hcs : ∀ c ∈ cs, IsGlyph c.1) (hcol : t.col.toNat + cs.length < 80) :
    (writeAll t cs).row = t.row ∧ (writeAll t cs).col.toNat = t.col.toNat + cs.length ∧
    ∀ i, (∀ j < cs.length, i ≠ t.row.toNat * 80 + t.col.toNat + j) →
      (writeAll t cs).videoMemory i = t.videoMemory i := by
  induction cs generalizing t with
  | nil => exact ⟨rfl, rfl, fun _ _ => rfl⟩
  | cons c cs ih =>
    rw [List.length_cons] at hcol
    have hglyph : terminalWritechar t c.1 c.2 =
        { terminalPutchar t t.col.toNat t.row.toNat c.1 c.2 with col := t.col + 1 } := by
      rw [terminalWritechar_glyph (hcs c (by simp))]
      exact writeGlyph_of_lt (by omega)
    have hnext : (t.col + 1).toNat = t.col.toNat + 1 := toNat_add_one (by omega)
    have hrest := @ih (terminalWritechar t c.1 c.2) (fun d hd => hcs d (by simp [hd])) (by
      rw [hglyph]
      change (t.col + 1).toNat + _ < 80
      omega)
    rw [hglyph] at hrest
    change (writeAll (terminalWritechar t c.1 c.2) cs).row = _ ∧
      (writeAll (terminalWritechar t c.1 c.2) cs).col.toNat = _ ∧ ∀ i, _ →
      (writeAll (terminalWritechar t c.1 c.2) cs).videoMemory i = _
    rw [hglyph]
    refine ⟨hrest.1, ?_, fun i hi => ?_⟩
    · rw [hrest.2.1, List.length_cons]
      change (t.col + 1).toNat + _ = _
      omega
    · rw [hrest.2.2 i fun j hj => ?_]
      · exact Function.update_of_ne (hi 0 (by simp)) _ _
      · have hne := hi (j + 1) (by simpa using hj)
        change i ≠ t.row.toNat * 80 + (t.col + 1).toNat + j
        omega

/-- Backspaces that stay in their row. -/
lemma erase_word (hk : k ≤ t.col.toNat) (hcol : t.col.toNat < 80) :
    (erase k t).row = t.row ∧ (erase k t).col.toNat = t.col.toNat - k ∧
    (∀ i, i + k < t.row.toNat * 80 + t.col.toNat ∨ t.row.toNat * 80 + t.col.toNat ≤ i →
      (erase k t).videoMemory i = t.videoMemory i) ∧
    ∀ i, t.row.toNat * 80 + t.col.toNat ≤ i + k → i < t.row.toNat * 80 + t.col.toNat →
      (erase k t).videoMemory i = terminalMakeChar 32 15 := by
  induction k with
  | zero => exact ⟨rfl, rfl, fun _ _ => rfl, fun _ _ _ => by omega⟩
  | succ k ih =>
    obtain ⟨hrow, hcolumn, hsame, hblank⟩ := ih (by omega)
    have hne : (erase k t).col ≠ 0 := by
      intro h0
      rw [h0] at hcolumn
      change 0 = _ at hcolumn
      omega
    have hsub := toNat_sub_one hne
    rw [erase_succ, terminalBackspace_of_ne hne (by omega), hcolumn, hrow]
    refine ⟨hrow, ?_, fun i hi => ?_, fun i hge hlt => ?_⟩
    · change ((erase k t).col - 1).toNat = _
      omega
    · rw [← hsame i (by omega)]
      apply Function.update_of_ne
      change i ≠ t.row.toNat * 80 + _
      omega
    · by_cases hi : i = t.row.toNat * 80 + (t.col.toNat - k - 1)
      · subst hi
        exact Function.update_self _ _ _
      · rw [← hblank i (by omega) hlt]
        exact Function.update_of_ne hi _ _

/-- A word that stays in its row is taken back. -/
lemma undone_of_short (hcs : ∀ c ∈ cs, IsGlyph c.1) (hshort : t.col.toNat + cs.length < 80) :
    Undone t cs := by
  obtain ⟨hline, hcolumn, hother⟩ := writeAll_word hcs hshort
  obtain ⟨-, -, hsame, hblank⟩ := @erase_word (writeAll t cs) cs.length (by omega) (by omega)
  rw [hline, hcolumn] at hsame hblank
  refine ⟨fun k hk => ?_, fun j hj => ?_, fun i hi => ?_⟩
  · obtain ⟨hrow', hcolumn', -⟩ := @erase_word (writeAll t cs) k (by omega) (by omega)
    have hlen : (cs.take (cs.length - k)).length = cs.length - k :=
      List.length_take_of_le (Nat.sub_le _ _)
    obtain ⟨hline', hback, -⟩ := @writeAll_word t (cs.take (cs.length - k))
      (fun c hc => hcs c (List.mem_of_mem_take hc)) (by omega)
    apply Prod.ext
    · exact hrow'.trans (hline.trans hline'.symm)
    · apply BitVec.eq_of_toNat_eq
      change (erase k (writeAll t cs)).col.toNat = (writeAll t (cs.take (cs.length - k))).col.toNat
      omega
  · change (erase cs.length (writeAll t cs)).videoMemory (t.row.toNat * 80 + t.col.toNat + j) = _
    exact hblank _ (by omega) (by omega)
  · rw [hsame i, hother i hi]
    by_contra hin
    refine hi (i - (t.row.toNat * 80 + t.col.toNat)) (by omega) ?_
    change i = t.row.toNat * 80 + t.col.toNat + (i - (t.row.toNat * 80 + t.col.toNat))
    omega

/-- A word that is taken back stays in its row: the backspace behind the character that ends the
row leaves the column at 65535. -/
lemma Undone.short (h : Undone t cs) (hcol : t.col.toNat < 80) (hrow : t.row.toNat < 24)
    (hcs : ∀ c ∈ cs, IsGlyph c.1) : t.col.toNat + cs.length < 80 := by
  by_contra hlong
  -- the character that ends the row, and the backspace that would have to take it back
  obtain ⟨j, hj⟩ : ∃ j, t.col.toNat + j = 79 := ⟨79 - t.col.toNat, by omega⟩
  have hlen : (cs.take j).length = j := List.length_take_of_le (by omega)
  obtain ⟨hline, hlast, -⟩ := @writeAll_word t (cs.take j)
    (fun c hc => hcs c (List.mem_of_mem_take hc)) (by omega)
  rw [hlen] at hlast
  have hbefore := h.cursor (cs.length - j) (by omega)
  have hafter := h.cursor (cs.length - (j + 1)) (by omega)
  have htake : cs.take (j + 1) = cs.take j ++ [cs[j]] := (List.take_concat_get' _ _ _).symm
  have hended : writeAll t (cs.take (j + 1)) = writeGlyph (writeAll t (cs.take j)) cs[j].1 cs[j].2 := by
    rw [htake, writeAll_append]
    exact terminalWritechar_glyph (hcs _ (List.getElem_mem _))
  rw [show cs.length - (cs.length - (j + 1)) = j + 1 by omega, hended,
    writeGlyph_of_eq (by omega)] at hafter
  rw [show cs.length - j = cs.length - (j + 1) + 1 by omega, erase_succ,
    show cs.length - (cs.length - (j + 1) + 1) = j by omega] at hbefore
  generalize erase (cs.length - (j + 1)) (writeAll t cs) = u at hbefore hafter
  obtain ⟨hurow, hucol⟩ := Prod.mk.inj hafter
  change u.row = (writeAll t (cs.take j)).row + 1 at hurow
  have hne : u.row ≠ 0 := by
    intro h0
    have htoNat := congrArg BitVec.toNat (hurow.symm.trans h0)
    rw [hline, BitVec.toNat_add] at htoNat
    change (t.row.toNat + 1) % 65536 = 0 at htoNat
    omega
  rw [terminalBackspace_of_eq hucol hne] at hbefore
  have hcolumn := congrArg (fun p : BitVec 16 × BitVec 16 => p.2.toNat) hbefore
  change 65535 = (writeAll t (cs.take j)).col.toNat at hcolumn
  omega

/-- A word is taken back by as many backspaces exactly when it stays in its row. -/
theorem undone_iff (hcol : t.col.toNat < vgaWidth) (hrow : t.row.toNat < 24)
    (hcs : ∀ c ∈ cs, IsGlyph c.1) : Undone t cs ↔ t.col.toNat + cs.length < vgaWidth :=
  ⟨fun h => h.short hcol hrow hcs, undone_of_short hcs⟩

theorem undone_iff_twoLetters :
    Undone ⟨fun _ => 0, 3, 70, []⟩ [(72, 15), (105, 15)] ↔ 72 < 80 :=
  undone_iff (by decide) (by decide) (by simp [IsGlyph])

/-- A character in the last column is not taken back: the column ends at 65535. -/
theorem lastColumn_not_undone :
    let t : Terminal := ⟨fun _ => 0, 0, 79, []⟩
    cursor (terminalWritechar (terminalWritechar t 65 15) 8 15) ≠ cursor t ∧ ¬ Undone t [(65, 15)] := by
  refine ⟨by decide, fun h => ?_⟩
  exact absurd (h.cursor 1 le_rfl) (by decide)

end AlphaOS.Console
