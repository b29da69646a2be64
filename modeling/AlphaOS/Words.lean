import Mathlib

/-! The words of a list: its maximal runs without a separator. -/
namespace AlphaOS.Words

variable {α : Type*} [DecidableEq α] {sep c : α} {s w : List α}

def words (sep : α) (s : List α) : List (List α) := (s.splitOn sep).filter (· ≠ [])

@[simp] lemma words_nil (sep : α) : words sep [] = [] := rfl

@[simp] lemma words_sep (sep : α) (s : List α) : words sep (sep :: s) = words sep s := by
  have hnone : sep ∉ ([] : List α) := by simp
  have hsplit : ([] ++ sep :: s).splitOn sep = [] :: s.splitOn sep :=
    List.splitOn_append_cons_self_of_not_mem hnone s
  rw [List.nil_append] at hsplit
  simp [words, hsplit]

/-- A word alone. -/
lemma words_eq_singleton (hw : w ≠ []) (hsep : sep ∉ w) : words sep w = [w] := by
  simp [words, List.splitOn_eq_singleton hsep, hw]

/-- A word, its separator and what follows. -/
lemma words_append (hw : w ≠ []) (hsep : sep ∉ w) (s : List α) :
    words sep (w ++ sep :: s) = w :: words sep s := by
  have hsplit : (w ++ sep :: s).splitOn sep = w :: s.splitOn sep :=
    List.splitOn_append_cons_self_of_not_mem hsep s
  simp [words, hsplit, hw]

/-- There are no words exactly when there are only separators. -/
lemma words_eq_nil_iff : words sep s = [] ↔ ∀ c ∈ s, c = sep := by
  induction s with
  | nil => simp
  | cons c s ih =>
    by_cases hc : c = sep
    · subst hc
      simpa using ih
    · have hmem : ¬ ∀ d ∈ c :: s, d = sep := fun h => hc (h c List.mem_cons_self)
      refine iff_of_false (fun hnil => ?_) hmem
      by_cases hsep : sep ∈ c :: s
      · obtain ⟨w, r, heq, hw⟩ := List.eq_append_cons_of_mem hsep
        have hne : w ≠ [] := by
          rintro rfl
          exact hc (List.cons.inj heq).1
        rw [heq, words_append hne hw] at hnil
        exact List.cons_ne_nil _ _ hnil
      · rw [words_eq_singleton (List.cons_ne_nil c s) hsep] at hnil
        exact List.cons_ne_nil _ _ hnil

lemma length_splitOn_le (sep : α) (s : List α) : (s.splitOn sep).length ≤ s.length + 1 := by
  induction s with
  | nil => rfl
  | cons c s ih =>
    rw [List.splitOn_cons_eq_if_modifyHead, List.length_cons]
    split_ifs
    · rw [List.length_cons]
      exact Nat.succ_le_succ ih
    · rw [List.length_modifyHead]
      exact ih.trans (Nat.le_succ _)

lemma length_words_le (sep : α) (s : List α) : (words sep s).length ≤ s.length + 1 :=
  (List.length_filter_le _ _).trans (length_splitOn_le sep s)

example : words 0 [0, 1, 2, 0, 0, 3] = [[1, 2], [3]] := by decide

end AlphaOS.Words
