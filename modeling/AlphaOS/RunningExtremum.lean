import Mathlib

/-! A running choice of the best item of a list. It keeps the item it has unless the next one is
better, or the value of the one it has is the marker that stands for no item, and the marker may
be the value of an item. -/
namespace AlphaOS.RunningExtremum

variable {α β : Type*} (better : α → α → Prop) [DecidableRel better] [DecidableEq α]
  (value : β → α) (unset : α)

def keep : Option β → β → Option β
  | none, b => some b
  | some a, b => if better (value b) (value a) ∨ value a = unset then some b else some a

/-- The item kept of a list. -/
def kept (bs : List β) : Option β := bs.foldl (keep better value unset) none

/-- No other item is better than one with the marker's value. -/
def UnsetWorst (bs : List β) : Prop :=
  ∀ a ∈ bs, value a = unset → ∀ b ∈ bs, better (value b) (value a)

variable {better value unset} {bs cs : List β} {a b c : β}

@[simp] lemma kept_nil : kept better value unset [] = none := rfl

@[simp] lemma kept_concat (bs : List β) (b : β) :
    kept better value unset (bs ++ [b]) = keep better value unset (kept better value unset bs) b := by
  rw [kept, List.foldl_append]
  rfl

lemma keep_ne_none (best : Option β) (b : β) : keep better value unset best b ≠ none := by
  cases best with
  | none => simp [keep]
  | some a =>
    rw [keep]
    split_ifs <;> simp

@[simp] lemma kept_eq_none : kept better value unset bs = none ↔ bs = [] := by
  refine ⟨fun h => ?_, fun h => by simp [h]⟩
  rcases List.eq_nil_or_concat' bs with hnil | ⟨cs, b, rfl⟩
  · exact hnil
  · rw [kept_concat] at h
    exact absurd h (keep_ne_none _ _)

lemma exists_kept (hne : bs ≠ []) : ∃ a, kept better value unset bs = some a :=
  Option.ne_none_iff_exists'.1 (mt kept_eq_none.1 hne)

lemma kept_mem (h : kept better value unset bs = some a) : a ∈ bs := by
  induction bs using List.reverseRecOn generalizing a with
  | nil => cases h
  | append_singleton bs b ih =>
    rw [kept_concat] at h
    cases hbest : kept better value unset bs with
    | none =>
      rw [hbest, keep, Option.some.injEq] at h
      simp [h]
    | some c =>
      rw [hbest, keep] at h
      split_ifs at h
      · simp [Option.some.inj h]
      · obtain rfl := Option.some.inj h
        simp [ih hbest]

omit [DecidableRel better] [DecidableEq α] in
lemma UnsetWorst.perm (h : UnsetWorst better value unset bs) (hperm : cs.Perm bs) :
    UnsetWorst better value unset cs :=
  fun a ha hunset b hb => h a (hperm.mem_iff.1 ha) hunset b (hperm.mem_iff.1 hb)

/-- A step keeps the better one of two items, if the marker's value is not the better one. -/
lemma keep_best [Std.Total better] (hworst : value a = unset → better (value b) (value a))
    (h : keep better value unset (some a) b = some c) :
    better (value c) (value a) ∧ better (value c) (value b) := by
  have hrefl : ∀ x, better x x := fun x => (Std.Total.total x x).elim id id
  rw [keep] at h
  split_ifs at h with hnext
  · obtain rfl := Option.some.inj h
    exact ⟨hnext.elim id hworst, hrefl _⟩
  · obtain rfl := Option.some.inj h
    exact ⟨hrefl _, (Std.Total.total _ _).resolve_right fun hba => hnext (.inl hba)⟩

/-- The item kept is a best one if none is better than one with the marker's value. -/
theorem kept_best [Std.Total better] [IsTrans α better] (hworst : UnsetWorst better value unset bs)
    (h : kept better value unset bs = some a) : ∀ b ∈ bs, better (value a) (value b) := by
  induction bs using List.reverseRecOn generalizing a with
  | nil => cases h
  | append_singleton bs b ih =>
    rw [kept_concat] at h
    cases hbest : kept better value unset bs with
    | none =>
      obtain rfl := kept_eq_none.1 hbest
      rw [hbest, keep, Option.some.injEq] at h
      intro x hx
      obtain rfl : x = b := by simpa using hx
      exact h ▸ (Std.Total.total _ _).elim id id
    | some c =>
      have hcbest := ih (fun x hx hunset y hy => hworst x (by simp [hx]) hunset y (by simp [hy])) hbest
      have hcmem : c ∈ bs ++ [b] := by simp [kept_mem hbest]
      rw [hbest] at h
      obtain ⟨hac, hab⟩ := keep_best (fun hunset => hworst c hcmem hunset b (by simp)) h
      intro x hx
      rcases List.mem_append.1 hx with hx | hx
      · exact IsTrans.trans _ _ _ hac (hcbest x hx)
      · obtain rfl := List.mem_singleton.1 hx
        exact hab

/-- A last item with another value than the marker's is kept or leaves one with another value. -/
lemma kept_concat_ne_unset (hb : value b ≠ unset)
    (h : kept better value unset (bs ++ [b]) = some a) : value a ≠ unset := by
  rw [kept_concat] at h
  cases hbest : kept better value unset bs with
  | none =>
    rw [hbest, keep, Option.some.injEq] at h
    rwa [← h]
  | some c =>
    rw [hbest, keep] at h
    split_ifs at h with hnext
    · rwa [← Option.some.inj h]
    · rw [← Option.some.inj h]
      exact fun hunset => hnext (.inr hunset)

/-- Every order of the items keeps one of the same value exactly when none is better than one with
the marker's value, as long as the marker is better than all other values. -/
theorem kept_perm_iff [Std.Total better] [IsTrans α better] [Std.Antisymm better]
    (hne : bs ≠ []) (hunset : ∀ b ∈ bs, better unset (value b)) :
    (∀ cs, cs.Perm bs → ∃ c, kept better value unset cs = some c ∧
      ∀ b ∈ bs, better (value c) (value b)) ↔ UnsetWorst better value unset bs := by
  constructor
  · intro h a ha haunset b hb
    by_contra hnot
    have hbne : value b ≠ unset := by
      intro hbunset
      rw [haunset, hbunset] at hnot
      exact hnot ((Std.Total.total unset unset).elim id id)
    obtain ⟨front, back, rfl⟩ := List.append_of_mem hb
    -- with `b` last the marker's value is lost
    have hperm : (front ++ back ++ [b]).Perm (front ++ b :: back) := by
      rw [List.append_assoc]
      exact List.Perm.append_left front (List.perm_append_singleton b back)
    obtain ⟨c, hkept, hbest⟩ := h _ hperm
    have hcmem := hperm.mem_iff.1 (kept_mem hkept)
    have hcunset := hbest a ha
    rw [haunset] at hcunset
    exact kept_concat_ne_unset hbne hkept (Std.Antisymm.antisymm _ _ hcunset (hunset c hcmem))
  · intro hworst cs hperm
    have hcne : cs ≠ [] := by
      rintro rfl
      exact hne hperm.nil_eq.symm
    obtain ⟨c, hkept⟩ : ∃ c, kept better value unset cs = some c := exists_kept hcne
    exact ⟨c, hkept, fun b hb => kept_best (hworst.perm hperm) hkept b (hperm.mem_iff.2 hb)⟩

end AlphaOS.RunningExtremum
