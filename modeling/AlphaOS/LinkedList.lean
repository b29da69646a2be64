import Mathlib

/-! Doubly linked lists given by two link functions over arbitrary pointers: the nodes
visited along a link, and how linking a node behind the last one or unlinking the last
one changes them. -/
namespace AlphaOS.LinkedList

variable {α : Type*} {f g : α → α} {null p q r : α} {l m : List α}

/-- From `p` the link `f` visits exactly the nodes of the list and then reaches `q`. -/
def Reaches (f : α → α) : α → List α → α → Prop
  | p, [], q => p = q
  | p, x :: l, q => p = x ∧ Reaches f (f x) l q

lemma Reaches.append (h : Reaches f p l q) (h' : Reaches f q m r) : Reaches f p (l ++ m) r := by
  induction l generalizing p with
  | nil =>
    obtain rfl : p = q := h
    exact h'
  | cons x l ih => exact ⟨h.1, ih h.2⟩

lemma reaches_append : Reaches f p (l ++ m) r ↔ ∃ q, Reaches f p l q ∧ Reaches f q m r := by
  constructor
  · intro h
    induction l generalizing p with
    | nil => exact ⟨p, rfl, h⟩
    | cons x l ih =>
      obtain ⟨q, hl, hm⟩ := ih h.2
      exact ⟨q, ⟨h.1, hl⟩, hm⟩
  · rintro ⟨q, hl, hm⟩
    exact hl.append hm

@[simp] lemma reaches_concat {x : α} : Reaches f p (l ++ [x]) q ↔ Reaches f p l x ∧ f x = q := by
  rw [reaches_append]
  constructor
  · rintro ⟨_, hl, rfl, hx⟩
    exact ⟨hl, hx⟩
  · rintro ⟨hl, hx⟩
    exact ⟨x, hl, rfl, hx⟩

/-- Only the links of the visited nodes matter. -/
lemma Reaches.congr (h : Reaches f p l q) (hfg : ∀ x ∈ l, g x = f x) : Reaches g p l q := by
  induction l generalizing p with
  | nil => exact h
  | cons x l ih =>
    refine ⟨h.1, ?_⟩
    rw [hfg x (by simp)]
    exact ih h.2 fun y hy => hfg y (by simp [hy])

/-- A link visits the same nodes whenever it is followed to an end that is none of them. -/
lemma Reaches.unique (h : Reaches f p l q) (h' : Reaches f p m q) (hl : q ∉ l) (hm : q ∉ m) : l = m := by
  induction l generalizing p m with
  | nil =>
    obtain rfl : p = q := h
    cases m with
    | nil => rfl
    | cons y m => exact absurd (h'.1 ▸ List.mem_cons_self) hm
  | cons x l ih =>
    cases m with
    | nil =>
      obtain rfl : p = q := h'
      exact absurd (h.1 ▸ List.mem_cons_self) hl
    | cons y m =>
      obtain rfl : x = y := h.1.symm.trans h'.1
      rw [ih h.2 h'.2 (fun hin => hl (List.mem_cons_of_mem x hin)) fun hin => hm (List.mem_cons_of_mem x hin)]

/-- A doubly linked list: `next` from the head and `prev` from the tail visit the same
distinct nodes in opposite orders, up to null. -/
structure Linked (next prev : α → α) (null head tail : α) (l : List α) : Prop where
  forward : Reaches next head l null
  backward : Reaches prev tail l.reverse null
  nodup : l.Nodup
  ne_null : ∀ x ∈ l, x ≠ null

variable {next prev next' prev' : α → α} {head tail : α}

lemma Linked.unique (h : Linked next prev null head tail l) (h' : Linked next prev null head tail m) :
    l = m :=
  h.forward.unique h'.forward (fun hin => h.ne_null _ hin rfl) fun hin => h'.ne_null _ hin rfl

lemma Linked.nil : Linked next prev null null null [] := ⟨rfl, rfl, List.nodup_nil, by simp⟩

lemma Linked.eq_nil_iff (h : Linked next prev null head tail l) : l = [] ↔ head = null := by
  cases l with
  | nil => exact iff_of_true rfl h.forward
  | cons x l =>
    refine iff_of_false (by simp) fun hnull => h.ne_null x (by simp) ?_
    rw [← h.forward.1, hnull]

lemma Linked.head_mem (h : Linked next prev null head tail l) (hl : l ≠ []) : head ∈ l := by
  cases l with
  | nil => exact absurd rfl hl
  | cons x l => simp [h.forward.1]

lemma Linked.tail_eq {x : α} (h : Linked next prev null head tail (l ++ [x])) : tail = x := by
  have hback := h.backward
  rw [List.reverse_append] at hback
  exact hback.1

lemma Linked.tail_mem (h : Linked next prev null head tail l) (hl : l ≠ []) : tail ∈ l := by
  cases l using List.reverseRecOn with
  | nil => exact absurd rfl hl
  | append_singleton l x => simp [h.tail_eq]

/-- The other direction of the same list. -/
lemma Linked.symm (h : Linked next prev null head tail l) :
    Linked prev next null tail head l.reverse :=
  ⟨h.backward, by rw [List.reverse_reverse]; exact h.forward, List.nodup_reverse.2 h.nodup,
    fun x hx => h.ne_null x (List.mem_reverse.1 hx)⟩

lemma Linked.next_eq {x y : α} (h : Linked next prev null head tail (l ++ x :: y :: m)) :
    next x = y := by
  obtain ⟨_, -, -, hx⟩ := reaches_append.1 h.forward
  exact hx.1

lemma Linked.prev_eq {x y : α} (h : Linked next prev null head tail (l ++ x :: y :: m)) :
    prev y = x := by
  have h' := h.symm
  rw [show (l ++ x :: y :: m).reverse = m.reverse ++ y :: x :: l.reverse by simp] at h'
  exact h'.next_eq

/-- Every link of a node leads to a node or to null. -/
lemma Linked.next_mem (h : Linked next prev null head tail l) {x : α} (hx : x ∈ l) :
    next x = null ∨ next x ∈ l := by
  obtain ⟨a, b, rfl⟩ := List.mem_iff_append.1 hx
  cases b with
  | nil => exact .inl (reaches_concat.1 h.forward).2
  | cons y b =>
    rw [h.next_eq]
    exact .inr (by simp)

lemma Linked.prev_mem (h : Linked next prev null head tail l) {x : α} (hx : x ∈ l) :
    prev x = null ∨ prev x ∈ l := by
  rcases h.symm.next_mem (List.mem_reverse.2 hx) with h0 | hmem
  · exact .inl h0
  · exact .inr (List.mem_reverse.1 hmem)

/-- A new node linked behind the tail of a list. -/
theorem Linked.concat (h : Linked next prev null head tail l) (hl : l ≠ []) {x : α} (hx : x ∉ l)
    (hnull : x ≠ null) (htail : next' tail = x) (hlast : next' x = null) (hback : prev' x = tail)
    (hnext : ∀ y ∈ l, y ≠ tail → next' y = next y) (hprev : ∀ y ∈ l, prev' y = prev y) :
    Linked next' prev' null head x (l ++ [x]) := by
  refine ⟨?_, ?_, ?_, ?_⟩
  · cases l using List.reverseRecOn with
    | nil => exact absurd rfl hl
    | append_singleton l z =>
      have hz := h.tail_eq
      subst hz
      have hforward := (reaches_concat.1 h.forward).1
      have hnot : ∀ y ∈ l, y ≠ tail := fun y hy heq =>
        (List.nodup_append.1 h.nodup).2.2 y hy tail (by simp) heq
      rw [reaches_concat, reaches_concat]
      exact ⟨⟨hforward.congr fun y hy => hnext y (by simp [hy]) (hnot y hy), htail⟩, hlast⟩
  · rw [List.reverse_append]
    refine ⟨rfl, ?_⟩
    rw [hback]
    exact h.backward.congr fun y hy => hprev y (List.mem_reverse.1 hy)
  · refine List.nodup_append.2 ⟨h.nodup, List.nodup_singleton x, fun y hy z hz heq => hx ?_⟩
    rw [List.mem_singleton.1 hz] at heq
    exact heq ▸ hy
  · intro y hy
    rcases List.mem_append.1 hy with hy | hy
    · exact h.ne_null y hy
    · rw [List.mem_singleton.1 hy]
      exact hnull

/-- The last of several nodes unlinked. -/
theorem Linked.dropLast {x z : α} (h : Linked next prev null head tail (l ++ [z, x]))
    (hlast : next' z = null) (hnext : ∀ y ∈ l, next' y = next y)
    (hprev : ∀ y ∈ l ++ [z], prev' y = prev y) : Linked next' prev' null head z (l ++ [z]) := by
  have hsplit : l ++ [z, x] = (l ++ [z]) ++ [x] := by simp
  have hforward := h.forward
  have hbackward := h.backward
  rw [hsplit] at hforward hbackward
  have hz := (reaches_concat.1 (reaches_concat.1 hforward).1).1
  refine ⟨reaches_concat.2 ⟨hz.congr hnext, hlast⟩, ?_, ?_, fun y hy => h.ne_null y ?_⟩
  · rw [List.reverse_append] at hbackward
    have htail : Reaches prev z (l ++ [z]).reverse null := by
      have hrest := hbackward.2
      rw [List.reverse_append] at hrest ⊢
      exact ⟨rfl, hrest.2⟩
    exact htail.congr fun y hy => hprev y (List.mem_reverse.1 hy)
  · have hnodup := h.nodup
    rw [hsplit] at hnodup
    exact (List.nodup_append.1 hnodup).1
  · rw [hsplit]
    exact List.mem_append_left _ hy

/-- The successor around the end of the list. -/
def wrapNext [DecidableEq α] (next : α → α) (null head x : α) : α :=
  if next x = null then head else next x

lemma Reaches.isChain (h : Reaches f p l q) : l.IsChain fun x y => f x = y := by
  induction l generalizing p with
  | nil => simp
  | cons x l ih =>
    cases l with
    | nil => simp
    | cons y l => exact List.isChain_cons_cons.2 ⟨h.2.1, ih h.2⟩

/-- From a node of the list around to the same node each is the successor of the one before. -/
theorem Linked.isChain_wrap [DecidableEq α] {c : α}
    (h : Linked next prev null head tail (l ++ c :: m)) :
    ((c :: m) ++ (l ++ [c])).IsChain fun x y => wrapNext next null head x = y := by
  have hwrap : ∀ x y, next x = y → y ∈ l ++ c :: m → wrapNext next null head x = y := by
    intro x y hxy hy
    rw [wrapNext, hxy, if_neg (h.ne_null y hy)]
  have hinside : (l ++ c :: m).IsChain fun x y => wrapNext next null head x = y :=
    h.forward.isChain.imp_of_mem_imp fun x y _ hy hxy => hwrap x y hxy hy
  have hsplit := List.isChain_append.1 hinside
  have hfront : (l ++ [c]).IsChain fun x y => wrapNext next null head x = y := by
    have hsame : l ++ c :: m = (l ++ [c]) ++ m := by simp
    rw [hsame] at hinside
    exact (List.isChain_append.1 hinside).1
  refine List.isChain_append.2 ⟨hsplit.2.1, hfront, fun x hx y hy => ?_⟩
  -- the last node is followed by the head
  have hlast : next x = null := by
    obtain ⟨m', hm'⟩ := List.getLast?_eq_some_iff.1 hx
    have hforward := h.forward
    rw [hm', ← List.append_assoc] at hforward
    exact (reaches_concat.1 hforward).2
  have hhead : y = head := by
    cases l with
    | nil =>
      cases hy
      exact h.forward.1.symm
    | cons z l =>
      cases hy
      exact h.forward.1.symm
  rw [wrapNext, if_pos hlast, hhead]

end AlphaOS.LinkedList
