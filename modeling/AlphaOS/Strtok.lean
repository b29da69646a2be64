import AlphaOS.CString
import AlphaOS.Words

/-! `strtok` of the programs' library, which keeps its place in the string in a global. A loop that
waits for a terminator has a bound and gives nothing when the bound is reached first. -/
namespace AlphaOS.Stdlib
open CString WordMemory Words

/-- The memory of a program, the global `sp` of the tokenizer, and what `malloc` is going to return. -/
structure Program where
  mem : Mem
  sp : Word
  results : List Word

/-- The loop over the delimiters before a token. `i` is where the loop inside ends. -/
def strtokSkip (delim : List Byte) (mem : Mem) : ℕ → Word → Option Word
  | 0, _ => none
  | fuel + 1, pStart =>
    let i := delim.idxOf (mem pStart)
    if i = delim.length then some pStart else strtokSkip delim mem fuel (pStart + 1)

/-- The loop over the token, which ends it with a zero. -/
def strtokEnd (delim : List Byte) : ℕ → Word → Mem → Option (Word × Mem)
  | 0, _, _ => none
  | fuel + 1, sp, mem =>
    if mem sp = 0 then some (sp, mem) else
    let i := delim.idxOf (mem sp)
    if i < delim.length then some (sp + 1, Function.update mem sp 0)
    else strtokEnd delim fuel (sp + 1) mem

/-- A new string is taken only when there is no old one. -/
def strtok (fuel : ℕ) (str : Word) (delim : List Byte) (s : Program) : Option (Word × Program) :=
  if str = 0 ∧ s.sp = 0 then some (0, s) else
  let sp := if str ≠ 0 ∧ s.sp = 0 then str else s.sp
  (strtokSkip delim s.mem fuel sp).bind fun pStart =>
  if s.mem pStart = 0 then some (0, { s with sp := 0 }) else
  (strtokEnd delim fuel pStart s.mem).map fun (sp, mem) => (pStart, { s with mem := mem, sp := sp })

/-- The string `rest` at `p`, within the 1025 bytes of a buffer. -/
structure Left (mem : Mem) (buffer p : Word) (rest : List Byte) : Prop where
  place : ∃ q, p = buffer + BitVec.ofNat 32 q ∧ q + rest.length < 1025
  ne_zero : p ≠ 0
  bytes : BytesAt mem p (rest ++ [0])
  nonzero : 0 ∉ rest

/-- The tokenizer has returned `token` and is going to return the words behind the first one. When
there are no more it has forgotten its place. -/
def Ready (s : Program) (buffer token : Word) : List (List Byte) → Prop
  | [] => token = 0 ∧ s.sp = 0
  | w :: ws => Left s.mem buffer token w ∧ ∃ rest, Left s.mem buffer s.sp rest ∧ words 32 rest = ws

variable {mem mem' : Mem} {s : Program} {buffer p token : Word} {rest w : List Byte} {fuel : ℕ} {c : Byte}
  {ws : List (List Byte)}

lemma idxOf_space (c : Byte) : List.idxOf c [32] = if c = 32 then 0 else 1 := by
  by_cases hc : c = 32
  · simp [hc]
  · have hnot : c ∉ ([32] : List Byte) := by simpa using hc
    rw [List.idxOf_eq_length hnot, if_neg hc]
    rfl

lemma add_succ_ofNat (p : Word) (k : ℕ) :
    p + BitVec.ofNat 32 (k + 1) = p + 1 + BitVec.ofNat 32 k :=
  (add_one_add p k).symm

/-- The spaces before a word. -/
lemma strtokSkip_spec (h : BytesAt mem p (rest ++ [0])) (hrest : 0 ∉ rest) (hfuel : rest.length < fuel) :
    ∃ k ≤ rest.length, strtokSkip [32] mem fuel p = some (p + BitVec.ofNat 32 k) ∧
      words 32 (rest.drop k) = words 32 rest ∧ (rest.drop k).head? ≠ some 32 := by
  induction rest generalizing p fuel with
  | nil =>
    cases fuel with
    | zero => simp at hfuel
    | succ fuel =>
      have hend : mem p = 0 := h.1
      refine ⟨0, le_rfl, ?_, rfl, by simp⟩
      rw [strtokSkip, hend, BitVec.add_zero]
      rfl
  | cons c rest ih =>
    cases fuel with
    | zero => simp at hfuel
    | succ fuel =>
      have hfirst : mem p = c := h.1
      rw [strtokSkip, hfirst, idxOf_space]
      by_cases hc : c = 32
      · obtain ⟨k, hk, hskip, hwords, hhead⟩ :=
          ih h.2 (fun h0 => hrest (List.mem_cons_of_mem c h0)) (by simpa using hfuel)
        refine ⟨k + 1, Nat.succ_le_succ hk, ?_, ?_, hhead⟩
        · rw [if_pos hc, add_succ_ofNat]
          exact hskip
        · rw [List.drop_succ_cons, hwords, hc, words_sep]
      · refine ⟨0, Nat.zero_le _, ?_, rfl, by simpa using hc⟩
        rw [if_neg hc, BitVec.add_zero]
        rfl

/-- A word that ends its string. -/
lemma strtokEnd_last (h : BytesAt mem p (w ++ [0])) (hw : 0 ∉ w) (hspace : 32 ∉ w)
    (hfuel : w.length < fuel) :
    strtokEnd [32] fuel p mem = some (p + BitVec.ofNat 32 w.length, mem) := by
  induction w generalizing p fuel with
  | nil =>
    cases fuel with
    | zero => simp at hfuel
    | succ fuel =>
      rw [strtokEnd, if_pos h.1, List.length_nil, BitVec.add_zero]
  | cons c w ih =>
    cases fuel with
    | zero => simp at hfuel
    | succ fuel =>
      have hfirst : mem p = c := h.1
      have hne : c ≠ 0 := fun h0 => hw (h0 ▸ List.mem_cons_self)
      have hc : c ≠ 32 := fun h0 => hspace (h0 ▸ List.mem_cons_self)
      rw [strtokEnd, hfirst, if_neg hne, idxOf_space, if_neg hc, if_neg (by simp), List.length_cons,
        add_succ_ofNat]
      exact ih h.2 (fun h0 => hw (List.mem_cons_of_mem c h0))
        (fun h0 => hspace (List.mem_cons_of_mem c h0)) (by simpa using hfuel)

/-- A word with a space behind it. -/
lemma strtokEnd_space (h : BytesAt mem p (w ++ [32])) (hw : 0 ∉ w) (hspace : 32 ∉ w)
    (hfuel : w.length < fuel) :
    strtokEnd [32] fuel p mem = some (p + BitVec.ofNat 32 (w.length + 1),
      Function.update mem (p + BitVec.ofNat 32 w.length) 0) := by
  induction w generalizing p fuel with
  | nil =>
    cases fuel with
    | zero => simp at hfuel
    | succ fuel =>
      have hfirst : mem p = 32 := h.1
      rw [strtokEnd, hfirst, if_neg (by decide), List.length_nil, BitVec.add_zero]
      rfl
  | cons c w ih =>
    cases fuel with
    | zero => simp at hfuel
    | succ fuel =>
      have hfirst : mem p = c := h.1
      have hne : c ≠ 0 := fun h0 => hw (h0 ▸ List.mem_cons_self)
      have hc : c ≠ 32 := fun h0 => hspace (h0 ▸ List.mem_cons_self)
      rw [strtokEnd, hfirst, if_neg hne, idxOf_space, if_neg hc, if_neg (by simp), List.length_cons,
        add_succ_ofNat p (w.length + 1), add_succ_ofNat p w.length]
      exact ih h.2 (fun h0 => hw (List.mem_cons_of_mem c h0))
        (fun h0 => hspace (List.mem_cons_of_mem c h0)) (by simpa using hfuel)

/-! The string that is left. -/

lemma Left.drop (h : Left mem buffer p rest) (hbuffer : buffer.toNat + 1025 ≤ 2 ^ 32) {k : ℕ}
    (hk : k ≤ rest.length) : Left mem buffer (p + BitVec.ofNat 32 k) (rest.drop k) := by
  obtain ⟨⟨q, rfl, hq⟩, hne, hbytes, hnonzero⟩ := h
  have hsum : buffer + BitVec.ofNat 32 q + BitVec.ofNat 32 k = buffer + BitVec.ofNat 32 (q + k) := by
    rw [add_assoc, BitVec.ofNat_add]
  refine ⟨⟨q + k, hsum, ?_⟩, ?_, ?_, fun h0 => hnonzero (List.mem_of_mem_drop h0)⟩
  · rw [List.length_drop]
    omega
  · intro h0
    have hp := toNat_add_ofNat (a := buffer) (k := q) (by omega)
    have hpk := toNat_add_ofNat (a := buffer) (k := q + k) (by omega)
    rw [hsum] at h0
    rw [h0] at hpk
    apply hne
    apply BitVec.eq_of_toNat_eq
    change 0 = _ at hpk
    change _ = 0
    omega
  · have hsplit : rest ++ [0] = rest.take k ++ (rest.drop k ++ [0]) := by
      rw [← List.append_assoc, List.take_append_drop]
    rw [hsplit, bytesAt_append, List.length_take, Nat.min_eq_left hk] at hbytes
    exact hbytes.2

/-- A place in a string that is left. -/
lemma Left.inRange (h : Left mem buffer p rest) {k : ℕ} (hk : k ≤ rest.length) :
    InRange buffer 1025 (p + BitVec.ofNat 32 k) := by
  obtain ⟨⟨q, rfl, hq⟩, -, -, -⟩ := h
  rw [InRange, add_assoc, add_sub_cancel_left, ← BitVec.ofNat_add, BitVec.toNat_ofNat]
  omega

lemma Left.congr (h : Left mem buffer p rest) (hsame : ∀ x, InRange buffer 1025 x → mem' x = mem x) :
    Left mem' buffer p rest := by
  refine ⟨h.place, h.ne_zero, h.bytes.congr fun n hn => ?_, h.nonzero⟩
  rw [List.length_append, List.length_singleton] at hn
  exact hsame _ (h.inRange (by omega))

lemma Ready.congr {s' : Program} (h : Ready s buffer token ws) (hsp : s'.sp = s.sp)
    (hsame : ∀ x, InRange buffer 1025 x → s'.mem x = s.mem x) : Ready s' buffer token ws := by
  cases ws with
  | nil => exact ⟨h.1, hsp.trans h.2⟩
  | cons w ws =>
    obtain ⟨hfirst, rest, hrest, hwords⟩ := h
    refine ⟨hfirst.congr hsame, rest, ?_, hwords⟩
    rw [hsp]
    exact hrest.congr hsame

/-- A word with a space behind it, after the space was overwritten: the word and what follows. -/
lemma Left.cut {r : List Byte} (h : Left mem buffer p (w ++ 32 :: r))
    (hbuffer : buffer.toNat + 1025 ≤ 2 ^ 32) :
    Left (Function.update mem (p + BitVec.ofNat 32 w.length) 0) buffer p w ∧
    Left (Function.update mem (p + BitVec.ofNat 32 w.length) 0) buffer
      (p + BitVec.ofNat 32 (w.length + 1)) r := by
  obtain ⟨q, hq, hlen⟩ := h.place
  rw [List.length_append, List.length_cons] at hlen
  constructor
  · have hw : BytesAt mem p w := by
      have hbytes := h.bytes
      rw [List.append_assoc, bytesAt_append] at hbytes
      exact hbytes.1
    refine ⟨⟨q, hq, by omega⟩, h.ne_zero, bytesAt_append.2 ⟨?_, Function.update_self _ _ _, trivial⟩,
      fun h0 => h.nonzero (List.mem_append_left _ h0)⟩
    exact hw.congr fun n hn =>
      Function.update_of_ne (add_ofNat_ne (by omega) (by omega) (by omega) p) _ _
  · have hdrop := h.drop hbuffer (k := w.length + 1) (by simp)
    rw [← List.drop_drop, List.drop_left, List.drop_one, List.tail_cons] at hdrop
    refine ⟨hdrop.place, hdrop.ne_zero, hdrop.bytes.congr fun n hn => ?_, hdrop.nonzero⟩
    rw [List.length_append, List.length_singleton] at hn
    rw [add_assoc, ← BitVec.ofNat_add]
    exact Function.update_of_ne (add_ofNat_ne (by omega) (by omega) (by omega) p) _ _

/-- A call of `strtok` on the string `rest`, whether it is new or left over: its first word is the
token, and the others come next. Only the buffer changes. -/
theorem strtok_ready {str : Word} (hleft : Left s.mem buffer p rest)
    (hbuffer : buffer.toNat + 1025 ≤ 2 ^ 32) (hfuel : 1025 ≤ fuel)
    (hplace : str = 0 ∧ s.sp = p ∨ str = p ∧ s.sp = 0) :
    ∃ token s', strtok fuel str [32] s = some (token, s') ∧ Ready s' buffer token (words 32 rest) ∧
      s'.results = s.results ∧ ∀ x, ¬ InRange buffer 1025 x → s'.mem x = s.mem x := by
  obtain ⟨q, -, hq⟩ := hleft.place
  have hstart : strtok fuel str [32] s = (strtokSkip [32] s.mem fuel p).bind fun pStart =>
      if s.mem pStart = 0 then some (0, { s with sp := 0 }) else
      (strtokEnd [32] fuel pStart s.mem).map fun r => (pStart, { s with mem := r.2, sp := r.1 }) := by
    rw [strtok]
    rcases hplace with ⟨rfl, hsp⟩ | ⟨rfl, hsp⟩
    · rw [if_neg fun h0 => hleft.ne_zero (hsp.symm.trans h0.2), if_neg fun h0 => h0.1 rfl, hsp]
    · rw [if_neg fun h0 => hleft.ne_zero h0.1, if_pos ⟨hleft.ne_zero, hsp⟩]
  obtain ⟨k, hk, hskip, hwords, hhead⟩ := strtokSkip_spec hleft.bytes hleft.nonzero
    (show rest.length < fuel by omega)
  have hdrop := hleft.drop hbuffer hk
  have hshort : (rest.drop k).length ≤ rest.length := by
    rw [List.length_drop]
    exact Nat.sub_le _ _
  rw [hstart, hskip, Option.bind_some, ← hwords]
  generalize rest.drop k = d at hdrop hhead hshort
  cases d with
  | nil =>
    rw [if_pos hdrop.bytes.1]
    exact ⟨0, _, rfl, ⟨rfl, rfl⟩, rfl, fun _ _ => rfl⟩
  | cons c d =>
    have hne : s.mem (p + BitVec.ofNat 32 k) ≠ 0 := by
      rw [hdrop.bytes.1]
      exact fun h0 => hdrop.nonzero (h0 ▸ List.mem_cons_self)
    rw [if_neg hne]
    by_cases hspace : 32 ∈ c :: d
    · obtain ⟨w, r, heq, hw⟩ := List.eq_append_cons_of_mem hspace
      rw [heq] at hdrop hhead hshort ⊢
      have hword : w ≠ [] := by
        rintro rfl
        exact hhead rfl
      have hbytes := hdrop.bytes
      rw [show w ++ 32 :: r ++ [0] = w ++ [32] ++ (r ++ [0]) by simp, bytesAt_append] at hbytes
      rw [List.length_append] at hshort
      have hend := strtokEnd_space hbytes.1 (fun h0 => hdrop.nonzero (List.mem_append_left _ h0)) hw
        (show w.length < fuel by omega)
      obtain ⟨hfirst, hrest⟩ := hdrop.cut hbuffer
      rw [hend, words_append hword hw]
      refine ⟨_, _, rfl, ⟨hfirst, r, hrest, rfl⟩, rfl, fun x hx => ?_⟩
      apply Function.update_of_ne
      rintro rfl
      exact hx (hdrop.inRange (by simp))
    · have hend := strtokEnd_last hdrop.bytes hdrop.nonzero hspace (show _ < fuel by omega)
      rw [hend, words_eq_singleton (List.cons_ne_nil c d) hspace]
      have hlast := hdrop.drop hbuffer (le_refl (c :: d).length)
      rw [List.drop_length] at hlast
      exact ⟨_, _, rfl, ⟨hdrop, [], hlast, rfl⟩, rfl, fun _ _ => rfl⟩

end AlphaOS.Stdlib
