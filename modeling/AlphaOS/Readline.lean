import AlphaOS.Itoa

/-! Reading keys in a program: `__getkeyblock` and `terminal_readline` of the programs' library. -/
namespace AlphaOS.Stdlib
open CString WordMemory

/-! Waiting for a key. A program sees a stream of results of `__getkey`, 0 for no key. -/

/-- The loop of `__getkeyblock` from result `i` on, with the value and the place of the next result. -/
def getkeyblockLoop (getkey : ℕ → Word) : ℕ → ℕ → Option (Word × ℕ)
  | 0, _ => none
  | fuel + 1, i =>
    let val := getkey i
    if val = 0 then getkeyblockLoop getkey fuel (i + 1) else some (val, i + 1)

/-- The first result goes to `val`, which the loop sets again before it looks at it. -/
def getkeyblock (getkey : ℕ → Word) (fuel i : ℕ) : Option (Word × ℕ) :=
  getkeyblockLoop getkey fuel (i + 1)

/-- Call number `n` of the calls one after the other begins at result `i`. -/
inductive Begins (getkey : ℕ → Word) : ℕ → ℕ → Prop
  | first : Begins getkey 0 0
  | next {n i j fuel : ℕ} {val : Word} (begins : Begins getkey n i)
      (returns : getkeyblock getkey fuel i = some (val, j)) : Begins getkey (n + 1) j

/-- Call number `n` returns the value of result `q`, the last one it asked for. -/
def Returns (getkey : ℕ → Word) (n q : ℕ) : Prop :=
  ∃ i fuel, Begins getkey n i ∧ getkeyblock getkey fuel i = some (getkey q, q + 1)

/-- Result `q` is keystroke number `n` of the stream. -/
def IsKeystroke (getkey : ℕ → Word) (n q : ℕ) : Prop :=
  getkey q ≠ 0 ∧ Nat.count (fun i => getkey i ≠ 0) q = n

variable {getkey : ℕ → Word} {fuel n i j q : ℕ} {val : Word}

/-- The loop returns the first key it meets. -/
lemma getkeyblockLoop_iff : (∃ fuel, getkeyblockLoop getkey fuel i = some (val, j)) ↔
    ∃ q, val = getkey q ∧ j = q + 1 ∧ i ≤ q ∧ getkey q ≠ 0 ∧ ∀ r, i ≤ r → r < q → getkey r = 0 := by
  constructor
  · rintro ⟨fuel, h⟩
    induction fuel generalizing i with
    | zero => simp [getkeyblockLoop] at h
    | succ fuel ih =>
      rw [getkeyblockLoop] at h
      split_ifs at h with hzero
      · obtain ⟨q, hval, hj, hle, hne, hbetween⟩ := ih h
        refine ⟨q, hval, hj, by omega, hne, fun r hr hrq => ?_⟩
        by_cases heq : r = i
        · rw [heq, hzero]
        · exact hbetween r (by omega) hrq
      · obtain ⟨rfl, rfl⟩ := Prod.mk.inj (Option.some.inj h)
        exact ⟨i, rfl, rfl, le_rfl, hzero, fun r _ _ => by omega⟩
  · rintro ⟨q, rfl, rfl, hle, hne, hbetween⟩
    obtain ⟨d, rfl⟩ := Nat.exists_eq_add_of_le hle
    refine ⟨d + 1, ?_⟩
    induction d generalizing i with
    | zero => exact if_neg hne
    | succ d ih =>
      rw [show i + (d + 1) = i + 1 + d by omega] at hne hbetween ⊢
      rw [getkeyblockLoop, if_pos (hbetween i le_rfl (by omega))]
      exact ih (by omega) hne fun r hr hrq => hbetween r (by omega) hrq

/-- A call returns the first key behind the result it begins at. -/
lemma getkeyblock_iff : (∃ fuel, getkeyblock getkey fuel i = some (val, j)) ↔
    ∃ q, val = getkey q ∧ j = q + 1 ∧ i < q ∧ getkey q ≠ 0 ∧ ∀ r, i < r → r < q → getkey r = 0 :=
  getkeyblockLoop_iff

lemma Begins.unique (h : Begins getkey n i) (h' : Begins getkey n j) : i = j := by
  induction h generalizing j with
  | first =>
    cases h'
    rfl
  | next hbegins hreturns ih =>
    cases h' with
    | next hbegins' hreturns' =>
      obtain rfl := ih hbegins'
      obtain ⟨q, -, rfl, hle, hne, hbetween⟩ := getkeyblock_iff.1 ⟨_, hreturns⟩
      obtain ⟨q', -, rfl, hle', hne', hbetween'⟩ := getkeyblock_iff.1 ⟨_, hreturns'⟩
      have hge : ¬ q < q' := fun hlt => hne (hbetween' q hle hlt)
      have hle : ¬ q' < q := fun hlt => hne' (hbetween q' hle' hlt)
      omega

lemma returns_iff : Returns getkey n q ↔
    ∃ i, Begins getkey n i ∧ i < q ∧ getkey q ≠ 0 ∧ ∀ r, i < r → r < q → getkey r = 0 := by
  constructor
  · rintro ⟨i, fuel, hbegins, hcall⟩
    obtain ⟨q', -, hq, hrest⟩ := getkeyblock_iff.1 ⟨fuel, hcall⟩
    obtain rfl : q = q' := by omega
    exact ⟨i, hbegins, hrest⟩
  · rintro ⟨i, hbegins, hrest⟩
    obtain ⟨fuel, hcall⟩ := getkeyblock_iff.2 ⟨q, rfl, rfl, hrest⟩
    exact ⟨i, fuel, hbegins, hcall⟩

/-- The keystrokes before a place do not change where there are none. -/
lemma count_between (hle : i ≤ q) (hbetween : ∀ r, i ≤ r → r < q → getkey r = 0) :
    Nat.count (fun i => getkey i ≠ 0) q = Nat.count (fun i => getkey i ≠ 0) i := by
  obtain ⟨d, rfl⟩ := Nat.exists_eq_add_of_le hle
  rw [Nat.count_add, Nat.add_eq_left, Nat.count_iff_forall_not]
  intro m hm
  rw [not_not]
  exact hbetween (i + m) (by omega) (by omega)

/-- A stream in which no key is waiting when a call begins. -/
structure Slow (getkey : ℕ → Word) : Prop where
  first : getkey 0 = 0
  next : ∀ q, getkey q ≠ 0 → getkey (q + 1) = 0

lemma Slow.begins (hslow : Slow getkey) (h : Begins getkey n i) :
    getkey i = 0 ∧ Nat.count (fun i => getkey i ≠ 0) i = n := by
  induction h with
  | first => exact ⟨hslow.first, Nat.count_zero _⟩
  | next _ hreturns ih =>
    obtain ⟨q, -, rfl, hlt, hne, hbetween⟩ := getkeyblock_iff.1 ⟨_, hreturns⟩
    refine ⟨hslow.next q hne, ?_⟩
    rw [Nat.count_succ, if_pos hne, count_between hlt.le, ih.2]
    intro r hr hrq
    rcases hr.eq_or_lt with rfl | hr
    · exact ih.1
    · exact hbetween r hr hrq

/-- A keystroke is found by the call of its number. -/
lemma Slow.returns (hslow : Slow getkey) (h : IsKeystroke getkey n q) : Returns getkey n q := by
  obtain ⟨hkey, hcount⟩ := h
  rw [returns_iff]
  induction n generalizing q with
  | zero =>
    have hnone := Nat.count_iff_forall_not.1 hcount
    have hpos : q ≠ 0 := fun h0 => hkey (h0 ▸ hslow.first)
    exact ⟨0, .first, Nat.pos_of_ne_zero hpos, hkey, fun r _ hr => not_not.1 (hnone r hr)⟩
  | succ n ih =>
    -- the keystroke before it
    have hlt : n < Nat.count (fun i => getkey i ≠ 0) q := by omega
    have hprev := Nat.nth_lt_of_lt_count hlt
    have hcard : ∀ hf : (Set.ofPred fun i => getkey i ≠ 0).Finite, n < hf.toFinset.card :=
      fun hf => hlt.trans_le (Nat.count_le_card hf q)
    have hmem := Nat.nth_mem n hcard
    have hnth := Nat.count_nth hcard
    generalize Nat.nth (fun i => getkey i ≠ 0) n = p at hprev hmem hnth
    obtain ⟨i, hbegins, hcall⟩ := ih hmem hnth
    obtain ⟨fuel, hcall⟩ := getkeyblock_iff.2 ⟨p, rfl, rfl, hcall⟩
    have hnext := hslow.next p hmem
    have hafter : p + 1 ≠ q := fun heq => hkey (heq ▸ hnext)
    refine ⟨p + 1, hbegins.next hcall, by omega, hkey, fun r hr hrq => ?_⟩
    by_contra hne
    have hone := Nat.count_strict_mono (p := fun i => getkey i ≠ 0) hmem (show p < r by omega)
    have htwo := Nat.count_strict_mono (p := fun i => getkey i ≠ 0) hne hrq
    omega

/-- The calls return the keystrokes of the stream one for one, exactly when no key is waiting as
a call begins. -/
theorem returns_keystrokes_iff (getkey : ℕ → Word) :
    (∀ n q, Returns getkey n q ↔ IsKeystroke getkey n q) ↔ Slow getkey := by
  constructor
  · intro h
    refine ⟨?_, fun q hkey => ?_⟩
    · by_contra hkey
      obtain ⟨i, -, hlt, -⟩ := returns_iff.1 ((h 0 0).2 ⟨hkey, Nat.count_zero _⟩)
      omega
    · by_contra hnext
      have hcount : Nat.count (fun i => getkey i ≠ 0) (q + 1) =
          Nat.count (fun i => getkey i ≠ 0) q + 1 := by
        rw [Nat.count_succ, if_pos hkey]
      obtain ⟨i, hbegins, hcall⟩ := returns_iff.1 ((h _ q).2 ⟨hkey, rfl⟩)
      obtain ⟨j, hbegins', hlt, -⟩ := returns_iff.1 ((h _ (q + 1)).2 ⟨hnext, hcount⟩)
      obtain ⟨fuel, hcall⟩ := getkeyblock_iff.2 ⟨q, rfl, rfl, hcall⟩
      have hsame := (hbegins.next hcall).unique hbegins'
      omega
  · intro hslow n q
    refine ⟨fun h => ?_, hslow.returns⟩
    obtain ⟨i, hbegins, hlt, hkey, hbetween⟩ := returns_iff.1 h
    obtain ⟨hzero, hcount⟩ := hslow.begins hbegins
    refine ⟨hkey, ?_⟩
    rw [count_between hlt.le, hcount]
    intro r hr hrq
    rcases hr.eq_or_lt with rfl | hr
    · exact hzero
    · exact hbetween r hr hrq

/-- Two keys that wait: the first is dropped. -/
theorem waitingKeys_dropped :
    let getkey : ℕ → Word := fun i => if i = 0 then 65 else if i = 1 then 66 else 0
    getkeyblock getkey 1 0 = some (66, 2) ∧ ¬ ∀ n q, Returns getkey n q ↔ IsKeystroke getkey n q := by
  intro getkey
  refine ⟨rfl, fun h => ?_⟩
  obtain ⟨i, -, hlt, -⟩ := returns_iff.1 ((h 0 0).2 ⟨by decide, rfl⟩)
  omega

/-! Reading a line. -/

/-- `out[i] = c`. -/
def outStore (mem : Mem) (out : Word) (i : ℤ) (c : Byte) : Mem :=
  Function.update mem (out + BitVec.ofInt 32 i) c

/-- The loop of `terminal_readline` with the keys to come, at index `i`; `typed` is what was put on
the screen. A backspace takes two from the index, and the loop adds one again. -/
def readlineLoop (out : Word) (max : ℤ) (outputWhileTyping : Bool) :
    List Byte → ℤ → Mem → List Byte → Option (ℤ × Mem × List Byte)
  | [], i, mem, typed => if i < max - 1 then none else some (i, mem, typed)
  | c :: keys, i, mem, typed =>
    if i < max - 1 then
      if c = 13 then some (i, mem, typed) else
      let typed := if outputWhileTyping then typed ++ [c] else typed
      if c = 8 ∧ i ≥ 1 then
        readlineLoop out max outputWhileTyping keys (i - 2 + 1) (outStore mem out i 0) typed
      else readlineLoop out max outputWhileTyping keys (i + 1) (outStore mem out i c) typed
    else some (i, mem, typed)

def terminalReadline (out : Word) (max : ℤ) (outputWhileTyping : Bool) (keys : List Byte) (mem : Mem) :
    Option (Mem × List Byte) :=
  (readlineLoop out max outputWhileTyping keys 0 mem []).map fun r => (outStore r.2.1 out r.1 0, r.2.2)

/-- The line that an editor makes of the keys, from the characters it has: Enter ends it, and so does
a line of `room` characters; a backspace takes the last character, if there is one. -/
def edit (room : ℕ) : List Byte → List Byte → Option (List Byte)
  | [], line => if line.length = room then some line else none
  | c :: keys, line =>
    if line.length = room then some line else
    if c = 13 then some line else
    if c = 8 then edit room keys line.dropLast else
    edit room keys (line ++ [c])

/-- The line of `terminal_readline`, which takes a backspace on an empty line for a character. -/
def typeLine (room : ℕ) : List Byte → List Byte → Option (List Byte)
  | [], line => if line.length < room then none else some line
  | c :: keys, line =>
    if line.length < room then
      if c = 13 then some line else
      if c = 8 ∧ line ≠ [] then typeLine room keys line.dropLast else
      typeLine room keys (line ++ [c])
    else some line

/-- The backspaces on an empty line are even in number when Enter comes, and whenever the line
is one character short of `room`. `n` is the length of the line, and `odd` says that their
number is odd so far. -/
def Paired (room : ℕ) : List Byte → ℕ → Bool → Prop
  | [], _, odd => odd = false
  | c :: keys, n, odd =>
    if n = room then True else
    if odd ∧ n + 1 = room then False else
    if c = 13 then odd = false else
    if c = 8 then Paired room keys (n - 1) (if n = 0 then !odd else odd) else
    Paired room keys (n + 1) odd

variable {mem mem' : Mem} {out : Word} {room : ℕ} {keys line l : List Byte} {c : Byte}
  {echo odd : Bool} {typed : List Byte}

/-- A line in memory, and a store behind its end. -/
lemma outStore_append (h : BytesAt mem out line) (hlen : line.length < 2 ^ 32) (c : Byte) :
    BytesAt (outStore mem out line.length c) out (line ++ [c]) := by
  rw [bytesAt_append]
  refine ⟨h.congr fun n hn => Function.update_of_ne ?_ _ _, Function.update_self _ _ _, trivial⟩
  exact add_ofNat_ne (by omega) hlen (by omega) out

lemma bytesAt_dropLast (h : BytesAt mem out line) : BytesAt mem out line.dropLast := by
  apply bytesAt_of_get
  intro n hn
  rw [List.length_dropLast] at hn
  rw [List.getElem_dropLast]
  exact h.get (by omega)

lemma outStore_of_not {x : Word} {i : ℕ} (h : ¬ InRange out room x) (hroom : room < 2 ^ 32)
    (hi : i < room) : outStore mem out i c x = mem x :=
  Function.update_of_ne (ne_of_not_inRange h hroom.le hi) _ _

/-- The loop ends with the line in memory and has stored to the places of a line only, or neither
ends. -/
def LineRead (out : Word) (room : ℕ) (mem : Mem) (ends : Option (List Byte))
    (loop : Option (ℤ × Mem × List Byte)) : Prop :=
  (ends = none ∧ loop = none) ∨ ∃ l mem' typed, ends = some l ∧
    loop = some ((l.length : ℤ), mem', typed) ∧ BytesAt mem' out l ∧ l.length ≤ room ∧
    ∀ x, ¬ InRange out room x → mem' x = mem x

lemma lineRead_end (hline : BytesAt mem out line) (hle : line.length ≤ room) :
    LineRead out room mem (some line) (some ((line.length : ℤ), mem, typed)) :=
  .inr ⟨line, mem, typed, rfl, rfl, hline, hle, fun _ _ => rfl⟩

lemma LineRead.of_outStore {ends : Option (List Byte)} {loop : Option (ℤ × Mem × List Byte)} {i : ℕ}
    (h : LineRead out room (outStore mem out i c) ends loop) (hroom : room < 2 ^ 32) (hi : i < room) :
    LineRead out room mem ends loop := by
  rcases h with hnone | ⟨l, mem', typed, hends, hloop, hbytes, hl, hsame⟩
  · exact .inl hnone
  · refine .inr ⟨l, mem', typed, hends, hloop, hbytes, hl, fun x hx => ?_⟩
    rw [hsame x hx, outStore_of_not hx hroom hi]

/-- The loop keeps its line in memory, and stores to the places of a line only. -/
lemma readlineLoop_typeLine (hline : BytesAt mem out line) (hroom : room < 2 ^ 31)
    (hle : line.length ≤ room) :
    LineRead out room mem (typeLine room keys line)
      (readlineLoop out (room + 1) echo keys line.length mem typed) := by
  induction keys generalizing line mem typed with
  | nil =>
    rw [typeLine, readlineLoop]
    by_cases hlt : line.length < room
    · rw [if_pos hlt, if_pos (by omega)]
      exact .inl ⟨rfl, rfl⟩
    · rw [if_neg hlt, if_neg (by omega)]
      exact lineRead_end hline hle
  | cons c keys ih =>
    rw [typeLine, readlineLoop]
    by_cases hlt : line.length < room
    swap
    · rw [if_neg hlt, if_neg (by omega)]
      exact lineRead_end hline hle
    rw [if_pos hlt, if_pos (show (line.length : ℤ) < room + 1 - 1 by omega)]
    by_cases henter : c = 13
    · rw [if_pos henter, if_pos henter]
      exact lineRead_end hline hle
    rw [if_neg henter, if_neg henter]
    dsimp only
    have hempty : (line.length : ℤ) ≥ 1 ↔ line ≠ [] := by
      rw [ne_eq, ← List.length_eq_zero_iff]
      omega
    have hcond : (c = 8 ∧ (line.length : ℤ) ≥ 1) ↔ (c = 8 ∧ line ≠ []) := and_congr_right fun _ => hempty
    by_cases hback : c = 8 ∧ line ≠ []
    · rw [if_pos hback, if_pos (hcond.2 hback)]
      have hlength : (line.length : ℤ) - 2 + 1 = (line.dropLast.length : ℤ) := by
        have hpos := hempty.2 hback.2
        rw [List.length_dropLast]
        omega
      have hstored := bytesAt_dropLast (outStore_append hline (by omega) 0)
      rw [List.dropLast_concat] at hstored
      rw [hlength]
      refine LineRead.of_outStore (c := 0) ?_ (by omega) hlt
      exact ih (bytesAt_dropLast hstored) (by rw [List.length_dropLast]; omega)
    · rw [if_neg hback, if_neg fun h => hback (hcond.1 h)]
      have hlength : (line.length : ℤ) + 1 = ((line ++ [c]).length : ℤ) := by
        rw [List.length_append]
        rfl
      rw [hlength]
      refine LineRead.of_outStore (c := c) ?_ (by omega) hlt
      exact ih (outStore_append hline (by omega) c) (by rw [List.length_append]; exact hlt)

/-- A line of the editor holds no backspace. -/
lemma edit_mem (h : edit room keys line = some l) (hc : c ∈ l) : c ∈ line ∨ c ∈ keys ∧ c ≠ 8 := by
  induction keys generalizing line with
  | nil =>
    rw [edit] at h
    split_ifs at h
    obtain rfl := Option.some.inj h
    exact .inl hc
  | cons k keys ih =>
    rw [edit] at h
    split_ifs at h with hfull henter hback
    · obtain rfl := Option.some.inj h
      exact .inl hc
    · obtain rfl := Option.some.inj h
      exact .inl hc
    · rcases ih h with hline | ⟨hkey, hne⟩
      · exact .inl (List.mem_of_mem_dropLast hline)
      · exact .inr ⟨List.mem_cons_of_mem k hkey, hne⟩
    · rcases ih h with hline | ⟨hkey, hne⟩
      · rcases List.mem_append.1 hline with hline | hlast
        · exact .inl hline
        · obtain rfl := List.mem_singleton.1 hlast
          exact .inr ⟨List.mem_cons_self, hback⟩
      · exact .inr ⟨List.mem_cons_of_mem k hkey, hne⟩

lemma typeLine_mem (h : typeLine room keys line = some l) (hc : c ∈ l) : c ∈ line ∨ c ∈ keys := by
  induction keys generalizing line with
  | nil =>
    rw [typeLine] at h
    split_ifs at h
    obtain rfl := Option.some.inj h
    exact .inl hc
  | cons k keys ih =>
    rw [typeLine] at h
    split_ifs at h with hroom henter hback
    · obtain rfl := Option.some.inj h
      exact .inl hc
    · rcases ih h with hline | hkey
      · exact .inl (List.mem_of_mem_dropLast hline)
      · exact .inr (List.mem_cons_of_mem k hkey)
    · rcases ih h with hline | hkey
      · rcases List.mem_append.1 hline with hline | hlast
        · exact .inl hline
        · exact .inr (List.mem_singleton.1 hlast ▸ List.mem_cons_self)
      · exact .inr (List.mem_cons_of_mem k hkey)
    · obtain rfl := Option.some.inj h
      exact .inl hc

/-- The line of `terminal_readline` is the editor's, with one backspace before it after an odd number
of backspaces on an empty line. The two agree in the end when they agree as the line ends. -/
lemma typeLine_iff (h : edit room keys line = some l) (h8 : 8 ∉ line)
    (hle : line.length + odd.toNat ≤ room) :
    typeLine room keys (if odd then 8 :: line else line) = some l ↔
      Paired room keys line.length odd := by
  -- a line with a backspace before it is not the editor's
  have hne : ∀ l' : List Byte, some (8 :: l') ≠ some l := by
    intro l' heq
    obtain rfl := Option.some.inj heq
    rcases edit_mem h (c := 8) List.mem_cons_self with hmem | hmem
    · exact h8 hmem
    · exact hmem.2 rfl
  induction keys generalizing line odd with
  | nil =>
    rw [edit] at h
    split_ifs at h with hfull
    cases odd with
    | false => simp [typeLine, Paired, hfull, ← h]
    | true =>
      rw [Bool.toNat_true] at hle
      omega
  | cons c keys ih =>
    rw [edit] at h
    rw [Paired]
    have hdrop : 8 ∉ line.dropLast := fun hmem => h8 (List.mem_of_mem_dropLast hmem)
    have hdropLength : line.dropLast.length = line.length - 1 := List.length_dropLast
    have happend : c ≠ 8 → 8 ∉ line ++ [c] := fun hc hmem =>
      (List.mem_append.1 hmem).elim h8 fun hlast => hc (List.mem_singleton.1 hlast).symm
    have happendLength : (line ++ [c]).length = line.length + 1 := List.length_append
    cases odd with
    | false =>
      simp only [Bool.false_eq_true, if_false, false_and, Bool.toNat_false, Nat.add_zero] at hle ⊢
      rw [typeLine]
      split_ifs at h with hfull henter hback
      · rw [if_neg (by omega), if_pos hfull]
        exact iff_of_true h trivial
      · rw [if_pos (by omega), if_pos henter, if_neg hfull, if_pos henter]
        exact iff_of_true h trivial
      · rw [if_pos (by omega), if_neg henter, if_neg hfull, if_neg henter, if_pos hback]
        cases line with
        | nil =>
          have hpos : 1 ≤ room := by
            rw [List.length_nil] at hle hfull
            omega
          have hrest := @ih [] true h h8 (by simpa using hpos)
          rw [if_neg (by simp), hback]
          exact hrest
        | cons d line =>
          have hrest := @ih (d :: line).dropLast false h hdrop (by
            rw [Bool.toNat_false]
            omega)
          rw [if_pos ⟨hback, by simp⟩, if_neg (by simp), ← hdropLength]
          exact hrest
      · have hrest := @ih (line ++ [c]) false h (happend hback) (by
          rw [Bool.toNat_false]
          omega)
        rw [if_pos (by omega), if_neg henter, if_neg hfull, if_neg henter, if_neg hback,
          if_neg fun h0 => hback h0.1, ← happendLength]
        exact hrest
    | true =>
      rw [Bool.toNat_true] at hle
      rw [if_pos rfl, if_neg (show ¬ line.length = room by omega), typeLine, List.length_cons]
      by_cases hlast : line.length + 1 = room
      · rw [if_neg (by omega), if_pos ⟨rfl, hlast⟩]
        exact iff_of_false (hne line) not_false
      have hshort : ¬ (true = true ∧ line.length + 1 = room) := fun h0 => hlast h0.2
      rw [if_pos (show line.length + 1 < room by omega), if_neg hshort]
      split_ifs at h with hfull henter hback
      · omega
      · rw [if_pos henter, if_pos henter]
        exact iff_of_false (hne line) (by simp)
      · rw [if_neg henter, if_neg henter, if_pos hback, if_pos ⟨hback, by simp⟩]
        cases line with
        | nil => exact @ih [] false h h8 (Nat.zero_le _)
        | cons d line =>
          have hrest := @ih (d :: line).dropLast true h hdrop (by
            rw [Bool.toNat_true]
            omega)
          rw [if_neg (by simp), ← hdropLength]
          exact hrest
      · have hrest := @ih (line ++ [c]) true h (happend hback) (by
          rw [Bool.toNat_true]
          omega)
        rw [if_neg henter, if_neg henter, if_neg hback, if_neg fun h0 => hback h0.1, ← happendLength]
        exact hrest

/-- `terminal_readline` leaves the editor's line, with its terminator and within `max` bytes, exactly
when the backspaces on an empty line come in pairs. The keys are those that `__getkeyblock`
returns, which are not 0. -/
theorem terminalReadline_iff {max : ℕ} (hmax : 1 ≤ max) (hint : max < 2 ^ 31) (hkeys : 0 ∉ keys)
    (h : edit (max - 1) keys [] = some line) :
    (∃ mem' typed, terminalReadline out max echo keys mem = some (mem', typed) ∧
      BytesAt mem' out (line ++ [0]) ∧ ∀ x, ¬ InRange out max x → mem' x = mem x) ↔
      Paired (max - 1) keys 0 false := by
  have hroom : ((max - 1 : ℕ) : ℤ) + 1 = max := by omega
  have htype := @typeLine_iff (max - 1) keys [] line false h (by simp) (by simp)
  have hloop := @readlineLoop_typeLine mem out (max - 1) keys [] echo [] trivial (by omega) (Nat.zero_le _)
  have hline : 0 ∉ line := by
    intro h0
    rcases edit_mem h h0 with hmem | hmem
    · simp at hmem
    · exact hkeys hmem.1
  rw [hroom] at hloop
  rw [List.length_nil, if_neg (by simp)] at htype
  rw [← htype]
  rcases hloop with ⟨hnone, hloop⟩ | ⟨l, mem', typed, hsome, hloop, hbytes, hl, hsame⟩
  · rw [terminalReadline, show (0 : ℤ) = ([] : List Byte).length from rfl, hloop, hnone]
    simp
  · have hzero : 0 ∉ l := by
      intro h0
      rcases typeLine_mem hsome h0 with hmem | hmem
      · simp at hmem
      · exact hkeys hmem
    have hread : terminalReadline out max echo keys mem = some (outStore mem' out l.length 0, typed) := by
      rw [terminalReadline, show (0 : ℤ) = ([] : List Byte).length from rfl, hloop]
      rfl
    have hend := outStore_append hbytes (by omega) 0
    rw [hread, hsome]
    constructor
    · rintro ⟨mem₁, typed₁, heq, hfound, -⟩
      obtain ⟨rfl, rfl⟩ := Prod.mk.inj (Option.some.inj heq)
      rw [bytesAt_unique hend hfound hzero hline]
    · intro heq
      obtain rfl := Option.some.inj heq
      refine ⟨_, _, rfl, hend, fun x hx => ?_⟩
      rw [outStore_of_not hx (by omega) (by omega)]
      apply hsame
      exact fun hin => hx (hin.trans_le (Nat.sub_le _ _))

/-- `"ab"`, a backspace and Enter. -/
theorem terminalReadline_iff_fourKeys :
    ∃ mem' typed, terminalReadline 0x1000 (4 : ℕ) true [97, 98, 8, 13] (fun _ => 0) = some (mem', typed) ∧
      BytesAt mem' 0x1000 [97, 0] ∧ ∀ x, ¬ InRange 0x1000 4 x → mem' x = 0 :=
  (@terminalReadline_iff (fun _ => 0) 0x1000 [97, 98, 8, 13] [97] true 4 (by decide) (by decide)
    (by decide) rfl).2 (by simp [Paired])

/-- A backspace before the first character becomes part of the line. -/
theorem emptyLine_backspace :
    edit 3 [8, 97, 13] [] = some [97] ∧
    ∃ mem' typed, terminalReadline 0x1000 4 true [8, 97, 13] (fun _ => 0) = some (mem', typed) ∧
      BytesAt mem' 0x1000 [8, 97, 0] ∧ ¬ BytesAt mem' 0x1000 [97, 0] :=
  ⟨rfl, _, _, rfl, ⟨rfl, rfl, rfl, trivial⟩, fun h => absurd h.1 (by decide)⟩

end AlphaOS.Stdlib
