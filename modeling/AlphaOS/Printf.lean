import AlphaOS.Itoa

/-! `printf` of the programs' library, over a format in memory whose bytes behind the terminator may be
anything. What is written is the characters that `putchar` and `print` hand to the kernel. A loop
that waits for a terminator has a bound and gives nothing when the bound is reached first. -/
namespace AlphaOS.Stdlib
open CString Decimal WordMemory

/-- The state of a call: the memory, the arguments taken, the characters written, and the offsets at
which the format was read, the last one first. -/
structure Output where
  mem : Mem
  ap : ℕ
  out : List Byte
  reads : List ℕ

def Output.read (s : Output) (i : ℕ) : Output := { s with reads := i :: s.reads }

def putchar (s : Output) (c : Byte) : Output := { s with out := s.out ++ [c] }

def print (fuel : ℕ) (s : Output) (str : Word) : Option Output :=
  (stringAt s.mem fuel str).map fun cs => { s with out := s.out ++ cs }

/-- The words behind the format on the stack. -/
def vaArg (args : ℕ → Word) (s : Output) : Word × Output := (args s.ap, { s with ap := s.ap + 1 })

/-- The `switch` on the character behind a `'%'`: `'i'` is 105, `'d'` is 100, `'s'` is 115 and `'c'`
is 99. -/
def printfSwitch (fuel : ℕ) (text : Word) (args : ℕ → Word) (c : Byte) (s : Output) : Option Output :=
  if c = 105 ∨ c = 100 then
    let (ival, s) := vaArg args s
    (itoa text s.mem ival.toInt).bind fun (str, mem) => print fuel { s with mem := mem } str
  else if c = 115 then
    let (sval, s) := vaArg args s
    print fuel s sval
  else if c = 99 then
    let (ival, s) := vaArg args s
    some (putchar s (ival.setWidth 8))
  else if c = 37 then some (putchar s 37)
  else some (putchar s c)

/-- The loop of `printf` with the pointer at offset `i`. -/
def printfLoop (text format : Word) (args : ℕ → Word) : ℕ → ℕ → Output → Option Output
  | 0, _, _ => none
  | fuel + 1, i, s =>
    let s := s.read i
    let c := s.mem (format + BitVec.ofNat 32 i)
    if c = 0 then some s else
    if c ≠ 37 then printfLoop text format args fuel (i + 1) (putchar s c) else
    let s := s.read (i + 1)
    (printfSwitch fuel text args (s.mem (format + BitVec.ofNat 32 (i + 1))) s).bind
      (printfLoop text format args fuel (i + 2))

/-- `text` is the buffer of `itoa`. -/
def printf (fuel : ℕ) (text format : Word) (args : ℕ → Word) (mem : Mem) : Option Output :=
  printfLoop text format args fuel 0 ⟨mem, 0, [], []⟩

/-! What a format says. -/

inductive Argument
  | int (value : Word)
  | string (chars : List Byte)
  | char (c : Byte)

/-- The text of a conversion and the arguments behind it. A conversion without an argument of its type
has none. -/
def conversion (c : Byte) (arguments : List Argument) : Option (List Byte × List Argument) :=
  if c = 105 ∨ c = 100 then
    match arguments with
    | .int value :: rest => some (numeral value.toInt, rest)
    | _ => none
  else if c = 115 then
    match arguments with
    | .string chars :: rest => some (chars, rest)
    | _ => none
  else if c = 99 then
    match arguments with
    | .char d :: rest => some ([d], rest)
    | _ => none
  else some ([c], arguments)

/-- The format with its conversions replaced; a `'%'` with nothing behind it has no text. -/
def expand : List Byte → List Argument → Option (List Byte)
  | [], _ => some []
  | [c], _ => some (if c = 37 then [] else [c])
  | c :: d :: format, arguments =>
    if c = 37 then
      (conversion d arguments).bind fun r => (expand format r.2).map (r.1 ++ ·)
    else (expand (d :: format) arguments).map (c :: ·)

/-- The last character is a `'%'` that no other one quotes. -/
def EndsOpen : List Byte → Prop
  | [] => False
  | [c] => c = 37
  | c :: d :: format => if c = 37 then EndsOpen format else EndsOpen (d :: format)

/-- An argument as the caller passes it. A string is not in the buffer of `itoa`, which the next
conversion overwrites. -/
def Argument.Passed (mem : Mem) (text word : Word) : Argument → Prop
  | .int value => word = value
  | .string chars => 0 ∉ chars ∧ BytesAt mem word (chars ++ [0]) ∧
      ∀ n ≤ chars.length, ¬ InRange text 12 (word + BitVec.ofNat 32 n)
  | .char c => word.setWidth 8 = c

/-- The arguments from the word `ap` on. -/
def Passed (mem : Mem) (text : Word) (args : ℕ → Word) : ℕ → List Argument → Prop
  | _, [] => True
  | ap, argument :: rest => argument.Passed mem text (args ap) ∧ Passed mem text args (ap + 1) rest

/-- A format in memory, apart from the buffer of `itoa`. -/
structure FormatAt (mem : Mem) (text a : Word) (format : List Byte) : Prop where
  bytes : BytesAt mem a (format ++ [0])
  nonzero : 0 ∉ format
  apart : ∀ n ≤ format.length, ¬ InRange text 12 (a + BitVec.ofNat 32 n)

variable {mem mem' : Mem} {text a format word : Word} {args : ℕ → Word} {s s' : Output} {c d : Byte}
  {fuel i : ℕ} {cs fmt out : List Byte} {arguments rest : List Argument} {argument : Argument}

/-- Bytes apart from a buffer whose stores they do not see. -/
lemma bytesAt_kept (h : BytesAt mem a (cs ++ [0]))
    (hapart : ∀ n ≤ cs.length, ¬ InRange text 12 (a + BitVec.ofNat 32 n))
    (hsame : ∀ x, ¬ InRange text 12 x → mem' x = mem x) : BytesAt mem' a (cs ++ [0]) := by
  apply h.congr
  intro n hn
  rw [List.length_append, List.length_singleton] at hn
  exact hsame _ (hapart n (by omega))

lemma FormatAt.kept (h : FormatAt mem text a fmt)
    (hsame : ∀ x, ¬ InRange text 12 x → mem' x = mem x) : FormatAt mem' text a fmt :=
  ⟨bytesAt_kept h.bytes h.apart hsame, h.nonzero, h.apart⟩

lemma FormatAt.tail (h : FormatAt mem text a (c :: fmt)) : FormatAt mem text (a + 1) fmt where
  bytes := h.bytes.2
  nonzero := fun h0 => h.nonzero (List.mem_cons_of_mem c h0)
  apart := by
    intro n hn
    rw [add_one_add]
    exact h.apart (n + 1) (by simpa using hn)

lemma Argument.Passed.kept (h : argument.Passed mem text word)
    (hsame : ∀ x, ¬ InRange text 12 x → mem' x = mem x) : argument.Passed mem' text word := by
  cases argument with
  | int value => exact h
  | string chars => exact ⟨h.1, bytesAt_kept h.2.1 h.2.2 hsame, h.2.2⟩
  | char c => exact h

lemma Passed.kept {ap : ℕ} (h : Passed mem text args ap arguments)
    (hsame : ∀ x, ¬ InRange text 12 x → mem' x = mem x) : Passed mem' text args ap arguments := by
  induction arguments generalizing ap with
  | nil => trivial
  | cons argument rest ih => exact ⟨h.1.kept hsame, ih h.2⟩

/-! One conversion. -/

lemma print_eq (h : BytesAt s.mem a (cs ++ [0])) (hcs : 0 ∉ cs) (hfuel : cs.length < fuel) :
    print fuel s a = some { s with out := s.out ++ cs } := by
  rw [print, stringAt_eq h hcs hfuel, Option.map_some]

lemma print_frame (h : print fuel s a = some s') : s'.reads = s.reads ∧ s'.mem = s.mem := by
  obtain ⟨cs, -, rfl⟩ := Option.map_eq_some_iff.1 h
  exact ⟨rfl, rfl⟩

/-- A conversion stores into the buffer of `itoa` only. -/
lemma printfSwitch_frame (h : printfSwitch fuel text args c s = some s') :
    s'.reads = s.reads ∧ ∀ x, ¬ InRange text 12 x → s'.mem x = s.mem x := by
  rw [printfSwitch] at h
  split_ifs at h
  · obtain ⟨⟨str, mem⟩, hitoa, hprint⟩ := Option.bind_eq_some_iff.1 h
    obtain ⟨mem', hspec, -, -, hsame⟩ := @itoa_spec (args s.ap).toInt text s.mem
      (BitVec.le_toInt _) BitVec.toInt_lt
    dsimp only [vaArg] at hitoa
    obtain ⟨rfl, rfl⟩ := Prod.mk.inj (Option.some.inj (hitoa.symm.trans hspec))
    obtain ⟨hreads, hmem⟩ := print_frame hprint
    exact ⟨hreads, fun x hx => (congrFun hmem x).trans (hsame x hx)⟩
  · obtain ⟨hreads, hmem⟩ := print_frame h
    exact ⟨hreads, fun x _ => congrFun hmem x⟩
  all_goals
    obtain rfl := Option.some.inj h
    exact ⟨rfl, fun _ _ => rfl⟩

/-- A conversion with its argument writes its text, once there is enough fuel for its string. -/
lemma printfSwitch_spec (h : conversion c arguments = some (cs, rest))
    (hpassed : Passed s.mem text args s.ap arguments) :
    ∃ N s', (∀ fuel ≥ N, printfSwitch fuel text args c s = some s') ∧ s'.out = s.out ++ cs ∧
      Passed s'.mem text args s'.ap rest := by
  unfold conversion at h
  by_cases hint : c = 105 ∨ c = 100
  · rw [if_pos hint] at h
    cases arguments with
    | nil => simp at h
    | cons argument arguments =>
      cases argument with
      | string chars => simp at h
      | char d => simp at h
      | int value =>
        obtain ⟨rfl, rfl⟩ := Prod.mk.inj (Option.some.inj h)
        obtain ⟨rfl, hrest⟩ : args s.ap = value ∧ _ := hpassed
        obtain ⟨mem', hspec, hle, hbytes, hsame⟩ := @itoa_spec (args s.ap).toInt text s.mem
          (BitVec.le_toInt _) BitVec.toInt_lt
        refine ⟨12, ⟨mem', s.ap + 1, s.out ++ numeral (args s.ap).toInt, s.reads⟩, fun fuel hfuel => ?_,
          rfl, hrest.kept hsame⟩
        rw [printfSwitch, if_pos hint]
        dsimp only [vaArg]
        rw [hspec, Option.bind_some]
        exact print_eq hbytes (zero_notMem_numeral _) (by omega)
  rw [if_neg hint] at h
  by_cases hstring : c = 115
  · rw [if_pos hstring] at h
    cases arguments with
    | nil => simp at h
    | cons argument arguments =>
      cases argument with
      | int value => simp at h
      | char d => simp at h
      | string chars =>
        obtain ⟨rfl, rfl⟩ := Prod.mk.inj (Option.some.inj h)
        obtain ⟨⟨hnonzero, hbytes, -⟩, hrest⟩ := hpassed
        refine ⟨chars.length + 1, ⟨s.mem, s.ap + 1, s.out ++ chars, s.reads⟩, fun fuel hfuel => ?_,
          rfl, hrest⟩
        rw [printfSwitch, if_neg hint, if_pos hstring]
        exact print_eq hbytes hnonzero (by omega)
  rw [if_neg hstring] at h
  by_cases hchar : c = 99
  · rw [if_pos hchar] at h
    cases arguments with
    | nil => simp at h
    | cons argument arguments =>
      cases argument with
      | int value => simp at h
      | string chars => simp at h
      | char d =>
        obtain ⟨rfl, rfl⟩ := Prod.mk.inj (Option.some.inj h)
        obtain ⟨rfl, hrest⟩ : (args s.ap).setWidth 8 = d ∧ _ := hpassed
        refine ⟨0, ⟨s.mem, s.ap + 1, s.out ++ [(args s.ap).setWidth 8], s.reads⟩, fun fuel _ => ?_,
          rfl, hrest⟩
        rw [printfSwitch, if_neg hint, if_neg hstring, if_pos hchar]
        rfl
  rw [if_neg hchar] at h
  obtain ⟨rfl, rfl⟩ := Prod.mk.inj (Option.some.inj h)
  refine ⟨0, putchar s c, fun fuel _ => ?_, rfl, hpassed⟩
  rw [printfSwitch, if_neg hint, if_neg hstring, if_neg hchar]
  split_ifs with hpercent
  · rw [hpercent]
  · rfl

/-! The scan of the format. -/

lemma FormatAt.first (h : FormatAt mem text a (c :: fmt)) : mem a = c ∧ c ≠ 0 :=
  ⟨h.bytes.1, fun h0 => h.nonzero (h0 ▸ List.mem_cons_self)⟩

lemma FormatAt.next (h : FormatAt mem text (format + BitVec.ofNat 32 i) (c :: fmt)) :
    FormatAt mem text (format + BitVec.ofNat 32 (i + 1)) fmt := by
  have htail := h.tail
  rwa [BitVec.add_assoc, show BitVec.ofNat 32 i + 1 = BitVec.ofNat 32 (i + 1) from
    (BitVec.ofNat_add ..).symm] at htail

/-- At the terminator. -/
lemma printfLoop_end (h : FormatAt s.mem text (format + BitVec.ofNat 32 i) []) :
    printfLoop text format args (fuel + 1) i s = some (s.read i) :=
  if_pos h.bytes.1

/-- At a character that is written as it is. -/
lemma printfLoop_char (h : FormatAt s.mem text (format + BitVec.ofNat 32 i) (c :: fmt)) (hc : c ≠ 37) :
    printfLoop text format args (fuel + 1) i s =
      printfLoop text format args fuel (i + 1) (putchar (s.read i) c) := by
  obtain ⟨hfirst, hne⟩ := h.first
  have hread : (s.read i).mem (format + BitVec.ofNat 32 i) = c := hfirst
  rw [printfLoop]
  dsimp only
  rw [hread, if_neg hne, if_pos hc]

/-- At a `'%'`, whatever stands behind it. -/
lemma printfLoop_percent (h : FormatAt s.mem text (format + BitVec.ofNat 32 i) (37 :: fmt)) :
    printfLoop text format args (fuel + 1) i s =
      (printfSwitch fuel text args (s.mem (format + BitVec.ofNat 32 (i + 1)))
        ((s.read i).read (i + 1))).bind (printfLoop text format args fuel (i + 2)) := by
  obtain ⟨hfirst, hne⟩ := h.first
  have hread : (s.read i).mem (format + BitVec.ofNat 32 i) = 37 := hfirst
  rw [printfLoop]
  dsimp only
  rw [hread, if_neg hne, if_neg (by simp)]
  rfl

/-- What has been read stays in the record. -/
lemma printfLoop_reads (h : printfLoop text format args fuel i s = some s') :
    s.reads ⊆ s'.reads ∧ i ∈ s'.reads := by
  induction fuel generalizing i s with
  | zero => simp [printfLoop] at h
  | succ fuel ih =>
    rw [printfLoop] at h
    dsimp only at h
    have hrecorded : s.reads ⊆ (s.read i).reads := List.subset_cons_self _ _
    split_ifs at h
    · obtain rfl := Option.some.inj h
      exact ⟨hrecorded, List.mem_cons_self⟩
    · obtain ⟨hrest, -⟩ := ih h
      exact ⟨List.Subset.trans hrecorded hrest, hrest List.mem_cons_self⟩
    · obtain ⟨s₁, hswitch, hloop⟩ := Option.bind_eq_some_iff.1 h
      obtain ⟨hrest, -⟩ := ih hloop
      rw [(printfSwitch_frame hswitch).1] at hrest
      have hmore : (s.read i).reads ⊆ s'.reads := List.Subset.trans (List.subset_cons_self _ _) hrest
      exact ⟨List.Subset.trans hrecorded hmore, hmore List.mem_cons_self⟩

/-- A format whose every `'%'` has a character behind it is written out, and read up to its
terminator only. -/
lemma printfLoop_expands (h : expand fmt arguments = some out) (hclosed : ¬ EndsOpen fmt)
    (hfmt : FormatAt s.mem text (format + BitVec.ofNat 32 i) fmt)
    (hpassed : Passed s.mem text args s.ap arguments) :
    ∃ N s', (∀ fuel ≥ N, printfLoop text format args fuel i s = some s') ∧ s'.out = s.out ++ out ∧
      ∀ j ∈ s'.reads, j ∈ s.reads ∨ j ≤ i + fmt.length := by
  induction fmt, arguments using expand.induct generalizing i s out with
  | case1 arguments =>
    obtain rfl := Option.some.inj h
    refine ⟨1, s.read i, fun fuel hfuel => ?_, (List.append_nil _).symm, fun j hj => ?_⟩
    · obtain ⟨fuel, rfl⟩ := Nat.exists_eq_add_of_le' hfuel
      exact printfLoop_end hfmt
    · rcases List.mem_cons.1 hj with rfl | hj
      · exact .inr le_rfl
      · exact .inl hj
  | case2 c arguments =>
    have hc : c ≠ 37 := hclosed
    rw [expand, if_neg hc] at h
    obtain rfl := Option.some.inj h
    refine ⟨2, (putchar (s.read i) c).read (i + 1), fun fuel hfuel => ?_, rfl, fun j hj => ?_⟩
    · obtain ⟨fuel, rfl⟩ := Nat.exists_eq_add_of_le' hfuel
      rw [printfLoop_char hfmt hc]
      exact printfLoop_end hfmt.next
    · rcases List.mem_cons.1 hj with rfl | hj
      · exact .inr le_rfl
      rcases List.mem_cons.1 hj with rfl | hj
      · exact .inr (Nat.le_add_right _ _)
      · exact .inl hj
  | case3 d fmt arguments ih =>
    rw [expand, if_pos rfl] at h
    obtain ⟨⟨cs, rest⟩, hconversion, hrest⟩ := Option.bind_eq_some_iff.1 h
    obtain ⟨out', hexpand, rfl⟩ := Option.map_eq_some_iff.1 hrest
    have hopen : ¬ EndsOpen fmt := hclosed
    have hd : s.mem (format + BitVec.ofNat 32 (i + 1)) = d := hfmt.next.first.1
    obtain ⟨N, s₁, hswitch, hout, hpassed₁⟩ :=
      printfSwitch_spec (s := (s.read i).read (i + 1)) hconversion hpassed
    obtain ⟨hreads, hsame⟩ := printfSwitch_frame (hswitch N le_rfl)
    have hfmt₁ : FormatAt s₁.mem text (format + BitVec.ofNat 32 (i + 2)) fmt :=
      hfmt.next.next.kept hsame
    obtain ⟨N', s', hloop, hout', hreads'⟩ := ih (cs, rest) hexpand hopen hfmt₁ hpassed₁
    refine ⟨max N N' + 1, s', fun fuel hfuel => ?_, ?_, fun j hj => ?_⟩
    · obtain ⟨fuel, rfl⟩ := Nat.exists_eq_add_of_le' (Nat.one_le_of_lt hfuel)
      rw [printfLoop_percent hfmt, hd, hswitch fuel (by omega), Option.bind_some]
      exact hloop fuel (by omega)
    · rw [hout', hout, ← List.append_assoc]
      rfl
    · simp only [List.length_cons]
      rcases hreads' j hj with hj | hj
      · rw [hreads] at hj
        rcases List.mem_cons.1 hj with rfl | hj
        · exact .inr (by omega)
        rcases List.mem_cons.1 hj with rfl | hj
        · exact .inr (by omega)
        · exact .inl hj
      · exact .inr (by omega)
  | case4 c d fmt arguments hc ih =>
    rw [expand, if_neg hc] at h
    obtain ⟨out', hexpand, rfl⟩ := Option.map_eq_some_iff.1 h
    have hopen : ¬ EndsOpen (d :: fmt) := by
      rwa [EndsOpen, if_neg hc] at hclosed
    obtain ⟨N, s', hloop, hout, hreads⟩ :=
      ih (s := putchar (s.read i) c) hexpand hopen hfmt.next hpassed
    refine ⟨N + 1, s', fun fuel hfuel => ?_, ?_, fun j hj => ?_⟩
    · obtain ⟨fuel, rfl⟩ := Nat.exists_eq_add_of_le' (Nat.one_le_of_lt hfuel)
      rw [printfLoop_char hfmt hc]
      exact hloop fuel (by omega)
    · rw [hout, putchar, Output.read, List.append_assoc]
      rfl
    · simp only [List.length_cons] at hreads ⊢
      rcases hreads j hj with hj | hj
      · rcases List.mem_cons.1 hj with rfl | hj
        · exact .inr (Nat.le_add_right _ _)
        · exact .inl hj
      · exact .inr (by omega)

/-- Behind a `'%'` at the end the scan goes on past the terminator. -/
lemma printfLoop_open (hopen : EndsOpen fmt)
    (hfmt : FormatAt s.mem text (format + BitVec.ofNat 32 i) fmt)
    (h : printfLoop text format args fuel i s = some s') : i + fmt.length + 1 ∈ s'.reads := by
  induction fmt using EndsOpen.induct generalizing i s fuel with
  | case1 => exact absurd hopen not_false
  | case2 c =>
    obtain rfl : c = 37 := hopen
    cases fuel with
    | zero => simp [printfLoop] at h
    | succ fuel =>
      rw [printfLoop_percent hfmt] at h
      obtain ⟨s₁, -, hloop⟩ := Option.bind_eq_some_iff.1 h
      exact (printfLoop_reads hloop).2
  | case3 d fmt ih =>
    have hrest : EndsOpen fmt := hopen
    cases fuel with
    | zero => simp [printfLoop] at h
    | succ fuel =>
      rw [printfLoop_percent hfmt] at h
      obtain ⟨s₁, hswitch, hloop⟩ := Option.bind_eq_some_iff.1 h
      have hread := ih hrest (hfmt.next.next.kept (printfSwitch_frame hswitch).2) hloop
      rwa [show i + 2 + fmt.length = i + (37 :: d :: fmt).length by
        simp only [List.length_cons]
        omega] at hread
  | case4 c d fmt hc ih =>
    have hrest : EndsOpen (d :: fmt) := by
      rwa [EndsOpen, if_neg hc] at hopen
    cases fuel with
    | zero => simp [printfLoop] at h
    | succ fuel =>
      rw [printfLoop_char hfmt hc] at h
      have hread := ih (s := putchar (s.read i) c) hrest hfmt.next h
      rwa [show i + 1 + (d :: fmt).length = i + (c :: d :: fmt).length by
        simp only [List.length_cons]
        omega] at hread

/-- `printf` with arguments as its format asks for writes the format with its conversions replaced,
and reads it up to its terminator, exactly when the format does not end in an unquoted `'%'`. -/
theorem printf_expands_iff (hfmt : FormatAt mem text format fmt)
    (hpassed : Passed mem text args 0 arguments) (hexpand : expand fmt arguments = some out) :
    (∃ fuel s, printf fuel text format args mem = some s ∧ s.out = out ∧
      ∀ i ∈ s.reads, i ≤ fmt.length) ↔ ¬ EndsOpen fmt := by
  have hstart : FormatAt mem text (format + BitVec.ofNat 32 0) fmt := by
    rwa [BitVec.add_zero]
  constructor
  · rintro ⟨fuel, s, hprintf, -, hreads⟩ hopen
    have hpast := hreads _ (printfLoop_open (s := ⟨mem, 0, [], []⟩) hopen hstart hprintf)
    omega
  · intro hclosed
    obtain ⟨N, s, hloop, hout, hreads⟩ :=
      printfLoop_expands (s := ⟨mem, 0, [], []⟩) hexpand hclosed hstart hpassed
    refine ⟨N, s, hloop N le_rfl, hout, fun i hi => ?_⟩
    rcases hreads i hi with hi | hi
    · simp at hi
    · omega

/-- `"x%d"` with -7. -/
theorem printf_expands_iff_oneInt :
    ∃ fuel s, printf fuel 0x2000 0x1000 (fun _ => -7)
      (writeBytes (fun _ => 0) 0x1000 [120, 37, 100, 0]) = some s ∧ s.out = [120, 45, 55] ∧
      ∀ i ∈ s.reads, i ≤ 3 := by
  have hfmt : FormatAt (writeBytes (fun _ => 0) 0x1000 [120, 37, 100, 0]) 0x2000 0x1000
      [120, 37, 100] := ⟨writeBytes_bytesAt (by decide), by decide, by decide⟩
  have hnumeral : numeral (-7) = [45, 55] := by
    simp [numeral, unsignedNumeral, digits]
  have hexpand : expand [120, 37, 100] [.int (-7)] = some [120, 45, 55] := by
    change some (120 :: (numeral (-7) ++ [])) = _
    rw [hnumeral]
    rfl
  have hpassed : Passed (writeBytes (fun _ => 0) 0x1000 [120, 37, 100, 0]) 0x2000 (fun _ => -7) 0
      [.int (-7)] := ⟨rfl, trivial⟩
  exact (printf_expands_iff hfmt hpassed hexpand).2 not_false

/-- `"%"`: a zero byte is written, and then what stands behind the terminator. -/
theorem printf_openPercent :
    let mem := writeBytes (fun _ => 0) 0x1000 [37, 0, 65]
    (∃ s, printf 5 0x2000 0x1000 (fun _ => 0) mem = some s ∧ s.out = [0, 65] ∧ s.reads = [3, 2, 1, 0]) ∧
    ¬ ∃ fuel s, printf fuel 0x2000 0x1000 (fun _ => 0) mem = some s ∧ s.out = [] ∧
      ∀ i ∈ s.reads, i ≤ 1 := by
  intro mem
  have hbytes : BytesAt mem 0x1000 [37, 0, 65] := writeBytes_bytesAt (by decide)
  have hfmt : FormatAt mem 0x2000 (0x1000 + BitVec.ofNat 32 0) [37] :=
    ⟨⟨hbytes.1, hbytes.2.1, trivial⟩, by decide, by decide⟩
  refine ⟨⟨_, rfl, rfl, rfl⟩, ?_⟩
  rintro ⟨fuel, s, hprintf, -, hreads⟩
  have hopen : EndsOpen [37] := rfl
  have hpast := hreads _ (printfLoop_open (s := ⟨mem, 0, [], []⟩) hopen hfmt hprintf)
  exact absurd hpast (by decide)

end AlphaOS.Stdlib
