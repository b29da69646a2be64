import AlphaOS.CommandArguments
import AlphaOS.Strtok

/-! `alphaos_parse_command` of the programs' library: a command is copied to a buffer on the stack and
cut into words there, and every word goes to an argument of its own. -/
namespace AlphaOS.Stdlib
open CString Processes WordMemory Words

/-- `malloc` returns 0 or a block, which the kernel has cleared. -/
def malloc (s : Program) (size : ℕ) : Word × Program :=
  match s.results with
  | [] => (0, s)
  | ptr :: results =>
    (ptr, { s with mem := if ptr = 0 then s.mem else fill s.mem ptr size 0, results := results })

/-- An argument gets its string and no argument behind it. -/
def setArgument (mem : Mem) (argument token : Word) : Mem :=
  write32 (strncpy mem argument token 512) (argument + 512) 0

/-- `while (token)`, for a command of at most `n` more words. -/
def parseLoop (fuel : ℕ) : ℕ → Word → Word → Program → Option Program
  | 0, _, token, s => if token = 0 then some s else none
  | n + 1, current, token, s =>
    if token = 0 then some s else
    let (newCommand, s) := malloc s 516
    if newCommand = 0 then some s else
    let mem := setArgument s.mem newCommand token
    let mem := write32 mem (current + 512) newCommand
    (strtok fuel 0 [32] { s with mem := mem }).bind fun (token, s) =>
    parseLoop fuel n newCommand token s

/-- `scommand` is the place of the buffer. -/
def alphaosParseCommand (fuel : ℕ) (scommand command : Word) (max : ℤ) (s : Program) :
    Option (Word × Program) :=
  if max > 1025 then some (0, s) else
  (strtok fuel scommand [32] { s with mem := strncpy s.mem scommand command 1025 }).bind fun (token, s) =>
  if token = 0 then some (0, s) else
  let (rootCommand, s) := malloc s 516
  if rootCommand = 0 then some (0, s) else
  (strtok fuel 0 [32] { s with mem := setArgument s.mem rootCommand token }).bind fun (token, s) =>
  (parseLoop fuel fuel rootCommand token s).map fun s => (rootCommand, s)

/-- The next `n` results of `malloc` are blocks. -/
def Succeeds : ℕ → List Word → Prop
  | 0, _ => True
  | _ + 1, [] => False
  | n + 1, ptr :: results => ptr ≠ 0 ∧ Succeeds n results

/-- The blocks that `malloc` returns are apart from what is in use and from each other. -/
structure Fresh (used : Word → Prop) (results : List Word) : Prop where
  apart : ∀ ptr ∈ results, ptr ≠ 0 → ∀ x, InRange ptr 516 x → ¬ used x
  disjoint : results.Pairwise fun p q => p ≠ 0 → q ≠ 0 → ∀ x, InRange p 516 x → ¬ InRange q 516 x

/-- A string in memory, a buffer on the stack apart from it, and fresh blocks. -/
structure Placed (s : Program) (scommand command : Word) (cmd : List Byte) : Prop where
  buffer : scommand.toNat + 1025 ≤ 2 ^ 32
  ne_zero : scommand ≠ 0
  bytes : BytesAt s.mem command (cmd ++ [0])
  nonzero : 0 ∉ cmd
  apart : ∀ n ≤ cmd.length, ¬ InRange scommand 1025 (command + BitVec.ofNat 32 n)
  fresh : Fresh (fun x => InRange scommand 1025 x ∨ ∃ n ≤ cmd.length, x = command + BitVec.ofNat 32 n)
    s.results

/-- The words of a command, as far as they fit. -/
def commandWords (cmd : List Byte) : List (List Byte) :=
  (words 32 (cmd.take 1024)).map fun w => w.take 511

/-- A list of arguments with these strings. -/
def ListAt (mem : Mem) (root : Word) (strings : List (List Byte)) : Prop :=
  ∃ args, args.map Prod.snd = strings ∧ ArgumentsAt mem root args

variable {mem mem' : Mem} {s s' : Program} {buffer scommand command current token ptr : Word}
  {cmd w : List Byte} {ws : List (List Byte)} {fuel n : ℕ} {max : ℤ} {used : Word → Prop}
  {results : List Word}

lemma inRange_argument (ptr x : Word) :
    InRange ptr 516 x ↔ InRange ptr 512 x ∨ InRange (ptr + 512) 4 x :=
  (inRange_split ptr x (show 512 + 4 < 2 ^ 32 by omega)).1

lemma not_inRange_next {x : Word} (h : InRange ptr 512 x) : ¬ InRange (ptr + 512) 4 x := by
  intro hlate
  have hplace := (inRange_split ptr x (show 512 + 4 < 2 ^ 32 by omega)).2 hlate
  rw [InRange] at h
  omega

lemma length_string (w : List Byte) : (w.take 511).length < 512 := by
  rw [List.length_take]
  omega

/-- The string of an argument, whatever happens behind it. -/
lemma bytesAt_string (h : BytesAt mem ptr (w.take 511 ++ [0]))
    (hsame : ∀ x, InRange ptr 512 x → mem' x = mem x) : BytesAt mem' ptr (w.take 511 ++ [0]) := by
  have hlength := length_string w
  apply h.congr
  intro m hm
  rw [List.length_append, List.length_singleton] at hm
  exact hsame _ (inRange_ofNat (by omega) (by omega))

/-- A new block with a token from the buffer. -/
lemma setArgument_spec (htoken : Left mem buffer token w)
    (hptr : ∀ x, InRange ptr 516 x → ¬ InRange buffer 1025 x) :
    BytesAt (setArgument (fill mem ptr 516 0) ptr token) ptr (w.take 511 ++ [0]) ∧
      argumentNext (setArgument (fill mem ptr 516 0) ptr token) ptr = 0 ∧
      ∀ x, ¬ InRange ptr 516 x → setArgument (fill mem ptr 516 0) ptr token x = mem x := by
  have hlength : (w.take 511 ++ [0]).length ≤ 512 := by
    rw [List.length_append, List.length_take, List.length_singleton]
    omega
  have hcleared : Left (fill mem ptr 516 0) buffer token w :=
    htoken.congr fun x hx => if_neg fun hin => hptr x hin hx
  have hcopy : strncpy (fill mem ptr 516 0) ptr token 512 =
      writeBytes (fill mem ptr 516 0) ptr (w.take 511 ++ [0]) := by
    apply strncpy_take hcleared.bytes hcleared.nonzero
    intro m _ hm m' hm' _ heq
    refine hptr (ptr + BitVec.ofNat 32 m) (inRange_ofNat (by omega) (by omega)) ?_
    rw [← heq]
    exact htoken.inRange hm'
  refine ⟨?_, read32_write32 _ _ _, fun x hx => ?_⟩
  · rw [setArgument, hcopy]
    exact bytesAt_string (writeBytes_bytesAt (by omega)) fun x hx => if_neg (not_inRange_next hx)
  · rw [inRange_argument, not_or] at hx
    rw [setArgument, hcopy, write32, if_neg hx.2, writeBytes_of_not]
    · exact if_neg fun hin => ((inRange_argument ptr x).1 hin).elim hx.1 hx.2
    · intro m hm heq
      exact hx.1 (heq ▸ inRange_ofNat (by omega) (by omega))

lemma Fresh.tail (h : Fresh used (ptr :: results)) : Fresh used results :=
  ⟨fun q hq => h.apart q (List.mem_cons_of_mem ptr hq), (List.pairwise_cons.1 h.disjoint).2⟩

/-- The blocks of the results that are left. -/
def InBlocks (results : List Word) (x : Word) : Prop := ∃ ptr ∈ results, ptr ≠ 0 ∧ InRange ptr 516 x

/-- What the loop does behind the argument `current` with the words that are still to come. It ends with
a place left in the tokenizer unless there was a block for every word, and then the words are linked
behind `current`. -/
def LoopLinks (fuel : ℕ) (buffer : Word) (used : Word → Prop) (ws : List (List Byte)) : Prop :=
  ∀ n current token s, Ready s buffer token ws → ws.length ≤ n → Fresh used s.results →
    (∀ x, InRange current 516 x → ¬ InRange buffer 1025 x) →
    (∀ x, InRange current 516 x → ¬ InBlocks s.results x) → argumentNext s.mem current = 0 →
    ∃ s', parseLoop fuel n current token s = some s' ∧ (s'.sp = 0 ↔ Succeeds ws.length s.results) ∧
      (∀ x, ¬ InRange buffer 1025 x → ¬ InBlocks s.results x → ¬ InRange (current + 512) 4 x →
        s'.mem x = s.mem x) ∧
      (Succeeds ws.length s.results →
        ListAt s'.mem (argumentNext s'.mem current) (ws.map fun w => w.take 511))

/-- From a block that has its token on: the next token is taken, and the loop links the rest. -/
lemma LoopLinks.from_block {rest : List Byte} {sp : Word} (hloop : LoopLinks fuel buffer used ws)
    (htoken : Left mem buffer token w) (hleft : Left mem buffer sp rest) (hwords : words 32 rest = ws)
    (hbuffer : buffer.toNat + 1025 ≤ 2 ^ 32) (hfuel : 1025 ≤ fuel) (hn : ws.length ≤ n)
    (hfresh : Fresh used (ptr :: results)) (hused : ∀ x, InRange buffer 1025 x → used x) (hptr : ptr ≠ 0)
    (hset : ∀ x, InRange ptr 516 x → mem' x = setArgument (fill mem ptr 516 0) ptr token x)
    (hkept : ∀ x, InRange buffer 1025 x → mem' x = mem x) :
    ∃ token' s₁ s', strtok fuel 0 [32] ⟨mem', sp, results⟩ = some (token', s₁) ∧
      parseLoop fuel n ptr token' s₁ = some s' ∧
      (s'.sp = 0 ↔ Succeeds (ws.length + 1) (ptr :: results)) ∧
      (∀ x, ¬ InRange buffer 1025 x → ¬ InBlocks (ptr :: results) x → s'.mem x = mem' x) ∧
      (Succeeds (ws.length + 1) (ptr :: results) →
        ListAt s'.mem ptr ((w :: ws).map fun w => w.take 511)) := by
  have hblock : ∀ x, InRange ptr 516 x → ¬ InRange buffer 1025 x := fun x hx hin =>
    hfresh.apart ptr List.mem_cons_self hptr x hx (hused x hin)
  have hothers : ∀ x, InRange ptr 516 x → ¬ InBlocks results x := by
    rintro x hx ⟨q, hq, hne, hin⟩
    exact (List.pairwise_cons.1 hfresh.disjoint).1 q hq hptr hne x hx hin
  obtain ⟨hstring, hlast, -⟩ := setArgument_spec htoken hblock
  obtain ⟨token', s₁, hstrtok, hready, hresults, hsame⟩ := @strtok_ready ⟨mem', sp, results⟩ buffer sp rest
    fuel 0 (hleft.congr hkept) hbuffer hfuel (.inl ⟨rfl, rfl⟩)
  change s₁.results = results at hresults
  rw [hwords] at hready
  have hblockSame : ∀ x, InRange ptr 516 x →
      s₁.mem x = setArgument (fill mem ptr 516 0) ptr token x :=
    fun x hx => (hsame x (hblock x hx)).trans (hset x hx)
  obtain ⟨s', hrun, hdone, hframe, hlist⟩ := hloop n ptr token' s₁ hready hn (hresults ▸ hfresh.tail) hblock
    (hresults ▸ hothers) ((argumentNext_congr hblockSame).trans hlast)
  rw [hresults] at hdone hframe hlist
  refine ⟨token', s₁, s', hstrtok, hrun, hdone.trans (and_iff_right hptr).symm, fun x hbuf hblocks => ?_,
    fun hsucceeds => ?_⟩
  · have hoff : ¬ InRange ptr 516 x := fun hin => hblocks ⟨ptr, List.mem_cons_self, hptr, hin⟩
    have hrest : ¬ InBlocks results x := fun ⟨q, hq, hin⟩ => hblocks ⟨q, List.mem_cons_of_mem ptr hq, hin⟩
    rw [hframe x hbuf hrest fun hin => hoff ((inRange_argument ptr x).2 (.inr hin))]
    exact hsame x hbuf
  · obtain ⟨args, hargs, hlistAt⟩ := hlist hsucceeds.2
    have hfinal : BytesAt s'.mem ptr (w.take 511 ++ [0]) := by
      refine bytesAt_string hstring fun x hx => ?_
      have hin := (inRange_argument ptr x).2 (.inl hx)
      rw [hframe x (hblock x hin) (hothers x hin) (not_inRange_next hx), hblockSame x hin]
    refine ⟨(ptr, w.take 511) :: args, by rw [List.map_cons, hargs, List.map_cons], ?_⟩
    exact ⟨rfl, hptr, fun h0 => htoken.nonzero (List.mem_of_mem_take h0), length_string w, hfinal, hlistAt⟩

lemma parseLoop_links (hbuffer : buffer.toNat + 1025 ≤ 2 ^ 32) (hfuel : 1025 ≤ fuel)
    (hused : ∀ x, InRange buffer 1025 x → used x) (ws : List (List Byte)) :
    LoopLinks fuel buffer used ws := by
  induction ws with
  | nil =>
    intro n current token s ⟨htoken, hsp⟩ _ _ _ _ hnext
    subst htoken
    have hdone : parseLoop fuel n current 0 s = some s := by
      cases n with
      | zero => exact if_pos rfl
      | succ n => exact if_pos rfl
    exact ⟨s, hdone, iff_of_true hsp trivial, fun _ _ _ _ => rfl, fun _ => ⟨[], rfl, hnext⟩⟩
  | cons w ws ih =>
    intro n current token s ⟨htoken, rest, hleft, hwords⟩ hn hfresh hcurrent hapart _
    cases n with
    | zero => simp at hn
    | succ n =>
      have hsp := hleft.ne_zero
      rw [parseLoop, if_neg htoken.ne_zero]
      obtain ⟨mem, sp, results⟩ := s
      cases results with
      | nil =>
        -- no memory: the loop ends here
        refine ⟨⟨mem, sp, []⟩, rfl, iff_of_false hsp not_false, fun _ _ _ _ => rfl, fun h => absurd h not_false⟩
      | cons ptr results =>
        by_cases hptr : ptr = 0
        · subst hptr
          exact ⟨⟨mem, sp, results⟩, rfl, iff_of_false hsp fun h => h.1 rfl, fun _ _ _ _ => rfl,
            fun h => absurd rfl h.1⟩
        simp only [malloc, if_neg hptr]
        have hblock : ∀ x, InRange ptr 516 x → ¬ InRange buffer 1025 x := fun x hx hin =>
          hfresh.apart ptr List.mem_cons_self hptr x hx (hused x hin)
        have hlink : ∀ x, InRange (current + 512) 4 x → InRange current 516 x :=
          fun x hx => (inRange_argument current x).2 (.inr hx)
        obtain ⟨-, -, hkept⟩ := setArgument_spec htoken hblock
        have hlinked : ∀ x, ¬ InRange (current + 512) 4 x →
            write32 (setArgument (fill mem ptr 516 0) ptr token) (current + 512) ptr x =
              setArgument (fill mem ptr 516 0) ptr token x := fun x hx => if_neg hx
        obtain ⟨token', s₁, s', hstrtok, hrun, hdone, hframe, hlist⟩ := ih.from_block htoken hleft hwords
          hbuffer hfuel (Nat.le_of_succ_le_succ hn) hfresh hused hptr
          (fun x hx => hlinked x fun hin =>
            hapart x (hlink x hin) ⟨ptr, List.mem_cons_self, hptr, hx⟩)
          (fun x hx => (hlinked x fun hin => hcurrent x (hlink x hin) hx).trans
            (hkept x fun hin => hblock x hin hx))
        rw [hstrtok, Option.bind_some]
        refine ⟨s', hrun, hdone, fun x hbuf hblocks hcur => ?_, fun hsucceeds => ?_⟩
        · rw [hframe x hbuf hblocks]
          exact (hlinked x hcur).trans (hkept x fun hin => hblocks ⟨ptr, List.mem_cons_self, hptr, hin⟩)
        · -- the link from `current` to the new block
          have hnextCurrent : argumentNext s'.mem current = ptr := by
            rw [argumentNext, read32_eq_of_same fun x hx =>
              hframe x (hcurrent x (hlink x hx)) (hapart x (hlink x hx))]
            exact read32_write32 _ _ _
          rw [hnextCurrent]
          exact hlist hsucceeds

/-- The copy of the command in the buffer. -/
lemma Placed.copied (h : Placed s scommand command cmd) :
    Left (strncpy s.mem scommand command 1025) scommand scommand (cmd.take 1024) ∧
    ∀ x, ¬ InRange scommand 1025 x → strncpy s.mem scommand command 1025 x = s.mem x := by
  have hlength : (cmd.take 1024).length ≤ 1024 := by
    rw [List.length_take]
    omega
  have hcopy : strncpy s.mem scommand command 1025 = writeBytes s.mem scommand (cmd.take 1024 ++ [0]) := by
    apply strncpy_take h.bytes h.nonzero
    intro m _ hm m' hm' _ heq
    apply h.apart m' hm'
    rw [heq]
    exact inRange_ofNat (by omega) (by omega)
  constructor
  · refine ⟨⟨0, (BitVec.add_zero _).symm, by omega⟩, h.ne_zero, ?_, fun h0 => h.nonzero (List.mem_of_mem_take h0)⟩
    rw [hcopy]
    apply writeBytes_bytesAt
    rw [List.length_append, List.length_singleton]
    omega
  · intro x hx
    rw [hcopy, writeBytes_of_not]
    rintro m hm rfl
    rw [List.length_append, List.length_singleton] at hm
    exact hx (inRange_ofNat (by omega) (by omega))

/-- What a call leaves: a list of the words when there was a block for each, and else a tokenizer that
has not forgotten its place. -/
lemma alphaosParseCommand_spec (h : Placed s scommand command cmd) (hsp : s.sp = 0) (hmax : max ≤ 1025)
    (hfuel : 1025 ≤ fuel) :
    ∃ root s', alphaosParseCommand fuel scommand command max s = some (root, s') ∧
      (s'.sp = 0 ↔ Succeeds (words 32 (cmd.take 1024)).length s.results) ∧
      (Succeeds (words 32 (cmd.take 1024)).length s.results →
        BytesAt s'.mem command (cmd ++ [0]) ∧ ListAt s'.mem root (commandWords cmd)) := by
  have hfits : (words 32 (cmd.take 1024)).length ≤ fuel := by
    have hle := length_words_le 32 (cmd.take 1024)
    rw [List.length_take] at hle
    omega
  obtain ⟨hleft, hstored⟩ := h.copied
  obtain ⟨token, s₁, hstrtok, hready, hresults, hsame⟩ := @strtok_ready
    { s with mem := strncpy s.mem scommand command 1025 } scommand scommand (cmd.take 1024) fuel scommand
    hleft h.buffer hfuel (.inr ⟨rfl, hsp⟩)
  change s₁.results = s.results at hresults
  have hcommand : ∀ n ≤ cmd.length, s₁.mem (command + BitVec.ofNat 32 n) = s.mem (command + BitVec.ofNat 32 n) :=
    fun n hn => (hsame _ (h.apart n hn)).trans (hstored _ (h.apart n hn))
  rw [alphaosParseCommand, if_neg (by omega), hstrtok, Option.bind_some]
  rw [commandWords]
  generalize words 32 (cmd.take 1024) = ws at hready hfits
  cases ws with
  | nil =>
    obtain ⟨rfl, hdone⟩ := hready
    refine ⟨0, s₁, rfl, iff_of_true hdone trivial, fun _ => ⟨h.bytes.congr fun n hn => ?_, [], rfl, rfl⟩⟩
    rw [List.length_append, List.length_singleton] at hn
    exact hcommand n (by omega)
  | cons w ws =>
    obtain ⟨htoken, rest, hrest, hwords⟩ := hready
    have hplace := hrest.ne_zero
    have hfresh := h.fresh
    dsimp only
    rw [if_neg htoken.ne_zero]
    obtain ⟨mem₁, sp₁, results⟩ := s₁
    obtain rfl : results = s.results := hresults
    cases hnext : s.results with
    | nil =>
      exact ⟨0, ⟨mem₁, sp₁, []⟩, rfl, iff_of_false hplace not_false, fun hsucceeds => absurd hsucceeds not_false⟩
    | cons ptr results =>
      by_cases hptr : ptr = 0
      · subst hptr
        exact ⟨0, ⟨mem₁, sp₁, results⟩, rfl, iff_of_false hplace fun hsucceeds => hsucceeds.1 rfl,
          fun hsucceeds => absurd rfl hsucceeds.1⟩
      rw [hnext] at hfresh
      simp only [malloc, if_neg hptr]
      have hblock : ∀ x, InRange ptr 516 x → ¬ InRange scommand 1025 x := fun x hx hin =>
        hfresh.apart ptr List.mem_cons_self hptr x hx (.inl hin)
      obtain ⟨-, -, hkept⟩ := setArgument_spec htoken hblock
      have hused : ∀ x, InRange scommand 1025 x →
          InRange scommand 1025 x ∨ ∃ n ≤ cmd.length, x = command + BitVec.ofNat 32 n := fun x hx => .inl hx
      obtain ⟨token', s₂, s', hstrtok₂, hrun, hdone, hframe, hlist⟩ :=
        (parseLoop_links h.buffer hfuel hused ws).from_block htoken hrest hwords h.buffer hfuel
          (Nat.le_of_succ_le hfits) hfresh hused hptr (fun x _ => rfl)
          (fun x hx => hkept x fun hin => hblock x hin hx)
      rw [hstrtok₂, Option.bind_some]
      dsimp only
      rw [hrun]
      refine ⟨ptr, s', rfl, hdone, fun hsucceeds => ⟨?_, hlist hsucceeds⟩⟩
      refine h.bytes.congr fun n hn => ?_
      rw [List.length_append, List.length_singleton] at hn
      have hbuf := h.apart n (by omega)
      have hoff : ¬ InBlocks (ptr :: results) (command + BitVec.ofNat 32 n) :=
        fun ⟨q, hq, hne, hin⟩ => hfresh.apart q hq hne _ hin (.inr ⟨n, by omega, rfl⟩)
      rw [hframe _ hbuf hoff]
      exact (hkept _ fun hin => hoff ⟨ptr, List.mem_cons_self, hptr, hin⟩).trans (hcommand n (by omega))

/-! Calls one after the other. -/

/-- What a program can come to: a tokenizer at rest, calls for which there was memory, and
whatever else leaves `sp` alone. -/
inductive Session : Program → Prop
  | start {s : Program} (rest : s.sp = 0) : Session s
  | call {s s' : Program} {fuel : ℕ} {scommand command root : Word} {cmd : List Byte} {max : ℤ}
      (session : Session s) (placed : Placed s scommand command cmd) (small : max ≤ 1025)
      (enough : 1025 ≤ fuel) (memory : Succeeds (words 32 (cmd.take 1024)).length s.results)
      (parsed : alphaosParseCommand fuel scommand command max s = some (root, s')) : Session s'
  | other {s s' : Program} (session : Session s) (same : s'.sp = s.sp) : Session s'

lemma Session.sp (h : Session s) : s.sp = 0 := by
  induction h with
  | start hrest => exact hrest
  | call _ hplaced hsmall henough hmemory hparsed ih =>
    obtain ⟨root, s', hspec, hsp, -⟩ := alphaosParseCommand_spec hplaced ih hsmall henough
    rw [hparsed, Option.some.injEq, Prod.mk.injEq] at hspec
    rw [hspec.2]
    exact hsp.2 hmemory
  | other _ hsame ih => exact hsame.trans ih

/-- In every session a call with memory returns the list of the words of its own command: the runs
without a space among its first 1024 characters, each cut to 511. The command stays as it
was, and the tokenizer is at rest. -/
theorem alphaosParseCommand_words (session : Session s) (h : Placed s scommand command cmd)
    (hmax : max ≤ 1025) (hfuel : 1025 ≤ fuel)
    (hmemory : Succeeds (words 32 (cmd.take 1024)).length s.results) :
    ∃ root s', alphaosParseCommand fuel scommand command max s = some (root, s') ∧
      ListAt s'.mem root (commandWords cmd) ∧ (root = 0 ↔ ∀ c ∈ cmd.take 1024, c = 32) ∧
      BytesAt s'.mem command (cmd ++ [0]) ∧ s'.sp = 0 := by
  obtain ⟨root, s', hparse, hsp, hlist⟩ := alphaosParseCommand_spec h session.sp hmax hfuel
  obtain ⟨hcommand, args, hargs, hat⟩ := hlist hmemory
  refine ⟨root, s', hparse, ⟨args, hargs, hat⟩, ?_, hcommand, hsp.2 hmemory⟩
  rw [← words_eq_nil_iff, ← List.map_eq_nil_iff, show List.map _ _ = args.map Prod.snd from hargs.symm,
    List.map_eq_nil_iff]
  cases args with
  | nil => exact iff_of_true hat rfl
  | cons arg args =>
    refine iff_of_false ?_ (List.cons_ne_nil arg args)
    rw [hat.1]
    exact hat.2.1

/-! A layout: a buffer, a string and two blocks, each in a page of its own. -/

lemma inRange_bounds {a x : Word} {size : ℕ} (h : a.toNat + size ≤ 2 ^ 32) (hx : InRange a size x) :
    a.toNat ≤ x.toNat ∧ x.toNat < a.toNat + size := by
  rw [InRange, BitVec.toNat_sub] at hx
  have hlt := x.isLt
  have halt := a.isLt
  omega

/-- The second, the third and the fourth page behind `base`. -/
lemma placed_pages {base : Word} (hne : base ≠ 0) (hbase : base.toNat + 0x4000 ≤ 2 ^ 32)
    (hcmd : 0 ∉ cmd) (hlength : cmd.length < 0x1000)
    (hbytes : BytesAt s.mem (base + BitVec.ofNat 32 0x1000) (cmd ++ [0]))
    (hresults : s.results = [base + BitVec.ofNat 32 0x2000, base + BitVec.ofNat 32 0x3000]) :
    Placed s base (base + BitVec.ofNat 32 0x1000) cmd := by
  have hpage : ∀ k ≤ 0x3000, (base + BitVec.ofNat 32 k).toNat = base.toNat + k :=
    fun k hk => toNat_add_ofNat (by omega)
  have hchar : ∀ n ≤ cmd.length, (base + BitVec.ofNat 32 0x1000 + BitVec.ofNat 32 n).toNat =
      base.toNat + 0x1000 + n := by
    intro n hn
    rw [toNat_add_ofNat, hpage _ (by omega)]
    rw [hpage _ (by omega)]
    omega
  have hblock : ∀ k ≤ 0x3000, 0x2000 ≤ k → ∀ x, InRange (base + BitVec.ofNat 32 k) 516 x →
      base.toNat + k ≤ x.toNat ∧ x.toNat < base.toNat + k + 516 := by
    intro k hk _ x hx
    have hin := inRange_bounds (by rw [hpage k hk]; omega) hx
    rwa [hpage k hk] at hin
  have hused : ∀ k ≤ 0x3000, 0x2000 ≤ k → ∀ x, InRange (base + BitVec.ofNat 32 k) 516 x →
      ¬ (InRange base 1025 x ∨ ∃ n ≤ cmd.length,
        x = base + BitVec.ofNat 32 0x1000 + BitVec.ofNat 32 n) := by
    intro k hk hlow x hx
    have hin := hblock k hk hlow x hx
    rintro (hbuffer | ⟨n, hn, rfl⟩)
    · have hbounds := inRange_bounds (by omega) hbuffer
      omega
    · rw [hchar n hn] at hin
      omega
  refine ⟨by omega, hne, hbytes, hcmd, fun n hn hin => ?_, ?_, ?_⟩
  · have hbounds := inRange_bounds (by omega) hin
    rw [hchar n hn] at hbounds
    omega
  · rw [hresults]
    intro ptr hptr _
    simp only [List.mem_cons, List.not_mem_nil, or_false] at hptr
    rcases hptr with rfl | rfl
    · exact hused 0x2000 (by omega) le_rfl
    · exact hused 0x3000 le_rfl (by omega)
  · rw [hresults, List.pairwise_pair]
    intro _ _ x hx hx'
    have hfirst := hblock 0x2000 (by omega) le_rfl x hx
    have hsecond := hblock 0x3000 le_rfl (by omega) x hx'
    omega

/-- `" ab c"`, with two blocks. -/
def twoWords : Program :=
  ⟨writeBytes (fun _ => 0) 0x9000 [32, 97, 98, 32, 99, 0], 0, [0xA000, 0xB000]⟩

theorem alphaosParseCommand_words_two :
    ∃ root s', alphaosParseCommand 1025 0x8000 0x9000 1024 twoWords = some (root, s') ∧
      ListAt s'.mem root [[97, 98], [99]] ∧ (root = 0 ↔ ∀ c ∈ ([32, 97, 98, 32, 99] : List Byte), c = 32) ∧
      BytesAt s'.mem 0x9000 [32, 97, 98, 32, 99, 0] ∧ s'.sp = 0 := by
  have hplaced : Placed twoWords 0x8000 0x9000 [32, 97, 98, 32, 99] :=
    @placed_pages twoWords [32, 97, 98, 32, 99] 0x8000 (by decide) (by decide) (by decide) (by decide)
      (writeBytes_bytesAt (by decide)) rfl
  exact alphaosParseCommand_words (.start rfl) hplaced (by decide) le_rfl
    ⟨by decide, by decide, trivial⟩

/-! A call without memory, and the call behind it. -/

/-- A place left in the tokenizer is where the next call reads: at a zero there it finds no word. -/
lemma alphaosParseCommand_stale {root : Word} (hsp : s.sp ≠ 0)
    (hzero : strncpy s.mem scommand command 1025 s.sp = 0)
    (h : alphaosParseCommand fuel scommand command max s = some (root, s')) : root = 0 := by
  rw [alphaosParseCommand] at h
  by_cases hmax : max > 1025
  · rw [if_pos hmax] at h
    exact (Prod.mk.inj (Option.some.inj h)).1.symm
  rw [if_neg hmax, strtok, if_neg fun h0 => hsp h0.2] at h
  dsimp only at h
  rw [if_neg fun h0 => hsp h0.2] at h
  cases fuel with
  | zero => simp [strtokSkip] at h
  | succ fuel =>
    have hskip : strtokSkip [32] (strncpy s.mem scommand command 1025) (fuel + 1) s.sp = some s.sp := by
      rw [strtokSkip, hzero]
      rfl
    rw [hskip, Option.bind_some, if_pos hzero, Option.bind_some] at h
    exact (Prod.mk.inj (Option.some.inj h)).1.symm

/-- A page for a program away from an address. -/
lemma exists_base (a : Word) : ∃ base : Word, base ≠ 0 ∧ base.toNat + 0x4000 ≤ 2 ^ 32 ∧
    ∀ k < 0x4000, a ≠ base + BitVec.ofNat 32 k := by
  by_cases ha : a.toNat < 0x80000000
  · refine ⟨0x80000000, by decide, by decide, fun k hk heq => ?_⟩
    have htoNat := congrArg BitVec.toNat heq
    rw [toNat_add_ofNat (show (0x80000000 : Word).toNat + k < 2 ^ 32 by change 0x80000000 + k < _; omega)] at htoNat
    change a.toNat = 0x80000000 + k at htoNat
    omega
  · refine ⟨0x1000, by decide, by decide, fun k hk heq => ?_⟩
    have htoNat := congrArg BitVec.toNat heq
    rw [toNat_add_ofNat (show (0x1000 : Word).toNat + k < 2 ^ 32 by change 0x1000 + k < _; omega)] at htoNat
    change a.toNat = 0x1000 + k at htoNat
    omega

/-- A program whose tokenizer stands at a zero byte, far from its command. -/
lemma exists_stale {a : Word} (ha : a ≠ 0) :
    ∃ s scommand command, s.sp = a ∧ Placed s scommand command [97] ∧ Succeeds 1 s.results ∧
      ∀ fuel root s', alphaosParseCommand fuel scommand command 1025 s = some (root, s') → root = 0 := by
  obtain ⟨base, hbase, hroom, haway⟩ := exists_base a
  have hstring : BytesAt (writeBytes (fun _ => 0) (base + BitVec.ofNat 32 0x1000) [97, 0])
      (base + BitVec.ofNat 32 0x1000) ([97] ++ [0]) := writeBytes_bytesAt (by decide)
  have hblock : base + BitVec.ofNat 32 0x2000 ≠ 0 := by
    intro h0
    have hplace := @toNat_add_ofNat base 0x2000 (by omega)
    rw [h0] at hplace
    change 0 = _ at hplace
    omega
  have hzero : strncpy (writeBytes (fun _ => 0) (base + BitVec.ofNat 32 0x1000) [97, 0]) base
      (base + BitVec.ofNat 32 0x1000) 1025 a = 0 := by
    rw [strncpy, strncpyLoop_of_not, writeBytes_of_not]
    · intro n hn
      rw [add_assoc, ← BitVec.ofNat_add]
      exact (haway _ (by simp at hn; omega)).symm
    · intro m hm
      exact (haway _ (by omega)).symm
  refine ⟨⟨writeBytes (fun _ => 0) (base + BitVec.ofNat 32 0x1000) [97, 0], a,
    [base + BitVec.ofNat 32 0x2000, base + BitVec.ofNat 32 0x3000]⟩, base, base + BitVec.ofNat 32 0x1000,
    rfl, placed_pages hbase hroom (by decide) (by decide) hstring rfl, ⟨hblock, trivial⟩,
    fun fuel root s' => alphaosParseCommand_stale (s := ⟨_, a, _⟩) ha hzero⟩

/-- After a first call with any results of `malloc`, every call with memory returns the words of its
own command, whatever else the program did in between, exactly when the first call was refused for
its `max` or got a block for each of its words. -/
theorem secondCall_words_iff {root : Word} {s₁ : Program} (h : Placed s scommand command cmd)
    (hsp : s.sp = 0) (hfuel : 1025 ≤ fuel)
    (hfirst : alphaosParseCommand fuel scommand command max s = some (root, s₁)) :
    (∀ s₂ scommand₂ command₂ cmd₂ max₂, s₂.sp = s₁.sp → Placed s₂ scommand₂ command₂ cmd₂ →
      max₂ ≤ 1025 → Succeeds (words 32 (cmd₂.take 1024)).length s₂.results →
      ∃ fuel₂ root₂ s', alphaosParseCommand fuel₂ scommand₂ command₂ max₂ s₂ = some (root₂, s') ∧
        ListAt s'.mem root₂ (commandWords cmd₂)) ↔
      1025 < max ∨ Succeeds (words 32 (cmd.take 1024)).length s.results := by
  have hrest : s₁.sp = 0 ↔ 1025 < max ∨ Succeeds (words 32 (cmd.take 1024)).length s.results := by
    by_cases hmax : 1025 < max
    · rw [alphaosParseCommand, if_pos hmax, Option.some.injEq, Prod.mk.injEq] at hfirst
      rw [← hfirst.2]
      exact iff_of_true hsp (.inl hmax)
    · obtain ⟨root', s', hspec, hdone, -⟩ := alphaosParseCommand_spec h hsp (not_lt.1 hmax) hfuel
      rw [hfirst, Option.some.injEq, Prod.mk.injEq] at hspec
      rw [hspec.2, hdone, or_iff_right hmax]
  rw [← hrest]
  constructor
  · intro hsecond
    by_contra hne
    obtain ⟨s₂, scommand₂, command₂, hsame, hplaced, hmemory, hnone⟩ := exists_stale hne
    obtain ⟨fuel₂, root₂, s', hparse, args, hargs, hat⟩ :=
      hsecond s₂ scommand₂ command₂ [97] 1025 hsame hplaced le_rfl hmemory
    obtain rfl := hnone _ _ _ hparse
    -- the list of the word cannot be empty
    cases args with
    | nil => exact List.cons_ne_nil _ _ hargs.symm
    | cons arg args => exact hat.2.1 hat.1.symm
  · intro hzero s₂ scommand₂ command₂ cmd₂ max₂ hsame hplaced hmax hmemory
    obtain ⟨root₂, s', hparse, -, hlist⟩ :=
      @alphaosParseCommand_spec s₂ _ _ _ 1025 _ hplaced (hsame.trans hzero) hmax le_rfl
    exact ⟨1025, root₂, s', hparse, (hlist hmemory).2⟩

theorem secondCall_words_iff_two :
    ∃ root s₁, alphaosParseCommand 1025 0x8000 0x9000 1024 twoWords = some (root, s₁) ∧
      ∀ s₂ scommand₂ command₂ cmd₂ max₂, s₂.sp = s₁.sp → Placed s₂ scommand₂ command₂ cmd₂ →
        max₂ ≤ 1025 → Succeeds (words 32 (cmd₂.take 1024)).length s₂.results →
        ∃ fuel₂ root₂ s', alphaosParseCommand fuel₂ scommand₂ command₂ max₂ s₂ = some (root₂, s') ∧
          ListAt s'.mem root₂ (commandWords cmd₂) := by
  have hplaced : Placed twoWords 0x8000 0x9000 [32, 97, 98, 32, 99] :=
    @placed_pages twoWords [32, 97, 98, 32, 99] 0x8000 (by decide) (by decide) (by decide) (by decide)
      (writeBytes_bytesAt (by decide)) rfl
  have hmemory : Succeeds (words 32 (([32, 97, 98, 32, 99] : List Byte).take 1024)).length
      twoWords.results := ⟨by decide, by decide, trivial⟩
  obtain ⟨root, s₁, hfirst, -⟩ := @alphaosParseCommand_spec twoWords _ _ _ 1025 1024 hplaced rfl
    (by decide) le_rfl
  exact ⟨root, s₁, hfirst, (secondCall_words_iff hplaced rfl le_rfl hfirst).2 (.inr hmemory)⟩

/-- The first character of a list of one argument. -/
lemma ListAt.first {c : Byte} (h : ListAt mem ptr [c :: w]) : mem ptr = c := by
  obtain ⟨args, hargs, hat⟩ := h
  cases args with
  | nil => exact absurd hargs.symm (List.cons_ne_nil _ _)
  | cons arg args =>
    obtain ⟨hfirst, -⟩ := List.cons.inj hargs
    obtain ⟨rfl, -, -, -, hbytes, -⟩ := hat
    rw [hfirst] at hbytes
    exact hbytes.1

/-- `"a b"` and `"c"` at `0x9000` and `0x9010`, and no memory for the first argument. -/
def starved : Program :=
  ⟨writeBytes (writeBytes (fun _ => 0) 0x9000 [97, 32, 98, 0]) 0x9010 [99, 0], 0, [0, 0xA000]⟩

/-- The first call has no memory. The second one, for `"c"` in the same buffer, goes on in the old
command and returns `"b"`. -/
theorem starved_secondCall :
    ∃ s₁ s₂, alphaosParseCommand 1025 0x8000 0x9000 1024 starved = some (0, s₁) ∧
      alphaosParseCommand 1025 0x8000 0x9010 1024 s₁ = some (0xA000, s₂) ∧
      BytesAt s₂.mem 0xA000 [98, 0] ∧ ¬ ListAt s₂.mem 0xA000 [[99]] := by
  refine ⟨_, _, rfl, rfl, ⟨rfl, rfl, trivial⟩, fun h => ?_⟩
  have hfirst : (98 : Byte) = 99 := h.first
  exact absurd hfirst (by decide)

end AlphaOS.Stdlib
