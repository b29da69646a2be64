import AlphaOS.WordMemory

/-! A 32-bit x86 processor in protected mode, reduced to the instructions that interrupt
entries and returns to user mode are made of. Code is kept apart from the bytes of
memory. The flags an arithmetic instruction leaves are a parameter of the semantics. -/
namespace AlphaOS.X86
open WordMemory

inductive Reg
  | eax | ecx | edx | ebx | esp | ebp | esi | edi
  deriving DecidableEq

inductive Seg
  | ds | es | fs | gs
  deriving DecidableEq

inductive Instr
  | mov (dst src : Reg)
  | load (dst base : Reg) (offset : BitVec 32)
  /-- `mov r16, [base + offset]`, which keeps the upper half of the register. -/
  | load16 (dst base : Reg) (offset : BitVec 32)
  | movSeg (dst : Seg) (src : Reg)
  | push (src : Reg)
  | pushImm (value : BitVec 32)
  | pushMem (base : Reg) (offset : BitVec 32)
  | pop (dst : Reg)
  | pushf
  | pushad
  | orImm (dst : Reg) (value : BitVec 32)
  | addImm (dst : Reg) (value : BitVec 32)
  | call (target : BitVec 32)
  | ret
  | iretd
  deriving DecidableEq

structure Machine where
  gpr : Reg → BitVec 32
  seg : Seg → BitVec 16
  eip : BitVec 32
  cs : BitVec 32
  ss : BitVec 32
  flags : BitVec 32
  mem : Mem

/-- The privilege level of a code segment selector. -/
def rpl (cs : BitVec 32) : BitVec 32 := cs &&& 3

def Machine.setReg (m : Machine) (r : Reg) (v : BitVec 32) : Machine :=
  { m with gpr := Function.update m.gpr r v }

def Machine.push (m : Machine) (v : BitVec 32) : Machine :=
  { m.setReg .esp (m.gpr .esp - 4) with mem := write32 m.mem (m.gpr .esp - 4) v }

/-- The word at `base + offset`. -/
def Machine.word (m : Machine) (base : Reg) (offset : BitVec 32) : BitVec 32 :=
  read32 m.mem (m.gpr base + offset)

def Machine.drop (m : Machine) : Machine := m.setReg .esp (m.gpr .esp + 4)

/-- `pushad` pushes the stack pointer as it was before. -/
def Machine.pushad (m : Machine) : Machine :=
  [m.gpr .eax, m.gpr .ecx, m.gpr .edx, m.gpr .ebx, m.gpr .esp, m.gpr .ebp, m.gpr .esi,
    m.gpr .edi].foldl Machine.push m

/-- `iretd` pops the stack pointer and its segment only on a return to another level. -/
def Machine.iretd (m : Machine) : Machine :=
  let eip := m.word .esp 0
  let cs := m.word .esp 4
  let flags := m.word .esp 8
  let m' := { m with eip := eip, cs := cs, flags := flags }
  if rpl cs = rpl m.cs then m'.setReg .esp (m.gpr .esp + 12) else
  { m'.setReg .esp (m.word .esp 12) with ss := m.word .esp 16 }

/-- One instruction; `eip` already points behind it. -/
def exec (alu : BitVec 32 → BitVec 32 → BitVec 32) (m : Machine) : Instr → Machine
  | .mov dst src => m.setReg dst (m.gpr src)
  | .load dst base offset => m.setReg dst (m.word base offset)
  | .load16 dst base offset =>
    m.setReg dst (m.gpr dst &&& 0xFFFF0000 ||| m.word base offset &&& 0xFFFF)
  | .movSeg dst src => { m with seg := Function.update m.seg dst ((m.gpr src).setWidth 16) }
  | .push src => m.push (m.gpr src)
  | .pushImm value => m.push value
  | .pushMem base offset => m.push (m.word base offset)
  | .pop dst => m.drop.setReg dst (m.word .esp 0)
  -- the image of the flags has VM and RF clear
  | .pushf => m.push (m.flags &&& 0x00FCFFFF)
  | .pushad => m.pushad
  | .orImm dst value =>
    { m.setReg dst (m.gpr dst ||| value) with flags := alu m.flags (m.gpr dst ||| value) }
  | .addImm dst value =>
    { m.setReg dst (m.gpr dst + value) with flags := alu m.flags (m.gpr dst + value) }
  | .call target => { m.push m.eip with eip := target }
  | .ret => { m.drop with eip := m.word .esp 0 }
  | .iretd => m.iretd

/-- The code at an address: an instruction and the address behind it. -/
abbrev Code := BitVec 32 → Option (Instr × BitVec 32)

variable (code : Code) (alu : BitVec 32 → BitVec 32 → BitVec 32)

def step (m : Machine) : Option Machine :=
  (code m.eip).map fun i => exec alu { m with eip := i.2 } i.1

def run : ℕ → Machine → Option Machine
  | 0, m => some m
  | n + 1, m => (step code alu m).bind (run n)

/-- The instructions `is` are the code from `a` up to `b`. -/
def Loaded : BitVec 32 → List Instr → BitVec 32 → Prop
  | a, [], b => a = b
  | a, i :: is, b => ∃ next, code a = some (i, next) ∧ Loaded next is b

/-- An instruction that passes control to the next one. -/
def Instr.falls : Instr → Bool
  | .call _ => false
  | .ret => false
  | .iretd => false
  | _ => true

/-- The processor's entry to an interrupt from user mode: the stack of level 0, the
frame, and a gate that clears the interrupt flag. -/
def Machine.interrupt (m : Machine) (esp₀ ss₀ cs₀ handler : BitVec 32) : Machine :=
  let m' := { m.setReg .esp esp₀ with
    ss := ss₀, cs := cs₀, eip := handler, flags := m.flags &&& 0xFFFFFDFF }
  [m.ss, m.gpr .esp, m.flags, m.cs, m.eip].foldl Machine.push m'

variable {code alu}
variable {m m' m'' : Machine} {n k : ℕ} {is js : List Instr} {a b c : BitVec 32} {i : Instr}

lemma run_add (h : run code alu n m = some m') : run code alu (n + k) m = run code alu k m' := by
  induction n generalizing m with
  | zero =>
    obtain rfl : m = m' := Option.some.inj h
    rw [Nat.zero_add]
  | succ n ih =>
    rw [Nat.add_right_comm]
    cases hstep : step code alu m with
    | none => simp [run, hstep] at h
    | some x =>
      simp only [run, hstep, Option.bind_some] at h ⊢
      exact ih h

lemma run_trans (h : run code alu n m = some m') (h' : run code alu k m' = some m'') :
    run code alu (n + k) m = some m'' := by
  rw [run_add h, h']

lemma run_one (h : step code alu m = some m') : run code alu 1 m = some m' := by
  simp [run, h]

lemma Loaded.append (h : Loaded code a (is ++ js) c) :
    ∃ b, Loaded code a is b ∧ Loaded code b js c := by
  induction is generalizing a with
  | nil => exact ⟨a, rfl, h⟩
  | cons i is ih =>
    obtain ⟨next, hcode, hrest⟩ := h
    obtain ⟨b, his, hjs⟩ := ih hrest
    exact ⟨b, ⟨next, hcode, his⟩, hjs⟩

variable (alu) in
lemma Loaded.step (h : Loaded code m.eip (i :: is) b) : ∃ next, Loaded code next is b ∧
    step code alu m = some (exec alu { m with eip := next } i) := by
  obtain ⟨next, hcode, hrest⟩ := h
  exact ⟨next, hrest, by simp [X86.step, hcode]⟩

/-- Only the instructions that pass control elsewhere look at `eip`. -/
lemma exec_eip (hi : i.falls) (m : Machine) (next : BitVec 32) :
    exec alu { m with eip := next } i = { exec alu m i with eip := next } := by
  cases i with
  | call => exact absurd hi Bool.false_ne_true
  | ret => exact absurd hi Bool.false_ne_true
  | iretd => exact absurd hi Bool.false_ne_true
  | _ => rfl

lemma foldl_exec_eip (his : ∀ i ∈ is, i.falls) (m : Machine) (next b : BitVec 32) :
    { is.foldl (exec alu) { m with eip := next } with eip := b } =
      { is.foldl (exec alu) m with eip := b } := by
  induction is generalizing m with
  | nil => rfl
  | cons i is ih =>
    rw [List.foldl_cons, exec_eip (his i (by simp)), ih fun j hj => his j (by simp [hj])]
    rfl

variable (alu) in
/-- A block of straight-line code runs to its end. -/
lemma Loaded.run (h : Loaded code m.eip is b) (his : ∀ i ∈ is, i.falls) :
    run code alu is.length m = some { is.foldl (exec alu) m with eip := b } := by
  induction is generalizing m with
  | nil =>
    obtain rfl : m.eip = b := h
    rfl
  | cons i is ih =>
    obtain ⟨next, hrest, hstep⟩ := h.step alu
    have htail : ∀ j ∈ is, j.falls := fun j hj => his j (by simp [hj])
    rw [exec_eip (his i (by simp))] at hstep
    rw [List.length_cons, X86.run, hstep, Option.bind_some, ih hrest htail, List.foldl_cons,
      foldl_exec_eip htail]

/-! Words that do not overlap. -/

/-- The `n` bytes from `a` on and the `k` bytes from `b` on do not meet. -/
def Apart (a : BitVec 32) (n : ℕ) (b : BitVec 32) (k : ℕ) : Prop :=
  ∀ x, InRange a n x → ¬ InRange b k x

lemma Apart.symm (h : Apart a n b k) : Apart b k a n := fun x hb ha => h x ha hb

lemma apart_of_le (h : a.toNat + n ≤ b.toNat) (h' : b.toNat + k ≤ 2 ^ 32) : Apart a n b k := by
  intro x ha hb
  unfold InRange at ha hb
  rw [BitVec.toNat_sub] at ha hb
  have := x.isLt
  have := b.isLt
  omega

lemma inRange_add {x i : BitVec 32} (h : InRange (a + i) 4 x) (hi : i.toNat + 4 ≤ n) :
    InRange a n x := by
  unfold InRange at h ⊢
  have hsplit : x - a = x - (a + i) + i := by
    rw [BitVec.sub_eq_add_neg, BitVec.sub_eq_add_neg, BitVec.neg_add, BitVec.sub_eq_add_neg,
      BitVec.add_assoc, BitVec.add_assoc, BitVec.add_left_neg, BitVec.add_zero]
  have hmod := Nat.mod_le ((x - (a + i)).toNat + i.toNat) (2 ^ 32)
  rw [hsplit, BitVec.toNat_add]
  omega

/-- Words inside two ranges that do not meet. -/
lemma Apart.word (h : Apart a n b k) {i j : BitVec 32} (hi : i.toNat + 4 ≤ n)
    (hj : j.toNat + 4 ≤ k) : Apart (a + i) 4 (b + j) 4 :=
  fun x ha hb => h x (inRange_add ha hi) (inRange_add hb hj)

/-- Words at different offsets from one base. -/
lemma apart_offset (a : BitVec 32) {i j : BitVec 32} (h : 4 ≤ (i - j).toNat)
    (h' : 4 ≤ (j - i).toNat) : Apart (a + i) 4 (a + j) 4 := by
  intro x hi hj
  unfold InRange at hi hj
  rw [BitVec.toNat_sub] at h h' hi hj
  rw [BitVec.toNat_add] at hi hj
  have := x.isLt
  have := a.isLt
  have := i.isLt
  have := j.isLt
  omega

variable {mem : Mem}

lemma read32_write32_apart (h : Apart a 4 b 4) (v : BitVec 32) :
    read32 (write32 mem b v) a = read32 mem a :=
  read32_eq_of_same fun x hx => if_neg (h x hx)

lemma read32_write32_offset {i j : BitVec 32} (h : 4 ≤ (i - j).toNat) (h' : 4 ≤ (j - i).toNat)
    (v : BitVec 32) : read32 (write32 mem (a + j) v) (a + i) = read32 mem (a + i) :=
  read32_write32_apart (apart_offset a h h') v

/-- Copies words from offsets of `src` to offsets of `dst`, one after the other. -/
def copyWords (mem : Mem) (dst src : BitVec 32) (pairs : List (BitVec 32 × BitVec 32)) : Mem :=
  pairs.foldl (fun mem p => write32 mem (dst + p.1) (read32 mem (src + p.2))) mem

variable {dst src : BitVec 32} {pairs : List (BitVec 32 × BitVec 32)}

lemma copyWords_apart (h : ∀ p ∈ pairs, Apart a 4 (dst + p.1) 4) :
    read32 (copyWords mem dst src pairs) a = read32 mem a := by
  induction pairs generalizing mem with
  | nil => rfl
  | cons p pairs ih =>
    have htail : ∀ q ∈ pairs, Apart a 4 (dst + q.1) 4 := fun q hq => h q (by simp [hq])
    exact (ih htail).trans (read32_write32_apart (h p (by simp)) _)

variable (mem) in
/-- Every copied word arrives when no copy overwrites a source or an earlier copy. -/
lemma copyWords_word (hdst : pairs.Pairwise fun p q => Apart (dst + p.1) 4 (dst + q.1) 4)
    (hsrc : ∀ p ∈ pairs, ∀ q ∈ pairs, Apart (src + p.2) 4 (dst + q.1) 4) :
    ∀ p ∈ pairs, read32 (copyWords mem dst src pairs) (dst + p.1) = read32 mem (src + p.2) := by
  induction pairs generalizing mem with
  | nil => simp
  | cons p pairs ih =>
    obtain ⟨hp, htail⟩ := List.pairwise_cons.1 hdst
    intro q hq
    rcases List.mem_cons.1 hq with rfl | hq
    · exact (copyWords_apart hp).trans (read32_write32 _ _ _)
    · have hih := ih (write32 mem (dst + p.1) (read32 mem (src + p.2))) htail
        (fun q hq r hr => hsrc q (by simp [hq]) r (by simp [hr])) q hq
      exact hih.trans (read32_write32_apart (hsrc q (by simp [hq]) p (by simp)) _)

end AlphaOS.X86
