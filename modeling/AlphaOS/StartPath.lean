import AlphaOS.StoreLog
import AlphaOS.TaskStrings

/-! The path of a program to start, as `isr80h/process.c` makes it on the kernel's stack: `"0:/"` and
the name that a user program passes to `isr80h_command6_process_load_start` or to
`isr80h_command7_invoke_system_command`. Where the local arrays lie is a parameter. -/
namespace AlphaOS.Processes
open BlockHeap CString Elf Kheap Paging StoreLog WordMemory

/-- The loop of `strcpy` at index `i`. -/
def strcpyLoop (dest src : Word) : ℕ → ℕ → Stores → Option Stores
  | 0, _, _ => none
  | fuel + 1, i, s =>
    let c := s.mem (src + BitVec.ofNat 32 i)
    if c = 0 then some (s.store (dest + BitVec.ofNat 32 i) 0)
    else strcpyLoop dest src fuel (i + 1) (s.store (dest + BitVec.ofNat 32 i) c)

/-- The loop of `strncpy` at index `i`, with at most `k` more characters before the zero. -/
def strncpyStores (dest src : Word) : ℕ → ℕ → Stores → Stores
  | 0, i, s => s.store (dest + BitVec.ofNat 32 i) 0
  | k + 1, i, s =>
    let c := s.mem (src + BitVec.ofNat 32 i)
    if c = 0 then s.store (dest + BitVec.ofNat 32 i) 0
    else strncpyStores dest src k (i + 1) (s.store (dest + BitVec.ofNat 32 i) c)

/-- `strcpy(path, "0:/")`. -/
def drivePath (path : Word) (mem : Mem) : Stores := (Stores.start mem).storeBytes path [48, 58, 47, 0]

/-- The string that `process_load_switch` gets, and the stores that made it. -/
structure StartPath where
  path : List Byte
  stores : Stores

def handPath (fuel : ℕ) (path : Word) (k : Kernel) (s : Stores) : Option (Except ℤ StartPath × Kernel) :=
  (stringAt s.mem fuel path).map fun str => (.ok ⟨str, s⟩, k.withKmem (k.kmem.withMem s.mem))

/-- The user's string is copied into `filename`. -/
def copyFilename (k : Kernel) (filename : Word) : Option (ℤ × Kernel) :=
  (taskGetStackItem k k.currentTask 0).bind fun (item, k) =>
    copyStringFromTask k k.currentTask item filename maxPathLength

/-- The call up to `process_load_switch`; with an error it goes to `out`. -/
def isr80hCommand6Path (fuel : ℕ) (filename path : Word) (k : Kernel) :
    Option (Except ℤ StartPath × Kernel) :=
  (copyFilename k filename).bind fun (res, k) =>
  if res < 0 then some (.error res, k) else
  (strcpyLoop (path + 3) filename fuel 0 (drivePath path k.kmem.mem)).bind (handPath fuel path k)

/-- The task that runs next, or nothing at `out`. -/
def isr80hCommand6ProcessLoadStart (fuel : ℕ) (files : List Byte → FileCalls) (filename path : Word)
    (k : Kernel) : Option (Option Word × Kernel) :=
  (isr80hCommand6Path fuel filename path k).bind fun (start, k) =>
  match start with
  | .error _ => some (none, k)
  | .ok start =>
    (processLoadSwitch (files start.path) k).map fun (res, process, k) =>
    if res < 0 then (none, k) else
    (some (k.procs process).task, taskSwitch k (k.procs process).task)

/-- The call up to `process_load_switch`. -/
def isr80hCommand7Path (fuel : ℕ) (path : Word) (k : Kernel) : Option (Except ℤ StartPath × Kernel) :=
  (taskGetStackItem k k.currentTask 0).bind fun (item, k) =>
  let args := taskVirtualAddressToPhysical k k.currentTask item
  if args = 0 then some (.error (-einvarg), k) else
  (strlen fuel k.kmem.mem args).bind fun len =>
  if len = 0 then some (.error (-einvarg), k) else
  handPath fuel path k (strncpyStores (path + 3) args (maxPathLength - 1) 0 (drivePath path k.kmem.mem))

/-- A call that is not refused has written into its buffer only, and hands on `"0:/"` and the
whole name. -/
def Starts (path : Word) (name : List Byte) : Except ℤ StartPath → Prop
  | .error _ => True
  | .ok start => start.path = [48, 58, 47] ++ name ∧
    ∀ x ∈ start.stores.written, InRange path maxPathLength x

/-- A copy that stops with the zero behind `n` characters. -/
structure Stops (dest src : Word) (k i : ℕ) (s s' : Stores) (n : ℕ) : Prop where
  le : n ≤ k
  written : ∀ x, x ∈ s'.written ↔ x ∈ s.written ∨ ∃ j ≤ n, x = dest + BitVec.ofNat 32 (i + j)
  frame : ∀ x, (∀ j ≤ n, x ≠ dest + BitVec.ofNat 32 (i + j)) → s'.mem x = s.mem x
  nonzero : ∀ j < n, s'.mem (dest + BitVec.ofNat 32 (i + j)) ≠ 0
  zero : s'.mem (dest + BitVec.ofNat 32 (i + n)) = 0
  copied : ∀ j < n, (∀ j' < j, src + BitVec.ofNat 32 (i + j) ≠ dest + BitVec.ofNat 32 (i + j')) →
    s'.mem (dest + BitVec.ofNat 32 (i + j)) = s.mem (src + BitVec.ofNat 32 (i + j))
  source : n < k → s.mem (src + BitVec.ofNat 32 (i + n)) = 0 ∧
    ∀ j < n, src + BitVec.ofNat 32 (i + n) ≠ dest + BitVec.ofNat 32 (i + j)

variable {dest src path filename args : Word} {k i n fuel : ℕ} {s s' : Stores} {mem : Mem}
  {name : List Byte}

lemma Stops.done (h : 0 < k → s.mem (src + BitVec.ofNat 32 i) = 0) :
    Stops dest src k i s (s.store (dest + BitVec.ofNat 32 i) 0) 0 where
  le := Nat.zero_le k
  written := by simp [or_comm]
  frame := fun x hx => Function.update_of_ne (hx 0 le_rfl) _ _
  nonzero := fun j hj => absurd hj (Nat.not_lt_zero j)
  zero := Function.update_self _ _ _
  copied := fun j hj => absurd hj (Nat.not_lt_zero j)
  source := fun hk => ⟨h hk, fun j hj => absurd hj (Nat.not_lt_zero j)⟩

/-- One more character in front. -/
lemma Stops.next (hc : s.mem (src + BitVec.ofNat 32 i) ≠ 0) (hroom : i + k + 1 < 2 ^ 32)
    (h : Stops dest src k (i + 1)
      (s.store (dest + BitVec.ofNat 32 i) (s.mem (src + BitVec.ofNat 32 i))) s' n) :
    Stops dest src (k + 1) i s s' (n + 1) := by
  have hshift : ∀ j, i + 1 + j = i + (j + 1) := fun j => by omega
  have hle := h.le
  have hfirst : s'.mem (dest + BitVec.ofNat 32 i) = s.mem (src + BitVec.ofNat 32 i) := by
    rw [h.frame _ fun j hj => add_ofNat_ne (by omega) (by omega) (by omega) dest]
    exact Function.update_self _ _ _
  constructor
  case le => omega
  case written =>
    intro x
    rw [h.written, store_written, List.mem_cons]
    constructor
    · rintro ((rfl | hx) | ⟨j, hj, rfl⟩)
      · exact .inr ⟨0, Nat.zero_le _, rfl⟩
      · exact .inl hx
      · exact .inr ⟨j + 1, by omega, by rw [hshift]⟩
    · rintro (hx | ⟨j, hj, rfl⟩)
      · exact .inl (.inr hx)
      · cases j with
        | zero => exact .inl (.inl rfl)
        | succ j => exact .inr ⟨j, by omega, by rw [hshift]⟩
  case frame =>
    intro x hx
    rw [h.frame x fun j hj => hshift j ▸ hx (j + 1) (by omega)]
    exact Function.update_of_ne (hx 0 (Nat.zero_le _)) _ _
  case nonzero =>
    intro j hj
    cases j with
    | zero => exact hfirst ▸ hc
    | succ j => exact hshift j ▸ h.nonzero j (by omega)
  case zero => exact hshift n ▸ h.zero
  case copied =>
    intro j hj hoff
    cases j with
    | zero => exact hfirst
    | succ j =>
      have hcopied := h.copied j (by omega) fun j' hj' => by
        rw [hshift, hshift]
        exact hoff (j' + 1) (by omega)
      rw [hshift] at hcopied
      rw [hcopied]
      exact Function.update_of_ne (hoff 0 (by omega)) _ _
  case source =>
    intro hlt
    obtain ⟨hzero, hoff⟩ := h.source (by omega)
    rw [hshift] at hzero hoff
    have hne : src + BitVec.ofNat 32 (i + (n + 1)) ≠ dest + BitVec.ofNat 32 i := by
      intro heq
      rw [store_mem, heq, Function.update_self] at hzero
      exact hc hzero
    rw [store_mem, Function.update_of_ne hne] at hzero
    refine ⟨hzero, fun j hj => ?_⟩
    cases j with
    | zero => exact hne
    | succ j => exact hshift j ▸ hoff j (by omega)

lemma strncpyStores_stops (hroom : i + k < 2 ^ 32) :
    ∃ n, Stops dest src k i s (strncpyStores dest src k i s) n := by
  induction k generalizing i s with
  | zero => exact ⟨0, .done fun h => absurd h (Nat.lt_irrefl 0)⟩
  | succ k ih =>
    rw [strncpyStores]
    by_cases hc : s.mem (src + BitVec.ofNat 32 i) = 0
    · rw [if_pos hc]
      exact ⟨0, .done fun _ => hc⟩
    · obtain ⟨n, h⟩ := @ih (i + 1) (s.store (dest + BitVec.ofNat 32 i) (s.mem (src + BitVec.ofNat 32 i)))
        (by omega)
      rw [if_neg hc]
      exact ⟨n + 1, h.next hc (by omega)⟩

/-- `strcpy` of a string that does not lie where it is copied to. -/
lemma strcpyLoop_eq (hname : BytesAt s.mem (src + BitVec.ofNat 32 i) (name ++ [0])) (hzero : 0 ∉ name)
    (hahead : ∀ j ≤ name.length, ∀ j' < j,
      src + BitVec.ofNat 32 (i + j) ≠ dest + BitVec.ofNat 32 (i + j')) (hk : name.length ≤ k) :
    strcpyLoop dest src fuel i s =
      if name.length < fuel then some (strncpyStores dest src k i s) else none := by
  induction name generalizing fuel i k s with
  | nil =>
    have hend : s.mem (src + BitVec.ofNat 32 i) = 0 := hname.1
    cases fuel with
    | zero => rfl
    | succ fuel =>
      rw [strcpyLoop, if_pos hend, List.length_nil, if_pos (Nat.succ_pos fuel)]
      cases k with
      | zero => rfl
      | succ k => rw [strncpyStores, if_pos hend]
  | cons c name ih =>
    cases fuel with
    | zero => rfl
    | succ fuel =>
      cases k with
      | zero => simp at hk
      | succ k =>
        have hne : s.mem (src + BitVec.ofNat 32 i) ≠ 0 := by
          rw [hname.1]
          exact fun h0 => hzero (h0 ▸ List.mem_cons_self)
        rw [strcpyLoop, if_neg hne, strncpyStores, if_neg hne, @ih k]
        · simp only [List.length_cons, Nat.add_lt_add_iff_right]
        · have hrest : BytesAt s.mem (src + BitVec.ofNat 32 i + 1) (name ++ [0]) := hname.2
          rw [add_assoc, ← show BitVec.ofNat 32 (i + 1) = BitVec.ofNat 32 i + 1 from BitVec.ofNat_add i 1] at hrest
          refine hrest.congr fun j hj => Function.update_of_ne ?_ _ _
          have hoff := hahead (j + 1) (by simpa [Nat.lt_succ_iff] using hj) 0 (Nat.succ_pos j)
          rwa [Nat.add_comm j 1, ← Nat.add_assoc, BitVec.ofNat_add, ← add_assoc] at hoff
        · exact fun h0 => hzero (List.mem_cons_of_mem c h0)
        · intro j hj j' hj'
          rw [Nat.add_assoc, Nat.add_assoc, Nat.add_comm 1, Nat.add_comm 1]
          exact hahead (j + 1) (by simpa using hj) (j' + 1) (by omega)
        · simpa using hk

/-- The string that a copy leaves. -/
lemma Stops.copy (h : Stops dest src k i s s' n) : ∃ cs, cs.length = n ∧ 0 ∉ cs ∧
    BytesAt s'.mem (dest + BitVec.ofNat 32 i) (cs ++ [0]) := by
  have hshift : ∀ j, dest + BitVec.ofNat 32 i + BitVec.ofNat 32 j = dest + BitVec.ofNat 32 (i + j) := by
    intro j
    rw [BitVec.ofNat_add, ← add_assoc]
  refine ⟨List.ofFn fun j : Fin n => s'.mem (dest + BitVec.ofNat 32 (i + j)), List.length_ofFn, ?_, ?_⟩
  · intro h0
    obtain ⟨j, hj⟩ := List.mem_ofFn.1 h0
    exact h.nonzero j j.isLt hj
  · rw [bytesAt_append]
    constructor
    · apply bytesAt_of_get
      intro j hj
      rw [List.getElem_ofFn, hshift]
    · rw [List.length_ofFn, hshift]
      exact ⟨h.zero, trivial⟩

/-! The prefix, and a copy behind it. -/

lemma drivePath_mem (path : Word) (mem : Mem) :
    (drivePath path mem).mem = writeBytes mem path [48, 58, 47, 0] := storeBytes_mem _ _ _

lemma drivePath_written {x : Word} :
    x ∈ (drivePath path mem).written ↔ ∃ j < 4, x = path + BitVec.ofNat 32 j := by
  rw [drivePath, mem_storeBytes]
  simp

lemma drivePath_bytes (path : Word) (mem : Mem) :
    BytesAt (drivePath path mem).mem path [48, 58, 47, 0] := by
  rw [drivePath_mem]
  exact writeBytes_bytesAt (by decide)

lemma drivePath_of_not {x : Word} (hx : ¬ InRange path 4 x) : (drivePath path mem).mem x = mem x := by
  rw [drivePath_mem, writeBytes_of_not]
  intro j hj heq
  exact ne_of_not_inRange hx (by omega) hj heq.symm

lemma add_three (path : Word) (j : ℕ) : path + 3 + BitVec.ofNat 32 j = path + BitVec.ofNat 32 (3 + j) := by
  rw [BitVec.ofNat_add, ← add_assoc]
  rfl

/-- The copy stays within the buffer when at most 104 characters follow the prefix. -/
lemma Stops.inside (h : Stops (path + 3) src k 0 (drivePath path mem) s' n) (hroom : 3 + k < 2 ^ 32) :
    (∀ x ∈ s'.written, InRange path 108 x) ↔ n ≤ 104 := by
  have hle := h.le
  constructor
  · intro hinside
    have hlast := hinside (path + 3 + BitVec.ofNat 32 (0 + n)) ((h.written _).2 (.inr ⟨n, le_rfl, rfl⟩))
    rw [add_three, InRange, add_sub_cancel_left, BitVec.toNat_ofNat] at hlast
    omega
  · intro hn x hx
    rcases (h.written x).1 hx with hx | ⟨j, hj, rfl⟩
    · obtain ⟨j, hj, rfl⟩ := drivePath_written.1 hx
      exact inRange_ofNat (by omega) (by omega)
    · rw [add_three]
      exact inRange_ofNat (by omega) (by omega)

/-- The string in the buffer afterwards. -/
lemma Stops.string (h : Stops (path + 3) src k 0 (drivePath path mem) s' n) (hroom : 3 + k < 2 ^ 32) :
    ∃ cs, cs.length = n ∧ 0 ∉ cs ∧ BytesAt s'.mem path ([48, 58, 47] ++ cs ++ [0]) := by
  have hle := h.le
  obtain ⟨cs, hlen, hcs, hbytes⟩ := h.copy
  rw [BitVec.add_zero] at hbytes
  refine ⟨cs, hlen, hcs, ?_⟩
  rw [List.append_assoc, bytesAt_append]
  refine ⟨?_, hbytes⟩
  have hdrive : BytesAt (drivePath path mem).mem path ([48, 58, 47] ++ [0]) := drivePath_bytes path mem
  refine (bytesAt_append.1 hdrive).1.congr fun j hj => h.frame _ fun j' hj' => ?_
  change j < 3 at hj
  rw [add_three]
  exact add_ofNat_ne (by omega) (by omega) (by omega) path

/-- The prefix touches none of the bytes of a string of `len` characters. -/
def OffPrefix (path src : Word) (len : ℕ) : Prop := ∀ x, InRange src (len + 1) x → ¬ InRange path 4 x

lemma OffPrefix.bytes (h : OffPrefix path src name.length) (hroom : name.length + 1 < 2 ^ 32)
    (hname : BytesAt mem src (name ++ [0])) : BytesAt (drivePath path mem).mem src (name ++ [0]) := by
  refine hname.congr fun j hj => drivePath_of_not (h _ (inRange_ofNat ?_ hroom))
  simpa using hj

/-- No character is stored where the name is still to be read. -/
lemma OffPrefix.ahead {len : ℕ} (h : OffPrefix path src len) (hroom : len + 1 < 2 ^ 32) :
    ∀ j ≤ len, ∀ j' < j, src + BitVec.ofNat 32 (0 + j) ≠ path + 3 + BitVec.ofNat 32 (0 + j') := by
  intro j hj j' hlt heq
  obtain ⟨d, rfl⟩ := Nat.exists_eq_add_of_lt hlt
  rw [show 0 + (j' + d + 1) = d + 1 + (0 + j') by omega, BitVec.ofNat_add, ← add_assoc] at heq
  apply h (src + BitVec.ofNat 32 (d + 1)) (inRange_ofNat (by omega) hroom)
  rw [add_right_cancel heq]
  exact @inRange_ofNat path 3 4 (by omega) (by omega)

/-- A name that the prefix does not touch is copied as a whole. -/
lemma Stops.whole (h : Stops (path + 3) src k 0 (drivePath path mem) s' n) (hroom : 3 + k < 2 ^ 32)
    (hname : BytesAt mem src (name ++ [0])) (hzero : 0 ∉ name) (hk : name.length ≤ k)
    (hoff : OffPrefix path src name.length) :
    n = name.length ∧ BytesAt s'.mem path ([48, 58, 47] ++ name ++ [0]) := by
  have hread := hoff.bytes (by omega) hname
  have hahead := hoff.ahead (by omega)
  have hn : n = name.length := by
    rcases Nat.lt_trichotomy n name.length with hlt | heq | hlt
    · have hsource := (h.source (by omega)).1
      have hin : n < (name ++ [0]).length := by
        rw [List.length_append]
        omega
      rw [Nat.zero_add, hread.get hin, List.getElem_append_left hlt] at hsource
      exact absurd (hsource ▸ List.getElem_mem hlt) hzero
    · exact heq
    · have hcopied := h.copied name.length hlt (hahead _ le_rfl)
      rw [Nat.zero_add, hread.get (by simp), List.getElem_concat_length rfl] at hcopied
      exact absurd hcopied (Nat.zero_add name.length ▸ h.nonzero _ hlt)
  obtain ⟨cs, hlen, hcs, hbytes⟩ := h.string hroom
  have htail : BytesAt s'.mem (path + 3) (cs ++ [0]) := by
    rw [List.append_assoc, bytesAt_append] at hbytes
    exact hbytes.2
  have hsame : cs = name := by
    apply List.ext_getElem (hlen.trans hn)
    intro j hj hj'
    have hcopied := h.copied j (by omega) (hahead j (by omega))
    rw [Nat.zero_add, hread.get (by simp [Nat.lt_succ_of_lt hj']), List.getElem_append_left hj'] at hcopied
    rw [← hcopied]
    exact ((bytesAt_append.1 htail).1.get hj).symm
  exact ⟨hn, hsame ▸ hbytes⟩

/-- What a handler hands on, where its copy has stopped. -/
lemma Stops.starts {κ κ' : Kernel} {r : Except ℤ StartPath}
    (h : Stops (path + 3) src k 0 (drivePath path mem) s' n) (hroom : 3 + k < 2 ^ 32)
    (hhand : handPath fuel path κ s' = some (r, κ')) (hstarts : Starts path name r) :
    n = name.length ∧ n ≤ 104 := by
  obtain ⟨cs, hlen, hcs, hbytes⟩ := h.string hroom
  obtain ⟨str, hstr, heq⟩ := Option.map_eq_some_iff.1 hhand
  rw [Prod.mk.injEq] at heq
  rw [← heq.1] at hstarts
  obtain ⟨hpath, hinside⟩ := hstarts
  obtain ⟨hat, hstr0⟩ := stringAt_some hstr
  have hsame := bytesAt_unique hbytes hat (by simpa using hcs) hstr0
  replace hpath : str = [48, 58, 47] ++ name := hpath
  rw [hpath] at hsame
  exact ⟨hlen ▸ congrArg List.length (List.append_cancel_left hsame), (h.inside hroom).1 hinside⟩

lemma handPath_eq (hbytes : BytesAt s'.mem path ([48, 58, 47] ++ name ++ [0])) (hzero : 0 ∉ name)
    (hfuel : name.length + 3 < fuel) (κ : Kernel) : handPath fuel path κ s' =
      some (.ok ⟨[48, 58, 47] ++ name, s'⟩, κ.withKmem (κ.kmem.withMem s'.mem)) := by
  rw [handPath, @stringAt_eq _ _ _ hbytes (by simpa using hzero) fuel (by simpa using hfuel),
    Option.map_some]

lemma strncpyStores_mem : (strncpyStores dest src k i s).mem = strncpyLoop dest src k i s.mem := by
  induction k generalizing i s with
  | zero => rfl
  | succ k ih =>
    rw [strncpyStores, strncpyLoop]
    split_ifs
    · rfl
    · exact ih

/-- What `strncpy` leaves is a string, whatever it reads. -/
lemma strncpy_string (mem : Mem) (dest src : Word) (hn : n < 2 ^ 32) :
    ∃ cs, cs.length ≤ n - 1 ∧ 0 ∉ cs ∧ BytesAt (strncpy mem dest src n) dest (cs ++ [0]) := by
  obtain ⟨m, hstops⟩ := @strncpyStores_stops dest src (n - 1) 0 (Stores.start mem) (by omega)
  obtain ⟨cs, hlen, hcs, hbytes⟩ := hstops.copy
  rw [strncpyStores_mem, start_mem, BitVec.add_zero] at hbytes
  exact ⟨cs, hlen ▸ hstops.le, hcs, hbytes⟩

/-- A copy into `filename` that does not fail leaves a name of at most 107 characters. -/
lemma copyFilename_name {κ κ' : Kernel} {res : ℤ} (h : copyFilename κ filename = some (res, κ'))
    (hres : 0 ≤ res) : ∃ name, name.length ≤ 107 ∧ 0 ∉ name ∧
      BytesAt κ'.kmem.mem filename (name ++ [0]) := by
  obtain ⟨⟨item, κ₀⟩, -, h⟩ := Option.bind_eq_some_iff.1 h
  replace h : copyStringFromTask κ₀ κ₀.currentTask item filename 108 = some (res, κ') := h
  rw [copyStringFromTask, if_neg (by decide)] at h
  dsimp only at h
  split_ifs at h with hnull
  · simp only [Option.some.injEq, Prod.mk.injEq] at h
    exact absurd (h.1 ▸ hres) (by decide)
  obtain ⟨mem, -, heq⟩ := Option.map_eq_some_iff.1 h
  split_ifs at heq with hneg
  · simp only [Prod.mk.injEq] at heq
    exact absurd (heq.1 ▸ hres) (by decide)
  · rw [Prod.mk.injEq] at heq
    rw [← heq.2]
    simp only [Kernel.withKmem_kmem, kfree_mem, Kmem.withMem_mem]
    exact strncpy_string (n := 108) _ filename _ (by decide)

/-- Command 6 with its name. -/
lemma isr80hCommand6Path_eq {κ κ' : Kernel} {res : ℤ} (h : copyFilename κ filename = some (res, κ'))
    (hres : 0 ≤ res) (hname : BytesAt κ'.kmem.mem filename (name ++ [0])) (hzero : 0 ∉ name)
    (hlen : name.length ≤ 107) (hoff : OffPrefix path filename name.length) :
    isr80hCommand6Path fuel filename path κ = if name.length < fuel then
      handPath fuel path κ' (strncpyStores (path + 3) filename 107 0 (drivePath path κ'.kmem.mem)) else none := by
  have hbytes := hoff.bytes (by omega) hname
  rw [← BitVec.add_zero filename] at hbytes
  rw [isr80hCommand6Path, h, Option.bind_some]
  dsimp only
  rw [if_neg (not_lt.2 hres), strcpyLoop_eq hbytes hzero (hoff.ahead (by omega)) hlen]
  split_ifs
  · rfl
  · rfl

/-- Command 7 with its name. -/
lemma isr80hCommand7Path_eq {κ : Kernel} (h : commandArguments κ = some args) :
    isr80hCommand7Path fuel path κ =
      if args = 0 then some (.error (-einvarg), pageLoaded κ) else
      (strlen fuel κ.kmem.mem args).bind fun len =>
      if len = 0 then some (.error (-einvarg), pageLoaded κ) else
      handPath fuel path (pageLoaded κ)
        (strncpyStores (path + 3) args 107 0 (drivePath path κ.kmem.mem)) := by
  obtain ⟨⟨item, k₀⟩, hitem, haddr⟩ := Option.map_eq_some_iff.1 h
  obtain ⟨word, -, hpair⟩ := Option.map_eq_some_iff.1 hitem
  simp only [Prod.mk.injEq] at hpair
  obtain ⟨rfl, rfl⟩ := hpair
  replace haddr : taskVirtualAddressToPhysical (pageLoaded κ) (pageLoaded κ).currentTask word = args := haddr
  rw [← haddr, isr80hCommand7Path, hitem]
  rfl

/-- A copy that stopped at a terminator before its bound has read a string that the prefix does
not touch. -/
lemma Stops.offPrefix (h : Stops (path + 3) src k 0 (drivePath path mem) s' n) (hpos : 0 < n)
    (hk : n < k) : OffPrefix path src n := by
  intro x hx hin
  obtain ⟨i, hi, rfl⟩ := exists_of_inRange hx
  obtain ⟨q, hq, heq⟩ := exists_of_inRange hin
  obtain ⟨hend, hbehind⟩ := h.source hk
  have hfirst := h.copied 0 hpos fun j hj => absurd hj (Nat.not_lt_zero j)
  have hprefix : BytesAt (drivePath path mem).mem path ([48, 58, 47] ++ [0]) := drivePath_bytes path mem
  -- the terminator, counted from the start of the buffer
  have hlast : src + BitVec.ofNat 32 (0 + n) = path + BitVec.ofNat 32 (q + (n - i)) := by
    rw [BitVec.ofNat_add q, ← add_assoc, ← heq, add_assoc, ← BitVec.ofNat_add]
    congr 2
    omega
  rcases Nat.lt_or_ge (q + (n - i)) 3 with hlt | hge
  · rw [hlast, (bytesAt_append.1 hprefix).1.get hlt] at hend
    exact absurd (hend ▸ List.getElem_mem hlt) (show (0 : Byte) ∉ [48, 58, 47] by decide)
  · obtain ⟨j, hj⟩ := Nat.exists_eq_add_of_le hge
    rcases Nat.lt_or_ge j n with hjn | hjn
    · apply hbehind j hjn
      rw [hlast, hj, add_three, Nat.zero_add]
    · obtain ⟨rfl, rfl⟩ : i = 0 ∧ q = 3 := by omega
      apply h.nonzero 0 hpos
      rw [hfirst, Nat.zero_add, heq]
      exact hprefix.get (n := 3) (by decide)

/-- Command 7 with a name that is not empty. -/
lemma isr80hCommand7Path_starts {κ κ' : Kernel} {r : Except ℤ StartPath} (hargs : commandArguments κ = some args)
    (hnull : args ≠ 0) (hne : κ.kmem.mem args ≠ 0) (hname : name ≠ [])
    (hrun : isr80hCommand7Path fuel path κ = some (r, κ')) (hstarts : Starts path name r) :
    name.length ≤ 104 ∧ OffPrefix path args name.length := by
  obtain ⟨n, hstops⟩ := @strncpyStores_stops (path + 3) args 107 0 (drivePath path κ.kmem.mem) (by omega)
  rw [isr80hCommand7Path_eq hargs, if_neg hnull] at hrun
  obtain ⟨len, hlen, hrun⟩ := Option.bind_eq_some_iff.1 hrun
  rw [if_neg (mt (strlen_zero_iff hlen).1 hne)] at hrun
  obtain ⟨rfl, hn⟩ := hstops.starts (by omega) hrun hstarts
  exact ⟨hn, hstops.offPrefix (List.length_pos_of_ne_nil hname) (by omega)⟩

/-- What command 7 hands on when the prefix does not touch the name and `strncpy` does not cut it. -/
lemma isr80hCommand7Path_hands {κ : Kernel} (hargs : commandArguments κ = some args) (hnull : args ≠ 0)
    (hbytes : BytesAt κ.kmem.mem args (name ++ [0])) (hzero : 0 ∉ name) (hname : name ≠ [])
    (hlen : name.length ≤ 107) (hoff : OffPrefix path args name.length) :
    ∃ s', isr80hCommand7Path (name.length + 4) path κ = some (.ok ⟨[48, 58, 47] ++ name, s'⟩,
        (pageLoaded κ).withKmem ((pageLoaded κ).kmem.withMem s'.mem)) ∧
      ((∀ x ∈ s'.written, InRange path 108 x) ↔ name.length ≤ 104) := by
  have hpos := List.length_pos_of_ne_nil hname
  obtain ⟨n, hstops⟩ := @strncpyStores_stops (path + 3) args 107 0 (drivePath path κ.kmem.mem) (by omega)
  obtain ⟨rfl, hwhole⟩ := hstops.whole (by omega) hbytes hzero hlen hoff
  refine ⟨_, ?_, hstops.inside (by omega)⟩
  rw [isr80hCommand7Path_eq hargs, if_neg hnull, strlen_eq hbytes hzero (by omega), Option.bind_some,
    if_neg (by omega), handPath_eq hwhole hzero (by omega)]

/-- Both calls write into their buffer only, and hand on `"0:/"` and the whole name, exactly when the
name has at most 104 characters and, where it stays in the program's memory, the prefix is not
stored over it. -/
theorem starts_iff (κ : Kernel) (path : Word) :
    (∀ filename res κ', copyFilename κ filename = some (res, κ') → 0 ≤ res →
      (∀ x, InRange filename maxPathLength x → ¬ InRange path maxPathLength x) →
      ∃ name, name.length ≤ 107 ∧ 0 ∉ name ∧ BytesAt κ'.kmem.mem filename (name ++ [0]) ∧
        ((∃ fuel r κ'', isr80hCommand6Path fuel filename path κ = some (r, κ'') ∧ Starts path name r) ↔
          name.length ≤ 104)) ∧
    ∀ args name, commandArguments κ = some args → BytesAt κ.kmem.mem args (name ++ [0]) → 0 ∉ name →
      name.length ≤ 511 →
      ((∃ fuel r κ', isr80hCommand7Path fuel path κ = some (r, κ') ∧ Starts path name r) ↔
        args = 0 ∨ name = [] ∨ name.length ≤ 104 ∧ OffPrefix path args name.length) := by
  constructor
  · intro filename res κ' hcopy hres hapart
    obtain ⟨name, hlen, hzero, hbytes⟩ := copyFilename_name hcopy hres
    have hoff : OffPrefix path filename name.length := by
      intro x hx hin
      apply hapart x
      · exact Nat.lt_of_lt_of_le hx (show name.length + 1 ≤ 108 by omega)
      · exact Nat.lt_of_lt_of_le hin (show 4 ≤ 108 by omega)
    obtain ⟨n, hstops⟩ := @strncpyStores_stops (path + 3) filename 107 0 (drivePath path κ'.kmem.mem) (by omega)
    obtain ⟨rfl, hwhole⟩ := hstops.whole (by omega) hbytes hzero hlen hoff
    have hcall := fun fuel => @isr80hCommand6Path_eq path filename fuel name κ κ' res hcopy hres hbytes
      hzero hlen hoff
    refine ⟨name, hlen, hzero, hbytes, ?_⟩
    constructor
    · intro ⟨fuel, r, κ'', hrun, hstarts⟩
      rw [hcall] at hrun
      split_ifs at hrun
      exact (hstops.starts (by omega) hrun hstarts).2
    · intro hn
      have hrun := hcall (name.length + 4)
      rw [if_pos (by omega), handPath_eq hwhole hzero (by omega)] at hrun
      exact ⟨_, _, _, hrun, rfl, (hstops.inside (by omega)).2 hn⟩
  · intro args name hargs hbytes hzero hlen
    have hcall := fun fuel => @isr80hCommand7Path_eq path args fuel κ hargs
    by_cases hnull : args = 0
    · refine iff_of_true ⟨0, .error (-einvarg), pageLoaded κ, ?_, trivial⟩ (.inl hnull)
      rw [hcall, if_pos hnull]
    rw [or_iff_right hnull]
    by_cases hname : name = []
    · subst hname
      refine iff_of_true ⟨1, .error (-einvarg), pageLoaded κ, ?_, trivial⟩ (.inl rfl)
      rw [hcall, if_neg hnull, strlen_eq hbytes hzero (by simp), Option.bind_some]
      rfl
    rw [or_iff_right hname]
    constructor
    · intro ⟨fuel, r, κ', hrun, hstarts⟩
      have hne : κ.kmem.mem args ≠ 0 := by
        have hpos := List.length_pos_of_ne_nil hname
        have hfirst := hbytes.get (show 0 < (name ++ [0]).length by simp)
        rw [BitVec.add_zero, List.getElem_append_left hpos] at hfirst
        exact fun h0 => hzero (hfirst.symm.trans h0 ▸ List.getElem_mem hpos)
      exact isr80hCommand7Path_starts hargs hnull hne hname hrun hstarts
    · intro ⟨hn, hoff⟩
      obtain ⟨s', hrun, hinside⟩ := isr80hCommand7Path_hands hargs hnull hbytes hzero hname (by omega) hoff
      exact ⟨_, _, _, hrun, rfl, hinside.2 hn⟩

/-! Two calls, of tasks with a short and with a long name. -/

lemma CallTask.pageLoaded {k : Kernel} {c : ℕ} {item : Word} {str : List Byte}
    (h : CallTask k c item str dir table) : CallTask (pageLoaded k) c item str dir table :=
  { h with }

/-- The string of the task. -/
lemma CallTask.copy {k : Kernel} (h : CallTask k 1030 0x2000 [1] dir table) (hget : Identity k.kmem.mem dir) :
    ∃ k', copyStringFromTask k (blockAddr 3) 0x2000 0x3000 108 = some (0, k') := by
  have hlive : DirLive k (k.tasks (blockAddr 3)).pageDirectory dir table := by
    intro g hg
    obtain ⟨b, -, hb, heq⟩ := h.pages g hg
    exact ⟨b, by omega, heq, h.frontier.taken b hb⟩
  have htemp : tempPage k 108 = 0x1406000 := by
    rw [frontier_tempPage h.frontier (by omega) (by decide)]
    decide
  have hshown := identity_bytes h.pageDir hlive.pool hget
  obtain ⟨hone, hzero, -⟩ := h.bytes
  have hread : k.kmem.bytes 0x2000 = 1 ∧ k.kmem.bytes (0x2000 + 1) = 0 := by
    rw [Kmem.bytes_of_not (by unfold InTable; decide), Kmem.bytes_of_not (by unfold InTable; decide)]
    exact ⟨hone, hzero⟩
  have hseen : Seen k.kmem.bytes dir 0x2000 ((108 : ℤ).toNat - 1) [1] := by
    refine ⟨fun j hj => ?_, by decide, by decide, fun _ => ?_⟩
    · obtain rfl : j = 0 := by simpa using hj
      exact (identity_byte hshown _).2.trans (congrArg some hread.1)
    · exact (identity_byte hshown _).2.trans (congrArg some hread.2)
  obtain ⟨k', hrun, -⟩ := copyStringFromTask_spec h.pageDir hlive ⟨1030, by omega, fun j h1 h2 =>
    h.frontier.free j h1 (by omega)⟩ h.zeroFree (by omega) (by omega) hseen
    (fun j hj _ => apart_low (fun g hg => hlive.pool g (tablePages_subset hg)) htemp (identity_byte hshown _).1 (by
      rw [toNat_add_ofNat (by change 8192 + j < 2 ^ 32; simp at hj; omega)]
      change 8192 + j < 32256
      simp at hj
      omega))
    fun x hx => dest_low htemp (by decide) hx
  exact ⟨k', hrun⟩

lemma CallTask.copyFilename {k : Kernel} (h : CallTask k 1030 0x2000 [1] dir table)
    (hget : Identity k.kmem.mem dir) :
    ∃ κ', copyFilename k 0x3000 = some (0, κ') := by
  obtain ⟨-, hitem⟩ := h.stackItem hget
  obtain ⟨κ', hrun⟩ := h.pageLoaded.copy hget
  refine ⟨κ', ?_⟩
  rw [Processes.copyFilename, hitem, Option.bind_some]
  dsimp only
  rw [h.pageLoaded.current]
  exact hrun

lemma stack_off : OffPrefix 0x5FFF00 0x2000 105 := by
  intro x hx hin
  have hlt := x.isLt
  have hsrc : (0x2000 : Word).toNat = 8192 := rfl
  have hpath : (0x5FFF00 : Word).toNat = 6291200 := rfl
  rw [InRange, BitVec.toNat_sub] at hx hin
  omega

/-- A task with one character for a name. -/
def shortName : Kernel := withString oneTask 0 0x2000 [1]

theorem starts_iff_shortName :
    (∃ κ' name, copyFilename shortName 0x3000 = some (0, κ') ∧
      ((∃ fuel r κ'', isr80hCommand6Path fuel 0x3000 0x4000 shortName = some (r, κ'') ∧
        Starts 0x4000 name r) ↔ name.length ≤ 104)) ∧
    ∃ fuel r κ', isr80hCommand7Path fuel 0x5FFF00 shortName = some (r, κ') ∧ Starts 0x5FFF00 [1] r := by
  have hready : ∃ dir table, CallTask shortName 1030 0x2000 [1] dir table ∧
      Identity shortName.kmem.mem dir := oneTask_withString 0 (by decide)
  obtain ⟨dir, table, hcall, hget⟩ := hready
  obtain ⟨κ', hcopy⟩ := hcall.copyFilename hget
  constructor
  · obtain ⟨name, -, -, -, hiff⟩ := (starts_iff shortName 0x4000).1 0x3000 0 κ' hcopy le_rfl
      fun x hx hin => by
        have hpage := inRange_page (p := 0x3000) (by decide) (show 108 ≤ 4096 by omega) hx
        rw [inRange_page (p := 0x4000) (by decide) (show 108 ≤ 4096 by omega) hin] at hpage
        exact absurd hpage (by decide)
    exact ⟨κ', name, hcopy, hiff⟩
  · have hoff : OffPrefix 0x5FFF00 0x2000 1 := fun x hx =>
      stack_off x (Nat.lt_of_lt_of_le hx (by omega))
    exact ((starts_iff shortName 0x5FFF00).2 0x2000 [1] (hcall.arguments hget) hcall.bytes (by decide) (by simp)).2
      (.inr (.inr ⟨by simp, hoff⟩))

/-- A task with a name of 105 characters. -/
def longName : Kernel := withString oneTask 0 0x2000 (List.replicate 105 1)

/-- Command 7 with a name of 105 characters writes the byte behind its buffer. -/
theorem longName_leavesBuffer :
    (∃ fuel start κ', isr80hCommand7Path fuel 0x5FFF00 longName = some (.ok start, κ') ∧
      ¬ ∀ x ∈ start.stores.written, InRange 0x5FFF00 maxPathLength x) ∧
    ¬ ∃ fuel r κ', isr80hCommand7Path fuel 0x5FFF00 longName = some (r, κ') ∧
      Starts 0x5FFF00 (List.replicate 105 1) r := by
  have hname : List.replicate 105 (1 : Byte) ≠ [] := by simp
  have hzero : (0 : Byte) ∉ List.replicate 105 1 := by simp
  have hlen : (List.replicate 105 (1 : Byte)).length = 105 := List.length_replicate
  have hready : ∃ dir table, CallTask longName 1030 0x2000 (List.replicate 105 1) dir table ∧
      Identity longName.kmem.mem dir := oneTask_withString 0 (by rw [hlen]; decide)
  obtain ⟨dir, table, hcall, hget⟩ := hready
  have hne : longName.kmem.mem 0x2000 ≠ 0 := by
    have hfirst := hcall.bytes.get (show 0 < (List.replicate 105 (1 : Byte) ++ [0]).length by simp)
    rw [BitVec.add_zero] at hfirst
    rw [hfirst]
    decide
  constructor
  · obtain ⟨s', hrun, hinside⟩ := @isr80hCommand7Path_hands 0x5FFF00 _ _ _ (hcall.arguments hget) (by decide)
      hcall.bytes hzero hname (by omega) (hlen ▸ stack_off)
    refine ⟨_, _, _, hrun, fun h => ?_⟩
    have := hinside.1 h
    omega
  · intro ⟨fuel, r, κ', hrun, hstarts⟩
    have := (isr80hCommand7Path_starts (hcall.arguments hget) (by decide) hne hname hrun hstarts).1
    omega

end AlphaOS.Processes
