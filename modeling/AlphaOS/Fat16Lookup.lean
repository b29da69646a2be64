import AlphaOS.AddressSpace
import AlphaOS.Fat16Listing

/-! Looking a name up in a directory: the entries are compared one after the other, as many as
are counted. -/
namespace AlphaOS.Fat16
open BlockHeap CString Kheap Paging Streamer WordMemory

variable {fuel : ℕ} {disk : Disk} {k : FatState} {s s' : Kmem} {d : FatDirectory}
  {name : ℤ → Byte} {e : ℕ → FatDirectoryItem} {C : Content} {t n m i j b : ℕ} {fItem : Word}

lemma Shown.matches (h : Shown fuel s.mem d e t) (hi : i < t) :
    (HasName fuel (e i) name ∧ hasName fuel s (d.entry i) name = some true) ∨
    (¬ HasName fuel (e i) name ∧ hasName fuel s (d.entry i) name = some false) := by
  obtain ⟨r, hr, hreads⟩ := h i hi
  have heq : hasName fuel s (d.entry i) name = some (decide (istrncmp r.out name maxPathLength = 0)) := by
    rw [hasName, fat16GetFullRelativeFilename_congr hr hreads, Option.map_some]
  by_cases hsame : istrncmp r.out name maxPathLength = 0
  · exact .inl ⟨⟨r, hr, hsame⟩, by rw [heq, decide_eq_true hsame]⟩
  · refine .inr ⟨?_, by rw [heq, decide_eq_false hsame]⟩
    rintro ⟨r', hr', hsame'⟩
    rw [hr] at hr'
    cases hr'
    exact hsame hsame'

lemma findItemLoop_add (d : FatDirectory) (name : ℤ → Byte) (n m i : ℕ) (k : FatState) (s : Kmem)
    (fItem : Word) : findItemLoop fuel disk d name (n + m) i k s fItem =
      (findItemLoop fuel disk d name n i k s fItem).bind fun r =>
        findItemLoop fuel disk d name m (i + n) r.2.1 r.2.2 r.1 := by
  induction n generalizing i k s fItem with
  | zero => simp [findItemLoop]
  | succ n ih =>
    have hnext : n + 1 + m = n + m + 1 := by omega
    have hindex : i + (n + 1) = i + 1 + n := by omega
    rw [hnext, findItemLoop, findItemLoop, hindex]
    cases hasName fuel s (d.entry i) name with
    | none => rfl
    | some found =>
      cases found with
      | false => simpa using ih (i + 1) k s fItem
      | true =>
        cases fat16NewFatItemForDirectoryItem fuel disk k s (d.entry i) with
        | none => rfl
        | some r => simpa using ih (i + 1) r.2.1 r.2.2 r.1

/-- Entries of other names change nothing. -/
lemma findItemLoop_skip (h : Shown fuel s.mem d e t) (ht : i + n ≤ t)
    (hnone : ∀ l, i ≤ l → l < i + n → ¬ HasName fuel (e l) name) :
    findItemLoop fuel disk d name n i k s fItem = some (fItem, k, s) := by
  induction n generalizing i with
  | zero => rfl
  | succ n ih =>
    rw [findItemLoop]
    cases @Shown.matches _ _ _ name _ _ i h (by omega) with
    | inl hfound => exact absurd hfound.1 (hnone i le_rfl (by omega))
    | inr hother =>
      rw [hother.2]
      exact ih (by omega) fun l hl hlt => hnone l (by omega) (by omega)

/-- An entry of the name is made an item. -/
lemma findItemLoop_match (h : Shown fuel s.mem d e t) (hj : j < t) (hname : HasName fuel (e j) name) :
    findItemLoop fuel disk d name 1 j k s fItem =
      fat16NewFatItemForDirectoryItem fuel disk k s (d.entry j) := by
  rw [findItemLoop]
  cases @Shown.matches _ _ _ name _ _ j h hj with
  | inr hother => exact absurd hname hother.1
  | inl hfound =>
    rw [hfound.2, Option.bind_some, if_pos rfl]
    cases fat16NewFatItemForDirectoryItem fuel disk k s (d.entry j) with
    | none => rfl
    | some r => rfl

/-- After any part of the scan a block is left for an item. -/
def Roomy (fuel : ℕ) (disk : Disk) (k : FatState) (s : Kmem) (d : FatDirectory) (t : ℕ)
    (name : ℤ → Byte) : Prop :=
  ∀ m < t, ∀ r, findItemLoop fuel disk d name m 0 k s 0 = some r → (kzalloc r.2.2 8).1 ≠ 0

/-- One more entry gives an item or keeps the one there is. -/
lemma findItemLoop_step {r : Word × FatState × Kmem} (hroom : (kzalloc s 8).1 ≠ 0)
    (h : findItemLoop fuel disk d name 1 i k s fItem = some r) : r.1 = fItem ∨ r.1 ≠ 0 := by
  rw [findItemLoop] at h
  obtain ⟨found, -, hrest⟩ := Option.bind_eq_some_iff.1 h
  cases found with
  | false =>
    cases hrest
    exact .inl rfl
  | true =>
    obtain ⟨r', hnew, heq⟩ := Option.bind_eq_some_iff.1 hrest
    cases heq
    exact .inr fun hnull => hroom ((fat16NewFatItem_eq_zero hnew).1 hnull)

/-- With room, a scan that meets an entry of the name does not give null. -/
lemma findItemLoop_ne_zero (h : Shown fuel s.mem d e t) (hroom : Roomy fuel disk k s d t name)
    (hname : HasName fuel (e j) name) {r : Word × FatState × Kmem} (hm : j + 1 ≤ m)
    (hmt : m ≤ t) (hscan : findItemLoop fuel disk d name m 0 k s 0 = some r) : r.1 ≠ 0 := by
  classical
  -- up to the first such entry nothing has changed
  obtain ⟨first, ⟨hfirst, hmatch⟩, hleast⟩ :=
    Nat.findX (p := fun l => l ≤ j ∧ HasName fuel (e l) name) ⟨j, le_rfl, hname⟩
  have hskip : findItemLoop fuel disk d name first 0 k s 0 = some (0, k, s) :=
    findItemLoop_skip h (by omega) fun l _ hl hl' => hleast l (by omega) ⟨by omega, hl'⟩
  have hstart : first + 1 ≤ m := by omega
  clear hm
  induction m, hstart using Nat.le_induction generalizing r with
  | base =>
    rw [findItemLoop_add, hskip, Option.bind_some, Nat.zero_add,
      findItemLoop_match h (by omega) hmatch] at hscan
    exact fun hnull => hroom first (by omega) _ hskip ((fat16NewFatItem_eq_zero hscan).1 hnull)
  | succ m hle ih =>
    rw [findItemLoop_add] at hscan
    obtain ⟨r', hfront, hlast⟩ := Option.bind_eq_some_iff.1 hscan
    have hne := ih (by omega) hfront
    cases findItemLoop_step (hroom m (by omega) r' hfront) hlast with
    | inl hkeeps => rwa [hkeeps]
    | inr hnew => exact hnew

/-- A later item is not the one in a block that is taken. -/
lemma findItemLoop_apart {c : ℕ} (hlisting : Listing fuel s d C b m) (hready : Ready disk k.fsPrivate)
    (hfuel : fuel < 2 ^ 26) (hc : c < 25600) (hpin : Pinned s.entries c 1) (hn : i + n ≤ C.total)
    (hfresh : fItem ≠ blockAddr c ∨ ∃ l, i ≤ l ∧ l < i + n ∧ HasName fuel (C.entry l) name)
    {r : Word × FatState × Kmem} (h : findItemLoop fuel disk d name n i k s fItem = some r) :
    r.1 ≠ blockAddr c := by
  induction n generalizing i k s fItem with
  | zero =>
    cases h
    apply hfresh.resolve_right
    rintro ⟨l, hlow, hhigh, -⟩
    omega
  | succ n ih =>
    rw [findItemLoop] at h
    cases @Shown.matches _ _ _ name _ _ i hlisting.shown (by omega) with
    | inr hother =>
      rw [hother.2] at h
      apply ih hlisting hready hpin (by omega) _ h
      apply hfresh.imp_right
      rintro ⟨l, hlow, hhigh, hname⟩
      have hne : l ≠ i := fun heq => hother.1 (heq ▸ hname)
      exact ⟨l, by omega, by omega, hname⟩
    | inl hfound =>
      rw [hfound.2, Option.bind_some, if_pos rfl] at h
      obtain ⟨r', hnew, hrest⟩ := Option.bind_eq_some_iff.1 h
      have hpos := hlisting.pos (show i < C.total by omega)
      have hkept := fat16NewFatItem_keeps hready hfuel hpos hlisting.blocks.pool hlisting.pinned
        hlisting.linked hnew
      have hkept' := fat16NewFatItem_keeps hready hfuel one_pos (show c + 1 ≤ 25600 by omega) hpin
        hlisting.linked hnew
      have hne : r'.1 ≠ blockAddr c := by
        by_cases hnull : r'.1 = 0
        · rw [hnull]
          exact (blockAddr_ne_zero (by omega)).symm
        · obtain ⟨c', hc', heq, -, hfree, -, -⟩ :=
            fat16NewFatItem_pinned hready hfuel hlisting.linked hnew hnull
          intro hsame
          obtain rfl : c' = c := blockAddr_inj (by omega) (by omega) (heq.symm.trans hsame)
          exact hpin.not_free hfree
      exact ih (hlisting.keeps hkept) (fat16NewFatItem_ready hready hfuel hnew)
        (hkept'.pinned hpin) (by omega) (.inl hne) hrest

/-! The lookup of one name. -/

lemma Listing.find_eq (h : Listing fuel s d C b m) (k : FatState) (name : ℤ → Byte) :
    fat16FindItemInDirectory fuel disk k s d name =
      findItemLoop fuel disk d name C.total 0 k s 0 := by
  rw [fat16FindItemInDirectory, h.total, Int.toNat_natCast]

lemma Listing.find_none (h : Listing fuel s d C b m)
    (hnone : ∀ i < C.total, ¬ HasName fuel (C.entry i) name) :
    fat16FindItemInDirectory fuel disk k s d name = some (0, k, s) := by
  rw [h.find_eq, findItemLoop_skip h.shown (by omega) fun l _ hl => hnone l (by omega)]

/-- The only entry of a name is found. -/
lemma Listing.find_only (h : Listing fuel s d C b m) (hready : Ready disk k.fsPrivate)
    (hfuel : fuel < 2 ^ 26) (hj : j < C.total) (hname : HasName fuel (C.entry j) name)
    (honly : ∀ i < C.total, HasName fuel (C.entry i) name → i = j) {r : Word × FatState × Kmem}
    (hnew : fat16NewFatItemForDirectoryItem fuel disk k s (d.entry j) = some r) :
    fat16FindItemInDirectory fuel disk k s d name = some r := by
  obtain ⟨rest, hrest⟩ : ∃ rest, C.total = j + (1 + rest) := ⟨C.total - (j + 1), by omega⟩
  have hkept := fat16NewFatItem_keeps hready hfuel (h.pos hj) h.blocks.pool h.pinned h.linked hnew
  have hbefore : findItemLoop fuel disk d name j 0 k s 0 = some (0, k, s) :=
    findItemLoop_skip h.shown (by omega) fun l _ hl hl' => by
      have heq := honly l (by omega) hl'
      omega
  have hafter : findItemLoop fuel disk d name rest (j + 1) r.2.1 r.2.2 r.1 = some r :=
    findItemLoop_skip (h.keeps hkept).shown (by omega) fun l hl hl' hl'' => by
      have heq := honly l (by omega) hl''
      omega
  rw [h.find_eq, hrest, findItemLoop_add, hbefore, Option.bind_some, Nat.zero_add,
    findItemLoop_add, findItemLoop_match h.shown hj hname, hnew, Option.bind_some, hafter]

/-- Of two entries of a name it is not the first one that is found. -/
lemma Listing.find_two (h : Listing fuel s d C b m) (hready : Ready disk k.fsPrivate)
    (hfuel : fuel < 2 ^ 26) (hroom : (kzalloc s 8).1 ≠ 0) (hij : i < j) (hj : j < C.total)
    (hi : HasName fuel (C.entry i) name) (hj' : HasName fuel (C.entry j) name)
    {r : Word × FatState × Kmem} (hfind : fat16FindItemInDirectory fuel disk k s d name = some r) :
    r.1 ≠ (kzalloc s 8).1 := by
  classical
  obtain ⟨first, ⟨hfirst, hmatch⟩, hleast⟩ :=
    Nat.findX (p := fun l => l ≤ i ∧ HasName fuel (C.entry l) name) ⟨i, le_rfl, hi⟩
  have hskip : findItemLoop fuel disk d name first 0 k s 0 = some (0, k, s) :=
    findItemLoop_skip h.shown (by omega) fun l _ hl hl' => hleast l (by omega) ⟨by omega, hl'⟩
  obtain ⟨rest, hrest⟩ : ∃ rest, C.total = first + (1 + rest) := ⟨C.total - (first + 1), by omega⟩
  rw [h.find_eq, hrest, findItemLoop_add, hskip, Option.bind_some, Nat.zero_add, findItemLoop_add,
    findItemLoop_match h.shown (by omega) hmatch] at hfind
  obtain ⟨r', hnew, hafter⟩ := Option.bind_eq_some_iff.1 hfind
  have hne : r'.1 ≠ 0 := fun hnull => hroom ((fat16NewFatItem_eq_zero hnew).1 hnull)
  obtain ⟨c, hc, heq, hfrom, -, -, hpin⟩ := fat16NewFatItem_pinned hready hfuel h.linked hnew hne
  have hkept := fat16NewFatItem_keeps hready hfuel (h.pos hj) h.blocks.pool h.pinned h.linked hnew
  rw [← hfrom, heq]
  exact findItemLoop_apart (h.keeps hkept) (fat16NewFatItem_ready hready hfuel hnew) hfuel hc hpin
    (by omega) (.inr ⟨j, by omega, by omega, hj'⟩) hafter

/-! The lookup of every name. -/

/-- The subdirectories among the entries can be counted, and memory does not run out. -/
structure Makeable (fuel : ℕ) (disk : Disk) (k : FatState) (s : Kmem) (d : FatDirectory)
    (C : Content) : Prop where
  returns : ∀ i < C.total, ∃ r,
    fat16NewFatItemForDirectoryItem fuel disk k s (d.entry i) = some r
  room : ∀ name, Roomy fuel disk k s d C.total name

/-- A name that only one entry has leads to it, and a name that no entry has leads nowhere. The
entries are those in front of the terminator that are not deleted. -/
def FindsByName (fuel : ℕ) (disk : Disk) (k : FatState) (s : Kmem) (d : FatDirectory)
    (C : Content) : Prop :=
  ∀ name : ℤ → Byte,
    (∀ j, C.Owner fuel name j → (∀ i, C.Owner fuel name i → i = j) →
      ∃ r, fat16FindItemInDirectory fuel disk k s d name = some r ∧
        fat16NewFatItemForDirectoryItem fuel disk k s (d.entry j) = some r ∧ r.1 ≠ 0) ∧
    ((∀ i, ¬ C.Owner fuel name i) →
      (fat16FindItemInDirectory fuel disk k s d name).map Prod.fst = some 0)

/-- For a name that at most one entry has, the entries that are looked at and have it are those
of the directory. -/
def Content.SeesLive (C : Content) (fuel : ℕ) : Prop :=
  ∀ name : ℤ → Byte, (∀ i j, C.Owner fuel name i → C.Owner fuel name j → i = j) →
    ∀ i, i < C.total ∧ HasName fuel (C.entry i) name ↔ C.Owner fuel name i

/-- What carries a name of an entry is an entry or stands behind the terminator. -/
lemma Content.Owner.shares (h : C.Owner fuel name j) (hi : HasName fuel (C.entry i) name)
    (hnot : ¬ C.Owner fuel name i) : C.stop ≤ i := by
  by_contra hlt
  apply hnot
  refine ⟨⟨by omega, fun hdeleted => ?_⟩, hi⟩
  exact h.1.2 (hi.deleted h.2 hdeleted)

/-- When the entries are the ones that are counted, they are seen exactly when they come first. -/
lemma Content.seesLive_iff (hC : C.Consecutive) (hnamed : ∀ i < C.total, ∃ r,
      fat16GetFullRelativeFilename fuel (C.entry i) (fun _ => 0) maxPathLength = some r) :
    C.SeesLive fuel ↔ C.LiveFirst := by
  have hle : C.total ≤ C.stop := by
    rw [hC.total_eq]
    exact Nat.count_le _
  rw [C.liveFirst_iff hC]
  constructor
  · intro hsees i hi hdeleted
    -- no entry has the name of a deleted one
    obtain ⟨r, hr⟩ := hnamed i hi
    have hname := hasName_self hr
    have hnone : ∀ j, ¬ C.Owner fuel r.out j :=
      fun j hj => hj.1.2 (hname.deleted hj.2 hdeleted)
    have howner := (hsees r.out fun i _ h _ => absurd h (hnone i)) i
    exact hnone i (howner.1 ⟨hi, hname⟩)
  · intro hall name _ i
    constructor
    · exact fun ⟨hi, hname⟩ => ⟨⟨by omega, hall i hi⟩, hname⟩
    · exact fun howner => ⟨howner.1.lt_total hC hall, howner.2⟩

/-- What finds by name looks at the entries of the directory and at no others. -/
lemma FindsByName.seesLive (hfinds : FindsByName fuel disk k s d C)
    (hlisting : Listing fuel s d C b m) (hready : Ready disk k.fsPrivate) (hfuel : fuel < 2 ^ 26)
    (hmake : Makeable fuel disk k s d C) : C.SeesLive fuel := by
  intro name hunique i
  obtain ⟨hone, hnone⟩ := hfinds name
  by_cases howned : ∃ j, C.Owner fuel name j
  · obtain ⟨j, hj⟩ := howned
    obtain ⟨r, hfind, hnew, hne⟩ := hone j hj fun i hi => hunique i j hi hj
    have hroom : (kzalloc s 8).1 ≠ 0 := fun hnull => hne ((fat16NewFatItem_eq_zero hnew).2 hnull)
    obtain ⟨-, -, -, hfirst, -, -⟩ := fat16NewFatItem_pinned hready hfuel hlisting.linked hnew hne
    -- something is found, so the entry itself is looked at
    have hseen : ∃ l < C.total, HasName fuel (C.entry l) name := by
      by_contra hno
      rw [hlisting.find_none fun l hl hl' => hno ⟨l, hl, hl'⟩] at hfind
      cases hfind
      exact hne rfl
    have hjt : j < C.total := by
      obtain ⟨l, hl, hl'⟩ := hseen
      by_cases howner : C.Owner fuel name l
      · rwa [hunique j l hj howner]
      · have hstop := hj.shares hl' howner
        have hbefore := hj.1.1
        omega
    -- and a second one would have replaced it
    have hsole : ∀ l < C.total, HasName fuel (C.entry l) name → l = j := by
      intro l hl hl'
      rcases Nat.lt_trichotomy l j with hlt | heq | hgt
      · exact absurd hfirst (hlisting.find_two hready hfuel hroom hlt hjt hl' hj.2 hfind)
      · exact heq
      · exact absurd hfirst (hlisting.find_two hready hfuel hroom hgt hl hj.2 hl' hfind)
    constructor
    · rintro ⟨hi, hname⟩
      rwa [hsole i hi hname]
    · intro howner
      rw [hunique i j howner hj]
      exact ⟨hjt, hj.2⟩
  · have hnull := hnone fun j hj => howned ⟨j, hj⟩
    constructor
    · rintro ⟨hi, hname⟩
      rw [hlisting.find_eq] at hnull
      obtain ⟨r, hscan, hzero⟩ := Option.map_eq_some_iff.1 hnull
      exact absurd hzero
        (findItemLoop_ne_zero hlisting.shown (hmake.room name) hname hi le_rfl hscan)
    · exact fun howner => absurd ⟨i, howner⟩ howned

lemma Content.SeesLive.findsByName (hsees : C.SeesLive fuel) (hlisting : Listing fuel s d C b m)
    (hready : Ready disk k.fsPrivate) (hfuel : fuel < 2 ^ 26)
    (hmake : Makeable fuel disk k s d C) : FindsByName fuel disk k s d C := by
  intro name
  constructor
  · intro j hj hunique
    have hseen := hsees name fun i l hi hl => (hunique i hi).trans (hunique l hl).symm
    obtain ⟨hjt, hname⟩ := (hseen j).2 hj
    obtain ⟨r, hnew⟩ := hmake.returns j hjt
    have hroom : (kzalloc s 8).1 ≠ 0 := hmake.room name 0 (by omega) (0, k, s) rfl
    have hfind := hlisting.find_only hready hfuel hjt hname
      (fun i hi hi' => hunique i ((hseen i).1 ⟨hi, hi'⟩)) hnew
    exact ⟨r, hfind, hnew, fun hnull => hroom ((fat16NewFatItem_eq_zero hnew).1 hnull)⟩
  · intro hnone
    have hseen := hsees name fun i _ hi _ => absurd hi (hnone i)
    rw [hlisting.find_none fun i hi hi' => hnone i ((hseen i).1 ⟨hi, hi'⟩)]
    rfl

/-- The lookup goes by name exactly when it sees the entries of the directory; where these are
the ones that are counted, exactly when no deleted entry comes before another one. -/
theorem findsByName_iff (hlisting : Listing fuel s d C b m) (hready : Ready disk k.fsPrivate)
    (hfuel : fuel < 2 ^ 26) (hmake : Makeable fuel disk k s d C) :
    (FindsByName fuel disk k s d C ↔ C.SeesLive fuel) ∧
    (C.Consecutive → (FindsByName fuel disk k s d C ↔ C.LiveFirst)) := by
  have hiff : FindsByName fuel disk k s d C ↔ C.SeesLive fuel :=
    ⟨fun h => h.seesLive hlisting hready hfuel hmake,
      fun h => h.findsByName hlisting hready hfuel hmake⟩
  refine ⟨hiff, fun hC => hiff.trans (C.seesLive_iff hC fun i hi => ?_)⟩
  obtain ⟨r, hr, -⟩ := hlisting.shown i hi
  exact ⟨r, hr⟩

/-- A disk whose root directory has a deleted entry and then the file A. -/
def deletedFirstDisk : Disk where
  addr := 0x200000
  sector s i :=
    if s = 0 then bootByte i
    else if s = 3 ∧ i = 0 then 0xE5
    else if s = 3 ∧ i = 32 then 0x41
    else if s = 3 ∧ (0 < i ∧ i < 11 ∨ 32 < i ∧ i < 43) then space
    else 0

/-- Its root directory, at sector 3. -/
def deletedFirst : Content where
  entry i j := deletedFirstDisk.byte (1536 + (sizeofDirectoryItem * i + j))
  stop := 2
  before := by decide
  terminator := by decide
  counted i := deletedFirstDisk.byte (1536 + (sizeofDirectoryItem * i + 0))
  countStop := 2
  counted_before := by decide
  counted_terminator := by decide

/-- The file system of a disk nothing has been opened on. -/
def mountedState (p : FatPrivate) : FatState where
  fsPrivate := p
  items := fun _ => ⟨0, .file⟩
  directories := fun _ => ⟨0, 0, 0, 0⟩
  descriptors := fun _ => ⟨0, 0⟩
  accesses := []

/-- The root directory of a disk with that boot sector in an empty heap. What keeps its first block
keeps its first entry. -/
lemma bootDisk_loads {disk : Disk} (haddr : disk.addr = 0x200000) (hC : C.Consecutive)
    (hentry : ∀ i (j : ℕ), C.entry i j = disk.byte (1536 + (sizeofDirectoryItem * i + j : ℕ)))
    (hstop : C.stop < 3) : ∃ d p' s' b m,
    fat16GetRootDirectory 100 disk bootPrivate emptyKmem ⟨0, 0, 0, 0⟩ = some (0, d, p', s') ∧
    Ready disk p' ∧ Listing 100 s' d C b m ∧ Frontier s' 4 ∧
    ∀ s'', KeepsRun 0 1 s' s'' → ∀ j : ℕ, j < sizeofDirectoryItem →
      pointer s''.mem (d.entry 0) j = C.entry 0 j := by
  have hopen : DirectoryOpen disk bootPrivate := ⟨⟨0, 0x200000⟩, rfl, haddr.symm⟩
  have hvalid : ValidHeader bootPrivate.header := by decide
  have hfrontier : Frontier emptyKmem 0 :=
    ⟨fun _ hb => absurd hb (Nat.not_lt_zero _), fun _ _ hb => kheapInit_free _ _ hb⟩
  have hwidth : rootDirSize bootPrivate.header = 16384 := rfl
  have hentries : bootPrivate.header.rootDirEntries.toNat = 512 := rfl
  generalize hsize : BitVec.ofNat 32 (rootDirSize bootPrivate.header) = size
  have hblocks : (heapBlocksFor size).toNat = 4 := by
    rw [heapBlocksFor_eq, ← hsize]
    rfl
  obtain ⟨hbuffer, hnext⟩ := @Frontier.kzalloc emptyKmem 0 hfrontier size (by omega) (by omega)
  have hne : (kzalloc emptyKmem size).1 ≠ 0 := by
    rw [hbuffer]
    exact blockAddr_ne_zero (by omega)
  obtain ⟨d, p', s', hload, hready, hitem, -, hsame, hmem⟩ := @rootDirectory_loads 100 disk emptyKmem C
    bootPrivate hopen hvalid ⟨0, 0, 0, 0⟩ size hsize.symm hne hC hentry (by omega)
    (by omega)
  have hfit : FitsAt emptyKmem.entries 25600 4 0 :=
    ⟨by omega, fun j _ hj => kheapInit_free _ _ (by omega)⟩
  obtain ⟨b, m, hlisting⟩ := @rootListing 100 disk emptyKmem s' d C bootPrivate p' ⟨0, 0, 0, 0⟩ hopen
    hvalid emptyKmem_linked ⟨0, by rwa [hsize, hblocks]⟩ hC hentry (by omega)
    (by unfold sizeofDirectoryItem; omega) hload
  have hfrontier' : Frontier s' 4 := by
    rw [hblocks] at hnext
    exact ⟨fun b hb => hsame ▸ hnext.taken b hb, fun b hb hlt => hsame ▸ hnext.free b hb hlt⟩
  have hboot : Ready disk bootPrivate :=
    ⟨⟨⟨⟨0, 0x200000⟩, rfl, haddr.symm⟩, ⟨⟨0, 0x200000⟩, rfl, haddr.symm⟩, by decide⟩, hopen⟩
  refine ⟨d, p', s', b, m, hload, hready hboot, hlisting, hfrontier', fun s'' hkept j hj => ?_⟩
  unfold sizeofDirectoryItem at hj
  rw [hbuffer] at hitem
  have hpin : Pinned s'.entries 0 1 := by
    rw [hsame]
    exact kzalloc_pinnedAt emptyKmem_linked (congrArg Prod.fst hbuffer) (by omega) (by omega)
  obtain ⟨hlow, hhigh⟩ := @pageOf_run 0 1 j (by omega) (by omega)
  rw [pointer_entry, Nat.mul_zero, Nat.zero_add, hitem, hkept.mem hpin _ hlow hhigh]
  have hbyte := hmem 0 j (by omega)
  rwa [Nat.mul_zero, Nat.zero_add, hitem] at hbyte

/-- A block of such a pool. -/
lemma frontier_next {c : ℕ} {size : Word} (h : Frontier s c) (hsize : (heapBlocksFor size).toNat = 1)
    (hc : c < 25600) : (kzalloc s size).1 ≠ 0 ∧ Frontier (kzalloc s size).2 (c + 1) := by
  obtain ⟨haddr, hnext⟩ := frontier_block h hsize (by omega)
  exact ⟨haddr ▸ blockAddr_ne_zero (by omega), hnext⟩

lemma frontier_next_ne_zero {c : ℕ} (h : Frontier s c) (hc : c < 25600) : (kzalloc s 8).1 ≠ 0 :=
  (frontier_next h (by decide) hc).1

lemma fat16GetFirstCluster_congr {item item' : FatDirectoryItem}
    (h : ∀ j : ℕ, j < sizeofDirectoryItem → item j = item' j) :
    fat16GetFirstCluster item = fat16GetFirstCluster item' := by
  have h20 : item 20 = item' 20 := h 20 (by decide)
  have h21 : item 21 = item' 21 := h 21 (by decide)
  have h26 : item 26 = item' 26 := h 26 (by decide)
  have h27 : item 27 = item' 27 := h 27 (by decide)
  simp only [fat16GetFirstCluster, FatDirectoryItem.high16BitsFirstCluster,
    FatDirectoryItem.low16BitsFirstCluster, h20, h21, h26, h27]

/-- An entry without attributes is made a file. -/
lemma fat16NewFatItem_file {item : Word} (hroom : (kzalloc s 8).1 ≠ 0)
    (hattributes : FatDirectoryItem.attributes (pointer s.mem item) = 0) :
    ∃ r, fat16NewFatItemForDirectoryItem fuel disk k s item = some r ∧ r.1 ≠ 0 ∧
      (r.2.1.items r.1).type = .file ∧ r.2.1.fsPrivate = k.fsPrivate := by
  have hcleared : FatDirectoryItem.attributes (pointer (kzalloc s 8).2.mem item) = 0 :=
    kzalloc_byte_zero hattributes
  have hprivate := fat16CloneDirectoryItem_private (k.log (.made (kzalloc s 8).1)) (kzalloc s 8).2 item
    sizeofDirectoryItem
  unfold fat16NewFatItemForDirectoryItem
  dsimp only
  rw [if_neg hroom, hcleared, if_neg (by decide)]
  generalize fat16CloneDirectoryItem _ _ item sizeofDirectoryItem = clone at hprivate ⊢
  refine ⟨_, rfl, hroom, ?_, hprivate⟩
  simp only [FatState.setItem, Function.update_self]

lemma readFatDirectory_returns (hready : Ready disk k.fsPrivate) (directory : Word) (cluster total : ℤ) :
    ∃ r, readFatDirectory disk k s directory cluster total = some r := by
  unfold readFatDirectory
  dsimp only
  generalize BitVec.ofInt 32 total * BitVec.ofNat 32 sizeofDirectoryItem = size
  have hlt : size.toInt < 2 ^ 31 := by
    have htop := BitVec.toInt_lt (x := size)
    simpa using htop
  split_ifs
  · exact ⟨_, rfl⟩
  · obtain ⟨res, p', mem', hread, -⟩ := @fat16ReadInternal_chained disk k.fsPrivate k.fsPrivate cluster 0
      size.toInt hready.table hready.sectors (streamed_refl hready.table hready.clusters) hlt
      (kzalloc s size).2.mem (kzalloc s size).1
    exact ⟨_, Option.map_eq_some_iff.2 ⟨_, hread, rfl⟩⟩

lemma fat16LoadFatDirectory_returns (hready : Ready disk k.fsPrivate) {item : Word}
    {total : ℤ × FatPrivate} (hcount : fat16GetTotalItemsForDirectory fuel disk k.fsPrivate
      (BitVec.ofInt 32 (fat16ClusterToSector k.fsPrivate
        (fat16GetFirstCluster (pointer (kzalloc s 16).2.mem item)).toInt)) = some total) :
    ∃ r, fat16LoadFatDirectory fuel disk k s item = some r := by
  obtain ⟨-, -, hready'⟩ := hready.count hcount
  unfold fat16LoadFatDirectory
  dsimp only
  generalize kzalloc s 16 = directory at hcount
  split_ifs
  · exact ⟨_, rfl⟩
  · exact ⟨_, rfl⟩
  · generalize hk : k.log (.made directory.1) = k₁
    have hsame : k₁.fsPrivate = k.fsPrivate := by rw [← hk]; rfl
    rw [hsame, hcount]
    exact @readFatDirectory_returns disk (k₁.withPrivate total.2) _ hready' _ _ _

/-- An entry of a subdirectory that can be counted is made a directory. -/
lemma fat16NewFatItem_directory (hready : Ready disk k.fsPrivate) {item : Word}
    (hroom : (kzalloc s 8).1 ≠ 0) (hattributes :
      FatDirectoryItem.attributes (pointer (kzalloc s 8).2.mem item) &&& fatFileSubdirectory ≠ 0)
    {total : ℤ × FatPrivate} (hcount : fat16GetTotalItemsForDirectory fuel disk k.fsPrivate
      (BitVec.ofInt 32 (fat16ClusterToSector k.fsPrivate
        (fat16GetFirstCluster (pointer (kzalloc (kzalloc s 8).2 16).2.mem item)).toInt)) = some total) :
    ∃ directory, fat16LoadFatDirectory fuel disk (k.log (.made (kzalloc s 8).1)) (kzalloc s 8).2 item =
        some directory ∧
      fat16NewFatItemForDirectoryItem fuel disk k s item = some ((kzalloc s 8).1,
        directory.2.1.setItem (kzalloc s 8).1 ⟨directory.1, .directory⟩, directory.2.2) := by
  obtain ⟨directory, hload⟩ := @fat16LoadFatDirectory_returns fuel disk
    (k.log (.made (kzalloc s 8).1)) (kzalloc s 8).2 hready item total hcount
  refine ⟨directory, hload, ?_⟩
  unfold fat16NewFatItemForDirectoryItem
  dsimp only
  rw [if_neg hroom, if_pos hattributes, hload]
  rfl

/-- Its only counted entry is no subdirectory, and memory is left. -/
lemma deletedFirst_makeable {k : FatState} {s : Kmem} {d : FatDirectory}
    (hroom : (kzalloc s 8).1 ≠ 0)
    (hattributes : FatDirectoryItem.attributes (pointer s.mem (d.entry 0)) = 0) :
    Makeable 100 deletedFirstDisk k s d deletedFirst := by
  have htotal : deletedFirst.total = 1 := by decide
  constructor
  · intro i hi
    obtain rfl : i = 0 := by omega
    obtain ⟨r, hnew, -⟩ := @fat16NewFatItem_file 100 deletedFirstDisk k s (d.entry 0) hroom hattributes
    exact ⟨r, hnew⟩
  · intro name m hm r hr
    obtain rfl : m = 0 := by omega
    cases hr
    exact hroom

theorem findsByName_iff_deletedFirst : ∃ d p' s',
    fat16GetRootDirectory 100 deletedFirstDisk bootPrivate emptyKmem ⟨0, 0, 0, 0⟩ =
      some (0, d, p', s') ∧
    (FindsByName 100 deletedFirstDisk (mountedState p') s' d deletedFirst ↔ deletedFirst.LiveFirst) := by
  obtain ⟨d, p', s', b, m, hload, hready, hlisting, hfrontier, hbytes⟩ :=
    @bootDisk_loads deletedFirst deletedFirstDisk rfl (fun _ => rfl) (fun _ _ => rfl) (by decide)
  refine ⟨d, p', s', hload, ?_⟩
  exact (@findsByName_iff 100 deletedFirstDisk (mountedState p') s' d deletedFirst m b hlisting hready
    (by norm_num) (deletedFirst_makeable (frontier_next_ne_zero hfrontier (by omega))
      ((hbytes s' (.refl 0 1 s') 11 (by decide)).trans (by decide)))).2 fun _ => rfl

/-- `a` in lower case. -/
def lowerA : ℤ → Byte := fun i => if i = 0 then 0x61 else 0

/-- The file A is not found. -/
theorem findsByName_missesFile : ∃ d p' s',
    fat16GetRootDirectory 100 deletedFirstDisk bootPrivate emptyKmem ⟨0, 0, 0, 0⟩ =
      some (0, d, p', s') ∧
    deletedFirst.Owner 100 lowerA 1 ∧ (∀ i, deletedFirst.Owner 100 lowerA i → i = 1) ∧
    fat16FindItemInDirectory 100 deletedFirstDisk (mountedState p') s' d lowerA =
      some (0, mountedState p', s') := by
  obtain ⟨d, p', s', b, m, hload, -, hlisting, -, -⟩ :=
    @bootDisk_loads deletedFirst deletedFirstDisk rfl (fun _ => rfl) (fun _ _ => rfl) (by decide)
  have hdeleted : deletedFirst.entry 0 0 = 0xE5 := by decide
  have howner : deletedFirst.Owner 100 lowerA 1 := by
    refine ⟨⟨by decide, by decide⟩, ?_⟩
    have hname : (fat16GetFullRelativeFilename 100 (deletedFirst.entry 1) (fun _ => 0)
        maxPathLength).map (fun r => istrncmp r.out lowerA maxPathLength) = some 0 := by
      decide +kernel
    exact Option.map_eq_some_iff.1 hname
  have hsole : ∀ i, deletedFirst.Owner 100 lowerA i → i = 1 := by
    rintro i ⟨⟨hlt, hlive⟩, -⟩
    have hstop : i < 2 := hlt
    interval_cases i
    · exact absurd hdeleted hlive
    · rfl
  refine ⟨d, p', s', hload, howner, hsole, hlisting.find_none fun i hi hname => ?_⟩
  have htotal : deletedFirst.total = 1 := by decide
  obtain rfl : i = 0 := by omega
  exact howner.1.2 (hname.deleted howner.2 hdeleted)

end AlphaOS.Fat16
