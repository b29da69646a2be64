import AlphaOS.AccessLog
import AlphaOS.Fat16Items

/-! The entries of a directory as they are on the disk, the count made of them, and the buffer
that holds as many as are counted. -/
namespace AlphaOS.Fat16
open BlockHeap CString Kheap Streamer WordMemory

variable {fuel : ℕ} {disk : Disk} {k : FatState} {s s' : Kmem} {d : FatDirectory}
  {item item' : FatDirectoryItem} {out : ℤ → Byte} {maxLen : ℕ} {name : ℤ → Byte}

/-! The names of entries. -/

lemma istrncmpLoop_self (str : ℤ → Byte) (n : ℕ) (i : ℤ) : istrncmpLoop str str n i = 0 := by
  induction n generalizing i with
  | zero => rfl
  | succ n ih => simp [istrncmpLoop, ih]

/-- Names that compare as equal begin with the same character, in some case. -/
lemma istrncmp_first {a b : ℤ → Byte} {n : ℕ} (hn : 0 < n) (h : istrncmp a b n = 0) :
    tolower (a 0) = tolower (b 0) := by
  obtain ⟨n, rfl⟩ := Nat.exists_eq_succ_of_ne_zero (Nat.ne_of_gt hn)
  rw [istrncmp, istrncmpLoop] at h
  by_cases hsame : a 0 = b 0
  · rw [hsame]
  · by_contra hlower
    rw [if_pos ⟨hsame, hlower⟩] at h
    exact hsame (BitVec.eq_of_toNat_eq (by omega))

/-- No letter has the mark of a deleted entry as its other case. -/
lemma tolower_deleted {b : Byte} (h : tolower b = tolower 0xE5) : b = 0xE5 := by
  have hall : ∀ b : Byte, tolower b = tolower 0xE5 → b = 0xE5 := by decide +kernel
  exact hall b h

/-- Only the bytes that are read count. -/
lemma fat16ToProperString_congr {input input' : ℤ → Byte} {i pos : ℤ} {r : ProperString}
    (h : fat16ToProperString input fuel i out pos = some r)
    (hsame : ∀ j ∈ r.reads, input' j = input j) :
    fat16ToProperString input' fuel i out pos = some r := by
  induction fuel generalizing i out pos r with
  | zero => simp [fat16ToProperString] at h
  | succ fuel ih =>
    rw [fat16ToProperString] at h ⊢
    by_cases hgo : input i ≠ 0 ∧ input i ≠ space
    · rw [if_pos hgo] at h
      obtain ⟨r', hr', rfl⟩ := Option.map_eq_some_iff.1 h
      rw [hsame i (by simp), if_pos hgo, ih hr' fun j hj => hsame j (List.mem_cons_of_mem i hj),
        Option.map_some]
    · rw [if_neg hgo] at h
      cases h
      rw [hsame i (by simp), if_neg hgo]

lemma fat16GetFullRelativeFilename_congr {r : ProperString}
    (h : fat16GetFullRelativeFilename fuel item out maxLen = some r)
    (hsame : ∀ j ∈ r.reads, item' j = item j) :
    fat16GetFullRelativeFilename fuel item' out maxLen = some r := by
  obtain ⟨first, hfirst, hrest⟩ := fat16GetFullRelativeFilename_cases h
  rcases hrest with ⟨hstop, rfl⟩ | ⟨hgo, second, hsecond, rfl⟩
  · have hext : item'.ext 0 = item.ext 0 := hsame 8 (by simp)
    have hfirst' := fat16ToProperString_congr hfirst fun j hj => hsame j (by simp [hj])
    rw [fat16GetFullRelativeFilename, FatDirectoryItem.filename, hfirst', Option.bind_some, hext,
      if_neg fun hboth => not_stops.2 hboth hstop]
  · have hext : item'.ext 0 = item.ext 0 := hsame 8 (by simp)
    have hfirst' := fat16ToProperString_congr hfirst fun j hj => hsame j (by simp [hj])
    have hsecond' : fat16ToProperString item'.ext fuel 0 (Function.update first.out first.pos dot)
        (first.pos + 1) = some second :=
      fat16ToProperString_congr hsecond fun j hj => hsame (8 + j) (by simp [hj])
    rw [fat16GetFullRelativeFilename, FatDirectoryItem.filename, hfirst', Option.bind_some, hext,
      if_pos (not_stops.1 hgo), hsecond', Option.map_some]

/-- A name begins with its entry's first byte, or with a dot or a zero. -/
lemma fat16GetFullRelativeFilename_first {r : ProperString}
    (h : fat16GetFullRelativeFilename fuel item out maxLen = some r) (hlen : 0 < maxLen) :
    (Stops item 0 ∧ (r.out 0 = 0 ∨ r.out 0 = dot)) ∨ (¬ Stops item 0 ∧ r.out 0 = item 0) := by
  obtain ⟨first, hfirst, hrest⟩ := fat16GetFullRelativeFilename_cases h
  obtain ⟨hpos, -, hcopied, hafter⟩ := fat16ToProperString_out hfirst
  by_cases hstop : Stops item 0
  · refine .inl ⟨hstop, ?_⟩
    have hnone : first.pos = 0 := by
      by_contra hne
      exact (hcopied 0 le_rfl (by omega)).1 hstop
    have hzero : first.out 0 = 0 := by
      have hclear : clear out maxLen 0 = 0 := if_pos ⟨le_rfl, by omega⟩
      cases hafter 0 hnone.le with
      | inl hsame => rw [hsame, hclear]
      | inr hzero => exact hzero
    rcases hrest with ⟨-, rfl⟩ | ⟨-, second, hsecond, rfl⟩
    · exact .inl hzero
    · obtain ⟨-, hbefore, -⟩ := fat16ToProperString_out hsecond
      right
      change second.out 0 = dot
      rw [hbefore 0 (by omega), hnone, Function.update_self]
  · refine .inr ⟨hstop, ?_⟩
    have hgo : ∀ j : ℕ, j < 1 → ¬ Stops item (0 + j) := by
      intro j hj
      obtain rfl : j = 0 := by omega
      exact hstop
    obtain ⟨-, hone⟩ := fat16ToProperString_reads hfirst hgo
    have hcopy := (hcopied 0 le_rfl (by omega)).2
    simp only [sub_self, add_zero] at hcopy
    rcases hrest with ⟨-, rfl⟩ | ⟨-, second, hsecond, rfl⟩
    · exact hcopy
    · obtain ⟨-, hbefore, -⟩ := fat16ToProperString_out hsecond
      change second.out 0 = item 0
      rw [hbefore 0 (by omega), Function.update_of_ne (by omega), hcopy]

/-- A name has the mark of a deleted entry in front exactly when its entry has. -/
lemma fat16GetFullRelativeFilename_deleted {r : ProperString}
    (h : fat16GetFullRelativeFilename fuel item out maxLen = some r) (hlen : 0 < maxLen) :
    r.out 0 = 0xE5 ↔ item 0 = 0xE5 := by
  cases fat16GetFullRelativeFilename_first h hlen with
  | inr hsame => rw [hsame.2]
  | inl hempty =>
    obtain ⟨hstop, hfirst⟩ := hempty
    apply iff_of_false
    · cases hfirst with
      | inl hzero => rw [hzero]; decide
      | inr hdot => rw [hdot]; decide
    · cases hstop with
      | inl hzero => rw [hzero]; decide
      | inr hspace => rw [hspace]; decide

/-- A copy returns when its input stops within the bound. -/
lemma fat16ToProperString_returns {input : ℤ → Byte} {i pos : ℤ} {m : ℕ} (hstop : Stops input (i + m))
    (hfuel : m < fuel) : ∃ r, fat16ToProperString input fuel i out pos = some r := by
  induction fuel generalizing m i out pos with
  | zero => omega
  | succ fuel ih =>
    rw [fat16ToProperString]
    by_cases hgo : input i ≠ 0 ∧ input i ≠ space
    · cases m with
      | zero =>
        simp only [Nat.cast_zero, add_zero] at hstop
        exact absurd hstop (not_stops.2 hgo)
      | succ m =>
        have hshift : i + ((m + 1 : ℕ) : ℤ) = i + 1 + m := by
          push_cast
          ring
        rw [hshift] at hstop
        obtain ⟨r, hr⟩ := @ih (Function.update out pos (input i)) (i + 1) (pos + 1) m hstop (by omega)
        rw [if_pos hgo, hr]
        exact ⟨_, rfl⟩
    · rw [if_neg hgo]
      exact ⟨_, rfl⟩

lemma fat16GetFullRelativeFilename_returns {m : ℕ} (hm : 8 ≤ m) (hstop : Stops item m)
    (hfuel : m < fuel) : ∃ r, fat16GetFullRelativeFilename fuel item out maxLen = some r := by
  obtain ⟨first, hfirst⟩ := @fat16ToProperString_returns fuel (clear out maxLen) item 0 0 m
    (by rwa [zero_add]) hfuel
  have hext : Stops item.ext (0 + ((m - 8 : ℕ) : ℤ)) := by
    have hindex : (8 : ℤ) + (0 + ((m - 8 : ℕ) : ℤ)) = m := by omega
    rwa [Stops, FatDirectoryItem.ext, hindex]
  obtain ⟨second, hsecond⟩ := @fat16ToProperString_returns fuel
    (Function.update first.out first.pos dot) item.ext 0 (first.pos + 1) (m - 8) hext (by omega)
  rw [fat16GetFullRelativeFilename, FatDirectoryItem.filename, hfirst, Option.bind_some, hsecond]
  split_ifs
  · exact ⟨_, rfl⟩
  · exact ⟨_, rfl⟩

/-- The entry has this name, in some letter case. -/
def HasName (fuel : ℕ) (item : FatDirectoryItem) (name : ℤ → Byte) : Prop :=
  ∃ r, fat16GetFullRelativeFilename fuel item (fun _ => 0) maxPathLength = some r ∧
    istrncmp r.out name maxPathLength = 0

lemma hasName_self {r : ProperString}
    (h : fat16GetFullRelativeFilename fuel item (fun _ => 0) maxPathLength = some r) :
    HasName fuel item r.out :=
  ⟨r, h, istrncmpLoop_self r.out maxPathLength 0⟩

/-- Only the name up to its terminator counts. -/
lemma HasName.congr {name' : ℤ → Byte} (h : HasName fuel item name) {m : ℕ} (hzero : name m = 0)
    (hsame : ∀ j : ℕ, j ≤ m → name' j = name j) : HasName fuel item name' := by
  obtain ⟨r, hr, hcompare⟩ := h
  refine ⟨r, hr, Eq.trans ?_ hcompare⟩
  apply istrncmpLoop_congr
  · rwa [zero_add]
  · intro j hj
    rw [zero_add]
    exact hsame j hj

/-- An entry that shares its name with a deleted one is deleted. -/
lemma HasName.deleted (h : HasName fuel item name) (h' : HasName fuel item' name)
    (hdeleted : item 0 = 0xE5) : item' 0 = 0xE5 := by
  obtain ⟨r, hr, hsame⟩ := h
  obtain ⟨r', hr', hsame'⟩ := h'
  have hpos : 0 < maxPathLength := by decide
  have hfirst := (istrncmp_first hpos hsame').trans (istrncmp_first hpos hsame).symm
  rw [(fat16GetFullRelativeFilename_deleted hr hpos).2 hdeleted] at hfirst
  exact (fat16GetFullRelativeFilename_deleted hr' hpos).1 (tolower_deleted hfirst)

/-! The contents of a directory. -/

/-- The entries of a directory in the order of its clusters, and the first bytes of what follows
its first sector on the disk, each up to a zero. -/
structure Content where
  entry : ℕ → FatDirectoryItem
  stop : ℕ
  before : ∀ i < stop, entry i 0 ≠ 0
  terminator : entry stop 0 = 0
  counted : ℕ → Byte
  countStop : ℕ
  counted_before : ∀ i < countStop, counted i ≠ 0
  counted_terminator : counted countStop = 0

/-- What is counted. -/
def Content.total (C : Content) : ℕ := liveCount C.counted C.countStop

/-- An entry in front of the terminator that is not deleted. -/
def Content.Live (C : Content) (i : ℕ) : Prop := i < C.stop ∧ C.entry i 0 ≠ 0xE5

/-- Such an entry of this name. -/
def Content.Owner (C : Content) (fuel : ℕ) (name : ℤ → Byte) (i : ℕ) : Prop :=
  C.Live i ∧ HasName fuel (C.entry i) name

/-- What is counted are the entries of the directory. -/
def Content.Consecutive (C : Content) : Prop := ∀ i, C.counted i = C.entry i 0

/-- No deleted entry stands in front of one that is not. -/
def Content.LiveFirst (C : Content) : Prop := ∀ j, C.Live j → ∀ i < j, C.entry i 0 ≠ 0xE5

variable {C : Content} {i j t b m : ℕ}

lemma Content.Consecutive.stop_eq (h : C.Consecutive) : C.countStop = C.stop := by
  rcases Nat.lt_trichotomy C.countStop C.stop with hlt | heq | hgt
  · exact absurd ((h _).symm.trans C.counted_terminator) (C.before _ hlt)
  · exact heq
  · exact absurd ((h _).trans C.terminator) (C.counted_before _ hgt)

lemma Content.Consecutive.total_eq (h : C.Consecutive) :
    C.total = Nat.count (fun i => C.entry i 0 ≠ 0xE5) C.stop := by
  have hcounted : C.counted = fun i => C.entry i 0 := funext h
  rw [Content.total, h.stop_eq, liveCount, hcounted]

/-- An entry that is not deleted counts when those that count in front are all so. -/
lemma Content.Live.lt_total (hC : C.Consecutive) (hall : ∀ i < C.total, C.entry i 0 ≠ 0xE5)
    (hlive : C.Live j) : j < C.total := by
  have hfull : Nat.count (fun i => C.entry i 0 ≠ 0xE5) C.total = C.total :=
    Nat.count_iff_forall.2 fun i hi => hall i hi
  by_contra hle
  have hlow := Nat.count_monotone (fun i => C.entry i 0 ≠ 0xE5) (not_lt.1 hle)
  have hhigh := Nat.count_monotone (fun i => C.entry i 0 ≠ 0xE5) (Nat.succ_le_of_lt hlive.1)
  rw [Nat.count_succ, if_pos hlive.2] at hhigh
  have htotal := hC.total_eq
  omega

/-- The entries that are not deleted come first exactly when the counted ones are not deleted. -/
lemma Content.liveFirst_iff (hC : C.Consecutive) :
    C.LiveFirst ↔ ∀ i < C.total, C.entry i 0 ≠ 0xE5 := by
  have htotal := hC.total_eq
  constructor
  · intro hfirst i hi hdeleted
    have hle : C.total ≤ C.stop := by
      rw [htotal]
      exact Nat.count_le _
    -- then no later entry counts
    have hnone : ∀ j, i ≤ j → j ≤ C.stop → Nat.count (fun i => C.entry i 0 ≠ 0xE5) j ≤ i := by
      intro j hj
      induction j, hj using Nat.le_induction with
      | base => exact fun _ => Nat.count_le _
      | succ j hj ih =>
        intro hjn
        have hnot : ¬ C.entry j 0 ≠ 0xE5 := by
          intro hlive
          rcases Nat.lt_or_eq_of_le hj with hlt | rfl
          · exact hfirst j ⟨by omega, hlive⟩ i hlt hdeleted
          · exact hlive hdeleted
        rw [Nat.count_succ, if_neg hnot]
        exact ih (by omega)
    have hcount := hnone C.stop (by omega) le_rfl
    omega
  · intro hall j hlive i hi
    have hlt := hlive.lt_total hC hall
    exact hall i (by omega)

/-! The buffer. -/

/-- Memory shows what is read of the names of the first `t` entries. -/
def Shown (fuel : ℕ) (mem : Mem) (d : FatDirectory) (e : ℕ → FatDirectoryItem) (t : ℕ) : Prop :=
  ∀ i < t, ∃ r, fat16GetFullRelativeFilename fuel (e i) (fun _ => 0) maxPathLength = some r ∧
    ∀ j ∈ r.reads, pointer mem (d.entry i) j = e i j

/-- The blocks from `b` on hold what is read of the names of the first `t` entries. -/
structure InBlocks (fuel : ℕ) (d : FatDirectory) (e : ℕ → FatDirectoryItem) (t b m : ℕ) : Prop where
  pool : b + m ≤ 25600
  inside : ∀ i < t, ∀ r, fat16GetFullRelativeFilename fuel (e i) (fun _ => 0) maxPathLength = some r →
    ∀ j ∈ r.reads, 4096 + b ≤ pageOf (d.entry i + BitVec.ofInt 32 j) ∧
      pageOf (d.entry i + BitVec.ofInt 32 j) < 4096 + (b + m)

/-- A directory in memory: the count, and as many entries in an allocation of their own. -/
structure Listing (fuel : ℕ) (s : Kmem) (d : FatDirectory) (C : Content) (b m : ℕ) : Prop where
  total : d.total = C.total
  shown : Shown fuel s.mem d C.entry C.total
  linked : Linked s.entries
  pinned : Pinned s.entries b m
  blocks : InBlocks fuel d C.entry C.total b m

lemma Shown.keeps {e : ℕ → FatDirectoryItem} (h : Shown fuel s.mem d e t)
    (hblocks : InBlocks fuel d e t b m) (hpin : Pinned s.entries b m) (hkept : KeepsRun b m s s') :
    Shown fuel s'.mem d e t := by
  intro i hi
  obtain ⟨r, hr, hreads⟩ := h i hi
  refine ⟨r, hr, fun j hj => ?_⟩
  obtain ⟨hlow, hhigh⟩ := hblocks.inside i hi r hr j hj
  rw [← hreads j hj]
  exact hkept.mem hpin _ hlow hhigh

/-- Blocks that hold something are more than none. -/
lemma Listing.pos (h : Listing fuel s d C b m) (hi : i < C.total) : 0 < m := by
  obtain ⟨r, hr, -⟩ := h.shown i hi
  obtain ⟨first, -, hrest⟩ := fat16GetFullRelativeFilename_cases hr
  have hread : (8 : ℤ) ∈ r.reads := by
    rcases hrest with ⟨-, rfl⟩ | ⟨-, second, -, rfl⟩
    · simp
    · simp
  obtain ⟨hlow, hhigh⟩ := h.blocks.inside i hi r hr 8 hread
  omega

lemma Listing.keeps (h : Listing fuel s d C b m) (hkept : KeepsRun b m s s') :
    Listing fuel s' d C b m :=
  ⟨h.total, h.shown.keeps h.blocks h.pinned hkept, hkept.linked h.linked, hkept.pinned h.pinned,
    h.blocks⟩

/-- The pages of a block run. -/
lemma pageOf_run {c n off : ℕ} (hpool : c + n ≤ 25600) (hoff : off < 4096 * n) :
    4096 + c ≤ pageOf (blockAddr c + BitVec.ofNat 32 off) ∧
      pageOf (blockAddr c + BitVec.ofNat 32 off) < 4096 + (c + n) := by
  have haddr := blockAddr_toNat (b := c) (by omega)
  unfold pageOf
  rw [BitVec.toNat_add, haddr, BitVec.toNat_ofNat]
  omega

/-- A new buffer that is filled with entries whose names end in it. -/
lemma listing_of_buffer {size : Word} (hlinked : Linked s.entries)
    (hroom : s.Room (heapBlocksFor size).toNat) (hsize : size.toNat < 2 ^ 31)
    (hentries : s'.entries = (kzalloc s size).2.entries) (hitem : d.item = (kzalloc s size).1)
    (htotal : d.total = C.total)
    (hmem : ∀ i < C.total, ∀ j : ℕ, sizeofDirectoryItem * i + j < size.toNat →
      s'.mem (d.item + BitVec.ofNat 32 (sizeofDirectoryItem * i + j)) = C.entry i j)
    (hnames : ∀ i < C.total, ∃ l : ℕ, 8 ≤ l ∧ l < fuel ∧ Stops (C.entry i) l ∧
      sizeofDirectoryItem * i + l < size.toNat) :
    ∃ b m, Listing fuel s' d C b m := by
  have hlinked' : Linked s'.entries := by
    rw [hentries]
    exact hlinked.kzalloc size
  rcases Nat.eq_zero_or_pos C.total with hzero | hpos
  · obtain ⟨j, hlow, hlt, hstop⟩ := hlinked'.low
    refine ⟨0, 0, htotal, fun i hi => absurd hi (by omega), hlinked',
      ⟨fun j h1 h2 => absurd h2 (by omega), j, hlow, by omega, fun h => absurd h (by omega), hstop⟩,
      by omega, fun i hi => absurd hi (by omega)⟩
  · obtain ⟨l₀, -, -, -, hl₀⟩ := hnames 0 hpos
    have hblocks : 0 < (heapBlocksFor size).toNat := by
      rw [heapBlocksFor_eq]
      omega
    have hcover := heapBlocksFor_toNat hblocks
    obtain ⟨c, hfit, -, heq⟩ := kzalloc_room s hblocks hroom
    have hpool := hfit.1
    have hne : (kmalloc s size).1 ≠ 0 := by
      rw [← kzalloc_fst, heq]
      exact blockAddr_ne_zero (by omega)
    obtain ⟨c', hc', haddr, -, hpin⟩ := hlinked.pinned hne hblocks
    rw [← kzalloc_fst, heq] at haddr
    obtain rfl : c = c' := blockAddr_inj (by omega) (by omega) haddr
    rw [heq] at hitem
    have hplace : ∀ i (j : ℕ), d.entry i + BitVec.ofInt 32 j =
        blockAddr c + BitVec.ofNat 32 (sizeofDirectoryItem * i + j) := by
      intro i j
      rw [FatDirectory.entry, hitem, BitVec.ofInt_natCast, BitVec.add_assoc, ← BitVec.ofNat_add]
    have hreads : ∀ i < C.total, ∀ r,
        fat16GetFullRelativeFilename fuel (C.entry i) (fun _ => 0) maxPathLength = some r →
        ∀ j ∈ r.reads, ∃ l : ℕ, j = l ∧ sizeofDirectoryItem * i + l < size.toNat := by
      intro i hi r hr j hj
      obtain ⟨l, hl, -, hstop, hin⟩ := hnames i hi
      obtain ⟨hlow, hhigh⟩ := fat16GetFullRelativeFilename_reads_le hr hl hstop j hj
      exact ⟨j.toNat, by omega, by omega⟩
    refine ⟨c, (heapBlocksFor size).toNat, htotal, fun i hi => ?_, hlinked', by rwa [hentries],
      hpool, fun i hi r hr j hj => ?_⟩
    · obtain ⟨l, hl, hfuel, hstop, -⟩ := hnames i hi
      obtain ⟨r, hr⟩ := @fat16GetFullRelativeFilename_returns fuel (C.entry i) (fun _ => 0)
        maxPathLength l hl hstop hfuel
      refine ⟨r, hr, fun j hj => ?_⟩
      obtain ⟨l, rfl, hin⟩ := hreads i hi r hr j hj
      rw [pointer_entry, hmem i hi l hin]
    · obtain ⟨l, rfl, hin⟩ := hreads i hi r hr j hj
      rw [hplace]
      exact pageOf_run hpool (by omega)

/-- The bytes of a buffer. -/
lemma sub_start {buffer : Word} {off n : ℕ} (hoff : off < n) (hn : n < 2 ^ 32) :
    (buffer + BitVec.ofNat 32 off - buffer).toNat = off ∧
      InRange buffer n (buffer + BitVec.ofNat 32 off) := by
  have hback : (buffer + BitVec.ofNat 32 off - buffer).toNat = off := by
    rw [BitVec.add_comm, BitVec.add_sub_cancel, BitVec.toNat_ofNat]
    omega
  exact ⟨hback, by unfold InRange; omega⟩

/-- With memory for its buffer a root directory that has a terminator is loaded. -/
lemma fat16GetRootDirectory_loads {p : FatPrivate} (hopen : DirectoryOpen disk p)
    (hvalid : ValidHeader p.header) (directory : FatDirectory) {size : Word}
    (hsize : size = BitVec.ofNat 32 (rootDirSize p.header)) (hbuffer : (kzalloc s size).1 ≠ 0)
    (hC : C.Consecutive) (hentry : ∀ i (j : ℕ),
      C.entry i j = disk.byte (rootPos p.header + (sizeofDirectoryItem * i + j : ℕ)))
    (hstop : C.stop < 2 ^ 24) (hfuel : C.stop < fuel) : ∃ (d : FatDirectory) (stream : DiskStream),
      fat16GetRootDirectory fuel disk p s directory = some (0, d, { p with directoryStream := some stream },
        (kzalloc s size).2.withMem (disk.transfer (rootPos p.header) (rootDirSize p.header)
          (kzalloc s size).2.mem (kzalloc s size).1)) ∧
      stream.disk = disk.addr ∧ d.item = (kzalloc s size).1 ∧ d.total = C.total := by
  have hpos := hvalid.rootPos_nonneg
  have hcount := hvalid.countPos_eq
  have hbyte : ∀ i, entryByte disk (rootPos p.header) i = C.entry i 0 := by
    intro i
    have hfirst := hentry i 0
    rw [Nat.cast_zero] at hfirst
    rw [entryByte, hfirst]
    push_cast
    rfl
  have hsame : entryByte disk (rootPos p.header) = fun i => C.entry i 0 := funext hbyte
  have hend : rootPos p.header + sizeofDirectoryItem * ((C.stop + 1 : ℕ) : ℤ) < 2 ^ 31 := by
    have hlow := hvalid.rootPos_lt
    unfold sizeofDirectoryItem
    omega
  rw [← hcount] at hpos hend
  obtain ⟨stream, hdisk, hcounted⟩ := @fat16GetTotalItemsForDirectory_terminator fuel disk p C.stop
    hopen (BitVec.ofInt 32 (rootDirSectorPos p.header)) hpos hend
    (fun i hi => by
      rw [hcount, hbyte]
      exact C.before i hi)
    (by
      rw [hcount, hbyte]
      exact C.terminator) hfuel
  have htotal : liveCount (entryByte disk (rootPos p.header)) C.stop = C.total := by
    rw [hC.total_eq, hsame]
    rfl
  rw [hcount, htotal] at hcounted
  obtain ⟨d, stream', hread, hon, hitem, hd⟩ := @readRootDirectory_eq disk
    { p with directoryStream := some stream } (kzalloc s size).2 ⟨stream, rfl, hdisk⟩ hvalid
    directory C.total (kzalloc s size).1 hbuffer
  refine ⟨d, stream', ?_, hon, hitem, hd⟩
  rw [fat16GetRootDirectory, hcounted, Option.bind_some]
  subst hsize
  exact hread

/-- The same, with the bytes of the entries. -/
lemma rootDirectory_loads {p : FatPrivate} (hopen : DirectoryOpen disk p) (hvalid : ValidHeader p.header)
    (directory : FatDirectory) {size : Word} (hsize : size = BitVec.ofNat 32 (rootDirSize p.header))
    (hbuffer : (kzalloc s size).1 ≠ 0) (hC : C.Consecutive) (hentry : ∀ i (j : ℕ),
      C.entry i j = disk.byte (rootPos p.header + (sizeofDirectoryItem * i + j : ℕ)))
    (hstop : C.stop < 2 ^ 24) (hfuel : C.stop < fuel) : ∃ d p' s',
      fat16GetRootDirectory fuel disk p s directory = some (0, d, p', s') ∧ (Ready disk p → Ready disk p') ∧
      d.item = (kzalloc s size).1 ∧ d.total = C.total ∧ s'.entries = (kzalloc s size).2.entries ∧
      ∀ i (j : ℕ), sizeofDirectoryItem * i + j < rootDirSize p.header →
        s'.mem (d.item + BitVec.ofNat 32 (sizeofDirectoryItem * i + j)) = C.entry i j := by
  have hsmall := rootDirSize_lt p.header
  obtain ⟨d, stream, hload, hon, hitem, hd⟩ := fat16GetRootDirectory_loads hopen hvalid directory hsize
    hbuffer hC hentry hstop hfuel
  refine ⟨d, _, _, hload, fun h => ⟨⟨h.table, h.clusters, h.sectors⟩, stream, rfl, hon⟩, hitem, hd, rfl,
    fun i j hj => ?_⟩
  obtain ⟨hback, hin⟩ := @sub_start (kzalloc s size).1 _ _ hj (by omega)
  rw [hitem, hentry]
  change disk.transfer _ _ _ _ _ = _
  rw [Disk.transfer, if_pos hin, hback]

/-- The buffer of the root directory lists it. -/
lemma rootListing {p p' : FatPrivate} {directory : FatDirectory} (hopen : DirectoryOpen disk p)
    (hvalid : ValidHeader p.header) (hlinked : Linked s.entries)
    (hroom : s.Room (heapBlocksFor (BitVec.ofNat 32 (rootDirSize p.header))).toNat)
    (hC : C.Consecutive) (hentry : ∀ i (j : ℕ),
      C.entry i j = disk.byte (rootPos p.header + (sizeofDirectoryItem * i + j : ℕ)))
    (hstop : C.stop < p.header.rootDirEntries.toNat) (hfuel : sizeofDirectoryItem * C.stop < fuel)
    (hload : fat16GetRootDirectory fuel disk p s directory = some (0, d, p', s')) :
    ∃ b m, Listing fuel s' d C b m := by
  have hsmall := rootDirSize_lt p.header
  have hin : sizeofDirectoryItem * C.stop < rootDirSize p.header := by
    unfold rootDirSize sizeofDirectoryItem
    omega
  have hwidth : (BitVec.ofNat 32 (rootDirSize p.header)).toNat = rootDirSize p.header := by
    rw [BitVec.toNat_ofNat]
    omega
  generalize hsize : BitVec.ofNat 32 (rootDirSize p.header) = size at hroom hwidth
  have hbuffer : (kzalloc s size).1 ≠ 0 := by
    obtain ⟨c, hfit, -, heq⟩ := kzalloc_room s (by rw [heapBlocksFor_eq]; omega) hroom
    have hpool := hfit.1
    rw [heq]
    exact blockAddr_ne_zero (by omega)
  obtain ⟨d', p₁, s₁, heq, -, hitem, htotal, hentries, hmem⟩ := rootDirectory_loads hopen hvalid
    directory hsize.symm hbuffer hC hentry (by omega) (show C.stop < fuel by
      unfold sizeofDirectoryItem at hfuel
      omega)
  rw [heq] at hload
  cases hload
  have hle : C.total ≤ C.stop := by
    rw [hC.total_eq]
    exact Nat.count_le _
  refine @listing_of_buffer _ _ _ _ _ size hlinked hroom (by omega) hentries hitem htotal
    (fun i _ j hj => hmem i j (by omega)) fun i hi => ?_
  -- the terminator ends the name
  have hsum : sizeofDirectoryItem * i + sizeofDirectoryItem * (C.stop - i) =
      sizeofDirectoryItem * C.stop := by
    rw [← Nat.mul_add, Nat.add_sub_cancel' (by omega)]
  refine ⟨sizeofDirectoryItem * (C.stop - i), ?_, by omega, .inl ?_, by omega⟩
  · unfold sizeofDirectoryItem
    omega
  · have hzero : C.entry C.stop ((0 : ℕ) : ℤ) = 0 := C.terminator
    rw [hentry, hsum, ← add_zero (sizeofDirectoryItem * C.stop), ← hentry]
    exact hzero

/-- A buffer that the pieces of a directory were read into holds its entries. -/
lemma pieces_entry {p : FatPrivate} {cluster : ℤ} {mem : Mem} {buf : Word} {i j : ℕ}
    (hsectors : p.header.sectorsPerCluster ≠ 0) (hsmall : C.total < 2 ^ 26)
    (hrange : ∀ o : ℤ, 0 ≤ o → o < (32 * C.total : ℕ) →
      0 ≤ bytePos disk p cluster o ∧ bytePos disk p cluster o < 2 ^ 31)
    (hentry : sizeofDirectoryItem * i + j < 32 * C.total →
      C.entry i j = disk.byte (bytePos disk p cluster (sizeofDirectoryItem * i + j : ℕ)))
    (hj : sizeofDirectoryItem * i + j < 32 * C.total) :
    pieces disk p cluster 0 (32 * C.total) mem buf
      (buf + BitVec.ofNat 32 (sizeofDirectoryItem * i + j)) = C.entry i j := by
  obtain ⟨hback, hin⟩ := @sub_start buf _ (32 * C.total) hj (by omega)
  have hcluster := sizeOfClusterBytes_pos disk hsectors
  have hpiece := @piecePos_eq disk p cluster 0 hsectors le_rfl (sizeofDirectoryItem * i + j) (by
    rw [Int.zero_emod, zero_add]
    exact Int.emod_lt_of_pos _ hcluster)
  rw [zero_add] at hpiece
  obtain ⟨hlow, hhigh⟩ := hrange (sizeofDirectoryItem * i + j : ℕ) (by omega) (by omega)
  rw [pieces, if_pos hin, hback, hpiece hlow hhigh, hentry hj]

/-- The record of a subdirectory with entries lists it. The entries come along the chain of its
clusters, the count from its first sector on. The bytes of the buffer are those of the entries. -/
lemma subListing {directory : Word} {cluster : ℤ} (hready : Ready disk k.fsPrivate)
    (hlinked : Linked s.entries)
    (hroom : s.Room (heapBlocksFor (BitVec.ofNat 32 (sizeofDirectoryItem * C.total))).toNat)
    (hpos : 0 < C.total) (hsmall : C.total < 2 ^ 26)
    (hrange : ∀ o : ℤ, 0 ≤ o → o < (sizeofDirectoryItem * C.total : ℕ) →
      0 ≤ clusterFor disk k.fsPrivate cluster o ∧ 0 ≤ bytePos disk k.fsPrivate cluster o ∧
      bytePos disk k.fsPrivate cluster o < 2 ^ 31)
    (hentry : ∀ i j : ℕ, sizeofDirectoryItem * i + j < sizeofDirectoryItem * C.total → C.entry i j =
      disk.byte (bytePos disk k.fsPrivate cluster (sizeofDirectoryItem * i + j : ℕ)))
    (hnames : ∀ i < C.total, ∃ l : ℕ, 8 ≤ l ∧ l < fuel ∧ Stops (C.entry i) l ∧
      l < sizeofDirectoryItem) {r : Word × FatState × Kmem}
    (hload : readFatDirectory disk k s directory cluster C.total = some r) :
    (∃ b m, Listing fuel r.2.2 (r.2.1.directories directory) C b m) ∧
      (∀ i < C.total, ∀ j : ℕ, j < sizeofDirectoryItem →
        pointer r.2.2.mem ((r.2.1.directories directory).entry i) j = C.entry i j) ∧
      (Live k.accesses directory → Live r.2.1.accesses directory) ∧
      r.2.2.entries = (kzalloc s (BitVec.ofNat 32 (sizeofDirectoryItem * C.total))).2.entries := by
  have hsize := directorySize_eq (Int.natCast_nonneg C.total) (show (C.total : ℤ) < 2 ^ 26 by omega)
  rw [Int.toNat_natCast] at hsize
  have hword : BitVec.ofInt 32 (C.total : ℤ) * BitVec.ofNat 32 sizeofDirectoryItem =
      BitVec.ofNat 32 (sizeofDirectoryItem * C.total) := by
    apply BitVec.eq_of_toNat_eq
    rw [hsize, BitVec.toNat_ofNat]
    unfold sizeofDirectoryItem
    omega
  unfold readFatDirectory at hload
  dsimp only at hload
  rw [hword] at hload hsize
  have hfilled : sizeofDirectoryItem * C.total = 32 * C.total := rfl
  rw [hfilled] at hrange
  generalize BitVec.ofNat 32 (sizeofDirectoryItem * C.total) = size at hload hsize hroom
  have hblocks : 0 < (heapBlocksFor size).toNat := by
    rw [heapBlocksFor_eq]
    omega
  obtain ⟨c, hfit, -, heq⟩ := kzalloc_room s hblocks hroom
  have hpool := hfit.1
  have hne : (kzalloc s size).1 ≠ 0 := by
    rw [heq]
    exact blockAddr_ne_zero (by omega)
  have hint : size.toInt = (32 * C.total : ℕ) := by
    rw [BitVec.toInt_eq_toNat_of_lt (by omega), hsize]
  generalize hk : (k.setDirectory directory ⟨(kzalloc s size).1, C.total, 0, 0⟩).log
    (.made (kzalloc s size).1) = k₁ at hload
  have hp : k₁.fsPrivate = k.fsPrivate := by rw [← hk]; rfl
  obtain ⟨p', hread⟩ := @fat16ReadInternal_run disk k.fsPrivate k.fsPrivate cluster 0 hready.table
    hready.sectors (streamed_refl hready.table hready.clusters) le_rfl (32 * C.total) (by omega)
    (by omega) (fun o hlow hhigh => hrange o hlow (by omega)) (kzalloc s size).2.mem
    (kzalloc s size).1
  rw [if_neg hne, hp, hint, hread] at hload
  cases hload
  have hdirectory : (k₁.withPrivate p').directories directory =
      ⟨(kzalloc s size).1, C.total, 0, 0⟩ := by
    rw [← hk]
    exact Function.update_self _ _ _
  have hlive : Live k.accesses directory → Live (k₁.withPrivate p').accesses directory := by
    rw [← hk]
    exact .inr
  change (∃ b m, Listing fuel ((kzalloc s size).2.withMem _) ((k₁.withPrivate p').directories directory)
    C b m) ∧ (∀ i < C.total, ∀ j : ℕ, j < sizeofDirectoryItem → pointer _
      (((k₁.withPrivate p').directories directory).entry i) j = C.entry i j) ∧ _
  rw [hdirectory]
  have hmem : ∀ i < C.total, ∀ j : ℕ, sizeofDirectoryItem * i + j < size.toNat →
      pieces disk k.fsPrivate cluster 0 (32 * C.total) (kzalloc s size).2.mem (kzalloc s size).1
        ((kzalloc s size).1 + BitVec.ofNat 32 (sizeofDirectoryItem * i + j)) = C.entry i j :=
    fun i _ j hj => pieces_entry hready.sectors hsmall (fun o hlow hhigh => (hrange o hlow hhigh).2)
      (hentry i j) (hsize ▸ hj)
  refine ⟨@listing_of_buffer _ _ _ _ _ size hlinked hroom (by omega) rfl rfl rfl hmem fun i hi => ?_,
    fun i hi j hj => ?_, hlive, rfl⟩
  · obtain ⟨l, hl, hfuel, hstop, hlt⟩ := hnames i hi
    refine ⟨l, hl, hfuel, hstop, ?_⟩
    unfold sizeofDirectoryItem at hlt ⊢
    omega
  · rw [pointer_entry]
    refine hmem i hi j ?_
    unfold sizeofDirectoryItem at hj ⊢
    omega

lemma readFatDirectory_fst {directory : Word} {cluster total : ℤ} {r : Word × FatState × Kmem}
    (h : readFatDirectory disk k s directory cluster total = some r) : r.1 = directory := by
  unfold readFatDirectory at h
  dsimp only at h
  split_ifs at h
  · cases h
    rfl
  · obtain ⟨res, -, hr⟩ := Option.map_eq_some_iff.1 h
    split_ifs at hr
    · cases hr
      rfl
    · cases hr
      rfl

/-- The same for the whole load, which moves the stream of the directories first. Its record is not
freed again. -/
lemma loadListing {item : Word} {cluster : ℤ} {sector : Word} (hready : Ready disk k.fsPrivate)
    (hlinked : Linked s.entries)
    (hsubdirectory : FatDirectoryItem.attributes (pointer s.mem item) &&& fatFileSubdirectory ≠ 0)
    (hblock : (kzalloc s 16).1 ≠ 0)
    (hroom : (kzalloc s 16).2.Room
      (heapBlocksFor (BitVec.ofNat 32 (sizeofDirectoryItem * C.total))).toNat)
    (hcluster : cluster = (fat16GetFirstCluster (pointer (kzalloc s 16).2.mem item)).toInt)
    (hsector : sector = BitVec.ofInt 32 (fat16ClusterToSector k.fsPrivate cluster))
    (hcountPos : 0 ≤ countPos sector)
    (hcountEnd : countPos sector + sizeofDirectoryItem * ((C.countStop + 1 : ℕ) : ℤ) < 2 ^ 31)
    (hcounted : ∀ i, C.counted i = entryByte disk (countPos sector) i) (hfuel : C.countStop < fuel)
    (hpos : 0 < C.total) (hsmall : C.total < 2 ^ 26)
    (hrange : ∀ (stream : DiskStream) (o : ℤ), 0 ≤ o → o < (sizeofDirectoryItem * C.total : ℕ) →
      0 ≤ clusterFor disk { k.fsPrivate with directoryStream := some stream } cluster o ∧
      0 ≤ bytePos disk { k.fsPrivate with directoryStream := some stream } cluster o ∧
      bytePos disk { k.fsPrivate with directoryStream := some stream } cluster o < 2 ^ 31)
    (hentry : ∀ (stream : DiskStream) (i j : ℕ),
      sizeofDirectoryItem * i + j < sizeofDirectoryItem * C.total → C.entry i j =
        disk.byte (bytePos disk { k.fsPrivate with directoryStream := some stream } cluster
          (sizeofDirectoryItem * i + j : ℕ)))
    (hnames : ∀ i < C.total, ∃ l : ℕ, 8 ≤ l ∧ l < fuel ∧ Stops (C.entry i) l ∧
      l < sizeofDirectoryItem) {r : Word × FatState × Kmem}
    (hload : fat16LoadFatDirectory fuel disk k s item = some r) :
    (∃ b m, Listing fuel r.2.2 (r.2.1.directories r.1) C b m) ∧
      (∀ i < C.total, ∀ j : ℕ, j < sizeofDirectoryItem →
        pointer r.2.2.mem ((r.2.1.directories r.1).entry i) j = C.entry i j) ∧
      Live r.2.1.accesses r.1 ∧ r.2.2.entries =
        (kzalloc (kzalloc s 16).2 (BitVec.ofNat 32 (sizeofDirectoryItem * C.total))).2.entries := by
  obtain ⟨stream, hdisk, heq⟩ := @fat16GetTotalItemsForDirectory_terminator fuel disk k.fsPrivate
    C.countStop hready.directory sector hcountPos hcountEnd
    (fun i hi => hcounted i ▸ C.counted_before i hi)
    (hcounted C.countStop ▸ C.counted_terminator) hfuel
  have htotal : liveCount (entryByte disk (countPos sector)) C.countStop = C.total := by
    rw [Content.total, funext hcounted]
  unfold fat16LoadFatDirectory at hload
  dsimp only at hload
  rw [if_neg hsubdirectory, if_neg hblock] at hload
  change (fat16GetTotalItemsForDirectory fuel disk k.fsPrivate (BitVec.ofInt 32
    (fat16ClusterToSector k.fsPrivate _))).bind _ = _ at hload
  rw [← hcluster, ← hsector, heq, htotal, Option.bind_some] at hload
  have hready' : Ready disk { k.fsPrivate with directoryStream := some stream } :=
    ⟨⟨hready.table, hready.clusters, hready.sectors⟩, stream, rfl, hdisk⟩
  rw [readFatDirectory_fst hload]
  obtain ⟨hlisting, hbytes, hlive, hentries⟩ := @subListing fuel disk ((k.log (.made (kzalloc s 16).1)).withPrivate
    { k.fsPrivate with directoryStream := some stream }) _ C _ cluster hready' (hlinked.kzalloc 16)
    hroom hpos hsmall (hrange stream) (hentry stream) hnames r hload
  exact ⟨hlisting, hbytes, hlive (.inl rfl), hentries⟩

end AlphaOS.Fat16
