import AlphaOS.RootFiles

/-! The open files of a volume over a run of file calls: each descriptor stays with the entry of the
root directory it was opened on, whatever else is opened, read and closed. -/
namespace AlphaOS.Fat16
open BlockHeap CString Files Kheap Paging PathParser Streamer WordMemory

/-- What an open file is made of: its descriptor, the descriptor and the item of the file system,
and the copy of its entry. -/
inductive Role
  | desc
  | fat
  | item
  | clone
  deriving DecidableEq

/-- The pointers that lead from a slot of the table to them. -/
def filePtr (k : FileState FatState) (i : Fin maxFiledescriptors) : Role → Word
  | .desc => k.fileDescriptors i
  | .fat => (k.descriptors (k.fileDescriptors i)).privateData
  | .item => (k.fs.descriptors (k.descriptors (k.fileDescriptors i)).privateData).item
  | .clone => (k.fs.items
      (k.fs.descriptors (k.descriptors (k.fileDescriptors i)).privateData).item).item

/-- An open file for its users: the number of its entry in the root directory, and a position. -/
structure OpenEntry where
  entry : ℕ
  pos : Word

variable {fuel : ℕ} {disk : Disk} {v : Storage FatState} {C : Content} {p : FatPrivate}
  {b m : ℕ} {k k' k'' : FileState FatState} {i i' : Fin maxFiledescriptors} {o : OpenEntry} {s : Kmem}

/-- The slot `i` holds the open file `o`. -/
structure FileAt (v : Storage FatState) (C : Content) (k : FileState FatState)
    (i : Fin maxFiledescriptors) (o : OpenEntry) : Prop where
  block : ∀ r, ∃ c < 25600, filePtr k i r = blockAddr c ∧ Pinned k.kmem.entries c 1
  counted : o.entry < C.total
  desc : k.descriptors (filePtr k i .desc) = ⟨(i : ℤ) + 1, v.filesystem, filePtr k i .fat, v.disk⟩
  fat : k.fs.descriptors (filePtr k i .fat) = ⟨filePtr k i .item, o.pos⟩
  item : k.fs.items (filePtr k i .item) = ⟨filePtr k i .clone, .file⟩
  bytes : ∀ n < sizeofDirectoryItem,
    k.kmem.mem (filePtr k i .clone + BitVec.ofNat 32 n) = C.entry o.entry n

/-- Nothing that is kept at this address changes. -/
structure SameRecords (k k' : FileState FatState) (a : Word) : Prop where
  desc : k'.descriptors a = k.descriptors a
  fat : k'.fs.descriptors a = k.fs.descriptors a
  item : k'.fs.items a = k.fs.items a

lemma filePtr_fat (k : FileState FatState) (i : Fin maxFiledescriptors) :
    filePtr k i .fat = (k.descriptors (filePtr k i .desc)).privateData := rfl

lemma filePtr_item (k : FileState FatState) (i : Fin maxFiledescriptors) :
    filePtr k i .item = (k.fs.descriptors (filePtr k i .fat)).item := rfl

lemma filePtr_clone (k : FileState FatState) (i : Fin maxFiledescriptors) :
    filePtr k i .clone = (k.fs.items (filePtr k i .item)).item := rfl

/-- The pointers of a slot are those of its records. -/
lemma filePtr_eq (hslot : k'.fileDescriptors i = k.fileDescriptors i)
    (hrecords : ∀ r, SameRecords k k' (filePtr k i r)) (r : Role) : filePtr k' i r = filePtr k i r := by
  have hdesc : filePtr k' i .desc = filePtr k i .desc := hslot
  have hfat : filePtr k' i .fat = filePtr k i .fat := by
    rw [filePtr_fat, filePtr_fat, hdesc, (hrecords .desc).desc]
  have hitem : filePtr k' i .item = filePtr k i .item := by
    rw [filePtr_item, filePtr_item, hfat, (hrecords .fat).fat]
  cases r with
  | desc => exact hdesc
  | fat => exact hfat
  | item => exact hitem
  | clone => rw [filePtr_clone, filePtr_clone, hitem, (hrecords .item).item]

/-- A file stays when its slot, its blocks and what is kept there do. -/
lemma FileAt.keeps (h : FileAt v C k i o) (hslot : k'.fileDescriptors i = k.fileDescriptors i)
    (hrecords : ∀ r, SameRecords k k' (filePtr k i r))
    (hblocks : ∀ r, ∀ c < 25600, filePtr k i r = blockAddr c → KeepsRun c 1 k.kmem k'.kmem) :
    FileAt v C k' i o := by
  have hptr := filePtr_eq hslot hrecords
  constructor
  · intro r
    obtain ⟨c, hc, haddr, hpin⟩ := h.block r
    exact ⟨c, hc, (hptr r).trans haddr, (hblocks r c hc haddr).pinned hpin⟩
  · exact h.counted
  · rw [hptr, hptr, (hrecords .desc).desc, h.desc]
  · rw [hptr, hptr, (hrecords .fat).fat, h.fat]
  · rw [hptr, hptr, (hrecords .item).item, h.item]
  · intro n hn
    obtain ⟨c, hc, haddr, hpin⟩ := h.block .clone
    have hpage := pageOf_blockAddr_add hc (show n < 4096 by unfold sizeofDirectoryItem at hn; omega)
    rw [hptr, ← h.bytes n hn, haddr]
    exact (hblocks .clone c hc haddr).mem hpin _ (by omega) (by omega)

/-! The whole table. -/

/-- The open files by slot. -/
abbrev Table := Fin maxFiledescriptors → Option OpenEntry

/-- The state of the kernel holds these open files of a volume. No two of them share a block, and none
has one of the root directory. -/
structure Holds (fuel : ℕ) (disk : Disk) (v : Storage FatState) (p : FatPrivate) (C : Content) (b m : ℕ)
    (k : FileState FatState) (T : Table) : Prop where
  streamed : Streamed disk p k.fs.fsPrivate
  directory : DirectoryStored fuel k.kmem p.rootDirectory C b m
  file : ∀ i o, T i = some o → FileAt v C k i o
  closed : ∀ i, T i = none → k.fileDescriptors i = 0
  distinct : ∀ i i' r r', T i ≠ none → T i' ≠ none → filePtr k i r = filePtr k i' r' → i = i' ∧ r = r'
  apart : ∀ i r c, T i ≠ none → c < 25600 → filePtr k i r = blockAddr c → c ∉ Set.Ico b (b + m)

variable {T T' : Table}

/-- What the open files are made of stays. -/
structure FilesKept (k k' : FileState FatState) (b m : ℕ) (T : Table) : Prop where
  root : KeepsRun b m k.kmem k'.kmem
  slots : ∀ i, T i ≠ none → k'.fileDescriptors i = k.fileDescriptors i
  records : ∀ i, T i ≠ none → ∀ r, SameRecords k k' (filePtr k i r)
  blocks : ∀ i, T i ≠ none → ∀ r, ∀ c < 25600, filePtr k i r = blockAddr c →
    KeepsRun c 1 k.kmem k'.kmem

lemma Holds.file_some (h : Holds fuel disk v p C b m k T) (hi : T i ≠ none) : ∃ o, FileAt v C k i o := by
  obtain ⟨o, ho⟩ := Option.ne_none_iff_exists'.1 hi
  exact ⟨o, h.file i o ho⟩

lemma FilesKept.filePtr_eq (h : FilesKept k k' b m T) (hi : T i ≠ none) (r : Role) :
    filePtr k' i r = filePtr k i r :=
  Fat16.filePtr_eq (h.slots i hi) (h.records i hi) r

/-- Then the same files are open. -/
lemma Holds.keeps (h : Holds fuel disk v p C b m k T) (hkept : FilesKept k k' b m T)
    (hstreamed : Streamed disk p k'.fs.fsPrivate)
    (hclosed : ∀ i, T i = none → k'.fileDescriptors i = 0) : Holds fuel disk v p C b m k' T := by
  refine ⟨hstreamed, h.directory.keeps hkept.root, fun i o ho => ?_, hclosed,
    fun i i' r r' hi hi' heq => ?_, fun i r c hi hc heq => ?_⟩
  · have hi : T i ≠ none := by simp [ho]
    exact (h.file i o ho).keeps (hkept.slots i hi) (hkept.records i hi) (hkept.blocks i hi)
  · rw [hkept.filePtr_eq hi, hkept.filePtr_eq hi'] at heq
    exact h.distinct i i' r r' hi hi' heq
  · rw [hkept.filePtr_eq hi] at heq
    exact h.apart i r c hi hc heq

/-! Opening. -/

/-- The block belongs to no allocation. -/
def Unowned (s : Kmem) (c : ℕ) : Prop :=
  ∀ b n, 0 < n → b + n ≤ 25600 → Pinned s.entries b n → c ∉ Set.Ico b (b + n)

lemma NewBlock.unowned {s s' s'' : Kmem} {c : ℕ} (h : NewBlock s' s'' c) (hkeeps : KeepsAll s s') :
    Unowned s c := by
  intro b n hn hpool hpin hmem
  exact ((hkeeps b n hn hpool).pinned hpin).taken c hmem.1 hmem.2 h.free

lemma Unowned.addr_ne {a c : ℕ} (h : Unowned s c) (hc : c < 25600) (ha : a < 25600)
    (hpin : Pinned s.entries a 1) : blockAddr a ≠ blockAddr c := by
  intro heq
  have hsame := blockAddr_inj (show a < 2 ^ 19 by omega) (by omega) heq
  exact h a 1 one_pos (by omega) hpin (by simp [hsame])

/-- A block that is taken and given back. -/
lemma NewBlock.release {s s' : Kmem} {c : ℕ} (h : NewBlock s s' c) : KeepsAll s (kfree s' (blockAddr c)) := by
  have hlt := h.lt
  intro b n hn hpool
  have hkept := h.keeps b n hn hpool
  have hdrop : Pinned s.entries b n → KeepsRun b n s' (kfree s' (blockAddr c)) := by
    intro hpin
    apply keepsRun_kfree
    apply h.pinned.droppable hlt
    exact fun hmem => (hkept.pinned hpin).taken c hmem.1 hmem.2 (absurd h.free (hpin.taken c hmem.1 hmem.2))
  exact ⟨fun hs => (h.keeps.linked hs).kfree_pinned h.pinned (by omega),
    fun hpin => (hkept.trans (hdrop hpin)).pinned hpin, fun hpin => (hkept.trans (hdrop hpin)).mem hpin⟩

/-- The blocks of a new file. -/
def newBlocks (desc fat item clone : ℕ) : Role → ℕ
  | .desc => desc
  | .fat => fat
  | .item => item
  | .clone => clone

structure NewFile (s s' : Kmem) (new : Role → ℕ) : Prop where
  block : ∀ r, new r < 25600 ∧ Pinned s'.entries (new r) 1 ∧ Unowned s (new r)
  injective : Function.Injective new
  keeps : KeepsAll s s'

lemma newFile_of_blocks {s₀ s₁ s₂ s₃ s₄ s₅ : Kmem} {f c l d : ℕ} (hstart : KeepsAll s₀ s₁)
    (hf : NewBlock s₁ s₂ f) (hc : NewBlock s₂ s₃ c) (hl : NewBlock s₃ s₄ l) (hd : NewBlock s₄ s₅ d) :
    NewFile s₀ s₅ (newBlocks d f c l) := by
  have hc' := hl.keeps.pinned hc.lt hc.pinned
  have hf' := hc.keeps.pinned hf.lt hf.pinned
  have hf'' := hl.keeps.pinned hf.lt hf'
  have hstart₂ := hstart.trans hf.keeps
  have hstart₃ := hstart₂.trans hc.keeps
  have hstart₄ := hstart₃.trans hl.keeps
  refine ⟨fun r => ?_, fun r r' heq => ?_, hstart₄.trans hd.keeps⟩
  · cases r with
    | desc => exact ⟨hd.lt, hd.pinned, hd.unowned hstart₄⟩
    | fat => exact ⟨hf.lt, hd.keeps.pinned hf.lt hf'', hf.unowned hstart⟩
    | item => exact ⟨hc.lt, hd.keeps.pinned hc.lt hc', hc.unowned hstart₂⟩
    | clone => exact ⟨hl.lt, hd.keeps.pinned hl.lt hl.pinned, hl.unowned hstart₃⟩
  · have hfc := hc.ne hf.pinned
    have hfl := hl.ne hf'
    have hfd := hd.ne hf''
    have hcl := hl.ne hc.pinned
    have hcd := hd.ne hc'
    have hld := hd.ne hl.pinned
    cases r <;> cases r' <;> simp only [newBlocks] at heq <;> first | rfl | omega

/-- The allocations of others stay, and what is kept at their addresses. -/
structure KeepsFiles (k k' : FileState FatState) : Prop where
  kmem : KeepsAll k.kmem k'.kmem
  records : ∀ c < 25600, Pinned k.kmem.entries c 1 → SameRecords k k' (blockAddr c)

lemma KeepsFiles.filesKept (h : KeepsFiles k k') (hholds : Holds fuel disk v p C b m k T)
    (hslots : ∀ i, T i ≠ none → k'.fileDescriptors i = k.fileDescriptors i) : FilesKept k k' b m T := by
  refine ⟨h.kmem b m hholds.directory.nonempty hholds.directory.blocks.pool, hslots,
    fun i hi r => ?_, fun i hi r c hc _ => h.kmem c 1 one_pos (by omega)⟩
  obtain ⟨o, ho⟩ := hholds.file_some hi
  obtain ⟨c, hc, haddr, hpin⟩ := ho.block r
  rw [haddr]
  exact h.records c hc hpin

/-- The disk of the volume. -/
structure Serves (fuel : ℕ) (disk : Disk) (v : Storage FatState) : Prop where
  filesystem : v.filesystem ≠ 0
  fat16 : v.filesystems v.filesystem = fat16Fs fuel disk
  enough : 110 ≤ fuel
  bound : fuel < 2 ^ 26

variable {filename modeStr : Word} {name : List Byte} {j : ℕ}

/-- A file is asked for by its name, to be read, while some blocks are free. -/
structure Request (k : FileState FatState) (filename modeStr : Word) (name : List Byte) : Prop where
  path : PathAt k.kmem filename 0 name
  name : FileName name
  mode : k.kmem.mem modeStr = 114
  live : pageOf modeStr ∉ freePages k.kmem
  room : FreeAtLeast k.kmem 9

lemma mode_read {mem : WordMemory.Mem} (h : mem modeStr = 114) :
    fileGetModeByString (pointer mem modeStr) = .read := by
  have hfirst : pointer mem modeStr 0 = 114 := by
    simpa [pointer] using h
  simp [fileGetModeByString, strncmp, strncmpLoop, hfirst, literal]

/-- `fopen` around the call of `fat16_open`. -/
structure CallsOpen (fuel : ℕ) (disk : Disk) (v : Storage FatState) (k : FileState FatState)
    (filename modeStr root : Word) (s : Kmem) (name : List Byte) : Prop where
  parse : pathparserParse fuel k.kmem filename = some (root, s)
  keeps : KeepsAll k.kmem s
  takes : Takes 5 k.kmem s
  room : FreeAtLeast s 4
  part : PartList s (read32 s.mem (root + 4)) [name]
  opened : ∀ r, fat16Open fuel disk k.fs s (read32 s.mem (root + 4)) .read = some r →
    Tasks.isErr r.1 = false → fopenRoot v (k.withKmem s) root modeStr =
      fopenDescriptor v ((k.withKmem s).withFs r.2) r.1 v.disk
  failed : ∀ r, fat16Open fuel disk k.fs s (read32 s.mem (root + 4)) .read = some r →
    Tasks.isErr r.1 = true → fopenRoot v (k.withKmem s) root modeStr =
      (r.1.toInt, 0, (k.withKmem s).withFs r.2)

lemma CallsOpen.fopen_eq {root : Word} {r : ℤ × Word × FileState FatState}
    (h : CallsOpen fuel disk v k filename modeStr root s name)
    (hroot : fopenRoot v (k.withKmem s) root modeStr = r) :
    fopen v fuel k filename modeStr = some (if r.1 < 0 then 0 else r.1, r.2.2) := by
  rw [fopen, fopenResult, h.parse, Option.map_some, Option.map_some, hroot]

lemma Request.calls (h : Request k filename modeStr name) (hserves : Serves fuel disk v)
    (hlow : Low k.kmem.entries) :
    ∃ root s, CallsOpen fuel disk v k filename modeStr root s name := by
  obtain ⟨root, s, hparse, hparsed⟩ := h.path.parse_file hlow h.name (h.room.mono (by omega))
    hserves.enough
  have hkept := hparsed.kept
  have hmode : s.mem modeStr = 114 := by
    rw [hkept.mem _ h.live (Set.notMem_empty _)]
    exact h.mode
  obtain ⟨q, t, hpart, hq, -⟩ := partList_name hparsed.part
  have hfirst : read32 s.mem (root + 4) ≠ 0 := by
    have hlt := hq.1
    rw [hpart]
    exact blockAddr_ne_zero (by omega)
  have hdisk : diskGet v (read32 s.mem root).toInt = v.disk := by
    rw [hparsed.drive]
    rfl
  have hprivate : ∀ r, fat16Open fuel disk k.fs s (read32 s.mem (root + 4)) .read = some r →
      fopenPrivate v (k.withKmem s) root modeStr =
        if Tasks.isErr r.1 then (r.1.toInt, 0, (k.withKmem s).withFs r.2)
        else (0, r.1, (k.withKmem s).withFs r.2) := by
    intro r hr
    have hcall : (fat16Fs fuel disk).fsOpen k.fs s v.disk (read32 s.mem (root + 4)) .read = r := by
      simp only [fat16Fs, hr, Option.getD_some]
    unfold fopenPrivate
    dsimp only [FileState.withKmem]
    rw [if_neg hparsed.root_ne, if_neg hfirst, hdisk, if_neg v.disk_ne, if_neg hserves.filesystem,
      mode_read hmode, if_neg (by decide), hserves.fat16, hcall]
  refine ⟨root, s, hparse, fun b n hn hpool => hparsed.takes.keepsRun hkept hpool,
    hparsed.takes, hparsed.takes.room 4 h.room, hparsed.part, fun r hr herr => ?_, fun r hr herr => ?_⟩
  · rw [fopenRoot, hprivate r hr, herr]
    simp only [Bool.false_eq_true, if_false, lt_self_iff_false]
    rw [← hdisk, FileState.withKmem]
  · have hneg : r.1.toInt < 0 := of_decide_eq_true herr
    rw [fopenRoot, hprivate r hr, herr]
    simp [hneg]

lemma isErr_blockAddr {c : ℕ} (hc : c < 25600) : Tasks.isErr (blockAddr c) = false := by
  have haddr := blockAddr_toNat (b := c) (by omega)
  rw [Tasks.isErr, BitVec.toInt_eq_toNat_of_lt (by omega), decide_eq_false_iff_not]
  omega

/-- The state with a new file in slot `i`, behind the call of `fat16_open`. -/
def openedState (v : Storage FatState) (k : FileState FatState) (i : Fin maxFiledescriptors) (s : Kmem)
    (fs : FatState) (desc fat : Word) : FileState FatState where
  kmem := s
  fs := fs
  fileDescriptors := Function.update k.fileDescriptors i desc
  descriptors := Function.update k.descriptors desc ⟨(i : ℤ) + 1, v.filesystem, fat, v.disk⟩

lemma fopenDescriptor_block {d : ℕ} (hslot : emptySlot k.fileDescriptors = some i) (hd : d < 25600)
    (hdesc : (kzalloc k.kmem 16).1 = blockAddr d) (fat : Word) : fopenDescriptor v k fat v.disk =
      ((i : ℤ) + 1, blockAddr d, openedState v k i (kzalloc k.kmem 16).2 k.fs (blockAddr d) fat) := by
  have halloc : allocDescriptor k = (blockAddr d,
      (k.withKmem (kzalloc k.kmem 16).2).setDescriptor (blockAddr d) zeroDescriptor) := by
    rw [allocDescriptor, hdesc, if_pos (blockAddr_ne_zero (by omega))]
  rw [fopenDescriptor_some hslot halloc]
  simp [openedState, FileState.setDescriptor, FileState.withKmem]

lemma fopenDescriptor_full (hslot : emptySlot k.fileDescriptors = none) (fat : Word) :
    fopenDescriptor v k fat v.disk = (-enomem, 0, k) := by
  simp [fopenDescriptor, fileNewDescriptor_none hslot]

/-- A file with an entry in the root directory is opened in the first empty slot. -/
lemma fopen_opens (hserves : Serves fuel disk v) (hready : Ready disk k.fs.fsPrivate)
    (hdir : DirectoryStored fuel k.kmem k.fs.fsPrivate.rootDirectory C b m)
    (hrequest : Request k filename modeStr name) (hfile : NamedFile fuel C name j)
    (hslot : emptySlot k.fileDescriptors = some i) :
    ∃ k' new, fopen v fuel k filename modeStr = some ((i : ℤ) + 1, k') ∧
      NewFile k.kmem k'.kmem new ∧ KeepsFiles k k' ∧ (∀ r, filePtr k' i r = blockAddr (new r)) ∧
      FileAt v C k' i ⟨j, 0⟩ ∧ k'.fs.fsPrivate = k.fs.fsPrivate ∧
      k'.fileDescriptors = Function.update k.fileDescriptors i (blockAddr (new .desc)) ∧
      Takes 9 k.kmem k'.kmem := by
  obtain ⟨root, s₁, hcalls⟩ := hrequest.calls hserves hdir.linked.low
  have hstart := hcalls.keeps
  have hroom := hcalls.room
  obtain ⟨f, c, l, s₂, s₃, r, hopen, haddr, hf, hc, hl, hitems, hdescriptors, hsame, hbytes⟩ :=
    (hdir.keepsAll hstart).fat16Open_file hready (Nat.lt_of_lt_of_le (by decide) hserves.enough)
      hserves.bound (hroom.mono (by omega)) hfile hcalls.part
  have hlinked := hl.linked (hc.linked (hf.linked (hstart.linked hdir.linked)))
  obtain ⟨d, hdesc, hd⟩ := @kzalloc_newBlock_clear r.2.2 16 hlinked
    (hl.room (hc.room (hf.room hroom))) (by decide) (by decide)
  have hnew := newFile_of_blocks hstart hf hc hl hd
  have hdlt := hd.lt
  let k' := openedState v k i (kzalloc r.2.2 16).2 r.2.1 (blockAddr d) (blockAddr f)
  have hptr : ∀ r, filePtr k' i r = blockAddr (newBlocks d f c l r) := by
    intro r
    cases r with
    | desc => simp [k', openedState, filePtr, newBlocks]
    | fat => simp [k', openedState, filePtr, newBlocks]
    | item => simp [k', openedState, filePtr, newBlocks, hdescriptors]
    | clone => simp [k', openedState, filePtr, newBlocks, hdescriptors, hitems]
  have htakes := (((hcalls.takes.trans hf.takes).trans hc.takes).trans hl.takes).trans hd.takes
  refine ⟨k', newBlocks d f c l, ?_, hnew, ⟨hnew.keeps, fun a ha hpin => ?_⟩, hptr, ?_, hsame, rfl, htakes⟩
  · have hroot := hcalls.opened r hopen (by
      rw [haddr]
      exact isErr_blockAddr hf.lt)
    rw [haddr, @fopenDescriptor_block v ((k.withKmem s₁).withFs r.2) i d hslot hdlt hdesc] at hroot
    rw [hcalls.fopen_eq hroot, if_neg (by omega)]
    rfl
  · have hne : ∀ r, blockAddr a ≠ blockAddr (newBlocks d f c l r) := by
      intro r
      obtain ⟨hlt, -, hunowned⟩ := hnew.block r
      exact hunowned.addr_ne hlt ha hpin
    constructor
    · exact Function.update_of_ne (hne .desc) _ _
    · rw [show k'.fs.descriptors = _ from hdescriptors]
      exact Function.update_of_ne (hne .fat) _ _
    · rw [show k'.fs.items = _ from hitems]
      exact Function.update_of_ne (hne .item) _ _
  · constructor
    · intro r
      obtain ⟨hlt, hpin, -⟩ := hnew.block r
      exact ⟨_, hlt, hptr r, hpin⟩
    · exact hfile.counted
    · rw [hptr, hptr]
      simp [k', openedState, newBlocks]
    · rw [hptr, hptr]
      simp [k', openedState, newBlocks, hdescriptors]
    · rw [hptr, hptr]
      simp [k', openedState, newBlocks, hitems]
    · intro n hn
      rw [hptr, ← hbytes n hn]
      exact hd.keeps.block hl.lt hl.pinned (by unfold sizeofDirectoryItem at hn; omega)

/-- `fopen` gives 0 and nothing is open that was not. -/
structure Unopened (k k' : FileState FatState) : Prop extends KeepsFiles k k' where
  slots : k'.fileDescriptors = k.fileDescriptors
  volume : k'.fs.fsPrivate = k.fs.fsPrivate

/-- A name that no entry has. -/
lemma fopen_missing (hserves : Serves fuel disk v)
    (hdir : DirectoryStored fuel k.kmem k.fs.fsPrivate.rootDirectory C b m)
    (hrequest : Request k filename modeStr name)
    (hnone : ∀ i < C.total, ¬ HasName fuel (C.entry i) (literal name)) :
    ∃ k', fopen v fuel k filename modeStr = some (0, k') ∧ Unopened k k' := by
  obtain ⟨root, s₁, hcalls⟩ := hrequest.calls hserves hdir.linked.low
  have hstart := hcalls.keeps
  have hroom := hcalls.room
  obtain ⟨f, s₂, hopen, hf⟩ := @DirectoryStored.fat16Open_missing s₁ b m fuel disk k.fs C name _
    (hdir.keepsAll hstart) (Nat.lt_of_lt_of_le (by decide) hserves.enough) (hroom.mono (by omega)) hnone hcalls.part
  refine ⟨(k.withKmem s₁).withFs (k.fs.setDescriptor (blockAddr f) ⟨0, 0⟩, kfree s₂ (blockAddr f)), ?_,
    ⟨hstart.trans hf.release, fun a ha hpin => ⟨rfl, ?_, rfl⟩⟩, rfl, rfl⟩
  · rw [hcalls.fopen_eq (hcalls.failed _ hopen rfl)]
    rfl
  · exact Function.update_of_ne ((hf.unowned hstart).addr_ne hf.lt ha hpin) _ _

/-- Without an empty slot the file is opened and lost. -/
lemma fopen_full (hserves : Serves fuel disk v) (hready : Ready disk k.fs.fsPrivate)
    (hdir : DirectoryStored fuel k.kmem k.fs.fsPrivate.rootDirectory C b m)
    (hrequest : Request k filename modeStr name) (hfile : NamedFile fuel C name j)
    (hslot : emptySlot k.fileDescriptors = none) :
    ∃ k', fopen v fuel k filename modeStr = some (0, k') ∧ Unopened k k' := by
  obtain ⟨root, s₁, hcalls⟩ := hrequest.calls hserves hdir.linked.low
  have hstart := hcalls.keeps
  have hroom := hcalls.room
  obtain ⟨f, c, l, s₂, s₃, r, hopen, haddr, hf, hc, hl, hitems, hdescriptors, hsame, -⟩ :=
    (hdir.keepsAll hstart).fat16Open_file hready (Nat.lt_of_lt_of_le (by decide) hserves.enough)
      hserves.bound (hroom.mono (by omega)) hfile hcalls.part
  have hstart₂ := hstart.trans hf.keeps
  refine ⟨(k.withKmem s₁).withFs r.2, ?_, ⟨(hstart₂.trans hc.keeps).trans hl.keeps, fun a ha hpin =>
    ⟨rfl, ?_, ?_⟩⟩, rfl, hsame⟩
  · have hroot := hcalls.opened r hopen (by
      rw [haddr]
      exact isErr_blockAddr hf.lt)
    rw [@fopenDescriptor_full v ((k.withKmem s₁).withFs r.2) hslot] at hroot
    rw [hcalls.fopen_eq hroot]
    rfl
  · rw [show ((k.withKmem s₁).withFs r.2).fs.descriptors = _ from hdescriptors]
    exact Function.update_of_ne ((hf.unowned hstart).addr_ne hf.lt ha hpin) _ _
  · rw [show ((k.withKmem s₁).withFs r.2).fs.items = _ from hitems]
    exact Function.update_of_ne ((hc.unowned hstart₂).addr_ne hc.lt ha hpin) _ _

/-- The table with a new file. -/
lemma Holds.opens (h : Holds fuel disk v p C b m k T) {new : Role → ℕ} (hnew : NewFile k.kmem k'.kmem new)
    (hkept : KeepsFiles k k') (hptr : ∀ r, filePtr k' i r = blockAddr (new r)) (hfile : FileAt v C k' i o)
    (hsame : k'.fs.fsPrivate = k.fs.fsPrivate) (hslot : T i = none)
    (hslots : k'.fileDescriptors = Function.update k.fileDescriptors i (blockAddr (new .desc))) :
    Holds fuel disk v p C b m k' (Function.update T i (some o)) := by
  have hother : ∀ i', i' ≠ i → Function.update T i (some o) i' = T i' := fun i' hne =>
    Function.update_of_ne hne _ _
  have hne : ∀ i', T i' ≠ none → i' ≠ i := by
    rintro i' hi' rfl
    exact hi' hslot
  have hfiles := hkept.filesKept h fun i' hi' => by
    rw [hslots, Function.update_of_ne (hne i' hi')]
  -- a new block belongs to no file that was open before
  have hfresh : ∀ i' r r', T i' ≠ none → filePtr k' i r ≠ filePtr k' i' r' := by
    intro i' r r' hi' heq
    obtain ⟨o', ho'⟩ := h.file_some hi'
    obtain ⟨c, hc, haddr, hpin⟩ := ho'.block r'
    obtain ⟨hlt, -, hunowned⟩ := hnew.block r
    rw [hptr, hfiles.filePtr_eq hi', haddr] at heq
    exact hunowned.addr_ne hlt hc hpin heq.symm
  have hold : ∀ i', i' ≠ i → Function.update T i (some o) i' ≠ none → T i' ≠ none := by
    intro i' hi' hsome
    rwa [hother i' hi'] at hsome
  constructor
  · rw [hsame]
    exact h.streamed
  · exact h.directory.keeps hfiles.root
  · intro i' o' ho'
    by_cases hi' : i' = i
    · subst hi'
      rw [Function.update_self, Option.some.injEq] at ho'
      rwa [← ho']
    · rw [hother i' hi'] at ho'
      have hi'' : T i' ≠ none := by simp [ho']
      exact (h.file i' o' ho').keeps (hfiles.slots i' hi'') (hfiles.records i' hi'') (hfiles.blocks i' hi'')
  · intro i' hi'
    by_cases heq : i' = i
    · simp [heq] at hi'
    · rw [hother i' heq] at hi'
      rw [hslots, Function.update_of_ne heq]
      exact h.closed i' hi'
  · intro i₁ i₂ r r' h₁ h₂ heq
    by_cases hi₁ : i₁ = i
    · by_cases hi₂ : i₂ = i
      · subst hi₁ hi₂
        rw [hptr, hptr] at heq
        obtain ⟨hlt, -⟩ := hnew.block r
        obtain ⟨hlt', -⟩ := hnew.block r'
        exact ⟨rfl, hnew.injective (blockAddr_inj (by omega) (by omega) heq)⟩
      · rw [hi₁] at heq
        exact absurd heq (hfresh i₂ r r' (hold i₂ hi₂ h₂))
    · by_cases hi₂ : i₂ = i
      · rw [hi₂] at heq
        exact absurd heq.symm (hfresh i₁ r' r (hold i₁ hi₁ h₁))
      · rw [hfiles.filePtr_eq (hold i₁ hi₁ h₁), hfiles.filePtr_eq (hold i₂ hi₂ h₂)] at heq
        exact h.distinct i₁ i₂ r r' (hold i₁ hi₁ h₁) (hold i₂ hi₂ h₂) heq
  · intro i' r c hi' hc haddr
    by_cases heq : i' = i
    · subst heq
      obtain ⟨hlt, -, hunowned⟩ := hnew.block r
      rw [hptr] at haddr
      rw [← blockAddr_inj (show new r < 2 ^ 19 by omega) (by omega) haddr]
      exact hunowned b m h.directory.nonempty h.directory.blocks.pool h.directory.pinned
    · rw [hfiles.filePtr_eq (hold i' heq hi')] at haddr
      exact h.apart i' r c (hold i' heq hi') hc haddr

/-- When nothing is opened, the table stays. -/
lemma Holds.unopened (h : Holds fuel disk v p C b m k T) (hkept : Unopened k k') :
    Holds fuel disk v p C b m k' T := by
  apply h.keeps (hkept.toKeepsFiles.filesKept h fun i _ => by rw [hkept.slots])
  · rw [hkept.volume]
    exact h.streamed
  · intro i hi
    rw [hkept.slots]
    exact h.closed i hi

end AlphaOS.Fat16
