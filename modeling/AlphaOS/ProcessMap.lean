import AlphaOS.PagingSpec
import AlphaOS.ProcessLoad
import AlphaOS.ProcessMemory
import AlphaOS.TaskList

/-! The page directory of a loaded ELF process: what `process_map_memory` makes of the program
headers, for any headers, and for the headers of a well-formed program. -/
namespace AlphaOS.Processes
open BlockHeap Elf Kheap Paging Tasks WordMemory

/-- The headers `process_map_elf` reads, in the order it maps them. -/
def mapElfHeaders (directory file header phdrs : Word) : ℕ → ℕ → Mem → List Phdr
  | 0, _, _ => []
  | k + 1, i, mem =>
    if i < (elfPhnum mem header).toNat then
      let phdr := readPhdr mem (phdrs + BitVec.ofNat 32 (32 * i))
      let r := mapSegment mem directory (elfPhdrPhysAddress mem file phdr) phdr
      phdr :: if r.1 < 0 then [] else mapElfHeaders directory file header phdrs k (i + 1) r.2
    else []

/-- The headers of the process's file, as the mapping reads them. -/
def loadedHeaders (mem : Mem) (directory : Word) (process : Process) : List Phdr :=
  let header := elfHeader mem process.data
  mapElfHeaders directory process.data header (elfPheader mem header) 65536 0 mem

/-- The page of `p_vaddr`. -/
def firstPage (h : Phdr) : Word := pagingAlignToLowerPage h.vaddr

/-- The frame the first page is mapped to, for an image at `image`. -/
def firstFrame (image : Word) (h : Phdr) : Word := pagingAlignToLowerPage (image + h.offset)

/-- How many bytes are mapped. -/
def mappedBytes (image : Word) (h : Phdr) : ℕ :=
  (pagingAlignAddress (image + h.offset + h.memsz)).toNat - (firstFrame image h).toNat

/-- The header maps the page. -/
def MapsPage (image : Word) (h : Phdr) (page : Word) : Prop :=
  (page - firstPage h).toNat < mappedBytes image h

instance (image : Word) (h : Phdr) (page : Word) : Decidable (MapsPage image h page) :=
  inferInstanceAs (Decidable (_ < _))

/-- The entry the header gives a page. -/
def segmentEntry (image : Word) (h : Phdr) (page : Word) : Word :=
  (firstFrame image h + (page - firstPage h)) ||| segmentFlags h

/-- The entry of a page after the headers, from the entry before them. -/
def mappedEntry (image : Word) (hs : List Phdr) (page entry : Word) : Word :=
  hs.foldl (fun e h => if MapsPage image h page then segmentEntry image h page else e) entry

variable {mem : Mem} {chunk dir : Word} {table : ℕ → Word} {image : Word} {h : Phdr}
  {hs : List Phdr}

/-- The frames do not end before they begin, so the mapping is not refused. -/
def Ordered (image : Word) (h : Phdr) : Prop :=
  (firstFrame image h).toNat ≤ (pagingAlignAddress (image + h.offset + h.memsz)).toNat

/-- A segment whose frames end before they begin is refused. -/
lemma mapSegment_refused (hnot : ¬ Ordered image h) (mem : Mem) (chunk : Word) :
    (mapSegment mem chunk (image + h.offset) h).1 < 0 := by
  rw [Ordered, firstFrame] at hnot
  rw [mapSegment, pagingMapTo_refuses fun hargs => hnot hargs.2.2.2]
  exact neg_neg_of_pos (by decide)

/-- A segment that is not refused sets the entries of its pages. -/
lemma mapSegment_spec (hdir : PageDir mem chunk dir table) (image : Word) (h : Phdr)
    (hres : ¬ (mapSegment mem chunk (image + h.offset) h).1 < 0) :
    (mapSegment mem chunk (image + h.offset) h).1 = 0 ∧
    PageDir (mapSegment mem chunk (image + h.offset) h).2 chunk dir table ∧
    SameOff (tablePages table) mem (mapSegment mem chunk (image + h.offset) h).2 ∧
    Ordered image h ∧
    ∀ page : Word, page.toNat % 4096 = 0 →
      pagingGet (mapSegment mem chunk (image + h.offset) h).2 dir page =
        if MapsPage image h page then segmentEntry image h page else pagingGet mem dir page := by
  have hva := pagingAlignToLowerPage_aligned h.vaddr
  have hpa := pagingAlignToLowerPage_aligned (image + h.offset)
  have hend := pagingAlignAddress_aligned (image + h.offset + h.memsz)
  have hle : Ordered image h := by
    by_contra hlt
    exact hres (mapSegment_refused hlt mem chunk)
  obtain ⟨hzero, hdir', hmem, hget⟩ := pagingMapTo_spec hdir hva hpa hend hle (segmentFlags h)
  exact ⟨hzero, hdir', hmem, hle, hget⟩

/-- A refused segment stops the mapping, so all headers that were read are mapped. -/
theorem processMapElfLoop_spec {file header phdrs : Word} (hdir : PageDir mem chunk dir table)
    (hfile : (file + 112).toNat % 4 = 0) (hoff : pageOf (file + 112) ∉ tablePages table)
    (himage : elfMemory mem file = image) (k i : ℕ) (res : ℤ) (hres : res = 0)
    (hok : ¬ (processMapElfLoop chunk file header phdrs k i res mem).1 < 0) :
    (processMapElfLoop chunk file header phdrs k i res mem).1 = 0 ∧
    PageDir (processMapElfLoop chunk file header phdrs k i res mem).2 chunk dir table ∧
    SameOff (tablePages table) mem (processMapElfLoop chunk file header phdrs k i res mem).2 ∧
    (∀ h ∈ mapElfHeaders chunk file header phdrs k i mem, Ordered image h) ∧
    ∀ page : Word, page.toNat % 4096 = 0 →
      pagingGet (processMapElfLoop chunk file header phdrs k i res mem).2 dir page =
        mappedEntry image (mapElfHeaders chunk file header phdrs k i mem) page
          (pagingGet mem dir page) := by
  induction k generalizing mem i res with
  | zero => exact ⟨hres, hdir, SameOff.refl _ _, by simp [mapElfHeaders], fun page _ => rfl⟩
  | succ k ih =>
    rw [processMapElfLoop] at hok ⊢
    rw [mapElfHeaders]
    by_cases hi : i < (elfPhnum mem header).toNat
    · rw [if_pos hi] at hok ⊢
      rw [if_pos hi]
      generalize readPhdr mem (phdrs + BitVec.ofNat 32 (32 * i)) = h at hok ⊢
      have hphys : elfPhdrPhysAddress mem file h = image + h.offset := by
        rw [elfPhdrPhysAddress, himage]
      dsimp only at hok ⊢
      rw [hphys] at hok ⊢
      by_cases hneg : (mapSegment mem chunk (image + h.offset) h).1 < 0
      · rw [if_pos hneg] at hok
        exact absurd hneg hok
      · rw [if_neg hneg] at hok ⊢
        rw [if_neg hneg]
        obtain ⟨hzero, hdir', hmem, hordered, hget⟩ := mapSegment_spec hdir image h hneg
        have himage' : elfMemory (mapSegment mem chunk (image + h.offset) h).2 file = image := by
          rw [elfMemory, hmem.read32 hfile hoff]
          exact himage
        obtain ⟨hres', hdir'', hmem', hall, hget'⟩ := ih hdir' himage' (i + 1) _ hzero hok
        refine ⟨hres', hdir'', by simpa using hmem.trans hmem', ?_, fun page hpage => ?_⟩
        · intro g hg
          rcases List.mem_cons.1 hg with rfl | hg
          · exact hordered
          · exact hall g hg
        rw [hget' page hpage, hget page hpage]
        rfl
    · rw [if_neg hi]
      rw [if_neg hi]
      exact ⟨hres, hdir, SameOff.refl _ _, by simp, fun page _ => rfl⟩

lemma processMapElf_spec {p : Process} (hdir : PageDir mem chunk dir table)
    (hfile : (p.data + 112).toNat % 4 = 0) (hoff : pageOf (p.data + 112) ∉ tablePages table)
    (himage : elfMemory mem p.data = image) (hok : ¬ (processMapElf mem chunk p).1 < 0) :
    (processMapElf mem chunk p).1 = 0 ∧ PageDir (processMapElf mem chunk p).2 chunk dir table ∧
    SameOff (tablePages table) mem (processMapElf mem chunk p).2 ∧
    (∀ h ∈ loadedHeaders mem chunk p, Ordered image h) ∧
    ∀ page : Word, page.toNat % 4096 = 0 → pagingGet (processMapElf mem chunk p).2 dir page =
      mappedEntry image (loadedHeaders mem chunk p) page (pagingGet mem dir page) :=
  processMapElfLoop_spec hdir hfile hoff himage 65536 0 0 rfl hok

/-- Without a header that maps the page its entry stays, else the last one decides. -/
lemma mappedEntry_cases (image : Word) (hs : List Phdr) (page entry : Word) :
    ((∀ h ∈ hs, ¬ MapsPage image h page) ∧ mappedEntry image hs page entry = entry) ∨
    ∃ before h after, hs = before ++ h :: after ∧ MapsPage image h page ∧
      (∀ g ∈ after, ¬ MapsPage image g page) ∧
      mappedEntry image hs page entry = segmentEntry image h page := by
  induction hs using List.reverseRecOn with
  | nil => exact .inl ⟨by simp, rfl⟩
  | append_singleton hs h ih =>
    have hstep : mappedEntry image (hs ++ [h]) page entry =
        if MapsPage image h page then segmentEntry image h page
        else mappedEntry image hs page entry := by
      simp [mappedEntry]
    by_cases hmaps : MapsPage image h page
    · exact .inr ⟨hs, h, [], rfl, hmaps, by simp, by rw [hstep, if_pos hmaps]⟩
    · rw [if_neg hmaps] at hstep
      rcases ih with ⟨hnone, heq⟩ | ⟨before, g, after, rfl, hg, hlast, heq⟩
      · refine .inl ⟨fun g hg => ?_, hstep.trans heq⟩
        rcases List.mem_append.1 hg with hg | hg
        · exact hnone g hg
        · rwa [List.mem_singleton.1 hg]
      · refine .inr ⟨before, g, after ++ [h], by simp, hg, fun f hf => ?_, hstep.trans heq⟩
        rcases List.mem_append.1 hf with hf | hf
        · exact hlast f hf
        · rwa [List.mem_singleton.1 hf]

/-- The last header that maps a page decides. -/
lemma mappedEntry_last {before after : List Phdr} {page entry : Word}
    (hmaps : MapsPage image h page) (hlast : ∀ g ∈ after, ¬ MapsPage image g page) :
    mappedEntry image (before ++ h :: after) page entry = segmentEntry image h page := by
  have hskip : ∀ (gs : List Phdr) (e : Word), (∀ g ∈ gs, ¬ MapsPage image g page) →
      mappedEntry image gs page e = e := by
    intro gs e hgs
    induction gs with
    | nil => rfl
    | cons g gs ih =>
      rw [mappedEntry, List.foldl_cons, if_neg (hgs g (by simp))]
      exact ih fun f hf => hgs f (by simp [hf])
  rw [mappedEntry, List.foldl_append, List.foldl_cons, if_pos hmaps]
  exact hskip after _ hlast

/-! A program whose segments lie in disjoint pages of their own. -/

def pageStart (h : Phdr) : ℕ := h.vaddr.toNat / 4096

def pageEnd (h : Phdr) : ℕ := (h.vaddr.toNat + h.memsz.toNat + 4095) / 4096

/-- The page is one of the segment. -/
def HasPage (h : Phdr) (page : Word) : Prop :=
  0 < h.memsz.toNat ∧ pageStart h ≤ page.toNat / 4096 ∧ page.toNat / 4096 < pageEnd h

instance (h : Phdr) (page : Word) : Decidable (HasPage h page) := inferInstanceAs (Decidable (_ ∧ _))

/-- The page is one of the user stack's, `0x3FB000` to `0x3FEFFF`. -/
def StackPage (page : Word) : Prop := 0x3FB ≤ page.toNat / 4096 ∧ page.toNat / 4096 < 0x3FF

instance (page : Word) : Decidable (StackPage page) := inferInstanceAs (Decidable (_ ∧ _))

/-- One segment that fits: as far into its page in memory as in the file, without wrapping
and off the stack. -/
structure SegmentFits (h : Phdr) : Prop where
  congruent : h.vaddr.toNat % 4096 = h.offset.toNat % 4096
  noWrap : h.vaddr.toNat + h.memsz.toNat ≤ 2 ^ 32
  offStack : pageEnd h ≤ 0x3FB ∨ 0x3FF ≤ pageStart h

/-- The segments that are not empty fit and lie in different pages. -/
structure WellFormed (hs : List Phdr) : Prop where
  fits : ∀ h ∈ hs, 0 < h.memsz.toNat → SegmentFits h
  apart : hs.Pairwise fun h g => 0 < h.memsz.toNat → 0 < g.memsz.toNat →
    pageEnd h ≤ pageStart g ∨ pageEnd g ≤ pageStart h

lemma pagingAlignAddress_wraps {ptr : Word} (hlt : 2 ^ 32 ≤ ptr.toNat + 4095) :
    pagingAlignAddress ptr = 0 := by
  have hmod : (ptr % 4096).toNat = ptr.toNat % 4096 := BitVec.toNat_umod
  have hpage : (4096 : Word).toNat = 4096 := rfl
  have hbound := ptr.isLt
  have hne : ¬ ptr.toNat % 4096 = 0 := by omega
  unfold pagingAlignAddress
  rw [if_pos (mt word_mod_eq_zero.1 hne)]
  apply BitVec.eq_of_toNat_eq
  rw [BitVec.toNat_sub, BitVec.toNat_add, hmod, hpage]
  change _ = 0
  omega

/-- The pages a segment that fits is given are its own. -/
lemma SegmentFits.mappedBytes_eq (hfit : SegmentFits h) (himage : image.toNat % 4096 = 0)
    (hordered : Ordered image h) : mappedBytes image h = 4096 * (pageEnd h - pageStart h) := by
  obtain ⟨hcongr, hwrap, hstack⟩ := hfit
  have hframe : (firstFrame image h).toNat = (image + h.offset).toNat / 4096 * 4096 :=
    pagingAlignToLowerPage_toNat _
  have hphys : (image + h.offset).toNat % 4096 = h.vaddr.toNat % 4096 := by
    rw [BitVec.toNat_add]
    omega
  have hsum : (image + h.offset + h.memsz).toNat =
      ((image + h.offset).toNat + h.memsz.toNat) % 2 ^ 32 := BitVec.toNat_add _ _
  unfold Ordered at hordered
  rw [hframe] at hordered
  unfold mappedBytes
  rw [hframe]
  have hlt := (image + h.offset).isLt
  generalize (image + h.offset).toNat = phys at *
  unfold pageEnd pageStart at *
  -- A segment off the stack is too short to wrap around in physical memory.
  have hshort : h.memsz.toNat + 0x3FF000 ≤ 2 ^ 32 := by omega
  have hfits : phys + h.memsz.toNat + 4095 < 2 ^ 32 := by
    by_contra hover
    by_cases hone : phys + h.memsz.toNat < 2 ^ 32
    · rw [pagingAlignAddress_wraps (by omega)] at hordered
      change _ ≤ 0 at hordered
      omega
    · rw [pagingAlignAddress_toNat (by omega), hsum] at hordered
      omega
  rw [pagingAlignAddress_toNat (by omega), hsum]
  omega

lemma firstPage_toNat (h : Phdr) : (firstPage h).toNat = 4096 * pageStart h := by
  rw [firstPage, pagingAlignToLowerPage_toNat, pageStart, Nat.mul_comm]

lemma SegmentFits.mapsPage_iff (hfit : SegmentFits h) (hpos : 0 < h.memsz.toNat)
    (himage : image.toNat % 4096 = 0) (hordered : Ordered image h) {page : Word}
    (hpage : page.toNat % 4096 = 0) : MapsPage image h page ↔ HasPage h page := by
  have hwrap := hfit.noWrap
  rw [MapsPage, hfit.mappedBytes_eq himage hordered, BitVec.toNat_sub, firstPage_toNat, HasPage]
  have hlt := page.isLt
  have hlast : pageEnd h ≤ 2 ^ 20 := by
    unfold pageEnd
    omega
  have hstart : pageStart h < pageEnd h := by
    unfold pageStart pageEnd
    omega
  omega

/-- An empty segment maps the page it lies in when its offset is not a page boundary. -/
lemma mapsPage_empty (hzero : h.memsz.toNat = 0) (himage : image.toNat % 4096 = 0)
    (hordered : Ordered image h) {page : Word} (hpage : page.toNat % 4096 = 0) :
    MapsPage image h page ↔ h.offset.toNat % 4096 ≠ 0 ∧ page = firstPage h := by
  have hmemsz : h.memsz = 0 := BitVec.eq_of_toNat_eq hzero
  have hframe : (firstFrame image h).toNat = (image + h.offset).toNat / 4096 * 4096 :=
    pagingAlignToLowerPage_toNat _
  have hmod : (image + h.offset).toNat % 4096 = h.offset.toNat % 4096 := by
    rw [BitVec.toNat_add]
    omega
  have hsum : image + h.offset + h.memsz = image + h.offset := by rw [hmemsz, add_zero]
  unfold Ordered at hordered
  rw [hframe, hsum] at hordered
  have hbytes : mappedBytes image h = if h.offset.toNat % 4096 = 0 then 0 else 4096 := by
    rw [mappedBytes, hsum, hframe]
    by_cases hfits : (image + h.offset).toNat + 4095 < 2 ^ 32
    · rw [pagingAlignAddress_toNat hfits]
      split_ifs <;> omega
    · rw [pagingAlignAddress_wraps (by omega)] at hordered
      change _ ≤ 0 at hordered
      have hlt := (image + h.offset).isLt
      omega
  rw [MapsPage, hbytes]
  have hfirst := firstPage_toNat h
  by_cases halign : h.offset.toNat % 4096 = 0
  · simp [halign]
  · rw [if_neg halign, BitVec.toNat_sub, ← BitVec.toNat_inj]
    have hlt := page.isLt
    have hlt' := (firstPage h).isLt
    omega

/-- Which headers of a well-formed program map a page. -/
def Claims (h : Phdr) (page : Word) : Prop :=
  HasPage h page ∨ (h.memsz.toNat = 0 ∧ h.offset.toNat % 4096 ≠ 0 ∧ page = firstPage h)

instance (h : Phdr) (page : Word) : Decidable (Claims h page) :=
  inferInstanceAs (Decidable (_ ∨ _))

lemma WellFormed.mapsPage_iff (hwf : WellFormed hs) (hmem : h ∈ hs)
    (himage : image.toNat % 4096 = 0) (hordered : Ordered image h) {page : Word}
    (hpage : page.toNat % 4096 = 0) : MapsPage image h page ↔ Claims h page := by
  rcases Nat.eq_zero_or_pos h.memsz.toNat with hzero | hpos
  · rw [mapsPage_empty hzero himage hordered hpage, Claims, HasPage]
    simp [hzero]
  · rw [(hwf.fits h hmem hpos).mapsPage_iff hpos himage hordered hpage, Claims]
    refine (or_iff_left fun hempty => ?_).symm
    omega

/-- The entry of a page off the stack as the program asks for it: that of the segment it
belongs to, else the identity `paging_new_4gb` set. -/
def wantedEntry (image : Word) (hs : List Phdr) (page : Word) : Word :=
  match hs.find? fun h => HasPage h page with
  | some h => segmentEntry image h page
  | none => page ||| (pagingIsPresent ||| pagingAccessFromAll)

/-- No empty segment is the last one to map its page to something the program does not ask
for. -/
def EmptyHarmless (image : Word) (hs : List Phdr) : Prop :=
  ∀ before h after, hs = before ++ h :: after → h.memsz.toNat = 0 → h.offset.toNat % 4096 ≠ 0 →
    ¬ StackPage (firstPage h) → (∀ g ∈ after, ¬ Claims g (firstPage h)) →
    segmentEntry image h (firstPage h) = wantedEntry image hs (firstPage h)

/-- A page belongs to one segment at most. -/
lemma WellFormed.find (hwf : WellFormed hs) (hmem : h ∈ hs) {page : Word} (hpage : HasPage h page) :
    hs.find? (fun h => HasPage h page) = some h := by
  induction hs with
  | nil => simp at hmem
  | cons g hs ih =>
    have hcons := List.pairwise_cons.1 hwf.apart
    by_cases hg : HasPage g page
    · rw [List.find?_cons_of_pos (by simpa using hg)]
      rcases List.mem_cons.1 hmem with rfl | hmem
      · rfl
      · have hdisj := hcons.1 h hmem hg.1 hpage.1
        unfold HasPage at hg hpage
        omega
    · rw [List.find?_cons_of_neg (by simpa using hg)]
      rcases List.mem_cons.1 hmem with rfl | hmem
      · exact absurd hpage hg
      · exact ih ⟨fun f hf => hwf.fits f (by simp [hf]), hcons.2⟩ hmem

lemma WellFormed.wantedEntry_eq (hwf : WellFormed hs) (hmem : h ∈ hs) {page : Word}
    (hpage : HasPage h page) : wantedEntry image hs page = segmentEntry image h page := by
  rw [wantedEntry, hwf.find hmem hpage]

lemma wantedEntry_none {page : Word} (hnone : ∀ h ∈ hs, ¬ HasPage h page) :
    wantedEntry image hs page = page ||| (pagingIsPresent ||| pagingAccessFromAll) := by
  have hfind : hs.find? (fun h => HasPage h page) = none := by
    simpa [List.find?_eq_none] using hnone
  rw [wantedEntry, hfind]

/-- Every page off the stack gets the entry the program asks for exactly when no empty
segment does harm. -/
theorem WellFormed.mappedEntry_iff (hwf : WellFormed hs) (himage : image.toNat % 4096 = 0)
    (hordered : ∀ h ∈ hs, Ordered image h) :
    (∀ page : Word, page.toNat % 4096 = 0 → ¬ StackPage page →
      mappedEntry image hs page (page ||| (pagingIsPresent ||| pagingAccessFromAll)) =
        wantedEntry image hs page) ↔ EmptyHarmless image hs := by
  constructor
  · rintro hall before h after rfl hzero hoff hstack hlast
    have hmem : h ∈ before ++ h :: after := by simp
    have hfirst : (firstPage h).toNat % 4096 = 0 := by
      rw [firstPage_toNat]
      omega
    have hmaps : MapsPage image h (firstPage h) :=
      (mapsPage_empty hzero himage (hordered h hmem) hfirst).2 ⟨hoff, rfl⟩
    rw [← hall _ hfirst hstack, mappedEntry_last hmaps]
    intro g hg hgmaps
    have hgmem : g ∈ before ++ h :: after := by simp [hg]
    exact hlast g hg ((hwf.mapsPage_iff hgmem himage (hordered g hgmem) hfirst).1 hgmaps)
  · intro hharm page hpage hstack
    rcases mappedEntry_cases image hs page (page ||| (pagingIsPresent ||| pagingAccessFromAll)) with
      ⟨hnone, heq⟩ | ⟨before, h, after, rfl, hmaps, hlast, heq⟩
    · rw [heq, wantedEntry_none]
      intro h hmem hhas
      exact hnone h hmem ((hwf.mapsPage_iff hmem himage (hordered h hmem) hpage).2 (.inl hhas))
    · have hmem : h ∈ before ++ h :: after := by simp
      rw [heq]
      rcases (hwf.mapsPage_iff hmem himage (hordered h hmem) hpage).1 hmaps with
        hhas | ⟨hzero, hoff, rfl⟩
      · exact (hwf.wantedEntry_eq hmem hhas).symm
      · refine hharm before h after rfl hzero hoff hstack fun g hg hclaims => ?_
        have hgmem : g ∈ before ++ h :: after := by simp [hg]
        exact hlast g hg ((hwf.mapsPage_iff hgmem himage (hordered g hgmem) hpage).2 hclaims)

/-- A task in blocks that were free before, with a directory in such blocks, which is the identity. -/
lemma taskNew_held (k : Kernel) (process : Word) (hok : isErr (taskNew k process).1 = false) :
    ∃ B dir table, GrownBy k.kmem (taskNew k process).2.kmem B ∧
      PageDir (taskNew k process).2.kmem.mem
        ((taskNew k process).2.tasks (taskNew k process).1).pageDirectory dir table ∧
      (∀ w, w = (taskNew k process).1 ∨
        w = ((taskNew k process).2.tasks (taskNew k process).1).pageDirectory ∨ w = dir ∨
        (∃ i < 1024, w = table i) → ∃ b ∈ B, w = blockAddr b) ∧
      (∀ a, a ≠ (taskNew k process).1 →
        ((taskNew k process).2.tasks a).pageDirectory = (k.tasks a).pageDirectory) ∧
      ∀ page : Word, page.toNat % 4096 = 0 → pagingGet (taskNew k process).2.kmem.mem dir page =
        page ||| (pagingIsPresent ||| pagingAccessFromAll) := by
  obtain herr | ⟨b, s₁, s, chunk, d, a, hb, hgrown, hnew, h0, heq⟩ := taskNew_cases k process
  · rw [herr] at hok
    exact absurd hok (by decide)
  · have hne : ∀ j < 1024, a j ≠ 0 := fun j hj hnull => h0 (hnew.null_chunk ⟨j, hj, hnull⟩)
    have hrefines := @NewDir.refines chunk _ _ 0b101 d a hnew hne
    have hd := hnew.dir_lt
    rw [heq, taskListAppend_pageDirectory, taskListAppend_kmem, Kernel.setTask_tasks,
      Function.update_self]
    refine ⟨{b} ∪ dirBlocks d a chunk, blockAddr d, a, hgrown.trans hnew.grown, hrefines.pageDir, ?_,
      fun u hu => ?_, fun page hpage => hrefines.get page hpage⟩
    · rintro w (rfl | rfl | rfl | ⟨i, hi, rfl⟩)
      · exact ⟨b, .inl rfl, rfl⟩
      · obtain ⟨c, hc, -, hcc, -⟩ := hnew.chunk_or.resolve_left h0
        exact ⟨c, .inr ⟨hc, .inr (.inr hcc)⟩, hcc⟩
      · exact ⟨d, .inr ⟨hd, .inl rfl⟩, rfl⟩
      · obtain ⟨c, hc, -, hcc⟩ := (hnew.null_or i hi).resolve_left (hne i hi)
        exact ⟨c, .inr ⟨hc, .inr (.inl ⟨i, hi, hcc⟩)⟩, hcc⟩
    · rw [taskListAppend_pageDirectory, Kernel.setTask_tasks, Function.update_of_ne hu]
      rfl

/-- The directory of a new task is the identity, in blocks that were free before. -/
lemma taskNew_directory (k : Kernel) (process : Word) (hok : isErr (taskNew k process).1 = false) :
    ∃ dir table B, GrownBy k.kmem (taskNew k process).2.kmem B ∧
      PageDir (taskNew k process).2.kmem.mem
        ((taskNew k process).2.tasks (taskNew k process).1).pageDirectory dir table ∧
      (∀ p ∈ dirPages ((taskNew k process).2.tasks (taskNew k process).1).pageDirectory dir table,
        ∃ b ∈ B, p = 4096 + b) ∧
      ∀ page : Word, page.toNat % 4096 = 0 → pagingGet (taskNew k process).2.kmem.mem dir page =
        page ||| (pagingIsPresent ||| pagingAccessFromAll) := by
  obtain ⟨B, dir, table, hgrown, hdir, hpointers, -, hident⟩ := taskNew_held k process hok
  have hpage : ∀ w, (∃ b ∈ B, w = blockAddr b) → ∃ b ∈ B, pageOf w = 4096 + b := by
    rintro w ⟨b, hb, rfl⟩
    have hlt := (hgrown.fresh b hb).1
    exact ⟨b, hb, pageOf_blockAddr (by omega)⟩
  refine ⟨dir, table, B, hgrown, hdir, ?_, hident⟩
  rintro p (rfl | rfl | ⟨i, hi, rfl⟩)
  · exact hpage _ (hpointers _ (.inr (.inl rfl)))
  · exact hpage _ (hpointers _ (.inr (.inr (.inl rfl))))
  · exact hpage _ (hpointers _ (.inr (.inr (.inr ⟨i, hi, rfl⟩))))

/-- A process with an ELF file in memory and a stack, before its task is created. -/
structure ElfLoaded (k : Kernel) (process : Word) : Prop where
  fileType : (k.procs process).fileType = processFiletypeElf
  file : ∃ f < 25600, (k.procs process).data = blockAddr f ∧ ¬ IsFree k.kmem.entries f
  image : (elfMemory k.kmem.mem (k.procs process).data).toNat % 4096 = 0
  stack : ∃ b < 25600, (k.procs process).stack = blockAddr b

/-- The kernel when `process_map_memory` is called for a loaded process. -/
def startedKernel (k : Kernel) (process : Word) : Kernel :=
  let task := taskNew k process
  task.2.setProcess process { task.2.procs process with task := task.1 }

lemma startedKernel_kmem (k : Kernel) (process : Word) :
    (startedKernel k process).kmem = (taskNew k process).2.kmem := rfl

lemma startedKernel_procs (k : Kernel) (process : Word) :
    (startedKernel k process).procs process =
      { (taskNew k process).2.procs process with task := (taskNew k process).1 } := by
  simp [startedKernel]

lemma startedKernel_pageDirectory (k : Kernel) (process : Word) :
    (startedKernel k process).pageDirectory process =
      ((taskNew k process).2.tasks (taskNew k process).1).pageDirectory := by
  simp [Kernel.pageDirectory, startedKernel]

/-- The user stack's entries. -/
def stackEntry (stack page : Word) : Word :=
  (stack + (page - programVirtualStackAddressEnd)) ||| userFlags

/-- What the directory of a started process holds after `process_map_memory`. -/
structure DirectoryMapped (mem : Mem) (chunk dir : Word) (table : ℕ → Word) (image stack : Word)
    (hs : List Phdr) : Prop where
  pageDir : PageDir mem chunk dir table
  ordered : ∀ h ∈ hs, Ordered image h
  get : ∀ page : Word, page.toNat % 4096 = 0 → pagingGet mem dir page =
    if StackPage page then stackEntry stack page
    else mappedEntry image hs page (page ||| (pagingIsPresent ||| pagingAccessFromAll))

lemma stackPage_iff {page : Word} (hpage : page.toNat % 4096 = 0) :
    (page - programVirtualStackAddressEnd).toNat < 16384 ↔ StackPage page := by
  have hlt := page.isLt
  rw [BitVec.toNat_sub, StackPage]
  change (2 ^ 32 - 0x3FB000 + page.toNat) % 2 ^ 32 < 16384 ↔ _
  omega

/-- The stack is mapped last, so its pages are its own whatever the headers ask for. -/
theorem mapMemory_elf {res : ℤ} {mem' : Mem} {p : Process}
    {b : ℕ} {image : Word} (hdir : PageDir mem chunk dir table)
    (hident : ∀ page : Word, page.toNat % 4096 = 0 →
      pagingGet mem dir page = page ||| (pagingIsPresent ||| pagingAccessFromAll))
    (helf : p.fileType = processFiletypeElf) (hfile : (p.data + 112).toNat % 4 = 0)
    (hoff : pageOf (p.data + 112) ∉ tablePages table) (himage : elfMemory mem p.data = image)
    (hstack : p.stack = blockAddr b) (hb : b < 25600)
    (hmap : processMapMemory mem chunk p = some (res, mem')) (hres : ¬ res < 0) :
    DirectoryMapped mem' chunk dir table image p.stack (loadedHeaders mem chunk p) ∧
    SameOff (tablePages table) mem mem' := by
  obtain ⟨r, hr⟩ : ∃ r, processMapElf mem chunk p = r := ⟨_, rfl⟩
  rw [processMapMemory, if_pos helf, hr, Option.map_some, Option.some.injEq] at hmap
  have hok : ¬ r.1 < 0 := by
    intro hneg
    rw [if_pos hneg] at hmap
    rw [hmap] at hneg
    exact hres hneg
  rw [if_neg hok] at hmap
  have hmem' : (pagingMapTo r.2 chunk programVirtualStackAddressEnd p.stack
      (pagingAlignAddress (p.stack + userProgramStackSize)) userFlags).2 = mem' :=
    congrArg Prod.snd hmap
  rw [← hr] at hok hmem'
  have hva : programVirtualStackAddressEnd.toNat % 4096 = 0 := by decide
  have haddr := blockAddr_toNat (b := b) (by omega)
  have hpa : p.stack.toNat % 4096 = 0 := by
    rw [hstack]
    omega
  have hsum : (p.stack + userProgramStackSize).toNat = p.stack.toNat + 16384 := by
    rw [hstack]
    exact toNat_add_ofNat (k := 16384) (by omega)
  have hend : (pagingAlignAddress (p.stack + userProgramStackSize)).toNat = p.stack.toNat + 16384 := by
    rw [pagingAlignAddress_toNat (by rw [hsum, hstack]; omega), hsum]
    omega
  obtain ⟨-, hdir', hsame, hordered, hget⟩ := processMapElf_spec hdir hfile hoff himage hok
  obtain ⟨-, hdir'', hsame', hget'⟩ := pagingMapTo_spec hdir' hva hpa
    (pagingAlignAddress_aligned (p.stack + userProgramStackSize)) (by omega) userFlags
  have hboth := hsame.trans hsame'
  rw [Set.union_self] at hboth
  rw [← hmem']
  refine ⟨⟨hdir'', hordered, fun page hpage => (hget' page hpage).trans ?_⟩, hboth⟩
  rw [hend, Nat.add_sub_cancel_left]
  by_cases hin : StackPage page
  · rw [if_pos hin, if_pos ((stackPage_iff hpage).2 hin)]
    rfl
  · rw [if_neg hin, if_neg (mt (stackPage_iff hpage).1 hin), ← hident page hpage]
    exact hget page hpage

lemma taskListAppend_procs (k : Kernel) (task : Word) :
    (taskListAppend k task).procs = k.procs := by
  unfold taskListAppend
  split_ifs <;> rfl

lemma taskNew_procs (k : Kernel) (process : Word) (hok : isErr (taskNew k process).1 = false) :
    (taskNew k process).2.procs = k.procs := by
  obtain herr | ⟨b, s₁, s, chunk, d, a, -, -, -, -, heq⟩ := taskNew_cases k process
  · rw [herr] at hok
    exact absurd hok (by decide)
  · rw [heq, taskListAppend_procs]
    rfl

/-- The directory of an ELF process once its memory is mapped. -/
theorem ElfLoaded.mapped {k : Kernel} {process : Word} (hload : ElfLoaded k process)
    (htask : isErr (taskNew k process).1 = false) {res : ℤ} {mem' : Mem}
    (hmap : processMapMemory (startedKernel k process).kmem.mem
      ((startedKernel k process).pageDirectory process) ((startedKernel k process).procs process) =
      some (res, mem')) (hres : ¬ res < 0) :
    ∃ dir table, DirectoryMapped mem' ((startedKernel k process).pageDirectory process) dir table
        (elfMemory k.kmem.mem (k.procs process).data) (k.procs process).stack
        (loadedHeaders (startedKernel k process).kmem.mem
          ((startedKernel k process).pageDirectory process)
          ((startedKernel k process).procs process)) ∧
      SameOff (insert 0 {p | ∃ b < 25600, IsFree k.kmem.entries b ∧ p = 4096 + b}) k.kmem.mem mem' ∧
      elfMemory mem' (k.procs process).data = elfMemory k.kmem.mem (k.procs process).data := by
  obtain ⟨dir, table, B, hgrown, hdir, hpages, hident⟩ := taskNew_directory k process htask
  obtain ⟨f, hf, hdata, hfree⟩ := hload.file
  obtain ⟨b, hb, hstack⟩ := hload.stack
  have haddr := blockAddr_toNat (b := f) (by omega)
  have hword : (blockAddr f + 112).toNat = 16777216 + 4096 * f + 112 := by
    have hsum := toNat_add_ofNat (a := blockAddr f) (k := 112) (by omega)
    rw [haddr] at hsum
    exact hsum
  have hpage : pageOf (blockAddr f + 112) = 4096 + f := by
    rw [pageOf, hword]
    omega
  have hfB : f ∉ B := fun hmem => hfree (hgrown.fresh f hmem).2
  have hprocs : (startedKernel k process).procs process =
      { k.procs process with task := (taskNew k process).1 } := by
    rw [startedKernel_procs, taskNew_procs k process htask]
  rw [startedKernel_pageDirectory] at hmap ⊢
  have himage : elfMemory (startedKernel k process).kmem.mem
      ((startedKernel k process).procs process).data =
      elfMemory k.kmem.mem (k.procs process).data := by
    rw [hprocs, hdata]
    refine hgrown.mem.read32 (by rw [hword]; omega) ?_
    rw [hpage]
    rintro (h0 | ⟨c, hc, heq⟩)
    · omega
    · obtain rfl : f = c := by omega
      exact hfB hc
  obtain ⟨hmapped, hsame⟩ := mapMemory_elf (p := (startedKernel k process).procs process) hdir hident
    (by rw [hprocs]; exact hload.fileType) (by rw [hprocs, hdata, hword]; omega) (by
      rw [hprocs, hdata, hpage]
      intro hmem
      obtain ⟨c, hc, heq⟩ := hpages _ (tablePages_subset hmem)
      obtain rfl : f = c := by omega
      exact hfB hc) himage (by rw [hprocs]; exact hstack) hb hmap hres
  rw [hprocs] at hmapped himage ⊢
  have hkept : SameOff (insert 0 {p | ∃ b < 25600, IsFree k.kmem.entries b ∧ p = 4096 + b})
      k.kmem.mem mem' := by
    refine (hgrown.mem.trans hsame).mono ?_
    rintro p ((rfl | ⟨c, hc, rfl⟩) | hp)
    · exact .inl rfl
    · exact .inr ⟨c, (hgrown.fresh c hc).1, (hgrown.fresh c hc).2, rfl⟩
    · obtain ⟨c, hc, heq⟩ := hpages p (tablePages_subset hp)
      exact .inr ⟨c, (hgrown.fresh c hc).1, (hgrown.fresh c hc).2, heq⟩
  refine ⟨dir, table, hmapped, hkept, ?_⟩
  rw [hdata]
  refine hkept.read32 (by rw [hword]; omega) ?_
  rw [hpage]
  rintro (h0 | ⟨c, -, hc, heq⟩)
  · omega
  · obtain rfl : f = c := by omega
    exact hfree hc

end AlphaOS.Processes
