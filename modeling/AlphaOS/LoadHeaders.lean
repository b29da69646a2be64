import AlphaOS.ElfReads
import AlphaOS.ProgramReach

/-! The two walks over the program headers: `elf_process_pheaders` acts on those of type `PT_LOAD`
only, `process_map_elf` maps every one. -/
namespace AlphaOS.Processes
open BlockHeap CString Elf Kheap Paging Tasks WordMemory

/-- `process_map_elf` over a list of headers, with the result so far. -/
def mapHeaders (directory image : Word) : List Phdr → ℤ → Mem → ℤ × Mem
  | [], res, mem => (res, mem)
  | h :: hs, _, mem =>
    let r := mapSegment mem directory (image + h.offset) h
    if r.1 < 0 then r else mapHeaders directory image hs r.1 r.2

/-- The headers `elf_process_pheader` acts on. -/
def loadable (hs : List Phdr) : List Phdr := hs.filter fun h => h.type = ptLoad

variable {mem : Mem} {chunk dir image : Word} {table : ℕ → Word} {hs : List Phdr} {h g : Phdr}
  {page : Word}

/-- The loop maps the headers it reads one after the other. -/
lemma processMapElfLoop_eq {file header phdrs : Word} (hdir : PageDir mem chunk dir table)
    (hfile : (file + 112).toNat % 4 = 0) (hoff : pageOf (file + 112) ∉ tablePages table)
    (himage : elfMemory mem file = image) (k i : ℕ) (res : ℤ) :
    processMapElfLoop chunk file header phdrs k i res mem =
      mapHeaders chunk image (mapElfHeaders chunk file header phdrs k i mem) res mem := by
  induction k generalizing mem i res with
  | zero => rfl
  | succ k ih =>
    rw [processMapElfLoop, mapElfHeaders]
    by_cases hi : i < (elfPhnum mem header).toNat
    · rw [if_pos hi, if_pos hi]
      generalize readPhdr mem (phdrs + BitVec.ofNat 32 (32 * i)) = h
      have hphys : elfPhdrPhysAddress mem file h = image + h.offset := by
        rw [elfPhdrPhysAddress, himage]
      simp only [hphys, mapHeaders]
      by_cases hneg : (mapSegment mem chunk (image + h.offset) h).1 < 0
      · simp only [if_pos hneg]
      · obtain ⟨-, hdir', hmem, -, -⟩ := mapSegment_spec hdir image h hneg
        have himage' : elfMemory (mapSegment mem chunk (image + h.offset) h).2 file = image := by
          rw [elfMemory, hmem.read32 hfile hoff]
          exact himage
        simp only [if_neg hneg]
        exact ih hdir' himage' (i + 1) _
    · rw [if_neg hi, if_neg hi]
      rfl

/-- The mapping fails exactly when some header is refused. -/
lemma mapHeaders_neg (image : Word) (hs : List Phdr) (mem : Mem) :
    (mapHeaders chunk image hs 0 mem).1 < 0 ↔ ∃ h ∈ hs, ¬ Ordered image h := by
  induction hs generalizing mem with
  | nil => simp [mapHeaders]
  | cons h hs ih =>
    rw [mapHeaders]
    by_cases hordered : Ordered image h
    · have hok := mapSegment_ok hordered mem chunk
      simp only [hok, lt_irrefl, if_false]
      rw [ih]
      simp [hordered]
    · simp only [if_pos (mapSegment_refused hordered mem chunk)]
      exact iff_of_true (mapSegment_refused hordered mem chunk) ⟨h, by simp, hordered⟩

/-- Otherwise the last header of a page decides its entry. -/
lemma mapHeaders_get (hdir : PageDir mem chunk dir table) (hall : ∀ h ∈ hs, Ordered image h)
    (hpage : page.toNat % 4096 = 0) :
    pagingGet (mapHeaders chunk image hs 0 mem).2 dir page =
      mappedEntry image hs page (pagingGet mem dir page) := by
  induction hs generalizing mem with
  | nil => rfl
  | cons h hs ih =>
    have hok := mapSegment_ok (hall h (by simp)) mem chunk
    obtain ⟨-, hdir', -, -, hget⟩ := mapSegment_spec hdir image h (by rw [hok]; exact lt_irrefl 0)
    rw [mapHeaders]
    simp only [hok, lt_irrefl, if_false]
    rw [ih hdir' fun g hg => hall g (by simp [hg]), hget page hpage]
    rfl

/-- Without the other headers the last loadable one of a page decides. -/
lemma lastMapping_loadable (image : Word) (hs : List Phdr) (page : Word) :
    lastMapping image (loadable hs) page =
      hs.reverse.find? fun h => h.type = ptLoad ∧ MapsPage image h page := by
  rw [lastMapping, loadable, ← List.filter_reverse, List.find?_filter]
  simp

lemma lastMapping_of_loadable (hlast : lastMapping image hs page = some g) (hload : g.type = ptLoad) :
    lastMapping image (loadable hs) page = some g := by
  rw [lastMapping_loadable]
  obtain ⟨hmaps, before, after, hsplit, hbefore⟩ := List.find?_eq_some_iff_append.1 hlast
  rw [List.find?_eq_some_iff_append]
  refine ⟨by simpa [hload] using hmaps, before, after, hsplit, fun f hf => ?_⟩
  have hnot : ¬ MapsPage image f page := by simpa using hbefore f hf
  simp [hnot]

lemma lastMapping_none (hlast : lastMapping image hs page = none) :
    lastMapping image (loadable hs) page = none := by
  rw [lastMapping_loadable, List.find?_eq_none]
  intro f hf
  have hnot : ¬ MapsPage image f page := by simpa using List.find?_eq_none.1 hlast f hf
  simp [hnot]

/-- `process_map_elf` fails exactly when the mapping of the loadable headers fails, and else gives
every page the same entry. -/
def MapsLoadable (mem : Mem) (chunk dir image : Word) (p : Process) : Prop :=
  let all := processMapElf mem chunk p
  let loads := mapHeaders chunk image (loadable (loadedHeaders mem chunk p)) 0 mem
  (all.1 < 0 ↔ loads.1 < 0) ∧
    (¬ all.1 < 0 → ∀ page : Word, page.toNat % 4096 = 0 →
      pagingGet all.2 dir page = pagingGet loads.2 dir page)

/-- Only the loadable headers count exactly when no other one alone is refused and every other one
that maps a page last gives it the frame and the flags the last loadable one gives it, or those it
had when there is none. -/
theorem mapsLoadable_iff {p : Process} (hdir : PageDir mem chunk dir table)
    (hfile : (p.data + 112).toNat % 4 = 0) (hoff : pageOf (p.data + 112) ∉ tablePages table)
    (himage : elfMemory mem p.data = image) :
    MapsLoadable mem chunk dir image p ↔
      let hs := loadedHeaders mem chunk p
      ((∀ h ∈ loadable hs, Ordered image h) → ∀ h ∈ hs, Ordered image h) ∧
      ((∀ h ∈ hs, Ordered image h) → ∀ page : Word, page.toNat % 4096 = 0 →
        ∀ g, lastMapping image hs page = some g → g.type ≠ ptLoad →
          segmentEntry image g page = match lastMapping image (loadable hs) page with
            | some h => segmentEntry image h page
            | none => pagingGet mem dir page) := by
  have heq : processMapElf mem chunk p = mapHeaders chunk image (loadedHeaders mem chunk p) 0 mem :=
    processMapElfLoop_eq hdir hfile hoff himage 65536 0 0
  unfold MapsLoadable
  rw [heq]
  generalize loadedHeaders mem chunk p = hs
  have hloads : ∀ h ∈ loadable hs, h ∈ hs := fun h hmem => List.mem_of_mem_filter hmem
  have hfails := @mapHeaders_neg chunk image hs mem
  have hfails' := @mapHeaders_neg chunk image (loadable hs) mem
  dsimp only
  rw [hfails, hfails']
  apply and_congr
  · constructor
    · intro hiff hall h hmem
      by_contra hnot
      obtain ⟨g, hg, hbad⟩ := hiff.1 ⟨h, hmem, hnot⟩
      exact hbad (hall g hg)
    · intro hcond
      constructor
      · rintro ⟨h, hmem, hnot⟩
        by_contra hnone
        exact hnot (hcond (fun g hg => not_not.1 fun hbad => hnone ⟨g, hg, hbad⟩) h hmem)
      · rintro ⟨h, hmem, hnot⟩
        exact ⟨h, hloads h hmem, hnot⟩
  · rw [not_exists]
    simp only [not_and, not_not]
    refine forall_congr' fun hall => forall₂_congr fun page hpage => ?_
    rw [mapHeaders_get hdir hall hpage, mapHeaders_get hdir (fun h hmem => hall h (hloads h hmem)) hpage,
      mappedEntry_lastMapping, mappedEntry_lastMapping]
    cases hlast : lastMapping image hs page with
    | none => simp [lastMapping_none hlast]
    | some g =>
      by_cases hload : g.type = ptLoad
      · simp [lastMapping_of_loadable hlast hload, hload]
      · refine ⟨fun hsame f hf _ => ?_, fun hsame => hsame g rfl hload⟩
        cases hf
        exact hsame

/-! A file in memory behind its `elf_file`, with page tables below. -/

def fileImage : Word := 0x1001000

def fileMemory (file : List Byte) : Mem :=
  lowTables (writeBytes (write32 (fun _ => 0) 0x1000070 fileImage) fileImage file)

def fileOwner : Process := { zeroProcess with data := 0x1000000 }

section FileMemory
variable {file : List Byte}

lemma fileMemory_pointer (hlen : file.length ≤ 4096) :
    elfMemory (fileMemory file) fileOwner.data = fileImage := by
  have hpage : ∀ x : Word, InRange 0x1000070 4 x → pageOf x = 4096 :=
    fun x hx => InRange.pageOf_eq (by rfl) hx
  have hword : ∀ x : Word, InRange 0x1000070 4 x →
      fileMemory file x = write32 (fun _ => 0) 0x1000070 fileImage x := by
    intro x hx
    rw [fileMemory, lowTables_same (hpage x hx).ge]
    apply writeBytes_of_not
    intro n hn heq
    have hfile : pageOf (fileImage + BitVec.ofNat 32 n) = 4097 := pageOf_add (by rfl) (by omega)
    rw [heq, hpage x hx] at hfile
    omega
  change read32 (fileMemory file) 0x1000070 = fileImage
  rw [read32_eq_of_same hword, read32_write32]

lemma fileMemory_page {n : ℕ} (hn : n < 4096) : pageOf (fileImage + BitVec.ofNat 32 n) = 4097 :=
  pageOf_add (by rfl) hn

lemma fileMemory_holds (helf : ElfImage file) (hlen : file.length ≤ 4096) :
    HoldsFile (fileMemory file) fileImage file := by
  refine ⟨(writeBytes_bytesAt (by omega)).congr fun n hn => lowTables_same ?_, helf⟩
  rw [fileMemory_page (by omega)]
  omega

lemma fileMemory_pageDir (file : List Byte) :
    PageDir (fileMemory file) 0x401000 0x400000 fun i => BitVec.ofNat 32 (4096 * i) :=
  lowTables_pageDir _

/-- What is mapped of such a file. -/
lemma fileMemory_headers (helf : ElfImage file) (hlen : file.length ≤ 4096)
    (hordered : ∀ h ∈ fileHeaders file, Ordered fileImage h) :
    loadedHeaders (fileMemory file) 0x401000 fileOwner = fileHeaders file :=
  (processMapElf_file (fileMemory_pageDir file) (by rfl) (lowTables_off (by decide))
    (fileMemory_pointer hlen) (fileMemory_holds helf hlen)
    (fun n hn => lowTables_off (by rw [fileMemory_page (by omega)]; omega)) hordered).1

end FileMemory

lemma codeSegment_image : Ordered fileImage codeSegment := by
  unfold Ordered
  decide

theorem mapsLoadable_iff_codeSegment :
    MapsLoadable (fileMemory (oneSegment codeSegment)) 0x401000 0x400000 fileImage fileOwner := by
  have hlen : (oneSegment codeSegment).length ≤ 4096 := by decide
  refine (mapsLoadable_iff (fileMemory_pageDir _) (by rfl) (lowTables_off (by decide))
    (fileMemory_pointer hlen)).2 ?_
  dsimp only
  have hheaders := fileHeaders_oneSegment codeSegment
  rw [fileMemory_headers (elfImage_oneSegment _) hlen (by simp [hheaders, codeSegment_image]), hheaders]
  refine ⟨fun _ => by simp [codeSegment_image], fun _ page _ g hlast hother => ?_⟩
  have hmem : g ∈ [codeSegment] := List.mem_reverse.1 (List.mem_of_find?_eq_some hlast)
  rw [List.mem_singleton.1 hmem] at hother
  exact absurd rfl hother

/-- Writable data, and a read-only note in the same page behind it in the table. -/
def dataSegment : Phdr := ⟨ptLoad, 0, 0x400000, 0, 116, 116, 6⟩

def noteSegment : Phdr := ⟨4, 84, 0x400054, 0, 32, 32, 4⟩

/-- An ELF header followed by a table of two headers. -/
def pairStart : List Byte :=
  [0x7F, 69, 76, 70, 1, 1] ++ List.replicate 22 0 ++ [52, 0, 0, 0] ++ List.replicate 12 0 ++ [2, 0] ++
    List.replicate 6 0

def noteFile : List Byte := pairStart ++ (phdrBytes dataSegment ++ phdrBytes noteSegment)

lemma noteFile_eq : noteFile = tableFile [dataSegment, noteSegment] := by decide

lemma fileHeaders_noteFile : fileHeaders noteFile = [dataSegment, noteSegment] := by
  rw [noteFile_eq]
  exact fileHeaders_tableFile (by decide)

lemma elfImage_noteFile : ElfImage noteFile := by
  rw [noteFile_eq]
  exact elfImage_tableFile (by decide)

lemma noteFile_ordered : ∀ h ∈ fileHeaders noteFile, Ordered fileImage h := by
  have hboth : Ordered fileImage dataSegment ∧ Ordered fileImage noteSegment := by
    unfold Ordered
    decide
  simp [fileHeaders_noteFile, hboth]

/-- The note takes the write permission from the data. -/
theorem mapsLoadable_note :
    ¬ MapsLoadable (fileMemory noteFile) 0x401000 0x400000 fileImage fileOwner := by
  rintro ⟨-, hsame⟩
  have hdir := fileMemory_pageDir noteFile
  have hordered := noteFile_ordered
  have hheaders := fileMemory_headers elfImage_noteFile (by decide) hordered
  have heq : processMapElf (fileMemory noteFile) 0x401000 fileOwner =
      mapHeaders 0x401000 fileImage (fileHeaders noteFile) 0 (fileMemory noteFile) := by
    rw [← hheaders]
    exact processMapElfLoop_eq hdir (by rfl) (lowTables_off (by decide))
      (fileMemory_pointer (by decide)) 65536 0 0
  have hok : ¬ (mapHeaders 0x401000 fileImage (fileHeaders noteFile) 0 (fileMemory noteFile)).1 < 0 := by
    rw [mapHeaders_neg]
    rintro ⟨h, hmem, hnot⟩
    exact hnot (hordered h hmem)
  rw [heq, hheaders] at hsame
  have hpage := hsame hok 0x400000 (by decide)
  have hloads : loadable [dataSegment, noteSegment] = [] ++ [dataSegment] := by
    rw [loadable, List.filter_cons_of_pos (by decide), List.filter_cons_of_neg (by decide)]
    rfl
  have hnote : [dataSegment, noteSegment] = [dataSegment] ++ [noteSegment] := rfl
  have hordered' : ∀ h ∈ loadable (fileHeaders noteFile), Ordered fileImage h :=
    fun h hmem => hordered h (List.mem_of_mem_filter hmem)
  rw [mapHeaders_get hdir hordered (by decide), mapHeaders_get hdir hordered' (by decide),
    fileHeaders_noteFile, hloads, hnote, mappedEntry_last (by decide) (by simp),
    mappedEntry_last (by decide) (by simp)] at hpage
  exact absurd hpage (by decide)

end AlphaOS.Processes
