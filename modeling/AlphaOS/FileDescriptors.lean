import AlphaOS.FileOpen

/-! The descriptor table over any order of `fopen` and `fclose`. -/
namespace AlphaOS.Files
open BlockHeap CString Kheap Paging PathParser Tasks WordMemory

section Table
variable {σ : Type} {blocks : σ → Set ℕ} {v : Storage σ} {k k' : FileState σ}

abbrev lastSlot : Fin maxFiledescriptors := Fin.last 511

/-- Every descriptor in the table lies in a block of its own, carries the number of its slot and
belongs to the disk's file system; the last slot is empty. -/
structure TableOk (blocks : σ → Set ℕ) (v : Storage σ) (k : FileState σ) : Prop
    extends Sound blocks k where
  slot : ∀ i, k.fileDescriptors i ≠ 0 → ∃ d, k.fileDescriptors i = blockAddr d ∧
    OwnBlock blocks k d ∧ (k.descriptors (blockAddr d)).index = i + 1 ∧
    (k.descriptors (blockAddr d)).filesystem = v.filesystem
  last : k.fileDescriptors lastSlot = 0

lemma TableOk.guarded (h : TableOk blocks v k) (hguarded : Guarded blocks k k')
    (htable : k'.fileDescriptors = k.fileDescriptors) (hdescs : k'.descriptors = k.descriptors) :
    TableOk blocks v k' := by
  refine ⟨hguarded.toSound, fun i hi => ?_, by rw [htable, h.last]⟩
  rw [htable] at hi ⊢
  obtain ⟨d, heq, hown, hindex, hfs⟩ := h.slot i hi
  rw [hdescs]
  exact ⟨d, heq, hguarded.ownBlock hown, hindex, hfs⟩

/-- A new descriptor in an empty slot that is not the last. -/
lemma TableOk.add (h : TableOk blocks v k) {i : Fin maxFiledescriptors} (hi : i ≠ lastSlot)
    {d : ℕ} (hd : d < 25600) (hfree : IsFree k.kmem.entries d) (privateData disk : Word) :
    TableOk blocks v (k.addDescriptor i d ⟨i + 1, v.filesystem, privateData, disk⟩) := by
  obtain ⟨hguarded, hown⟩ := addDescriptor_guarded h.toSound hd hfree i
    ⟨i + 1, v.filesystem, privateData, disk⟩
  refine ⟨hguarded.toSound, fun j hj => ?_, ?_⟩
  · by_cases hji : j = i
    · rw [hji]
      exact ⟨d, Function.update_self _ _ _, hown, by simp, by simp⟩
    · rw [addDescriptor_fileDescriptors, Function.update_of_ne hji] at hj ⊢
      obtain ⟨c, heq, hcown, hindex, hfs⟩ := h.slot j hj
      have hne : blockAddr c ≠ blockAddr d := by
        intro hcd
        have hclt := hcown.held.1
        rw [← blockAddr_inj (by omega) (by omega) hcd] at hfree
        exact hcown.held.not_free hfree
      refine ⟨c, heq, hguarded.ownBlock hcown, ?_, ?_⟩ <;>
        rw [addDescriptor_descriptors, Function.update_of_ne hne]
      · exact hindex
      · exact hfs
  · exact (Function.update_of_ne hi.symm _ _).trans h.last

/-- Two slots never hold the same descriptor. -/
lemma TableOk.slot_inj (h : TableOk blocks v k) {i j : Fin maxFiledescriptors}
    (hi : k.fileDescriptors i ≠ 0) (heq : k.fileDescriptors i = k.fileDescriptors j) : i = j := by
  obtain ⟨c, hc, hcown, hcindex, -⟩ := h.slot i hi
  rw [heq] at hi
  obtain ⟨d, hd, hdown, hdindex, -⟩ := h.slot j hi
  rw [← hc, heq, hd, hdindex] at hcindex
  apply Fin.ext
  omega

/-- The table after a slot is emptied. -/
lemma TableOk.fileFreeDescriptor_table (h : TableOk blocks v k) {i : Fin maxFiledescriptors}
    (hi : k.fileDescriptors i ≠ 0) :
    (fileFreeDescriptor k (k.fileDescriptors i)).fileDescriptors =
      Function.update k.fileDescriptors i 0 := by
  obtain ⟨d, heq, -, hindex, -⟩ := h.slot i hi
  funext j
  change clearDescriptor k.fileDescriptors ((k.descriptors (k.fileDescriptors i)).index - 1) j = _
  rw [heq, hindex, clearDescriptor]
  by_cases hji : j = i
  · rw [hji, Function.update_self, if_pos (by omega)]
  · rw [Function.update_of_ne hji, if_neg]
    intro hcast
    exact hji (Fin.ext (by omega))

lemma TableOk.free (h : TableOk blocks v k) {i : Fin maxFiledescriptors}
    (hi : k.fileDescriptors i ≠ 0) :
    TableOk blocks v (fileFreeDescriptor k (k.fileDescriptors i)) := by
  have htable := h.fileFreeDescriptor_table hi
  obtain ⟨d, heq, hown, hindex, -⟩ := h.slot i hi
  have hinj := fun j => @TableOk.slot_inj σ blocks v k h i j hi
  rw [heq] at htable hinj ⊢
  obtain ⟨hsound, hsame⟩ := fileFreeDescriptor_guarded h.toSound hown
  refine ⟨hsound, fun j hj => ?_, ?_⟩
  · rw [htable] at hj ⊢
    have hji : j ≠ i := by
      rintro rfl
      exact hj (Function.update_self _ _ _)
    rw [Function.update_of_ne hji] at hj ⊢
    obtain ⟨c, hceq, hcown, hcindex, hcfs⟩ := h.slot j hj
    have hne : c ≠ d := by
      rintro rfl
      exact hji (hinj j hceq.symm).symm
    refine ⟨c, hceq, ⟨⟨hcown.held.1, ?_⟩, hcown.not_mem⟩, hcindex, hcfs⟩
    rw [hsame c hne]
    exact hcown.held.2
  · rw [htable]
    by_cases hlast : lastSlot = i
    · rw [hlast, Function.update_self]
    · rw [Function.update_of_ne hlast, h.last]

end Table

section Calls
variable {σ : Type} {blocks : σ → Set ℕ} {v : Storage σ} {k k' k₀ : FileState σ} {fuel : ℕ}
  {filename modeStr desc : Word} {res fd : ℤ}

/-- If `fopen` comes to `file_new_descriptor`, the first empty slot is not the last one and a
block is free. -/
def Room (v : Storage σ) (fuel : ℕ) (k : FileState σ) (filename modeStr : Word) : Prop :=
  ∀ root s, pathparserParse fuel k.kmem filename = some (root, s) →
    let r := fopenPrivate v (k.withKmem s) root modeStr
    r.1 = 0 → emptySlot k.fileDescriptors ≠ some lastSlot ∧ ∃ b < 25600, IsFree r.2.2.kmem.entries b

lemma pathparserParse_preserves {s s' : Kmem} {path root : Word} (hlow : Low s.entries)
    (h : pathparserParse fuel s path = some (root, s')) : Preserves s s' := by
  by_cases hrefused : Refused fuel s path
  · obtain ⟨-, hentries⟩ := hrefused.parse h
    exact ⟨by rwa [hentries], fun b _ _ => congrFun hentries b⟩
  · exact (parse_root hlow hrefused h).1

/-- The descriptor `d` was added in slot `i` to what the table was. -/
structure Added (k k' : FileState σ) (i : Fin maxFiledescriptors) (d : ℕ) :
    Prop where
  empty : k.fileDescriptors i = 0
  not_last : i ≠ lastSlot
  fileDescriptors : k'.fileDescriptors = Function.update k.fileDescriptors i (blockAddr d)
  descriptors : ∃ desc, k'.descriptors = Function.update k.descriptors (blockAddr d) desc
  other : ∀ j, k.fileDescriptors j ≠ blockAddr d
  block : d < 25600

/-- A call of `fopen` with room keeps the table in order; it adds a descriptor if and only if the
result is positive. -/
lemma TableOk.fopen (hfs : (v.filesystems v.filesystem).Confined blocks) (h : TableOk blocks v k)
    (hroom : Room v fuel k filename modeStr)
    (hopen : fopenResult v fuel k filename modeStr = some (res, desc, k')) :
    TableOk blocks v k' ∧
    ((res ≤ 0 ∧ k'.fileDescriptors = k.fileDescriptors ∧ k'.descriptors = k.descriptors) ∨
      ∃ (i : Fin maxFiledescriptors) (d : ℕ),
        res = i + 1 ∧ desc = blockAddr d ∧ Added k k' i d) := by
  obtain ⟨⟨root, s⟩, hparse, hroot⟩ := Option.map_eq_some_iff.1 hopen
  have hfirst := Preserves.guarded (pathparserParse_preserves h.low hparse) h.toSound
  have hneeded := hroom root s hparse
  obtain ⟨hres, hguarded, htable, hdescs⟩ := fopenPrivate_cases hfs hfirst.toSound root modeStr
  rw [fopenRoot] at hroot
  dsimp only at hroot hneeded hres hguarded htable hdescs
  generalize fopenPrivate v (k.withKmem s) root modeStr = r at *
  obtain ⟨res₁, privateData, k₁⟩ := r
  generalize diskGet v (read32 (k.withKmem s).kmem.mem root).toInt = disk at hroot
  dsimp only at hroot hneeded hres hguarded htable hdescs
  change k₁.fileDescriptors = k.fileDescriptors at htable
  change k₁.descriptors = k.descriptors at hdescs
  have hmid : TableOk blocks v k₁ := h.guarded (hfirst.trans hguarded) htable hdescs
  rcases hres with hneg | hzero
  · rw [if_pos hneg] at hroot
    simp only [Prod.mk.injEq] at hroot
    rw [← hroot.1, ← hroot.2.2]
    exact ⟨hmid, .inl ⟨hneg.le, htable, hdescs⟩⟩
  rw [hzero, if_neg (lt_irrefl 0)] at hroot
  obtain ⟨hlast, b, hb, hbfree⟩ := hneeded hzero
  rw [← htable] at hlast
  obtain ⟨-, hfail⟩ | ⟨i, hslot, ⟨hfull, -⟩ | ⟨d, hd, hdfree, hadd⟩⟩ :=
    fopenDescriptor_cases v k₁ privateData disk
  · rw [hfail] at hroot
    simp only [Prod.mk.injEq] at hroot
    rw [← hroot.1, ← hroot.2.2]
    exact ⟨hmid, .inl ⟨(neg_neg_of_pos three_pos).le, htable, hdescs⟩⟩
  · exact absurd hbfree (hfull b hb)
  · rw [hadd] at hroot
    simp only [Prod.mk.injEq] at hroot
    have hi : i ≠ lastSlot := fun heq => hlast (heq ▸ hslot)
    rw [← hroot.1, ← hroot.2.1, ← hroot.2.2]
    refine ⟨hmid.add hi hd hdfree privateData disk, .inr ⟨i, d, rfl, rfl, ?_, hi, ?_, ?_, ?_, hd⟩⟩
    · rw [← htable]
      exact emptySlot_empty hslot
    · rw [addDescriptor_fileDescriptors, htable]
    · rw [addDescriptor_descriptors, hdescs]
      exact ⟨_, rfl⟩
    · intro j hj
      rw [← htable] at hj
      obtain ⟨c, hc, hcown, -⟩ := hmid.slot j (by
        rw [hj]
        exact blockAddr_ne_zero (by omega))
      have hclt := hcown.held.1
      rw [hj] at hc
      rw [blockAddr_inj (by omega) (by omega) hc] at hdfree
      exact hcown.held.not_free hdfree

/-- A descriptor number that reaches a descriptor is that of its slot. -/
lemma fileGetDescriptor_ne (h : fileGetDescriptor k fd ≠ 0) :
    ∃ i, i ≠ lastSlot ∧ fd = (i : ℤ) + 1 ∧ fileGetDescriptor k fd = k.fileDescriptors i := by
  have hget := h
  unfold fileGetDescriptor at hget
  by_cases hrange : fd ≤ 0 ∨ fd ≥ 512
  · rw [dif_pos hrange] at hget
    exact absurd rfl hget
  · refine ⟨⟨(fd - 1).toNat, ?_⟩, ?_, ?_, ?_⟩
    · change _ < 512
      omega
    · intro heq
      have hval : (fd - 1).toNat = 511 := congrArg Fin.val heq
      omega
    · change fd = (((fd - 1).toNat : ℕ) : ℤ) + 1
      omega
    · unfold fileGetDescriptor
      rw [dif_neg hrange]

/-- `fclose` of what reaches a descriptor empties its slot. -/
lemma TableOk.fclose (hfs : (v.filesystems v.filesystem).Confined blocks)
    (hclose : ∀ c s p, ((v.filesystems v.filesystem).fsClose c s p).1 = allOk)
    (h : TableOk blocks v k) {i : Fin maxFiledescriptors} (hi : i ≠ lastSlot)
    (hne : k.fileDescriptors i ≠ 0) :
    (fclose v k (i + 1)).1 = allOk ∧ TableOk blocks v (fclose v k (i + 1)).2 ∧
    (fclose v k (i + 1)).2.fileDescriptors = Function.update k.fileDescriptors i 0 ∧
    (fclose v k (i + 1)).2.descriptors = k.descriptors := by
  have hget : fileGetDescriptor k (i + 1) = k.fileDescriptors i := by
    rw [fileGetDescriptor_slot, if_neg]
    exact fun hval => hi (Fin.ext hval)
  obtain ⟨d, heq, -, -, hfsys⟩ := h.slot i hne
  have hfclose := @fclose_desc σ v k _ _ hget hne
  have hsystem : (k.descriptors (k.fileDescriptors i)).filesystem = v.filesystem := by
    rw [heq, hfsys]
  dsimp only at hfclose
  rw [hsystem, hclose, if_pos rfl] at hfclose
  rw [hfclose]
  have hmid : TableOk blocks v (k.withFs ((v.filesystems v.filesystem).fsClose k.fs k.kmem
      (k.descriptors (k.fileDescriptors i)).privateData).2) :=
    h.guarded (hfs.fsClose k _ h.toSound) rfl rfl
  exact ⟨rfl, hmid.free hne, hmid.fileFreeDescriptor_table hne, rfl⟩

/-! Runs. For each number the descriptor `fopen` made for it is remembered, until it is closed. -/

abbrev OpenFiles := ℤ → Option (Word × FileDescriptor)

/-- Calls of `fopen` with room and of `fclose` in any order, from an empty table. -/
inductive Run (v : Storage σ) (fuel : ℕ) (k₀ : FileState σ) : FileState σ → OpenFiles → Prop
  | start : Run v fuel k₀ (fsInit k₀) fun _ => none
  | fopen {k k' : FileState σ} {o : OpenFiles} {filename modeStr desc : Word} {res : ℤ} :
    Run v fuel k₀ k o → Room v fuel k filename modeStr →
    fopenResult v fuel k filename modeStr = some (res, desc, k') →
    Run v fuel k₀ k'
      (if 0 < res then Function.update o res (some (desc, k'.descriptors desc)) else o)
  | fclose {k k' : FileState σ} {o : OpenFiles} {fd res : ℤ} :
    Run v fuel k₀ k o → fclose v k fd = (res, k') →
    Run v fuel k₀ k' (if res = allOk then Function.update o fd none else o)

/-- Every open descriptor stands in its slot as `fopen` made it. -/
def Tracked (k : FileState σ) (o : OpenFiles) : Prop :=
  ∀ fd desc d, o fd = some (desc, d) → ∃ i : Fin maxFiledescriptors, i ≠ lastSlot ∧ fd = i + 1 ∧
    k.fileDescriptors i = desc ∧ desc ≠ 0 ∧ k.descriptors desc = d

lemma Tracked.fopen {o : OpenFiles} {i : Fin maxFiledescriptors} {d : ℕ} (h : Tracked k o)
    (hadd : Added k k' i d) :
    Tracked k' (Function.update o (i + 1) (some (blockAddr d, k'.descriptors (blockAddr d)))) := by
  have hd := hadd.block
  intro fd desc rec hfd
  by_cases hnew : fd = i + 1
  · rw [hnew, Function.update_self, Option.some.injEq, Prod.mk.injEq] at hfd
    rw [← hfd.1, ← hfd.2, hadd.fileDescriptors]
    exact ⟨i, hadd.not_last, hnew, Function.update_self _ _ _, blockAddr_ne_zero (by omega), rfl⟩
  · rw [Function.update_of_ne hnew] at hfd
    obtain ⟨j, hj, heq, hslot, hne, hrec⟩ := h fd desc rec hfd
    have hji : j ≠ i := by
      rintro rfl
      exact hnew heq
    obtain ⟨desc', hdescs⟩ := hadd.descriptors
    refine ⟨j, hj, heq, ?_, hne, ?_⟩
    · rw [hadd.fileDescriptors, Function.update_of_ne hji, hslot]
    · rw [hdescs, Function.update_of_ne (hslot ▸ hadd.other j), hrec]

/-- The invariant of the runs. -/
theorem Run.tracked (hfs : (v.filesystems v.filesystem).Confined blocks)
    (hclose : ∀ c s p, ((v.filesystems v.filesystem).fsClose c s p).1 = allOk)
    (hsound : Sound blocks k₀) {o : OpenFiles} (h : Run v fuel k₀ k o) :
    TableOk blocks v k ∧ Tracked k o := by
  induction h with
  | start =>
    refine ⟨⟨⟨hsound.low, hsound.held⟩, fun i hi => absurd rfl hi, rfl⟩, fun _ _ _ h => ?_⟩
    exact absurd h (by simp)
  | @fopen k k' o filename modeStr desc res _ hroom hopen ih =>
    obtain ⟨htable, htracked⟩ := ih
    obtain ⟨hok, ⟨hres, hsame, hdescs⟩ | ⟨i, d, hres, hdesc, hadd⟩⟩ :=
      htable.fopen hfs hroom hopen
    · rw [if_neg (by omega)]
      refine ⟨hok, fun fd desc rec hfd => ?_⟩
      rw [hsame, hdescs]
      exact htracked fd desc rec hfd
    · rw [if_pos (by omega), hres, hdesc]
      exact ⟨hok, htracked.fopen hadd⟩
  | @fclose k k' o fd res _ hcall ih =>
    obtain ⟨htable, htracked⟩ := ih
    by_cases hget : fileGetDescriptor k fd = 0
    · rw [fclose_null hget, Prod.mk.injEq] at hcall
      rw [← hcall.1, ← hcall.2, if_neg (show -eio ≠ allOk by decide)]
      exact ⟨htable, htracked⟩
    · obtain ⟨i, hi, heq, hslot⟩ := fileGetDescriptor_ne hget
      obtain ⟨hres, hok, hsame, hdescs⟩ := htable.fclose hfs hclose hi (hslot ▸ hget)
      rw [← heq, hcall] at hres hok hsame hdescs
      dsimp only at hres hok hsame hdescs
      rw [if_pos hres]
      refine ⟨hok, fun fd' desc rec hfd => ?_⟩
      have hne : fd' ≠ fd := by
        rintro rfl
        rw [Function.update_self] at hfd
        exact absurd hfd (by simp)
      rw [Function.update_of_ne hne] at hfd
      obtain ⟨j, hj, hjeq, hjslot, hjne, hrec⟩ := htracked fd' desc rec hfd
      have hji : j ≠ i := by
        rintro rfl
        exact hne (hjeq.trans heq.symm)
      refine ⟨j, hj, hjeq, ?_, hjne, by rw [hdescs, hrec]⟩
      rw [hsame, Function.update_of_ne hji, hjslot]

/-- What holds of the open descriptors `o` in state `k`. -/
structure DescriptorLaw (v : Storage σ) (fuel : ℕ) (k : FileState σ) (o : OpenFiles) : Prop where
  /-- An open number reaches the descriptor `fopen` made for it. -/
  reach : ∀ fd desc d, o fd = some (desc, d) →
    fileGetDescriptor k fd = desc ∧ desc ≠ 0 ∧ k.descriptors desc = d
  /-- A new number is none of the open ones, and reaches the new descriptor. -/
  fopen : ∀ filename modeStr res desc k', Room v fuel k filename modeStr →
    fopenResult v fuel k filename modeStr = some (res, desc, k') → 0 < res →
    o res = none ∧ desc ≠ 0 ∧ fileGetDescriptor k' res = desc
  /-- Closing an open number succeeds once and empties its slot and no other. -/
  fclose : ∀ fd, o fd ≠ none → (fclose v k fd).1 = allOk ∧
    (fclose v (fclose v k fd).2 fd).1 = -eio ∧
    ∀ i, (fclose v k fd).2.fileDescriptors i =
      if (i : ℤ) + 1 = fd then 0 else k.fileDescriptors i

theorem run_descriptorLaw (hfs : (v.filesystems v.filesystem).Confined blocks)
    (hclose : ∀ c s p, ((v.filesystems v.filesystem).fsClose c s p).1 = allOk)
    (hsound : Sound blocks k₀) {o : OpenFiles} (h : Run v fuel k₀ k o) :
    DescriptorLaw v fuel k o := by
  obtain ⟨htable, htracked⟩ := h.tracked hfs hclose hsound
  constructor
  · intro fd desc d hfd
    obtain ⟨i, hi, heq, hslot, hne, hrec⟩ := htracked fd desc d hfd
    refine ⟨?_, hne, hrec⟩
    rw [heq, fileGetDescriptor_slot, if_neg, hslot]
    exact fun hval => hi (Fin.ext hval)
  · intro filename modeStr res desc k' hroom hopen hpos
    obtain ⟨-, ⟨hres, -⟩ | ⟨i, d, hres, hdesc, hadd⟩⟩ := htable.fopen hfs hroom hopen
    · omega
    have hd := hadd.block
    refine ⟨?_, hdesc ▸ blockAddr_ne_zero (by omega), ?_⟩
    · cases hold : o res with
      | none => rfl
      | some p =>
        obtain ⟨j, -, heq, hslot, hne, -⟩ := htracked res p.1 p.2 hold
        have hji : j = i := Fin.ext (by omega)
        rw [hji, hadd.empty] at hslot
        exact absurd hslot.symm hne
    · rw [hres, fileGetDescriptor_slot, if_neg, hadd.fileDescriptors, Function.update_self, hdesc]
      exact fun hval => hadd.not_last (Fin.ext hval)
  · intro fd hfd
    obtain ⟨⟨desc, d⟩, hsome⟩ := Option.ne_none_iff_exists'.1 hfd
    obtain ⟨i, hi, heq, hslot, hne, -⟩ := htracked fd desc d hsome
    obtain ⟨hres, -, hsame, -⟩ := htable.fclose hfs hclose hi (hslot ▸ hne)
    rw [← heq] at hres hsame
    have hget : fileGetDescriptor (Files.fclose v k fd).2 fd = 0 := by
      rw [heq, fileGetDescriptor_slot, ← heq, hsame, Function.update_self, ite_self]
    refine ⟨hres, by rw [fclose_null hget], fun j => ?_⟩
    rw [hsame]
    by_cases hji : j = i
    · rw [hji, Function.update_self, if_pos heq.symm]
    · rw [Function.update_of_ne hji, if_neg]
      intro hcast
      exact hji (Fin.ext (by omega))

end Calls

lemma onePath_room : Room oneDisk 110 (fsInit onePath) 0x1000 0x1100 := by
  intro root s hparse
  have hrun : (pathparserParse 110 (fsInit onePath).kmem 0x1000).map (fun r => decide (IsFree
      (fopenPrivate oneDisk ((fsInit onePath).withKmem r.2) r.1 0x1100).2.2.kmem.entries 100)) =
      some true := by decide +kernel
  rw [hparse, Option.map_some, Option.some.injEq, decide_eq_true_eq] at hrun
  exact fun _ => ⟨by decide +kernel, 100, by decide, hrun⟩

theorem run_descriptorLaw_onePath : ∃ k o desc, o 1 = some desc ∧ Run oneDisk 110 onePath k o ∧
    DescriptorLaw oneDisk 110 k o := by
  have hrun : (fopenResult oneDisk 110 (fsInit onePath) 0x1000 0x1100).map (fun r => r.1) =
      some 1 := by decide +kernel
  obtain ⟨⟨res, desc, k⟩, hopen, hres⟩ := Option.map_eq_some_iff.1 hrun
  rw [show res = 1 from hres] at hopen
  have hstep := (@Run.start Unit oneDisk 110 onePath).fopen onePath_room hopen
  rw [if_pos one_pos] at hstep
  exact ⟨k, _, _, Function.update_self _ _ _, hstep,
    run_descriptorLaw oneFile_confined (fun _ _ _ => rfl) onePath_sound hstep⟩

/-- A table with only its last slot empty. -/
def fullTable : FileState Unit where
  kmem := onePath.kmem.withEntries fun x => if 0 ≤ x ∧ x < 511 then blockEntry 1 0 else 0
  fs := ()
  fileDescriptors := fun i => if (i : ℕ) < 511 then blockAddr i else 0
  descriptors := fun a => ⟨(pageOf a - 4096 : ℕ) + 1, 0x3000, 0x5000, 0x2000⟩

lemma fullTable_ok : TableOk (fun _ => ∅) oneDisk fullTable := by
  have htable : ∀ i, fullTable.fileDescriptors i = if (i : ℕ) < 511 then blockAddr i else 0 :=
    fun _ => rfl
  refine ⟨⟨⟨-1, by decide, by decide, by decide⟩, fun _ hmem => absurd hmem (Set.notMem_empty _)⟩,
    fun i hi => ?_, ?_⟩
  · have hlt : (i : ℕ) < 511 := by
      by_contra hnot
      rw [htable, if_neg hnot] at hi
      exact hi rfl
    have hentries : fullTable.kmem.entries =
        fun x => if 0 ≤ x ∧ x < 511 then blockEntry 1 0 else 0 := rfl
    have hentry : fullTable.kmem.entries i = blockEntry 1 0 := by
      have hrange : (0 : ℤ) ≤ (i : ℕ) ∧ ((i : ℕ) : ℤ) < 511 := by omega
      rw [hentries]
      exact if_pos hrange
    have hpage := pageOf_blockAddr (b := i) (by omega)
    refine ⟨i, (htable i).trans (if_pos hlt), ⟨⟨by omega, hentry⟩, Set.notMem_empty _⟩, ?_, rfl⟩
    change ((pageOf (blockAddr i) - 4096 : ℕ) : ℤ) + 1 = i + 1
    omega
  · rw [htable]
    exact if_neg (lt_irrefl 511)

/-- `fopen` gives 512, which reaches no descriptor and cannot be closed. -/
theorem descriptor_unreachable : TableOk (fun _ => ∅) oneDisk fullTable ∧ ∃ desc k', desc ≠ 0 ∧
    fopenResult oneDisk 110 fullTable 0x1000 0x1100 = some (512, desc, k') ∧
    k'.fileDescriptors lastSlot = desc ∧ fileGetDescriptor k' 512 = 0 ∧
    (fclose oneDisk k' 512).1 = -eio := by
  have hrun : (fopenResult oneDisk 110 fullTable 0x1000 0x1100).map (fun r => (r.1,
      decide (r.2.1 ≠ 0 ∧ r.2.2.fileDescriptors lastSlot = r.2.1 ∧
        fileGetDescriptor r.2.2 512 = 0 ∧ (fclose oneDisk r.2.2 512).1 = -eio))) =
      some (512, true) := by decide +kernel
  obtain ⟨⟨res, desc, k'⟩, hopen, heq⟩ := Option.map_eq_some_iff.1 hrun
  rw [Prod.mk.injEq, decide_eq_true_eq] at heq
  obtain ⟨hres, hne, hlast, hget, hclosed⟩ := heq
  exact ⟨fullTable_ok, desc, k', hne, by rw [hopen, ← hres], hlast, hget, hclosed⟩

end AlphaOS.Files
