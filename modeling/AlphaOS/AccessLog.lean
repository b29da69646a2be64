import AlphaOS.Fat16Directory

/-! The record of what is done with blocks of memory: which pointers are live, whether only live
ones are used and freed, and which are held. -/
namespace AlphaOS.Fat16
open CString Kheap Streamer WordMemory

/-- Made and not freed since. -/
def Live : List Access → Word → Prop
  | [], _ => False
  | .made ptr :: log, a => ptr = a ∨ Live log a
  | .used _ :: log, a => Live log a
  | .freed ptr :: log, a => ptr ≠ a ∧ Live log a

/-- Only live pointers are used and freed. -/
def Safe : List Access → Prop
  | [] => True
  | .made _ :: log => Safe log
  | .used ptr :: log => Live log ptr ∧ Safe log
  | .freed ptr :: log => Live log ptr ∧ Safe log

/-- What has been made and not freed, once for each time. -/
def held : List Access → Multiset Word
  | [] => 0
  | .made ptr :: log => ptr ::ₘ held log
  | .used _ :: log => held log
  | .freed ptr :: log => (held log).erase ptr

instance decidableLive : (log : List Access) → (a : Word) → Decidable (Live log a)
  | [], _ => isFalse not_false
  | .made ptr :: log, a =>
    have := decidableLive log a
    inferInstanceAs (Decidable (ptr = a ∨ Live log a))
  | .used _ :: log, a => decidableLive log a
  | .freed ptr :: log, a =>
    have := decidableLive log a
    inferInstanceAs (Decidable (ptr ≠ a ∧ Live log a))

variable {log log' : List Access} {ptr a : Word}

@[simp] lemma live_nil : ¬ Live [] a := not_false
@[simp] lemma live_made : Live (.made ptr :: log) a ↔ ptr = a ∨ Live log a := Iff.rfl
@[simp] lemma live_used : Live (.used ptr :: log) a ↔ Live log a := Iff.rfl
@[simp] lemma live_freed : Live (.freed ptr :: log) a ↔ ptr ≠ a ∧ Live log a := Iff.rfl

@[simp] lemma safe_nil : Safe [] := trivial
@[simp] lemma safe_made : Safe (.made ptr :: log) ↔ Safe log := Iff.rfl
@[simp] lemma safe_used : Safe (.used ptr :: log) ↔ Live log ptr ∧ Safe log := Iff.rfl
@[simp] lemma safe_freed : Safe (.freed ptr :: log) ↔ Live log ptr ∧ Safe log := Iff.rfl

@[simp] lemma held_nil : held [] = 0 := rfl
@[simp] lemma held_made : held (.made ptr :: log) = ptr ::ₘ held log := rfl
@[simp] lemma held_used : held (.used ptr :: log) = held log := rfl
@[simp] lemma held_freed : held (.freed ptr :: log) = (held log).erase ptr := rfl

/-- A record that goes on stays unsafe. -/
lemma Safe.of_suffix (h : Safe log') (hsuffix : log <:+ log') : Safe log := by
  obtain ⟨more, rfl⟩ := hsuffix
  induction more with
  | nil => exact h
  | cons access more ih =>
    cases access with
    | made ptr => exact ih h
    | used ptr => exact ih h.2
    | freed ptr => exact ih h.2

/-! Loading the entries of a directory. -/

/-- What the record gets when a directory `directory` is given a buffer. -/
inductive Loading (directory buffer : Word) (log : List Access) : List Access → Prop
  | refused : buffer = 0 → Loading directory buffer log (.freed directory :: .used directory :: log)
  | failed : buffer ≠ 0 → Loading directory buffer log
      (.freed directory :: .freed buffer :: .used directory :: .made buffer :: log)
  | loaded : buffer ≠ 0 → Loading directory buffer log (.made buffer :: log)

variable {directory buffer : Word}

lemma Loading.live_of_ne (h : Loading directory buffer log log') (hd : a ≠ directory)
    (hb : a ≠ buffer) : Live log' a ↔ Live log a := by
  cases h with
  | refused => simp [hd.symm]
  | failed => simp [hd.symm, hb.symm]
  | loaded => simp [hb.symm]

/-- The directory lives when it has been loaded. -/
lemma Loading.cases_live (h : Loading directory buffer (.made directory :: log) log') :
    (¬ Live log' directory ∧ held log' = held log) ∨
    (Live log' directory ∧ buffer ≠ 0 ∧ log' = .made buffer :: .made directory :: log) := by
  cases h with
  | refused => simp
  | failed =>
    left
    simp only [held_freed, held_used, held_made, Multiset.erase_cons_head]
    simp
  | loaded hne => exact .inr ⟨.inr (.inl rfl), hne, rfl⟩

lemma Loading.safe (h : Loading directory buffer (.made directory :: log) log')
    (hne : buffer ≠ directory) (hsafe : Safe log) : Safe log' := by
  cases h with
  | refused => simpa using hsafe
  | failed => simpa [hne] using hsafe
  | loaded => simpa using hsafe

lemma Loading.null (h : Loading directory buffer log log') (hnull : ¬ Live log 0) :
    ¬ Live log' 0 := by
  cases h with
  | refused => exact fun h => hnull h.2
  | failed hne => exact fun h => h.2.2.elim hne hnull
  | loaded hne => exact fun h => h.elim hne hnull

/-! What an item holds. -/

/-- The blocks of an item: with a live directory its record and buffer, with a file its entry. -/
def FatState.owned (k : FatState) (item : Word) : Multiset Word :=
  if item = 0 then 0 else
  item ::ₘ match (k.items item).type with
    | .directory =>
      if Live k.accesses (k.items item).item then
        (k.items item).item ::ₘ {(k.directories (k.items item).item).item} else 0
    | .file => if (k.items item).item = 0 then 0 else {(k.items item).item}

variable {k k' : FatState} {item : Word}

@[simp] lemma owned_zero (k : FatState) : k.owned 0 = 0 := if_pos rfl

lemma owned_eq_zero : k.owned item = 0 ↔ item = 0 := by
  by_cases hnull : item = 0
  · rw [hnull, owned_zero]
    simp
  · rw [FatState.owned, if_neg hnull]
    exact iff_of_false (Multiset.cons_ne_zero) hnull

lemma mem_owned (hne : item ≠ 0) : item ∈ k.owned item := by
  rw [FatState.owned, if_neg hne]
  exact Multiset.mem_cons_self _ _

lemma owned_directory (hne : item ≠ 0) (htype : (k.items item).type = .directory) :
    k.owned item = item ::ₘ if Live k.accesses (k.items item).item then
      (k.items item).item ::ₘ {(k.directories (k.items item).item).item} else 0 := by
  simp only [FatState.owned, if_neg hne, htype]

lemma owned_file (hne : item ≠ 0) (htype : (k.items item).type = .file) :
    k.owned item = item ::ₘ if (k.items item).item = 0 then 0 else {(k.items item).item} := by
  simp only [FatState.owned, if_neg hne, htype]

/-! The record only grows. -/

variable {fuel : ℕ} {disk : Disk} {s : Kmem} {r : Word × FatState × Kmem}

lemma log_suffix (k : FatState) (access : Access) : k.accesses <:+ (k.log access).accesses :=
  List.suffix_cons _ _

lemma fat16FreeDirectory_suffix (k : FatState) (s : Kmem) (directory : Word) :
    k.accesses <:+ (fat16FreeDirectory k s directory).1.accesses := by
  unfold fat16FreeDirectory
  dsimp only
  split_ifs
  · exact List.suffix_refl _
  · exact ⟨[.freed directory, .freed _, .used directory], rfl⟩
  · exact ⟨[.freed directory, .used directory], rfl⟩

lemma fat16FatItemFree_suffix (k : FatState) (s : Kmem) (item : Word) :
    k.accesses <:+ (fat16FatItemFree k s item).1.accesses := by
  unfold fat16FatItemFree
  dsimp only
  split_ifs
  · exact List.suffix_refl _
  · have hused := log_suffix k (.used item)
    cases ((k.log (.used item)).items item).type with
    | directory =>
      have hfreed := fat16FreeDirectory_suffix (k.log (.used item)) s
        ((k.log (.used item)).items item).item
      exact (hused.trans hfreed).trans (log_suffix _ _)
    | file => exact (hused.trans (log_suffix _ _)).trans (log_suffix _ _)

lemma readFatDirectory_suffix {directory : Word} {cluster total : ℤ}
    (h : readFatDirectory disk k s directory cluster total = some r) :
    k.accesses <:+ r.2.1.accesses := by
  unfold readFatDirectory at h
  dsimp only at h
  split_ifs at h
  · cases h
    exact fat16FreeDirectory_suffix (k.setDirectory directory _) _ directory
  · obtain ⟨res, -, hr⟩ := Option.map_eq_some_iff.1 h
    have hmade := log_suffix k (.made (kzalloc s (BitVec.ofInt 32 total *
      BitVec.ofNat 32 sizeofDirectoryItem)).1)
    split_ifs at hr
    · cases hr
      exact hmade.trans (fat16FreeDirectory_suffix (((k.setDirectory directory _).log _).withPrivate _)
        _ directory)
    · cases hr
      exact hmade

lemma fat16LoadFatDirectory_suffix (h : fat16LoadFatDirectory fuel disk k s item = some r) :
    k.accesses <:+ r.2.1.accesses := by
  unfold fat16LoadFatDirectory at h
  dsimp only at h
  generalize kzalloc s 16 = directory at h
  split_ifs at h
  · cases h
    exact List.suffix_refl _
  · cases h
    exact List.suffix_refl _
  · obtain ⟨total, -, hread⟩ := Option.bind_eq_some_iff.1 h
    have hloaded := readFatDirectory_suffix hread
    exact (log_suffix k (.made directory.1)).trans hloaded

lemma fat16CloneDirectoryItem_suffix (k : FatState) (s : Kmem) (item : Word) (size : ℕ) :
    k.accesses <:+ (fat16CloneDirectoryItem k s item size).2.1.accesses := by
  unfold fat16CloneDirectoryItem
  dsimp only
  split_ifs
  · exact List.suffix_refl _
  · exact List.suffix_refl _
  · exact log_suffix k _

lemma fat16NewFatItem_suffix (h : fat16NewFatItemForDirectoryItem fuel disk k s item = some r) :
    k.accesses <:+ r.2.1.accesses := by
  unfold fat16NewFatItemForDirectoryItem at h
  dsimp only at h
  have hmade := log_suffix k (.made (kzalloc s 8).1)
  split_ifs at h
  · cases h
    exact List.suffix_refl _
  · obtain ⟨r', hload, rfl⟩ := Option.map_eq_some_iff.1 h
    have hloaded := fat16LoadFatDirectory_suffix hload
    exact hmade.trans hloaded
  · have hclone := fat16CloneDirectoryItem_suffix (k.log (.made (kzalloc s 8).1)) (kzalloc s 8).2 item
      sizeofDirectoryItem
    generalize fat16CloneDirectoryItem (k.log (.made (kzalloc s 8).1)) (kzalloc s 8).2 item
      sizeofDirectoryItem = clone at h hclone
    cases h
    exact hmade.trans hclone

lemma findItemLoop_suffix {d : FatDirectory} {name : ℤ → Byte} {n i : ℕ} {fItem : Word}
    (h : findItemLoop fuel disk d name n i k s fItem = some r) : k.accesses <:+ r.2.1.accesses := by
  induction n generalizing i k s fItem with
  | zero =>
    cases h
    exact List.suffix_refl _
  | succ n ih =>
    rw [findItemLoop] at h
    obtain ⟨found, -, hrest⟩ := Option.bind_eq_some_iff.1 h
    cases found with
    | false => exact ih hrest
    | true =>
      obtain ⟨r', hnew, hrest'⟩ := Option.bind_eq_some_iff.1 hrest
      exact (fat16NewFatItem_suffix hnew).trans (ih hrest')

lemma directoryEntryLoop_suffix {path : List (ℤ → Byte)}
    (h : directoryEntryLoop fuel disk path k s item = some r) : k.accesses <:+ r.2.1.accesses := by
  induction path generalizing k s item with
  | nil =>
    cases h
    exact List.suffix_refl _
  | cons part path ih =>
    rw [directoryEntryLoop] at h
    dsimp only at h
    have hused := log_suffix k (.used item)
    split_ifs at h
    · cases h
      exact hused
    · obtain ⟨r', hfind, hrest⟩ := Option.bind_eq_some_iff.1 h
      have hfound := findItemLoop_suffix hfind
      have hfreed := fat16FatItemFree_suffix r'.2.1 r'.2.2 item
      exact ((hused.trans (log_suffix _ _)).trans hfound).trans (hfreed.trans (ih hrest))

end AlphaOS.Fat16
