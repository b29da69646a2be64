import AlphaOS.CString

/-! The directory entries of `fs/fat/fat16.c` and the names made of them. An entry is given by
the bytes from its address on, a buffer by the bytes around its start. -/
namespace AlphaOS.Fat16
open CString WordMemory

/-- The bytes from the address of a `struct fat_directory_item` on. -/
abbrev FatDirectoryItem := ℤ → Byte

namespace FatDirectoryItem

def filename (item : FatDirectoryItem) : ℤ → Byte := item

def ext (item : FatDirectoryItem) : ℤ → Byte := fun i => item (8 + i)

def attributes (item : FatDirectoryItem) : Byte := item 11

def high16BitsFirstCluster (item : FatDirectoryItem) : BitVec 16 := item 21 ++ item 20

def low16BitsFirstCluster (item : FatDirectoryItem) : BitVec 16 := item 27 ++ item 26

def fileSize (item : FatDirectoryItem) : Word := item 31 ++ item 30 ++ item 29 ++ item 28

end FatDirectoryItem

/-- `sizeof(struct fat_directory_item)`. -/
abbrev sizeofDirectoryItem : ℕ := 32

abbrev fatFileReadOnly : Byte := 0x01
abbrev fatFileSubdirectory : Byte := 0x10

def fat16GetFirstCluster (item : FatDirectoryItem) : Word :=
  (item.high16BitsFirstCluster ||| item.low16BitsFirstCluster).setWidth 32

/-- `' '`. -/
abbrev space : Byte := 0x20

/-- `'.'`. -/
abbrev dot : Byte := 0x2E

/-- What `FAT16_to_proper_string` leaves: the buffer, the index `*out` points at, and the
indices of `in` it has read. -/
structure ProperString where
  out : ℤ → Byte
  pos : ℤ
  reads : List ℤ

/-- `FAT16_to_proper_string` with `in` at index `i` and `*out` at index `pos`. -/
def fat16ToProperString (input : ℤ → Byte) : ℕ → ℤ → (ℤ → Byte) → ℤ → Option ProperString
  | 0, _, _, _ => none
  | fuel + 1, i, out, pos =>
    if input i ≠ 0 ∧ input i ≠ space then
      (fat16ToProperString input fuel (i + 1) (Function.update out pos (input i)) (pos + 1)).map
        fun r => { r with reads := i :: r.reads }
    else some ⟨if input i = space then Function.update out pos 0 else out, pos, [i]⟩

/-- `memset` to zero. -/
def clear (out : ℤ → Byte) (n : ℕ) : ℤ → Byte := fun i => if 0 ≤ i ∧ i < n then 0 else out i

/-- The reads are offsets in the entry. -/
def fat16GetFullRelativeFilename (fuel : ℕ) (item : FatDirectoryItem) (out : ℤ → Byte)
    (maxLen : ℕ) : Option ProperString :=
  (fat16ToProperString item.filename fuel 0 (clear out maxLen) 0).bind fun name =>
    if item.ext 0 ≠ 0 ∧ item.ext 0 ≠ space then
      (fat16ToProperString item.ext fuel 0 (Function.update name.out name.pos dot)
        (name.pos + 1)).map fun ext =>
        { ext with reads := name.reads ++ 8 :: ext.reads.map (8 + ·) }
    else some { name with reads := name.reads ++ [8] }

variable {input out out' : ℤ → Byte} {fuel k : ℕ} {i pos : ℤ} {r : ProperString}

/-- A copy ends at the first space or zero. -/
def Stops (input : ℤ → Byte) (i : ℤ) : Prop := input i = 0 ∨ input i = space

lemma not_stops : ¬ Stops input i ↔ input i ≠ 0 ∧ input i ≠ space := not_or

/-- The copied bytes lie in front of the final position; behind it only its own byte may have
been cleared. -/
lemma fat16ToProperString_out (h : fat16ToProperString input fuel i out pos = some r) :
    pos ≤ r.pos ∧ (∀ q < pos, r.out q = out q) ∧
    (∀ q, pos ≤ q → q < r.pos → ¬ Stops input (i + (q - pos)) ∧ r.out q = input (i + (q - pos))) ∧
    (∀ q, r.pos ≤ q → r.out q = out q ∨ r.out q = 0) := by
  induction fuel generalizing i out pos r with
  | zero => simp [fat16ToProperString] at h
  | succ fuel ih =>
    rw [fat16ToProperString] at h
    by_cases hgo : input i ≠ 0 ∧ input i ≠ space
    · rw [if_pos hgo] at h
      obtain ⟨r', hr', rfl⟩ := Option.map_eq_some_iff.1 h
      obtain ⟨hle, hbefore, hcopied, hafter⟩ := ih hr'
      refine ⟨by dsimp only; omega, fun q hq => ?_, fun q hlow hhigh => ?_, fun q hq => ?_⟩
      · rw [hbefore q (by omega), Function.update_of_ne (by omega)]
      · by_cases hfirst : q = pos
        · subst hfirst
          simp only [sub_self, add_zero]
          exact ⟨not_stops.2 hgo, by rw [hbefore q (by omega), Function.update_self]⟩
        · have hshift : i + 1 + (q - (pos + 1)) = i + (q - pos) := by ring
          rw [← hshift]
          exact hcopied q (by omega) hhigh
      · rcases hafter q hq with hsame | hzero
        · rw [Function.update_of_ne (by dsimp only at hq; omega)] at hsame
          exact .inl hsame
        · exact .inr hzero
    · rw [if_neg hgo] at h
      cases h
      refine ⟨le_rfl, fun q hq => ?_, fun q hlow hhigh => absurd hhigh (by dsimp only; omega),
        fun q _ => ?_⟩
      · dsimp only
        split_ifs
        · rw [Function.update_of_ne (by omega)]
        · rfl
      · dsimp only
        split_ifs
        · by_cases hq : q = pos
          · simp [hq]
          · simp [hq]
        · exact .inl rfl

/-- Every byte up to the one the copy stops at is read, and the position counts them. -/
lemma fat16ToProperString_reads (h : fat16ToProperString input fuel i out pos = some r)
    (hgo : ∀ j : ℕ, j < k → ¬ Stops input (i + j)) : i + k ∈ r.reads ∧ pos + k ≤ r.pos := by
  induction k generalizing fuel i out pos r with
  | zero =>
    refine ⟨?_, by simpa using (fat16ToProperString_out h).1⟩
    cases fuel with
    | zero => simp [fat16ToProperString] at h
    | succ fuel =>
      rw [fat16ToProperString] at h
      split_ifs at h
      · obtain ⟨r', -, rfl⟩ := Option.map_eq_some_iff.1 h
        simp
      all_goals cases h; simp
  | succ k ih =>
    cases fuel with
    | zero => simp [fat16ToProperString] at h
    | succ fuel =>
      have hfirst := hgo 0 (Nat.succ_pos k)
      simp only [Nat.cast_zero, add_zero] at hfirst
      rw [fat16ToProperString, if_pos (not_stops.1 hfirst)] at h
      obtain ⟨r', hr', rfl⟩ := Option.map_eq_some_iff.1 h
      obtain ⟨hread, hpos⟩ := ih hr' fun j hj => by
        have hnext := hgo (j + 1) (by omega)
        rwa [show i + ((j + 1 : ℕ) : ℤ) = i + 1 + j by push_cast; ring] at hnext
      have hsum : i + ((k + 1 : ℕ) : ℤ) = i + 1 + k := by
        push_cast
        ring
      exact ⟨List.mem_cons_of_mem _ (by rwa [hsum]), by dsimp only; push_cast; omega⟩

/-- A copy that stops after `k` bytes. -/
lemma fat16ToProperString_stops (hgo : ∀ j : ℕ, j < k → ¬ Stops input (i + j))
    (hstop : input (i + k) = space) (hfuel : k < fuel) :
    ∃ r, fat16ToProperString input fuel i out pos = some r ∧ r.pos = pos + k ∧ r.out r.pos = 0 ∧
      ∀ j ∈ r.reads, i ≤ j ∧ j ≤ i + k := by
  induction k generalizing fuel i out pos with
  | zero =>
    obtain ⟨fuel, rfl⟩ : ∃ f, fuel = f + 1 := ⟨fuel - 1, by omega⟩
    simp only [Nat.cast_zero, add_zero] at hstop
    refine ⟨⟨Function.update out pos 0, pos, [i]⟩, ?_, by simp, by simp, by simp⟩
    simp [fat16ToProperString, hstop]
  | succ k ih =>
    obtain ⟨fuel, rfl⟩ : ∃ f, fuel = f + 1 := ⟨fuel - 1, by omega⟩
    have hshift : ∀ j : ℕ, i + ((j + 1 : ℕ) : ℤ) = i + 1 + j := fun j => by push_cast; ring
    have hfirst := hgo 0 (Nat.succ_pos k)
    simp only [Nat.cast_zero, add_zero] at hfirst
    obtain ⟨r, hr, hpos, hzero, hreads⟩ := @ih (Function.update out pos (input i)) fuel (i + 1)
      (pos + 1) (fun j hj => by rw [← hshift]; exact hgo (j + 1) (by omega)) (by rwa [← hshift])
      (by omega)
    refine ⟨{ r with reads := i :: r.reads }, ?_, ?_, hzero, fun j hj => ?_⟩
    · rw [fat16ToProperString, if_pos (not_stops.1 hfirst), hr, Option.map_some]
    · simp only [hpos]
      push_cast
      ring
    · push_cast
      rcases List.mem_cons.1 hj with rfl | hj
      · omega
      · have hbounds := hreads j hj
        omega

/-- Nothing behind a space or a zero is read. -/
lemma fat16ToProperString_reads_le (h : fat16ToProperString input fuel i out pos = some r)
    (hstop : Stops input (i + k)) : ∀ j ∈ r.reads, i ≤ j ∧ j ≤ i + k := by
  induction fuel generalizing k i out pos r with
  | zero => simp [fat16ToProperString] at h
  | succ fuel ih =>
    rw [fat16ToProperString] at h
    by_cases hgo : input i ≠ 0 ∧ input i ≠ space
    · rw [if_pos hgo] at h
      obtain ⟨r', hr', rfl⟩ := Option.map_eq_some_iff.1 h
      cases k with
      | zero =>
        simp only [Nat.cast_zero, add_zero] at hstop
        exact absurd hstop (not_stops.2 hgo)
      | succ k =>
        have hshift : i + ((k + 1 : ℕ) : ℤ) = i + 1 + k := by
          push_cast
          ring
        rw [hshift] at hstop ⊢
        intro j hj
        rcases List.mem_cons.1 hj with rfl | hj
        · omega
        · have hbounds := ih hr' hstop j hj
          omega
    · rw [if_neg hgo] at h
      cases h
      intro j hj
      rw [List.mem_singleton] at hj
      omega

variable {item : FatDirectoryItem} {maxLen : ℕ} {name ext : List Byte}

/-- The two copies: with an extension the second one starts behind the dot. -/
lemma fat16GetFullRelativeFilename_cases
    (h : fat16GetFullRelativeFilename fuel item out maxLen = some r) :
    ∃ first, fat16ToProperString item fuel 0 (clear out maxLen) 0 = some first ∧
      ((Stops item.ext 0 ∧ r = { first with reads := first.reads ++ [8] }) ∨
      (¬ Stops item.ext 0 ∧ ∃ second, fat16ToProperString item.ext fuel 0
          (Function.update first.out first.pos dot) (first.pos + 1) = some second ∧
        r = { second with reads := first.reads ++ 8 :: second.reads.map (8 + ·) })) := by
  obtain ⟨first, hfirst, hrest⟩ := Option.bind_eq_some_iff.1 h
  refine ⟨first, hfirst, ?_⟩
  by_cases hext : item.ext 0 ≠ 0 ∧ item.ext 0 ≠ space
  · rw [if_pos hext] at hrest
    obtain ⟨second, hsecond, rfl⟩ := Option.map_eq_some_iff.1 hrest
    exact .inr ⟨not_stops.2 hext, second, hsecond, rfl⟩
  · rw [if_neg hext] at hrest
    cases hrest
    exact .inl ⟨by rwa [← not_stops, not_not] at hext, rfl⟩

/-- The name is what stands in front of the final position; zeros follow to the end of the
buffer. -/
lemma fat16GetFullRelativeFilename_out
    (h : fat16GetFullRelativeFilename fuel item out maxLen = some r) :
    (∀ q, 0 ≤ q → q < r.pos → ¬ Stops r.out q) ∧
    ∀ q, 0 ≤ q → r.pos ≤ q → q < maxLen → r.out q = 0 := by
  obtain ⟨first, hfirst, hrest⟩ := fat16GetFullRelativeFilename_cases h
  obtain ⟨hle, -, hcopied, hafter⟩ := fat16ToProperString_out hfirst
  have hname : ∀ q, 0 ≤ q → q < first.pos → ¬ Stops first.out q := by
    intro q hlow hhigh
    obtain ⟨hgo, hsame⟩ := hcopied q hlow hhigh
    rw [Stops, hsame]
    exact hgo
  have hzeros : ∀ q, 0 ≤ q → first.pos ≤ q → q < maxLen → first.out q = 0 := by
    intro q hlow hq hlen
    refine (hafter q hq).elim (fun hsame => ?_) id
    rw [hsame, clear, if_pos ⟨hlow, hlen⟩]
  rcases hrest with ⟨-, rfl⟩ | ⟨-, second, hsecond, rfl⟩
  · exact ⟨hname, hzeros⟩
  · obtain ⟨hle', hbefore', hcopied', hafter'⟩ := fat16ToProperString_out hsecond
    refine ⟨fun q hlow hhigh => ?_, fun q hlow hq hlen => ?_⟩
    · by_cases hsecondPart : first.pos + 1 ≤ q
      · obtain ⟨hgo, hsame⟩ := hcopied' q hsecondPart hhigh
        rw [Stops, hsame]
        exact hgo
      · have hold := hbefore' q (by omega)
        by_cases hdot : q = first.pos
        · subst hdot
          rw [Function.update_self] at hold
          rw [Stops, hold]
          decide
        · rw [Function.update_of_ne hdot] at hold
          rw [Stops, hold]
          exact hname q hlow (by omega)
    · refine (hafter' q hq).elim (fun hsame => ?_) id
      dsimp only at hq
      rw [hsame, Function.update_of_ne (by omega)]
      exact hzeros q hlow (by omega) hlen

/-- A space or a zero behind the name bounds what is read of an entry. -/
lemma fat16GetFullRelativeFilename_reads_le
    (h : fat16GetFullRelativeFilename fuel item out maxLen = some r) (hk : 8 ≤ k)
    (hstop : Stops item k) : ∀ j ∈ r.reads, 0 ≤ j ∧ j ≤ k := by
  obtain ⟨first, hfirst, hrest⟩ := fat16GetFullRelativeFilename_cases h
  have hname := fat16ToProperString_reads_le hfirst (show Stops item (0 + k) by rwa [zero_add])
  rcases hrest with ⟨-, rfl⟩ | ⟨-, second, hsecond, rfl⟩
  · intro j hj
    rcases List.mem_append.1 hj with hj | hj
    · have hbounds := hname j hj
      omega
    · rw [List.mem_singleton] at hj
      omega
  · have hext := @fat16ToProperString_reads_le _ _ _ (k - 8) _ _ _ hsecond (by
      rw [zero_add, Stops, FatDirectoryItem.ext]
      have hindex : (8 : ℤ) + ((k - 8 : ℕ) : ℤ) = k := by omega
      rwa [hindex])
    intro j hj
    rcases List.mem_append.1 hj with hj | hj
    · have hbounds := hname j hj
      omega
    · rcases List.mem_cons.1 hj with rfl | hj
      · omega
      · obtain ⟨i, hi, rfl⟩ := List.mem_map.1 hj
        have hbounds := hext i hi
        omega

/-- An entry whose name and extension are these, each padded with spaces. -/
structure Padded (item : FatDirectoryItem) (name ext : List Byte) : Prop where
  name_length : 1 ≤ name.length ∧ name.length ≤ 8
  ext_length : ext.length ≤ 3
  name_byte : ∀ n : ℕ, n < 8 → item.filename n = name.getD n space
  ext_byte : ∀ n : ℕ, n < 3 → item.ext n = ext.getD n space
  nonzero : ∀ b ∈ name ++ ext, b ≠ 0
  name_trimmed : name.getLast? ≠ some space
  ext_trimmed : ext.getLast? ≠ some space

/-- The trimmed name, and the trimmed extension behind a dot when there is one. -/
def fullName (name ext : List Byte) : List Byte := name ++ if ext = [] then [] else dot :: ext

/-- The buffer holds the full name and a zero, and only the 11 bytes of the name were read. -/
def NamesEntry (item : FatDirectoryItem) (out : ℤ → Byte) (maxLen : ℕ) (name ext : List Byte) : Prop :=
  ∃ fuel r, fat16GetFullRelativeFilename fuel item out maxLen = some r ∧
    (∀ n : ℕ, (hn : n < (fullName name ext).length) → r.out n = (fullName name ext)[n]) ∧
    r.out (fullName name ext).length = 0 ∧ ∀ j ∈ r.reads, 0 ≤ j ∧ j < 11

lemma fullName_length (name ext : List Byte) :
    (fullName name ext).length = name.length + if ext = [] then 0 else ext.length + 1 := by
  unfold fullName
  split_ifs <;> simp

/-- The bytes of the name do not stop a copy when none is a space. -/
lemma Padded.name_go (h : Padded item name ext) (hspace : ∀ b ∈ name ++ ext, b ≠ space) {n : ℕ}
    (hn : n < name.length) : ¬ Stops item n ∧ item n = name[n] := by
  have hlen := h.name_length.2
  have hbyte : item n = name[n] := by
    have hpad := h.name_byte n (by omega)
    rwa [List.getD_eq_getElem _ _ hn] at hpad
  have hmem : name[n] ∈ name ++ ext := List.mem_append_left _ (List.getElem_mem hn)
  exact ⟨not_stops.2 ⟨hbyte ▸ h.nonzero _ hmem, hbyte ▸ hspace _ hmem⟩, hbyte⟩

lemma Padded.ext_go (h : Padded item name ext) (hspace : ∀ b ∈ name ++ ext, b ≠ space) {n : ℕ}
    (hn : n < ext.length) : ¬ Stops item.ext n ∧ item.ext n = ext[n] := by
  have hlen := h.ext_length
  have hbyte : item.ext n = ext[n] := by
    have hpad := h.ext_byte n (by omega)
    rwa [List.getD_eq_getElem _ _ hn] at hpad
  have hmem : ext[n] ∈ name ++ ext := List.mem_append_right _ (List.getElem_mem hn)
  exact ⟨not_stops.2 ⟨hbyte ▸ h.nonzero _ hmem, hbyte ▸ hspace _ hmem⟩, hbyte⟩

lemma fullName_bounds (h : Padded item name ext) : (fullName name ext).length ≤ 12 := by
  have hname := h.name_length.2
  have hext := h.ext_length
  rw [fullName_length]
  split_ifs <;> omega

/-- A space inside the name or the extension ends the copy. -/
lemma NamesEntry.no_space (h : NamesEntry item out maxLen name ext) (hpad : Padded item name ext)
    (hlen : 13 ≤ maxLen) : ∀ b ∈ name ++ ext, b ≠ space := by
  intro b hb
  obtain ⟨fuel, r, hr, hname, -, -⟩ := h
  obtain ⟨hgo, hzero⟩ := fat16GetFullRelativeFilename_out hr
  have hmem : b ∈ fullName name ext := by
    rcases List.mem_append.1 hb with hb | hb
    · exact List.mem_append_left _ hb
    · have hne : ext ≠ [] := List.ne_nil_of_mem hb
      simp [fullName, hne, hb]
  obtain ⟨n, hn, rfl⟩ := List.getElem_of_mem hmem
  have hbound := fullName_bounds hpad
  rw [← hname n hn]
  by_cases hbefore : (n : ℤ) < r.pos
  · exact (not_stops.1 (hgo n (by omega) hbefore)).2
  · rw [hzero n (by omega) (by omega) (by omega)]
    decide

/-- An extension of full length is read into the attributes. -/
lemma NamesEntry.ext_short (h : NamesEntry item out maxLen name ext) (hpad : Padded item name ext)
    (hspace : ∀ b ∈ name ++ ext, b ≠ space) : ext.length ≤ 2 := by
  obtain ⟨fuel, r, hr, -, -, hreads⟩ := h
  obtain ⟨first, hfirst, ⟨hstop, -⟩ | ⟨-, second, hsecond, rfl⟩⟩ :=
    fat16GetFullRelativeFilename_cases hr
  · by_contra hlong
    exact (hpad.ext_go hspace (show 0 < ext.length by omega)).1 hstop
  · by_contra hlong
    obtain ⟨hread, -⟩ := @fat16ToProperString_reads _ _ _ 3 _ _ _ hsecond fun j hj => by
      rw [zero_add]
      exact (hpad.ext_go hspace (by omega)).1
    have hattributes : (11 : ℤ) ∈ first.reads ++ 8 :: second.reads.map (8 + ·) := by
      refine List.mem_append_right _ (List.mem_cons_of_mem _ (List.mem_map.2 ⟨_, hread, ?_⟩))
      norm_num
    exact absurd (hreads 11 hattributes).2 (by norm_num)

/-- A name of full length is followed by its extension without a dot. -/
lemma NamesEntry.name_short (h : NamesEntry item out maxLen name ext) (hpad : Padded item name ext)
    (hspace : ∀ b ∈ name ++ ext, b ≠ space) : name.length ≤ 7 ∨ ext = [] := by
  by_contra hlong
  rw [not_or] at hlong
  obtain ⟨hname, hext⟩ := hlong
  have hlen := hpad.name_length.2
  have hpos : 0 < ext.length := List.length_pos_iff.2 hext
  obtain ⟨fuel, r, hr, -, hzero, -⟩ := h
  have hout := (fat16GetFullRelativeFilename_out hr).1
  obtain ⟨first, hfirst, ⟨hstop, -⟩ | ⟨-, second, hsecond, rfl⟩⟩ :=
    fat16GetFullRelativeFilename_cases hr
  · exact (hpad.ext_go hspace hpos).1 hstop
  · -- both copies take the extension, so the position is past the place of the zero
    have hfar := (@fat16ToProperString_reads _ _ _ (8 + ext.length) _ _ _ hfirst fun j hj => by
      rw [zero_add]
      by_cases hj8 : j < 8
      · exact (hpad.name_go hspace (by omega)).1
      · have hback : item j = item.ext (j - 8 : ℕ) := by
          rw [FatDirectoryItem.ext]
          congr 1
          omega
        rw [Stops, hback]
        exact (hpad.ext_go hspace (by omega)).1).2
    have hsecondFar := (@fat16ToProperString_reads _ _ _ ext.length _ _ _ hsecond fun j hj => by
      rw [zero_add]
      exact (hpad.ext_go hspace hj).1).2
    rw [fullName_length, if_neg hext] at hzero
    refine hout _ ?_ ?_ (.inl hzero)
    · omega
    · push_cast at hfar hsecondFar ⊢
      omega

/-- Short names without inner spaces are copied as they should. -/
lemma Padded.namesEntry (h : Padded item name ext) (hspace : ∀ b ∈ name ++ ext, b ≠ space)
    (hext : ext.length ≤ 2) (hname : name.length ≤ 7 ∨ ext = []) (out : ℤ → Byte) (maxLen : ℕ) :
    NamesEntry item out maxLen name ext := by
  have hlen := h.name_length.2
  have hpad : item name.length = space := by
    by_cases hshort : name.length < 8
    · have hbyte := h.name_byte name.length hshort
      rwa [List.getD_eq_default _ _ le_rfl] at hbyte
    · have hnil : ext = [] := hname.resolve_left (by omega)
      have height : name.length = 8 := by omega
      have hbyte := h.ext_byte 0 (by norm_num)
      rw [hnil] at hbyte
      rw [height]
      exact hbyte
  obtain ⟨first, hfirst, hpos, hzero, hreads⟩ := @fat16ToProperString_stops item (clear out maxLen)
    9 name.length 0 0 (fun j hj => by rw [zero_add]; exact (h.name_go hspace hj).1)
    (by rwa [zero_add]) (by omega)
  rw [zero_add] at hpos
  have hcopied : ∀ n : ℕ, (hn : n < name.length) → first.out n = name[n] := by
    intro n hn
    obtain ⟨-, hsame⟩ := (fat16ToProperString_out hfirst).2.2.1 n (by omega) (by omega)
    rw [hsame, zero_add, sub_zero]
    exact (h.name_go hspace hn).2
  by_cases hnil : ext = []
  · have hstop : ¬ (item.ext 0 ≠ 0 ∧ item.ext 0 ≠ space) := by
      have hbyte := h.ext_byte 0 (by norm_num)
      rw [hnil] at hbyte
      exact fun hgo => hgo.2 hbyte
    refine ⟨9, { first with reads := first.reads ++ [8] }, ?_, fun n hn => ?_, ?_, fun j hj => ?_⟩
    · rw [fat16GetFullRelativeFilename, FatDirectoryItem.filename, hfirst, Option.bind_some,
        if_neg hstop]
    · have hn' : n < name.length := by simpa [fullName, hnil] using hn
      simp only [fullName, hnil, if_true, List.append_nil]
      exact hcopied n hn'
    · rw [fullName_length, if_pos hnil, add_zero, ← hpos]
      exact hzero
    · rcases List.mem_append.1 hj with hj | hj
      · have hbounds := hreads j hj
        omega
      · rw [List.mem_singleton] at hj
        omega
  · have hpositive : 0 < ext.length := List.length_pos_iff.2 hnil
    have hgo : item.ext 0 ≠ 0 ∧ item.ext 0 ≠ space :=
      not_stops.1 (h.ext_go hspace hpositive).1
    have hextPad : item.ext (0 + ext.length) = space := by
      have hbyte := h.ext_byte ext.length (by omega)
      rwa [List.getD_eq_default _ _ le_rfl, ← zero_add ((ext.length : ℕ) : ℤ)] at hbyte
    obtain ⟨second, hsecond, hpos', hzero', hreads'⟩ := @fat16ToProperString_stops item.ext
      (Function.update first.out first.pos dot) 9 ext.length 0 (first.pos + 1)
      (fun j hj => by rw [zero_add]; exact (h.ext_go hspace hj).1) hextPad (by omega)
    obtain ⟨-, hbefore, hcopied', -⟩ := fat16ToProperString_out hsecond
    refine ⟨9, { second with reads := first.reads ++ 8 :: second.reads.map (8 + ·) }, ?_,
      fun n hn => ?_, ?_, fun j hj => ?_⟩
    · rw [fat16GetFullRelativeFilename, FatDirectoryItem.filename, hfirst, Option.bind_some,
        if_pos hgo, hsecond, Option.map_some]
    · rw [fullName_length, if_neg hnil] at hn
      simp only [fullName, if_neg hnil]
      by_cases hfront : n < name.length
      · rw [List.getElem_append_left hfront, hbefore n (by omega),
          Function.update_of_ne (by omega), hcopied n hfront]
      · rw [List.getElem_append_right (by omega)]
        by_cases hdot : n = name.length
        · subst hdot
          rw [hbefore _ (by omega), hpos, Function.update_self]
          simp
        · obtain ⟨m, rfl⟩ : ∃ m, n = name.length + 1 + m := ⟨n - (name.length + 1), by omega⟩
          obtain ⟨-, hsame⟩ := hcopied' ((name.length + 1 + m : ℕ) : ℤ) (by omega) (by omega)
          have hindex : (0 : ℤ) + (((name.length + 1 + m : ℕ) : ℤ) - (first.pos + 1)) = m := by
            push_cast
            omega
          have hlist : name.length + 1 + m - name.length = m + 1 := by omega
          rw [hsame, hindex, (h.ext_go hspace (show m < ext.length by omega)).2]
          simp [hlist]
    · rw [fullName_length, if_neg hnil]
      have hend : second.pos = ((name.length + (ext.length + 1) : ℕ) : ℤ) := by
        push_cast
        omega
      rw [← hend]
      exact hzero'
    · rcases List.mem_append.1 hj with hj | hj
      · have hbounds := hreads j hj
        omega
      · rcases List.mem_cons.1 hj with rfl | hj
        · omega
        · obtain ⟨i, hi, rfl⟩ := List.mem_map.1 hj
          have hbounds := hreads' i hi
          omega

/-- The name is right exactly when it has no inner spaces, the extension has at most two
characters, and the name at most seven unless there is no extension. -/
theorem fat16GetFullRelativeFilename_iff (h : Padded item name ext) (hlen : 13 ≤ maxLen) :
    NamesEntry item out maxLen name ext ↔
      (∀ b ∈ name ++ ext, b ≠ space) ∧ ext.length ≤ 2 ∧ (name.length ≤ 7 ∨ ext = []) := by
  constructor
  · intro hnames
    have hspace := hnames.no_space h hlen
    exact ⟨hspace, hnames.ext_short h hspace, hnames.name_short h hspace⟩
  · rintro ⟨hspace, hext, hname⟩
    exact h.namesEntry hspace hext hname out maxLen

/-- The entry `A.SH`. -/
def shellEntry : FatDirectoryItem := literal [65, 32, 32, 32, 32, 32, 32, 32, 83, 72, 32]

lemma shellEntry_padded : Padded shellEntry [65] [83, 72] :=
  ⟨by decide, by decide, by decide, by decide, by decide, by decide, by decide⟩

theorem fat16GetFullRelativeFilename_iff_shell :
    NamesEntry shellEntry (fun _ => 1) 108 [65] [83, 72] :=
  (fat16GetFullRelativeFilename_iff shellEntry_padded (by norm_num)).2
    ⟨by decide, by decide, by decide⟩

/-- The entry `A.TXT`, a read-only archive: attributes `0x21`. -/
def textEntry : FatDirectoryItem := literal [65, 32, 32, 32, 32, 32, 32, 32, 84, 88, 84, 0x21]

lemma textEntry_padded : Padded textEntry [65] [84, 88, 84] :=
  ⟨by decide, by decide, by decide, by decide, by decide, by decide, by decide⟩

/-- Its name comes out as `A.TXT!`. -/
theorem fat16GetFullRelativeFilename_attributes :
    ¬ NamesEntry textEntry (fun _ => 0) 108 [65] [84, 88, 84] ∧
    ((fat16GetFullRelativeFilename 5 textEntry (fun _ => 0) 108).map fun r =>
      (List.range 7).map fun n => r.out (n : ℕ)) = some [65, dot, 84, 88, 84, 0x21, 0] := by
  refine ⟨fun h => ?_, by decide⟩
  exact absurd (h.ext_short textEntry_padded (by decide)) (by decide)

end AlphaOS.Fat16
