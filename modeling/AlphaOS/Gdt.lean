import AlphaOS.WordMemory
import AlphaOS.Config

/-! The segment descriptors of `gdt/gdt.c`: how they are written, and how a processor reads them. -/
namespace AlphaOS.Gdt
open WordMemory

structure GdtStructured where
  base : Word
  limit : Word
  type : Byte

/-- A `struct gdt` as 8 bytes. -/
abbrev Entry := Fin 8 → Byte

/-- `encodeGdtEntry`, with nothing for its `panic`, which comes before the first store. -/
def encodeGdtEntry (target : Entry) (source : GdtStructured) : Option Entry :=
  if source.limit > 65536 ∧ source.limit &&& 0xFFF ≠ 0xFFF then none else
  let granular := source.limit > 65536
  let limit := if granular then source.limit >>> 12 else source.limit
  let target := Function.update target 6 (if granular then 0xC0 else 0x40)
  -- the limit
  let target := Function.update target 0 ((limit &&& 0xFF).setWidth 8)
  let target := Function.update target 1 ((limit >>> 8 &&& 0xFF).setWidth 8)
  let target := Function.update target 6 (target 6 ||| (limit >>> 16 &&& 0x0F).setWidth 8)
  -- the base
  let target := Function.update target 2 ((source.base &&& 0xFF).setWidth 8)
  let target := Function.update target 3 ((source.base >>> 8 &&& 0xFF).setWidth 8)
  let target := Function.update target 4 ((source.base >>> 16 &&& 0xFF).setWidth 8)
  let target := Function.update target 7 ((source.base >>> 24 &&& 0xFF).setWidth 8)
  some (Function.update target 5 source.type)

/-- The loop at entry `i`. An error is a `panic`, with the table as it is then. -/
def gdtStructuredToGdtLoop : List GdtStructured → ℕ → (ℕ → Entry) → Except (ℕ → Entry) (ℕ → Entry)
  | [], _, gdt => .ok gdt
  | source :: structuredGdt, i, gdt =>
    match encodeGdtEntry (gdt i) source with
    | none => .error gdt
    | some target => gdtStructuredToGdtLoop structuredGdt (i + 1) (Function.update gdt i target)

def gdtStructuredToGdt (gdt : ℕ → Entry) (structuredGdt : List GdtStructured) :
    Except (ℕ → Entry) (ℕ → Entry) := gdtStructuredToGdtLoop structuredGdt 0 gdt

/-- A segment as a processor sees it. -/
structure Segment where
  base : Word
  /-- The offset of the last byte. -/
  limit : ℕ
  type : Byte
  /-- A segment of 32 bits. -/
  size : Bool

/-- The limit of 20 bits. -/
def rawLimit (entry : Entry) : BitVec 20 := (entry 6).setWidth 4 ++ entry 1 ++ entry 0

/-- The granularity bit. -/
def granular (entry : Entry) : Bool := (entry 6).getLsbD 7

/-- What a processor reads out of a descriptor. -/
def decode (entry : Entry) : Segment where
  base := entry 7 ++ entry 4 ++ entry 3 ++ entry 2
  limit := if granular entry then (rawLimit entry).toNat * 4096 + 4095 else (rawLimit entry).toNat
  type := entry 5
  size := (entry 6).getLsbD 6

/-- A limit that a descriptor can hold: of 17 bits, or the end of a page. -/
def GdtStructured.Admissible (source : GdtStructured) : Prop :=
  source.limit.toNat ≤ 65536 ∨ source.limit.toNat % 4096 = 4095

instance (source : GdtStructured) : Decidable source.Admissible := inferInstanceAs (Decidable (_ ∨ _))

/-- The segment that is meant. -/
def GdtStructured.segment (source : GdtStructured) : Segment :=
  ⟨source.base, source.limit.toNat, source.type, true⟩

variable {target : Entry} {source : GdtStructured} {gdt : ℕ → Entry} {sources : List GdtStructured} {i : ℕ}

lemma and_byte (v : Word) : (v &&& 0xFF).setWidth 8 = v.setWidth 8 := by
  apply BitVec.eq_of_getLsbD_eq
  intro i hi
  simp only [BitVec.getLsbD_setWidth, BitVec.getLsbD_and]
  have hmask : ∀ i < 8, (0xFF : Word).getLsbD i = true := by decide
  rw [hmask i hi, Bool.and_true]

lemma low_ones {v : Word} : v &&& 0xFFF = 0xFFF ↔ v.toNat % 4096 = 4095 := by
  rw [← BitVec.toNat_inj, BitVec.toNat_and]
  exact iff_of_eq (congrArg (· = 4095) (Nat.and_two_pow_sub_one_eq_mod v.toNat 12))

/-- The refusal of the code. -/
lemma refused_iff : (source.limit > 65536 ∧ source.limit &&& 0xFFF ≠ 0xFFF) ↔ ¬ source.Admissible := by
  rw [ne_eq, low_ones, GdtStructured.Admissible, not_or, not_le]
  rfl

lemma encodeGdtEntry_none (h : ¬ source.Admissible) : encodeGdtEntry target source = none :=
  if_pos (refused_iff.2 h)

/-- The byte that the limit shares with the flags. -/
lemma flags_low {flags : Byte} (hflags : flags.setWidth 4 = (0 : BitVec 4)) (v : Word) :
    (flags ||| (v &&& 0x0F).setWidth 8).setWidth 4 = v.setWidth 4 := by
  have hmask : ∀ i < 4, (0x0F : Word).getLsbD i = true := by decide
  apply BitVec.eq_of_getLsbD_eq
  intro i hi
  have hclear := congrArg (BitVec.getLsbD · i) hflags
  simp only [BitVec.getLsbD_setWidth, BitVec.getLsbD_or, BitVec.getLsbD_and, hmask i hi] at hclear ⊢
  grind

lemma flags_high (flags : Byte) (v : Word) {i : ℕ} (hi : 4 ≤ i) :
    (flags ||| (v &&& 0x0F).setWidth 8).getLsbD i = flags.getLsbD i := by
  have hmask : ∀ i < 32, 4 ≤ i → (0x0F : Word).getLsbD i = false := by decide
  simp only [BitVec.getLsbD_setWidth, BitVec.getLsbD_or, BitVec.getLsbD_and]
  grind

lemma split_limit (v : Word) :
    (v >>> 16).setWidth 4 ++ (v >>> 8).setWidth 8 ++ v.setWidth 8 = v.setWidth 20 := by
  apply BitVec.eq_of_getLsbD_eq
  intro i hi
  simp only [BitVec.getLsbD_append, BitVec.getLsbD_setWidth, BitVec.getLsbD_ushiftRight]
  grind

/-- A limit of 20 bits and flags are read back. -/
lemma decode_fields {flags : Byte} {base limit : Word} {type : Byte} {entry : Entry}
    (hflags : flags.setWidth 4 = (0 : BitVec 4)) (h0 : entry 0 = (limit &&& 0xFF).setWidth 8)
    (h1 : entry 1 = (limit >>> 8 &&& 0xFF).setWidth 8)
    (h2 : entry 2 = (base &&& 0xFF).setWidth 8) (h3 : entry 3 = (base >>> 8 &&& 0xFF).setWidth 8)
    (h4 : entry 4 = (base >>> 16 &&& 0xFF).setWidth 8) (h5 : entry 5 = type)
    (h6 : entry 6 = flags ||| (limit >>> 16 &&& 0x0F).setWidth 8)
    (h7 : entry 7 = (base >>> 24 &&& 0xFF).setWidth 8) :
    decode entry = ⟨base, if flags.getLsbD 7 then limit.toNat % 2 ^ 20 * 4096 + 4095
      else limit.toNat % 2 ^ 20, type, flags.getLsbD 6⟩ := by
  have hbase : entry 7 ++ entry 4 ++ entry 3 ++ entry 2 = base := by
    rw [h7, h4, h3, h2]
    simp only [and_byte]
    exact append_bytes base
  have hlimit : (rawLimit entry).toNat = limit.toNat % 2 ^ 20 := by
    rw [rawLimit, h6, h1, h0, flags_low hflags]
    simp only [and_byte]
    rw [split_limit, BitVec.toNat_setWidth]
  have hgranular : granular entry = flags.getLsbD 7 := by
    rw [granular, h6, flags_high _ _ (by decide)]
  have hsize : (entry 6).getLsbD 6 = flags.getLsbD 6 := by
    rw [h6, flags_high _ _ (by decide)]
  rw [decode, hbase, hlimit, hgranular, hsize, h5]

/-- `encodeGdtEntry` of a limit it accepts. -/
lemma encodeGdtEntry_decode (h : source.Admissible) (target : Entry) :
    ∃ entry, encodeGdtEntry target source = some entry ∧ decode entry = source.segment := by
  rw [encodeGdtEntry, if_neg fun hrefused => refused_iff.1 hrefused h]
  refine ⟨_, rfl, ?_⟩
  rw [GdtStructured.segment]
  by_cases hgranular : source.limit > 65536
  · simp only [if_pos hgranular]
    rw [@decode_fields 0xC0 source.base (source.limit >>> 12) source.type _ (by decide) rfl rfl rfl rfl rfl rfl
      rfl rfl]
    have hlarge : 65536 < source.limit.toNat := hgranular
    have hends := h.resolve_left (by omega)
    have hlt := source.limit.isLt
    have hlimit : (source.limit >>> 12).toNat % 2 ^ 20 * 4096 + 4095 = source.limit.toNat := by
      rw [BitVec.toNat_ushiftRight, Nat.shiftRight_eq_div_pow]
      omega
    have hbits : (0xC0 : Byte).getLsbD 7 = true ∧ (0xC0 : Byte).getLsbD 6 = true := by decide
    rw [hbits.1, hbits.2, if_pos rfl, hlimit]
  · simp only [if_neg hgranular]
    rw [@decode_fields 0x40 source.base source.limit source.type _ (by decide) rfl rfl rfl rfl rfl rfl rfl rfl]
    have hsmall : ¬ 65536 < source.limit.toNat := hgranular
    have hlimit : source.limit.toNat % 2 ^ 20 = source.limit.toNat := by omega
    have hbits : (0x40 : Byte).getLsbD 7 = false ∧ (0x40 : Byte).getLsbD 6 = true := by decide
    rw [hbits.1, hbits.2, if_neg (by decide), hlimit]

/-- The loop gets through segments with admissible limits, and writes their entries only. -/
lemma gdtStructuredToGdtLoop_append (good rest : List GdtStructured) (hgood : ∀ source ∈ good, source.Admissible)
    (i : ℕ) (gdt : ℕ → Entry) :
    ∃ gdt', gdtStructuredToGdtLoop (good ++ rest) i gdt =
        gdtStructuredToGdtLoop rest (i + good.length) gdt' ∧
      (∀ j (hj : j < good.length), decode (gdt' (i + j)) = good[j].segment) ∧
      ∀ j, j < i ∨ i + good.length ≤ j → gdt' j = gdt j := by
  induction good generalizing i gdt with
  | nil => exact ⟨gdt, rfl, fun j hj => absurd hj (Nat.not_lt_zero j), fun _ _ => rfl⟩
  | cons source good ih =>
    obtain ⟨entry, hentry, hdecode⟩ := encodeGdtEntry_decode (hgood source (by simp)) (gdt i)
    obtain ⟨gdt', hloop, hwritten, hsame⟩ := ih (fun s hs => hgood s (by simp [hs])) (i + 1)
      (Function.update gdt i entry)
    rw [List.cons_append, gdtStructuredToGdtLoop, hentry]
    refine ⟨gdt', ?_, fun j hj => ?_, fun j hj => ?_⟩
    · rw [List.length_cons, Nat.add_comm good.length, ← Nat.add_assoc]
      exact hloop
    · cases j with
      | zero =>
        rw [Nat.add_zero, hsame i (by omega), Function.update_self]
        exact hdecode
      | succ j =>
        rw [← Nat.add_assoc, Nat.add_right_comm]
        exact hwritten j (by simpa using hj)
    · rw [List.length_cons] at hj
      rw [hsame j (by omega), Function.update_of_ne (by omega)]

/-- The descriptors of segments with admissible limits are read as these segments, in their order.
At a limit that is refused the kernel stops, and neither that entry nor one behind it is written. -/
theorem gdtStructuredToGdt_decodes (gdt : ℕ → Entry) (sources : List GdtStructured) :
    ((∀ source ∈ sources, source.Admissible) →
      ∃ gdt', gdtStructuredToGdt gdt sources = .ok gdt' ∧
        ∀ i (hi : i < sources.length), decode (gdt' i) = sources[i].segment) ∧
    ∀ i (hi : i < sources.length), ¬ sources[i].Admissible →
      ∃ gdt', gdtStructuredToGdt gdt sources = .error gdt' ∧ ∀ j ≥ i, gdt' j = gdt j := by
  constructor
  · intro h
    obtain ⟨gdt', hloop, hwritten, -⟩ := gdtStructuredToGdtLoop_append sources [] h 0 gdt
    rw [List.append_nil] at hloop
    refine ⟨gdt', hloop, fun i hi => ?_⟩
    rw [← hwritten i hi, Nat.zero_add]
  · intro i hi hbad
    -- the first limit that is refused
    have hsplit := List.takeWhile_append_dropWhile (p := fun source => decide source.Admissible) (l := sources)
    generalize hgood : sources.takeWhile (fun source => decide source.Admissible) = good at hsplit
    generalize hrest : sources.dropWhile (fun source => decide source.Admissible) = rest at hsplit
    have hall : ∀ source ∈ good, source.Admissible := fun source hs => by
      rw [← hgood] at hs
      simpa using List.mem_takeWhile_imp hs
    obtain ⟨gdt', hloop, -, hsame⟩ := gdtStructuredToGdtLoop_append good rest hall 0 gdt
    rw [hsplit] at hloop
    have hle : good.length ≤ i := by
      by_contra hlt
      refine hbad (hall _ ?_)
      simp only [← hsplit]
      rw [List.getElem_append_left (by omega)]
      exact List.getElem_mem _
    cases rest with
    | nil =>
      have hlength := congrArg List.length hsplit
      rw [List.append_nil] at hlength
      omega
    | cons source rest =>
      have hfirst : ¬ source.Admissible := by
        have hhead := List.head?_dropWhile_not (fun source => decide source.Admissible) sources
        rw [hrest] at hhead
        simpa using hhead
      refine ⟨gdt', ?_, fun j hj => hsame j (by omega)⟩
      rw [gdtStructuredToGdt, hloop, gdtStructuredToGdtLoop, encodeGdtEntry_none hfirst]

/-- The segments of `kernel.c`. The last one is the task state segment, whose record has 100 bytes. -/
def gdtStructured (tss : Word) : List GdtStructured :=
  [⟨0, 0, 0⟩, ⟨0, 0xFFFFFFFF, 0x9A⟩, ⟨0, 0xFFFFFFFF, 0x92⟩, ⟨0, 0xFFFFFFFF, 0xF8⟩,
    ⟨0, 0xFFFFFFFF, 0xF2⟩, ⟨tss, 100, 0xE9⟩]

lemma gdtStructured_admissible (tss : Word) : ∀ source ∈ gdtStructured tss, source.Admissible := by
  simp [gdtStructured, GdtStructured.Admissible]

theorem gdtStructuredToGdt_decodes_kernel :
    ∃ gdt', gdtStructuredToGdt (fun _ _ => 0) (gdtStructured 0x104000) = .ok gdt' ∧
      ∀ i (hi : i < 6), decode (gdt' i) = (gdtStructured 0x104000)[i].segment :=
  (gdtStructuredToGdt_decodes (fun _ _ => 0) (gdtStructured 0x104000)).1 (gdtStructured_admissible _)

end AlphaOS.Gdt
