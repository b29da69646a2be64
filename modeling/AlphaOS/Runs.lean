import Mathlib

/-! Runs of a partial step function over the inputs it is given, and what holds along them. -/
namespace AlphaOS.Runs

/-- The states that allowed inputs lead to, one input after the other. -/
inductive Run {σ ι : Type*} (step : σ → ι → Option σ) (C : σ → ι → Prop) (s₀ : σ) :
    List ι → σ → Prop
  | start : Run step C s₀ [] s₀
  | step {is : List ι} {s : σ} (run : Run step C s₀ is s) (i : ι) (s' : σ) (allowed : C s i)
      (next : step s i = some s') : Run step C s₀ (is ++ [i]) s'

variable {σ τ ι : Type*} {step : σ → ι → Option σ} {C : σ → ι → Prop} {s₀ s s' : σ} {is js : List ι}

theorem Run.invariant {P : σ → Prop} (run : Run step C s₀ is s) (start : P s₀)
    (keep : ∀ s i s', P s → C s i → step s i = some s' → P s') : P s := by
  induction run with
  | start => exact start
  | step run i s' allowed next ih => exact keep _ i s' ih allowed next

theorem Run.simulates {R : σ → τ → Prop} {T : τ → τ → Prop} {t₀ : τ} (run : Run step C s₀ is s)
    (start : R s₀ t₀) (keep : ∀ s i s' t, R s t → C s i → step s i = some s' →
      ∃ t', Relation.ReflTransGen T t t' ∧ R s' t') :
    ∃ t, Relation.ReflTransGen T t₀ t ∧ R s t := by
  induction run with
  | start => exact ⟨t₀, .refl, start⟩
  | step run i s' allowed next ih =>
    obtain ⟨t, hrun, hR⟩ := ih
    obtain ⟨t', hmore, hR'⟩ := keep _ i s' t hR allowed next
    exact ⟨t', hrun.trans hmore, hR'⟩

theorem Run.append (run : Run step C s₀ is s) (more : Run step C s js s') :
    Run step C s₀ (is ++ js) s' := by
  induction more with
  | start => simpa using run
  | step more i s' allowed next ih =>
    rw [← List.append_assoc]
    exact ih.step i s' allowed next

/-! Calls that give an output, and what another machine answers to them. -/

section Calls
variable {ω : Type*} {call : σ → ι → Option (ω × σ)} {A : τ → ι → ω → τ → Prop} {t : τ}

/-- Calls one after the other: what they give, and the last state. -/
def calls (call : σ → ι → Option (ω × σ)) : List ι → σ → Option (List ω × σ)
  | [], s => some ([], s)
  | i :: is, s => (call s i).bind fun r => (calls call is r.2).map fun rest => (r.1 :: rest.1, rest.2)

def AllAllowed (call : σ → ι → Option (ω × σ)) (C : σ → ι → Prop) : List ι → σ → Prop
  | [], _ => True
  | i :: is, s => C s i ∧ ∀ r, call s i = some r → AllAllowed call C is r.2

/-- The other machine may give these outputs. -/
inductive Answered (A : τ → ι → ω → τ → Prop) : τ → List ι → List ω → τ → Prop
  | nil (t : τ) : Answered A t [] [] t
  | cons {t t' t'' : τ} {i : ι} {is : List ι} {o : ω} {os : List ω} (answer : A t i o t')
      (rest : Answered A t' is os t'') : Answered A t (i :: is) (o :: os) t''

/-- Allowed calls that are each matched return, with outputs of the other machine. -/
theorem calls_refine {R : σ → τ → Prop} (hmatch : ∀ s t i, R s t → C s i →
      ∃ o s' t', call s i = some (o, s') ∧ A t i o t' ∧ R s' t')
    (hallowed : AllAllowed call C is s) (hR : R s t) :
    ∃ os s' t', calls call is s = some (os, s') ∧ Answered A t is os t' ∧ R s' t' := by
  induction is generalizing s t with
  | nil => exact ⟨[], s, t, rfl, .nil t, hR⟩
  | cons i is ih =>
    obtain ⟨hfirst, hrest⟩ := hallowed
    obtain ⟨o, s', t', hcall, hanswer, hR'⟩ := hmatch s t i hR hfirst
    obtain ⟨os, s'', t'', hcalls, hanswers, hR''⟩ := ih (hrest (o, s') hcall) hR'
    exact ⟨o :: os, s'', t'', by simp [calls, hcall, hcalls], .cons hanswer hanswers, hR''⟩

end Calls

end AlphaOS.Runs
