import Mathlib

/-! Threads that take turns on one processor: each has a context of its own, and only the thread that
runs can change its context, but for what a resumption does to it. -/
namespace AlphaOS.Threads
open Function

/-- The threads in the order of their creation, the one that runs, and where each of them stands. -/
structure State (ι ρ : Type*) where
  live : List ι
  running : ι
  context : ι → ρ

variable {ι ρ : Type*} [DecidableEq ι]

/-- The running thread goes on. -/
def State.work (s : State ι ρ) (c : ρ) : State ι ρ :=
  { s with context := update s.context s.running c }

/-- A new thread starts with a context. -/
def State.spawn (s : State ι ρ) (t : ι) (c : ρ) : State ι ρ :=
  { s with live := s.live ++ [t], context := update s.context t c }

/-- A thread is resumed. -/
def State.switch (s : State ι ρ) (t : ι) (c : ρ) : State ι ρ :=
  { s with running := t, context := update s.context t c }

/-- The running thread goes on, and then a thread may be created. -/
inductive Works (s : State ι ρ) : State ι ρ → Prop
  | work (c : ρ) : Works s (s.work c)
  | spawn {t : ι} (ht : t ∉ s.live) (c c' : ρ) : Works s ((s.work c).spawn t c')

/-- After that the processor may be given to a thread, in a context that `resumes` allows. -/
inductive Turn (resumes : ρ → ρ → Prop) (s : State ι ρ) : State ι ρ → Prop
  | stay {s₁ : State ι ρ} (works : Works s s₁) : Turn resumes s s₁
  | switch {s₁ : State ι ρ} (works : Works s s₁) {t : ι} (ht : t ∈ s₁.live) {c : ρ}
      (hc : resumes (s₁.context t) c) : Turn resumes s (s₁.switch t c)

variable {resumes : ρ → ρ → Prop} {s s' s'' : State ι ρ} {t : ι}

lemma Works.live (h : Works s s') : s.live <+: s'.live := by
  cases h with
  | work c => exact List.prefix_refl _
  | spawn ht c c' => exact List.prefix_append _ _

lemma Works.running (h : Works s s') : s'.running = s.running := by
  cases h <;> rfl

/-- Work and creation leave the other threads as they are. -/
lemma Works.context (h : Works s s') (ht : t ∈ s.live) (hne : t ≠ s.running) :
    s'.context t = s.context t := by
  cases h with
  | work c => simp [State.work, hne]
  | @spawn u hu c c' =>
    have htu : t ≠ u := by
      rintro rfl
      exact hu ht
    simp [State.work, State.spawn, hne, htu]

lemma Works.nodup (h : Works s s') (hs : s.live.Nodup) : s'.live.Nodup := by
  cases h with
  | work c => exact hs
  | spawn ht c c' => simpa [State.work, State.spawn] using hs.concat ht

lemma Turn.live (h : Turn resumes s s') : s.live <+: s'.live := by
  cases h with
  | stay works => exact works.live
  | switch works ht hc => exact works.live

/-- A thread that waits is left alone, or it is the next one. -/
lemma Turn.context (h : Turn resumes s s') (ht : t ∈ s.live) (hne : t ≠ s.running) :
    t ≠ s'.running ∧ s'.context t = s.context t ∨
      t = s'.running ∧ resumes (s.context t) (s'.context t) := by
  cases h with
  | stay works =>
    refine .inl ⟨?_, works.context ht hne⟩
    rwa [works.running]
  | @switch s₁ works u hu c hc =>
    have hkept := works.context ht hne
    by_cases htu : t = u
    · subst htu
      refine .inr ⟨rfl, ?_⟩
      simpa [State.switch, ← hkept] using hc
    · exact .inl ⟨htu, by simpa [State.switch, htu] using hkept⟩

/-- A thread that waits from `s` to `s'`. -/
inductive Waits (resumes : ρ → ρ → Prop) (t : ι) (s : State ι ρ) : State ι ρ → Prop
  | refl (hne : t ≠ s.running) : Waits resumes t s s
  | tail {s₁ s₂ : State ι ρ} (waits : Waits resumes t s s₁) (turn : Turn resumes s₁ s₂)
      (hne : t ≠ s₂.running) : Waits resumes t s s₂

lemma Waits.live (h : Waits resumes t s s') : s.live <+: s'.live := by
  induction h with
  | refl hne => exact List.prefix_refl _
  | tail waits turn hne ih => exact ih.trans turn.live

lemma Waits.start_ne (h : Waits resumes t s s') : t ≠ s.running := by
  induction h with
  | refl hne => exact hne
  | tail waits turn hne ih => exact ih

lemma Waits.ne (h : Waits resumes t s s') : t ≠ s'.running := by
  cases h with
  | refl hne => exact hne
  | tail waits turn hne => exact hne

/-- Whatever the others do, it stays where it was. -/
theorem Waits.context (h : Waits resumes t s s') (ht : t ∈ s.live) : s'.context t = s.context t := by
  induction h with
  | refl hne => rfl
  | tail waits turn hne ih =>
    rcases turn.context (waits.live.subset ht) waits.ne with ⟨-, hsame⟩ | ⟨hrun, -⟩
    · exact hsame.trans ih
    · exact absurd hrun hne

/-- And when it gets the processor it goes on from there. -/
theorem Waits.resumed (h : Waits resumes t s s') (ht : t ∈ s.live) (turn : Turn resumes s' s'')
    (hrun : t = s''.running) : resumes (s.context t) (s''.context t) := by
  rw [← h.context ht]
  rcases turn.context (h.live.subset ht) h.ne with ⟨hne, -⟩ | ⟨-, hres⟩
  · exact absurd hrun hne
  · exact hres

end AlphaOS.Threads
