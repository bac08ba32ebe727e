import Mathlib.Data.List.Basic

/-!
# Labelled runs

A system is a relation `step s a s'` between a state, the operation performed and the state after
it. `Run step s as s'` says that the operations `as`, performed in order from `s`, lead to `s'`.

* `Run.invariant`: what holds at the start and is kept by every step holds after every run;
* `Run.simulate`: a relation kept by every step matches the runs of two systems;
* `Run.iff_of_step`, `Run.iff_of_cond`: if every step keeps an invariant exactly under a condition, then so does
  every run;
* `Run.append`, `Run.single`, `Run.snoc`, `Run.of_append`, `Run.mono`: how runs compose;
* `run_of_foldlM`: a run computed by a function.
-/

namespace KLib

variable {σ α : Type} {step : σ → α → σ → Prop}

/-- The operations `as`, performed in order from `s`, lead to `s'`. -/
inductive Run (step : σ → α → σ → Prop) : σ → List α → σ → Prop
  | nil (s : σ) : Run step s [] s
  | cons {s s' s'' : σ} {a : α} {as : List α} (h : step s a s') (t : Run step s' as s'') :
      Run step s (a :: as) s''

/-- **Invariant rule.** -/
theorem Run.invariant {I : σ → Prop} (hstep : ∀ s a s', I s → step s a s' → I s') {s s' : σ}
    {as : List α} (h : Run step s as s') (h₀ : I s) : I s' := by
  induction h with
  | nil s => exact h₀
  | cons h _ ih => exact ih (hstep _ _ _ h₀ h)

theorem Run.mono {step' : σ → α → σ → Prop} (hstep : ∀ s a s', step s a s' → step' s a s') {s s' : σ}
    {as : List α} (h : Run step s as s') : Run step' s as s' := by
  induction h with
  | nil s => exact .nil s
  | cons h _ ih => exact .cons (hstep _ _ _ h) ih

/-- **Exact condition of a property of the states reached**, with an invariant of the runs that meet it. -/
theorem Run.iff_of_cond {J I : σ → Prop} {C : σ → α → Prop} (hJ : ∀ s a s', J s → step s a s' → C s a → J s')
    (hstep : ∀ s a s', J s → step s a s' → (I s' ↔ C s a)) {s s' : σ} {as : List α} (h₀ : J s) :
    Run (fun s a s' => step s a s' ∧ I s') s as s' ↔ Run (fun s a s' => step s a s' ∧ C s a) s as s' := by
  constructor
  · intro h
    induction h with
    | nil s => exact .nil s
    | cons h _ ih =>
      have hc := (hstep _ _ _ h₀ h.1).mp h.2
      exact .cons ⟨h.1, hc⟩ (ih (hJ _ _ _ h₀ h.1 hc))
  · intro h
    induction h with
    | nil s => exact .nil s
    | cons h _ ih => exact .cons ⟨h.1, (hstep _ _ _ h₀ h.1).mpr h.2⟩ (ih (hJ _ _ _ h₀ h.1 h.2))

/-- **Exact condition of an invariant**, beside one that every step keeps. -/
theorem Run.iff_of_step {J I : σ → Prop} {C : σ → α → Prop} (hJ : ∀ s a s', J s → step s a s' → J s')
    (hstep : ∀ s a s', J s → I s → step s a s' → (I s' ↔ C s a)) {s s' : σ} {as : List α} (hJ₀ : J s) (h₀ : I s) :
    Run (fun s a s' => step s a s' ∧ I s') s as s' ↔ Run (fun s a s' => step s a s' ∧ C s a) s as s' :=
  Run.iff_of_cond (J := fun s => J s ∧ I s)
    (fun s a s' h hs hc => ⟨hJ s a s' h.1 hs, (hstep s a s' h.1 h.2 hs).mpr hc⟩)
    (fun s a s' h hs => hstep s a s' h.1 h.2 hs) ⟨hJ₀, h₀⟩

theorem Run.single {s s' : σ} {a : α} (h : step s a s') : Run step s [a] s' :=
  .cons h (.nil s')

theorem Run.append {s s' s'' : σ} {as bs : List α} (h : Run step s as s')
    (h' : Run step s' bs s'') : Run step s (as ++ bs) s'' := by
  induction h with
  | nil s => exact h'
  | cons h _ ih => exact .cons h (ih h')

theorem Run.snoc {s s' s'' : σ} {as : List α} {a : α} (h : Run step s as s')
    (h' : step s' a s'') : Run step s (as ++ [a]) s'' :=
  h.append (.single h')

theorem Run.of_append {s s'' : σ} {as bs : List α} (h : Run step s (as ++ bs) s'') :
    ∃ s', Run step s as s' ∧ Run step s' bs s'' := by
  induction as generalizing s with
  | nil => exact ⟨s, .nil s, h⟩
  | cons a as ih =>
    rw [List.cons_append] at h
    cases h with
    | cons hs ht =>
      obtain ⟨s', h₁, h₂⟩ := ih ht
      exact ⟨s', .cons hs h₁, h₂⟩

/-- **Simulation rule.** A run is matched by a run with the same labels, ending in related states. -/
theorem Run.simulate {τ : Type} {step' : τ → α → τ → Prop} {R : σ → τ → Prop}
    (hstep : ∀ s t a s', R s t → step s a s' → ∃ t', step' t a t' ∧ R s' t') {s s' : σ} {t : τ}
    {as : List α} (h : Run step s as s') (h₀ : R s t) : ∃ t', Run step' t as t' ∧ R s' t' := by
  induction h generalizing t with
  | nil s => exact ⟨t, .nil t, h₀⟩
  | cons h _ ih =>
    obtain ⟨t₁, h₁, hr⟩ := hstep _ _ _ _ h₀ h
    obtain ⟨t₂, h₂, hr'⟩ := ih hr
    exact ⟨t₂, .cons h₁ h₂, hr'⟩

theorem run_of_foldlM {f : σ → α → Option σ} (hf : ∀ s a s', f s a = some s' → step s a s') {s s' : σ}
    {as : List α} (h : as.foldlM f s = some s') : Run step s as s' := by
  induction as generalizing s with
  | nil => cases h; exact .nil _
  | cons a as ih =>
    rw [List.foldlM_cons] at h
    obtain ⟨s₁, h₁, h₂⟩ := Option.bind_eq_some_iff.mp h
    exact .cons (hf _ _ _ h₁) (ih h₂)

end KLib
