import BulbOS.Lib.Run

/-!
# Calls that may stop

A call is an `Except` value: the error says why it does not return.

* `ok_bind`, `eq_ok_of_bind`: a sequence of calls that returns is made of calls that return;
* `eq_ok_of_toOption`: the result of a call that returns;
* `foldlM_invariant`: what every round of a loop keeps holds after it;
* `bind_eq_map`, `ite_eq_map`, `foldlM_eq_map`: calls whose steps agree up to a function agree up to it;
* `exists_run`: a run of allowed calls that return, and what holds after it, by evaluation.
-/

namespace KLib

variable {ε α β σ : Type}

theorem ok_bind (a : α) (f : α → Except ε β) : (Except.ok a >>= f) = f a := rfl

theorem eq_ok_of_bind {x : Except ε α} {f : α → Except ε β} {b : β} (h : x >>= f = .ok b) :
    ∃ a, x = .ok a ∧ f a = .ok b := by
  cases x with
  | error e => cases h
  | ok a => exact ⟨a, rfl, h⟩

theorem eq_ok_of_toOption {x : Except ε α} {a : α} (h : x.toOption = some a) : x = .ok a := by
  cases x with
  | error e => cases h
  | ok b => cases h; rfl

theorem foldlM_invariant {I : σ → Prop} {f : σ → α → Except ε σ} {l : List α}
    (hstep : ∀ s a s', a ∈ l → I s → f s a = .ok s' → I s') {s s' : σ} (h : l.foldlM f s = .ok s')
    (h₀ : I s) : I s' := by
  induction l generalizing s with
  | nil => cases h; exact h₀
  | cons a l ih =>
    rw [List.foldlM_cons] at h
    obtain ⟨s₁, h₁, h₂⟩ := eq_ok_of_bind h
    exact ih (fun s a s' ha => hstep s a s' (List.mem_cons_of_mem _ ha)) h₂
      (hstep _ _ _ List.mem_cons_self h₀ h₁)

theorem bind_eq_map {α' β' : Type} {g : α → α'} {k : β → β'} {x : Except ε α} {x' : Except ε α'} {f : α → Except ε β}
    {f' : α' → Except ε β'} (hx : x' = x.map g) (hf : ∀ a, f' (g a) = (f a).map k) : x' >>= f' = (x >>= f).map k := by
  subst hx
  cases x with
  | error e => rfl
  | ok a => exact hf a

theorem bind_eq_map_self {β' : Type} {k : β → β'} {f : α → Except ε β} {f' : α → Except ε β'} (x : Except ε α)
    (hf : ∀ a, f' a = (f a).map k) : x >>= f' = (x >>= f).map k := by
  cases x with
  | error e => rfl
  | ok a => exact hf a

theorem ite_eq_map {β' : Type} {k : β → β'} {c : Prop} [Decidable c] {x y : Except ε β} {x' y' : Except ε β'}
    (hx : c → x' = x.map k) (hy : ¬ c → y' = y.map k) : (if c then x' else y') = (if c then x else y).map k := by
  by_cases h : c
  · rw [if_pos h, if_pos h, hx h]
  · rw [if_neg h, if_neg h, hy h]

theorem foldlM_eq_map {g : σ → σ} {f : σ → α → Except ε σ} (hf : ∀ s a, f (g s) a = (f s a).map g) (l : List α)
    (s : σ) :
    l.foldlM f (g s) = (l.foldlM f s).map g := by
  induction l generalizing s with
  | nil => rfl
  | cons a l ih =>
    rw [List.foldlM_cons, List.foldlM_cons]
    exact bind_eq_map (hf s a) ih

/-- The call, if it is allowed and returns. -/
def tryStep (legal : σ → α → Prop) [∀ s a, Decidable (legal s a)] (step : σ → α → Except ε σ) (s : σ) (a : α) :
    Option σ :=
  if legal s a then (step s a).toOption else none

theorem exists_run (legal : σ → α → Prop) [∀ s a, Decidable (legal s a)] (step : σ → α → Except ε σ) (s : σ)
    (as : List α) (p : σ → Bool) (h : (as.foldlM (tryStep legal step) s).any p = true) :
    ∃ s', Run (fun s a s' => legal s a ∧ step s a = .ok s') s as s' ∧ p s' = true := by
  obtain ⟨s', hs, hp⟩ : ∃ s', as.foldlM (tryStep legal step) s = some s' ∧ p s' = true := by
    cases hs : as.foldlM (tryStep legal step) s with
    | none => rw [hs] at h; cases h
    | some s' => rw [hs] at h; exact ⟨s', rfl, h⟩
  refine ⟨s', run_of_foldlM (fun s a s' ht => ?_) hs, hp⟩
  unfold tryStep at ht
  split_ifs at ht with hl
  exact ⟨hl, eq_ok_of_toOption ht⟩

end KLib
