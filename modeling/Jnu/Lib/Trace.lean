import Mathlib

namespace Jnu.Lib.Trace

-- For the samples, whose tasks are `Fin 2`.
instance two_tasks : NeZero 2 := ⟨by decide⟩

variable {σ α ι κ : Type} {step step' : σ → ι → σ → Prop} {s s' s'' : σ} {l l' : List ι} {e : ι}

-- The runs of a system. A step has a label that says what happened in it.
inductive Run (step : σ → ι → σ → Prop) (s : σ) : List ι → σ → Prop
  | nil : Run step s [] s
  | snoc {s' s'' : σ} {l : List ι} {e : ι} :
      Run step s l s' → step s' e s'' → Run step s (l ++ [e]) s''

namespace Run

theorem one (h : step s e s') : Run step s [e] s' := .snoc .nil h

theorem of_one (h : Run step s [e] s') : step s e s' := by
  generalize hl : [e] = l at h
  cases h with
  | nil => cases hl
  | snoc hrun he =>
    obtain ⟨rfl, hl'⟩ := (List.append_eq_singleton_iff.1 hl.symm).resolve_right (by simp)
    cases hl'
    generalize hnil : [] = l' at hrun
    cases hrun with
    | nil => exact he
    | snoc => simp at hnil

theorem cons (he : step s e s') (h : Run step s' l s'') : Run step s (e :: l) s'' := by
  induction h with
  | nil => exact one he
  | snoc _ he' ih => exact ih.snoc he'

theorem append (h : Run step s l s') (h' : Run step s' l' s'') : Run step s (l ++ l') s'' := by
  induction h' with
  | nil =>
    rw [List.append_nil]
    exact h
  | snoc _ he ih =>
    rw [← List.append_assoc]
    exact ih.snoc he

-- A system whose steps are a function can be run.
theorem of_foldlM {f : σ → ι → Option σ} (h : l.foldlM f s = some s') :
    Run (fun s e s' => f s e = some s') s l s' := by
  induction l generalizing s with
  | nil =>
    cases h
    exact .nil
  | cons e l ih =>
    obtain ⟨t, he, hl⟩ := Option.bind_eq_some_iff.1 h
    exact cons he (ih hl)

-- What every step keeps, every run keeps.
theorem invariant {I : σ → Prop} (h : Run step s l s') (h0 : I s)
    (hstep : ∀ s e s', I s → step s e s' → I s') : I s' := by
  induction h with
  | nil => exact h0
  | snoc _ he ih => exact hstep _ _ _ ih he

-- An abstract state that follows every step follows every run.
theorem follows {f : α → ι → α} {r : α → σ → Prop} {a : α} (h : Run step s l s') (h0 : r a s)
    (hstep : ∀ a s e s', r a s → step s e s' → r (f a e) s') : r (l.foldl f a) s' := by
  induction h with
  | nil => exact h0
  | snoc _ he ih =>
    rw [List.foldl_append]
    exact hstep _ _ _ _ ih he

-- A run of another system, with other labels.
theorem map {step' : σ → κ → σ → Prop} (f : ι → κ) (h : Run step s l s')
    (hstep : ∀ s e s', e ∈ l → step s e s' → step' s (f e) s') : Run step' s (l.map f) s' := by
  induction h with
  | nil => exact .nil
  | snoc _ he ih =>
    rw [List.map_append]
    refine .snoc (ih fun s e s' hmem => hstep s e s' (List.mem_append_left _ hmem)) ?_
    exact hstep _ _ _ (List.mem_append_right _ List.mem_cons_self) he

theorem mono (h : Run step s l s')
    (hstep : ∀ s e s', e ∈ l → step s e s' → step' s e s') : Run step' s l s' := by
  have h' := h.map id hstep
  rwa [List.map_id] at h'

end Run

end Jnu.Lib.Trace
