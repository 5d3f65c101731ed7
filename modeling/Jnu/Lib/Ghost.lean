import Jnu.Lib.Effect

namespace Jnu.Lib.Effect

variable {φ ε σ τ α β : Type} {put : τ → σ → τ} {f' : α → Prog φ ε τ β} {f : α → Prog φ ε σ β} {t t' : τ}

-- A program on a part of the state, in two steps. The part is a lens.
theorem zoom_bind {get : τ → σ} (hget : ∀ t s, get (put t s) = s)
    (hput : ∀ t s s', put (put t s) s' = put t s') (m : Prog φ ε σ α) (f : α → Prog φ ε σ β) :
    (m >>= f).zoom get put = m.zoom get put >>= fun a => (f a).zoom get put := by
  funext t
  show (m >>= f).zoom get put t = Prog.run (m.zoom get put >>= fun a => (f a).zoom get put) t
  rw [run_bind]
  have hb := run_bind m f (get t)
  unfold Prog.run at hb ⊢
  unfold Prog.zoom
  rw [hb]
  cases m (get t) with
  | none => rfl
  | some r =>
    cases r with
    | error x => rfl
    | ok p =>
      obtain ⟨r, s'⟩ := p
      cases r with
      | error e => rfl
      | ok a =>
        dsimp only
        rw [hget]
        cases f a s' with
        | none => rfl
        | some r =>
          cases r with
          | error x => rfl
          | ok p => simp only [hput]

-- What is left of an outcome when the state is cut down to the part `π`.
def forget (π : τ → σ) :
    Option (Except φ (Except ε α × τ)) → Option (Except φ (Except ε α × σ))
  | none => none
  | some (.error x) => some (.error x)
  | some (.ok (r, t)) => some (.ok (r, π t))

-- A program that keeps notes does what the program without them does, unless it gives up with a note that
-- is in `stop`.
def Erases (stop : τ → Prop) (π : τ → σ) (m' : Prog φ ε τ α) (m : Prog φ ε σ α) : Prop :=
  ∀ t, (∃ e t', m'.run t = some (.ok (.error e, t')) ∧ stop t') ∨ forget π (m'.run t) = m.run (π t)

namespace Erases

variable {stop : τ → Prop} {π : τ → σ} {m' rest : Prog φ ε τ α} {m : Prog φ ε σ α}

theorem pure (a : α) : Erases stop π (Pure.pure a : Prog φ ε τ α) (Pure.pure a) := fun _ => .inr rfl

theorem bind (h : Erases stop π m' m) (hf : ∀ a, Erases stop π (f' a) (f a)) :
    Erases stop π (m' >>= f') (m >>= f) := by
  intro t
  rw [run_bind, run_bind]
  rcases h t with ⟨e, t', hr, hs⟩ | h
  · exact .inl ⟨e, t', by rw [hr], hs⟩
  rw [← h]
  cases hr : m'.run t with
  | none => exact .inr rfl
  | some r =>
    cases r with
    | error x => exact .inr rfl
    | ok p =>
      obtain ⟨r, t'⟩ := p
      cases r with
      | error e => exact .inr rfl
      | ok a => exact hf a t'

theorem note {f : τ → τ} (hf : ∀ t, π (f t) = π t) (h : Erases stop π rest m) :
    Erases stop π (Prog.write f >>= fun _ => rest) m := by
  intro t
  rw [run_bind_ok (show (Prog.write f : Prog φ ε τ Unit).run t = done () (f t) from rfl), ← hf t]
  exact h (f t)

theorem noted {f : τ → τ} {m' : Prog φ ε τ Unit} {m : Prog φ ε σ Unit} (h : Erases stop π m' m)
    (hf : ∀ t, π (f t) = π t) : Erases stop π (m' >>= fun _ => Prog.write f) m := by
  have hlast : Erases stop π (Prog.write f) (Pure.pure () : Prog φ ε σ Unit) := by
    intro t
    right
    show done () (π (f t)) = done () (π t)
    rw [hf]
  have hb := h.bind fun _ => hlast
  rwa [bind_pure_unit] at hb

theorem stopped {f : τ → τ} {e : ε} (hf : ∀ t, stop (f t)) :
    Erases stop π (Prog.write f >>= fun _ => Prog.error e) m :=
  fun t => .inl ⟨e, f t, rfl, hf t⟩

theorem zoom (hput : ∀ t s, π (put t s) = s) : Erases stop π (m.zoom π put) m := by
  intro t
  unfold Prog.run Prog.zoom
  cases m (π t) with
  | none => exact .inr rfl
  | some r =>
    cases r with
    | error x => exact .inr rfl
    | ok p =>
      simp only [forget, hput]
      exact .inr trivial

theorem run_eq {r : Except ε α} (h : Erases stop π m' m) (hr : m'.run t = some (.ok (r, t'))) :
    stop t' ∨ m.run (π t) = some (.ok (r, π t')) := by
  rcases h t with ⟨e, t'', hr', hs⟩ | h
  · cases hr.symm.trans hr'
    exact .inl hs
  · rw [← h, hr]
    exact .inr rfl

theorem wp {Q : α → σ → Prop} {E : ε → σ → Prop} (h : Erases stop π m' m)
    (hw : Effect.wp m' (fun a t' => Q a (π t')) (fun e t' => ¬ stop t' ∧ E e (π t')) t) :
    Effect.wp m Q E (π t) := by
  rcases hw with ⟨a, t', hr, hq⟩ | ⟨e, t', hr, hs, he⟩
  · rcases h t with ⟨e, t'', hr', -⟩ | h
    · cases hr.symm.trans hr'
    · exact .inl ⟨a, π t', by rw [← h, hr]; rfl, hq⟩
  · exact .inr ⟨e, π t', (h.run_eq hr).resolve_left hs, he⟩

end Erases

end Jnu.Lib.Effect
