import Mathlib

namespace Jnu.Lib.Effect

-- Programs on a state `σ` that return a value or an error code `ε`, stop with a fault `φ`, or have no
-- outcome (an endless loop, a null dereference).
abbrev Prog (φ ε σ : Type) := ExceptT ε (StateT σ (ExceptT φ Option))

variable {φ ε σ τ α β : Type} {c : Prop} {get : τ → σ} {put : τ → σ → τ} {t : τ}

namespace Prog

def run (m : Prog φ ε σ α) (s : σ) : Option (Except φ (Except ε α × σ)) := m s

def halt (f : φ) : Prog φ ε σ α := fun _ => some (.error f)

def error (e : ε) : Prog φ ε σ α := fun s => some (.ok (.error e, s))

def read (f : σ → α) : Prog φ ε σ α := fun s => some (.ok (.ok (f s), s))

def write (f : σ → σ) : Prog φ ε σ Unit := fun s => some (.ok (.ok (), f s))

def known (o : Option α) : Prog φ ε σ α := fun s => o.map fun a => .ok (.ok a, s)

-- The error code of a call as a value, for callers that look at it.
def attempt (m : Prog φ ε σ α) : Prog φ ε σ (Except ε α) := fun s =>
  match m s with
  | none => none
  | some (.error f) => some (.error f)
  | some (.ok (r, s')) => some (.ok (.ok r, s'))

-- A program on a part of the state.
def zoom (get : τ → σ) (put : τ → σ → τ) (m : Prog φ ε σ α) : Prog φ ε τ α := fun t =>
  match m (get t) with
  | none => none
  | some (.error f) => some (.error f)
  | some (.ok (r, s')) => some (.ok (r, put t s'))

-- `f 0`, then `f 1`, up to `f (n - 1)`.
def forRange (f : Nat → Prog φ ε σ Unit) : Nat → Prog φ ε σ Unit
  | 0 => pure ()
  | n + 1 => do
      forRange f n
      f n

end Prog

-- A value comes out, or no error code.
abbrev done (a : α) (s : σ) : Option (Except φ (Except ε α × σ)) := some (.ok (.ok a, s))

abbrev never : ε → σ → Prop := fun _ _ => False

-- The program ends without a fault, with `Q` for a value or `E` for an error code.
def wp (m : Prog φ ε σ α) (Q : α → σ → Prop) (E : ε → σ → Prop) (s : σ) : Prop :=
  (∃ a s', m.run s = some (.ok (.ok a, s')) ∧ Q a s') ∨
    ∃ e s', m.run s = some (.ok (.error e, s')) ∧ E e s'

section rules

variable {m m' : Prog φ ε σ α} {Q Q' : α → σ → Prop} {E E' : ε → σ → Prop} {s : σ}
variable {a : α} {s' : σ} {e : ε} {f : α → Prog φ ε σ β} {o : Option α}

theorem wp.mono (h : wp m Q E s) (hQ : ∀ a s', Q a s' → Q' a s')
    (hE : ∀ e s', E e s' → E' e s') : wp m Q' E' s := by
  rcases h with ⟨a, s', hr, hq⟩ | ⟨e, s', hr, he⟩
  · exact .inl ⟨a, s', hr, hQ a s' hq⟩
  · exact .inr ⟨e, s', hr, hE e s' he⟩

theorem wp.post (h : wp m Q E s) (hQ : ∀ a s', Q a s' → Q' a s') : wp m Q' E s :=
  h.mono hQ fun _ _ he => he

theorem wp.any (h : wp m Q never s) : wp m Q E s :=
  h.mono (fun _ _ hq => hq) fun _ _ => False.elim

theorem wp.of_ok (h : wp m Q E s) (hr : m.run s = done a s') : Q a s' := by
  rcases h with ⟨_, _, hr', hq⟩ | ⟨_, _, hr', -⟩
  · cases hr.symm.trans hr'
    exact hq
  · cases hr.symm.trans hr'

theorem wp.of_error (h : wp m Q E s) (hr : m.run s = some (.ok (.error e, s'))) : E e s' := by
  rcases h with ⟨_, _, hr', -⟩ | ⟨_, _, hr', he⟩
  · cases hr.symm.trans hr'
  · cases hr.symm.trans hr'
    exact he

theorem wp.exists_ok (h : wp m Q never s) :
    ∃ a s', m.run s = done a s' ∧ Q a s' :=
  h.resolve_right fun ⟨_, _, _, he⟩ => he

theorem wp_pure (h : Q a s) : wp (pure a : Prog φ ε σ α) Q E s := .inl ⟨a, s, rfl, h⟩

theorem wp_error (h : E e s) : wp (Prog.error e : Prog φ ε σ α) Q E s :=
  .inr ⟨e, s, rfl, h⟩

theorem wp_read {f : σ → α} (h : Q (f s) s) : wp (Prog.read f : Prog φ ε σ α) Q E s :=
  .inl ⟨f s, s, rfl, h⟩

theorem wp_write {f : σ → σ} {Q : Unit → σ → Prop} (h : Q () (f s)) :
    wp (Prog.write f : Prog φ ε σ Unit) Q E s := .inl ⟨(), f s, rfl, h⟩

theorem wp_ite [Decidable c] (ht : c → wp m Q E s) (hf : ¬ c → wp m' Q E s) :
    wp (if c then m else m') Q E s := by
  by_cases h : c
  · rw [if_pos h]
    exact ht h
  · rw [if_neg h]
    exact hf h

@[simp] theorem run_pure (a : α) (s : σ) :
    (pure a : Prog φ ε σ α).run s = done a s := rfl

@[simp] theorem run_read (f : σ → α) (s : σ) :
    (Prog.read f : Prog φ ε σ α).run s = done (f s) s := rfl

theorem run_known {s : σ} (h : o = some a) :
    (Prog.known o : Prog φ ε σ α).run s = done a s := by
  rw [h]
  rfl

theorem run_bind (m : Prog φ ε σ α) (f : α → Prog φ ε σ β) (s : σ) :
    (m >>= f).run s = match m.run s with
      | none => none
      | some (.error x) => some (.error x)
      | some (.ok (.error e, s')) => some (.ok (.error e, s'))
      | some (.ok (.ok a, s')) => (f a).run s' := by
  simp only [Prog.run, bind, ExceptT.bind, ExceptT.mk, StateT.bind]
  cases m s with
  | none => rfl
  | some r =>
    cases r with
    | error x => rfl
    | ok p =>
      obtain ⟨r, s'⟩ := p
      cases r <;> rfl

theorem run_bind_ok (h : m.run s = done a s') :
    (m >>= f).run s = (f a).run s' := by rw [run_bind, h]

theorem wp_bind {Q : β → σ → Prop} (h : wp m (fun a s' => wp (f a) Q E s') E s) : wp (m >>= f) Q E s := by
  rcases h with ⟨a, s', hr, hq⟩ | ⟨e, s', hr, he⟩
  · have hb : (m >>= f).run s = (f a).run s' := by rw [run_bind, hr]
    rcases hq with ⟨b, s'', hb', hq'⟩ | ⟨e, s'', hb', he⟩
    · exact .inl ⟨b, s'', hb.trans hb', hq'⟩
    · exact .inr ⟨e, s'', hb.trans hb', he⟩
  · exact .inr ⟨e, s', by rw [run_bind, hr], he⟩

theorem wp.bind {Q' : β → σ → Prop} (h : wp m Q E s)
    (hQ : ∀ a s', Q a s' → wp (f a) Q' E' s') (hE : ∀ e s', E e s' → E' e s') : wp (m >>= f) Q' E' s :=
  wp_bind (h.mono hQ hE)

theorem wp.next {Q' : β → σ → Prop} (h : wp m Q E s) (hQ : ∀ a s', Q a s' → wp (f a) Q' E s') :
    wp (m >>= f) Q' E s :=
  wp_bind (h.post hQ)

theorem wp_bind_ok {Q : β → σ → Prop}
    (hr : m.run s = done a s') (h : wp (f a) Q E s') : wp (m >>= f) Q E s :=
  wp_bind (.inl ⟨a, s', hr, h⟩)

theorem wp_bind_read {g : σ → α} {Q : β → σ → Prop} (h : wp (f (g s)) Q E s) : wp (Prog.read g >>= f) Q E s :=
  wp_bind (wp_read h)

theorem wp_bind_write {g : σ → σ} {f : Unit → Prog φ ε σ β} {Q : β → σ → Prop} (h : wp (f ()) Q E (g s)) :
    wp (Prog.write g >>= f) Q E s := wp_bind (wp_write h)

theorem wp_known {Q : β → σ → Prop} (ho : o = some a)
    (h : wp (f a) Q E s) : wp (Prog.known o >>= f) Q E s := wp_bind_ok (run_known ho) h

-- `if c then m` in front of the rest.
theorem wp_when [Decidable c] {m : Prog φ ε σ Unit} {rest : Prog φ ε σ β} {Q : β → σ → Prop}
    (h : wp (if c then m else pure ()) (fun _ s' => wp rest Q E s') E s) :
    wp (if c then m >>= fun _ => rest else rest) Q E s := by
  by_cases hc : c
  · rw [if_pos hc] at h ⊢
    exact wp_bind h
  rw [if_neg hc] at h ⊢
  rcases h with ⟨_, s', hr, hq⟩ | ⟨e, s', hr, -⟩
  · cases hr
    exact hq
  · cases hr

theorem wp_of_ok (h : m.run s = done a s') (hQ : Q a s') : wp m Q E s :=
  .inl ⟨a, s', h, hQ⟩

theorem wp_of_error (h : m.run s = some (.ok (.error e, s'))) (hE : E e s') : wp m Q E s :=
  .inr ⟨e, s', h, hE⟩

theorem wp_attempt {Q : Except ε α → σ → Prop}
    (h : wp m (fun a s' => Q (.ok a) s') (fun e s' => Q (.error e) s') s) :
    wp m.attempt Q E s := by
  rcases h with ⟨a, s', hr, hq⟩ | ⟨e, s', hr, he⟩
  · have hr' : m s = done a s' := hr
    exact .inl ⟨.ok a, s', by simp [Prog.run, Prog.attempt, hr'], hq⟩
  · have hr' : m s = some (.ok (.error e, s')) := hr
    exact .inl ⟨.error e, s', by simp [Prog.run, Prog.attempt, hr'], he⟩

theorem wp_zoom {Q : α → τ → Prop} {E : ε → τ → Prop}
    (h : wp m (fun a s' => Q a (put t s')) (fun e s' => E e (put t s')) (get t)) :
    wp (m.zoom get put) Q E t := by
  rcases h with ⟨a, s', hr, hq⟩ | ⟨e, s', hr, he⟩
  · have hr' : m (get t) = done a s' := hr
    exact .inl ⟨a, put t s', by simp [Prog.run, Prog.zoom, hr'], hq⟩
  · have hr' : m (get t) = some (.ok (.error e, s')) := hr
    exact .inr ⟨e, put t s', by simp [Prog.run, Prog.zoom, hr'], he⟩

theorem wp_bind_attempt {f : Except ε α → Prog φ ε σ β} {Q : β → σ → Prop}
    (h : wp m (fun a s' => wp (f (.ok a)) Q E s') (fun e s' => wp (f (.error e)) Q E s') s) :
    wp (m.attempt >>= f) Q E s := wp_bind (wp_attempt h)

theorem wp_bind_zoom {f : α → Prog φ ε τ β} {Q : β → τ → Prop} {E : ε → τ → Prop}
    (h : wp m (fun a s' => wp (f a) Q E (put t s')) (fun e s' => E e (put t s')) (get t)) :
    wp (m.zoom get put >>= f) Q E t := wp_bind (wp_zoom h)

theorem wp_forRange {f : Nat → Prog φ ε σ Unit} {n : Nat} (I : Nat → σ → Prop) (h0 : I 0 s)
    (hstep : ∀ i s, i < n → I i s → wp (f i) (fun _ => I (i + 1)) E s) :
    wp (Prog.forRange f n) (fun _ => I n) E s := by
  induction n with
  | zero => exact wp_pure h0
  | succ n ih =>
    refine wp_bind ((ih fun i s hi => hstep i s (Nat.lt_succ_of_lt hi)).mono ?_ fun _ _ h => h)
    exact fun _ s' hs' => hstep n s' (Nat.lt_succ_self n) hs'

end rules

-- What holds of every outcome that is not a fault, if there is one.
def wlp (m : Prog φ ε σ α) (Q : α → σ → Prop) (E : ε → σ → Prop) (s : σ) : Prop :=
  (∀ a s', m.run s = some (.ok (.ok a, s')) → Q a s') ∧
    ∀ e s', m.run s = some (.ok (.error e, s')) → E e s'

section liberal

variable {m m' : Prog φ ε σ α} {Q Q' : α → σ → Prop} {E E' : ε → σ → Prop} {s : σ}

theorem wlp.mono (h : wlp m Q E s) (hQ : ∀ a s', Q a s' → Q' a s')
    (hE : ∀ e s', E e s' → E' e s') : wlp m Q' E' s :=
  ⟨fun a s' hr => hQ a s' (h.1 a s' hr), fun e s' hr => hE e s' (h.2 e s' hr)⟩

theorem wp.wlp (h : wp m Q E s) : wlp m Q E s :=
  ⟨fun _ _ hr => h.of_ok hr, fun _ _ hr => h.of_error hr⟩

theorem wlp_true : wlp m (fun _ _ => True) (fun _ _ => True) s :=
  ⟨fun _ _ _ => trivial, fun _ _ _ => trivial⟩

theorem wlp_none (h : m.run s = none) : wlp m Q E s :=
  ⟨fun _ _ hr => (nomatch h.symm.trans hr), fun _ _ hr => (nomatch h.symm.trans hr)⟩

theorem wlp_bind {f : α → Prog φ ε σ β} {Q : β → σ → Prop}
    (h : wlp m (fun a s' => wlp (f a) Q E s') E s) : wlp (m >>= f) Q E s := by
  have hrun := run_bind m f s
  cases hm : m.run s with
  | none =>
    rw [hm] at hrun
    exact wlp_none hrun
  | some r =>
    rw [hm] at hrun
    cases r with
    | error x =>
      constructor
      · exact fun _ _ hr => (nomatch hrun.symm.trans hr)
      · exact fun _ _ hr => (nomatch hrun.symm.trans hr)
    | ok p =>
      obtain ⟨r, s'⟩ := p
      cases r with
      | error e =>
        constructor
        · exact fun _ _ hr => (nomatch hrun.symm.trans hr)
        · intro e' s'' hr
          cases hrun.symm.trans hr
          exact h.2 _ _ hm
      | ok a =>
        have hf := h.1 a s' hm
        exact ⟨fun b s'' hr => hf.1 b s'' (hrun.symm.trans hr), fun e s'' hr => hf.2 e s'' (hrun.symm.trans hr)⟩

theorem wlp_pure {a : α} (h : Q a s) : wlp (pure a : Prog φ ε σ α) Q E s := (wp_pure h).wlp

theorem wlp_error {e : ε} (h : E e s) : wlp (Prog.error e : Prog φ ε σ α) Q E s := (wp_error h).wlp

theorem wlp_read {f : σ → α} (h : Q (f s) s) : wlp (Prog.read f : Prog φ ε σ α) Q E s := (wp_read h).wlp

theorem wlp_write {f : σ → σ} {Q : Unit → σ → Prop} (h : Q () (f s)) :
    wlp (Prog.write f : Prog φ ε σ Unit) Q E s := (wp_write h).wlp

theorem wlp_ite [Decidable c] (h : c → wlp m Q E s)
    (h' : ¬ c → wlp m' Q E s) : wlp (if c then m else m') Q E s := by
  by_cases hc : c
  · rw [if_pos hc]
    exact h hc
  · rw [if_neg hc]
    exact h' hc

theorem wlp_zoom {Q : α → τ → Prop} {E : ε → τ → Prop}
    (h : wlp m (fun a s' => Q a (put t s')) (fun e s' => E e (put t s')) (get t)) :
    wlp (m.zoom get put) Q E t := by
  have hrun : (m.zoom get put).run t = match m.run (get t) with
      | none => none
      | some (.error f) => some (.error f)
      | some (.ok (r, s')) => some (.ok (r, put t s')) := rfl
  constructor
  · intro a t' hr
    rw [hrun] at hr
    split at hr
    · cases hr
    · cases hr
    · next r s' hm =>
        cases hr
        exact h.1 a s' hm
  · intro e t' hr
    rw [hrun] at hr
    split at hr
    · cases hr
    · cases hr
    · next r s' hm =>
        cases hr
        exact h.2 e s' hm

theorem wlp_attempt {Q : Except ε α → σ → Prop}
    (h : wlp m (fun a s' => Q (.ok a) s') (fun e s' => Q (.error e) s') s) :
    wlp m.attempt Q E s := by
  have hrun : (m.attempt).run s = match m.run s with
      | none => none
      | some (.error f) => some (.error f)
      | some (.ok (r, s')) => some (.ok (.ok r, s')) := rfl
  constructor
  · intro r s' hr
    rw [hrun] at hr
    split at hr
    · cases hr
    · cases hr
    · next r' s'' hm =>
        cases hr
        cases r with
        | ok a => exact h.1 a s' hm
        | error e => exact h.2 e s' hm
  · intro e s' hr
    rw [hrun] at hr
    split at hr <;> cases hr

end liberal

-- The program ends as in `wp`; only where `D` holds it may also not end.
def wpOr (D : Prop) (m : Prog φ ε σ α) (Q : α → σ → Prop) (E : ε → σ → Prop) (s : σ) : Prop :=
  (D ∧ m.run s = none) ∨ wp m Q E s

section divergence

variable {D : Prop} {m : Prog φ ε σ α} {Q Q' : α → σ → Prop} {E E' : ε → σ → Prop} {s : σ}

theorem wp.wpOr (h : wp m Q E s) : wpOr D m Q E s := .inr h

theorem wpOr.wlp (h : wpOr D m Q E s) : wlp m Q E s := by
  rcases h with ⟨-, hrun⟩ | h
  · exact wlp_none hrun
  · exact h.wlp

theorem wpOr_none (hD : D) (h : m.run s = none) : wpOr D m Q E s := .inl ⟨hD, h⟩

theorem wpOr_pure {a : α} (h : Q a s) : wpOr D (pure a : Prog φ ε σ α) Q E s := .inr (wp_pure h)

theorem wpOr_error {e : ε} (h : E e s) : wpOr D (Prog.error e : Prog φ ε σ α) Q E s := .inr (wp_error h)

theorem wpOr_bind {f : α → Prog φ ε σ β} {Q : β → σ → Prop}
    (h : wpOr D m (fun a s' => wpOr D (f a) Q E s') E s) : wpOr D (m >>= f) Q E s := by
  rcases h with ⟨hD, hrun⟩ | ⟨a, s', hr, hq⟩ | ⟨e, s', hr, he⟩
  · exact .inl ⟨hD, by rw [run_bind, hrun]⟩
  · have hb : (m >>= f).run s = (f a).run s' := by rw [run_bind, hr]
    rcases hq with ⟨hD, hrun⟩ | hq
    · exact .inl ⟨hD, hb.trans hrun⟩
    refine .inr ?_
    unfold Effect.wp at hq ⊢
    rw [hb]
    exact hq
  · exact .inr (.inr ⟨e, s', by rw [run_bind, hr], he⟩)

end divergence

end Jnu.Lib.Effect
