import Jnu.Proc.GroupExit

namespace Jnu.Proc.Group

open Lib.Trace Lib.Refs
open Function

variable {g g' g₀ : World} {e : Event} {es : List Event} {i j p c : Nat} {t t' u u' : Task} {m : Move}
  {P P' : Process}

-- What a task is counted for in `live_threads`: itself until its exit, and the thread it makes.
def Stage.owed : Stage → Nat
  | .counted => 2
  | .leaving _ _ _ => 0
  | .exited _ => 0
  | .gone => 0
  | .freed => 0
  | _ => 1

def owedTo (p : Nat) (o : Option Task) : Nat := o.elim 0 fun u => if u.process = p then u.stage.owed else 0

def World.undone (g : World) (p : Nat) : Nat := ∑ j ∈ Finset.range g.next, owedTo p (g.task j)

theorem Touched.owed (h : Touched t m u u') : owedTo p (some u') = owedTo p (some u) := by
  dsimp only [owedTo, Option.elim]
  rw [h.process, h.same Stage.owed fun _ _ => rfl]

theorem owed_step (hg : g' = (g.effect i t m).setTask i t') (hj : j ≠ i) (hlt : j < g.next)
    (hr : m ≠ .reap p) : owedTo p (g'.task j) = owedTo p (g.task j) := by
  cases hu' : g'.task j with
  | some u' =>
    rcases step_task hg hu' with ⟨h, -⟩ | ⟨-, u, hu, hT⟩ | ⟨-, hM⟩
    · exact absurd h hj
    · rw [hu]
      exact hT.owed
    · exact absurd hM.fresh.1 (Nat.ne_of_lt hlt)
  | none =>
    cases hu : g.task j with
    | none => rfl
    | some u =>
      rcases effect_some (i := i) (t := t) (m := m) hu (Nat.ne_of_lt hlt) with ⟨u', h⟩ | hm
      · subst hg
        cases h.symm.trans ((update_of_ne hj _ _).symm.trans hu')
      · have hp : u.process ≠ p := fun hp => hr (hp ▸ hm)
        exact (if_neg hp).symm

def Move.born (t : Task) (p : Nat) : Move → Nat
  | .make => if t.process = p then 1 else 0
  | .spawn c => if c = p then 1 else 0
  | _ => 0

theorem Move.born_eq_zero (hp : t.process ≠ p) (hm : m ≠ .spawn p) : m.born t p = 0 := by
  cases m with
  | make => exact if_neg hp
  | spawn c => exact if_neg fun hc : c = p => hm (hc ▸ rfl)
  | _ => rfl

theorem undone_step (hT : Tidy g) (ht : g.task i = some t) (hg : g' = (g.effect i t m).setTask i t')
    (hr : m ≠ .reap p) :
    g'.undone p + owedTo p (some t) = g.undone p + owedTo p (some t') + m.born t p := by
  have hlt := (hT.lt i t ht).1
  have hself : g'.task i = some t' := by
    rw [hg]
    exact update_self i _ _
  have hsum := sum_shift (f := fun j => owedTo p (g.task j)) (g := fun j => owedTo p (g'.task j))
    (Finset.mem_range.2 hlt) fun j hj hne => owed_step hg hne (Finset.mem_range.1 hj) hr
  rw [ht, hself] at hsum
  have hnone : g.task g.next = none := by
    cases hu : g.task g.next with
    | none => rfl
    | some u => exact absurd (hT.lt _ u hu).1 (Nat.lt_irrefl _)
  have hold : g'.task g.next = (g.effect i t m).task g.next := by
    rw [hg]
    exact update_of_ne (Nat.ne_of_gt hlt) _ _
  have hnext : (g'.next = g.next ∧ m.born t p = 0) ∨
      (g'.next = g.next + 1 ∧ owedTo p (g'.task g.next) = m.born t p) := by
    rw [hold, hg]
    cases m with
    | make => exact .inr ⟨rfl, (congrArg (owedTo p) (update_self g.next _ _)).trans rfl⟩
    | spawn c => exact .inr ⟨rfl, (congrArg (owedTo p) (update_self g.next _ _)).trans rfl⟩
    | splice => exact .inr ⟨rfl, congrArg (owedTo p) hnone⟩
    | _ => exact .inl ⟨rfl, rfl⟩
  unfold World.undone
  rcases hnext with ⟨hn, hb⟩ | ⟨hn, hb⟩
  · rw [hn]
    omega
  · rw [hn, Finset.sum_range_succ, hb]
    omega

theorem undone_eq_zero (h : ∀ j u, g.task j = some u → u.process = p → u.stage.owed = 0) : g.undone p = 0 := by
  refine Finset.sum_eq_zero fun j _ => ?_
  cases hu : g.task j with
  | none => rfl
  | some u =>
    by_cases hp : u.process = p
    · exact (if_pos hp).trans (h j u hu hp)
    · exact if_neg hp

theorem owed_of_undone (hT : Tidy g) (h : g.undone p = 0) (hu : g.task j = some u) (hp : u.process = p) :
    u.stage.owed = 0 := by
  have h0 := Finset.sum_eq_zero_iff.1 h j (Finset.mem_range.2 (hT.lt j u hu).1)
  rw [hu] at h0
  exact (if_pos hp).symm.trans h0

theorem Own.owed (h : Own g i t m t') (hk : m ≠ .kill) (hf : ∀ c, t.stage = .forking c → c ≠ t.process) :
    (t'.stage.owed : Int) + m.born t t.process = t.stage.owed + m.drift := by
  cases h with
  | kill => exact absurd rfl hk
  | spawn hs => simp [Task.goto, hs, Stage.owed, Move.born, Move.drift, hf _ hs]
  | _ => simp [*, Task.goto, Stage.owed, Move.born, Move.drift]

-- The tasks of process `c` are at stages in `f`, and it gets no new task.
def Closed (f : Stage → Bool) (g : World) (c : Nat) : Prop :=
  c < g.next ∧ ∀ j u, g.task j = some u → u.stage ≠ .forking c ∧ (u.process = c → f u.stage = true)

-- Stages that a task does not leave for others.
structure Final (f : Stage → Bool) : Prop where
  own : ∀ {g i t m t'}, Own g i t m t' → f t.stage = true → f t'.stage = true
  wake : ∀ w b, f (.woken w b) = f (.asleep w)
  counted : f .counted = false

theorem Closed.step {f : Stage → Bool} (hf : Final f) (h : Closed f g c) (hs : Step g e g') :
    Closed f g' c := by
  obtain ⟨i, m⟩ := e
  obtain ⟨t, t', ht, ho, hg⟩ := hs
  have hown := h.2 i t ht
  refine ⟨?_, fun j u hu => ?_⟩
  · rw [hg]
    exact Nat.lt_of_lt_of_le h.1 next_le
  rcases step_task hg hu with ⟨rfl, rfl⟩ | ⟨-, v, hv, hT⟩ | ⟨-, hM⟩
  · refine ⟨fun hf => ?_, fun hp => hf.own ho (hown.2 (ho.process.symm.trans hp))⟩
    rcases ho.forking hf with hf | ⟨-, hc⟩
    · exact hown.1 hf
    · exact absurd (hc ▸ h.1) (Nat.lt_irrefl _)
  · refine ⟨fun hf => (h.2 j v hv).1 (hT.back hf nofun), fun hp => ?_⟩
    exact (hT.same f hf.wake).trans ((h.2 j v hv).2 (hT.process.symm.trans hp))
  · rw [hM.fresh.2]
    refine ⟨nofun, fun hp => ?_⟩
    rcases hM.process with ⟨hm, hp'⟩ | hm <;> rw [hm] at ho
    · have hx := hown.2 (hp'.symm.trans hp)
      cases ho with
      | make _ hs =>
        rw [hs, hf.counted] at hx
        cases hx
    · cases ho with
      | spawn hs => exact absurd (hp ▸ hs) hown.1

def Stage.out (s : Stage) : Bool := s.owed == 0

theorem final_out : Final Stage.out := by
  refine ⟨fun h hx => ?_, fun _ _ => rfl, rfl⟩
  cases h <;> first | rfl | exact hx | (simp only [*] at hx; cases hx)

theorem Closed.undone (h : Closed Stage.out g c) : g.undone c = 0 :=
  undone_eq_zero fun j u hu hp => eq_of_beq ((h.2 j u hu).2 hp)

theorem closed_of_undone (hT : Tidy g) (hu : g.task i = some u) (h0 : g.undone u.process = 0) :
    Closed Stage.out g u.process := by
  refine ⟨(hT.lt i u hu).2, fun j v hv => ⟨fun hf => ?_, fun hp => beq_iff_eq.2 ?_⟩⟩
  · exact (hT.forking j v _ hv hf).2.1 i u hu rfl
  · exact owed_of_undone hT h0 hv hp

-- A fault kills only a process with a single thread.
def SoleStep (g : World) (e : Event) (g' : World) : Prop :=
  (e.2 = .kill → ∀ t P, g.task e.1 = some t → g.process t.process = some P → P.liveThreads ≤ 1) ∧ Step g e g'

structure Counted (g : World) : Prop where
  tidy : Tidy g
  live : ∀ p P, g.process p = some P → P.zombie = false → P.liveThreads = g.undone p
  last : ∀ j u c s, g.task j = some u → u.stage = .leaving true c s → Closed Stage.out g u.process
  zombie : ∀ p P, g.process p = some P → P.zombie = true → Closed Stage.out g p

theorem Counted.step (h : Counted g) (hs : SoleStep g e g') : Counted g' := by
  obtain ⟨i, m⟩ := e
  obtain ⟨hk, hs⟩ := hs
  have hclosed : ∀ {c}, Closed Stage.out g c → Closed Stage.out g' c := fun h => h.step final_out hs
  have hT' := h.tidy.step hs
  obtain ⟨t, t', ht, ho, hg⟩ := hs
  dsimp only at hk ht ho hg
  have hsum := fun p => undone_step (p := p) h.tidy ht hg
  have hend : g'.undone t.process = 0 → Closed Stage.out g' t.process := by
    rw [← ho.process]
    exact closed_of_undone hT' (by rw [hg]; exact update_self i _ _)
  refine ⟨hT', fun p P' hP' hz => ?_, fun j u c s hu hs => ?_, fun p P' hP' hz => ?_⟩
  · have hr : m ≠ .reap p := by
      rintro rfl
      rw [hg] at hP'
      exact (of_erase hP').1 rfl
    have hsum := hsum p hr
    rcases step_process hg hP' with ⟨P, hP, hA⟩ | ⟨rfl, rfl, hnew⟩
    · have hPz : P.zombie = false := by
        rcases hA.zombie with ⟨hz', -⟩ | ⟨-, hz', -⟩
        · exact hz'.symm.trans hz
        · cases hz.symm.trans hz'
      have hl := h.live p P hP hPz
      rcases hA.live with ⟨rfl, h1⟩ | ⟨hm, h1⟩
      · cases ho with
        | spawn hs =>
          have hno := (h.tidy.forking i t p ht hs).2.1
          have h0 : g.undone p = 0 := undone_eq_zero fun j u hu hp => absurd hp (hno j u hu)
          simp [owedTo, Task.goto, hno i t ht, Move.born] at hsum
          omega
      by_cases hp : p = t.process
      · subst hp
        have hk : m ≠ .kill := by
          rintro rfl
          rw [hg] at hP'
          obtain ⟨Q, -, rfl⟩ := Option.map_eq_some_iff.1 hP'
          rw [if_pos rfl] at hz
          cases hz
        have howed := ho.owed hk fun c hc => Ne.symm ((h.tidy.forking i t c ht hc).2.1 i t ht)
        simp only [owedTo, Option.elim, ho.process, if_true] at hsum
        omega
      · have hb := Move.born_eq_zero (Ne.symm hp) hm
        simp only [owedTo, Option.elim, ho.process, if_neg (Ne.symm hp), hb] at hsum
        omega
    · have h0 : g.undone g.next = 0 :=
        undone_eq_zero fun j u hu hp => absurd hp (Nat.ne_of_lt (h.tidy.lt j u hu).2)
      simp only [owedTo, Option.elim, ho.process, if_neg (Nat.ne_of_lt (h.tidy.lt i t ht).2), h0,
        Move.born] at hsum
      have hnone : g'.undone g.next = 0 := hsum
      rw [hnew, hnone]
      rfl
  · rcases step_task hg hu with ⟨rfl, rfl⟩ | ⟨-, v, hv, hT⟩ | ⟨-, hM⟩
    · cases ho with
      | @exit _ _ P head hst hp hh =>
        have hle : P.liveThreads - 1 ≤ 0 := of_decide_eq_true (Stage.leaving.inj hs).1
        have hsum := hsum t.process (by simp)
        simp only [owedTo, Option.elim, if_true, hst, Stage.owed, Move.born] at hsum
        cases hPz : P.zombie with
        | true =>
          have hx := ((h.zombie _ P hp hPz).2 j t ht).2 rfl
          rw [hst] at hx
          cases hx
        | false =>
          have hl := h.live _ P hp hPz
          exact hend (by omega)
      | wake k hk => exact hclosed (h.last j t c s ht hs)
      | expire k hk => exact hclosed (h.last j t c s ht hs)
      | consume hst => cases hst.symm.trans hs
      | _ => cases hs
    · rw [hT.process]
      exact hclosed (h.last j v c s hv (hT.back hs (by simp)))
    · rw [hM.fresh.2] at hs
      cases hs
  · rcases step_process hg hP' with ⟨P, hP, hA⟩ | ⟨-, -, hnew⟩
    · cases hPz : P.zombie with
      | true => exact hclosed (h.zombie p P hP hPz)
      | false =>
        rcases hA.zombie with ⟨hz', -⟩ | ⟨rfl, -, rfl | ⟨s, rfl, -⟩⟩
        · cases hPz.symm.trans (hz'.symm.trans hz)
        · cases ho with
          | kill hs hp hinit =>
            have hle := hk rfl t P ht hP
            have hl := h.live _ P hP hPz
            have hsum := hsum t.process (by simp)
            simp [owedTo, hs, Stage.owed, Task.goto, Move.born] at hsum
            exact hend (by omega)
        · cases ho with
          | finish hs hp hinit => exact hclosed (h.last i t _ s ht hs)
    · rw [hnew] at hz
      cases hz

theorem Booted.counted (hb : Booted g) (hc : ∀ p P, g.process p = some P → P.liveThreads = g.undone p) :
    Counted g := by
  refine ⟨hb.tidy, fun p P hP _ => hc p P hP, fun j u c s hu hs => ?_, fun p P hP hz => ?_⟩
  · rw [(hb.task j u hu).2.1] at hs
    cases hs
  · cases (hb.process p P hP).2.1.symm.trans hz

def Stage.ended : Stage → Bool
  | .exited _ => true
  | .gone => true
  | .freed => true
  | _ => false

-- The task is out of the count, but has not been switched away from for the last time.
def Stage.tail : Stage → Bool
  | .leaving _ _ _ => true
  | .exited _ => true
  | _ => false

def World.undisturbed (g : World) (i : Nat) : Bool :=
  (List.range g.next).all fun j => (g.task j).all fun u => !u.stage.tail || j == i

-- A task is not preempted in its tail, and a fault kills only a process with a single thread.
def CleanStep (g : World) (e : Event) (g' : World) : Prop := g.undisturbed e.1 = true ∧ SoleStep g e g'

structure Settled (g : World) : Prop where
  counted : Counted g
  tail : ∃ i, ∀ j u, g.task j = some u → u.stage.tail = true → j = i
  zombie : ∀ p P, g.process p = some P → P.zombie = true → Closed Stage.ended g p
  reaping : ∀ j u c, g.task j = some u → u.stage = .reaping c → Closed Stage.ended g c

theorem final_ended : Final Stage.ended := by
  refine ⟨fun h hx => ?_, fun _ _ => rfl, rfl⟩
  cases h <;> first | rfl | exact hx | (simp only [*] at hx; cases hx)

theorem Stage.ended_of_out {s : Stage} (ho : s.out = true) (ht : s.tail ≠ true) : s.ended = true := by
  cases s <;> first | rfl | exact absurd rfl ht | cases ho

theorem Tidy.tail_eq (h : Tidy g) (hi : g.undisturbed i = true) (hu : g.task j = some u)
    (ht : u.stage.tail = true) : j = i := by
  have h := List.all_eq_true.1 hi j (List.mem_range.2 (h.lt j u hu).1)
  simpa [hu, ht] using h

theorem Settled.step (h : Settled g) (hs : CleanStep g e g') : Settled g' := by
  obtain ⟨i, m⟩ := e
  obtain ⟨hq, hsole⟩ := hs
  have hC' := h.counted.step hsole
  obtain ⟨-, hs⟩ := hsole
  have hdone : ∀ {c}, Closed Stage.ended g c → Closed Stage.ended g' c := fun h => h.step final_ended hs
  obtain ⟨t, t', ht, ho, hg⟩ := hs
  have htail : ∀ j u, g'.task j = some u → u.stage.tail = true → j = i := by
    intro j u hu hx
    rcases step_task hg hu with ⟨rfl, -⟩ | ⟨-, v, hv, hT⟩ | ⟨-, hM⟩
    · rfl
    · exact h.counted.tidy.tail_eq hq hv ((hT.same Stage.tail fun _ _ => rfl).symm.trans hx)
    · rw [hM.fresh.2] at hx
      cases hx
  refine ⟨hC', ⟨i, htail⟩, fun p P' hP' hz => ?_, fun j u c hu hs => ?_⟩
  · rcases step_process hg hP' with ⟨P, hP, hA⟩ | ⟨-, -, hnew⟩
    · rcases hA.zombie with ⟨hz', -⟩ | ⟨-, -, hm⟩
      · exact hdone (h.zombie p P hP (hz'.symm.trans hz))
      -- only the task that ends the process can be in its tail, and it is past the count
      have hx : t'.stage.ended = true := by
        rcases hm with rfl | ⟨s, rfl, -⟩ <;> cases ho <;> rfl
      obtain ⟨hlt, hout⟩ := hC'.zombie p P' hP' hz
      refine ⟨hlt, fun j u hu => ⟨(hout j u hu).1, fun hp => ?_⟩⟩
      by_cases hj : j = i
      · rcases step_task hg hu with ⟨-, rfl⟩ | ⟨hne, -⟩ | ⟨hne, -⟩
        · exact hx
        · exact absurd hj hne
        · exact absurd hj hne
      · exact Stage.ended_of_out ((hout j u hu).2 hp) (mt (htail j u hu) hj)
    · rw [hnew] at hz
      cases hz
  · rcases step_task hg hu with ⟨rfl, rfl⟩ | ⟨-, v, hv, hT⟩ | ⟨-, hM⟩
    · cases ho with
      | take hst hp hc hzom =>
        cases hs
        obtain ⟨C, hC, hCz⟩ := (Option.any_eq_true _ _).1 hzom
        exact hdone (h.zombie _ C hC hCz)
      | consume hst => exact hdone (h.reaping j t c ht hs)
      | wake k hk => exact hdone (h.reaping j t c ht hs)
      | expire k hk => exact hdone (h.reaping j t c ht hs)
      | _ => cases hs
    · exact hdone (h.reaping j v c hv (hT.back hs nofun))
    · rw [hM.fresh.2] at hs
      cases hs

theorem Booted.settled (hb : Booted g) (hc : ∀ p P, g.process p = some P → P.liveThreads = g.undone p) :
    Settled g := by
  have hs : ∀ {j u}, g.task j = some u → u.stage = .user := by
    intro j u hu
    rw [(hb.task j u hu).2.1]
  refine ⟨hb.counted hc, ⟨0, fun j u hu h => ?_⟩, fun p P hP hz => ?_, fun j u c hu h => ?_⟩
  · rw [hs hu] at h
    cases h
  · cases (hb.process p P hP).2.1.symm.trans hz
  · cases (hs hu).symm.trans h

theorem counted_thread : ∀ p P, (threads 1).process p = some P → P.liveThreads = (threads 1).undone p := by
  intro p P hP
  obtain ⟨rfl, ⟨⟩⟩ := Option.ite_none_right_eq_some.1 hP
  rfl

theorem Stage.over {s : Stage} (hx : s.ended = true) (ht : s.tail ≠ true) : s = .gone ∨ s = .freed := by
  cases s <;> first | exact .inl rfl | exact .inr rfl | exact absurd rfl ht | cases hx

-- When a process is reaped its tasks have been switched away from for the last time.
theorem reap_waits (hb : Booted g₀) (hc : ∀ p P, g₀.process p = some P → P.liveThreads = g₀.undone p)
    (h : Run CleanStep g₀ es g) (hs : CleanStep g (i, .reap c) g') (hu : g.task j = some u)
    (hp : u.process = c) : u.stage = .gone ∨ u.stage = .freed := by
  have hS : Settled g := h.invariant (hb.settled hc) fun _ _ _ => Settled.step
  obtain ⟨hq, -, t, t', ht, ho, -⟩ := hs
  cases ho with
  | reap hst =>
    refine Stage.over (((hS.reaping i t c ht hst).2 j u hu).2 hp) fun hx => ?_
    obtain rfl := hS.counted.tidy.tail_eq hq hu hx
    cases ht.symm.trans hu
    rw [hst] at hx
    cases hx

-- A task is not preempted in its tail, and no fault kills a process.
def UnkilledStep (g : World) (e : Event) (g' : World) : Prop :=
  g.undisturbed e.1 = true ∧ e.2 ≠ .kill ∧ Step g e g'

theorem UnkilledStep.clean (h : UnkilledStep g e g') : CleanStep g e g' :=
  ⟨h.1, fun hk => absurd hk h.2.1, h.2.2⟩

def Drained (g : World) : Prop := ∀ p P, g.process p = some P → P.zombie = true → P.liveThreads = 0

theorem Drained.step (h : Drained g) (hS : Settled g) (hs : UnkilledStep g e g') : Drained g' := by
  obtain ⟨i, m⟩ := e
  obtain ⟨-, hk, t, t', ht, ho, hg⟩ := hs
  intro p P' hP' hz
  rcases step_process hg hP' with ⟨P, hP, hA⟩ | ⟨-, -, hnew⟩
  · have h0 : P.liveThreads = 0 ∧ m ≠ .spawn p ∧ (p = t.process → m.drift = 0) := by
      cases hPz : P.zombie with
      | true =>
        have hD := (hS.zombie p P hP hPz).2 i t ht
        refine ⟨h p P hP hPz, fun hm => ?_, fun hp => ?_⟩
        · subst hm
          cases ho with
          | spawn hs => exact hD.1 hs
        · have hx := hD.2 hp.symm
          cases ho <;> first | rfl | (simp only [*] at hx; cases hx)
      | false =>
        rcases hA.zombie with ⟨hz', -⟩ | ⟨rfl, -, rfl | ⟨s, rfl, -⟩⟩
        · cases hPz.symm.trans (hz'.symm.trans hz)
        · exact absurd rfl hk
        · cases ho with
          | finish hs hp hinit =>
            rw [hS.counted.live _ P hP hPz, (hS.counted.last i t _ s ht hs).undone]
            exact ⟨rfl, nofun, fun _ => rfl⟩
    rcases hA.live with ⟨hm, -⟩ | ⟨-, hl⟩
    · exact absurd hm h0.2.1
    rw [hl, h0.1, Int.zero_add]
    split_ifs with hp
    · exact h0.2.2 hp
    · rfl
  · rw [hnew] at hz
    cases hz

-- A zombie process has no task left but the one that completes the exit.
theorem zombie_after_exits (hb : Booted g₀)
    (hc : ∀ p P, g₀.process p = some P → P.liveThreads = g₀.undone p) (h : Run UnkilledStep g₀ es g)
    (hP : g.process p = some P) : P.liveThreads = g.undone p ∧ (P.zombie = true → P.liveThreads = 0 ∧
      ∃ i, ∀ j u, g.task j = some u → u.process = p → j ≠ i → u.stage = .gone ∨ u.stage = .freed) := by
  obtain ⟨hS, h0⟩ : Settled g ∧ Drained g := by
    refine h.invariant (I := fun g => Settled g ∧ Drained g) ⟨hb.settled hc, fun p P hP hz => ?_⟩
      fun _ _ _ hI hs => ⟨hI.1.step hs.clean, hI.2.step hI.1 hs⟩
    cases (hb.process p P hP).2.1.symm.trans hz
  cases hz : P.zombie with
  | false => exact ⟨hS.counted.live p P hP hz, nofun⟩
  | true =>
    have hD := (hS.zombie p P hP hz).2
    have hundone := (hS.counted.zombie p P hP hz).undone
    obtain ⟨i, hi⟩ := hS.tail
    rw [hundone, h0 p P hP hz]
    exact ⟨rfl, fun _ => ⟨rfl, i, fun j u hu hp hj => Stage.over ((hD j u hu).2 hp) (mt (hi j u hu) hj)⟩⟩

-- A child that makes a thread, and whose threads exit, up to the wake of the parent.
def childExit : List Event :=
  [(1, .enter), (1, .splice), (1, .spawn 2), (3, .first), (3, .enter), (3, .count), (3, .make), (3, .read 4),
    (3, .resume), (4, .first), (4, .enter), (4, .quit 0), (4, .exit (some 3)), (4, .die), (3, .enter),
    (3, .quit 0), (3, .exit none), (3, .finish 0)]

theorem childExit_runs : ∃ g P, Run UnkilledStep (threads 1) childExit g ∧ g.process 2 = some P ∧
    P.zombie = true ∧ (∃ g1 g2 u, Run UnkilledStep g [(3, .off), (1, .wait none), (1, .look), (1, .take 2)] g1 ∧
      UnkilledStep g1 (1, .reap 2) g2 ∧ g1.task 3 = some u ∧ u.process = 2) ∧
    ∃ g1 g2 u, Run Step g [(1, .wait none), (1, .look), (1, .take 2)] g1 ∧ Step g1 (1, .reap 2) g2 ∧
      g1.task 3 = some u ∧ u.process = 2 ∧ u.stage = .exited false ∧ g2.task 3 = none := by
  refine ⟨_, _, .cons ⟨rfl, nofun, _, _, rfl, .enter rfl, rfl⟩ (.cons ⟨rfl, nofun, _, _, rfl, .splice rfl, rfl⟩
    (.cons ⟨rfl, nofun, _, _, rfl, .spawn rfl, rfl⟩ (.cons ⟨rfl, nofun, _, _, rfl, .first rfl, rfl⟩
    (.cons ⟨rfl, nofun, _, _, rfl, .enter rfl, rfl⟩
    (.cons ⟨rfl, nofun, _, _, rfl, .count rfl rfl (by decide), rfl⟩
    (.cons ⟨rfl, nofun, _, _, rfl, .make false rfl, rfl⟩
    (.cons ⟨rfl, nofun, _, _, rfl, .read rfl fun _ _ _ => rfl, rfl⟩
    (.cons ⟨rfl, nofun, _, _, rfl, .resume rfl rfl, rfl⟩ (.cons ⟨rfl, nofun, _, _, rfl, .first rfl, rfl⟩
    (.cons ⟨rfl, nofun, _, _, rfl, .enter rfl, rfl⟩ (.cons ⟨rfl, nofun, _, _, rfl, .quit 0 rfl, rfl⟩
    (.cons ⟨rfl, nofun, _, _, rfl, .exit rfl rfl ?_, rfl⟩ (.cons ⟨rfl, nofun, _, _, rfl, .die rfl, rfl⟩
    (.cons ⟨rfl, nofun, _, _, rfl, .enter rfl, rfl⟩ (.cons ⟨rfl, nofun, _, _, rfl, .quit 0 rfl, rfl⟩
    (.cons ⟨rfl, nofun, _, _, rfl, .exit rfl rfl nofun, rfl⟩
    (.one ⟨rfl, nofun, _, _, rfl, .finish rfl rfl nofun, rfl⟩))))))))))))))))), rfl, rfl,
    ⟨_, _, _, .cons ⟨rfl, nofun, _, _, rfl, .off rfl, rfl⟩
      (.cons ⟨rfl, nofun, _, _, rfl, .wait none rfl, rfl⟩ (.cons ⟨rfl, nofun, _, _, rfl, .look rfl rfl, rfl⟩
      (.one ⟨rfl, nofun, _, _, rfl, .take rfl rfl rfl rfl, rfl⟩))),
      ⟨rfl, nofun, _, _, rfl, .reap rfl, rfl⟩, rfl, rfl⟩,
    _, _, _, .cons ⟨_, _, rfl, .wait none rfl, rfl⟩ (.cons ⟨_, _, rfl, .look rfl rfl, rfl⟩
    (.one ⟨_, _, rfl, .take rfl rfl rfl rfl, rfl⟩)), ⟨_, _, rfl, .reap rfl, rfl⟩, rfl, rfl, rfl, rfl⟩
  rintro _ ⟨⟩
  exact ⟨by decide, _, rfl, rfl, rfl⟩

theorem reap_waits_child : ∃ g₁ g₂ u, CleanStep g₁ (1, .reap 2) g₂ ∧ g₁.task 3 = some u ∧
    (u.stage = .gone ∨ u.stage = .freed) := by
  obtain ⟨g, -, h, -, -, ⟨g₁, g₂, u, h1, hs, hu, hp⟩, -⟩ := childExit_runs
  have hrun := (h.append h1).mono fun _ _ _ _ => UnkilledStep.clean
  exact ⟨g₁, g₂, u, hs.clean, hu, reap_waits (booted_threads 1) counted_thread hrun hs.clean hu hp⟩

theorem reap_destroys_running :
    ∃ g g' u, Run Step (threads 1) (childExit ++ [(1, .wait none), (1, .look), (1, .take 2)]) g ∧
    Step g (1, .reap 2) g' ∧ g.task 3 = some u ∧ u.process = 2 ∧ u.stage = .exited false ∧
      g'.task 3 = none := by
  obtain ⟨g, -, h, -, -, -, g1, g2, u, h1, hs⟩ := childExit_runs
  exact ⟨g1, g2, u, (h.mono fun _ _ _ _ hs => hs.2.2).append h1, hs⟩

theorem zombie_after_exits_child : ∃ g P, Run UnkilledStep (threads 1) childExit g ∧ g.process 2 = some P ∧
    P.zombie = true ∧ P.liveThreads = 0 := by
  obtain ⟨g, P, h, hP, hz, -⟩ := childExit_runs
  exact ⟨g, P, h, hP, hz, ((zombie_after_exits (booted_threads 1) counted_thread h hP).2 hz).1⟩

-- A fault of one thread makes the process a zombie.
theorem zombie_with_thread : ∃ g P, Run Step twoThreads [(1, .enter), (1, .kill)] g ∧ g.process 0 = some P ∧
    P.zombie = true ∧ P.liveThreads = 2 ∧ g.task 2 = some ⟨0, .user, true, false, 0⟩ :=
  ⟨_, _, .cons ⟨_, _, rfl, .enter rfl, rfl⟩ (.one ⟨_, _, rfl, .kill rfl rfl nofun, rfl⟩), rfl, rfl, rfl, rfl⟩

end Jnu.Proc.Group
