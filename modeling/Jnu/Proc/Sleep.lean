import Jnu.Lib.Trace

namespace Jnu.Proc.Sleep

open Lib.Trace
open Function

-- `wake_pending` is an `unsigned int`.
def wakeLimit : Nat := 2 ^ 32

inductive Cause
  | wake
  | timer
  deriving DecidableEq

-- What the scheduler knows of a task. `cause` is what made it runnable, which the code does not keep.
structure Sleeper where
  asleep : Bool
  wakePending : Nat
  deadline : Nat
  timedOut : Bool
  needDie : Bool
  cause : Option Cause

namespace Sleeper

variable (t : Sleeper)

def wake : Sleeper :=
  if t.asleep then { t with asleep := false, timedOut := false, deadline := 0, cause := some .wake }
  else { t with wakePending := (t.wakePending + 1) % wakeLimit }

def spend : Sleeper := { t with wakePending := t.wakePending - 1 }

-- TASK_SLEEPING: `sched_sleep_current` leaves the fields of a timed sleep alone.
def doze (d : Option Nat) : Sleeper :=
  { t with asleep := true, timedOut := d.isNone && t.timedOut, deadline := d.getD t.deadline, cause := none }

-- `sched_expire_timed_sleepers`.
def expire (now : Nat) : Sleeper :=
  if t.asleep = true ∧ t.deadline ≠ 0 ∧ t.deadline ≤ now then
    { t with asleep := false, timedOut := true, deadline := 0, cause := some .timer }
  else t

@[grind =] theorem wake_asleep : t.wake.asleep = false := by grind [wake]

@[grind =] theorem wake_wakePending :
    t.wake.wakePending = if t.asleep then t.wakePending else (t.wakePending + 1) % wakeLimit := by grind [wake]

@[grind =] theorem spend_asleep : t.spend.asleep = t.asleep := rfl

@[grind =] theorem doze_asleep (d : Option Nat) : (t.doze d).asleep = true := rfl

@[grind =] theorem doze_wakePending (d : Option Nat) : (t.doze d).wakePending = t.wakePending := rfl

-- A wake does not wrap the counter around.
def fits : Bool := t.asleep || t.wakePending + 1 < wakeLimit

end Sleeper

inductive Report
  | woken
  | eintr
  | etimedout
  deriving DecidableEq

namespace Sleeper

-- What `sched_sleep_timed_interruptible` returns behind the switch.
def report (t : Sleeper) : Report :=
  if t.needDie then .eintr else if t.timedOut then .etimedout else .woken

def resume (t : Sleeper) : Sleeper := { t with deadline := 0, timedOut := t.timedOut && t.needDie }

end Sleeper

-- Where a task is in `while (!P) sleep` or in `set P; sched_wake`. A sleep has a deadline if it is timed.
inductive Place
  | idle
  | loop
  | entering (deadline : Option Nat)
  | slept (timed : Bool)
  | waking (j : Nat)

def Place.isSlept : Place → Bool
  | .slept _ => true
  | _ => false

structure State where
  pred : Nat → Bool
  place : Nat → Place
  sleeper : Nat → Sleeper

inductive Act
  | start (i : Nat)
  -- the sleep of a round: `none` is `sched_sleep_current`, `some` has a timeout
  | test (i : Nat) (timeout : Option Nat) (now : Nat)
  | sleep (i : Nat)
  | resume (i : Nat)
  | set (i j : Nat)
  | wake (i : Nat)
  | post (j : Nat)
  | tick (now : Nat)
  | kill (j : Nat)

namespace State

variable (s : State)

def goto (i : Nat) (p : Place) : State := { s with place := update s.place i p }

def modify (i : Nat) (f : Sleeper → Sleeper) : State :=
  { s with sleeper := update s.sleeper i (f (s.sleeper i)) }

def exec : Act → Option State
  | .start i => match s.place i with
    | .idle => some (s.goto i .loop)
    | _ => none
  | .test i timeout now => match s.place i with
    | .loop =>
      if s.pred i then some (s.goto i .idle)
      else match timeout with
        | none => some (s.goto i (.entering none))
        | some us =>
          if (s.sleeper i).needDie then some s
          else some (s.goto i (.entering (some (if us = 0 then 0 else min (now + us) (2 ^ 64 - 1)))))
    | _ => none
  | .sleep i => match s.place i with
    | .entering d =>
      if 0 < (s.sleeper i).wakePending then some ((s.modify i Sleeper.spend).goto i .loop)
      else some ((s.modify i fun t => t.doze d).goto i (.slept d.isSome))
    | _ => none
  | .resume i => match s.place i with
    | .slept timed =>
      if (s.sleeper i).asleep then none
      else some ((if timed then s.modify i Sleeper.resume else s).goto i .loop)
    | _ => none
  | .set i j => match s.place i with
    | .idle => some { s.goto i (.waking j) with pred := update s.pred j true }
    | _ => none
  | .wake i => match s.place i with
    | .waking j => some ((s.modify j Sleeper.wake).goto i .idle)
    | _ => none
  | .post j => some (s.modify j Sleeper.wake)
  | .tick now => some { s with sleeper := fun j => (s.sleeper j).expire now }
  | .kill j => some (s.modify j fun t => { t with needDie := true })

end State

-- No wake wraps the counter of its task around.
def State.calm (s : State) : Act → Prop
  | .wake i => ∀ j, s.place i = .waking j → (s.sleeper j).fits
  | .post j => (s.sleeper j).fits
  | _ => True

def Step (s : State) (a : Act) (s' : State) : Prop := s.exec a = some s'

def CalmStep (s : State) (a : Act) (s' : State) : Prop := s.calm a ∧ Step s a s'

def Idle (s : State) : Prop :=
  ∀ j, s.place j = .idle ∧ (s.sleeper j).asleep = false ∧ (s.sleeper j).deadline = 0

-- What a step does.
inductive Does (s : State) : Act → State → Prop
  | start (hp : s.place i = .idle) : Does s (.start i) (s.goto i .loop)
  | leave {us : Option Nat} {now : Nat} (hp : s.place i = .loop) : Does s (.test i us now) (s.goto i .idle)
  | dying {us : Option Nat} {now : Nat} : Does s (.test i us now) s
  | enter {us : Option Nat} {now : Nat} (d : Option Nat) (hp : s.place i = .loop) (hq : s.pred i = false) :
      Does s (.test i us now) (s.goto i (.entering d))
  | spend (hp : s.place i = .entering d) : Does s (.sleep i) ((s.modify i Sleeper.spend).goto i .loop)
  | doze (hp : s.place i = .entering d) (hc : (s.sleeper i).wakePending = 0) :
      Does s (.sleep i) ((s.modify i fun t => t.doze d).goto i (.slept d.isSome))
  | resumeTimed {b : Bool} (hp : s.place i = .slept b) (ha : (s.sleeper i).asleep = false) :
      Does s (.resume i) ((s.modify i Sleeper.resume).goto i .loop)
  | resume {b : Bool} (hp : s.place i = .slept b) (ha : (s.sleeper i).asleep = false) :
      Does s (.resume i) (s.goto i .loop)
  | set (hp : s.place i = .idle) : Does s (.set i j) { s.goto i (.waking j) with pred := update s.pred j true }
  | wake (hp : s.place i = .waking j) : Does s (.wake i) ((s.modify j Sleeper.wake).goto i .idle)
  | post : Does s (.post j) (s.modify j Sleeper.wake)
  | tick (now : Nat) : Does s (.tick now) { s with sleeper := fun j => (s.sleeper j).expire now }
  | kill : Does s (.kill j) (s.modify j fun t => { t with needDie := true })

variable {s s' s₀ : State} {a : Act} {es : List Act} {i j : Nat} {d : Option Nat}

theorem Step.does (hs : Step s a s') : Does s a s' := by
  cases a <;> simp only [Step, State.exec] at hs
  all_goals repeat' split at hs
  all_goals cases hs
  · exact .start ‹_›
  · exact .leave ‹_›
  · exact .enter _ ‹_› (Bool.eq_false_iff.2 ‹_›)
  · exact .dying
  -- a timeout of 0, or another one
  · exact .enter _ ‹_› (Bool.eq_false_iff.2 ‹_›)
  · exact .enter _ ‹_› (Bool.eq_false_iff.2 ‹_›)
  · exact .spend ‹_›
  · exact .doze ‹_› (Nat.eq_zero_of_not_pos ‹_›)
  · exact .resumeTimed ‹_› (Bool.eq_false_iff.2 ‹_›)
  · exact .resume ‹_› (Bool.eq_false_iff.2 ‹_›)
  · exact .set ‹_›
  · exact .wake ‹_›
  · exact .post
  · exact .tick _
  · exact .kill

-- What is known of one task.
structure Fits (s : State) (j : Nat) : Prop where
  entering : ∀ d, s.pred j = true → s.place j = .entering d →
    0 < (s.sleeper j).wakePending ∨ ∃ i, s.place i = .waking j
  asleep : (s.sleeper j).asleep = true →
    (s.place j).isSlept = true ∧ (s.pred j = true → ∃ i, s.place i = .waking j)
  deadline : (s.sleeper j).deadline ≠ 0 → (s.sleeper j).asleep = true ∧ s.place j = .slept true
  told : ∀ b, s.place j = .slept b → (s.sleeper j).asleep = false →
    ((s.sleeper j).cause = some .wake ∧ (s.sleeper j).timedOut = false) ∨
      ((s.sleeper j).cause = some .timer ∧ (s.sleeper j).timedOut = true ∧ b = true)

def Inv (s : State) : Prop := ∀ j, Fits s j

-- A task that the step does not touch, unless to let it die.
theorem Fits.keep {b : Bool} (h : Fits s j) (hq : s'.pred j = s.pred j) (hp : s'.place j = s.place j)
    (ht : s'.sleeper j = { s.sleeper j with needDie := b })
    (hw : ∀ i, s.place i = .waking j → ∃ i, s'.place i = .waking j) : Fits s' j := by
  obtain ⟨he, ha, hd, ht'⟩ := h
  constructor <;> rw [ht, hp] <;> grind

-- The task that is woken.
theorem Fits.wake (h : Fits s j) (hf : (s.sleeper j).fits) (hp : s'.place j = s.place j ∨ s'.place j = .idle)
    (ht : s'.sleeper j = (s.sleeper j).wake) : Fits s' j := by
  obtain ⟨he, ha, hd, ht'⟩ := h
  have hc : (s.sleeper j).asleep = false → 0 < (s.sleeper j).wake.wakePending := by
    simp only [Sleeper.fits, wakeLimit] at hf
    grind [wakeLimit]
  constructor <;> rw [ht] <;> grind [Place.isSlept, Sleeper.wake]

theorem Sleeper.doze_deadline {t : Sleeper} (h : (t.doze d).deadline ≠ 0) :
    t.deadline ≠ 0 ∨ d.isSome = true := by
  cases d with
  | none => exact .inl h
  | some d => exact .inr rfl

-- Only the task `i` moves, and it wakes nobody.
theorem Inv.move (h : Inv s) (hw : ∀ k, s.place i ≠ .waking k) (hq : s'.pred = s.pred)
    (hp : ∀ j, j ≠ i → s'.place j = s.place j) (ht : ∀ j, j ≠ i → s'.sleeper j = s.sleeper j)
    (hi : Fits s' i) : Inv s' := by
  intro j
  by_cases hj : j = i
  · exact hj ▸ hi
  · refine (h j).keep (congrFun hq j) (hp j hj) (ht j hj) fun k hk => ⟨k, (hp k ?_).trans hk⟩
    rintro rfl
    exact hw j hk

theorem Inv.step (h : Inv s) (hs : CalmStep s a s') : Inv s' := by
  obtain ⟨hc, hs⟩ := hs
  cases hs.does with
  | dying => exact h
  | @set i j hp =>
    intro k
    obtain ⟨he, ha, hd, ht⟩ := h k
    constructor <;> simp only [State.goto, update_apply] <;> grind [Place.isSlept]
  | @wake i j hp =>
    intro k
    by_cases hkj : k = j
    · subst hkj
      refine (h k).wake (hc k hp) ?_ (update_self ..)
      by_cases hki : k = i
      · exact .inr (hki ▸ update_self ..)
      · exact .inl (update_of_ne hki _ _)
    · obtain ⟨he, ha, hd, ht⟩ := h k
      constructor <;> simp only [State.goto, State.modify, update_apply] <;> grind [Place.isSlept]
  | @post j =>
    intro k
    by_cases hkj : k = j
    · subst hkj
      exact (h k).wake hc (.inl rfl) (update_self ..)
    · exact (h k).keep rfl rfl (update_of_ne hkj _ _) fun i hi => ⟨i, hi⟩
  | tick now =>
    intro k
    obtain ⟨he, ha, hd, ht⟩ := h k
    constructor <;> grind [Sleeper.expire]
  | @kill j =>
    intro k
    by_cases hkj : k = j
    · subst hkj
      exact (h k).keep rfl rfl (update_self ..) fun i hi => ⟨i, hi⟩
    · exact (h k).keep rfl rfl (update_of_ne hkj _ _) fun i hi => ⟨i, hi⟩
  | @doze i d hp hc =>
    obtain ⟨he, ha, hd, ht⟩ := h i
    refine h.move (i := i) (by simp [hp]) rfl (fun j hj => update_of_ne hj _ _)
      (fun j hj => update_of_ne hj _ _) ?_
    -- there is no credit, so somebody is about to wake it
    have hw : s.pred i = true → ∃ k, update s.place i (.slept d.isSome) k = .waking i := by
      intro hq
      obtain ⟨k, hk⟩ := (he d hq hp).resolve_left (by omega)
      refine ⟨k, (update_of_ne ?_ _ _).trans hk⟩
      rintro rfl
      cases hp.symm.trans hk
    constructor <;> simp only [State.goto, State.modify, update_self] <;>
      grind [Place.isSlept, Sleeper.doze_deadline]
  | @start i | @leave i | @enter i | @spend i | @resumeTimed i | @resume i =>
    -- the task goes on, and is not asleep
    obtain ⟨he, ha, hd, ht⟩ := h i
    refine h.move (i := i) (by simp_all) rfl (fun j hj => update_of_ne hj _ _)
      (fun j hj => by first | rfl | exact update_of_ne hj _ _) ?_
    constructor <;> simp only [State.goto, State.modify, update_self] <;>
      grind [Place.isSlept, Sleeper.spend, Sleeper.resume]

theorem Idle.inv (h : Idle s) : Inv s := by
  intro j
  obtain ⟨hp, ha, hd⟩ := h j
  constructor <;> simp [hp, ha, hd]

theorem no_lost_wakeup (h0 : Idle s₀) (h : Run CalmStep s₀ es s) :
    (∀ j, s.pred j = true → (s.sleeper j).asleep = true → ∃ i, s.place i = .waking j) ∧
      ∀ j timed, s.place j = .slept timed → (s.sleeper j).asleep = false →
        ((s.sleeper j).cause = some .wake → (s.sleeper j).report ≠ .etimedout) ∧
          ((s.sleeper j).cause = some .timer → timed = true ∧ (s.sleeper j).report ≠ .woken) := by
  have hinv : Inv s := h.invariant h0.inv fun _ _ _ => Inv.step
  refine ⟨fun j hp ha => ((hinv j).asleep ha).2 hp, fun j timed hp ha => ?_⟩
  have htold := (hinv j).told timed hp ha
  grind [Sleeper.report]

def idle (credits : Nat) : State :=
  ⟨fun _ => false, fun _ => .idle, fun _ => ⟨false, credits, 0, false, false, none⟩⟩

theorem no_lost_wakeup_pending : ∃ s, Run CalmStep (idle 0) [.start 1, .test 1 none 0, .sleep 1, .set 2 1] s ∧
    (s.sleeper 1).asleep = true ∧ ∃ i, s.place i = .waking 1 := by
  have hrun : ∃ s, Run CalmStep (idle 0) [.start 1, .test 1 none 0, .sleep 1, .set 2 1] s ∧
      s.pred 1 = true ∧ (s.sleeper 1).asleep = true :=
    ⟨_, .cons ⟨trivial, rfl⟩ (.cons ⟨trivial, rfl⟩ (.cons ⟨trivial, rfl⟩ (.one ⟨trivial, rfl⟩))), rfl, rfl⟩
  obtain ⟨s, hrun, hp, ha⟩ := hrun
  exact ⟨s, hrun, ha, (no_lost_wakeup (fun _ => ⟨rfl, rfl, rfl⟩) hrun).1 1 hp ha⟩

-- The waker finds 2^32 - 1 stale credits and wraps them around.
theorem wakeup_lost : ∃ s, Run Step (idle (wakeLimit - 1))
    [.start 1, .test 1 none 0, .set 2 1, .wake 2, .sleep 1] s ∧
      s.pred 1 = true ∧ (s.sleeper 1).asleep = true ∧ ∀ i, s.place i ≠ .waking 1 := by
  refine ⟨_, Run.of_foldlM (f := State.exec) rfl, rfl, rfl, fun i => ?_⟩
  simp only [State.goto, State.modify, idle, update_apply]
  grind

end Jnu.Proc.Sleep
