import Jnu.Proc.Sleep

namespace Jnu.Proc.Mutex

open Lib.Trace Sleep
open Function

-- Where a task is; a call of `mutex_lock` that blocks has a waiter node `n`.
inductive Place
  | out
  | queued (n : Nat)
  | slept (n : Nat)
  -- `mutex_unlock` behind the guard, with the node and the task it has read from it
  | waking (t n : Nat)

def Place.node : Place → Option Nat
  | .queued n => some n
  | .slept n => some n
  | _ => none

-- `holds` says that the task is between an acquire and its unlock. `asked` and `granted` are the tasks
-- that have queued up and those the mutex was handed to.
structure State where
  owner : Option Nat
  waiters : List (Nat × Nat)
  place : Nat → Place
  sleeper : Nat → Sleeper
  holds : Nat → Bool
  next : Nat
  panic : Bool
  asked : List Nat
  granted : List Nat

inductive Act
  | lock (i : Nat)
  | trylock (i : Nat)
  | unlock (i : Nat)
  | sleep (i : Nat)
  | check (i : Nat)
  | wake (i : Nat)
  -- a wake from elsewhere, and a sleep elsewhere
  | post (j : Nat)
  | nap (i : Nat)

namespace State

variable (s : State)

def goto (i : Nat) (p : Place) : State := { s with place := update s.place i p }

def modify (i : Nat) (f : Sleeper → Sleeper) : State :=
  { s with sleeper := update s.sleeper i (f (s.sleeper i)) }

def acquire (i : Nat) : State := { s with owner := some i, holds := update s.holds i true }

def enqueue (i : Nat) : State :=
  { s.goto i (.queued s.next) with
    waiters := s.waiters ++ [(i, s.next)]
    next := s.next + 1
    asked := s.asked ++ [i] }

def release (i : Nat) : State := { s with owner := none, holds := update s.holds i false }

def handOver (i t n : Nat) (rest : List (Nat × Nat)) : State :=
  { s.goto i (.waking t n) with
    owner := some t
    waiters := rest
    holds := update s.holds i false
    granted := s.granted ++ [t] }

-- A call is made by a task that runs; nothing runs after a panic.
def runs (i : Nat) : Bool := !s.panic && !(s.sleeper i).asleep

def exec : Act → Option State
  | .lock i => match s.place i with
    | .out =>
      if !s.runs i then none
      else if s.owner = some i then some { s with panic := true }
      else if s.owner = none then some (s.acquire i)
      else some (s.enqueue i)
    | _ => none
  | .trylock i => match s.place i with
    | .out =>
      if !s.runs i then none
      else if s.owner = none then some (s.acquire i)
      else some s
    | _ => none
  | .unlock i => match s.place i with
    | .out =>
      if !s.runs i then none
      else if s.owner ≠ some i then some { s with panic := true }
      else match s.waiters with
        | [] => some (s.release i)
        | (t, n) :: rest => some (s.handOver i t n rest)
    | _ => none
  | .sleep i => match s.place i with
    | .queued n =>
      if s.panic then none
      else if 0 < (s.sleeper i).wakePending then some ((s.modify i Sleeper.spend).goto i (.slept n))
      else some ((s.modify i fun t => t.doze none).goto i (.slept n))
    | _ => none
  | .check i => match s.place i with
    | .slept n =>
      if !s.runs i then none
      else if s.owner = some i then some ((s.acquire i).goto i .out)
      else some (s.goto i (.queued n))
    | _ => none
  | .wake i => match s.place i with
    | .waking t _ => if s.panic then none else some ((s.modify t Sleeper.wake).goto i .out)
    | _ => none
  | .post j => if s.panic then none else some (s.modify j Sleeper.wake)
  | .nap i => match s.place i with
    | .out =>
      if !s.runs i then none
      else if 0 < (s.sleeper i).wakePending then some (s.modify i Sleeper.spend)
      else some (s.modify i fun t => t.doze none)
    | _ => none

-- A task does not lock what it holds, and unlocks nothing else.
def proper : Act → Prop
  | .lock i => s.holds i = false
  | .unlock i => s.holds i = true
  | _ => True

-- No wake wraps the counter of its task around.
def calm : Act → Prop
  | .wake i => ∀ t n, s.place i = .waking t n → (s.sleeper t).fits
  | .post j => (s.sleeper j).fits
  | _ => True

-- No task queues up with a credit, and no other wake reaches one that has queued up.
def quiet : Act → Prop
  | .lock i => s.owner = none ∨ (s.sleeper i).wakePending = 0
  | .post j => (s.place j).node = none
  | _ => True

end State

def Step (s : State) (a : Act) (s' : State) : Prop := s.proper a ∧ s.exec a = some s'

def CalmStep (s : State) (a : Act) (s' : State) : Prop := s.calm a ∧ Step s a s'

def QuietStep (s : State) (a : Act) (s' : State) : Prop := s.quiet a ∧ Step s a s'

-- What a step does.
inductive Does (s : State) : Act → State → Prop
  | relock (ho : s.owner = some i) (hh : s.holds i = false) (hp : s.place i = .out) :
      Does s (.lock i) { s with panic := true }
  | lock (hp : s.place i = .out) (ho : s.owner = none) : Does s (.lock i) (s.acquire i)
  | enqueue (hp : s.place i = .out) (ha : (s.sleeper i).asleep = false) (ho : s.owner ≠ none)
      (ho' : s.owner ≠ some i) : Does s (.lock i) (s.enqueue i)
  | trylock (hp : s.place i = .out) (ho : s.owner = none) : Does s (.trylock i) (s.acquire i)
  | busy (ho : s.owner ≠ none) : Does s (.trylock i) s
  | misuse (ho : s.owner ≠ some i) (hh : s.holds i = true) : Does s (.unlock i) { s with panic := true }
  | release (hp : s.place i = .out) (ho : s.owner = some i) (hw : s.waiters = []) :
      Does s (.unlock i) (s.release i)
  | handOver (hp : s.place i = .out) (ho : s.owner = some i) (hw : s.waiters = (t, n) :: rest) :
      Does s (.unlock i) (s.handOver i t n rest)
  | spend (hp : s.place i = .queued n) (hc : 0 < (s.sleeper i).wakePending) :
      Does s (.sleep i) ((s.modify i Sleeper.spend).goto i (.slept n))
  | doze (hp : s.place i = .queued n) (hc : (s.sleeper i).wakePending = 0) :
      Does s (.sleep i) ((s.modify i fun t => t.doze none).goto i (.slept n))
  | granted (hp : s.place i = .slept n) (ha : (s.sleeper i).asleep = false) (ho : s.owner = some i) :
      Does s (.check i) ((s.acquire i).goto i .out)
  | again (hp : s.place i = .slept n) (ha : (s.sleeper i).asleep = false) (ho : s.owner ≠ some i) :
      Does s (.check i) (s.goto i (.queued n))
  | wake (hp : s.place i = .waking t n) : Does s (.wake i) ((s.modify t Sleeper.wake).goto i .out)
  | post : Does s (.post j) (s.modify j Sleeper.wake)
  | napSpend (hp : s.place i = .out) : Does s (.nap i) (s.modify i Sleeper.spend)
  | nap (hp : s.place i = .out) : Does s (.nap i) (s.modify i fun t => t.doze none)

variable {s s' s₀ : State} {a : Act} {es : List Act} {i k t n : Nat}

theorem State.runs_awake (h : ¬ (!s.runs i) = true) : (s.sleeper i).asleep = false := by
  simp only [State.runs, Bool.not_and, Bool.not_not, Bool.or_eq_true, not_or, Bool.not_eq_true] at h
  exact h.2

theorem Step.does (hs : Step s a s') : Does s a s' := by
  obtain ⟨hh, hs⟩ := hs
  cases a <;> simp only [State.exec] at hs
  all_goals repeat' split at hs
  all_goals cases hs
  · exact .relock ‹_› hh ‹_›
  · exact .lock ‹_› ‹_›
  · exact .enqueue ‹_› (State.runs_awake ‹_›) ‹_› ‹_›
  · exact .trylock ‹_› ‹_›
  · exact .busy ‹_›
  · exact .misuse ‹_› hh
  · exact .release ‹_› (not_not.1 ‹_›) ‹_›
  · exact .handOver ‹_› (not_not.1 ‹_›) ‹_›
  · exact .spend ‹_› ‹_›
  · exact .doze ‹_› (Nat.eq_zero_of_not_pos ‹_›)
  · exact .granted ‹_› (State.runs_awake ‹_›) ‹_›
  · exact .again ‹_› (State.runs_awake ‹_›) ‹_›
  · exact .wake ‹_›
  · exact .post
  · exact .napSpend ‹_›
  · exact .nap ‹_›

-- Nobody has used the mutex, and the tasks have any credits.
structure Free (s : State) : Prop where
  mutex : s.owner = none ∧ s.waiters = [] ∧ s.panic = false ∧ s.asked = [] ∧ s.granted = []
  tasks : ∀ i, s.place i = .out ∧ s.holds i = false

structure Listed (s : State) : Prop where
  waiters : ∀ t n, (t, n) ∈ s.waiters ↔ (s.place t).node = some n ∧ s.owner ≠ some t
  nodup : (s.waiters.map Prod.fst).Nodup

structure Queued (s : State) : Prop where
  lt : ∀ t n, (s.place t).node = some n → n < s.next
  awake : ∀ t n, s.place t = .queued n → (s.sleeper t).asleep = false
  empty : s.owner = none → s.waiters = []
  order : s.asked = s.granted ++ s.waiters.map Prod.fst

structure Held (s : State) : Prop where
  holds : ∀ i, s.holds i = true → s.owner = some i ∧ s.place i = .out
  owner : ∀ i, s.owner = some i → s.holds i = true ∨ (s.place i).node ≠ none
  panic : s.panic = false

structure Inv (s : State) : Prop extends Listed s, Queued s, Held s

section

variable (h : Inv s)
include h

-- A task moves on, and a call of `mutex_lock` that blocks goes on with it.
theorem Inv.goto {p : Place} (hn : p.node = (s.place i).node) (hp : s.place i = .out → p = .out)
    (ha : ∀ n, p = .queued n → (s.sleeper i).asleep = false) : Inv (s.goto i p) := by
  obtain ⟨⟨hw, hnd⟩, ⟨hl, hq, he, hor⟩, hh, how, hpa⟩ := h
  constructor <;> constructor <;> simp only [State.goto, update_apply] <;> grind

theorem Inv.modify {f : Sleeper → Sleeper}
    (hk : ∀ n, s.place k = .queued n → (f (s.sleeper k)).asleep = false) : Inv (s.modify k f) := by
  refine ⟨⟨h.waiters, h.nodup⟩, ⟨h.lt, fun t n ht => ?_, h.empty, h.order⟩, h.holds, h.owner, h.panic⟩
  by_cases htk : t = k
  · subst htk
    exact (congrArg Sleeper.asleep (update_self ..)).trans (hk n ht)
  · exact (congrArg Sleeper.asleep (update_of_ne htk _ _)).trans (h.awake t n ht)

theorem Inv.acquire (hp : s.place i = .out) (ho : s.owner = none) : Inv (s.acquire i) := by
  obtain ⟨⟨hw, hnd⟩, ⟨hl, ha, he, hor⟩, hh, how, hpa⟩ := h
  constructor <;> constructor <;> simp only [State.acquire, update_apply] <;> grind [Place.node]

theorem Inv.enqueue (hp : s.place i = .out) (ha' : (s.sleeper i).asleep = false) (ho : s.owner ≠ none)
    (ho' : s.owner ≠ some i) : Inv (s.enqueue i) := by
  obtain ⟨⟨hw, hnd⟩, ⟨hl, ha, he, hor⟩, hh, how, hpa⟩ := h
  constructor <;> constructor <;> simp only [State.enqueue, State.goto, update_apply] <;> grind [Place.node]

theorem Inv.release (hp : s.place i = .out) (ho : s.owner = some i) (hw' : s.waiters = []) :
    Inv (s.release i) := by
  obtain ⟨⟨hw, hnd⟩, ⟨hl, ha, he, hor⟩, hh, how, hpa⟩ := h
  constructor <;> constructor <;> simp only [State.release, update_apply] <;> grind [Place.node]

theorem Inv.handOver {rest : List (Nat × Nat)} (hp : s.place i = .out) (ho : s.owner = some i)
    (hw' : s.waiters = (t, n) :: rest) : Inv (s.handOver i t n rest) := by
  obtain ⟨⟨hw, hnd⟩, ⟨hl, ha, he, hor⟩, hh, how, hpa⟩ := h
  constructor <;> constructor <;> simp only [State.handOver, State.goto, update_apply] <;> grind [Place.node]

theorem Inv.granted (ho : s.owner = some i) : Inv ((s.acquire i).goto i .out) := by
  obtain ⟨⟨hw, hnd⟩, ⟨hl, ha, he, hor⟩, hh, how, hpa⟩ := h
  constructor <;> constructor <;> simp only [State.acquire, State.goto, update_apply] <;> grind [Place.node]

theorem Inv.step (hs : Step s a s') : Inv s' := by
  cases hs.does with
  | relock ho hh hp =>
    rcases h.owner _ ho with hh' | hn
    · cases hh.symm.trans hh'
    · exact absurd (congrArg Place.node hp) hn
  | lock hp ho => exact h.acquire hp ho
  | enqueue hp ha ho ho' => exact h.enqueue hp ha ho ho'
  | trylock hp ho => exact h.acquire hp ho
  | busy ho => exact h
  | misuse ho hh => exact absurd (h.holds _ hh).1 ho
  | release hp ho hw => exact h.release hp ho hw
  | handOver hp ho hw => exact h.handOver hp ho hw
  | @spend i n hp hc =>
    have h' : Inv (s.goto i (.slept n)) := h.goto (congrArg Place.node hp).symm (by simp [hp]) (by simp)
    exact h'.modify (by simp [State.goto])
  | @doze i n hp hc =>
    have h' : Inv (s.goto i (.slept n)) := h.goto (congrArg Place.node hp).symm (by simp [hp]) (by simp)
    exact h'.modify (f := fun t => t.doze none) (by simp [State.goto])
  | granted hp ha ho => exact h.granted ho
  | again hp ha ho => exact h.goto (congrArg Place.node hp).symm (by simp [hp]) fun _ _ => ha
  | @wake i t n hp =>
    have h' : Inv (s.goto i .out) := h.goto (congrArg Place.node hp).symm (fun _ => rfl) (by simp)
    exact h'.modify fun _ _ => Sleeper.wake_asleep _
  | post => exact h.modify fun _ _ => Sleeper.wake_asleep _
  | napSpend hp => exact h.modify (by simp [hp])
  | nap hp => exact h.modify (by simp [hp])

end

theorem Free.inv (h : Free s) : Inv s := by
  obtain ⟨⟨ho, hw, hp, ha, hg⟩, ht⟩ := h
  refine ⟨?_, ?_, ?_⟩ <;> constructor <;> grind [Place.node]

-- A task that was handed the mutex has a credit or is about to be woken.
structure Awaited (s : State) : Prop where
  queued : ∀ t n, s.owner = some t → s.place t = .queued n →
    0 < (s.sleeper t).wakePending ∨ ∃ i m, s.place i = .waking t m
  slept : ∀ t n, s.owner = some t → s.place t = .slept n → (s.sleeper t).asleep = true →
    ∃ i m, s.place i = .waking t m

theorem Awaited.step (h : Awaited s) (hi : Inv s) (hs : CalmStep s a s') : Awaited s' := by
  obtain ⟨hc, hs⟩ := hs
  have hp := (hi.step hs).panic
  obtain ⟨hq, hsl⟩ := h
  obtain ⟨⟨hw, -⟩, ⟨-, ha, he, -⟩, hh, ho, -⟩ := hi
  cases hs.does with
  | relock => cases hp
  | misuse => cases hp
  | busy => exact ⟨hq, hsl⟩
  | @handOver i t n rest hpi hoi hw' =>
    -- the unlocker is about to wake the new owner
    have hnew : ∀ t', (s.handOver i t n rest).owner = some t' →
        ∃ i' m, (s.handOver i t n rest).place i' = .waking t' m := by
      rintro _ ⟨⟩
      exact ⟨i, n, update_self ..⟩
    exact ⟨fun t' _ ht _ => .inr (hnew t' ht), fun t' _ ht _ _ => hnew t' ht⟩
  | _ =>
    simp only [State.calm, Sleeper.fits, wakeLimit] at hc
    constructor <;>
      simp only [State.goto, State.modify, State.acquire, State.enqueue, State.release, update_apply] <;>
      grind [Place.node, wakeLimit]

theorem mutex_correct (h0 : Free s₀) (h : Run CalmStep s₀ es s) :
    (∀ i j, s.holds i = true → s.holds j = true → i = j) ∧
    s.asked = s.granted ++ s.waiters.map Prod.fst ∧
    (∀ i s', Step s (.trylock i) s' → s.holds i = false → s'.holds i = true → s.waiters = []) ∧
    (s.waiters.map Prod.fst).Nodup ∧
    (∀ t n, (t, n) ∈ s.waiters ↔ (s.place t).node = some n ∧ s.owner ≠ some t) ∧
    s.panic = false ∧
    ∀ t n, s.owner = some t → s.place t = .slept n → (s.sleeper t).asleep = true →
      ∃ i m, s.place i = .waking t m := by
  have hinv : Inv s ∧ Awaited s := by
    refine h.invariant (I := fun s => Inv s ∧ Awaited s) ⟨h0.inv, ?_⟩ fun _ _ _ hs he =>
      ⟨hs.1.step he.2, hs.2.step hs.1 he⟩
    obtain ⟨-, ht⟩ := h0
    constructor <;> grind
  obtain ⟨⟨⟨hw, hnd⟩, ⟨-, -, he, hor⟩, hh, -, hp⟩, -, hsl⟩ := hinv
  refine ⟨fun i j hi hj => ?_, hor, fun i s' hs hi hi' => ?_, hnd, hw, hp, hsl⟩
  · exact Option.some.inj ((hh i hi).1.symm.trans (hh j hj).1)
  · cases hs.does with
    | trylock _ ho => exact he ho
    | busy => cases hi.symm.trans hi'

def free (credits : Nat) : State :=
  ⟨none, [], fun _ => .out, fun _ => ⟨false, credits, 0, false, false, none⟩, fun _ => false, 0, false, [], []⟩

theorem free_free (n : Nat) : Free (free n) := ⟨⟨rfl, rfl, rfl, rfl, rfl⟩, fun _ => ⟨rfl, rfl⟩⟩

theorem mutex_correct_contended : ∃ s, Run CalmStep (free 0) [.lock 1, .lock 2, .sleep 2, .unlock 1] s ∧
    s.owner = some 2 ∧ (s.sleeper 2).asleep = true ∧ ∃ i m, s.place i = .waking 2 m := by
  have hrun : ∃ s, Run CalmStep (free 0) [.lock 1, .lock 2, .sleep 2, .unlock 1] s ∧
      s.owner = some 2 ∧ s.place 2 = .slept 0 ∧ (s.sleeper 2).asleep = true :=
    ⟨_, .cons ⟨trivial, rfl, rfl⟩ <| .cons ⟨trivial, rfl, rfl⟩ <| .cons ⟨trivial, trivial, rfl⟩ <|
      .one ⟨trivial, rfl, rfl⟩, rfl, rfl, rfl⟩
  obtain ⟨s, hrun, ho, hp, ha⟩ := hrun
  exact ⟨s, hrun, ho, ha, (mutex_correct (free_free 0) hrun).2.2.2.2.2.2 2 0 ho hp ha⟩

-- The unlock wraps the stale credits of the waiter around.
theorem mutex_owner_sleeps : ∃ s,
    Run Step (free (wakeLimit - 1)) [.lock 1, .lock 2, .unlock 1, .wake 1, .sleep 2] s ∧
    s.owner = some 2 ∧ s.place 2 = .slept 0 ∧ (s.sleeper 2).asleep = true ∧
    ∀ i t m, s.place i ≠ .waking t m := by
  refine ⟨_, .cons ⟨rfl, rfl⟩ <| .cons ⟨rfl, rfl⟩ <| .cons ⟨rfl, rfl⟩ <| .cons ⟨trivial, rfl⟩ <|
    .one ⟨trivial, rfl⟩, rfl, rfl, rfl, fun i t m => ?_⟩
  simp only [State.goto, State.modify, State.acquire, State.enqueue, State.handOver, free, update_apply]
  grind

-- A task that is about to be woken is still in the call whose node was read.
structure Alive (s : State) : Prop where
  still : ∀ i t n, s.place i = .waking t n → (s.place t).node = some n ∧ s.owner = some t
  one : ∀ i j t n m, s.place i = .waking t n → s.place j = .waking t m → i = j
  unasked : ∀ t n, (s.place t).node = some n → s.owner ≠ some t →
    (s.sleeper t).wakePending = 0 ∧ (s.place t = .slept n → (s.sleeper t).asleep = true)
  unwoken : ∀ i t n, s.place i = .waking t n →
    (s.sleeper t).wakePending = 0 ∧ (s.place t = .slept n → (s.sleeper t).asleep = true)

theorem waking_step (hs : Step s a s') (hk : s'.place k = .waking t n) :
    s.place k = .waking t n ∨ (s.owner = some k ∧ s'.owner = some t ∧ (t, n) ∈ s.waiters) := by
  cases hs.does with
  | @handOver i t' n' rest hp ho hw =>
    simp only [State.handOver, State.goto, update_apply] at hk
    split_ifs at hk with hki
    · cases hk
      exact .inr ⟨hki ▸ ho, rfl, hw ▸ List.mem_cons_self⟩
    · exact .inl hk
  | _ =>
    simp -failIfUnchanged only [State.goto, State.modify, State.acquire, State.enqueue, State.release,
      update_apply] at hk ⊢
    grind

-- A call of `mutex_lock` goes on, and its task owns the mutex until then.
theorem node_step (hi : Inv s) (hs : Step s a s') (hn : (s.place t).node = some n) :
    ((s'.place t).node = some n ∨ (s.place t = .slept n ∧ (s.sleeper t).asleep = false)) ∧
      (s.owner = some t → s'.owner = some t) := by
  obtain ⟨⟨hw, -⟩, ⟨-, -, he, -⟩, hh, -, -⟩ := hi
  have hh := hh t
  cases hs.does with
  | busy => exact ⟨.inl hn, id⟩
  | _ =>
    simp -failIfUnchanged only [State.goto, State.modify, State.acquire, State.enqueue, State.release,
      State.handOver, update_apply]
    grind [Place.node]

theorem Alive.step (h : Alive s) (hi : Inv s) (hs : QuietStep s a s') : Alive s' := by
  obtain ⟨hc, hs⟩ := hs
  have hback := fun k t n => waking_step (k := k) (t := t) (n := n) hs
  have hnode := fun t n => node_step (t := t) (n := n) hi hs
  obtain ⟨hst, hone, hask, hun⟩ := h
  obtain ⟨⟨hw, hnd⟩, ⟨-, ha, -, -⟩, hh, ho, -⟩ := hi
  constructor
  case still =>
    intro k t n hk
    rcases hback k t n hk with hk | ⟨-, ho, hm⟩
    · obtain ⟨hn, ho⟩ := hst k t n hk
      obtain ⟨hgo | ⟨hsl, haw⟩, ho'⟩ := hnode t n hn
      · exact ⟨hgo, ho' ho⟩
      · cases haw.symm.trans ((hun k t n hk).2 hsl)
    · obtain ⟨hn, hne⟩ := (hw t n).1 hm
      obtain ⟨hgo | ⟨hsl, haw⟩, -⟩ := hnode t n hn
      · exact ⟨hgo, ho⟩
      · cases haw.symm.trans ((hask t n hn hne).2 hsl)
  case one =>
    intro i j t n m hi hj
    grind
  case unasked =>
    clear hback hnode hone hun hw hnd ho
    cases hs.does with
    | busy => exact hask
    | _ =>
      simp only [State.quiet] at hc
      simp -failIfUnchanged only [State.goto, State.modify, State.acquire, State.enqueue, State.release,
        State.handOver, update_apply]
      grind [Place.node]
  case unwoken =>
    intro k t n hk
    have hold : (s.place t).node = some n ∧ (s.sleeper t).wakePending = 0 ∧
        (s.place t = .slept n → (s.sleeper t).asleep = true) := by
      rcases hback k t n hk with hk | ⟨-, -, hm⟩
      · exact ⟨(hst k t n hk).1, hun k t n hk⟩
      · obtain ⟨hn, hne⟩ := (hw t n).1 hm
        exact ⟨hn, hask t n hn hne⟩
    have hone := fun j m => hone k j t n m
    clear hback hnode hst hun hask hw hnd ho
    cases hs.does with
    | _ =>
      simp only [State.quiet] at hc
      simp -failIfUnchanged only [State.goto, State.modify, State.acquire, State.enqueue, State.release,
        State.handOver, update_apply] at hk ⊢
      grind [Place.node]

theorem waiter_alive {i t n : Nat} (h0 : Free s₀) (h : Run QuietStep s₀ es s) (hw : s.place i = .waking t n) :
    (s.place t).node = some n := by
  have hinv : Inv s ∧ Alive s := by
    refine h.invariant (I := fun s => Inv s ∧ Alive s) ⟨h0.inv, ?_⟩ fun _ _ _ hs he =>
      ⟨hs.1.step he.2, hs.2.step hs.1 he⟩
    obtain ⟨-, ht⟩ := h0
    constructor <;> grind [Place.node]
  exact (hinv.2.still i t n hw).1

theorem waiter_alive_handed : ∃ s, Run QuietStep (free 0) [.lock 1, .lock 2, .unlock 1, .sleep 2] s ∧
    s.place 1 = .waking 2 0 ∧ (s.place 2).node = some 0 := by
  have hrun : ∃ s, Run QuietStep (free 0) [.lock 1, .lock 2, .unlock 1, .sleep 2] s ∧ s.place 1 = .waking 2 0 :=
    ⟨_, .cons ⟨.inl rfl, rfl, rfl⟩ <| .cons ⟨.inr rfl, rfl, rfl⟩ <| .cons ⟨trivial, rfl, rfl⟩ <|
      .one ⟨trivial, trivial, rfl⟩, rfl⟩
  obtain ⟨s, hrun, hp⟩ := hrun
  exact ⟨s, hrun, hp, waiter_alive (free_free 0) hrun hp⟩

-- Another wake lets the new owner return before the unlock reads its node again.
theorem waiter_dead : ∃ s, Run Step (free 0) [.lock 1, .lock 2, .post 2, .unlock 1, .sleep 2, .check 2] s ∧
    s.place 1 = .waking 2 0 ∧ (s.place 2).node = none :=
  ⟨_, .cons ⟨rfl, rfl⟩ <| .cons ⟨rfl, rfl⟩ <| .cons ⟨trivial, rfl⟩ <| .cons ⟨rfl, rfl⟩ <|
    .cons ⟨trivial, rfl⟩ <| .one ⟨trivial, rfl⟩, rfl, rfl⟩

end Jnu.Proc.Mutex
