import Jnu.Proc.Group

namespace Jnu.Proc.Group

open Lib.Trace
open Function

variable {g g' g₀ g₁ g₂ g₃ : World} {e : Event} {es es' es'' : List Event} {i j : Nat} {t t' u u' : Task}
  {m : Move}

structure Booted (g : World) : Prop where
  task : ∀ j u, g.task j = some u → j < g.next ∧ u = ⟨u.process, .user, true, false, 0⟩ ∧
    (g.process u.process).isSome
  process : ∀ p P, g.process p = some P → p < g.next ∧ P.zombie = false ∧ P.parent = none ∧ P.children = []

theorem Booted.tidy (h : Booted g) : Tidy g := by
  have hs : ∀ j u, g.task j = some u → u.stage = .user ∧ u.linked = true := by
    intro j u hu
    rw [(h.task j u hu).2.1]
    exact ⟨rfl, rfl⟩
  refine ⟨fun j u hu => ?_, fun j u hu hl => ?_, fun j u c hu hf => ?_⟩
  · obtain ⟨hj, -, hp⟩ := h.task j u hu
    obtain ⟨P, hP⟩ := Option.isSome_iff_exists.1 hp
    exact ⟨hj, (h.process _ P hP).1⟩
  · cases (hs j u hu).2.symm.trans hl
  · cases (hs j u hu).1.symm.trans hf

theorem Run.tidy (hb : Booted g₀) (h : Run Step g₀ es g) : Tidy g :=
  h.invariant hb.tidy fun _ _ _ => Tidy.step

def threads (n : Nat) : World where
  task j := if 1 ≤ j ∧ j ≤ n then some ⟨0, .user, true, false, 0⟩ else none
  process p := if p = 0 then some ⟨false, n, some 1, none, [], 0, 0⟩ else none
  init := none
  next := n + 1

abbrev twoThreads : World := threads 2

theorem booted_threads (n : Nat) : Booted (threads n) := by
  refine ⟨fun j u hu => ?_, fun p P hP => ?_⟩
  · obtain ⟨hj, ⟨⟩⟩ := Option.ite_none_right_eq_some.1 hu
    exact ⟨Nat.lt_succ_of_le hj.2, rfl, rfl⟩
  · obtain ⟨rfl, ⟨⟩⟩ := Option.ite_none_right_eq_some.1 hP
    exact ⟨Nat.succ_pos n, rfl, rfl, rfl⟩

-- `process_group_exit` does not find a task of the group between its test of TIF_NEED_DIE and its sleep.
def Asleep (g : World) (e : Event) : Prop :=
  ∀ status t j u w, e.2 = .quitGroup status → g.task e.1 = some t → j ≠ e.1 → g.task j = some u →
    u.process = t.process → u.linked = true → u.stage ≠ .tested w

def AsleepStep (g : World) (e : Event) (g' : World) : Prop := Asleep g e ∧ Step g e g'

def Restless (g : World) : Prop :=
  ∀ j u w, g.task j = some u → u.needDie = true → u.stage ≠ .tested w ∧ u.stage ≠ .asleep w

theorem Own.restless {w : Sleep} (h : Own g i t m t') (hd : t'.needDie = true)
    (ht : t.needDie = true → t.stage ≠ .tested w ∧ t.stage ≠ .asleep w) :
    t'.stage ≠ .tested w ∧ t'.stage ≠ .asleep w := by
  cases h with
  | test hs hd' => cases hd'.symm.trans hd
  | @doze w' hs hc =>
    refine ⟨nofun, ?_⟩
    rintro ⟨⟩
    exact absurd hs (ht hd).1
  | consume hs => exact ht hd
  | wake k hk => exact ht hd
  | expire k hk => exact ht hd
  | _ => exact ⟨nofun, nofun⟩

theorem Restless.step (h : Restless g) (hs : AsleepStep g e g') : Restless g' := by
  obtain ⟨i, m⟩ := e
  obtain ⟨hcalm, t, t', ht, ho, hg⟩ := hs
  intro j u w hu hd
  rcases step_task hg hu with ⟨rfl, rfl⟩ | ⟨hj, v, hv, hT⟩ | ⟨-, hM⟩
  · exact ho.restless hd (h j t w ht)
  · have hold : v.stage ≠ .tested w ∧ u.stage ≠ .asleep w := by
      rcases hT.needDie with hn | ⟨status, rfl, hp, hl⟩
      · have hv' := h j v w hv (hn.symm.trans hd)
        exact ⟨hv'.1, fun hu' => hv'.2 (hT.back hu' nofun)⟩
      · exact ⟨hcalm status t j v w rfl ht hj hv hp hl, (hT.marked status rfl hp hl).2 w⟩
    exact ⟨fun hu' => hold.1 (hT.back hu' nofun), hold.2⟩
  · rw [hM.fresh.2] at hd
    cases hd

-- The task is inside `sched_sleep_timed_interruptible`.
def Stage.sleeping (w : Sleep) (s : Stage) : Prop :=
  s = .napping w ∨ s = .tested w ∨ s = .asleep w ∨ ∃ b, s = .woken w b

-- A task with TIF_NEED_DIE is never in TASK_SLEEPING, and what it does next in a sleep is to return -EINTR
-- from it.
theorem group_exit_wakes (hb : Booted g₀) (h : Run AsleepStep g₀ es g) (hu : g.task j = some u)
    (hd : u.needDie = true) : (∀ w, u.stage ≠ .asleep w) ∧
      ∀ w m t', u.stage.sleeping w → Own g j u m t' → t'.stage = .slept w .eintr ∨ t' = u := by
  have hr : Restless g := by
    refine h.invariant ?_ fun _ _ _ => Restless.step
    intro j u w hu hd
    rw [(hb.task j u hu).2.1] at hd
    cases hd
  refine ⟨fun w => (hr j u w hu hd).2, fun w m t' hs ho => ?_⟩
  rcases hs with hs | hs | hs | ⟨b, hs⟩
  · cases ho <;> simp_all [Task.goto]
  · exact absurd hs (hr j u w hu hd).1
  · exact absurd hs (hr j u w hu hd).2
  · cases ho <;> simp_all [Task.goto, Task.slept]

-- The second thread is about to sleep when the first one exits the group.
def lateSleep : List Event :=
  [(2, .enter), (2, .nap), (2, .test), (1, .enter), (1, .quitGroup 0), (2, .doze)]

theorem group_exit_misses_sleeper : ∃ g, Run Step twoThreads lateSleep g ∧
    g.task 2 = some ⟨0, .asleep (.other false), true, true, 0⟩ := by
  refine ⟨_, .cons ⟨_, _, rfl, .enter rfl, rfl⟩ (.cons ⟨_, _, rfl, .nap rfl, rfl⟩
    (.cons ⟨_, _, rfl, .test rfl rfl, rfl⟩ (.cons ⟨_, _, rfl, .enter rfl, rfl⟩
    (.cons ⟨_, _, rfl, .quitGroup 0 rfl, rfl⟩ (.one ⟨_, _, rfl, .doze rfl rfl, rfl⟩))))), rfl⟩

theorem asleepStep (hm : ∀ s, m ≠ .quitGroup s) (hs : Step g (i, m) g') : AsleepStep g (i, m) g' :=
  ⟨fun s _ _ _ _ h => absurd h (hm s), hs⟩

-- The second thread sleeps when the first one exits the group.
def earlySleep : List Event :=
  [(2, .enter), (2, .nap), (2, .test), (2, .doze), (1, .enter), (1, .quitGroup 0)]

theorem group_exit_wakes_sibling : ∃ g g' u, Run AsleepStep twoThreads earlySleep g ∧ Step g (2, .rise) g' ∧
    g'.task 2 = some u ∧ u.stage = .slept (.other false) .eintr := by
  obtain ⟨g, g', t, u, hrun, ht, hs, hd, ho, hg, hu, hne⟩ : ∃ g g' t u, Run AsleepStep twoThreads earlySleep g ∧
      g.task 2 = some t ∧ t.stage = .woken (.other false) false ∧ t.needDie = true ∧ Own g 2 t .rise u ∧
      Step g (2, .rise) g' ∧ g'.task 2 = some u ∧ ∀ b, u.stage ≠ .woken (.other false) b := by
    refine ⟨_, _, _, _, .cons (asleepStep nofun ⟨_, _, rfl, .enter rfl, rfl⟩)
      (.cons (asleepStep nofun ⟨_, _, rfl, .nap rfl, rfl⟩)
      (.cons (asleepStep nofun ⟨_, _, rfl, .test rfl rfl, rfl⟩)
      (.cons (asleepStep nofun ⟨_, _, rfl, .doze rfl rfl, rfl⟩)
      (.cons (asleepStep nofun ⟨_, _, rfl, .enter rfl, rfl⟩)
      (.one ⟨?_, _, _, rfl, .quitGroup 0 rfl, rfl⟩))))), rfl, rfl, rfl, .rise rfl,
      ⟨_, _, rfl, .rise rfl, rfl⟩, rfl, nofun⟩
    intro status t j u w _ _ _ hu _ _
    match j with
    | 0 => cases hu
    | 1 | 2 =>
      cases hu
      exact nofun
    | j + 3 => cases hu
  refine ⟨g, g', u, hrun, hg, hu, ?_⟩
  rcases (group_exit_wakes (booted_threads 2) hrun ht hd).2 _ _ _ (.inr (.inr (.inr ⟨_, hs⟩))) ho with h | rfl
  · exact h
  · exact absurd hs (hne false)

def Barren (g : World) (e : Event) : Prop := ∀ t, e.2 = .make → g.task e.1 = some t → t.needDie = false

def BarrenStep (g : World) (e : Event) (g' : World) : Prop := Barren g e ∧ Step g e g'

structure Walked (i p : Nat) (g : World) : Prop where
  lt : p < g.next
  unforked : ∀ j u, g.task j = some u → u.stage ≠ .forking p
  flagged : ∀ j u, g.task j = some u → u.process = p →
    (u.stage.exiting = true ∧ (j = i ∨ u.linked = false)) ∨ (j ≠ i ∧ u.needDie = true)

theorem Walked.step {p : Nat} (h : Walked i p g) (hs : BarrenStep g e g') : Walked i p g' := by
  obtain ⟨k, m⟩ := e
  obtain ⟨hb, t, t', ht, ho, hg⟩ := hs
  refine ⟨?_, fun j u hu hf => ?_, fun j u hu hp => ?_⟩
  · rw [hg]
    exact Nat.lt_of_lt_of_le h.lt next_le
  · rcases step_task hg hu with ⟨rfl, rfl⟩ | ⟨-, v, hv, hT⟩ | ⟨-, hM⟩
    · rcases ho.forking hf with hf | ⟨-, hf⟩
      · exact h.unforked j t ht hf
      · exact absurd h.lt (hf ▸ Nat.lt_irrefl _)
    · exact h.unforked j v hv (hT.back hf nofun)
    · rw [hM.fresh.2] at hf
      cases hf
  · rcases step_task hg hu with ⟨rfl, rfl⟩ | ⟨hj, v, hv, hT⟩ | ⟨-, hM⟩
    · rw [ho.needDie]
      exact (h.flagged j t ht (ho.process.symm.trans hp)).imp_left fun h' =>
        ⟨ho.exiting h'.1, h'.2.imp_right ho.unlinked⟩
    · rw [hT.exiting, hT.linked]
      exact (h.flagged j v hv (hT.process.symm.trans hp)).imp_right fun h' => ⟨h'.1, hT.dies h'.2⟩
    rcases hM.process with ⟨rfl, hp'⟩ | rfl
    · -- the maker has been flagged
      rcases h.flagged k t ht (hp'.symm.trans hp) with h' | h'
      · cases ho with
        | make _ hs =>
          rw [hs] at h'
          cases h'.1
      · cases h'.2.symm.trans (hb t rfl ht)
    · cases ho with
      | spawn hs => exact absurd (hp ▸ hs) (h.unforked k t ht)

section status

variable {p : Nat} {s s' : Int} {c : Caller} {P : Process}

-- Who has called `process_thread_exit`, and with what status.
def Stage.exits : Stage → Option (Caller × Int)
  | .quitting c s => some (c, s)
  | .leaving _ c s => some (c, s)
  | _ => none

theorem Touched.exits (h : Touched t m u u') : u'.stage.exits = u.stage.exits :=
  h.same Stage.exits fun _ _ => rfl

theorem Own.exits (h : Own g i t m t') (hx : t'.stage.exits = some (c, s')) :
    t.stage.exits = some (c, s') ∨ (t.stage.exiting = false ∧ (m = .retire ∧ c = .retire ∧ t.needDie = true ∧
      (∃ P, g.process t.process = some P ∧ s' = P.groupExitCode) ∨ c = .sysExit ∨ c = .groupExit)) := by
  cases h with
  | retire hs hd hp =>
    cases hx
    rw [hs]
    exact .inr ⟨rfl, .inl ⟨rfl, rfl, hd, _, hp, rfl⟩⟩
  | quit status hs =>
    cases hx
    rw [hs]
    exact .inr ⟨rfl, .inr (.inl rfl)⟩
  | quitGroup status hs =>
    cases hx
    rw [hs]
    exact .inr ⟨rfl, .inr (.inr rfl)⟩
  | exit hs hp hh =>
    rw [hs]
    exact .inl hx
  | consume => exact .inl hx
  | wake => exact .inl hx
  | expire => exact .inl hx
  | _ => cases hx

-- No task of process `p` calls `exit_group`.
def FirstStep (p : Nat) (g : World) (e : Event) (g' : World) : Prop :=
  (∀ t s, g.task e.1 = some t → t.process = p → e.2 ≠ .quitGroup s) ∧ Step g e g'

-- No task of process `p` has to die or is being retired.
def Unwalked (p : Nat) (g : World) : Prop :=
  ∀ j u, g.task j = some u → u.process = p → u.needDie = false ∧ ∀ s, u.stage.exits ≠ some (.retire, s)

theorem Unwalked.step (h : Unwalked p g) (hs : FirstStep p g e g') : Unwalked p g' := by
  obtain ⟨k, m⟩ := e
  obtain ⟨hc, t, t', ht, ho, hg⟩ := hs
  intro j u hu hp
  rcases step_task hg hu with ⟨rfl, rfl⟩ | ⟨-, v, hv, hT⟩ | ⟨-, hM⟩
  · obtain ⟨hd, hx⟩ := h j t ht (ho.process.symm.trans hp)
    refine ⟨ho.needDie.trans hd, fun s hs => ?_⟩
    rcases ho.exits hs with hs | ⟨-, ⟨-, -, hd', -⟩ | hc | hc⟩
    · exact hx s hs
    · cases hd.symm.trans hd'
    · cases hc
    · cases hc
  · obtain ⟨hd, hx⟩ := h j v hv (hT.process.symm.trans hp)
    rw [hT.exits]
    rcases hT.needDie with hn | ⟨s, rfl, hp', -⟩
    · exact ⟨hn.trans hd, hx⟩
    · exact absurd rfl (hc t s ht (hp'.symm.trans (hT.process.symm.trans hp)))
  · rw [hM.fresh.2]
    exact ⟨rfl, nofun⟩

-- No task of process `p` is killed, and its last one out is task `i` or one that is being retired.
def LastOut (i p : Nat) (g : World) (e : Event) : Prop :=
  ∀ t, g.task e.1 = some t → t.process = p → e.2 ≠ .kill ∧
    ∀ c s, t.stage = .leaving true c s → c = .retire ∨ e.1 = i

-- No task of process `p` calls `exit_group` with another status than `s`.
def OneCodeStep (i p : Nat) (s : Int) (g : World) (e : Event) (g' : World) : Prop :=
  LastOut i p g e ∧ (∀ t s', g.task e.1 = some t → t.process = p → e.2 = .quitGroup s' → s' % 256 = s % 256) ∧
    Step g e g'

-- No task of process `p` is retired.
def ShutStep (i p : Nat) (g : World) (e : Event) (g' : World) : Prop :=
  LastOut i p g e ∧ (∀ t, g.task e.1 = some t → t.process = p → e.2 ≠ .retire) ∧ Step g e g'

structure Agreed (i p : Nat) (s : Int) (g : World) : Prop where
  lt : i < g.next ∧ p < g.next
  self : ∀ u, g.task i = some u → u.stage.exiting = true
  exits : ∀ j u c s', g.task j = some u → u.process = p → u.stage.exits = some (c, s') → c = .retire ∨ j = i →
    s' % 256 = s % 256
  status : ∀ P, g.process p = some P → P.zombie = true → P.exitStatus = s % 256

def World.HasCode (g : World) (p : Nat) (s : Int) : Prop :=
  ∀ P, g.process p = some P → P.groupExitCode % 256 = s % 256

theorem Agreed.step (h : Agreed i p s g) (hl : LastOut i p g e) (hs : Step g e g')
    (hr : ∀ t, g.task e.1 = some t → t.process = p → e.2 = .retire → g.HasCode p s) : Agreed i p s g' := by
  obtain ⟨k, m⟩ := e
  obtain ⟨t, t', ht, ho, hg⟩ := hs
  have hn : g.next ≤ g'.next := hg ▸ next_le
  refine ⟨⟨Nat.lt_of_lt_of_le h.lt.1 hn, Nat.lt_of_lt_of_le h.lt.2 hn⟩, fun u hu => ?_,
    fun j u c s' hu hp hx hc => ?_, fun P' hP' hz => ?_⟩
  · rcases step_task hg hu with ⟨rfl, rfl⟩ | ⟨-, v, hv, hT⟩ | ⟨-, hM⟩
    · exact ho.exiting (h.self t ht)
    · exact hT.exiting.trans (h.self v hv)
    · exact absurd h.lt.1 (hM.fresh.1 ▸ Nat.lt_irrefl _)
  · rcases step_task hg hu with ⟨rfl, rfl⟩ | ⟨-, v, hv, hT⟩ | ⟨-, hM⟩
    · have hp := ho.process.symm.trans hp
      rcases ho.exits hx with hx | ⟨hk, hm⟩
      · exact h.exits j t c s' ht hp hx hc
      -- task `i` has called `process_thread_exit` before
      have hi : j ≠ i := by
        rintro rfl
        cases (h.self t ht).symm.trans hk
      obtain rfl := hc.resolve_right hi
      rcases hm with ⟨rfl, -, -, P, hP, rfl⟩ | hm | hm
      · exact hr t ht hp rfl P (hp ▸ hP)
      · cases hm
      · cases hm
    · exact h.exits j v c s' hv (hT.process.symm.trans hp) (hT.exits.symm.trans hx) hc
    · rw [hM.fresh.2] at hx
      cases hx
  · rcases step_process hg hP' with ⟨P, hP, hA⟩ | ⟨-, hn, -⟩
    · rcases hA.zombie with ⟨hz', hs⟩ | ⟨hp, -, hm | ⟨status, hm, hs⟩⟩
      · rw [hs]
        exact h.status P hP (hz'.symm.trans hz)
      · exact absurd hm (hl t ht hp.symm).1
      · rw [hs]
        cases hm
        cases ho with
        | @finish c _ _ hs' =>
          refine h.exits k t c status ht hp.symm ?_ ((hl t ht hp.symm).2 c status hs')
          rw [hs', Stage.exits]
    · exact absurd h.lt.2 (hn ▸ Nat.lt_irrefl _)

theorem OneCodeStep.code (h : g.HasCode p s) (hlt : p < g.next) (hs : OneCodeStep i p s g e g') :
    g'.HasCode p s := by
  obtain ⟨k, m⟩ := e
  obtain ⟨-, hc, t, t', ht, ho, hg⟩ := hs
  intro P' hP'
  rcases step_process hg hP' with ⟨P, hP, hA⟩ | ⟨-, hn, -⟩
  · rcases hA.code with hcode | ⟨hp, hm⟩
    · rw [hcode]
      exact h P hP
    · exact hc t _ ht hp.symm hm
  · exact absurd hlt (hn ▸ Nat.lt_irrefl _)

theorem Unwalked.agreed (h : Unwalked t.process g) (hT : Tidy g) (ht : g.task i = some t)
    (hP : g.process t.process = some P) (hz : P.zombie = false) (hw : Step g (i, .quitGroup s) g₁) :
    Agreed i t.process s g₁ ∧ g₁.HasCode t.process s := by
  obtain ⟨t1, t', ht1, ho, hg⟩ := hw
  cases ht.symm.trans ht1
  have hprocess : ∀ Q, g₁.process t.process = some Q → Q = { P with groupExitCode := s } := by
    intro Q hQ
    rw [hg] at hQ
    obtain ⟨Q0, hQ0, rfl⟩ := modify_process hQ
    cases hP.symm.trans hQ0
    exact if_pos rfl
  refine ⟨⟨hg ▸ (hT.lt i t ht).imp (Nat.lt_of_lt_of_le · next_le) (Nat.lt_of_lt_of_le · next_le),
    fun u hu => ?_, fun j u c s' hu hp hx hc => ?_, fun Q hQ hQz => ?_⟩, fun Q hQ => ?_⟩
  · rw [hg] at hu
    cases (update_self i _ _).symm.trans hu
    cases ho
    rfl
  · rcases step_task hg hu with ⟨rfl, rfl⟩ | ⟨hj, v, hv, hT⟩ | ⟨-, hM⟩
    · cases ho
      cases hx
      rfl
    · obtain rfl := hc.resolve_right hj
      exact absurd (hT.exits.symm.trans hx) ((h j v hv (hT.process.symm.trans hp)).2 s')
    · rcases hM.process with ⟨hm, -⟩ | hm <;> cases hm
  · rw [hprocess Q hQ] at hQz
    cases hz.symm.trans hQz
  · rw [hprocess Q hQ]

-- The status of a zombie is that of the first `exit_group`, if its last one out is the caller of that or one
-- that has been retired, and no one is retired any more when an `exit_group` with another status comes.
theorem group_exit_status (hb : Booted g₀) (h : Run (FirstStep p) g₀ es g) (ht : g.task i = some t)
    (hp : t.process = p) (hP : g.process p = some P) (hz : P.zombie = false)
    (hw : Step g (i, .quitGroup s) g₁) (h' : Run (OneCodeStep i p s) g₁ es' g₂)
    (h'' : Run (ShutStep i p) g₂ es'' g₃) {P' : Process} (hP' : g₃.process p = some P')
    (hz' : P'.zombie = true) : P'.exitStatus = s % 256 := by
  subst hp
  have hT : Tidy g := Run.tidy hb (h.mono fun _ _ _ _ hs => hs.2)
  have hU : Unwalked t.process g := by
    refine h.invariant (fun j u hu _ => ?_) fun _ _ _ => Unwalked.step
    rw [(hb.task j u hu).2.1]
    exact ⟨rfl, nofun⟩
  have h2 : Agreed i t.process s g₂ ∧ g₂.HasCode t.process s := by
    refine h'.invariant (I := fun g => Agreed i t.process s g ∧ g.HasCode t.process s)
      (hU.agreed hT ht hP hz hw)
      fun _ _ _ hI hs => ⟨hI.1.step hs.1 hs.2.2 fun _ _ _ _ => hI.2, hs.code hI.2 hI.1.lt.2⟩
  have h3 : Agreed i t.process s g₃ := by
    refine h''.invariant h2.1 fun _ _ _ hI hs => hI.step hs.1 hs.2.2 fun t ht hp hm => ?_
    exact absurd hm (hs.2.1 t ht hp)
  exact h3.status P' hP' hz'

theorem lastOut (ht : g.task j = some t) (hm : m ≠ .kill)
    (hs : ∀ c s, t.stage = .leaving true c s → c = .retire ∨ j = i) : LastOut i p g (j, m) := by
  intro u hu _
  cases ht.symm.trans hu
  exact ⟨hm, hs⟩

-- Thread 2 is in `sys_exit` when the first one exits the group. Thread 3 is retired, thread 4 exits the group
-- again, and thread 3 is the last one out.
def exitRace : List Event := [(2, .enter), (2, .quit 7), (4, .enter), (1, .enter)]
def exitGate : List Event := [(2, .exit (some 3)), (2, .die), (3, .enter), (3, .retire)]
def exitLate : List Event :=
  [(4, .quitGroup 7), (4, .exit (some 3)), (4, .die), (1, .exit (some 3)), (1, .die), (3, .exit none),
    (3, .finish 259)]

theorem group_exit_status_last : ∃ g g₁ g₂ g₃ P, Run (FirstStep 0) (threads 4) exitRace g ∧
    Step g (1, .quitGroup 259) g₁ ∧ Run (OneCodeStep 1 0 259) g₁ exitGate g₂ ∧
    Run (ShutStep 1 0) g₂ exitLate g₃ ∧ g₃.process 0 = some P ∧ P.exitStatus = 3 := by
  obtain ⟨g, g₁, g₂, g₃, t, P, P', h, ht, hp, hP, hz, hw, h', h'', hP', hz'⟩ : ∃ g g₁ g₂ g₃ t P P',
      Run (FirstStep 0) (threads 4) exitRace g ∧ g.task 1 = some t ∧ t.process = 0 ∧ g.process 0 = some P ∧
      P.zombie = false ∧ Step g (1, .quitGroup 259) g₁ ∧ Run (OneCodeStep 1 0 259) g₁ exitGate g₂ ∧
      Run (ShutStep 1 0) g₂ exitLate g₃ ∧ g₃.process 0 = some P' ∧ P'.zombie = true := by
    refine ⟨_, _, _, _, _, _, _, .cons ⟨fun _ _ _ _ => nofun, _, _, rfl, .enter rfl, rfl⟩
      (.cons ⟨fun _ _ _ _ => nofun, _, _, rfl, .quit 7 rfl, rfl⟩
      (.cons ⟨fun _ _ _ _ => nofun, _, _, rfl, .enter rfl, rfl⟩
      (.one ⟨fun _ _ _ _ => nofun, _, _, rfl, .enter rfl, rfl⟩))), rfl, rfl, rfl, rfl,
      ⟨_, _, rfl, .quitGroup 259 rfl, rfl⟩,
      .cons ⟨lastOut rfl nofun nofun, fun _ _ _ _ => nofun, _, _, rfl, .exit rfl rfl ?_, rfl⟩
      (.cons ⟨lastOut rfl nofun nofun, fun _ _ _ _ => nofun, _, _, rfl, .die rfl, rfl⟩
      (.cons ⟨lastOut rfl nofun nofun, fun _ _ _ _ => nofun, _, _, rfl, .enter rfl, rfl⟩
      (.one ⟨lastOut rfl nofun nofun, fun _ _ _ _ => nofun, _, _, rfl, .retire rfl rfl rfl, rfl⟩))),
      .cons ⟨lastOut rfl nofun nofun, fun _ _ _ => nofun, _, _, rfl, .quitGroup 7 rfl, rfl⟩
      (.cons ⟨lastOut rfl nofun nofun, fun _ _ _ => nofun, _, _, rfl, .exit rfl rfl ?_, rfl⟩
      (.cons ⟨lastOut rfl nofun nofun, fun _ _ _ => nofun, _, _, rfl, .die rfl, rfl⟩
      (.cons ⟨lastOut rfl nofun nofun, fun _ _ _ => nofun, _, _, rfl, .exit rfl rfl ?_, rfl⟩
      (.cons ⟨lastOut rfl nofun nofun, fun _ _ _ => nofun, _, _, rfl, .die rfl, rfl⟩
      (.cons ⟨lastOut rfl nofun nofun, fun _ _ _ => nofun, _, _, rfl, .exit rfl rfl nofun, rfl⟩
      (.one ⟨lastOut rfl nofun ?_, fun _ _ _ => nofun, _, _, rfl, .finish rfl rfl nofun, rfl⟩)))))), rfl, rfl⟩
    case refine_4 =>
      rintro _ _ ⟨⟩
      exact .inl rfl
    all_goals
      rintro _ ⟨⟩
      exact ⟨by decide, _, rfl, rfl, rfl⟩
  exact ⟨g, g₁, g₂, g₃, P', h, hw, h', h'', hP',
    group_exit_status (booted_threads 4) h ht hp hP hz hw h' h'' hP' hz'⟩

-- The second thread is past its return to user mode with another status.
def lateStatus : List Event :=
  [(2, .enter), (2, .quit 7), (1, .enter), (1, .quitGroup 3), (1, .exit (some 2)), (1, .die), (2, .exit none),
    (2, .finish 7)]

theorem group_exit_overruled : ∃ g P, Run Step twoThreads lateStatus g ∧ g.process 0 = some P ∧
    P.zombie = true ∧ P.exitStatus = 7 := by
  refine ⟨_, _, .cons ⟨_, _, rfl, .enter rfl, rfl⟩ (.cons ⟨_, _, rfl, .quit 7 rfl, rfl⟩
    (.cons ⟨_, _, rfl, .enter rfl, rfl⟩ (.cons ⟨_, _, rfl, .quitGroup 3 rfl, rfl⟩
    (.cons ⟨_, _, rfl, .exit rfl rfl ?_, rfl⟩ (.cons ⟨_, _, rfl, .die rfl, rfl⟩
    (.cons ⟨_, _, rfl, .exit rfl rfl nofun, rfl⟩ (.one ⟨_, _, rfl, .finish rfl rfl nofun, rfl⟩))))))),
    rfl, rfl, rfl⟩
  rintro _ ⟨⟩
  exact ⟨by decide, _, rfl, rfl, rfl⟩

end status

-- While a task has still to read the tid of the thread it made, no other task runs.
def Prompt (g : World) (e : Event) : Prop := ∀ i t j b, g.task i = some t → t.stage = .made j b → e.1 = i

def PromptStep (g : World) (e : Event) (g' : World) : Prop := Prompt g e ∧ Step g e g'

def Unread (g : World) : Prop :=
  ∀ i t j b, g.task i = some t → t.stage = .made j b → j ≠ i ∧ ∃ u, g.task j = some u ∧ u.stage = .fresh

theorem Own.made {b : Bool} (h : Own g i t m t') (hs : t'.stage = .made j b) :
    (m = .make ∧ j = g.next) ∨ ((∃ b, t.stage = .made j b) ∧ ∀ c, m ≠ .reap c) := by
  cases h with
  | make _ h =>
    cases hs
    exact .inl ⟨rfl, rfl⟩
  | tell h =>
    cases hs
    exact .inr ⟨⟨true, h⟩, nofun⟩
  | wake k hk => exact .inr ⟨⟨b, hs⟩, nofun⟩
  | expire k hk => exact .inr ⟨⟨b, hs⟩, nofun⟩
  | consume h => cases h.symm.trans hs
  | _ => cases hs

theorem Unread.step (h : Unread g) (hT : Tidy g) (hs : PromptStep g e g') : Unread g' := by
  obtain ⟨k, m⟩ := e
  obtain ⟨hp, t, t', ht, ho, hg⟩ := hs
  intro i v j b hv hm
  -- the task has made the thread before, or does so now
  have hi : i = k ∧ v = t' := by
    rcases step_task hg hv with h' | ⟨hi, w, hw, hT⟩ | ⟨-, hM⟩
    · exact h'
    · exact absurd (hp i w j b hw (hT.back hm nofun)).symm hi
    · rw [hM.fresh.2] at hm
      cases hm
  obtain ⟨rfl, rfl⟩ := hi
  rcases ho.made hm with ⟨rfl, rfl⟩ | ⟨⟨b', hs⟩, hr⟩
  · have hne : g.next ≠ i := (Nat.ne_of_lt (hT.lt i t ht).1).symm
    refine ⟨hne, ⟨t.process, .fresh, true, false, 0⟩, ?_, rfl⟩
    rw [hg]
    exact (update_of_ne hne _ _).trans (update_self ..)
  obtain ⟨hj, u, hu, hf⟩ := h i t j b' ht hs
  obtain ⟨u', hu'⟩ := (effect_some hu (Nat.ne_of_lt (hT.lt j u hu).1)).resolve_right (hr _)
  refine ⟨hj, u', hg ▸ (update_of_ne hj ..).trans hu', ?_⟩
  rcases effect_task hj hu' with ⟨w, hw, hT'⟩ | hM
  · cases hu.symm.trans hw
    rcases hT'.stage with hst | ⟨w, b, hst, -⟩
    · exact hst.trans hf
    · cases hf.symm.trans hst
  · rw [hM.fresh.2]

-- The new thread has not run when its creator reads its tid, and what the creator stores is its tid.
theorem clone_reads_fresh {b : Bool} (hb : Booted g₀) (h : Run PromptStep g₀ es g) (ht : g.task i = some t)
    (hs : t.stage = .made j b) : (∃ u, g.task j = some u ∧ u.stage = .fresh) ∧
      ∀ m t' tid, Own g i t m t' → m = .tell tid ∨ m = .read tid → tid = j := by
  have hinv : Tidy g ∧ Unread g := by
    refine h.invariant (I := fun g => Tidy g ∧ Unread g) ⟨hb.tidy, fun i t j b ht hs => ?_⟩
      fun _ _ _ h hs => ⟨h.1.step hs.2, h.2.step h.1 hs⟩
    rw [(hb.task i t ht).2.1] at hs
    cases hs
  obtain ⟨-, u, hu, hf⟩ := hinv.2 i t j b ht hs
  have hread : ∀ {j' b' tid}, t.stage = .made j' b' → g.Reads j' tid → tid = j := by
    intro j' b' tid hs' hr
    cases hs.symm.trans hs'
    exact hr u hu (by rw [hf]; exact nofun)
  refine ⟨⟨u, hu, hf⟩, fun m t' tid ho hm => ?_⟩
  rcases hm with rfl | rfl
  · cases ho with
    | tell hs' hr => exact hread hs' hr
  · cases ho with
    | read hs' hr => exact hread hs' hr

theorem prompt_first (h : ∀ i, i ≠ 1 → g.task i = twoThreads.task i) : Prompt g (1, m) := by
  intro i t j b ht hs
  by_contra hi
  rw [h i (Ne.symm hi)] at ht
  rw [((booted_threads 2).task i t ht).2.1] at hs
  cases hs

theorem clone_reads_fresh_third :
    ∃ g g' tid, Run PromptStep twoThreads [(1, .enter), (1, .count), (1, .make)] g ∧
    Step g (1, .tell tid) g' ∧ tid = 3 := by
  obtain ⟨g, t, t', hrun, ht, hs, ho⟩ : ∃ g t t',
      Run PromptStep twoThreads [(1, .enter), (1, .count), (1, .make)] g ∧ g.task 1 = some t ∧
      t.stage = .made 3 true ∧ Own g 1 t (.tell 3) t' :=
    ⟨_, _, _, .cons ⟨prompt_first fun _ _ => rfl, _, _, rfl, .enter rfl, rfl⟩
      (.cons ⟨prompt_first fun _ hi => update_of_ne hi _ _, _, _, rfl, .count rfl rfl (by decide), rfl⟩
      (.one ⟨prompt_first fun _ hi => (update_of_ne hi _ _).trans (update_of_ne hi _ _), _, _, rfl,
        .make true rfl, rfl⟩)), rfl, rfl, .tell rfl fun _ _ _ => rfl⟩
  exact ⟨g, _, 3, hrun, ⟨t, t', ht, ho, rfl⟩,
    (clone_reads_fresh (booted_threads 2) hrun ht hs).2 _ t' 3 ho (.inl rfl)⟩

-- The new thread exits before its creator goes on.
def earlyDeath : List Event :=
  [(1, .enter), (1, .count), (1, .make), (3, .first), (3, .enter), (3, .quit 0), (3, .exit none), (3, .die)]

theorem clone_reads_freed : ∃ g g' u, Run Step twoThreads earlyDeath g ∧ g.task 3 = some u ∧
    u.stage = .freed ∧ Step g (1, .read 99) g' := by
  refine ⟨_, _, _, .cons ⟨_, _, rfl, .enter rfl, rfl⟩ (.cons ⟨_, _, rfl, .count rfl rfl (by decide), rfl⟩
    (.cons ⟨_, _, rfl, .make false rfl, rfl⟩ (.cons ⟨_, _, rfl, .first rfl, rfl⟩
    (.cons ⟨_, _, rfl, .enter rfl, rfl⟩ (.cons ⟨_, _, rfl, .quit 0 rfl, rfl⟩
    (.cons ⟨_, _, rfl, .exit rfl rfl nofun, rfl⟩ (.one ⟨_, _, rfl, .die rfl, rfl⟩))))))), rfl, rfl,
    _, _, rfl, .read rfl ?_, rfl⟩
  rintro u ⟨⟩ hu
  exact absurd rfl hu

end Jnu.Proc.Group
