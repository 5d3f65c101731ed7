import Jnu.Lib.Refs
import Jnu.Lib.Trace

namespace Jnu.Proc

open Lib.Refs Lib.Trace
open Function

-- Where a task is. No spinlock is held at any of these places, so the timer may interrupt it there.
inductive Stage
  -- a new task that has not run yet
  | fresh
  | user
  | kernel
  -- `mmap`, `munmap`, `mprotect`, a user copy or `vmm_clone_space` has read `process->space`
  | uses (sp : Nat)
  -- `process_clone_thread` has counted a thread that is not there yet
  | counted
  -- `process_fork` has a copy of the space
  | forked (sp : Nat)
  -- `process_execve` has a new space, and after the swap the old one
  | building (sp : Nat)
  | swapped (old : Option Nat)
  -- `process_wait` has unlinked a child
  | reaping (child : Nat)
  -- `process_thread_exit`: before the count, after it, in `clear_child_tid`, and behind it
  | quitting
  | leaving (last : Bool)
  | clearing (last : Bool) (sp : Nat)
  | cleared (last : Bool)
  -- TASK_DEAD or TASK_ZOMBIE
  | gone

namespace Stage

-- The task needs its process.
def active : Stage → Bool
  | .cleared _ => false
  | .gone => false
  | _ => true

-- The task comes back to user mode unless it has to die.
def returns : Stage → Bool
  | .quitting => false
  | .leaving _ => false
  | .clearing _ _ => false
  | .cleared _ => false
  | .gone => false
  | _ => true

-- The space a system call of the task works on.
def held : Stage → Option Nat
  | .uses sp => some sp
  | .clearing _ sp => some sp
  | _ => none

-- A space that only the task knows.
def own : Stage → Option Nat
  | .forked sp => some sp
  | .building sp => some sp
  | .swapped old => old
  | _ => none

def child : Stage → Option Nat
  | .reaping c => some c
  | _ => none

end Stage

-- `frame` is the space of the registers of user mode, `linked` says that the task is in `process->tasks`,
-- and `needDie` is TIF_NEED_DIE.
structure Task where
  process : Nat
  stage : Stage
  frame : Nat
  linked : Bool
  needDie : Bool

-- A space `none` is the kernel's own.
structure Process where
  zombie : Bool
  space : Option Nat
  parent : Option Nat

-- The tasks and processes by the identity of their objects. `next` was never given out.
structure World where
  task : Nat → Option Task
  process : Nat → Option Process
  liveThreads : Nat → Int
  init : Option Nat
  next : Nat

namespace World

def setTask (g : World) (i : Nat) (t : Task) : World :=
  { g with task := update g.task i (some t) }

def setProcess (g : World) (p : Nat) (P : Process) : World :=
  { g with process := update g.process p (some P) }

def setThreads (g : World) (p : Nat) (n : Int) : World :=
  { g with liveThreads := update g.liveThreads p n }

def addThreads (g : World) (p : Nat) (n : Int) : World := g.setThreads p (g.liveThreads p + n)

def goto (g : World) (i : Nat) (t : Task) (s : Stage) : World := g.setTask i { t with stage := s }

def grow (g : World) (n : Nat) : World := { g with next := g.next + n }

-- `process_group_exit` marks the other tasks of the group.
def markOthers (g : World) (i p : Nat) : World :=
  { g with task := fun j => (g.task j).map fun t =>
      if j ≠ i ∧ t.process = p ∧ t.linked = true then { t with needDie := true } else t }

-- `process_exit_current` hands the children to init.
def exitProcess (g : World) (p : Nat) : World :=
  { g with process := fun q => (g.process q).map fun Q =>
      let Q := if Q.parent = some p then { Q with parent := g.init } else Q
      if q = p then { Q with zombie := true } else Q }

-- `process_reap` frees the tasks that are still linked, and the process.
def reap (g : World) (c : Nat) : World :=
  { g with
    task := fun j => (g.task j).filter fun t => !(t.process == c && t.linked)
    process := update g.process c none }

end World

def maxThreadsPerGroup : Int := 256

inductive Move
  | start
  | enter
  | resume
  | take
  | release
  | count
  | uncount
  | make
  | fork
  | unfork
  | spawn
  | build
  | abandon
  | swap
  | destroy
  | wait (c : Nat)
  | reap
  | quit
  | quitGroup
  | exit
  | clear
  | skip
  | clearEnd
  | die
  | finish
  | kill
  deriving DecidableEq

-- What one task does between two points where it can be interrupted.
inductive TaskStep (g : World) (i : Nat) (t : Task) : Move → World → Prop
  -- `thread_user_entry` and `user_thread_entry`, which do not look at TIF_NEED_DIE
  | start (hs : t.stage = .fresh) : TaskStep g i t .start (g.goto i t .user)
  -- a system call or a fault, and the way back through `arch_return_to_user_work`
  | enter (hs : t.stage = .user) : TaskStep g i t .enter (g.goto i t .kernel)
  | resume (hs : t.stage = .kernel) (hd : t.needDie = false) :
      TaskStep g i t .resume (g.goto i t .user)
  | take {P : Process} {sp : Nat} (hs : t.stage = .kernel) (hp : g.process t.process = some P)
      (hsp : P.space = some sp) : TaskStep g i t .take (g.goto i t (.uses sp))
  | release {sp : Nat} (hs : t.stage = .uses sp) : TaskStep g i t .release (g.goto i t .kernel)
  -- `process_clone_thread`
  | count (hs : t.stage = .kernel) (hn : g.liveThreads t.process < maxThreadsPerGroup) :
      TaskStep g i t .count ((g.goto i t .counted).addThreads t.process 1)
  | uncount (hs : t.stage = .counted) :
      TaskStep g i t .uncount ((g.goto i t .kernel).addThreads t.process (-1))
  | make (hs : t.stage = .counted) :
      TaskStep g i t .make
        (((g.goto i t .kernel).setTask g.next ⟨t.process, .fresh, t.frame, true, false⟩).grow 1)
  -- `process_fork`
  | fork {sp : Nat} (hs : t.stage = .uses sp) :
      TaskStep g i t .fork ((g.goto i t (.forked g.next)).grow 1)
  | unfork {sp : Nat} (hs : t.stage = .forked sp) : TaskStep g i t .unfork (g.goto i t .kernel)
  | spawn {sp : Nat} (hs : t.stage = .forked sp) :
      TaskStep g i t .spawn
        (((((g.goto i t .kernel).setProcess g.next ⟨false, some sp, some t.process⟩).setThreads
          g.next 1).setTask (g.next + 1) ⟨g.next, .fresh, sp, true, false⟩).grow 2)
  -- `process_execve`
  | build (hs : t.stage = .kernel) :
      TaskStep g i t .build ((g.goto i t (.building g.next)).grow 1)
  | abandon {sp : Nat} (hs : t.stage = .building sp) :
      TaskStep g i t .abandon (g.goto i t .kernel)
  | swap {P : Process} {sp : Nat} (hs : t.stage = .building sp)
      (hp : g.process t.process = some P) :
      TaskStep g i t .swap ((g.setTask i { t with stage := .swapped P.space, frame := sp }).setProcess
        t.process { P with space := some sp })
  | destroy {old : Option Nat} (hs : t.stage = .swapped old) :
      TaskStep g i t .destroy (g.goto i t .kernel)
  -- `process_wait`
  | wait {C : Process} {c : Nat} (hs : t.stage = .kernel) (hc : g.process c = some C)
      (hz : C.zombie = true) (hpar : C.parent = some t.process) :
      TaskStep g i t (.wait c) ((g.goto i t (.reaping c)).setProcess c { C with parent := none })
  | reap {c : Nat} (hs : t.stage = .reaping c) :
      TaskStep g i t .reap ((g.reap c).goto i t .kernel)
  -- `process_thread_exit` and `process_group_exit`
  | quit (hs : t.stage = .kernel) : TaskStep g i t .quit (g.goto i t .quitting)
  | quitGroup (hs : t.stage = .kernel) :
      TaskStep g i t .quitGroup ((g.markOthers i t.process).goto i t .quitting)
  | exit (hs : t.stage = .quitting) :
      TaskStep g i t .exit
        ((g.setTask i { t with
          stage := .leaving (decide (g.liveThreads t.process - 1 ≤ 0))
          linked := t.linked && decide (g.liveThreads t.process - 1 ≤ 0) }).addThreads
            t.process (-1))
  | clear {P : Process} {last : Bool} {sp : Nat} (hs : t.stage = .leaving last)
      (hp : g.process t.process = some P) (hsp : P.space = some sp) :
      TaskStep g i t .clear (g.goto i t (.clearing last sp))
  | skip {last : Bool} (hs : t.stage = .leaving last) :
      TaskStep g i t .skip (g.goto i t (.cleared last))
  | clearEnd {last : Bool} {sp : Nat} (hs : t.stage = .clearing last sp) :
      TaskStep g i t .clearEnd (g.goto i t (.cleared last))
  | die (hs : t.stage = .cleared false) : TaskStep g i t .die (g.goto i t .gone)
  | finish (hs : t.stage = .cleared true)
      (hinit : g.init = some t.process → ∀ q Q, g.process q = some Q → Q.parent ≠ some t.process) :
      TaskStep g i t .finish ((g.exitProcess t.process).goto i t .gone)
  -- `kill_current_user`, after a fault
  | kill (hs : t.stage = .kernel)
      (hinit : g.init = some t.process → ∀ q Q, g.process q = some Q → Q.parent ≠ some t.process) :
      TaskStep g i t .kill ((g.exitProcess t.process).goto i t .gone)

abbrev Event := Nat × Move

def WorldStep (g : World) (e : Event) (g' : World) : Prop :=
  ∃ t, g.task e.1 = some t ∧ TaskStep g e.1 t e.2 g'

-- The process and the space of it that a step destroys.
def Destroys (g : World) (e : Event) (p sp : Nat) : Prop :=
  ∃ t, g.task e.1 = some t ∧
    match e.2 with
    | .abandon => t.process = p ∧ t.stage = .building sp
    | .destroy => t.process = p ∧ t.stage = .swapped (some sp)
    | .reap => t.stage = .reaping p ∧ ∃ P, g.process p = some P ∧ P.space = some sp
    | _ => False

-- The task holds the space in a system call, or goes to user mode with registers of it.
def Task.Needs (t : Task) (sp : Nat) : Prop :=
  t.stage.held = some sp ∨ (t.stage.returns = true ∧ (t.needDie = false ∨ t.stage = .fresh) ∧ t.frame = sp)

def InUse (g : World) (i p sp : Nat) : Prop :=
  ∃ j t, j ≠ i ∧ g.task j = some t ∧ t.process = p ∧ t.Needs sp

-- No other task of the process needs it any more.
def Alone (g : World) (i p : Nat) : Prop :=
  ∀ j t, j ≠ i → g.task j = some t → t.process = p → t.stage.active = false

-- A task that replaces the space of its process or ends the process is alone in it.
def Calm (g : World) (e : Event) : Prop :=
  match e.2 with
  | .swap => ∀ t, g.task e.1 = some t → Alone g e.1 t.process
  | .finish => ∀ t, g.task e.1 = some t → Alone g e.1 t.process
  | .kill => ∀ t, g.task e.1 = some t → Alone g e.1 t.process
  | _ => True

def CalmStep (g : World) (e : Event) (g' : World) : Prop := Calm g e ∧ WorldStep g e g'

structure Booted (g : World) : Prop where
  task : ∀ i t, g.task i = some t → i < g.next ∧ t.stage = .user ∧
    ∃ P, g.process t.process = some P ∧ P.zombie = false ∧ P.space = some t.frame
  process : ∀ p P, g.process p = some P → p < g.next ∧ ∀ sp, P.space = some sp → sp < g.next
  apart : ∀ p P q Q sp, g.process p = some P → g.process q = some Q → P.space = some sp →
    Q.space = some sp → p = q

section invariant

variable {g g' : World} {i p sp c n : Nat} {t t' : Task} {P C : Process} {s : Stage}

-- What is known of a task as long as no space is destroyed too early.
structure Fits (g : World) (t : Task) : Prop where
  alive : t.stage.active = true → ∃ P, g.process t.process = some P ∧ P.zombie = false
  held : ∀ P sp, g.process t.process = some P → t.stage.held = some sp → P.space = some sp
  frame : ∀ P, g.process t.process = some P → t.stage.returns = true → P.space = some t.frame
  own_lt : ∀ sp, t.stage.own = some sp → sp < g.next
  own_apart : ∀ sp p P, t.stage.own = some sp → g.process p = some P → P.space ≠ some sp
  child : ∀ c, t.stage.child = some c → ∃ C, g.process c = some C ∧ C.zombie = true ∧ C.parent = none

structure Orderly (g : World) : Prop where
  task_lt : ∀ i t, g.task i = some t → i < g.next
  process_lt : ∀ p P, g.process p = some P → p < g.next
  space_lt : ∀ p P sp, g.process p = some P → P.space = some sp → sp < g.next
  apart : ∀ p P q Q sp, g.process p = some P → g.process q = some Q → P.space = some sp →
    Q.space = some sp → p = q
  fits : ∀ i t, g.task i = some t → Fits g t
  own_inj : ∀ i t j t' sp, g.task i = some t → g.task j = some t' → t.stage.own = some sp →
    t'.stage.own = some sp → i = j
  child_inj : ∀ i t j t' c, g.task i = some t → g.task j = some t' → t.stage.child = some c →
    t'.stage.child = some c → i = j

def Distinct (g : World) (f : Stage → Option Nat) : Prop :=
  ∀ i t j t' x, g.task i = some t → g.task j = some t' → f t.stage = some x → f t'.stage = some x → i = j

theorem Fits.plain (hp : ∃ P, g.process t.process = some P ∧ P.zombie = false ∧ P.space = some t.frame)
    (hh : t.stage.held = none) (ho : t.stage.own = none) (hc : t.stage.child = none) : Fits g t := by
  obtain ⟨P, hP, hz, hf⟩ := hp
  refine ⟨fun _ => ⟨P, hP, hz⟩, by simp [hh], fun Q hQ _ => ?_, by simp [ho], by simp [ho], by simp [hc]⟩
  cases hP.symm.trans hQ
  exact hf

theorem Booted.orderly (h : Booted g) : Orderly g where
  task_lt i t ht := (h.task i t ht).1
  process_lt p P hp := (h.process p P hp).1
  space_lt p P sp hp := (h.process p P hp).2 sp
  apart := h.apart
  fits i t ht := by
    obtain ⟨-, hs, hp⟩ := h.task i t ht
    exact .plain hp (by rw [hs]; rfl) (by rw [hs]; rfl) (by rw [hs]; rfl)
  own_inj i t j t' sp ht _ ho := by
    rw [(h.task i t ht).2.1] at ho
    cases ho
  child_inj i t j t' c ht _ hc := by
    rw [(h.task i t ht).2.1] at hc
    cases hc

theorem Fits.congr (h : Fits g t) (hp : g'.process = g.process) (hn : g.next ≤ g'.next) :
    Fits g' t := by
  obtain ⟨h1, h2, h3, h4, h5, h6⟩ := h
  rw [← hp] at h1 h2 h3 h5 h6
  exact ⟨h1, h2, h3, fun sp ho => Nat.lt_of_lt_of_le (h4 sp ho) hn, h5, h6⟩

theorem Orderly.move (h : Orderly g) (hi : i < g'.next) (htask : g'.task = update g.task i (some t'))
    (hp : g'.process = g.process) (hn : g.next ≤ g'.next) (hfits : Fits g' t')
    (hown : ∀ sp, t'.stage.own = some sp → ∀ j u, g.task j = some u → u.stage.own ≠ some sp)
    (hchild : ∀ c, t'.stage.child = some c → ∀ j u, g.task j = some u → u.stage.child ≠ some c) :
    Orderly g' := by
  have hcase : ∀ j u, g'.task j = some u → (j = i ∧ u = t') ∨ g.task j = some u := by
    intro j u hu
    rw [htask] at hu
    exact (of_update hu).imp_right And.right
  have hinj : ∀ f : Stage → Option Nat, (∀ x, f t'.stage = some x → ∀ j u, g.task j = some u →
      f u.stage ≠ some x) → Distinct g f → Distinct g' f := by
    intro f hnew hold j u j' u' x hu hu' hx hx'
    rcases hcase j u hu with ⟨rfl, rfl⟩ | hu
    · rcases hcase j' u' hu' with ⟨rfl, -⟩ | hu'
      · rfl
      · exact absurd hx' (hnew x hx j' u' hu')
    · rcases hcase j' u' hu' with ⟨-, rfl⟩ | hu'
      · exact absurd hx (hnew x hx' j u hu)
      · exact hold j u j' u' x hu hu' hx hx'
  refine ⟨fun j u hu => ?_, ?_, ?_, ?_, fun j u hu => ?_, hinj _ hown h.own_inj, hinj _ hchild h.child_inj⟩
  · have := h.task_lt j u
    grind
  · rw [hp]
    exact fun q Q hq => Nat.lt_of_lt_of_le (h.process_lt q Q hq) hn
  · rw [hp]
    exact fun q Q sp hq hsp => Nat.lt_of_lt_of_le (h.space_lt q Q sp hq hsp) hn
  · rw [hp]
    exact h.apart
  · rcases hcase j u hu with ⟨-, rfl⟩ | hu
    · exact hfits
    · exact (h.fits j u hu).congr hp hn

-- The task goes on to another stage, with a space of its own only if it is new.
theorem Orderly.goto (h : Orderly g) (ht : g.task i = some t) (hs : t.stage = s)
    (ha : s.active = true) (hp : t'.process = t.process) (hf : t'.frame = t.frame)
    (hr : t'.stage.returns = true → s.returns = true)
    (hh : ∀ sp, t'.stage.held = some sp → ∃ P, g.process t.process = some P ∧ P.space = some sp)
    (ho : ∀ sp, t'.stage.own = some sp → g.next ≤ sp ∧ sp < g.next + n)
    (hc : ∀ c, t'.stage.child = some c → (∃ C, g.process c = some C ∧ C.zombie = true ∧ C.parent = none) ∧
      ∀ j u, g.task j = some u → u.stage.child ≠ some c) : Orderly ((g.setTask i t').grow n) := by
  subst hs
  have hfits := h.fits i t ht
  refine h.move (Nat.lt_add_right n (h.task_lt i t ht)) rfl rfl (Nat.le_add_right ..) ?_
    (fun sp hsp j u hu hu' => ?_) fun c hc' => (hc c hc').2
  · refine ⟨fun _ => ?_, fun P sp hP hsp => ?_, ?_, fun sp hsp => (ho sp hsp).2, fun sp q Q hsp hQ hQ' => ?_,
      fun c hc' => (hc c hc').1⟩
    · rw [hp]
      exact hfits.alive ha
    · rw [hp] at hP
      obtain ⟨Q, hQ, hQ'⟩ := hh sp hsp
      cases hP.symm.trans hQ
      exact hQ'
    · rw [hp, hf]
      exact fun P hP h' => hfits.frame P hP (hr h')
    · exact Nat.not_lt.2 (ho sp hsp).1 (h.space_lt q Q sp hQ hQ')
  · exact Nat.not_lt.2 (ho sp hsp).1 ((h.fits j u hu).own_lt sp hu')

theorem Stage.active_of_returns {s : Stage} (h : s.returns = true) : s.active = true := by
  cases s <;> first | rfl | cases h

theorem Orderly.toKernel (h : Orderly g) (ht : g.task i = some t) (hs : t.stage = s) (hr : s.returns = true) :
    Orderly (g.goto i t .kernel) :=
  h.goto (n := 0) ht hs (Stage.active_of_returns hr) rfl rfl (fun _ => hr) nofun nofun nofun

theorem Stage.spent {s : Stage} (ha : s.active = false) :
    s.held = none ∧ s.returns = false ∧ s.own = none ∧ s.child = none := by
  cases s with
  | cleared last => exact ⟨rfl, rfl, rfl, rfl⟩
  | gone => exact ⟨rfl, rfl, rfl, rfl⟩
  | _ => cases ha

theorem Fits.process_ne (h : Fits g t) (ha : t.stage.active = true) (hc : g.process c = some C)
    (hz : C.zombie = true) : t.process ≠ c := by
  rintro rfl
  obtain ⟨P, hP, hPz⟩ := h.alive ha
  cases hc.symm.trans hP
  cases hz.symm.trans hPz

theorem Fits.spent (ha : t.stage.active = false) : Fits g t := by
  obtain ⟨hh, hr, ho, hc⟩ := Stage.spent ha
  constructor <;> simp [ha, hh, hr, ho, hc]

section

variable (h : Orderly g)
include h

theorem Orderly.spend (hi : i < g.next) (ha : t'.stage.active = false) : Orderly (g.setTask i t') := by
  obtain ⟨-, -, ho, hc⟩ := Stage.spent ha
  refine h.move hi rfl rfl (Nat.le_refl _) (Fits.spent ha) ?_ ?_
  · rw [ho]
    exact nofun
  · rw [hc]
    exact nofun

theorem Orderly.give (htask : g'.task = g.task) (hp : g'.process = update g.process p (some P))
    (hn : g.next ≤ g'.next) (hlt : p < g'.next) (hP : P.space = some sp) (hsp : sp < g.next)
    (hproc : ∀ q Q, g.process q = some Q → Q.space ≠ some sp)
    (hown : ∀ i t, g.task i = some t → t.stage.own ≠ some sp)
    (hempty : ∀ i t, g.task i = some t → t.process = p → t.stage.active = false)
    (hz : ∀ Q, g.process p = some Q → Q.zombie = false) : Orderly g' := by
  have hcase : ∀ q Q, g'.process q = some Q → (q = p ∧ Q = P) ∨ g.process q = some Q := by
    intro q Q hq
    rw [hp] at hq
    exact (of_update hq).imp_right And.right
  have hkeep : ∀ q, q ≠ p → g'.process q = g.process q := by
    intro q hq
    rw [hp, update_of_ne hq]
  have hfits : ∀ i t, g.task i = some t → Fits g' t := by
    intro i t ht
    by_cases ha : t.stage.active = true
    · obtain ⟨h1, h2, h3, h4, h5, h6⟩ := h.fits i t ht
      constructor <;> grind
    · exact Fits.spent (by simpa using ha)
  obtain ⟨h1, h2, h3, h4, h5, h6, h7⟩ := h
  rw [← htask] at h1 h6 h7 hfits
  refine ⟨?_, ?_, ?_, ?_, hfits, h6, h7⟩
  all_goals grind

theorem Orderly.shrink (hn : g'.next = g.next)
    (htask : ∀ i t', g'.task i = some t' → ∃ t, g.task i = some t ∧ t'.process = t.process ∧
      t'.stage = t.stage ∧ t'.frame = t.frame)
    (hproc : ∀ q Q', g'.process q = some Q' → ∃ Q, g.process q = some Q ∧ Q'.space = Q.space)
    (halive : ∀ i t, g'.task i = some t → t.stage.active = true →
      ∃ P, g'.process t.process = some P ∧ P.zombie = false)
    (hchild : ∀ i t c, g'.task i = some t → t.stage.child = some c →
      ∃ C, g'.process c = some C ∧ C.zombie = true ∧ C.parent = none) :
    Orderly g' := by
  have hinj : ∀ f, Distinct g f → Distinct g' f := by
    intro f hold i t1' j t2' x h1 h2 hx1 hx2
    obtain ⟨t1, ht1, -, hs1, -⟩ := htask i t1' h1
    obtain ⟨t2, ht2, -, hs2, -⟩ := htask j t2' h2
    exact hold i t1 j t2 x ht1 ht2 (hs1 ▸ hx1) (hs2 ▸ hx2)
  have hfits : ∀ i t', g'.task i = some t' → Fits g' t' := by
    intro i t' ht'
    obtain ⟨t, ht, hpp, hs, hf⟩ := htask i t' ht'
    obtain ⟨h1, h2, h3, h4, h5, h6⟩ := h.fits i t ht
    refine ⟨halive i t' ht', ?_, ?_, ?_, ?_, fun c => hchild i t' c ht'⟩
    all_goals grind
  obtain ⟨h1, h2, h3, h4, h5, h6, h7⟩ := h
  refine ⟨?_, ?_, ?_, ?_, hfits, hinj _ h6, hinj _ h7⟩
  all_goals grind

theorem Orderly.exitProcess (hempty : ∀ i t, g.task i = some t → t.process = p → t.stage.active = false) :
    Orderly (g.exitProcess p) := by
  refine h.shrink rfl (fun i t ht => ⟨t, ht, rfl, rfl, rfl⟩) ?_ ?_ ?_
  · intro q Q' hq'
    obtain ⟨Q, hq, rfl⟩ := Option.map_eq_some_iff.1 hq'
    refine ⟨Q, hq, ?_⟩
    split_ifs <;> rfl
  · intro i t ht ha
    obtain ⟨P, hP, hz⟩ := (h.fits i t ht).alive ha
    have hne : t.process ≠ p := by
      intro he
      rw [hempty i t ht he] at ha
      cases ha
    refine ⟨_, Option.map_eq_some_iff.2 ⟨P, hP, rfl⟩, ?_⟩
    rw [if_neg hne]
    split_ifs <;> exact hz
  · intro i t c ht hc
    obtain ⟨C, hC, hz, hpar⟩ := (h.fits i t ht).child c hc
    have hne : ¬ C.parent = some p := by
      rw [hpar]
      exact nofun
    refine ⟨_, Option.map_eq_some_iff.2 ⟨C, hC, rfl⟩, ?_⟩
    split_ifs
    · exact ⟨rfl, hpar⟩
    · exact ⟨hz, hpar⟩

theorem Orderly.endProcess (ht : g.task i = some t) (hal : Alone g i t.process) :
    Orderly ((g.exitProcess t.process).goto i t .gone) := by
  -- the task is gone first
  refine (h.spend (h.task_lt i t ht) rfl : Orderly (g.goto i t .gone)).exitProcess fun j u hu hp => ?_
  rcases of_update hu with ⟨-, rfl⟩ | ⟨hj, hu⟩
  · rfl
  · exact hal j u hj hu hp

theorem Orderly.swap (ht : g.task i = some t) (hs : t.stage = .building sp)
    (hp : g.process t.process = some P) (hal : Alone g i t.process) :
    Orderly ((g.setTask i { t with stage := .swapped P.space, frame := sp }).setProcess
      t.process { P with space := some sp }) := by
  have hf := h.fits i t ht
  have ho : t.stage.own = some sp := by rw [hs]; rfl
  have hz : P.zombie = false := by
    obtain ⟨Q, hq, hz⟩ := hf.alive (by rw [hs]; rfl)
    rw [hp] at hq
    cases hq
    exact hz
  have hgone : ∀ j u, (g.goto i t .gone).task j = some u →
      (j = i ∧ u = { t with stage := .gone }) ∨ (j ≠ i ∧ g.task j = some u) := fun j u hu => of_update hu
  -- the task lets go of the new space, the process gets it, and the task takes the old one
  have h1 : Orderly (g.goto i t .gone) := h.spend (h.task_lt i t ht) rfl
  have h2 : Orderly ((g.goto i t .gone).setProcess t.process { P with space := some sp }) := by
    refine h1.give rfl rfl (Nat.le_refl _) (h.process_lt _ P hp) rfl (hf.own_lt sp ho)
      (fun q Q hq => hf.own_apart sp q Q ho hq) ?_ ?_ ?_
    · intro j u hu hu'
      rcases hgone j u hu with ⟨-, rfl⟩ | ⟨hj, hu⟩
      · cases hu'
      · exact hj (h.own_inj j u i t sp hu ht hu' ho)
    · intro j u hu hpp
      rcases hgone j u hu with ⟨-, rfl⟩ | ⟨hj, hu⟩
      · rfl
      · exact hal j u hj hu hpp
    · intro Q hq
      cases hp.symm.trans hq
      exact hz
  refine h2.move (h.task_lt i t ht) (update_idem _ _ _).symm rfl (Nat.le_refl _) ?_ ?_ ?_
  · constructor
    case alive => exact fun _ => ⟨_, update_self _ _ _, hz⟩
    case held => exact nofun
    case frame =>
      intro Q hq _
      cases (update_self _ _ g.process).symm.trans hq
      rfl
    case own_lt => exact fun old hold => h.space_lt _ P old hp hold
    case own_apart =>
      intro old q Q hold hq
      rcases of_update hq with ⟨rfl, rfl⟩ | ⟨hqp, hq⟩
      · rintro ⟨⟩
        exact hf.own_apart _ _ P ho hp hold
      · exact fun hQ => hqp (h.apart q Q _ P old hq hp hQ hold)
    case child => exact nofun
  · intro old hold j u hu hu'
    rcases hgone j u hu with ⟨-, rfl⟩ | ⟨-, hu⟩
    · cases hu'
    · exact (h.fits j u hu).own_apart old _ P hu' hp hold
  · exact nofun

theorem Orderly.make (ht : g.task i = some t) (hs : t.stage = .counted) :
    Orderly
      (((g.goto i t .kernel).setTask g.next ⟨t.process, .fresh, t.frame, true, false⟩).grow 1) := by
  have hf := h.fits i t ht
  have h1 := h.toKernel ht hs rfl
  obtain ⟨P, hP, hz⟩ := hf.alive (by rw [hs]; rfl)
  refine h1.move (Nat.lt_succ_self _) rfl rfl (Nat.le_succ _) ?_ nofun nofun
  exact .plain ⟨P, hP, hz, hf.frame P hP (by rw [hs]; rfl)⟩ rfl rfl rfl

theorem Orderly.spawn (ht : g.task i = some t) (hs : t.stage = .forked sp) :
    Orderly (((((g.goto i t .kernel).setProcess g.next ⟨false, some sp, some t.process⟩).setThreads
      g.next 1).setTask (g.next + 1) ⟨g.next, .fresh, sp, true, false⟩).grow 2) := by
  have hf := h.fits i t ht
  have ho : t.stage.own = some sp := by rw [hs]; rfl
  have hnew : g.process g.next = none := by
    cases hq : g.process g.next with
    | none => rfl
    | some Q => exact absurd (h.process_lt _ Q hq) (Nat.lt_irrefl _)
  have h1 := h.toKernel ht hs rfl
  have h2 : Orderly (((g.goto i t .kernel).setProcess g.next ⟨false, some sp, some t.process⟩).grow
      1) := by
    refine h1.give rfl rfl (Nat.le_succ _) (Nat.lt_succ_self _) rfl (hf.own_lt sp ho)
      (fun q Q hq => hf.own_apart sp q Q ho hq) ?_ ?_ ?_
    · intro j u hu hu'
      rcases of_update hu with ⟨-, rfl⟩ | ⟨hj, hu⟩
      · cases hu'
      · exact hj (h.own_inj j u i t sp hu ht hu' ho)
    · intro j u hu hp
      by_contra ha
      obtain ⟨P, hP, -⟩ := (h1.fits j u hu).alive (by simpa using ha)
      rw [hp] at hP
      cases hnew.symm.trans hP
    · intro Q hq
      cases hnew.symm.trans hq
  refine h2.move (Nat.lt_succ_self _) rfl rfl (Nat.le_succ _) ?_ nofun nofun
  exact .plain ⟨_, update_self _ _ _, rfl, rfl⟩ rfl rfl rfl

theorem Orderly.wait (ht : g.task i = some t) (hs : t.stage = .kernel)
    (hc : g.process c = some C) (hz : C.zombie = true) (hpar : C.parent = some p) :
    Orderly ((g.goto i t (.reaping c)).setProcess c { C with parent := none }) := by
  -- nobody else reaps the child: it still had a parent
  have hother : ∀ j u, g.task j = some u → u.stage.child ≠ some c := by
    intro j u hu hu'
    obtain ⟨C', hC', -, hpar'⟩ := (h.fits j u hu).child c hu'
    cases hc.symm.trans hC'
    rw [hpar] at hpar'
    cases hpar'
  have h1 : Orderly (g.setProcess c { C with parent := none }) := by
    refine h.shrink rfl (fun i t ht => ⟨t, ht, rfl, rfl, rfl⟩) ?_ ?_ ?_
    · intro q Q' hq'
      rcases of_update hq' with ⟨rfl, rfl⟩ | ⟨-, hq⟩
      · exact ⟨C, hc, rfl⟩
      · exact ⟨Q', hq, rfl⟩
    · intro j u hu ha
      obtain ⟨P, hP, hPz⟩ := (h.fits j u hu).alive ha
      exact ⟨P, (update_of_ne ((h.fits j u hu).process_ne ha hc hz) _ _).trans hP, hPz⟩
    · intro j u c' hu hc'
      obtain ⟨C', hC', hz', hpar'⟩ := (h.fits j u hu).child c' hc'
      refine ⟨C', (update_of_ne ?_ _ _).trans hC', hz', hpar'⟩
      rintro rfl
      exact hother j u hu hc'
  refine h1.goto (n := 0) ht hs rfl rfl rfl (fun _ => rfl) nofun nofun ?_
  rintro c' ⟨⟩
  exact ⟨⟨_, update_self _ _ _, hz, rfl⟩, hother⟩

theorem Orderly.reap (ht : g.task i = some t) (hs : t.stage = .reaping c) :
    Orderly ((g.reap c).goto i t .kernel) := by
  have hf := h.fits i t ht
  obtain ⟨C, hC, hz, -⟩ := hf.child c (by rw [hs]; rfl)
  have h1 := h.toKernel ht hs rfl
  -- the tasks that are left
  have htask : ∀ j u, ((g.reap c).goto i t .kernel).task j = some u →
      (g.goto i t .kernel).task j = some u := by
    intro j u hu
    by_cases hj : j = i
    · subst hj
      cases (update_self j _ (g.reap c).task).symm.trans hu
      exact update_self j _ g.task
    · have hu' : (g.task j).filter _ = some u :=
        (update_of_ne hj _ (g.reap c).task).symm.trans hu
      exact (update_of_ne hj _ g.task).trans (Option.filter_eq_some_iff.1 hu').1
  refine h1.shrink rfl (fun j u hu => ⟨u, htask j u hu, rfl, rfl, rfl⟩) ?_ ?_ ?_
  · intro q Q hq
    have hq : update g.process c none q = some Q := hq
    have hqc : q ≠ c := by
      rintro rfl
      rw [update_self] at hq
      cases hq
    exact ⟨Q, (update_of_ne hqc _ _).symm.trans hq, rfl⟩
  · intro j u hu ha
    have hf := h1.fits j u (htask j u hu)
    obtain ⟨P, hP, hPz⟩ := hf.alive ha
    -- the child is a zombie
    exact ⟨P, (update_of_ne (hf.process_ne ha hC hz) _ _).trans hP, hPz⟩
  · intro j u c' hu hc'
    have hu1 := htask j u hu
    obtain ⟨C', hC', hrest⟩ := (h1.fits j u hu1).child c' hc'
    refine ⟨C', (update_of_ne ?_ _ _).trans hC', hrest⟩
    -- only this task reaped the child
    rintro rfl
    rcases of_update hu1 with ⟨-, rfl⟩ | ⟨hj, hu1⟩
    · cases hc'
    · exact hj (h.child_inj j u i t c' hu1 ht hc' (by rw [hs]; rfl))

theorem Orderly.relabel (hn : g'.next = g.next) (hp : g'.process = g.process)
    (htask : ∀ i t', g'.task i = some t' → ∃ t, g.task i = some t ∧ t'.process = t.process ∧
      t'.stage = t.stage ∧ t'.frame = t.frame) : Orderly g' := by
  refine h.shrink hn htask (fun q Q hq => ⟨Q, hp ▸ hq, rfl⟩) ?_ ?_
  · intro j u hu ha
    obtain ⟨t, ht, hpp, hs, -⟩ := htask j u hu
    rw [hp, hpp]
    exact (h.fits j t ht).alive (hs ▸ ha)
  · intro j u c hu hc
    obtain ⟨t, ht, -, hs, -⟩ := htask j u hu
    rw [hp]
    exact (h.fits j t ht).child c (hs ▸ hc)

theorem Orderly.recount (q : Nat) (n : Int) : Orderly (g.addThreads q n) :=
  h.relabel rfl rfl fun _ t ht => ⟨t, ht, rfl, rfl, rfl⟩

theorem Orderly.markOthers : Orderly (g.markOthers i p) := by
  refine h.relabel rfl rfl fun j u hu => ?_
  obtain ⟨t, ht, rfl⟩ := Option.map_eq_some_iff.1 hu
  refine ⟨t, ht, ?_⟩
  split_ifs <;> exact ⟨rfl, rfl, rfl⟩

theorem CalmStep.orderly {e : Event} (he : CalmStep g e g') : Orderly g' := by
  obtain ⟨i, m⟩ := e
  obtain ⟨hcalm, t, ht, hstep⟩ := he
  have hlt := h.task_lt i t ht
  have hnew : ∀ sp, some g.next = some sp → g.next ≤ sp ∧ sp < g.next + 1 := by
    rintro _ ⟨⟩
    exact ⟨Nat.le_refl _, Nat.lt_succ_self _⟩
  have hspace : ∀ {P sp}, g.process t.process = some P → P.space = some sp → ∀ sp', some sp = some sp' →
      ∃ P, g.process t.process = some P ∧ P.space = some sp' := by
    rintro P sp hp hsp _ ⟨⟩
    exact ⟨P, hp, hsp⟩
  cases hstep with
  | start hs => exact h.goto (n := 0) ht hs rfl rfl rfl (fun _ => rfl) nofun nofun nofun
  | enter hs => exact h.toKernel ht hs rfl
  | resume hs hd => exact h.goto (n := 0) ht hs rfl rfl rfl (fun _ => rfl) nofun nofun nofun
  | take hs hp hsp => exact h.goto (n := 0) ht hs rfl rfl rfl (fun _ => rfl) (hspace hp hsp) nofun nofun
  | release hs => exact h.toKernel ht hs rfl
  | count hs hn =>
    have h1 : Orderly (g.goto i t .counted) :=
      h.goto (n := 0) ht hs rfl rfl rfl (fun _ => rfl) nofun nofun nofun
    exact h1.recount _ _
  | uncount hs => exact (h.toKernel ht hs rfl).recount _ _
  | make hs => exact h.make ht hs
  | fork hs => exact h.goto ht hs rfl rfl rfl (fun _ => rfl) nofun hnew nofun
  | unfork hs => exact h.toKernel ht hs rfl
  | spawn hs => exact h.spawn ht hs
  | build hs => exact h.goto ht hs rfl rfl rfl (fun _ => rfl) nofun hnew nofun
  | abandon hs => exact h.toKernel ht hs rfl
  | swap hs hp => exact h.swap ht hs hp (hcalm t ht)
  | destroy hs => exact h.toKernel ht hs rfl
  | wait hs hc hz hpar => exact h.wait ht hs hc hz hpar
  | reap hs => exact h.reap ht hs
  | quit hs => exact h.goto (n := 0) ht hs rfl rfl rfl nofun nofun nofun nofun
  | quitGroup hs =>
    have hmark : (g.markOthers i t.process).task i = some t := by
      refine Option.map_eq_some_iff.2 ⟨t, ht, if_neg ?_⟩
      exact fun h' => h'.1 rfl
    exact h.markOthers.goto (n := 0) hmark hs rfl rfl rfl nofun nofun nofun nofun
  | exit hs =>
    have h1 : Orderly (g.setTask i { t with
        stage := .leaving (decide (g.liveThreads t.process - 1 ≤ 0))
        linked := t.linked && decide (g.liveThreads t.process - 1 ≤ 0) }) :=
      h.goto (n := 0) ht hs rfl rfl rfl nofun nofun nofun nofun
    exact h1.recount _ _
  | clear hs hp hsp => exact h.goto (n := 0) ht hs rfl rfl rfl nofun (hspace hp hsp) nofun nofun
  | skip hs => exact h.spend hlt rfl
  | clearEnd hs => exact h.spend hlt rfl
  | die hs => exact h.spend hlt rfl
  | finish hs hinit => exact h.endProcess ht (hcalm t ht)
  | kill hs hinit => exact h.endProcess ht (hcalm t ht)

theorem Orderly.not_inUse {e : Event} (hd : Destroys g e p sp) : ¬ InUse g e.1 p sp := by
  obtain ⟨i, m⟩ := e
  rintro ⟨j, u, -, hu, rfl, hneed⟩
  obtain ⟨t, ht, hm⟩ := hd
  have hactive : u.stage.active = true := by
    rcases hneed with hh | ⟨hr, -, -⟩
    · cases hs : u.stage with
      | cleared last =>
        rw [hs] at hh
        cases hh
      | gone =>
        rw [hs] at hh
        cases hh
      | _ => rfl
    · exact Stage.active_of_returns hr
  obtain ⟨P, hP, -⟩ := (h.fits j u hu).alive hactive
  have hspace : P.space = some sp := by
    rcases hneed with hh | ⟨hr, -, rfl⟩
    · exact (h.fits j u hu).held P sp hP hh
    · exact (h.fits j u hu).frame P hP hr
  cases m with
  | abandon => exact (h.fits i t ht).own_apart sp _ P (by rw [hm.2]; rfl) hP hspace
  | destroy => exact (h.fits i t ht).own_apart sp _ P (by rw [hm.2]; rfl) hP hspace
  | reap =>
    obtain ⟨C, hC, hCz, -⟩ := (h.fits i t ht).child u.process (by rw [hm.1]; rfl)
    exact (h.fits j u hu).process_ne hactive hC hCz rfl
  | _ => exact hm

end

end invariant

-- No space is destroyed while a task needs it, if a task is alone when it replaces the space or ends the
-- process.
theorem space_outlives_tasks {g₀ g : World} {l : List Event} (h₀ : Booted g₀) (hrun : Run CalmStep g₀ l g) :
    ∀ e p sp, Destroys g e p sp → ¬ InUse g e.1 p sp := by
  have h : Orderly g := hrun.invariant h₀.orderly fun _ _ _ h he => he.orderly h
  exact fun e p sp => h.not_inUse

-- One process with one task, in the space 2.
def boot : World where
  task i := if i = 1 then some ⟨0, .user, 2, true, false⟩ else none
  process p := if p = 0 then some ⟨false, some 2, none⟩ else none
  liveThreads p := if p = 0 then 1 else 0
  init := none
  next := 3

theorem boot_booted : Booted boot where
  task i t ht := by
    unfold boot at ht
    dsimp only at ht
    split_ifs at ht with hi
    cases ht
    exact ⟨by rw [hi]; decide, rfl, _, rfl, rfl, rfl⟩
  process p P hp := by
    unfold boot at hp
    dsimp only at hp
    split_ifs at hp with hi
    cases hp
    refine ⟨by rw [hi]; decide, fun sp hsp => ?_⟩
    cases hsp
    decide
  apart p P q Q sp hp hq _ _ := by
    unfold boot at hp hq
    dsimp only at hp hq
    split_ifs at hp hq with h1 h2
    rw [h1, h2]

-- A second thread, the task 3, that comes back into the kernel.
def cloneEvents : List Event := [(1, .enter), (1, .count), (1, .make), (3, .start), (3, .enter)]

def joinEvents : List Event :=
  cloneEvents ++ [(3, .quit), (3, .exit), (3, .skip), (1, .build), (1, .swap)]

theorem space_outlives_tasks_joined :
    ∃ g, Run CalmStep boot joinEvents g ∧ Destroys g (1, .destroy) 0 2 ∧ ¬ InUse g 1 0 2 := by
  obtain ⟨g, hrun, hd⟩ : ∃ g, Run CalmStep boot joinEvents g ∧ Destroys g (1, .destroy) 0 2 := by
    refine ⟨_, .cons ⟨trivial, _, rfl, .enter rfl⟩ <| .cons ⟨trivial, _, rfl, .count rfl (by decide)⟩ <|
      .cons ⟨trivial, _, rfl, .make rfl⟩ <| .cons ⟨trivial, _, rfl, .start rfl⟩ <|
      .cons ⟨trivial, _, rfl, .enter rfl⟩ <| .cons ⟨trivial, _, rfl, .quit rfl⟩ <|
      .cons ⟨trivial, _, rfl, .exit rfl⟩ <| .cons ⟨trivial, _, rfl, .skip rfl⟩ <|
      .cons ⟨trivial, _, rfl, .build rfl⟩ <| .one ⟨?_, _, rfl, .swap rfl rfl⟩, _, rfl, rfl, rfl⟩
    intro t _ j u hj hu _
    by_cases h3 : j = 3
    · subst h3
      cases hu
      rfl
    · simp [World.goto, World.setTask, World.addThreads, World.setThreads, World.grow, boot, hj, h3] at hu
  exact ⟨g, hrun, hd, space_outlives_tasks boot_booted hrun _ _ _ hd⟩

-- A child, the process 4 with the task 5 in the space 3, that starts a second thread, the task 6.
def familyEvents : List Event :=
  [(1, .enter), (1, .take), (1, .fork), (1, .spawn), (5, .start), (5, .enter), (5, .count), (5, .make),
    (6, .start), (6, .enter)]

-- An `execve` or a reaping meets a thread in `mmap`, or the process ends before `clear_child_tid` is
-- cleared.
theorem space_destroyed_in_use :
    Booted boot ∧
    (∃ g g', Run WorldStep boot (cloneEvents ++ [(3, .take), (1, .build), (1, .swap)]) g ∧
      WorldStep g (1, .destroy) g' ∧ Destroys g (1, .destroy) 0 2 ∧ InUse g 1 0 2) ∧
    (∃ g g', Run WorldStep boot (familyEvents ++ [(6, .take), (5, .kill), (1, .wait 4)]) g ∧
      WorldStep g (1, .reap) g' ∧ Destroys g (1, .reap) 4 3 ∧ InUse g 1 4 3) ∧
    (∃ g g', Run WorldStep boot
        (familyEvents ++ [(5, .quit), (5, .exit), (5, .clear), (6, .quit), (6, .exit), (6, .skip),
          (6, .finish), (1, .wait 4)]) g ∧
      WorldStep g (1, .reap) g' ∧ Destroys g (1, .reap) 4 3 ∧ InUse g 1 4 3) := by
  have hclone : Run WorldStep boot cloneEvents _ :=
    .cons ⟨_, rfl, .enter rfl⟩ <| .cons ⟨_, rfl, .count rfl (by decide)⟩ <| .cons ⟨_, rfl, .make rfl⟩ <|
      .cons ⟨_, rfl, .start rfl⟩ <| .one ⟨_, rfl, .enter rfl⟩
  have hfamily : Run WorldStep boot familyEvents _ :=
    .cons ⟨_, rfl, .enter rfl⟩ <| .cons ⟨_, rfl, .take rfl rfl rfl⟩ <| .cons ⟨_, rfl, .fork rfl⟩ <|
      .cons ⟨_, rfl, .spawn rfl⟩ <| .cons ⟨_, rfl, .start rfl⟩ <| .cons ⟨_, rfl, .enter rfl⟩ <|
      .cons ⟨_, rfl, .count rfl (by decide)⟩ <| .cons ⟨_, rfl, .make rfl⟩ <|
      .cons ⟨_, rfl, .start rfl⟩ <| .one ⟨_, rfl, .enter rfl⟩
  refine ⟨boot_booted, ?_, ?_, ?_⟩
  · refine ⟨_, _, hclone.append <| .cons ⟨_, rfl, .take rfl rfl rfl⟩ <| .cons ⟨_, rfl, .build rfl⟩ <|
      .one ⟨_, rfl, .swap rfl rfl⟩, ⟨_, rfl, .destroy rfl⟩, ⟨_, rfl, rfl, rfl⟩, ?_⟩
    exact ⟨3, _, by decide, rfl, rfl, .inl rfl⟩
  · refine ⟨_, _, hfamily.append <| .cons ⟨_, rfl, .take rfl rfl rfl⟩ <| .cons ⟨_, rfl, .kill rfl nofun⟩ <|
      .one ⟨_, rfl, .wait rfl rfl rfl rfl⟩, ⟨_, rfl, .reap rfl⟩, ⟨_, rfl, rfl, _, rfl, rfl⟩, ?_⟩
    exact ⟨6, _, by decide, rfl, rfl, .inl rfl⟩
  · refine ⟨_, _, hfamily.append <| .cons ⟨_, rfl, .quit rfl⟩ <| .cons ⟨_, rfl, .exit rfl⟩ <|
      .cons ⟨_, rfl, .clear rfl rfl rfl⟩ <| .cons ⟨_, rfl, .quit rfl⟩ <|
      .cons ⟨_, rfl, .exit rfl⟩ <| .cons ⟨_, rfl, .skip rfl⟩ <|
      .cons ⟨_, rfl, .finish rfl nofun⟩ <|
      .one ⟨_, rfl, .wait rfl rfl rfl rfl⟩, ⟨_, rfl, .reap rfl⟩, ⟨_, rfl, rfl, _, rfl, rfl⟩, ?_⟩
    exact ⟨5, _, by decide, rfl, rfl, .inl rfl⟩

end Jnu.Proc
