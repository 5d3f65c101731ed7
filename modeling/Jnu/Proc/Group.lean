import Jnu.Lib.Refs
import Jnu.Lib.Trace

namespace Jnu.Proc.Group

open Lib.Refs
open Function

-- Who sleeps: `process_wait` of a pid (`none` is -1), or a futex or a driver, with a timeout or without.
inductive Sleep
  | wait (pid : Option Nat)
  | other (timed : Bool)

-- What `sched_sleep_timed_interruptible` returns: 0, -EINTR or -ETIMEDOUT.
inductive Slept
  | ok
  | eintr
  | etimedout

-- Who calls `process_thread_exit`.
inductive Caller
  | sysExit
  | groupExit
  | retire

-- Where a task is. No spinlock is held at any of these places, so the timer may interrupt it there.
inductive Stage
  | user
  -- it has not run yet
  | fresh
  | kernel
  -- `process_wait` before the test of TIF_NEED_DIE, before it looks at the children, and with a child it
  -- has unlinked
  | waiting (pid : Option Nat)
  | looking (pid : Option Nat)
  | reaping (c : Nat)
  -- a sleep before the test of TIF_NEED_DIE, after it, in TASK_SLEEPING, behind it, and at its return
  | napping (w : Sleep)
  | tested (w : Sleep)
  | asleep (w : Sleep)
  | woken (w : Sleep) (timedOut : Bool)
  | slept (w : Sleep) (r : Slept)
  -- `process_fork` with the child in the list of its parent
  | forking (c : Nat)
  -- `process_clone_thread` with a thread counted, and with the thread made, whose tid may be wanted in
  -- `parent_tid` too
  | counted
  | made (j : Nat) (settid : Bool)
  -- `process_thread_exit` before the count and after it
  | quitting (c : Caller) (status : Int)
  | leaving (last : Bool) (c : Caller) (status : Int)
  -- behind `process_exit_current`, which may have to wake init
  | exited (wakeInit : Bool)
  -- TASK_ZOMBIE, and a detached task that is freed
  | gone
  | freed

-- `linked` says that the task is in `process->tasks`, `needDie` is TIF_NEED_DIE and `credit` is
-- `wake_pending`.
structure Task where
  process : Nat
  stage : Stage
  linked : Bool
  needDie : Bool
  credit : UInt32

namespace Task

def goto (t : Task) (s : Stage) : Task := { t with stage := s }

def wake (t : Task) : Task :=
  match t.stage with
  | .asleep w => t.goto (.woken w false)
  | _ => { t with credit := t.credit + 1 }

-- `sched_expire_timed_sleepers`
def expire (t : Task) : Task :=
  match t.stage with
  | .asleep (.other true) => t.goto (.woken (.other true) true)
  | _ => t

-- In the walk of `process_group_exit`.
def mark (t : Task) : Task :=
  match t.stage with
  | .asleep w => { t with needDie := true, stage := .woken w false }
  | _ => { t with needDie := true }

-- What a sleep returns that has come to its end.
def slept (t : Task) (timedOut : Bool) : Slept :=
  if t.needDie then .eintr else if timedOut then .etimedout else .ok

end Task

structure Process where
  zombie : Bool
  liveThreads : Int
  mainTask : Option Nat
  parent : Option Nat
  children : List Nat
  exitStatus : Int
  groupExitCode : Int

-- The tasks by their tids and the processes by their pids, which are never given out twice.
structure World where
  task : Nat → Option Task
  process : Nat → Option Process
  init : Option Nat
  next : Nat

def Process.findChild (P : Process) : Option Nat → Option Nat
  | none => P.children.head?
  | some pid => P.children.find? (· == pid)

inductive Move
  | enter
  | first
  | resume
  | retire
  | quit (status : Int)
  | quitGroup (status : Int)
  | nap
  | test
  | doze
  | rise
  | ret
  | consume
  | wait (pid : Option Nat)
  | look
  | poll
  | take (c : Nat)
  | reap (c : Nat)
  | splice
  | unsplice (c : Nat)
  | spawn (c : Nat)
  | count
  | uncount
  | make
  | tell (tid : Nat)
  | read (tid : Nat)
  | exit (head : Option Nat)
  | die
  | finish (status : Int)
  | wakeInit
  | off
  | kill
  | wake (j : Nat)
  | expire (j : Nat)

namespace World

variable (g : World)

def setTask (i : Nat) (t : Task) : World := { g with task := update g.task i (some t) }

def modify (p : Nat) (f : Process → Process) : World :=
  { g with process := update g.process p ((g.process p).map f) }

def poke (f : Task → Task) (o : Option Nat) : World :=
  { g with task := fun j => if o = some j then (g.task j).map f else g.task j }

def wake (o : Option Nat) : World := g.poke Task.wake o

def wakeMain (p : Option Nat) : World := g.wake ((p.bind g.process).bind Process.mainTask)

def addTask (p : Nat) : World :=
  { g.setTask g.next ⟨p, .fresh, true, false, 0⟩ with next := g.next + 1 }

def markOthers (i p : Nat) : World :=
  { g with task := fun j => (g.task j).map fun t =>
      if j ≠ i ∧ t.process = p ∧ t.linked = true then t.mark else t }

def zombie (p : Nat) : Bool := (g.process p).any Process.zombie

def children (p : Nat) : List Nat := ((g.process p).map Process.children).getD []

-- `process_exit_current`: the children go to init, and the parent is woken.
def handOver (p : Nat) (status : Int) : World :=
  { g with process := fun q => (g.process q).map fun Q =>
      if q = p then { Q with zombie := true, exitStatus := status % 256, children := [] }
      else { Q with
        parent := if q ∈ g.children p then g.init else Q.parent
        children := if g.init = some q then g.children p ++ Q.children else Q.children } }

def exitProcess (p : Nat) (status : Int) : World :=
  (g.handOver p status).wakeMain ((g.process p).bind Process.parent)

-- What a move of task `i` does to the processes and to the other tasks.
def effect (i : Nat) (t : Task) : Move → World
  | .quitGroup status =>
    (g.modify t.process fun P => { P with groupExitCode := status }).markOthers i t.process
  | .take c =>
    (g.modify t.process fun P => { P with children := P.children.erase c }).modify c fun C =>
      { C with parent := none }
  | .reap c =>
    { g with
      task := fun j => (g.task j).filter fun u => !(u.process == c && u.linked)
      process := update g.process c none }
  | .splice =>
    { g with
      process := update g.process g.next (some ⟨false, 0, none, some t.process, [], 0, 0⟩)
      next := g.next + 1 }.modify t.process fun P => { P with children := g.next :: P.children }
  | .unsplice c =>
    { g with process := update g.process c none }.modify t.process fun P =>
      { P with children := P.children.erase c }
  | .spawn c =>
    (g.addTask c).modify c fun C => { C with liveThreads := 1, mainTask := some g.next }
  | .count => g.modify t.process fun P => { P with liveThreads := P.liveThreads + 1 }
  | .uncount => g.modify t.process fun P => { P with liveThreads := P.liveThreads - 1 }
  | .make => g.addTask t.process
  | .exit head => g.modify t.process fun P =>
    { P with
      liveThreads := P.liveThreads - 1
      mainTask := if 0 < P.liveThreads - 1 ∧ P.mainTask = some i then head else P.mainTask }
  | .finish status => g.exitProcess t.process status
  | .kill => g.exitProcess t.process (-1)
  | .wakeInit => g.wakeMain g.init
  | .wake j => g.wake (some j)
  | .expire j => g.poke Task.expire (some j)
  | _ => g

-- What a read of `task->tid` gives: anything, once the task is freed.
def Reads (j tid : Nat) : Prop := ∀ u, g.task j = some u → u.stage ≠ .freed → tid = j

end World

def maxThreadsPerGroup : Int := 256

inductive Own (g : World) (i : Nat) (t : Task) : Move → Task → Prop
  | enter (hs : t.stage = .user) : Own g i t .enter (t.goto .kernel)
  | first (hs : t.stage = .fresh) : Own g i t .first (t.goto .user)
  -- `arch_return_to_user_work`
  | resume (hs : t.stage = .kernel) (hd : t.needDie = false) : Own g i t .resume (t.goto .user)
  | retire {P : Process} (hs : t.stage = .kernel) (hd : t.needDie = true)
      (hp : g.process t.process = some P) : Own g i t .retire (t.goto (.quitting .retire P.groupExitCode))
  | quit (status : Int) (hs : t.stage = .kernel) : Own g i t (.quit status) (t.goto (.quitting .sysExit status))
  | quitGroup (status : Int) (hs : t.stage = .kernel) :
      Own g i t (.quitGroup status) (t.goto (.quitting .groupExit status))
  -- `sched_sleep_timed_interruptible`
  | nap {timed : Bool} (hs : t.stage = .kernel) : Own g i t .nap (t.goto (.napping (.other timed)))
  | test {w : Sleep} (hs : t.stage = .napping w) (hd : t.needDie = false) : Own g i t .test (t.goto (.tested w))
  | testIntr {w : Sleep} (hs : t.stage = .napping w) (hd : t.needDie = true) :
      Own g i t .test (t.goto (.slept w .eintr))
  | doze {w : Sleep} (hs : t.stage = .tested w) (hc : t.credit = 0) : Own g i t .doze (t.goto (.asleep w))
  | spend {w : Sleep} (hs : t.stage = .tested w) (hc : t.credit ≠ 0) :
      Own g i t .doze { t with stage := .woken w false, credit := t.credit - 1 }
  | rise {w : Sleep} {b : Bool} (hs : t.stage = .woken w b) : Own g i t .rise (t.goto (.slept w (t.slept b)))
  | ret {pid : Option Nat} {r : Slept} (hs : t.stage = .slept (.wait pid) r) (hr : r ≠ .eintr) :
      Own g i t .ret (t.goto (.waiting pid))
  | retIntr {pid : Option Nat} (hs : t.stage = .slept (.wait pid) .eintr) : Own g i t .ret (t.goto .kernel)
  | retOther {timed : Bool} {r : Slept} (hs : t.stage = .slept (.other timed) r) :
      Own g i t .ret (t.goto .kernel)
  -- `sched_consume_wake_pending`
  | consume (hs : t.stage = .kernel) :
      Own g i t .consume { t with credit := if t.credit = 0 then 0 else t.credit - 1 }
  -- `process_wait`
  | wait (pid : Option Nat) (hs : t.stage = .kernel) : Own g i t (.wait pid) (t.goto (.waiting pid))
  | intr {pid : Option Nat} (hs : t.stage = .waiting pid) (hd : t.needDie = true) :
      Own g i t .look (t.goto .kernel)
  | look {pid : Option Nat} (hs : t.stage = .waiting pid) (hd : t.needDie = false) :
      Own g i t .look (t.goto (.looking pid))
  | childless {pid : Option Nat} {P : Process} (hs : t.stage = .looking pid)
      (hp : g.process t.process = some P) (hc : P.findChild pid = none) : Own g i t .poll (t.goto .kernel)
  | block {pid : Option Nat} {P : Process} {c : Nat} (hs : t.stage = .looking pid)
      (hp : g.process t.process = some P) (hc : P.findChild pid = some c) (hz : g.zombie c = false) :
      Own g i t .poll (t.goto (.napping (.wait pid)))
  | take {pid : Option Nat} {P : Process} {c : Nat} (hs : t.stage = .looking pid)
      (hp : g.process t.process = some P) (hc : P.findChild pid = some c) (hz : g.zombie c = true) :
      Own g i t (.take c) (t.goto (.reaping c))
  | reap {c : Nat} (hs : t.stage = .reaping c) : Own g i t (.reap c) (t.goto .kernel)
  -- `process_fork`
  | splice (hs : t.stage = .kernel) : Own g i t .splice (t.goto (.forking g.next))
  | unsplice {c : Nat} (hs : t.stage = .forking c) : Own g i t (.unsplice c) (t.goto .kernel)
  | spawn {c : Nat} (hs : t.stage = .forking c) : Own g i t (.spawn c) (t.goto .kernel)
  -- `process_clone_thread`
  | count {P : Process} (hs : t.stage = .kernel) (hp : g.process t.process = some P)
      (hn : P.liveThreads < maxThreadsPerGroup) : Own g i t .count (t.goto .counted)
  | uncount (hs : t.stage = .counted) : Own g i t .uncount (t.goto .kernel)
  | make (settid : Bool) (hs : t.stage = .counted) : Own g i t .make (t.goto (.made g.next settid))
  | tell {j tid : Nat} (hs : t.stage = .made j true) (hr : g.Reads j tid) :
      Own g i t (.tell tid) (t.goto (.made j false))
  | read {j tid : Nat} (hs : t.stage = .made j false) (hr : g.Reads j tid) :
    Own g i t (.read tid) (t.goto .kernel)
  -- `process_thread_exit`; `head` is what `group_remove_task` leaves at the head of the list
  | exit {c : Caller} {status : Int} {P : Process} {head : Option Nat} (hs : t.stage = .quitting c status)
      (hp : g.process t.process = some P)
      (hh : ∀ j, head = some j → j ≠ i ∧ ∃ u, g.task j = some u ∧ u.process = t.process ∧ u.linked = true) :
      Own g i t (.exit head) { t with
        stage := .leaving (decide (P.liveThreads - 1 ≤ 0)) c status
        linked := t.linked && decide (P.liveThreads - 1 ≤ 0) }
  | die {c : Caller} {status : Int} (hs : t.stage = .leaving false c status) : Own g i t .die (t.goto .freed)
  | finish {c : Caller} {status : Int} {P : Process} (hs : t.stage = .leaving true c status)
      (hp : g.process t.process = some P) (hinit : g.init = some t.process → P.children = []) :
      Own g i t (.finish status) (t.goto (.exited (P.children.any g.zombie)))
  | wakeInit (hs : t.stage = .exited true) : Own g i t .wakeInit (t.goto (.exited false))
  | off (hs : t.stage = .exited false) : Own g i t .off (t.goto .gone)
  -- `kill_current_user`, after a fault
  | kill {P : Process} (hs : t.stage = .kernel) (hp : g.process t.process = some P)
      (hinit : g.init = some t.process → P.children = []) :
      Own g i t .kill (t.goto (.exited (P.children.any g.zombie)))
  -- `futex_wake`, or an interrupt
  | wake (j : Nat) (hj : j ≠ i) : Own g i t (.wake j) t
  | expire (j : Nat) (hj : j ≠ i) : Own g i t (.expire j) t

abbrev Event := Nat × Move

def Step (g : World) (e : Event) (g' : World) : Prop :=
  ∃ t t', g.task e.1 = some t ∧ Own g e.1 t e.2 t' ∧ g' = (g.effect e.1 t e.2).setTask e.1 t'

section tasks

variable {g g' : World} {i j q : Nat} {t t' u u' : Task} {m : Move}

structure Touched (t : Task) (m : Move) (u u' : Task) : Prop where
  process : u'.process = u.process
  linked : u'.linked = u.linked
  stage : u'.stage = u.stage ∨ ∃ w b, u.stage = .asleep w ∧ u'.stage = .woken w b
  needDie : u'.needDie = u.needDie ∨
    ∃ status, m = .quitGroup status ∧ u.process = t.process ∧ u.linked = true
  marked : ∀ status, m = .quitGroup status → u.process = t.process → u.linked = true →
    u'.needDie = true ∧ ∀ w, u'.stage ≠ .asleep w

structure Made (g : World) (t : Task) (m : Move) (j : Nat) (u : Task) : Prop where
  fresh : j = g.next ∧ u = ⟨u.process, .fresh, true, false, 0⟩
  process : (m = .make ∧ u.process = t.process) ∨ m = .spawn u.process

theorem touched_refl (h : ∀ status, m ≠ .quitGroup status) : Touched t m u u :=
  ⟨rfl, rfl, .inl rfl, .inl rfl, fun status hm => absurd hm (h status)⟩

theorem touched_wake (h : ∀ status, m ≠ .quitGroup status) : Touched t m u u.wake := by
  unfold Task.wake
  split
  · next w hw => exact ⟨rfl, rfl, .inr ⟨w, false, hw, rfl⟩, .inl rfl, fun s hs => absurd hs (h s)⟩
  · exact ⟨rfl, rfl, .inl rfl, .inl rfl, fun s hs => absurd hs (h s)⟩

theorem touched_expire (h : ∀ status, m ≠ .quitGroup status) : Touched t m u u.expire := by
  unfold Task.expire
  split
  · next hw => exact ⟨rfl, rfl, .inr ⟨_, true, hw, rfl⟩, .inl rfl, fun s hs => absurd hs (h s)⟩
  · exact touched_refl h

theorem poke_task {f : Task → Task} {o : Option Nat} (hf : ∀ u, Touched t m u (f u))
    (hm : ∀ status, m ≠ .quitGroup status) (h : (g.poke f o).task j = some u') :
    ∃ u, g.task j = some u ∧ Touched t m u u' := by
  dsimp only [World.poke] at h
  split_ifs at h
  · obtain ⟨u, hu, rfl⟩ := Option.map_eq_some_iff.1 h
    exact ⟨u, hu, hf u⟩
  · exact ⟨u', h, touched_refl hm⟩

theorem wake_task {o : Option Nat} (hm : ∀ status, m ≠ .quitGroup status) (h : (g.wake o).task j = some u') :
    ∃ u, g.task j = some u ∧ Touched t m u u' :=
  poke_task (fun _ => touched_wake hm) hm h

theorem addTask_task (h : (g.addTask q).task j = some u') :
    g.task j = some u' ∨ (j = g.next ∧ u' = ⟨q, .fresh, true, false, 0⟩) :=
  (of_update h).symm.imp_left And.right

theorem effect_task (hj : j ≠ i) (h : (g.effect i t m).task j = some u') :
    (∃ u, g.task j = some u ∧ Touched t m u u') ∨ Made g t m j u' := by
  cases m with
  | quitGroup status =>
    obtain ⟨u, hu, rfl⟩ := Option.map_eq_some_iff.1 h
    refine .inl ⟨u, hu, ?_⟩
    split_ifs with hc
    · unfold Task.mark
      split
      · next w hw =>
          exact ⟨rfl, rfl, .inr ⟨w, _, hw, rfl⟩, .inr ⟨status, rfl, hc.2⟩, fun _ _ _ _ => ⟨rfl, nofun⟩⟩
      · next hw => exact ⟨rfl, rfl, .inl rfl, .inr ⟨status, rfl, hc.2⟩, fun _ _ _ _ => ⟨rfl, hw⟩⟩
    · exact ⟨rfl, rfl, .inl rfl, .inl rfl, fun _ _ hp hl => absurd ⟨hj, hp, hl⟩ hc⟩
  | reap c =>
    exact .inl ⟨u', (Option.filter_eq_some_iff.1 h).1, touched_refl nofun⟩
  | make =>
    rcases addTask_task h with h | ⟨rfl, rfl⟩
    · exact .inl ⟨u', h, touched_refl nofun⟩
    · exact .inr ⟨⟨rfl, rfl⟩, .inl ⟨rfl, rfl⟩⟩
  | spawn c =>
    rcases addTask_task h with h | ⟨rfl, rfl⟩
    · exact .inl ⟨u', h, touched_refl nofun⟩
    · exact .inr ⟨⟨rfl, rfl⟩, .inr rfl⟩
  | finish status => exact .inl (wake_task nofun h)
  | kill => exact .inl (wake_task nofun h)
  | wakeInit => exact .inl (wake_task nofun h)
  | wake k => exact .inl (wake_task nofun h)
  | expire k => exact .inl (poke_task (fun _ => touched_expire nofun) nofun h)
  | _ => exact .inl ⟨u', h, touched_refl nofun⟩

theorem effect_some (hu : g.task j = some u) (hj : j ≠ g.next) :
    (∃ u', (g.effect i t m).task j = some u') ∨ m = .reap u.process := by
  have hpoke : ∀ (g1 : World) (f : Task → Task) (o : Option Nat), g1.task j = some u →
      ∃ u', (g1.poke f o).task j = some u' := by
    intro g1 f o hu
    dsimp only [World.poke]
    rw [hu]
    split_ifs <;> exact ⟨_, rfl⟩
  cases m with
  | quitGroup status => exact .inl ⟨_, Option.map_eq_some_iff.2 ⟨u, hu, rfl⟩⟩
  | reap c =>
    by_cases hc : u.process = c
    · exact .inr (hc ▸ rfl)
    · exact .inl ⟨u, Option.filter_eq_some_iff.2 ⟨hu, by simp [hc]⟩⟩
  | make => exact .inl ⟨u, (update_of_ne hj _ _).trans hu⟩
  | spawn c => exact .inl ⟨u, (update_of_ne hj _ _).trans hu⟩
  | finish status => exact .inl (hpoke _ _ _ hu)
  | kill => exact .inl (hpoke _ _ _ hu)
  | wakeInit => exact .inl (hpoke _ _ _ hu)
  | wake k => exact .inl (hpoke _ _ _ hu)
  | expire k => exact .inl (hpoke _ _ _ hu)
  | _ => exact .inl ⟨u, hu⟩

theorem step_task (h : g' = (g.effect i t m).setTask i t') (hu : g'.task j = some u') :
    (j = i ∧ u' = t') ∨ (j ≠ i ∧ ∃ u, g.task j = some u ∧ Touched t m u u') ∨ (j ≠ i ∧ Made g t m j u') := by
  subst h
  rcases of_update hu with h | ⟨hj, hu⟩
  · exact .inl h
  · exact .inr ((effect_task hj hu).imp (fun h => ⟨hj, h⟩) fun h => ⟨hj, h⟩)

theorem Own.process (h : Own g i t m t') : t'.process = t.process := by
  cases h <;> rfl

theorem Own.needDie (h : Own g i t m t') : t'.needDie = t.needDie := by
  cases h <;> rfl

theorem Touched.dies (h : Touched t m u u') (hd : u.needDie = true) : u'.needDie = true := by
  rcases h.needDie with hn | ⟨status, rfl, hp, hl⟩
  · exact hn.trans hd
  · exact (h.marked status rfl hp hl).1

theorem Touched.back {s : Stage} (h : Touched t m u u') (hs : u'.stage = s) (hw : ∀ w b, s ≠ .woken w b) :
    u.stage = s := by
  rcases h.stage with h | ⟨w, b, -, h⟩
  · exact h.symm.trans hs
  · exact absurd (hs.symm.trans h) (hw w b)

theorem Touched.same {α : Type} (h : Touched t m u u') (f : Stage → α)
    (hf : ∀ w b, f (.woken w b) = f (.asleep w)) : f u'.stage = f u.stage := by
  rcases h.stage with h | ⟨w, b, h, h'⟩
  · rw [h]
  · rw [h, h', hf]

theorem next_le : g.next ≤ (g.effect i t m).next := by
  cases m with
  | make => exact Nat.le_succ _
  | spawn c => exact Nat.le_succ _
  | splice => exact Nat.le_succ _
  | _ => exact Nat.le_refl _

end tasks

section processes

variable {g g' : World} {i p q : Nat} {t t' : Task} {m : Move} {P P' : Process}

def Move.drift : Move → Int
  | .count => 1
  | .uncount => -1
  | .exit _ => -1
  | _ => 0

-- What a move of task `t` does to process `p`, the family tree apart.
structure Aged (t : Task) (m : Move) (p : Nat) (P P' : Process) : Prop where
  live : (m = .spawn p ∧ P'.liveThreads = 1) ∨
    (m ≠ .spawn p ∧ P'.liveThreads = P.liveThreads + if p = t.process then m.drift else 0)
  code : P'.groupExitCode = P.groupExitCode ∨ (p = t.process ∧ m = .quitGroup P'.groupExitCode)
  zombie : (P'.zombie = P.zombie ∧ P'.exitStatus = P.exitStatus) ∨
    (p = t.process ∧ P'.zombie = true ∧
      (m = .kill ∨ ∃ status, m = .finish status ∧ P'.exitStatus = status % 256))

theorem modify_process {f : Process → Process} (h : (g.modify q f).process p = some P') :
    ∃ P, g.process p = some P ∧ P' = if p = q then f P else P := by
  by_cases hp : p = q
  · subst hp
    obtain ⟨P, hP, rfl⟩ := Option.map_eq_some_iff.1 ((update_self p _ _).symm.trans h)
    exact ⟨P, hP, (if_pos rfl).symm⟩
  · exact ⟨P', (update_of_ne hp _ _).symm.trans h, (if_neg hp).symm⟩

theorem handOver_process {status : Int} (h : (g.handOver q status).process p = some P') :
    ∃ P, g.process p = some P ∧ P'.liveThreads = P.liveThreads ∧ P'.groupExitCode = P.groupExitCode ∧
      ((P'.zombie = P.zombie ∧ P'.exitStatus = P.exitStatus) ∨
        (p = q ∧ P'.zombie = true ∧ P'.exitStatus = status % 256)) := by
  obtain ⟨P, hP, rfl⟩ := Option.map_eq_some_iff.1 h
  refine ⟨P, hP, ?_⟩
  by_cases hp : p = q
  · rw [if_pos hp]
    exact ⟨rfl, rfl, .inr ⟨hp, rfl, rfl⟩⟩
  · rw [if_neg hp]
    exact ⟨rfl, rfl, .inl ⟨rfl, rfl⟩⟩

theorem Aged.same (hl : P'.liveThreads = P.liveThreads) (hc : P'.groupExitCode = P.groupExitCode)
    (hz : P'.zombie = P.zombie ∧ P'.exitStatus = P.exitStatus) (hm : m ≠ .spawn p) (hd : m.drift = 0) :
    Aged t m p P P' := by
  refine ⟨.inr ⟨hm, ?_⟩, .inl hc, .inl hz⟩
  rw [hd, ite_self, hl, Int.add_zero]

theorem step_process (h : g' = (g.effect i t m).setTask i t') (hP : g'.process p = some P') :
    (∃ P, g.process p = some P ∧ Aged t m p P P') ∨
      (m = .splice ∧ p = g.next ∧ P' = ⟨false, 0, none, some t.process, P'.children, 0, 0⟩) := by
  subst h
  replace hP : (g.effect i t m).process p = some P' := hP
  cases m with
  | quitGroup status =>
    obtain ⟨P, hold, rfl⟩ := modify_process hP
    refine .inl ⟨P, hold, ?_⟩
    split_ifs with hp
    · exact ⟨.inr ⟨nofun, by simp [Move.drift]⟩, .inr ⟨hp, rfl⟩, .inl ⟨rfl, rfl⟩⟩
    · exact .same rfl rfl ⟨rfl, rfl⟩ nofun rfl
  | take c =>
    obtain ⟨P1, hold1, rfl⟩ := modify_process hP
    obtain ⟨P, hold, rfl⟩ := modify_process hold1
    refine .inl ⟨P, hold, ?_⟩
    split_ifs <;> exact .same rfl rfl ⟨rfl, rfl⟩ nofun rfl
  | reap c =>
    by_cases hc : p = c
    · subst hc
      cases (update_self p _ _).symm.trans hP
    · exact .inl ⟨P', (update_of_ne hc _ _).symm.trans hP, .same rfl rfl ⟨rfl, rfl⟩ nofun rfl⟩
  | splice =>
    obtain ⟨P, hold, rfl⟩ := modify_process hP
    by_cases hn : p = g.next
    · subst hn
      cases (update_self g.next _ _).symm.trans hold
      exact .inr ⟨rfl, rfl, by split_ifs <;> rfl⟩
    · refine .inl ⟨P, (update_of_ne hn _ _).symm.trans hold, ?_⟩
      split_ifs <;> exact .same rfl rfl ⟨rfl, rfl⟩ nofun rfl
  | unsplice c =>
    obtain ⟨P, hold, rfl⟩ := modify_process hP
    by_cases hc : p = c
    · subst hc
      cases (update_self p _ _).symm.trans hold
    · refine .inl ⟨P, (update_of_ne hc _ _).symm.trans hold, ?_⟩
      split_ifs <;> exact .same rfl rfl ⟨rfl, rfl⟩ nofun rfl
  | spawn c =>
    obtain ⟨P, hold, rfl⟩ := modify_process hP
    refine .inl ⟨P, hold, ?_⟩
    split_ifs with hp
    · subst hp
      exact ⟨.inl ⟨rfl, rfl⟩, .inl rfl, .inl ⟨rfl, rfl⟩⟩
    · exact .same rfl rfl ⟨rfl, rfl⟩ (fun h => hp (Move.spawn.inj h).symm) rfl
  | count =>
    obtain ⟨P, hold, rfl⟩ := modify_process hP
    refine .inl ⟨P, hold, .inr ⟨nofun, ?_⟩, .inl ?_, .inl ?_⟩ <;> split_ifs <;> simp [Move.drift]
  | uncount =>
    obtain ⟨P, hold, rfl⟩ := modify_process hP
    refine .inl ⟨P, hold, .inr ⟨nofun, ?_⟩, .inl ?_, .inl ?_⟩ <;> split_ifs <;>
      simp [Move.drift, Int.sub_eq_add_neg]
  | exit head =>
    obtain ⟨P, hold, rfl⟩ := modify_process hP
    refine .inl ⟨P, hold, .inr ⟨nofun, ?_⟩, .inl ?_, .inl ?_⟩ <;> split_ifs <;>
      simp [Move.drift, Int.sub_eq_add_neg]
  | finish status =>
    obtain ⟨P, hP, hl, hc, hz⟩ := handOver_process hP
    refine .inl ⟨P, hP, .inr ⟨nofun, by simp [Move.drift, hl]⟩, .inl hc, hz.imp_right fun h => ?_⟩
    exact ⟨h.1, h.2.1, .inr ⟨status, rfl, h.2.2⟩⟩
  | kill =>
    obtain ⟨P, hP, hl, hc, hz⟩ := handOver_process hP
    refine .inl ⟨P, hP, .inr ⟨nofun, by simp [Move.drift, hl]⟩, .inl hc, hz.imp_right fun h => ?_⟩
    exact ⟨h.1, h.2.1, .inl rfl⟩
  | _ => exact .inl ⟨P', hP, .same rfl rfl ⟨rfl, rfl⟩ nofun rfl⟩

end processes

-- The task does not go back to user mode.
def Stage.exiting : Stage → Bool
  | .quitting _ _ => true
  | .leaving _ _ _ => true
  | .exited _ => true
  | .gone => true
  | .freed => true
  | _ => false

-- The names of tasks and processes are in order.
structure Tidy (g : World) : Prop where
  lt : ∀ j u, g.task j = some u → j < g.next ∧ u.process < g.next
  linked : ∀ j u, g.task j = some u → u.linked = false → u.stage.exiting = true
  forking : ∀ j u c, g.task j = some u → u.stage = .forking c → c < g.next ∧
    (∀ k v, g.task k = some v → v.process ≠ c) ∧ ∀ k v, g.task k = some v → v.stage = .forking c → k = j

section tidy

variable {g g' : World} {i j c : Nat} {t t' u u' : Task} {m : Move} {e : Event}

theorem Own.forking (h : Own g i t m t') (hs : t'.stage = .forking c) :
    t.stage = .forking c ∨ (m = .splice ∧ c = g.next) := by
  cases h with
  | splice h =>
    cases hs
    exact .inr ⟨rfl, rfl⟩
  | wake k hk => exact .inl hs
  | expire k hk => exact .inl hs
  | consume h => exact .inl hs
  | _ => cases hs

theorem Own.exiting (h : Own g i t m t') (hx : t.stage.exiting = true) : t'.stage.exiting = true := by
  cases h <;> simp_all [Task.goto, Stage.exiting]

theorem Own.linked (h : Own g i t m t') : t'.linked = t.linked ∨ t'.stage.exiting = true := by
  cases h <;> first | exact .inl rfl | exact .inr rfl

theorem Own.unlinked (h : Own g i t m t') (hl : t.linked = false) : t'.linked = false := by
  cases h <;> first | exact hl | simp [hl]

theorem Touched.exiting (h : Touched t m u u') : u'.stage.exiting = u.stage.exiting :=
  h.same Stage.exiting fun _ _ => rfl

theorem Tidy.step (h : Tidy g) (hs : Step g e g') : Tidy g' := by
  obtain ⟨i, m⟩ := e
  obtain ⟨t, t', ht, ho, hg⟩ := hs
  have hn : g.next ≤ g'.next := by
    rw [hg]
    exact next_le
  have hlt : ∀ {n}, n < g.next → n < g'.next := fun hlt => Nat.lt_of_lt_of_le hlt hn
  constructor
  case lt =>
    intro j u hu
    rcases step_task hg hu with ⟨rfl, rfl⟩ | ⟨-, v, hv, hT⟩ | ⟨-, hM⟩
    · rw [ho.process]
      exact ⟨hlt (h.lt j t ht).1, hlt (h.lt j t ht).2⟩
    · rw [hT.process]
      exact ⟨hlt (h.lt j v hv).1, hlt (h.lt j v hv).2⟩
    · subst hg
      rw [hM.fresh.1]
      rcases hM.process with ⟨rfl, hp⟩ | rfl
      · rw [hp]
        exact ⟨Nat.lt_succ_self _, hlt (h.lt i t ht).2⟩
      · cases ho with
        | spawn hs => exact ⟨Nat.lt_succ_self _, hlt (h.forking i t _ ht hs).1⟩
  case linked =>
    intro j u hu hl
    rcases step_task hg hu with ⟨rfl, rfl⟩ | ⟨-, v, hv, hT⟩ | ⟨-, hM⟩
    · rcases ho.linked with h' | h'
      · exact ho.exiting (h.linked j t ht (h'.symm.trans hl))
      · exact h'
    · rw [hT.exiting]
      exact h.linked j v hv (hT.linked.symm.trans hl)
    · rw [hM.fresh.2] at hl
      cases hl
  case forking =>
    have hpre : ∀ k v c, g'.task k = some v → v.stage = .forking c →
        (∃ v, g.task k = some v ∧ v.stage = .forking c) ∨ (k = i ∧ m = .splice ∧ c = g.next) := by
      intro k v c hv hs
      rcases step_task hg hv with ⟨rfl, rfl⟩ | ⟨-, w, hw, hT⟩ | ⟨-, hM⟩
      · exact (ho.forking hs).imp (fun h' => ⟨t, ht, h'⟩) fun h' => ⟨rfl, h'⟩
      · exact .inl ⟨w, hw, hT.back hs nofun⟩
      · rw [hM.fresh.2] at hs
        cases hs
    intro j u c hu hs
    rcases hpre j u c hu hs with ⟨v, hv, hvs⟩ | ⟨rfl, rfl, rfl⟩
    · obtain ⟨hc, hno, huniq⟩ := h.forking j v c hv hvs
      refine ⟨hlt hc, fun k x hx => ?_, fun k x hx hxs => ?_⟩
      · rcases step_task hg hx with ⟨rfl, rfl⟩ | ⟨-, w, hw, hT⟩ | ⟨-, hM⟩
        · rw [ho.process]
          exact hno k t ht
        · rw [hT.process]
          exact hno k w hw
        rcases hM.process with ⟨-, hp⟩ | rfl
        · rw [hp]
          exact hno i t ht
        -- the child gets its task when the fork is over
        cases ho with
        | spawn hts =>
          rintro rfl
          obtain rfl := huniq i t ht hts
          rcases step_task hg hu with ⟨-, rfl⟩ | ⟨hne, -⟩ | ⟨hne, -⟩
          · cases hs
          · exact hne rfl
          · exact hne rfl
      · rcases hpre k x c hx hxs with ⟨w, hw, hws⟩ | ⟨-, -, rfl⟩
        · exact huniq k w hw hws
        · exact absurd hc (Nat.lt_irrefl _)
    · refine ⟨by rw [hg]; exact Nat.lt_succ_self _, fun k x hx => ?_, fun k x hx hxs => ?_⟩
      · rcases step_task hg hx with ⟨rfl, rfl⟩ | ⟨-, w, hw, hT⟩ | ⟨-, hM⟩
        · rw [ho.process]
          exact Nat.ne_of_lt (h.lt k t ht).2
        · rw [hT.process]
          exact Nat.ne_of_lt (h.lt k w hw).2
        · rcases hM.process with ⟨hm, -⟩ | hm <;> cases hm
      · rcases hpre k x _ hx hxs with ⟨w, hw, hws⟩ | ⟨rfl, -⟩
        · exact absurd (h.forking k w _ hw hws).1 (Nat.lt_irrefl _)
        · rfl

end tidy

end Jnu.Proc.Group
