import Jnu.Lib.Trace

namespace Jnu.Drivers.Ahci

open Lib.Trace
open Function

variable {σ : Type}

def bounceSectors : Nat := 8

-- What is left of a transfer; `data` has the sectors of the caller's buffer.
structure Transfer (σ : Type) where
  write : Bool
  lba : Nat
  count : Nat
  data : Nat → σ

def Transfer.chunk (x : Transfer σ) : Nat := min x.count bounceSectors

def Transfer.advance (x : Transfer σ) : Transfer σ :=
  { x with lba := x.lba + x.chunk, count := x.count - x.chunk, data := fun i => x.data (i + x.chunk) }

-- The command table: direction, first sector, number of sectors.
structure Table where
  write : Bool
  lba : Nat
  count : Nat
  deriving DecidableEq

def Transfer.table (x : Transfer σ) : Table := ⟨x.write, x.lba, x.chunk⟩

-- Where a task is in a round of `ahci_transfer`: the `memcpy` to the bounce buffer, `ahci_setup`,
-- `ahci_wait_ready`, behind the write of PxCI, the `memcpy` to the caller, the way out.
inductive Stage
  | filling
  | setting
  | ready
  | issued
  | copying
  | leaving
  deriving DecidableEq

-- A port. `ci` is its PxCI bit, a command is outstanding; `err` is PXTFD_ERR.
structure State (σ : Type) where
  sectors : Nat
  busy : Bool
  ci : Bool
  err : Bool
  table : Table
  bounce : Nat → σ
  disk : Nat → σ
  call : Nat → Option (Stage × Transfer σ)

inductive Act (σ : Type)
  | claim (t : Nat) (x : Transfer σ)
  | fill (t : Nat)
  | setup (t : Nat)
  | issue (t : Nat)
  -- the device moves some sectors, all of them and ends the command, or ends it with an error
  | dma (n : Nat)
  | complete
  | abort
  | finish (t : Nat)
  -- `ahci_issue` returns an error: `ahci_wait_ready`, PXIS_TFES, PXTFD_ERR or a timeout
  | giveUp (t : Nat)
  | copy (t : Nat)
  | release (t : Nat)

namespace State

def goto (s : State σ) (t : Nat) (g : Stage) (x : Transfer σ) : State σ :=
  { s with call := update s.call t (some (g, x)) }

def round (s : State σ) (t : Nat) (x : Transfer σ) : State σ :=
  if x.count = 0 ∨ x.lba ≥ s.sectors ∨ x.lba + x.chunk > s.sectors then s.goto t .leaving x
  else if x.write then s.goto t .filling x
  else s.goto t .setting x

-- The device reads the command table and moves the first `n` sectors of the command.
def dma (s : State σ) (n : Nat) : State σ :=
  { s with
    disk := fun l =>
      if s.table.write = true ∧ s.table.lba ≤ l ∧ l < s.table.lba + n then s.bounce (l - s.table.lba)
      else s.disk l
    bounce := fun i =>
      if s.table.write = false ∧ i < n then s.disk (s.table.lba + i) else s.bounce i }

def exec (s : State σ) : Act σ → Option (State σ)
  | .claim t x => if s.call t = none ∧ s.busy = false then some ({ s with busy := true }.round t x) else none
  | .fill t =>
    match s.call t with
    | some (.filling, x) =>
      some { s.goto t .setting x with bounce := fun i => if i < x.chunk then x.data i else s.bounce i }
    | _ => none
  | .setup t =>
    match s.call t with
    | some (.setting, x) => some { s.goto t .ready x with table := x.table }
    | _ => none
  | .issue t =>
    match s.call t with
    | some (.ready, x) => some { s.goto t .issued x with ci := true }
    | _ => none
  | .dma n => if s.ci = true ∧ n ≤ s.table.count then some (s.dma n) else none
  | .complete => if s.ci then some { s.dma s.table.count with ci := false, err := false } else none
  | .abort => if s.ci then some { s with ci := false, err := true } else none
  | .finish t =>
    match s.call t with
    | some (.issued, x) =>
      if s.ci || s.err then none
      else some (if x.write then s.round t x.advance else s.goto t .copying x)
    | _ => none
  | .giveUp t =>
    match s.call t with
    | some (.ready, x) => some (s.goto t .leaving x)
    | some (.issued, x) => some (s.goto t .leaving x)
    | _ => none
  | .copy t =>
    match s.call t with
    | some (.copying, x) => some (s.round t x.advance)
    | _ => none
  | .release t =>
    match s.call t with
    | some (.leaving, _) => some { s with busy := false, call := update s.call t none }
    | _ => none

-- `ahci_issue` does not return an error while PxCI is set.
def patient (s : State σ) : Act σ → Prop
  | .giveUp _ => s.ci = false
  | _ => True

end State

def Step (s : State σ) (a : Act σ) (s' : State σ) : Prop := s.exec a = some s'

def PatientStep (s : State σ) (a : Act σ) (s' : State σ) : Prop := s.patient a ∧ Step s a s'

def free (sectors : Nat) (bounce disk : Nat → σ) : State σ :=
  ⟨sectors, false, false, false, ⟨false, 0, 0⟩, bounce, disk, fun _ => none⟩

-- No task writes the bounce buffer or the command table, or copies from the buffer, under an outstanding
-- command; the command that is outstanding is that of its task, with its data; and what is copied to a
-- caller are the sectors that it asked for.
structure Safe (s : State σ) : Prop where
  untouched : ∀ t g x, s.call t = some (g, x) → g = .filling ∨ g = .setting ∨ g = .copying → s.ci = false
  own : s.ci = true → ∃ t x, s.call t = some (.issued, x) ∧ s.table = x.table ∧
    (x.write = true → ∀ i < x.chunk, s.bounce i = x.data i)
  copied : ∀ t x, s.call t = some (.copying, x) → ∀ i < x.chunk, s.bounce i = s.disk (x.lba + i)

-- The table, the buffer and the device follow the task that has the port.
structure Follows (s : State σ) (g : Stage) (x : Transfer σ) : Prop where
  ci : s.ci = true → g = .issued
  table : g = .ready ∨ g = .issued → s.table = x.table
  loaded : g = .setting ∨ g = .ready ∨ g = .issued → x.write = true → ∀ i < x.chunk, s.bounce i = x.data i
  done : g = .copying ∨ g = .issued ∧ s.ci = false ∧ s.err = false ∧ x.write = false →
    ∀ i < x.chunk, s.bounce i = s.disk (x.lba + i)

inductive Inv (s : State σ) : Prop
  | free (hcall : s.call = fun _ => none) (hci : s.ci = false)
  | held {t : Nat} {g : Stage} {x : Transfer σ} (hcall : s.call = update (fun _ => none) t (some (g, x)))
      (hbusy : s.busy = true) (h : Follows s g x)

section steps

variable {s : State σ} {t : Nat} {o : Option (Stage × Transfer σ)} {g : Stage} {x : Transfer σ}

section

variable (hcall : s.call = update (fun _ => none) t o) (hbusy : s.busy = true)
include hcall hbusy

theorem Inv.goto (h : Follows s g x) : Inv (s.goto t g x) := by
  refine .held (t := t) ?_ hbusy ⟨h.ci, h.table, h.loaded, h.done⟩
  rw [State.goto, hcall, update_idem]

theorem Inv.left (hci : s.ci = false) : Inv (s.goto t .leaving x) :=
  .goto hcall hbusy ⟨by simp [hci], by simp, by simp, by simp⟩

theorem Inv.round (hci : s.ci = false) : Inv (s.round t x) := by
  unfold State.round
  split
  · exact .left hcall hbusy hci
  split
  · exact .goto hcall hbusy ⟨by simp [hci], by simp, by simp, by simp⟩
  · exact .goto hcall hbusy ⟨by simp [hci], by simp, by simp [*], by simp⟩

end

-- The table is that of the task, so a write does not change the buffer.
theorem Follows.dma (h : Follows s .issued x) (n : Nat) (hw : x.write = true) (i : Nat) (hi : i < x.chunk) :
    (s.dma n).bounce i = x.data i := by
  have htable := h.table (.inr rfl)
  refine (if_neg fun hr => ?_).trans (h.loaded (.inr (.inr rfl)) hw i hi)
  rw [htable] at hr
  cases hw.symm.trans hr.1

theorem Follows.complete (h : Follows s .issued x) :
    Follows { s.dma s.table.count with ci := false, err := false } .issued x := by
  refine ⟨fun _ => rfl, h.table, fun _ => h.dma _, fun hr i hi => ?_⟩
  have hw := (hr.resolve_left (by simp)).2.2.2
  have htable := h.table (.inr rfl)
  simp only [State.dma, htable, Transfer.table, hw, hi, and_self, if_true, if_false, Bool.false_eq_true,
    false_and]

end steps

theorem Inv.step {s s' : State σ} {a : Act σ} (h : Inv s) (hp : s.patient a) (hs : Step s a s') : Inv s' := by
  cases h with
  | free hcall hci =>
    cases a <;> simp only [Step, State.exec, hcall, hci] at hs
    case claim t x =>
      cases (Option.ite_none_right_eq_some.1 hs).2
      exact .round (o := none) (update_eq_self t _).symm rfl rfl
    all_goals cases hs
  | @held t g x hcall hbusy h =>
    have hown : ∀ u p, s.call u = some p → u = t ∧ p = (g, x) := by
      intro u p hu
      rw [hcall, update_apply] at hu
      grind
    cases a <;> simp only [Step, State.exec] at hs
    all_goals repeat' split at hs
    all_goals cases hs
    all_goals try obtain ⟨rfl, hy⟩ := hown _ _ ‹s.call _ = some _›
    all_goals try cases hy
    -- claim, fill, setup, issue
    · simp_all
    · refine .held (by rw [State.goto, hcall, update_idem]) hbusy ⟨fun hci => ?_, by simp, ?_, by simp⟩
      · cases h.ci hci
      · exact fun _ _ i hi => if_pos hi
    · refine .held (by rw [State.goto, hcall, update_idem]) hbusy ⟨fun hci => ?_, fun _ => rfl, ?_, by simp⟩
      · cases h.ci hci
      · exact fun _ => h.loaded (.inl rfl)
    · exact .held (by rw [State.goto, hcall, update_idem]) hbusy
        ⟨fun _ => rfl, fun _ => h.table (.inl rfl), fun _ => h.loaded (.inr (.inl rfl)), by simp⟩
    -- the device
    · rename_i hdma
      cases h.ci hdma.1
      exact .held hcall hbusy ⟨fun _ => rfl, h.table, fun _ => h.dma _, by simp [State.dma, hdma.1]⟩
    · rename_i hci
      cases h.ci hci
      exact .held hcall hbusy h.complete
    · rename_i hci
      cases h.ci hci
      exact .held hcall hbusy ⟨fun _ => rfl, h.table, h.loaded, by simp⟩
    -- finish
    · exact .round hcall hbusy (by simp_all)
    · exact .goto hcall hbusy ⟨by simp_all, by simp, by simp, fun _ => h.done (by simp_all)⟩
    -- giveUp
    · exact .left hcall hbusy (Bool.eq_false_iff.2 fun hci => by cases h.ci hci)
    · exact .left hcall hbusy hp
    -- copy, release
    · exact .round hcall hbusy (Bool.eq_false_iff.2 fun hci => by cases h.ci hci)
    · refine .free ?_ (Bool.eq_false_iff.2 fun hci => by cases h.ci hci)
      rw [hcall, update_idem, update_eq_self]

theorem Inv.safe {s : State σ} (h : Inv s) : Safe s := by
  cases h with
  | free hcall hci => exact ⟨by simp [hcall], by simp [hci], by simp [hcall]⟩
  | @held t g x hcall hbusy h =>
    have hown : ∀ u p, s.call u = some p → p = (g, x) := by
      intro u p hu
      rw [hcall, update_apply] at hu
      grind
    refine ⟨fun u g' x' hu hg => ?_, fun hci => ?_, fun u x' hu => ?_⟩
    · cases hown u _ hu
      refine Bool.eq_false_iff.2 fun hci => ?_
      cases h.ci hci
      simp at hg
    · cases h.ci hci
      exact ⟨t, x, by rw [hcall, update_self], h.table (.inr rfl), h.loaded (.inr (.inr rfl))⟩
    · cases hown u _ hu
      exact h.done (.inl rfl)

theorem buffers_unshared {sectors : Nat} {bounce disk : Nat → σ} {l : List (Act σ)} {s : State σ}
    (h : Run PatientStep (free sectors bounce disk) l s) : Safe s := by
  have hinv : Inv s := h.invariant (.free rfl rfl) fun _ _ _ hi hs => hi.step hs.1 hs.2
  exact hinv.safe

-- Task 1 writes sector 5, and then task 2 reads it.
def turnActs : List (Act Nat) :=
  [.claim 1 ⟨true, 5, 1, fun _ => 7⟩, .fill 1, .setup 1, .issue 1, .dma 1, .complete, .finish 1, .release 1,
    .claim 2 ⟨false, 5, 1, fun _ => 0⟩, .setup 2, .issue 2, .complete, .finish 2]

theorem buffers_unshared_read : ∃ s, Run PatientStep (free 100 (fun _ => 0) fun _ => 0) turnActs s ∧
    s.call 2 = some (.copying, ⟨false, 5, 1, fun _ => 0⟩) ∧ s.bounce 0 = 7 := by
  obtain ⟨s, hs, hcall, hdisk⟩ : ∃ s, turnActs.foldlM State.exec (free 100 (fun _ => 0) fun _ => 0) = some s ∧
      s.call 2 = some (.copying, ⟨false, 5, 1, fun _ => 0⟩) ∧ s.disk 5 = 7 := ⟨_, rfl, rfl, rfl⟩
  have hrun : Run PatientStep (free 100 (fun _ => 0) fun _ => 0) turnActs s := by
    refine (Run.of_foldlM hs).mono fun s a s' hmem ha => ⟨?_, ha⟩
    -- nobody gives up
    cases a <;> trivial
  exact ⟨s, hrun, hcall, ((buffers_unshared hrun).copied _ _ hcall 0 (by decide)).trans hdisk⟩

-- The write of task 1 to sector 5 times out and task 2 starts a write to sector 9.
def lateActs : List (Act Nat) :=
  [.claim 1 ⟨true, 5, 1, fun _ => 7⟩, .fill 1, .setup 1, .issue 1, .giveUp 1, .release 1,
    .claim 2 ⟨true, 9, 1, fun _ => 8⟩]

-- Task 2 fills the buffer under the command of task 1, which then puts the data of task 2 into sector 5.
theorem buffers_shared : ∃ s s', Run Step (free 100 (fun _ => 0) fun _ => 0) lateActs s ∧ ¬ Safe s ∧
    Run Step s [.fill 2, .complete] s' ∧ s'.disk 5 = 8 := by
  obtain ⟨s, s', hs, hcall, hci, hs', hdisk⟩ : ∃ s s',
      lateActs.foldlM State.exec (free 100 (fun _ => 0) fun _ => 0) = some s ∧
      s.call 2 = some (.filling, ⟨true, 9, 1, fun _ => 8⟩) ∧ s.ci = true ∧
      [Act.fill 2, .complete].foldlM State.exec s = some s' ∧ s'.disk 5 = 8 :=
    ⟨_, _, rfl, rfl, rfl, rfl, rfl⟩
  refine ⟨s, s', Run.of_foldlM hs, fun h => ?_, Run.of_foldlM hs', hdisk⟩
  cases hci.symm.trans (h.untouched _ _ _ hcall (.inl rfl))

end Jnu.Drivers.Ahci
