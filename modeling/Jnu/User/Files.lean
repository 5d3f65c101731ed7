import Jnu.Lib.Refs
import Jnu.Lib.Trace

namespace Jnu.User.Files

open Lib.Refs Lib.Trace
open Function

-- `struct file`: the references to it, and the inode if it is a file of the VFS.
structure File where
  refcount : Nat
  vfs : Option Nat

def maxFds : Nat := 32

-- A process and its table: a fork in progress, its life, its end, the freeing of the table, and the time
-- after.
inductive Status
  | absent
  | fresh
  | alive
  | zombie
  | dying
  | gone
  deriving DecidableEq

-- Nothing, or the loop over the slots of an ending process, at the end of which the table may be freed.
inductive Loop
  | idle
  | sweeping (p fd : Nat) (free : Bool)

-- A call that has got a file from `fd_get`, `sys_open` before `fd_alloc`, and a `file_put` that is due.
inductive Stage
  | run (l : Loop)
  | using (f : Nat)
  | opening (p f : Nat)
  | putting (f : Nat) (l : Loop)

-- `destroyed` counts the runs of `file_destroy`, which no function reads.
structure State where
  file : Nat → Option File
  next : Nat
  inode : Nat → Nat
  slot : Nat × Fin maxFds → Option Nat
  status : Nat → Status
  stage : Nat → Stage
  destroyed : Nat → Nat

inductive Act
  -- `sys_open` up to `vfs_open` or `vfs_create`
  | alloc (t p : Nat) (vfs : Option Nat)
  -- no inode, no truncation or no slot
  | fail (t : Nat)
  | install (t : Nat)
  | fdGet (t p : Nat) (fd : Fin maxFds)
  | ret (t : Nat)
  | close (t p : Nat) (fd : Fin maxFds)
  | fork (q : Nat)
  -- one slot in the loop of `fd_table_clone`
  | clone (p q : Nat) (fd : Fin maxFds)
  | forked (q : Nat)
  | forkFailed (t q : Nat)
  -- `process_exit_current` and `process_reap`
  | exit (t p : Nat)
  | reap (t p : Nat)
  | sweep (t : Nat)
  | swept (t : Nat)
  | put (t : Nat)

namespace State

def goto (s : State) (t : Nat) (g : Stage) : State := { s with stage := update s.stage t g }

def setStatus (s : State) (p : Nat) (x : Status) : State := { s with status := update s.status p x }

def setSlot (s : State) (p : Nat) (fd : Fin maxFds) (f : Option Nat) : State :=
  { s with slot := update s.slot (p, fd) f }

def setFile (s : State) (f : Nat) (o : Option File) : State := { s with file := update s.file f o }

def freeFd (s : State) (p : Nat) : Option (Fin maxFds) :=
  (List.finRange maxFds).find? fun fd => 3 ≤ fd.val && (s.slot (p, fd)).isNone

-- `file_put`: the last reference goes with `vfs_close` and `kfree`.
def filePut (s : State) (f : Nat) (o : File) : State :=
  if o.refcount - 1 > 0 then s.setFile f (some { o with refcount := o.refcount - 1 })
  else
    { s.setFile f none with
      inode := fun i => if o.vfs = some i then s.inode i - 1 else s.inode i
      destroyed := update s.destroyed f (s.destroyed f + 1) }

def HasTable (s : State) (p : Nat) : Prop := s.status p ≠ .absent ∧ s.status p ≠ .gone

instance (s : State) (p : Nat) : Decidable (s.HasTable p) := inferInstanceAs (Decidable (_ ∧ _))

-- The file in a slot of a table that is there. A table that is freed keeps what was in it.
def entry (s : State) (p : Nat) (fd : Fin maxFds) : Option Nat :=
  if s.HasTable p then s.slot (p, fd) else none

def exec (s : State) : Act → Option State
  | .alloc t p vfs =>
    match s.stage t with
    | .run .idle =>
      some { (s.setFile s.next (some ⟨1, vfs⟩)).goto t (.opening p s.next) with
        inode := fun i => if vfs = some i then s.inode i + 1 else s.inode i
        next := s.next + 1 }
    | _ => none
  | .fail t =>
    match s.stage t with
    | .opening _ f => some (s.goto t (.putting f .idle))
    | _ => none
  | .install t =>
    match s.stage t with
    | .opening p f =>
      match s.freeFd p with
      | some fd => if s.HasTable p then some ((s.setSlot p fd (some f)).goto t (.run .idle)) else none
      | none => none
    | _ => none
  | .fdGet t p fd =>
    match s.stage t, s.entry p fd with
    | .run .idle, some f => some (s.goto t (.using f))
    | _, _ => none
  | .ret t =>
    match s.stage t with
    | .using _ => some (s.goto t (.run .idle))
    | _ => none
  | .close t p fd =>
    match s.stage t, s.entry p fd with
    | .run .idle, some f => some ((s.setSlot p fd none).goto t (.putting f .idle))
    | _, _ => none
  | .fork q => if s.status q = .absent then some (s.setStatus q .fresh) else none
  | .clone p q fd =>
    match s.entry p fd, s.slot (q, fd) with
    | some f, none =>
      match s.file f with
      | some o =>
        if s.status q = .fresh then
          some ((s.setFile f (some { o with refcount := o.refcount + 1 })).setSlot q fd (some f))
        else none
      | none => none
    | _, _ => none
  | .forked q => if s.status q = .fresh then some (s.setStatus q .alive) else none
  | .forkFailed t q =>
    match s.stage t with
    | .run .idle =>
      if s.status q = .fresh then some ((s.setStatus q .dying).goto t (.run (.sweeping q 0 true))) else none
    | _ => none
  | .exit t p =>
    match s.stage t with
    | .run .idle => if s.HasTable p then some (s.goto t (.run (.sweeping p 0 false))) else none
    | _ => none
  | .reap t p =>
    match s.stage t with
    | .run .idle =>
      if s.status p = .zombie then some ((s.setStatus p .dying).goto t (.run (.sweeping p 0 true))) else none
    | _ => none
  | .sweep t =>
    match s.stage t with
    | .run (.sweeping p fd free) =>
      if h : fd < maxFds then
        match s.entry p ⟨fd, h⟩ with
        | some f => some ((s.setSlot p ⟨fd, h⟩ none).goto t (.putting f (.sweeping p (fd + 1) free)))
        | none => some (s.goto t (.run (.sweeping p (fd + 1) free)))
      else none
    | _ => none
  | .swept t =>
    match s.stage t with
    | .run (.sweeping p fd free) =>
      if fd < maxFds then none
      else if free then some ((s.setStatus p .gone).goto t (.run .idle))
      else if s.status p = .alive then some ((s.setStatus p .zombie).goto t (.run .idle))
      else some (s.goto t (.run .idle))
    | _ => none
  | .put t =>
    match s.stage t with
    | .putting f l =>
      match s.file f with
      | some o => some ((s.filePut f o).goto t (.run l))
      | none => none
    | _ => none

end State

def Step (s : State) (a : Act) (s' : State) : Prop := s.exec a = some s'

def initial : State where
  file := fun _ => none
  next := 0
  inode := fun _ => 0
  slot := fun _ => none
  status := fun p => if p = 0 then .alive else .absent
  stage := fun _ => .run .idle
  destroyed := fun _ => 0

-- The file of which a task has a reference that is in no table.
def Stage.owed : Stage → Option Nat
  | .opening _ f => some f
  | .putting f _ => some f
  | _ => none

-- What is in the slots, also of tables that are freed, and in the tasks' hands.
def slotRefs (s : State) : (Nat × Fin maxFds) ⊕ Nat → Option Nat
  | .inl key => s.slot key
  | .inr t => (s.stage t).owed

def inodeRefs (s : State) (f : Nat) : Option Nat := (s.file f).bind fun o => o.vfs

variable {s s' : State} {a : Act} {t p f : Nat}

def refcount (s : State) (f : Nat) : Nat := (s.file f).elim 0 File.refcount

structure Kept (s : State) : Prop where
  files : Counted (slotRefs s) (refcount s)
  inodes : Counted (inodeRefs s) s.inode
  live : ∀ f o, s.file f = some o → 0 < o.refcount ∧ f < s.next ∧ s.destroyed f = 0
  dead : ∀ f, s.file f = none → s.destroyed f = if f < s.next then 1 else 0

theorem slotRefs_eq {m : (Nat × Fin maxFds) ⊕ Nat → Option Nat} (hslot : ∀ key, s.slot key = m (.inl key))
    (hstage : ∀ u, (s.stage u).owed = m (.inr u)) : slotRefs s = m := by
  funext key
  cases key with
  | inl key => exact hslot key
  | inr u => exact hstage u

-- A step that leaves the files alone, and the references too but for one that changes its place.
theorem Kept.of_refs (h : Kept s) (hfile : s'.file = s.file) (hinode : s'.inode = s.inode)
    (hnext : s'.next = s.next) (hd : s'.destroyed = s.destroyed)
    (hrefs : slotRefs s' = slotRefs s ∨ ∃ k j f, slotRefs s k = some f ∧ slotRefs s j = none ∧
      slotRefs s' = update (update (slotRefs s) k none) j (some f)) : Kept s' := by
  obtain ⟨h1, h2, h3, h4⟩ := h
  refine ⟨?_, ?_, by rwa [hfile, hnext, hd], by rwa [hfile, hnext, hd]⟩
  · unfold refcount
    rw [hfile]
    rcases hrefs with hr | ⟨k, j, f, hk, hj, hr⟩
    · exact hr ▸ h1
    · exact hr ▸ h1.move hk hj
  · unfold inodeRefs
    rw [hfile, hinode]
    exact h2

-- A step that changes one file and one reference to it.
theorem Kept.of_file (h : Kept s) {k : (Nat × Fin maxFds) ⊕ Nat} (f : Nat) {x : Option File} {r : Option Nat}
    (hfile : ∀ j, s'.file j = if j = f then x else s.file j) (hrefs : slotRefs s' = update (slotRefs s) k r)
    (hcount : ∀ v, refcount s' v + (if slotRefs s k = some v then 1 else 0) =
      refcount s v + if r = some v then 1 else 0)
    (hinode : ∀ i, s'.inode i + (if inodeRefs s f = some i then 1 else 0) =
      s.inode i + if x.bind File.vfs = some i then 1 else 0)
    (hlive : ∀ f o, s'.file f = some o → 0 < o.refcount ∧ f < s'.next ∧ s'.destroyed f = 0)
    (hdead : ∀ f, s'.file f = none → s'.destroyed f = if f < s'.next then 1 else 0) : Kept s' := by
  have hin : inodeRefs s' = update (inodeRefs s) f (x.bind File.vfs) := by
    funext j
    by_cases hj : j = f
    · simp [inodeRefs, hfile, hj]
    · simp [inodeRefs, hfile, hj]
  exact ⟨hrefs ▸ h.files.set hcount, hin ▸ h.inodes.set hinode, hlive, hdead⟩

-- `fd_close` takes the reference of a slot.
theorem Kept.taken {fd : Fin maxFds} {k l : Loop} (h : Kept s) (ht : s.stage t = .run k)
    (hf : s.slot (p, fd) = some f) : Kept ((s.setSlot p fd none).goto t (.putting f l)) := by
  refine h.of_refs rfl rfl rfl rfl (.inr ⟨.inl (p, fd), .inr t, f, hf, by rw [slotRefs, ht]; rfl,
    slotRefs_eq (fun key => ?_) fun u => ?_⟩)
  all_goals simp only [slotRefs, State.goto, State.setSlot, update_apply]
  all_goals grind [Stage.owed, slotRefs]

theorem slot_of_entry {fd : Fin maxFds} (h : s.entry p fd = some f) : s.slot (p, fd) = some f := by
  unfold State.entry at h
  split at h
  · exact h
  · cases h

theorem freeFd_none {fd : Fin maxFds} (h : s.freeFd p = some fd) : s.slot (p, fd) = none := by
  have hfound := List.find?_some h
  simp only [Bool.and_eq_true, Option.isNone_iff_eq_none] at hfound
  exact hfound.2

theorem Kept.step (h : Kept s) (hs : Step s a s') : Kept s' := by
  obtain ⟨-, hinodes, hlive, hdead⟩ := id h
  cases a <;> simp only [Step, State.exec] at hs
  case alloc t p vfs =>
    split at hs <;> cases hs
    have hnew : s.file s.next = none := by
      cases ho : s.file s.next with
      | none => rfl
      | some o => exact absurd (hlive _ o ho).2.1 (Nat.lt_irrefl _)
    refine h.of_file (k := .inr t) (r := some s.next) s.next (update_apply _ _ _)
      (slotRefs_eq (fun key => ?_) fun u => ?_) ?_ ?_ ?_ ?_
    all_goals simp only [slotRefs, refcount, inodeRefs, State.goto, State.setFile, update_apply]
    all_goals grind [Stage.owed, slotRefs]
  case clone p q fd =>
    repeat' split at hs
    all_goals cases hs
    next f hf hq _ o ho _ =>
    refine h.of_file (k := .inl (q, fd)) (r := some f) f (update_apply _ _ _)
      (slotRefs_eq (fun key => ?_) fun u => ?_) ?_ ?_ ?_ ?_
    all_goals simp only [slotRefs, refcount, inodeRefs, State.setSlot, State.setFile, update_apply]
    all_goals grind [Stage.owed, slotRefs]
  case put t =>
    repeat' split at hs
    all_goals cases hs
    next f l ht _ o ho =>
    have hpos := fun i => hinodes.pos (k := f) (v := i)
    unfold State.filePut
    split
    all_goals
      refine h.of_file (k := .inr t) (r := none) f (update_apply _ _ _)
        (slotRefs_eq (fun key => ?_) fun u => ?_) ?_ ?_ ?_ ?_
    all_goals simp only [slotRefs, refcount, inodeRefs, State.goto, State.setFile, update_apply] at *
    all_goals grind [Stage.owed, slotRefs]
  case install t =>
    repeat' split at hs
    all_goals cases hs
    next p f ht _ fd hfd _ =>
    refine h.of_refs rfl rfl rfl rfl (.inr ⟨.inr t, .inl (p, fd), f, by rw [slotRefs, ht]; rfl, freeFd_none hfd,
      slotRefs_eq (fun key => ?_) fun u => ?_⟩)
    all_goals simp only [slotRefs, State.goto, State.setSlot, update_apply]
    all_goals grind [Stage.owed, slotRefs]
  case close t p fd =>
    split at hs <;> cases hs
    next f ht hf =>
    exact h.taken ht (slot_of_entry hf)
  case sweep t =>
    repeat' split at hs
    all_goals cases hs
    · next p fd free ht hfd _ f hf => exact h.taken ht (slot_of_entry hf)
    · refine h.of_refs rfl rfl rfl rfl (.inl (slotRefs_eq (fun _ => rfl) fun u => ?_))
      simp only [slotRefs, State.goto, update_apply]
      grind [Stage.owed]
  all_goals
    repeat' split at hs
    all_goals cases hs
    all_goals refine h.of_refs rfl rfl rfl rfl (.inl (slotRefs_eq (fun _ => rfl) fun u => ?_))
    all_goals simp only [slotRefs, State.goto, State.setStatus, update_apply]
    all_goals grind [Stage.owed]

theorem kept_initial : Kept initial where
  files := (slotRefs_eq (fun _ => rfl) fun _ => rfl : slotRefs initial = fun _ => none) ▸ counted_empty
  inodes := counted_empty
  live := nofun
  dead _ _ := rfl

theorem kept_run {l : List Act} (h : Run Step initial l s) : Kept s :=
  h.invariant kept_initial fun _ _ _ hk hs => hk.step hs

section lifetime

-- The last descriptor of an open file does not go while a call uses the file.
def Patient (s : State) : Act → Prop
  | .close _ p fd => Spared p fd
  | .sweep t => ∀ p fd free (h : fd < maxFds), s.stage t = .run (.sweeping p fd free) → Spared p ⟨fd, h⟩
  | _ => True
where
  Spared (p : Nat) (fd : Fin maxFds) : Prop := ∀ f, s.entry p fd = some f → (∃ t, s.stage t = .using f) →
    ∃ p' fd', (p', fd') ≠ (p, fd) ∧ s.entry p' fd' = some f

def PatientStep (s : State) (a : Act) (s' : State) : Prop := Patient s a ∧ Step s a s'

-- A call uses a file that is allocated and whose inode has a reference.
def Alive (s : State) : Prop :=
  ∀ t f, s.stage t = .using f → ∃ o, s.file f = some o ∧ ∀ i, o.vfs = some i → 0 < s.inode i

def Slotted (s : State) : Prop := ∀ t f, s.stage t = .using f → ∃ key, s.slot key = some f

-- Only an `fd_get` adds a call, and only a close empties a slot.
theorem Slotted.mono (h : Slotted s) (hstage : ∀ u g, s'.stage u = .using g → s.stage u = .using g)
    (hslot : ∀ key g, s.slot key = some g → s'.slot key = some g) : Slotted s' := by
  intro u g hu
  obtain ⟨key, hkey⟩ := h u g (hstage u g hu)
  exact ⟨key, hslot key g hkey⟩

theorem Slotted.taken {fd : Fin maxFds} {l : Loop} (h : Slotted s) (hp : Patient.Spared s p fd)
    (hf : s.entry p fd = some f) : Slotted ((s.setSlot p fd none).goto t (.putting f l)) := by
  intro u g hu
  have hg : s.stage u = .using g := by
    simp only [State.goto, State.setSlot, update_apply] at hu
    split_ifs at hu
    exact hu
  simp only [State.goto, State.setSlot, update_apply]
  by_cases hgf : g = f
  · obtain ⟨p', fd', hne, hentry⟩ := hp f hf ⟨u, hgf ▸ hg⟩
    exact ⟨(p', fd'), by rw [if_neg hne, slot_of_entry hentry, hgf]⟩
  · obtain ⟨key, hkey⟩ := h u g hg
    refine ⟨key, ?_⟩
    rw [if_neg, hkey]
    rintro rfl
    exact hgf (Option.some_injective _ (hkey.symm.trans (slot_of_entry hf)))

theorem Slotted.step (h : Slotted s) (hp : Patient s a) (hs : Step s a s') : Slotted s' := by
  cases a <;> simp only [Step, State.exec, State.filePut] at hs
  case close t p fd =>
    split at hs <;> cases hs
    next f ht hf => exact h.taken hp hf
  case sweep t =>
    repeat' split at hs
    all_goals cases hs
    · next p fd free ht hfd _ f hf => exact h.taken (hp p fd free hfd ht) hf
    · refine h.mono (fun u g hu => ?_) fun _ _ hk => hk
      simp only [State.goto, update_apply] at hu
      grind
  case fdGet t p fd =>
    split at hs <;> cases hs
    next f ht hf =>
    intro u g hu
    simp only [State.goto, update_apply] at hu
    split_ifs at hu
    · cases hu
      exact ⟨(p, fd), slot_of_entry hf⟩
    · exact h u g hu
  all_goals
    repeat' split at hs
    all_goals cases hs
    all_goals refine h.mono (fun u g hu => ?_) fun key g hk => ?_
    all_goals simp only [State.goto, State.setSlot, State.setFile, State.setStatus, update_apply] at *
    all_goals grind [freeFd_none]

theorem Kept.alive (hk : Kept s) (h : Slotted s) : Alive s := by
  intro t f ht
  obtain ⟨key, hkey⟩ := h t f ht
  have hpos := hk.files.pos (show slotRefs s (.inl key) = some f from hkey)
  unfold refcount at hpos
  cases ho : s.file f with
  | none => simp [ho] at hpos
  | some o =>
    refine ⟨o, rfl, fun i hi => hk.inodes.pos (k := f) ?_⟩
    rw [inodeRefs, ho]
    exact hi

theorem files_alive {l : List Act} (h : Run PatientStep initial l s) : Alive s := by
  have hs : Slotted s := h.invariant (by rintro t f ⟨⟩) fun _ _ _ hi he => hi.step he.1 he.2
  exact (kept_run (h.mono fun _ _ _ _ he => he.2)).alive hs

-- A thread reads while the file is closed in another process that shares it.
def sharingActs : List Act :=
  [.alloc 1 0 (some 5), .install 1, .fork 1, .clone 0 1 ⟨3, by decide⟩, .forked 1, .fdGet 7 0 ⟨3, by decide⟩]

theorem files_alive_shared : ∃ s,
    Run PatientStep initial (sharingActs ++ [.close 8 1 ⟨3, by decide⟩] ++ [.put 8]) s ∧
      s.stage 7 = .using 0 ∧ Alive s := by
  obtain ⟨s3, s4, s, hs3, hs4, hs, hslot, hslot', hstage⟩ : ∃ s3 s4 s,
      sharingActs.foldlM State.exec initial = some s3 ∧ s3.exec (.close 8 1 ⟨3, by decide⟩) = some s4 ∧
      s4.exec (.put 8) = some s ∧ s3.entry 1 ⟨3, by decide⟩ = some 0 ∧ s3.entry 0 ⟨3, by decide⟩ = some 0 ∧
      s.stage 7 = .using 0 := ⟨_, _, _, rfl, rfl, rfl, rfl, rfl, rfl⟩
  have hrun3 : Run PatientStep initial sharingActs s3 := by
    refine (Run.of_foldlM hs3).mono fun s e s' hmem he => ⟨?_, he⟩
    simp only [sharingActs, List.mem_cons, List.not_mem_nil, or_false] at hmem
    rcases hmem with rfl | rfl | rfl | rfl | rfl | rfl <;> trivial
  have hpatient : Patient s3 (.close 8 1 ⟨3, by decide⟩) := by
    intro f hf _
    rw [hslot] at hf
    cases hf
    exact ⟨0, ⟨3, by decide⟩, by decide, hslot'⟩
  have hrun : Run PatientStep initial (sharingActs ++ [.close 8 1 ⟨3, by decide⟩] ++ [.put 8]) s :=
    (hrun3.snoc ⟨hpatient, hs4⟩).snoc ⟨trivial, hs⟩
  exact ⟨s, hrun, hstage, files_alive hrun⟩

-- A thread reads while another one closes the descriptor.
def hastyActs : List Act :=
  [.alloc 1 0 (some 5), .install 1, .fdGet 7 0 ⟨3, by decide⟩, .close 8 0 ⟨3, by decide⟩, .put 8]

theorem files_destroyed : ∃ s, Run Step initial hastyActs s ∧ s.stage 7 = .using 0 ∧
    s.file 0 = none ∧ s.inode 5 = 0 ∧ ¬ Alive s := by
  obtain ⟨s, hs, hstage, hfile, hinode⟩ : ∃ s, hastyActs.foldlM State.exec initial = some s ∧
      s.stage 7 = .using 0 ∧ s.file 0 = none ∧ s.inode 5 = 0 := ⟨_, rfl, rfl, rfl, rfl⟩
  refine ⟨s, Run.of_foldlM hs, hstage, hfile, hinode, fun h => ?_⟩
  obtain ⟨o, ho, -⟩ := h 7 0 hstage
  rw [hfile] at ho
  cases ho

end lifetime

section counts

-- No file is put into the table of a process that is being freed.
def Careful (s : State) : Act → Prop
  | .install t => ∀ p f, s.stage t = .opening p f → s.status p ≠ .dying
  | _ => True

def CarefulStep (s : State) (a : Act) (s' : State) : Prop := Careful s a ∧ Step s a s'

-- What is in the tables and in the tasks' hands.
def refs (s : State) : (Nat × Fin maxFds) ⊕ Nat → Option Nat
  | .inl key => s.entry key.1 key.2
  | .inr t => (s.stage t).owed

structure Exact (s : State) : Prop where
  counted : ∀ f o, s.file f = some o → o.refcount = count (refs s) f ∧ 0 < o.refcount
  destroyed : ∀ f, s.destroyed f = if f < s.next ∧ count (refs s) f = 0 then 1 else 0
  released : ∀ i, s.inode i = count (inodeRefs s) i

-- How far a task is with the table it frees.
def Loop.frees : Loop → Option (Nat × Nat)
  | .sweeping p fd free => if free then some (p, fd) else none
  | .idle => none

def Stage.frees : Stage → Option (Nat × Nat)
  | .run l => l.frees
  | .putting _ l => l.frees
  | _ => none

-- A table that is being freed is empty as far as the loop has come, and one that is not there is empty.
structure Emptied (s : State) : Prop where
  behind : ∀ t p fd, (s.stage t).frees = some (p, fd) →
    (s.status p = .dying ∨ s.status p = .gone) ∧ ∀ k, s.slot (p, k) ≠ none → fd ≤ k.val
  absent : ∀ p k, s.status p = .absent ∨ s.status p = .gone → s.slot (p, k) = none

theorem Emptied.step (h : Emptied s) (hc : Careful s a) (hs : Step s a s') : Emptied s' := by
  obtain ⟨h1, h2⟩ := h
  cases a <;> simp only [Step, State.exec, State.filePut] at hs
  case' sweep t | put t => have hself := h1 t
  case' swept t =>
    have hself : ∀ p fd, s.stage t = .run (.sweeping p fd true) → ¬ fd < maxFds →
        ∀ k, s.slot (p, k) = none := by
      intro p fd ht hfd k
      by_contra hk
      exact hfd (Nat.lt_of_le_of_lt ((h1 t p fd (by rw [ht]; rfl)).2 k hk) k.isLt)
  all_goals repeat' split at hs
  all_goals cases hs
  all_goals constructor
  all_goals simp only [State.goto, State.setSlot, State.setFile, State.setStatus, State.entry,
    update_apply, Careful, State.HasTable, Prod.mk.injEq, Fin.ext_iff] at *
  all_goals grind [Stage.frees, Loop.frees]

theorem Emptied.refs_eq (h : Emptied s) : refs s = slotRefs s := by
  funext key
  cases key with
  | inl key =>
    change (if s.HasTable key.1 then s.slot (key.1, key.2) else none) = s.slot key
    split_ifs with ht
    · rfl
    · refine (h.absent key.1 key.2 ?_).symm
      by_contra hc
      exact ht (not_or.1 hc)
  | inr u => rfl

theorem Kept.exact (h : Kept s) (he : Emptied s) : Exact s where
  counted f o ho := by
    rw [he.refs_eq]
    have hc := h.files.eq f
    rw [refcount, ho] at hc
    exact ⟨hc, (h.live f o ho).1⟩
  destroyed f := by
    rw [he.refs_eq, ← h.files.eq f, refcount]
    cases ho : s.file f with
    | none => simpa using h.dead f ho
    | some o =>
      obtain ⟨hpos, -, hd⟩ := h.live f o ho
      rw [hd, if_neg]
      exact fun hc => Nat.ne_of_gt hpos hc.2
  released := h.inodes.eq

theorem emptied_initial : Emptied initial := ⟨nofun, fun _ _ _ => rfl⟩

-- In every run in which no file is put into a table that is being freed the counts are those of the slots,
-- openers and closers, a file goes once and with its last reference, and its inode reference goes with it.
theorem refcounts_exact {l : List Act} (h : Run CarefulStep initial l s) : Exact s :=
  (kept_run (h.mono fun _ _ _ _ hs => hs.2)).exact
    (h.invariant emptied_initial fun _ _ _ he hs => he.step hs.1 hs.2)

-- A fork shares an open file and fails.
def forkActs : List Act :=
  [.fork 1, .clone 0 1 ⟨3, by decide⟩, .forkFailed 1 1, .sweep 1, .sweep 1, .sweep 1, .sweep 1]

theorem refcounts_exact_fork : ∃ s, Run CarefulStep initial (.alloc 1 0 (some 5) :: .install 1 :: forkActs) s ∧
    s.stage 1 = .putting 0 (.sweeping 1 4 true) ∧ count (refs s) 0 = 2 := by
  obtain ⟨s1, s2, s, h1, h2, hs, hp, hopen, hf, ht⟩ : ∃ s1 s2 s,
      initial.exec (.alloc 1 0 (some 5)) = some s1 ∧ s1.exec (.install 1) = some s2 ∧
      forkActs.foldlM State.exec s2 = some s ∧ s1.status 0 = .alive ∧ s1.stage 1 = .opening 0 0 ∧
      s.file 0 = some ⟨2, some 5⟩ ∧ s.stage 1 = .putting 0 (.sweeping 1 4 true) :=
    ⟨_, _, _, rfl, rfl, rfl, rfl, rfl, rfl, rfl⟩
  have hrest : Run CarefulStep s2 forkActs s := by
    refine (Run.of_foldlM hs).mono fun u a u' ha hu => ⟨?_, hu⟩
    simp only [forkActs, List.mem_cons, List.not_mem_nil, or_false] at ha
    rcases ha with rfl | rfl | rfl | rfl | rfl | rfl | rfl <;> trivial
  have hcareful : Careful s1 (.install 1) := by
    intro p f hpf
    cases hopen.symm.trans hpf
    rw [hp]
    decide
  have hrun : Run CarefulStep initial (.alloc 1 0 (some 5) :: .install 1 :: forkActs) s :=
    .cons ⟨trivial, h1⟩ (.cons ⟨hcareful, h2⟩ hrest)
  exact ⟨s, hrun, ht, ((refcounts_exact hrun).counted 0 _ hf).1.symm⟩

-- One thread of a process is in `sys_open` while another one is killed. The parent reaps the process, and
-- the file comes into a slot that the loop has left.
def reapActs : List Act :=
  [.fork 1, .forked 1, .alloc 1 1 (some 5), .exit 2 1] ++ List.replicate 32 (.sweep 2) ++
    [.swept 2, .reap 0 1] ++ List.replicate 4 (.sweep 0) ++ [.install 1] ++ List.replicate 28 (.sweep 0) ++
    [.swept 0]

theorem refcounts_lost : ∃ s o, Run Step initial reapActs s ∧ s.file 0 = some o ∧ o.refcount = 1 ∧
    count (refs s) 0 = 0 := by
  obtain ⟨s, hs, hf, hslot, hstage⟩ : ∃ s, reapActs.foldlM State.exec initial = some s ∧
      s.file 0 = some ⟨1, some 5⟩ ∧ (∀ p fd, s.entry p fd = none) ∧ ∀ u, (s.stage u).owed = none :=
    ⟨_, rfl, rfl, fun | 0, _ => rfl | 1, _ => rfl | _ + 2, _ => rfl,
      fun | 0 => rfl | 1 => rfl | 2 => rfl | _ + 3 => rfl⟩
  refine ⟨s, _, Run.of_foldlM hs, hf, rfl, Nat.eq_zero_of_not_pos fun hpos => ?_⟩
  obtain ⟨key, hkey⟩ := exists_of_count_pos hpos
  cases key with
  | inl key => cases (hslot key.1 key.2).symm.trans hkey
  | inr u => cases (hstage u).symm.trans hkey

end counts

end Jnu.User.Files
