import Jnu.Lib.Refs
import Jnu.Lib.Trace

namespace Jnu.Minix.Coherence

open Lib.Trace Lib.Refs
open Function

variable {τ ρ : Type} {ok dirty : Bool}

-- An inode's size and zones, and the number of updates they come from.
structure Copy (ρ : Type) where
  raw : ρ
  stamp : Nat
  deriving DecidableEq

-- The inode in the cache, with its struct minix_inode_info.
structure Cached (ρ : Type) where
  copy : Copy ρ
  dirty : Bool
  refcount : Nat

-- In no operation, between the read of the raw inode and vfs_icache_canonicalize, or between vfs_iput and
-- the write-back.
inductive Pc (ρ : Type)
  | idle
  | found (ino : Nat) (copy : Copy ρ)
  | closing (ino : Nat) (copy : Copy ρ) (dirty : Bool)

-- The inode table as the buffer cache shows it, the inode cache and the tasks' references. No function reads
-- `latest`, the file as updated, and no stamp.
structure State (τ ρ : Type) where
  disk : Nat → Copy ρ
  icache : Nat → Option (Cached ρ)
  pc : τ → Pc ρ
  held : τ → Nat → Nat
  latest : Nat → Copy ρ

inductive Act (ρ : Type)
  | lookup (ino : Nat)
  | canonicalize
  | update (ino : Nat) (raw : ρ)
  | fsync (ino : Nat) (ok : Bool)
  | iput (ino : Nat)
  | close (ok : Bool)
  deriving DecidableEq

namespace State

variable [DecidableEq τ] (s : State τ ρ) (t : τ)

def goto (p : Pc ρ) : State τ ρ := { s with pc := Function.update s.pc t p }

def setCached (ino : Nat) (o : Option (Cached ρ)) : State τ ρ :=
  { s with icache := Function.update s.icache ino o }

def setHeld (ino n : Nat) : State τ ρ :=
  { s with held := Function.update s.held t (Function.update (s.held t) ino n) }

def writeInode (ino : Nat) (copy : Copy ρ) : State τ ρ :=
  { s with disk := Function.update s.disk ino copy }

-- vfs_icache_canonicalize; the copy that is not needed is clean and goes.
def canonicalize (ino : Nat) (copy : Copy ρ) : State τ ρ :=
  match s.icache ino with
  | some o =>
    ((s.setCached ino (some { o with refcount := o.refcount + 1 })).setHeld t ino
      (s.held t ino + 1)).goto t .idle
  | none =>
    ((s.setCached ino (some ⟨copy, false, 1⟩)).setHeld t ino (s.held t ino + 1)).goto t .idle

-- minix_write and minix_truncate, as far as they change the inode.
def update (ino : Nat) (o : Cached ρ) (raw : ρ) : State τ ρ :=
  { s.setCached ino (some { o with copy := ⟨raw, (s.latest ino).stamp + 1⟩, dirty := true }) with
    latest := Function.update s.latest ino ⟨raw, (s.latest ino).stamp + 1⟩ }

def fsync (ino : Nat) (o : Cached ρ) (ok : Bool) : State τ ρ :=
  if o.dirty && ok then (s.writeInode ino o.copy).setCached ino (some { o with dirty := false })
  else s

def iput (ino : Nat) (o : Cached ρ) : State τ ρ :=
  if o.refcount = 1 then
    ((s.setCached ino none).setHeld t ino (s.held t ino - 1)).goto t (.closing ino o.copy o.dirty)
  else
    (s.setCached ino (some { o with refcount := o.refcount - 1 })).setHeld t ino
      (s.held t ino - 1)

-- minix_close; an error of minix_write_inode is ignored.
def close (ino : Nat) (copy : Copy ρ) (dirty ok : Bool) : State τ ρ :=
  if dirty && ok then (s.writeInode ino copy).goto t .idle else s.goto t .idle

-- The calls on an open file are made with a reference to it.
def exec : Act ρ → Option (State τ ρ)
  | .lookup ino =>
    match s.pc t with
    | .idle => some (s.goto t (.found ino (s.disk ino)))
    | _ => none
  | .canonicalize =>
    match s.pc t with
    | .found ino copy => some (s.canonicalize t ino copy)
    | _ => none
  | .update ino raw =>
    match s.pc t, s.icache ino with
    | .idle, some o => if 0 < s.held t ino then some (s.update ino o raw) else none
    | _, _ => none
  | .fsync ino ok =>
    match s.pc t, s.icache ino with
    | .idle, some o => if 0 < s.held t ino then some (s.fsync ino o ok) else none
    | _, _ => none
  | .iput ino =>
    match s.pc t, s.icache ino with
    | .idle, some o => if 0 < s.held t ino then some (s.iput t ino o) else none
    | _, _ => none
  | .close ok =>
    match s.pc t with
    | .closing ino copy dirty => some (s.close t ino copy dirty ok)
    | _ => none

end State

section Steps

variable [DecidableEq τ] {s s' : State τ ρ}

def Step (s : State τ ρ) (e : τ × Act ρ) (s' : State τ ρ) : Prop := s.exec e.1 e.2 = some s'

inductive Moved (s : State τ ρ) (t : τ) : Act ρ → State τ ρ → Prop
  | lookup {ino} (hp : s.pc t = .idle) :
      Moved s t (.lookup ino) (s.goto t (.found ino (s.disk ino)))
  | canonicalize {ino copy} (hp : s.pc t = .found ino copy) :
      Moved s t .canonicalize (s.canonicalize t ino copy)
  | update {ino o raw} (hp : s.pc t = .idle) (ho : s.icache ino = some o)
      (hh : 0 < s.held t ino) : Moved s t (.update ino raw) (s.update ino o raw)
  | fsync {ino o ok} (hp : s.pc t = .idle) (ho : s.icache ino = some o)
      (hh : 0 < s.held t ino) : Moved s t (.fsync ino ok) (s.fsync ino o ok)
  | iput {ino o} (hp : s.pc t = .idle) (ho : s.icache ino = some o)
      (hh : 0 < s.held t ino) : Moved s t (.iput ino) (s.iput t ino o)
  | close {ino copy dirty ok} (hp : s.pc t = .closing ino copy dirty) :
      Moved s t (.close ok) (s.close t ino copy dirty ok)

theorem Step.moved {t : τ} {a : Act ρ} (h : Step s (t, a) s') : Moved s t a s' := by
  cases a <;> simp only [Step, State.exec] at h
  all_goals repeat' split at h
  all_goals cases h
  all_goals constructor <;> assumption

end Steps

def initial (disk : Nat → ρ) : State τ ρ where
  disk := fun ino => ⟨disk ino, 0⟩
  icache := fun _ => none
  pc := fun _ => .idle
  held := fun _ _ => 0
  latest := fun ino => ⟨disk ino, 0⟩

-- A write-back of an inode is under way.
def State.Closing (s : State τ ρ) (ino : Nat) : Prop := ∃ t copy, s.pc t = .closing ino copy true

-- A copy of an inode has been read and is not in the cache yet.
def State.Found (s : State τ ρ) (ino : Nat) : Prop := ∃ t copy, s.pc t = .found ino copy

-- No raw inode is read during its write-back, none leaves the cache while a copy is not folded in, and no
-- write-back fails.
def Clear (s : State τ ρ) (t : τ) : Act ρ → Prop
  | .lookup ino => ¬ s.Closing ino
  | .iput ino => ∀ o, s.icache ino = some o → o.refcount = 1 → ¬ s.Found ino
  | .close ok => ∀ ino copy, s.pc t = .closing ino copy true → ok = true
  | _ => True

structure Good [Fintype τ] (s : State τ ρ) : Prop where
  refs : ∀ ino, ∑ t, s.held t ino = ((s.icache ino).map Cached.refcount).getD 0
  positive : ∀ ino o, s.icache ino = some o → 0 < o.refcount
  cached : ∀ ino o, s.icache ino = some o →
    o.copy = s.latest ino ∧ (o.dirty = false → s.disk ino = s.latest ino) ∧ ¬ s.Closing ino
  closing : ∀ ino t copy, s.pc t = .closing ino copy true →
    copy = s.latest ino ∧ ¬ s.Found ino ∧ ∀ u copy', s.pc u = .closing ino copy' true → u = t
  away : ∀ ino, s.icache ino = none → ¬ s.Closing ino → s.disk ino = s.latest ino
  found : ∀ ino t copy, s.pc t = .found ino copy → s.icache ino = none →
    copy = s.latest ino
  stamp : ∀ ino, (s.disk ino).stamp ≤ (s.latest ino).stamp

section Proofs

variable [Fintype τ] {s s' : State τ ρ} {t : τ} {a : Act ρ} {ino n m : Nat} {copy : Copy ρ}
variable {p : Pc ρ} {o o' : Cached ρ}

theorem good_initial (disk : Nat → ρ) : Good (initial disk : State τ ρ) where
  refs := fun _ => Finset.sum_eq_zero fun _ _ => rfl
  positive := nofun
  cached := nofun
  closing := nofun
  away := fun _ _ _ => rfl
  found := nofun
  stamp := fun _ => Nat.le_refl 0

structure GoodAt (s : State τ ρ) (ino : Nat) : Prop where
  refs : ∑ t, s.held t ino = ((s.icache ino).map Cached.refcount).getD 0
  positive : ∀ o, s.icache ino = some o → 0 < o.refcount
  cached : ∀ o, s.icache ino = some o →
    o.copy = s.latest ino ∧ (o.dirty = false → s.disk ino = s.latest ino) ∧ ¬ s.Closing ino
  closing : ∀ t copy, s.pc t = .closing ino copy true →
    copy = s.latest ino ∧ ¬ s.Found ino ∧ ∀ u copy', s.pc u = .closing ino copy' true → u = t
  away : s.icache ino = none → ¬ s.Closing ino → s.disk ino = s.latest ino
  found : ∀ t copy, s.pc t = .found ino copy → s.icache ino = none → copy = s.latest ino
  stamp : (s.disk ino).stamp ≤ (s.latest ino).stamp

theorem good_iff : Good s ↔ ∀ ino, GoodAt s ino :=
  ⟨fun h ino => ⟨h.refs ino, h.positive ino, h.cached ino, h.closing ino, h.away ino, h.found ino, h.stamp ino⟩,
    fun h => ⟨fun j => (h j).refs, fun j => (h j).positive, fun j => (h j).cached, fun j => (h j).closing,
      fun j => (h j).away, fun j => (h j).found, fun j => (h j).stamp⟩⟩

-- A task is in the lookup or in the write-back of an inode.
def Pc.About (ino : Nat) : Pc ρ → Prop
  | .idle => False
  | .found j _ => j = ino
  | .closing j _ dirty => j = ino ∧ dirty = true

theorem GoodAt.frame (h : GoodAt s ino) (hheld : ∑ t, s'.held t ino = ∑ t, s.held t ino)
    (hcache : s'.icache ino = s.icache ino) (hdisk : s'.disk ino = s.disk ino)
    (hlatest : s'.latest ino = s.latest ino) (hpc : ∀ u p, p.About ino → (s'.pc u = p ↔ s.pc u = p)) :
    GoodAt s' ino := by
  have hfound : ∀ u copy, s'.pc u = .found ino copy ↔ s.pc u = .found ino copy := fun u copy => hpc u _ rfl
  have hclosing : ∀ u copy, s'.pc u = .closing ino copy true ↔ s.pc u = .closing ino copy true :=
    fun u copy => hpc u _ ⟨rfl, rfl⟩
  have hF : s'.Found ino ↔ s.Found ino := by simp only [State.Found, hfound]
  have hC : s'.Closing ino ↔ s.Closing ino := by simp only [State.Closing, hclosing]
  constructor
  all_goals simp only [hheld, hcache, hdisk, hlatest, hfound, hclosing, hF, hC]
  exacts [h.refs, h.positive, h.cached, h.closing, h.away, h.found, h.stamp]

theorem Good.of_at (h : Good s) (hheld : ∀ j, j ≠ ino → ∑ u, s'.held u j = ∑ u, s.held u j)
    (hcache : ∀ j, j ≠ ino → s'.icache j = s.icache j) (hdisk : ∀ j, j ≠ ino → s'.disk j = s.disk j)
    (hlatest : ∀ j, j ≠ ino → s'.latest j = s.latest j)
    (hpc : ∀ j, j ≠ ino → ∀ u p, p.About j → (s'.pc u = p ↔ s.pc u = p))
    (hat : GoodAt s ino → GoodAt s' ino) : Good s' := by
  rw [good_iff] at h ⊢
  intro j
  by_cases hj : j = ino
  · exact hj ▸ hat (h ino)
  · exact (h j).frame (hheld j hj) (hcache j hj) (hdisk j hj) (hlatest j hj) (hpc j hj)

theorem Good.of_cached (h : Good s) (ho : s.icache ino = some o)
    (hcache : ∀ j, s'.icache j = if j = ino then some o' else s.icache j) (hpc : s'.pc = s.pc)
    (hheld : ∀ j, j ≠ ino → ∑ u, s'.held u j = ∑ u, s.held u j)
    (hdisk : ∀ j, j ≠ ino → s'.disk j = s.disk j) (hlatest : ∀ j, j ≠ ino → s'.latest j = s.latest j)
    (hrefs : ∑ u, s'.held u ino = o'.refcount) (hpos : 0 < o'.refcount) (hcopy : o'.copy = s'.latest ino)
    (hclean : o'.dirty = false → s'.disk ino = s'.latest ino)
    (hstamp : (s'.disk ino).stamp ≤ (s'.latest ino).stamp) : Good s' := by
  refine h.of_at hheld (fun j hj => (hcache j).trans (if_neg hj)) hdisk hlatest
    (fun _ _ _ _ _ => by rw [hpc]) fun ⟨h1, h2, h3, h4, h5, h6, h7⟩ => ⟨?_, ?_, ?_, ?_, ?_, ?_, hstamp⟩
  all_goals simp only [State.Closing, State.Found, hpc, hcache, if_true] at *
  all_goals grind

theorem Good.update {raw : ρ} (h : Good s) (ho : s.icache ino = some o) :
    Good (s.update ino o raw) := by
  have hlatest := update_apply s.latest ino ⟨raw, (s.latest ino).stamp + 1⟩
  have := h.stamp ino
  have := h.refs ino
  refine h.of_cached ho (update_apply _ _ _) rfl (fun _ _ => rfl) (fun _ _ => rfl)
    (fun j hj => update_of_ne hj ..) ?_ (h.positive ino o ho) ?_ nofun ?_
  all_goals simp only [State.update, State.setCached, hlatest]
  all_goals grind

theorem Good.fsync (h : Good s) (ho : s.icache ino = some o) :
    Good (s.fsync ino o ok) := by
  have hdisk := update_apply s.disk ino o.copy
  have hcopy := (h.cached ino o ho).1
  have := h.refs ino
  unfold State.fsync
  split_ifs with hd
  · refine h.of_cached ho (update_apply _ _ _) rfl (fun _ _ => rfl) (fun j hj => update_of_ne hj ..)
      (fun _ _ => rfl) ?_ (h.positive ino o ho) hcopy (fun _ => ?_) ?_
    all_goals simp only [State.writeInode, State.setCached, hdisk]
    all_goals grind
  · exact h

variable [DecidableEq τ]

omit [Fintype τ] in
theorem pc_goto (hs : ¬ (s.pc t).About ino) (hp : ¬ p.About ino) (u : τ) (q : Pc ρ) (hq : q.About ino) :
    (s.goto t p).pc u = q ↔ s.pc u = q := by
  have hpc : (s.goto t p).pc u = if u = t then p else s.pc u := update_apply _ _ _ _
  grind

theorem sum_setHeld (s : State τ ρ) (t : τ) (ino n : Nat) :
    ∑ u, (s.setHeld t ino n).held u ino + s.held t ino = ∑ u, s.held u ino + n := by
  have h := sum_shift (f := fun u => s.held u ino) (g := fun u => (s.setHeld t ino n).held u ino)
    (Finset.mem_univ t) fun u _ hu => by simp only [State.setHeld, update_of_ne hu]
  have hself : (s.setHeld t ino n).held t ino = n := by simp only [State.setHeld, update_self]
  rw [h, hself]

theorem sum_setHeld_of_ne (n j : Nat) (hj : j ≠ ino) :
    ∑ u, (s.setHeld t ino n).held u j = ∑ u, s.held u j := by
  refine Finset.sum_congr rfl fun u _ => ?_
  by_cases hu : u = t
  · subst hu
    simp only [State.setHeld, update_self, update_of_ne hj]
  · simp only [State.setHeld, update_of_ne hu]

theorem Good.lookup (h : Good s) (hp : s.pc t = .idle) (hc : ¬ s.Closing ino) :
    Good (s.goto t (.found ino (s.disk ino))) := by
  have hpc := update_apply s.pc t (.found ino (s.disk ino))
  refine h.of_at (fun _ _ => rfl) (fun _ _ => rfl) (fun _ _ => rfl) (fun _ _ => rfl)
    (fun j hj => pc_goto (by simp [hp, Pc.About]) (Ne.symm hj))
    fun ⟨h1, h2, h3, h4, h5, h6, h7⟩ => ⟨h1, h2, ?_, ?_, ?_, ?_, h7⟩
  all_goals simp only [State.Closing, State.Found, State.goto, hpc] at *
  all_goals grind

theorem Good.of_count (h : Good s) (ho : s.icache ino = some o)
    (hn : 0 < n) (hm : m + o.refcount = s.held t ino + n) :
    Good ((s.setCached ino (some { o with refcount := n })).setHeld t ino m) := by
  obtain ⟨hcopy, hclean, -⟩ := h.cached ino o ho
  have hsum := sum_setHeld s t ino m
  have hrefs := h.refs ino
  rw [ho] at hrefs
  refine h.of_cached ho (update_apply _ _ _) rfl (sum_setHeld_of_ne m) (fun _ _ => rfl) (fun _ _ => rfl)
    ?_ hn hcopy hclean (h.stamp ino)
  change ∑ u, (s.setHeld t ino m).held u ino = n
  change _ = o.refcount at hrefs
  omega

theorem Good.goto_idle (h : Good s) (hp : ∀ ino copy, s.pc t ≠ .closing ino copy true) :
    Good (s.goto t .idle) := by
  have hpc := update_apply s.pc t .idle
  rw [good_iff] at h ⊢
  intro j
  obtain ⟨h1, h2, h3, h4, h5, h6, h7⟩ := h j
  refine ⟨h1, h2, ?_, ?_, ?_, ?_, h7⟩
  all_goals simp only [State.Closing, State.Found, State.goto, hpc] at *
  all_goals grind

theorem Good.insert (h : Good s) (hp : s.pc t = .found ino copy) (ho : s.icache ino = none) :
    Good ((s.setCached ino (some ⟨copy, false, 1⟩)).setHeld t ino (s.held t ino + 1)) := by
  have hcache := update_apply s.icache ino (some ⟨copy, false, 1⟩)
  have hsum := sum_setHeld s t ino (s.held t ino + 1)
  refine h.of_at (sum_setHeld_of_ne _) (fun j hj => update_of_ne hj ..) (fun _ _ => rfl) (fun _ _ => rfl)
    (fun _ _ _ _ _ => Iff.rfl) fun ⟨h1, h2, h3, h4, h5, h6, h7⟩ => ⟨?_, ?_, ?_, h4, ?_, ?_, h7⟩
  all_goals simp only [State.Closing, State.Found, State.setCached, State.setHeld, hcache, if_true] at *
  all_goals grind

theorem Good.canonicalize (h : Good s) (hp : s.pc t = .found ino copy) :
    Good (s.canonicalize t ino copy) := by
  unfold State.canonicalize
  have hnot : ∀ j c, s.pc t ≠ .closing j c true := fun j c => by rw [hp]; exact nofun
  cases ho : s.icache ino with
  | some o => exact (h.of_count ho (Nat.succ_pos _) (by omega)).goto_idle hnot
  | none => exact (h.insert hp ho).goto_idle hnot

theorem Good.unlink (h : Good s) (hp : s.pc t = .idle) (ho : s.icache ino = some o)
    (hh : 0 < s.held t ino) (hr : o.refcount = 1) (hfree : ¬ s.Found ino) :
    Good (((s.setCached ino none).setHeld t ino (s.held t ino - 1)).goto t
      (.closing ino o.copy o.dirty)) := by
  have hcache := update_apply s.icache ino none
  have hpc := update_apply s.pc t (.closing ino o.copy o.dirty)
  have hsum := sum_setHeld s t ino (s.held t ino - 1)
  refine h.of_at (sum_setHeld_of_ne _) (fun j hj => update_of_ne hj ..) (fun _ _ => rfl) (fun _ _ => rfl)
    (fun j hj => pc_goto (by simp [hp, Pc.About, State.setHeld, State.setCached]) fun hq => hj hq.1.symm)
    fun ⟨h1, h2, h3, h4, h5, h6, h7⟩ => ⟨?_, ?_, ?_, ?_, ?_, ?_, h7⟩
  case refine_5 =>
    -- A clean inode is on disk, and the write-back of a dirty one is this task's.
    intro _ hcl
    refine (h3 o ho).2.1 (Bool.eq_false_iff.2 fun hd => hcl ⟨t, o.copy, ?_⟩)
    exact (hpc t).trans (by rw [if_pos rfl, hd])
  all_goals simp only [State.Closing, State.Found, State.setCached, State.setHeld, State.goto, hcache,
    hpc, if_true] at *
  all_goals grind

theorem Good.iput (h : Good s) (hp : s.pc t = .idle) (ho : s.icache ino = some o) (hh : 0 < s.held t ino)
    (hfree : o.refcount = 1 → ¬ s.Found ino) : Good (s.iput t ino o) := by
  unfold State.iput
  split_ifs with hr
  · exact h.unlink hp ho hh hr (hfree hr)
  · have hpos := h.positive ino o ho
    exact h.of_count ho (by omega) (by omega)

theorem Good.close (h : Good s) (hp : s.pc t = .closing ino copy dirty)
    (hok : dirty = true → ok = true) : Good (s.close t ino copy dirty ok) := by
  unfold State.close
  have hpc := update_apply s.pc t .idle
  have hdisk := update_apply s.disk ino copy
  split_ifs with hd
  · refine h.of_at (fun _ _ => rfl) (fun _ _ => rfl) (fun j hj => update_of_ne hj ..) (fun _ _ => rfl)
      (fun j hj => pc_goto (by simp [hp, Pc.About, State.writeInode, Ne.symm hj]) id)
      fun ⟨h1, h2, h3, h4, h5, h6, h7⟩ => ⟨h1, h2, ?_, ?_, ?_, ?_, ?_⟩
    all_goals simp only [State.Closing, State.Found, State.goto, State.writeInode, hpc, hdisk, if_true] at *
    all_goals grind
  · exact h.goto_idle (by grind)

theorem Good.step (h : Good s) (hm : Moved s t a s') (hc : Clear s t a) : Good s' := by
  cases hm with
  | lookup hp => exact h.lookup hp hc
  | canonicalize hp => exact h.canonicalize hp
  | update hp ho hh => exact h.update ho
  | fsync hp ho hh => exact h.fsync ho
  | iput hp ho hh => exact h.iput hp ho hh (hc _ ho)
  | @close ino copy dirty ok hp =>
    refine h.close hp fun hd => ?_
    subst hd
    exact hc ino copy hp

theorem Good.disk_mono (h : Good s) (hm : Moved s t a s') (j : Nat) :
    (s.disk j).stamp ≤ (s'.disk j).stamp := by
  have hwrite : ∀ ino copy, copy = s.latest ino →
      (s.disk j).stamp ≤ (Function.update s.disk ino copy j).stamp := by
    intro ino copy hcopy
    by_cases hj : j = ino
    · subst hj
      rw [update_self, hcopy]
      exact h.stamp j
    · rw [update_of_ne hj]
  cases hm with
  | lookup hp => exact Nat.le_refl _
  | @canonicalize ino copy hp =>
    unfold State.canonicalize
    cases s.icache ino <;> exact Nat.le_refl _
  | update hp ho hh => exact Nat.le_refl _
  | @fsync ino o ok hp ho hh =>
    unfold State.fsync
    split_ifs
    · exact hwrite ino o.copy (h.cached ino o ho).1
    · exact Nat.le_refl _
  | @iput ino o hp ho hh =>
    unfold State.iput
    split_ifs <;> exact Nat.le_refl _
  | @close ino copy dirty ok hp =>
    unfold State.close
    split_ifs with hd
    · rw [Bool.and_eq_true] at hd
      rw [hd.1] at hp
      exact hwrite ino copy (h.closing ino t copy hp).1
    · exact Nat.le_refl _

def ClearStep (s : State τ ρ) (e : τ × Act ρ) (s' : State τ ρ) : Prop :=
  Clear s e.1 e.2 ∧ Step s e s'

-- In a run of clear steps an open returns an inode with every update made before, and no write-back replaces
-- a newer inode.
theorem inode_coherent (disk : Nat → ρ) {l : List (τ × Act ρ)} {s : State τ ρ}
    (h : Run ClearStep (initial disk) l s) :
    (∀ t ino copy s', s.pc t = .found ino copy → Step s (t, .canonicalize) s' →
      ∃ o, s'.icache ino = some o ∧ o.copy = s'.latest ino) ∧
    ∀ t a s' ino, Step s (t, a) s' → (s.disk ino).stamp ≤ (s'.disk ino).stamp := by
  have hg : Good s := h.invariant (good_initial disk) fun s e s' hi hs => hi.step hs.2.moved hs.1
  refine ⟨fun t ino copy s' hp hs => ?_, fun t a s' ino hs => hg.disk_mono hs.moved ino⟩
  have hg' : Good s' := hg.step hs.moved trivial
  have hsome : s'.icache ino ≠ none := by
    cases hs.moved with
    | @canonicalize ino' copy' hp' =>
      cases hp.symm.trans hp'
      unfold State.canonicalize
      cases s.icache ino with
      | some o =>
        change Function.update s.icache ino _ ino ≠ none
        rw [update_self]
        exact Option.some_ne_none _
      | none =>
        change Function.update s.icache ino _ ino ≠ none
        rw [update_self]
        exact Option.some_ne_none _
  obtain ⟨o, ho⟩ := Option.ne_none_iff_exists'.1 hsome
  exact ⟨o, ho, (hg'.cached ino o ho).1⟩

end Proofs

theorem clear_of_solo {s s' : State Unit ρ} {a : Act ρ} (hm : Moved s () a s')
    (ha : a ≠ .close false) : Clear s () a := by
  cases hm with
  | lookup hp =>
    rintro ⟨⟨⟩, copy, hu⟩
    cases hp.symm.trans hu
  | canonicalize hp => exact trivial
  | update hp ho hh => exact trivial
  | fsync hp ho hh => exact trivial
  | iput hp ho hh =>
    rintro o' - - ⟨⟨⟩, copy, hu⟩
    cases hp.symm.trans hu
  | @close ino copy dirty ok hp =>
    intro ino' copy' _
    cases ok with
    | true => rfl
    | false => exact absurd rfl ha

-- A file is opened, changed and closed, and opened again.
def reopenActs : List (Unit × Act Nat) :=
  [((), .lookup 1), ((), .canonicalize), ((), .update 1 5), ((), .iput 1), ((), .close true),
    ((), .lookup 1)]

theorem inode_coherent_reopen :
    ∃ s s' : State Unit Nat, Run ClearStep (initial fun _ => 0) reopenActs s ∧
      Step s ((), .canonicalize) s' ∧ ∃ o, s'.icache 1 = some o ∧ o.copy.raw = 5 := by
  obtain ⟨s, s', hs, hs', hp, hl⟩ : ∃ s s' : State Unit Nat,
      reopenActs.foldlM (fun s e => State.exec s e.1 e.2) (initial fun _ => 0) = some s ∧
      s.exec () .canonicalize = some s' ∧ s.pc () = .found 1 ⟨5, 1⟩ ∧ (s'.latest 1).raw = 5 :=
    ⟨_, _, rfl, rfl, rfl, rfl⟩
  have hrun : Run ClearStep (initial fun _ => 0) reopenActs s := by
    have hok : ∀ e ∈ reopenActs, e.2 ≠ .close false := by decide
    exact (Run.of_foldlM hs).mono fun s e s' hmem he =>
      ⟨clear_of_solo (Step.moved he) (hok e hmem), he⟩
  obtain ⟨o, ho, hcopy⟩ := (inode_coherent _ hrun).1 () 1 ⟨5, 1⟩ s' hp hs'
  exact ⟨s, s', hrun, hs', o, ho, by rw [hcopy, hl]⟩

-- Task 1 reads the raw inode while task 0 has changed the file. Task 0 closes it, and task 1 caches its old
-- copy.
def staleActs : List (Fin 2 × Act Nat) :=
  [(0, .lookup 1), (0, .canonicalize), (0, .update 1 5), (1, .lookup 1), (0, .iput 1),
    (0, .close true), (1, .canonicalize)]

theorem inode_stale :
    ∃ s : State (Fin 2) Nat, Run Step (initial fun _ => 0) staleActs s ∧
      ∃ o, s.icache 1 = some o ∧ o.copy = ⟨0, 0⟩ ∧ s.latest 1 = ⟨5, 1⟩ ∧ s.disk 1 = ⟨5, 1⟩ := by
  have hs : staleActs.foldlM (fun s e => State.exec s e.1 e.2) (initial fun _ => 0) = some _ := rfl
  exact ⟨_, Run.of_foldlM hs, _, rfl, rfl, rfl, rfl⟩

end Jnu.Minix.Coherence
