import Jnu.Lib.Refs
import Jnu.Lib.Trace

namespace Jnu.Buffer

open Function

-- BUFCACHE_SLOTS and BUFCACHE_DIRTY_LIMIT.
abbrev slotCount : Nat := 64

def dirtyLimit : Nat := 48

-- The counts of references are of type uint32_t.
abbrev refLimit : Nat := 2 ^ 32

abbrev Ix : Type := Fin slotCount

instance some_slots : NeZero slotCount := ⟨by decide⟩

variable {τ δ β : Type}

-- struct bufcache_slot with its buffer; an absent device is the NULL pointer. `β` is the 1 KiB of data. The
-- devices of `δ` have sectors of 512 bytes: bufcache_get refuses the others.
structure Slot (δ β : Type) where
  bdev : Option δ
  blockNo : Nat
  refcount : Nat
  dirty : Bool
  data : β
  valid : Bool
  loading : Bool
  lru : Nat

structure Cache (δ β : Type) where
  slots : Ix → Slot δ β
  clock : Nat
  dirtyCount : Nat

def Slot.Live (x : Slot δ β) : Prop := x.valid = true ∨ x.loading = true

def Slot.Keyed (x : Slot δ β) (d : δ) (b : Nat) : Prop := x.bdev = some d ∧ x.blockNo = b

namespace Cache

def set (c : Cache δ β) (i : Ix) (x : Slot δ β) : Cache δ β :=
  { c with slots := update c.slots i x }

@[simp]
theorem set_self (c : Cache δ β) (i : Ix) (x : Slot δ β) : (c.set i x).slots i = x :=
  update_self ..

theorem set_of_ne (c : Cache δ β) {i j : Ix} (x : Slot δ β) (h : j ≠ i) :
    (c.set i x).slots j = c.slots j :=
  update_of_ne h ..

def pickLoop (slots : Ix → Slot δ β) : List Ix → Option Ix → Option Ix
  | [], victim => victim
  | i :: is, victim =>
    if (slots i).loading then pickLoop slots is victim
    else if !(slots i).valid && (slots i).refcount == 0 then some i
    else if (slots i).refcount != 0 || (slots i).dirty then pickLoop slots is victim
    else
      match victim with
      | none => pickLoop slots is (some i)
      | some v =>
        if (slots i).lru < (slots v).lru then pickLoop slots is (some i)
        else pickLoop slots is victim

def pickVictim (c : Cache δ β) : Option Ix := pickLoop c.slots (List.finRange slotCount) none

def find [DecidableEq δ] (c : Cache δ β) (d : δ) (b : Nat) : Option Ix :=
  (List.finRange slotCount).find? fun i =>
    (c.slots i).bdev == some d && (c.slots i).blockNo == b &&
      ((c.slots i).valid || (c.slots i).loading)

def hit (c : Cache δ β) (i : Ix) : Cache δ β :=
  { c.set i
      { c.slots i with
        refcount := ((c.slots i).refcount + 1) % refLimit
        lru := c.clock + 1 } with
    clock := c.clock + 1 }

def claim (c : Cache δ β) (i : Ix) (d : δ) (b : Nat) : Cache δ β :=
  { c.set i
      { c.slots i with
        valid := false
        loading := true
        bdev := some d
        blockNo := b
        refcount := 1
        dirty := false
        lru := c.clock + 1 } with
    clock := c.clock + 1
    dirtyCount :=
      if (c.slots i).valid && (c.slots i).dirty then c.dirtyCount - 1 else c.dirtyCount }

-- What follows block_read.
def loaded (c : Cache δ β) (i : Ix) (data : β) : Cache δ β :=
  c.set i { c.slots i with data := data, valid := true, loading := false }

def loadFailed (c : Cache δ β) (i : Ix) : Cache δ β :=
  c.set i { c.slots i with valid := false, loading := false, refcount := 0 }

def put (c : Cache δ β) (i : Ix) : Cache δ β :=
  if (c.slots i).refcount = 0 then c
  else c.set i { c.slots i with refcount := (c.slots i).refcount - 1 }

-- The two critical sections of bufcache_mark_dirty: does it sync first, and
-- the marking.
def overLimit (c : Cache δ β) (i : Ix) : Bool :=
  !(c.slots i).dirty && dirtyLimit ≤ c.dirtyCount

def mark (c : Cache δ β) (i : Ix) : Cache δ β :=
  { c.set i { c.slots i with dirty := true } with
    dirtyCount := if (c.slots i).dirty then c.dirtyCount else c.dirtyCount + 1 }

-- bufcache_sync on one slot: the decision, and what follows block_write.
def doWrite [DecidableEq δ] (c : Cache δ β) (dev : Option δ) (i : Ix) : Bool :=
  (c.slots i).valid && (c.slots i).dirty && (dev == none || (c.slots i).bdev == dev)

def beginWrite (c : Cache δ β) (i : Ix) : Cache δ β :=
  c.set i { c.slots i with refcount := ((c.slots i).refcount + 1) % refLimit }

def endWrite (c : Cache δ β) (i : Ix) (ok : Bool) : Cache δ β :=
  { c.set i
      { c.slots i with
        dirty := !ok && (c.slots i).dirty
        refcount := (c.slots i).refcount - 1 } with
    dirtyCount := if ok && (c.slots i).dirty then c.dirtyCount - 1 else c.dirtyCount }

-- The second part of bufcache_flush_all.
def invalidateSlot (c : Cache δ β) (i : Ix) : Cache δ β :=
  if (c.slots i).refcount != 0 || (c.slots i).loading then c
  else
    { c.set i { c.slots i with valid := false, dirty := false, bdev := none, blockNo := 0 } with
      dirtyCount :=
        if (c.slots i).valid && (c.slots i).dirty then c.dirtyCount - 1 else c.dirtyCount }

def invalidate (c : Cache δ β) : Cache δ β :=
  (List.finRange slotCount).foldl invalidateSlot c

section Lemmas

variable {c : Cache δ β} {d : δ} {b : Nat} {i j : Ix} {slots : Ix → Slot δ β} {l : List Ix}

theorem find_some [DecidableEq δ] (h : c.find d b = some i) :
    (c.slots i).Keyed d b ∧ (c.slots i).Live := by
  have hp := List.find?_some h
  simp only [Bool.and_eq_true, beq_iff_eq, Bool.or_eq_true] at hp
  exact hp

theorem find_none [DecidableEq δ] (h : c.find d b = none) (i : Ix) :
    ¬ ((c.slots i).Keyed d b ∧ (c.slots i).Live) := by
  have hp := List.find?_eq_none.1 h i (List.mem_finRange i)
  simp only [Bool.and_eq_true, beq_iff_eq, Bool.or_eq_true] at hp
  exact hp

-- A slot that bufcache_pick_victim may choose.
def Spare (x : Slot δ β) : Prop :=
  x.loading = false ∧ x.refcount = 0 ∧ (x.valid = true → x.dirty = false)

theorem pickLoop_some {victim : Option Ix} (hv : ∀ v, victim = some v → Spare (slots v))
    (h : pickLoop slots l victim = some i) : Spare (slots i) := by
  induction l generalizing victim with
  | nil => exact hv i h
  | cons j l ih =>
    unfold pickLoop at h
    by_cases hl : (slots j).loading = true
    · rw [if_pos hl] at h
      exact ih hv h
    rw [if_neg hl] at h
    have hl' : (slots j).loading = false := by simpa using hl
    by_cases hf : (!(slots j).valid && (slots j).refcount == 0) = true
    · rw [if_pos hf] at h
      cases h
      simp only [Bool.and_eq_true, Bool.not_eq_true', beq_iff_eq] at hf
      exact ⟨hl', hf.2, fun hval => by simp [hf.1] at hval⟩
    rw [if_neg hf] at h
    by_cases hr : ((slots j).refcount != 0 || (slots j).dirty) = true
    · rw [if_pos hr] at h
      exact ih hv h
    rw [if_neg hr] at h
    simp only [Bool.or_eq_true, bne_iff_ne, ne_eq, not_or, not_not, Bool.not_eq_true] at hr
    have hj : Spare (slots j) := ⟨hl', hr.1, fun _ => hr.2⟩
    have hsome : ∀ v, some j = some v → Spare (slots v) := by
      rintro v ⟨⟩
      exact hj
    cases victim with
    | none => exact ih hsome h
    | some v =>
      dsimp only at h
      by_cases hlt : (slots j).lru < (slots v).lru
      · rw [if_pos hlt] at h
        exact ih hsome h
      · rw [if_neg hlt] at h
        exact ih hv h

theorem pickVictim_some (h : c.pickVictim = some i) : Spare (c.slots i) :=
  pickLoop_some (fun _ hv => by cases hv) h

theorem pickLoop_of_some (l : List Ix) (v : Ix) : pickLoop slots l (some v) ≠ none := by
  induction l generalizing v with
  | nil => exact Option.some_ne_none v
  | cons j l ih =>
    unfold pickLoop
    dsimp only
    split_ifs
    · exact ih v
    · exact Option.some_ne_none j
    · exact ih v
    · exact ih j
    · exact ih v

theorem pickLoop_none (h : pickLoop slots l none = none) (hj : j ∈ l) :
    (slots j).loading = true ∨ (slots j).refcount ≠ 0 ∨ (slots j).dirty = true := by
  induction l with
  | nil => simp at hj
  | cons k l ih =>
    unfold pickLoop at h
    split_ifs at h with hl hf hr
    · rcases List.mem_cons.1 hj with rfl | hj
      · exact .inl hl
      · exact ih h hj
    · rcases List.mem_cons.1 hj with rfl | hj
      · simp only [Bool.or_eq_true, bne_iff_ne] at hr
        exact .inr hr
      · exact ih h hj
    · exact absurd h (pickLoop_of_some l k)

theorem pickVictim_none (h : c.pickVictim = none) (j : Ix) :
    (c.slots j).loading = true ∨ (c.slots j).refcount ≠ 0 ∨ (c.slots j).dirty = true :=
  pickLoop_none h (List.mem_finRange j)

def flushed (x : Slot δ β) : Slot δ β :=
  if x.refcount != 0 || x.loading then x
  else { x with valid := false, dirty := false, bdev := none, blockNo := 0 }

theorem flushed_flushed (x : Slot δ β) : flushed (flushed x) = flushed x := by
  unfold flushed
  split_ifs with h <;> rfl

theorem invalidateSlot_slots (c : Cache δ β) (i j : Ix) :
    (c.invalidateSlot i).slots j = if j = i then flushed (c.slots j) else c.slots j := by
  unfold invalidateSlot
  by_cases hs : ((c.slots i).refcount != 0 || (c.slots i).loading) = true
  · rw [if_pos hs]
    by_cases hj : j = i
    · rw [if_pos hj, hj, flushed, if_pos hs]
    · rw [if_neg hj]
  · rw [if_neg hs]
    by_cases hj : j = i
    · rw [if_pos hj, hj, flushed, if_neg hs]
      exact c.set_self ..
    · rw [if_neg hj]
      exact c.set_of_ne _ hj

theorem foldl_invalidateSlot (l : List Ix) (c : Cache δ β) (j : Ix) :
    (l.foldl invalidateSlot c).slots j = if j ∈ l then flushed (c.slots j) else c.slots j := by
  induction l generalizing c with
  | nil => simp
  | cons i l ih =>
    rw [List.foldl_cons, ih, invalidateSlot_slots]
    by_cases hj : j = i
    · subst hj
      simp only [if_true, List.mem_cons_self, flushed_flushed, ite_self]
    · simp only [hj, if_false, List.mem_cons, false_or]

theorem invalidate_slots (c : Cache δ β) (j : Ix) : c.invalidate.slots j = flushed (c.slots j) := by
  unfold invalidate
  rw [foldl_invalidateSlot, if_pos (List.mem_finRange j)]

end Lemmas

end Cache

-- What follows a sync: nothing, the rest of bufcache_mark_dirty, or the rest of bufcache_flush_all.
inductive After
  | ret
  | mark (i : Ix)
  | flush
  deriving DecidableEq

-- Where a task is. A task is preempted between critical sections, and while a
-- transfer goes on.
inductive Pc (δ : Type)
  | idle
  | getting (d : δ) (b : Nat)
  | loading (i : Ix)
  | marking (i : Ix)
  | syncing (dev : Option δ) (k : Nat) (after : After)
  | writing (dev : Option δ) (i : Ix) (d : δ) (b : Nat) (sent : Bool) (after : After)
  | remarking (i : Ix)
  | flushing
  deriving DecidableEq

def After.pc : After → Pc δ
  | .ret => .idle
  | .mark i => .remarking i
  | .flush => .flushing

-- What became of a load that a get waits for.
inductive Fate
  | pending
  | filled
  | failed
  | evicted
  deriving DecidableEq

-- `held` are the references in the tasks' hands. No function reads the last two fields: the disk as the
-- tasks wrote it, and the load a get waits for.
structure State (τ δ β : Type) where
  cache : Cache δ β
  device : δ → Nat → β
  pc : τ → Pc δ
  held : τ → Ix → Nat
  content : δ → Nat → β
  waits : τ → Option (Ix × Fate)

inductive Act (δ β : Type)
  | get (d : δ) (b : Nat)
  | search
  | read (ok : Bool)
  | modify (i : Ix) (data : β)
  | mark
  | remark
  | sync (dev : Option δ)
  | next
  | transfer
  | wrote (ok : Bool)
  | flush
  | invalidate
  | put (i : Ix)
  deriving DecidableEq

def write [DecidableEq δ] (f : δ → Nat → β) (d : δ) (b : Nat) (x : β) : δ → Nat → β :=
  update f d (update (f d) b x)

theorem write_self [DecidableEq δ] (f : δ → Nat → β) (d : δ) (b : Nat) (x : β) :
    write f d b x d b = x := by
  simp only [write, update_self]

theorem write_of_ne [DecidableEq δ] (f : δ → Nat → β) {d e : δ} {b c : Nat} (x : β)
    (h : ¬ (e = d ∧ c = b)) : write f d b x e c = f e c := by
  by_cases hd : e = d
  · have hc : c ≠ b := fun hc => h ⟨hd, hc⟩
    simp only [write, hd, update_self, update_of_ne hc]
  · simp only [write, update_of_ne hd]

-- What the tasks have written, once the buffer in slot `x` has new data.
def Slot.record [DecidableEq δ] (x : Slot δ β) (f : δ → Nat → β) (v : β) : δ → Nat → β :=
  match x.bdev with
  | some d => write f d x.blockNo v
  | none => f

def Fate.onFill : Fate → Fate
  | .pending => .filled
  | f => f

def Fate.onFail : Fate → Fate
  | .pending => .failed
  | f => f

def Fate.onEvict : Fate → Fate
  | .filled => .evicted
  | f => f

namespace State

variable [DecidableEq τ] [DecidableEq δ] (s : State τ δ β) (t : τ)

def slot (i : Ix) : Slot δ β := s.cache.slots i

def goto (p : Pc δ) : State τ δ β := { s with pc := update s.pc t p }

-- A task has got a reference to slot `i`, or has dropped one.
def take (i : Ix) : State τ δ β :=
  { s with held := update s.held t (update (s.held t) i (s.held t i + 1)) }

def drop (i : Ix) : State τ δ β :=
  { s with held := update s.held t (update (s.held t) i (s.held t i - 1)) }

-- The loads on the slots of `p` have met the fate `f`.
def meet (p : Ix → Bool) (f : Fate → Fate) : State τ δ β :=
  { s with waits := fun t => (s.waits t).map fun w => if p w.1 then (w.1, f w.2) else w }

def await (w : Option (Ix × Fate)) : State τ δ β :=
  { s with waits := update s.waits t w }

def hit (i : Ix) : State τ δ β :=
  (({ s with cache := s.cache.hit i }.take t i).await t none).goto t .idle

def claim (i : Ix) (d : δ) (b : Nat) : State τ δ β :=
  (({ s with cache := s.cache.claim i d b }.meet (· == i) Fate.onEvict).await t none).goto t
    (.loading i)

-- bufcache_get's first critical section. A get that finds the block being
-- loaded yields and searches again.
def search (d : δ) (b : Nat) : State τ δ β :=
  match s.cache.find d b with
  | some i => if (s.slot i).loading then s.await t (some (i, .pending)) else s.hit t i
  | none =>
    match s.cache.pickVictim with
    | none => (s.await t none).goto t .idle
    | some i => s.claim t i d b

def fill (i : Ix) (d : δ) : State τ δ β :=
  (({ s with cache := s.cache.loaded i (s.device d (s.slot i).blockNo) }.meet (· == i)
    Fate.onFill).take t i).goto t .idle

def fail (i : Ix) : State τ δ β :=
  ({ s with cache := s.cache.loadFailed i }.meet (· == i) Fate.onFail).goto t .idle

-- block_read and the critical section after it.
def read (i : Ix) (ok : Bool) : State τ δ β :=
  match ok, (s.slot i).bdev with
  | true, some d => s.fill t i d
  | _, _ => s.fail t i

-- The task writes into the data of a buffer it holds.
def modify (i : Ix) (x : β) : State τ δ β :=
  { s with
    cache := s.cache.set i { s.slot i with data := x }
    content := (s.slot i).record s.content x }.goto t (.marking i)

-- bufcache_mark_dirty once it does not sync or has done so, and its beginning.
def remark (i : Ix) : State τ δ β := { s with cache := s.cache.mark i }.goto t .idle

def mark (i : Ix) : State τ δ β :=
  if s.cache.overLimit i then s.goto t (.syncing (s.slot i).bdev 0 (.mark i))
  else s.remark t i

def begin (dev : Option δ) (i : Ix) (d : δ) (after : After) : State τ δ β :=
  { s with cache := s.cache.beginWrite i }.goto t
    (.writing dev i d (s.slot i).blockNo false after)

-- One round of bufcache_sync up to block_write, or the end of its loop.
def next (dev : Option δ) (k : Nat) (after : After) : State τ δ β :=
  if h : k < slotCount then
    match s.cache.doWrite dev ⟨k, h⟩, (s.slot ⟨k, h⟩).bdev with
    | true, some d => s.begin t dev ⟨k, h⟩ d after
    | _, _ => s.goto t (.syncing dev (k + 1) after)
  else s.goto t after.pc

-- The device takes the bytes that the buffer has at that moment.
def transfer (dev : Option δ) (i : Ix) (d : δ) (b : Nat) (after : After) : State τ δ β :=
  { s with device := write s.device d b (s.slot i).data }.goto t
    (.writing dev i d b true after)

def wrote (dev : Option δ) (i : Ix) (after : After) (ok : Bool) : State τ δ β :=
  { s with cache := s.cache.endWrite i ok }.goto t
    (if ok then .syncing dev (i + 1) after else after.pc)

def invalidate : State τ δ β :=
  ({ s with cache := s.cache.invalidate }.meet
    (fun i => (s.slot i).refcount == 0 && !(s.slot i).loading) Fate.onEvict).goto t .idle

def put (i : Ix) : State τ δ β := { s with cache := s.cache.put i }.drop t i

-- A write that returns 0 has reached the device; one that fails may have.
def exec : Act δ β → Option (State τ δ β)
  | .get d b => if s.pc t = .idle then some (s.goto t (.getting d b)) else none
  | .search =>
    match s.pc t with
    | .getting d b => some (s.search t d b)
    | _ => none
  | .read ok =>
    match s.pc t with
    | .loading i => some (s.read t i ok)
    | _ => none
  | .modify i x =>
    if s.pc t = .idle ∧ 0 < s.held t i then some (s.modify t i x) else none
  | .mark =>
    match s.pc t with
    | .marking i => some (s.mark t i)
    | _ => none
  | .remark =>
    match s.pc t with
    | .remarking i => some (s.remark t i)
    | _ => none
  | .sync dev => if s.pc t = .idle then some (s.goto t (.syncing dev 0 .ret)) else none
  | .next =>
    match s.pc t with
    | .syncing dev k after => some (s.next t dev k after)
    | _ => none
  | .transfer =>
    match s.pc t with
    | .writing dev i d b false after => some (s.transfer t dev i d b after)
    | _ => none
  | .wrote ok =>
    match s.pc t with
    | .writing dev i _ _ sent after =>
      if ok && !sent then none else some (s.wrote t dev i after ok)
    | _ => none
  | .flush => if s.pc t = .idle then some (s.goto t (.syncing none 0 .flush)) else none
  | .invalidate => if s.pc t = .flushing then some (s.invalidate t) else none
  | .put i => if s.pc t = .idle ∧ 0 < s.held t i then some (s.put t i) else none

-- The slot of which a step may take one more reference, and a step at which
-- the count has room for it.
def takes : Act δ β → Option Ix
  | .search =>
    match s.pc t with
    | .getting d b => s.cache.find d b
    | _ => none
  | .next =>
    match s.pc t with
    | .syncing _ k _ => if h : k < slotCount then some ⟨k, h⟩ else none
    | _ => none
  | _ => none

def Fits (a : Act δ β) : Prop := ∀ i ∈ s.takes t a, (s.slot i).refcount + 1 < refLimit

instance fits_dec (a : Act δ β) : Decidable (s.Fits t a) := inferInstanceAs (Decidable (∀ i ∈ _, _))

def fit (a : Act δ β) : Option (State τ δ β) := if s.Fits t a then s.exec t a else none

end State

section Steps

variable [DecidableEq τ] [DecidableEq δ]

-- One critical section or transfer of one task.
def Step (s : State τ δ β) (e : τ × Act δ β) (s' : State τ δ β) : Prop :=
  s.exec e.1 e.2 = some s'

-- A step at which no count of references wraps.
def FitStep (s : State τ δ β) (e : τ × Act δ β) (s' : State τ δ β) : Prop :=
  s.fit e.1 e.2 = some s'

inductive Moved (s : State τ δ β) (t : τ) : Act δ β → State τ δ β → Prop
  | get {d b} (hp : s.pc t = .idle) : Moved s t (.get d b) (s.goto t (.getting d b))
  | waited {d b i} (hp : s.pc t = .getting d b) (hf : s.cache.find d b = some i)
      (hl : (s.slot i).loading = true) : Moved s t .search (s.await t (some (i, .pending)))
  | hit {d b i} (hp : s.pc t = .getting d b) (hf : s.cache.find d b = some i)
      (hl : (s.slot i).loading = false) (hr : (s.slot i).refcount + 1 < refLimit) :
      Moved s t .search (s.hit t i)
  | full {d b} (hp : s.pc t = .getting d b) (hf : s.cache.find d b = none)
      (hv : s.cache.pickVictim = none) : Moved s t .search ((s.await t none).goto t .idle)
  | claim {d b i} (hp : s.pc t = .getting d b) (hf : s.cache.find d b = none)
      (hv : s.cache.pickVictim = some i) : Moved s t .search (s.claim t i d b)
  | fill {i d} (hp : s.pc t = .loading i) (hb : (s.slot i).bdev = some d) :
      Moved s t (.read true) (s.fill t i d)
  | fail {i ok} (hp : s.pc t = .loading i) (hb : ok = true → (s.slot i).bdev = none) :
      Moved s t (.read ok) (s.fail t i)
  | modify {i x} (hp : s.pc t = .idle) (hh : 0 < s.held t i) :
      Moved s t (.modify i x) (s.modify t i x)
  | limit {i} (hp : s.pc t = .marking i) (ho : s.cache.overLimit i = true) :
      Moved s t .mark (s.goto t (.syncing (s.slot i).bdev 0 (.mark i)))
  | mark {i} (hp : s.pc t = .marking i) (ho : s.cache.overLimit i = false) :
      Moved s t .mark (s.remark t i)
  | remark {i} (hp : s.pc t = .remarking i) : Moved s t .remark (s.remark t i)
  | sync {dev} (hp : s.pc t = .idle) : Moved s t (.sync dev) (s.goto t (.syncing dev 0 .ret))
  | skip {dev i after} (hp : s.pc t = .syncing dev (Fin.val i) after)
      (hw : s.cache.doWrite dev i = true → (s.slot i).bdev = none) :
      Moved s t .next (s.goto t (.syncing dev (i + 1) after))
  | begin {dev i after d} (hp : s.pc t = .syncing dev (Fin.val i) after)
      (hw : s.cache.doWrite dev i = true) (hb : (s.slot i).bdev = some d)
      (hr : (s.slot i).refcount + 1 < refLimit) : Moved s t .next (s.begin t dev i d after)
  | finish {dev k after} (hp : s.pc t = .syncing dev k after) (hk : slotCount ≤ k) :
      Moved s t .next (s.goto t after.pc)
  | transfer {dev i d b after} (hp : s.pc t = .writing dev i d b false after) :
      Moved s t .transfer (s.transfer t dev i d b after)
  | wrote {dev i d b sent after ok} (hp : s.pc t = .writing dev i d b sent after)
      (hok : ok = true → sent = true) : Moved s t (.wrote ok) (s.wrote t dev i after ok)
  | flush (hp : s.pc t = .idle) : Moved s t .flush (s.goto t (.syncing none 0 .flush))
  | invalidate (hp : s.pc t = .flushing) : Moved s t .invalidate (s.invalidate t)
  | put {i} (hp : s.pc t = .idle) (hh : 0 < s.held t i) : Moved s t (.put i) (s.put t i)

variable {s s' : State τ δ β} {t : τ} {a : Act δ β} {i : Ix}

theorem Moved.of_search {d : δ} {b : Nat} (hp : s.pc t = .getting d b)
    (hfit : s.Fits t .search) : Moved s t .search (s.search t d b) := by
  simp only [State.Fits, State.takes, hp] at hfit
  unfold State.search
  cases hf : s.cache.find d b with
  | some i =>
    dsimp only
    by_cases hl : (s.slot i).loading = true
    · rw [if_pos hl]
      exact .waited hp hf hl
    · rw [if_neg hl]
      exact .hit hp hf (by simpa using hl) (hfit i hf)
  | none =>
    cases hv : s.cache.pickVictim with
    | none => exact .full hp hf hv
    | some i => exact .claim hp hf hv

theorem Moved.of_read (hp : s.pc t = .loading i) (ok : Bool) : Moved s t (.read ok) (s.read t i ok) := by
  cases ok with
  | false => exact .fail hp (fun h => by cases h)
  | true =>
    unfold State.read
    cases hb : (s.slot i).bdev with
    | none => exact .fail hp (fun _ => hb)
    | some d => exact .fill hp hb

theorem Moved.of_mark (hp : s.pc t = .marking i) : Moved s t .mark (s.mark t i) := by
  unfold State.mark
  cases ho : s.cache.overLimit i with
  | true => exact .limit hp ho
  | false => exact .mark hp ho

theorem Moved.of_next {dev : Option δ} {k : Nat} {after : After} (hp : s.pc t = .syncing dev k after)
    (hfit : s.Fits t .next) : Moved s t .next (s.next t dev k after) := by
  simp only [State.Fits, State.takes, hp] at hfit
  unfold State.next
  by_cases hk : k < slotCount
  · rw [dif_pos hk]
    cases hw : s.cache.doWrite dev ⟨k, hk⟩ with
    | false => exact .skip (i := ⟨k, hk⟩) hp (fun h => by simp [hw] at h)
    | true =>
      cases hb : (s.slot ⟨k, hk⟩).bdev with
      | none => exact .skip (i := ⟨k, hk⟩) hp (fun _ => hb)
      | some d => exact .begin hp hw hb (hfit _ (dif_pos hk))
  · rw [dif_neg hk]
    exact .finish hp (by omega)

theorem FitStep.moved (h : FitStep s (t, a) s') : Moved s t a s' := by
  simp only [FitStep, State.fit, Option.ite_none_right_eq_some] at h
  obtain ⟨hfit, h⟩ := h
  cases a <;> simp only [State.exec] at h
  all_goals repeat' split at h
  all_goals first
    | exact (Option.some_ne_none _ h.symm).elim
    | rw [← Option.some.inj h]
  all_goals first
    | exact .of_search ‹_› hfit
    | exact .of_read ‹_› _
    | exact .of_mark ‹_›
    | exact .of_next ‹_› hfit
    | exact .wrote ‹_› (by grind)
    | constructor <;> grind

end Steps

def initial (device : δ → Nat → β) (data : β) : State τ δ β where
  cache :=
    { slots := fun _ =>
        { bdev := none, blockNo := 0, refcount := 0, dirty := false, data := data,
          valid := false, loading := false, lru := 0 }
      clock := 0
      dirtyCount := 0 }
  device := device
  pc := fun _ => .idle
  held := fun _ _ => 0
  content := device
  waits := fun _ => none

end Jnu.Buffer
