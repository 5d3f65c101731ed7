import Jnu.Lib.Refs
import Jnu.Lib.Trace

namespace Jnu.User.Append

open Lib.Refs Lib.Trace
open Function

abbrev Byte := BitVec 8

def writeChunk : Nat := 128

def oAccmode : BitVec 32 := 0o3#32

def oRdonly : BitVec 32 := 0#32

def oTrunc : BitVec 32 := 0o1000#32

def oAppend : BitVec 32 := 0o2000#32

-- `struct file`: an open file description. `lock` is the task that holds its mutex.
structure File where
  offset : Nat
  flags : BitVec 32
  lock : Option Nat

-- A `sys_write` that holds the lock of its file, with the offset and the size it found.
structure Call where
  file : Nat
  buf : List Byte
  done : Nat
  offset : Nat
  size : Nat

-- A write that has returned the length of `bytes`.
structure Written where
  offset : Nat
  size : Nat
  bytes : List Byte

-- One inode with the open file descriptions and the tasks that use it. A description that a fork
-- shares is still one description.
structure State where
  content : List Byte
  file : Nat → Option File
  call : Nat → Option Call
  log : List Written

-- `vfs_write`, with zeros for a hole
def vfsWrite (content : List Byte) (offset : Nat) (bytes : List Byte) : List Byte :=
  content.take offset ++ List.replicate (offset - content.length) 0 ++ bytes ++
    content.drop (offset + bytes.length)

def openOffset (flags : BitVec 32) (size : Nat) : Nat := if flags &&& oAppend ≠ 0#32 then size else 0

-- A round of the loop in `sys_write`: a copy or a write fails, or `n` bytes are written.
inductive Outcome
  | fault
  | error
  | wrote (n : Nat)

inductive Move
  | open (i : Nat) (flags : BitVec 32)
  | close (i : Nat)
  | write (t i : Nat) (buf : List Byte)
  | chunk (t : Nat) (o : Outcome)
  | finish (t : Nat)

namespace State

def setFile (s : State) (i : Nat) (f : Option File) : State :=
  { s with file := update s.file i f }

def setCall (s : State) (t : Nat) (c : Option Call) : State :=
  { s with call := update s.call t c }

-- `mutex_unlock` and the return: `done` if something was written.
def finish (s : State) (t : Nat) (c : Call) (f : File) : State :=
  let s := (s.setFile c.file (some { f with lock := none })).setCall t none
  if c.done = 0 then s
  else { s with log := s.log ++ [⟨c.offset, c.size, c.buf.take c.done⟩] }

end State

def Call.chunk (c : Call) : List Byte := (c.buf.drop c.done).take writeChunk

def wrote (s : State) (t : Nat) (c : Call) (f : File) (n : Nat) : State :=
  let c' := { c with done := c.done + n }
  let f' := { f with offset := f.offset + n }
  let s' : State := { s with content := vfsWrite s.content f.offset (c.chunk.take n) }
  if n < c.chunk.length then s'.finish t c' f'
  else (s'.setFile c.file (some f')).setCall t (some c')

def step (s : State) : Move → Option State
  | .open i flags =>
    if s.file i = none ∧ flags &&& oAppend ≠ 0#32 ∧ flags &&& oTrunc = 0#32 then
      some (s.setFile i (some ⟨openOffset flags s.content.length, flags, none⟩))
    else none
  | .close i =>
    match s.file i with
    | some f => if f.lock = none then some (s.setFile i none) else none
    | none => none
  | .write t i buf =>
    match s.file i, s.call t with
    | some f, none =>
      if f.lock = none ∧ f.flags &&& oAccmode ≠ oRdonly then
        some ((s.setFile i (some { f with lock := some t })).setCall t
          (some ⟨i, buf, 0, f.offset, s.content.length⟩))
      else none
    | _, _ => none
  | .chunk t o =>
    match s.call t with
    | some c =>
      match s.file c.file with
      | some f =>
        if c.done < c.buf.length then
          match o with
          | .wrote n => if n ≤ c.chunk.length then some (wrote s t c f n) else none
          | _ => some (s.finish t c f)
        else none
      | none => none
    | none => none
  | .finish t =>
    match s.call t with
    | some c =>
      match s.file c.file with
      | some f => if c.buf.length ≤ c.done then some (s.finish t c f) else none
      | none => none
    | none => none

def Step (s : State) (e : Move) (s' : State) : Prop := step s e = some s'

inductive Moved (s : State) : Move → State → Prop
  | opened {i : Nat} {flags : BitVec 32} (hfile : s.file i = none) (hflag : flags &&& oAppend ≠ 0#32) :
      Moved s (.open i flags) (s.setFile i (some ⟨openOffset flags s.content.length, flags, none⟩))
  | closed {i : Nat} {f : File} (hf : s.file i = some f) (hl : f.lock = none) :
      Moved s (.close i) (s.setFile i none)
  | began {t i : Nat} {f : File} {buf : List Byte} (hf : s.file i = some f) (hl : f.lock = none) :
      Moved s (.write t i buf) ((s.setFile i (some { f with lock := some t })).setCall t
        (some ⟨i, buf, 0, f.offset, s.content.length⟩))
  | failed {t : Nat} {o : Outcome} {c : Call} {f : File} (hc : s.call t = some c)
      (hf : s.file c.file = some f) : Moved s (.chunk t o) (s.finish t c f)
  | stored {t n : Nat} {c : Call} {f : File} (hc : s.call t = some c) (hf : s.file c.file = some f)
      (hn : n ≤ c.chunk.length) : Moved s (.chunk t (.wrote n)) (wrote s t c f n)
  | finished {t : Nat} {c : Call} {f : File} (hc : s.call t = some c)
      (hf : s.file c.file = some f) : Moved s (.finish t) (s.finish t c f)

variable {s s' : State} {e : Move} {i n j t' : Nat}

theorem Step.moved (hs : Step s e s') : Moved s e s' := by
  cases e <;> simp only [Step, step] at hs
  all_goals repeat' split at hs
  all_goals cases hs
  all_goals first
    | exact .opened (And.left ‹_›) (And.left (And.right ‹_›))
    | exact .began ‹_› (And.left ‹_›)
    | constructor <;> assumption

-- Bytes are written only while no other description of the inode is open.
def Alone (s : State) : Move → Prop
  | .chunk t (.wrote _) => ∀ c, s.call t = some c → ∀ j, j ≠ c.file → s.file j = none
  | _ => True

def AloneStep (s : State) (e : Move) (s' : State) : Prop := Alone s e ∧ Step s e s'

def closed (content : List Byte) : State := ⟨content, fun _ => none, fun _ => none, []⟩

-- Every write that has returned was made at the end of the file, and its bytes are still there.
def Appended (s : State) : Prop :=
  ∀ a ∈ s.log, a.offset = a.size ∧ (s.content.drop a.size).take a.bytes.length = a.bytes

-- Without a second open description every open file is at the end, and the call that holds its lock has
-- written what follows the size it found.
structure Good (s : State) : Prop where
  offsets : ∀ i f, s.file i = some f → f.offset = s.content.length
  held : ∀ t c, s.call t = some c → ∃ f, s.file c.file = some f ∧ f.lock = some t
  begun : ∀ t c, s.call t = some c → c.offset = c.size ∧ c.size + c.done = s.content.length ∧
    c.done ≤ c.buf.length ∧ s.content.drop c.size = c.buf.take c.done
  appended : Appended s

section content

variable {content bytes : List Byte}

theorem vfsWrite_end : vfsWrite content content.length bytes = content ++ bytes := by
  simp [vfsWrite]

theorem Call.chunk_length (c : Call) : c.chunk.length = min writeChunk (c.buf.length - c.done) := by
  simp [Call.chunk]

theorem Call.take_chunk (c : Call) (hn : n ≤ c.chunk.length) :
    c.buf.take c.done ++ c.chunk.take n = c.buf.take (c.done + n) := by
  have hlen : n ≤ writeChunk := by
    rw [c.chunk_length] at hn
    omega
  unfold Call.chunk
  rw [List.take_take, Nat.min_eq_left hlen, List.take_add]

end content

section steps

variable {s : State} {t i : Nat} {c c' : Call} {f : File}

theorem file_self (f : Option File) : (s.setFile i f).file i = f := update_self ..

theorem file_other (f : Option File) (h : j ≠ i) : (s.setFile i f).file j = s.file j :=
  update_of_ne h ..

theorem call_self (c : Option Call) : (s.setCall t c).call t = c := update_self ..

theorem finish_file : (s.finish t c f).file = (s.setFile c.file (some { f with lock := none })).file := by
  unfold State.finish
  split <;> rfl

theorem Good.one_call (h : Good s) (hc : s.call t = some c)
    (hc' : s.call t' = some c') (hfile : c'.file = c.file) : t' = t := by
  obtain ⟨f, hf, hl⟩ := h.held t c hc
  obtain ⟨f', hf', hl'⟩ := h.held t' c' hc'
  rw [hfile, hf] at hf'
  cases hf'
  exact Option.some.inj (hl'.symm.trans hl)

theorem Good.setFile (h : Good s) {g : Option File} (hfree : ∀ t c, s.call t = some c → c.file ≠ i)
    (hg : ∀ f, g = some f → f.offset = s.content.length) : Good (s.setFile i g) where
  offsets j f hf := by
    by_cases hj : j = i
    · subst hj
      rw [file_self] at hf
      exact hg f hf
    · rw [file_other _ hj] at hf
      exact h.offsets j f hf
  held t c hc := by
    rw [file_other _ (hfree t c hc)]
    exact h.held t c hc
  begun := h.begun
  appended := h.appended

theorem Good.drop (h : Good s) : Good (s.setCall t none) :=
  ⟨h.offsets, fun j c hc => h.held j c (of_erase hc).2, fun j c hc => h.begun j c (of_erase hc).2, h.appended⟩

theorem Good.finish (h : Good s) (hc : s.call t = some c) (hf : s.file c.file = some f) :
    Good (s.finish t c f) := by
  have hfree : ∀ j c', (s.setCall t none).call j = some c' → c'.file ≠ c.file := by
    intro j c' hc' hi
    obtain ⟨hj, hc'⟩ := of_erase hc'
    exact hj (h.one_call hc hc' hi)
  have hdone : Good ((s.setFile c.file (some { f with lock := none })).setCall t none) :=
    (h.drop (t := t)).setFile hfree fun g hg => by cases hg; exact h.offsets _ f hf
  unfold State.finish
  split
  · exact hdone
  refine ⟨hdone.offsets, hdone.held, hdone.begun, fun a ha => ?_⟩
  rcases List.mem_append.1 ha with ha | ha
  · exact h.appended a ha
  · cases List.mem_singleton.1 ha
    obtain ⟨hoff, -, -, hbytes⟩ := h.begun t c hc
    refine ⟨hoff, ?_⟩
    show (s.content.drop c.size).take _ = _
    rw [hbytes, List.take_length]

def rounded (s : State) (t : Nat) (c : Call) (f : File) (n : Nat) : State :=
  (({ s with content := vfsWrite s.content f.offset (c.chunk.take n) } : State).setFile c.file
    (some { f with offset := f.offset + n })).setCall t (some { c with done := c.done + n })

theorem wrote_eq (n : Nat) : wrote s t c f n =
    if n < c.chunk.length then
      (rounded s t c f n).finish t { c with done := c.done + n } { f with offset := f.offset + n }
    else rounded s t c f n := by
  unfold wrote rounded State.finish State.setFile State.setCall
  simp only [update_idem]

theorem Good.rounded (h : Good s) (hc : s.call t = some c) (hf : s.file c.file = some f)
    (halone : ∀ j, j ≠ c.file → s.file j = none) (hn : n ≤ c.chunk.length) :
    Good (rounded s t c f n) := by
  obtain ⟨hoff, hsize, hdone, hbytes⟩ := h.begun t c hc
  have hlen : (c.chunk.take n).length = n := by
    rw [List.length_take]
    omega
  have hcontent : (Append.rounded s t c f n).content = s.content ++ c.chunk.take n := by
    show vfsWrite s.content f.offset (c.chunk.take n) = _
    rw [h.offsets _ f hf, vfsWrite_end]
  have hlength : (Append.rounded s t c f n).content.length = s.content.length + n := by
    rw [hcontent, List.length_append, hlen]
  -- no other description, and so no other call
  have hfile : ∀ i g, (Append.rounded s t c f n).file i = some g → g = { f with offset := f.offset + n } := by
    intro i g hg
    rcases of_update hg with ⟨-, hg⟩ | ⟨hi, hg⟩
    · exact hg
    · cases (halone i hi).symm.trans hg
  have hcall : ∀ t' c', (Append.rounded s t c f n).call t' = some c' →
      t' = t ∧ c' = { c with done := c.done + n } := by
    intro t' c' hc'
    rcases of_update hc' with hc' | ⟨ht, hc'⟩
    · exact hc'
    obtain ⟨g, hg, -⟩ := h.held t' c' hc'
    have hi : c'.file = c.file := by
      by_contra hi
      cases (halone _ hi).symm.trans hg
    exact absurd (h.one_call hc hc' hi) ht
  refine ⟨fun i g hg => ?_, fun t' c' hc' => ?_, fun t' c' hc' => ?_, fun a ha => ?_⟩
  · cases hfile i g hg
    rw [hlength, ← h.offsets _ f hf]
  · obtain ⟨rfl, rfl⟩ := hcall t' c' hc'
    obtain ⟨g, hg, hlock⟩ := h.held t' c hc
    rw [hf] at hg
    cases hg
    exact ⟨_, file_self _, hlock⟩
  · obtain ⟨rfl, rfl⟩ := hcall t' c' hc'
    have hle : n ≤ c.buf.length - c.done := by
      rw [c.chunk_length] at hn
      omega
    refine ⟨hoff, ?_, ?_, ?_⟩
    · dsimp only
      omega
    · dsimp only
      omega
    · dsimp only
      rw [hcontent, List.drop_append_of_le_length (by omega), hbytes, c.take_chunk hn]
  · obtain ⟨hstart, hkept⟩ := h.appended a ha
    refine ⟨hstart, ?_⟩
    have hin : a.bytes.length ≤ (s.content.drop a.size).length := by
      conv_lhs => rw [← hkept]
      exact List.length_take_le' _ _
    rw [hcontent]
    by_cases hsz : a.size ≤ s.content.length
    · rw [List.drop_append_of_le_length hsz, List.take_append_of_le_length hin, hkept]
    rw [List.length_drop] at hin
    have hnil : a.bytes = [] := List.eq_nil_of_length_eq_zero (by omega)
    rw [hnil]
    rfl

theorem good_closed (content : List Byte) : Good (closed content) where
  offsets _ _ hf := by cases hf
  held _ _ hc := by cases hc
  begun _ _ hc := by cases hc
  appended := by
    intro a ha
    cases ha

theorem Good.unlocked (h : Good s) (hf : s.file i = some f) (hl : f.lock = none) :
    ∀ t c, s.call t = some c → c.file ≠ i := by
  rintro t c hc rfl
  obtain ⟨g, hg, hlock⟩ := h.held t c hc
  rw [hf] at hg
  cases hg
  rw [hl] at hlock
  cases hlock

theorem Good.write (h : Good s) (hf : s.file i = some f) (hl : f.lock = none) (buf : List Byte) :
    Good ((s.setFile i (some { f with lock := some t })).setCall t
      (some ⟨i, buf, 0, f.offset, s.content.length⟩)) := by
  have hoff := h.offsets i f hf
  have hset := h.setFile (g := some { f with lock := some t }) (h.unlocked hf hl)
    fun g hg => by cases hg; exact hoff
  refine ⟨hset.offsets, fun t' c' hc' => ?_, fun t' c' hc' => ?_, hset.appended⟩
  · rcases of_update hc' with ⟨rfl, rfl⟩ | ⟨-, hc'⟩
    · exact ⟨_, file_self _, rfl⟩
    · exact hset.held t' c' hc'
  · rcases of_update hc' with ⟨rfl, rfl⟩ | ⟨-, hc'⟩
    · exact ⟨hoff, Nat.add_zero _, Nat.zero_le _, List.drop_length⟩
    · exact hset.begun t' c' hc'

end steps

theorem Good.step (h : Good s) (halone : Alone s e) (hs : Step s e s') : Good s' := by
  cases hs.moved with
  | opened hnone hflag =>
    refine h.setFile (fun t c hc hi => ?_) fun f hf => ?_
    · obtain ⟨f, hf, -⟩ := h.held t c hc
      rw [hi, hnone] at hf
      cases hf
    · cases hf
      exact if_pos hflag
  | closed hf hl => exact h.setFile (h.unlocked hf hl) fun f hf => by cases hf
  | began hf hl => exact h.write hf hl _
  | failed hc hf => exact h.finish hc hf
  | stored hc hf hn =>
    have hround := h.rounded hc hf (halone _ hc) hn
    rw [wrote_eq]
    split
    · exact hround.finish (call_self _) (file_self _)
    · exact hround
  | finished hc hf => exact h.finish hc hf

theorem append_atomic {content : List Byte} {l : List Move} {s : State}
    (h : Run AloneStep (closed content) l s) : Appended s := by
  have hgood : Good s := h.invariant (good_closed content) fun _ _ _ hg hs => hg.step hs.1 hs.2
  exact hgood.appended

def Only (i : Nat) (s : State) : Prop := ∀ j, j ≠ i → s.file j = none

theorem Only.setFile {f : Option File} (h : Only i s) (hj : f = none ∨ j = i) :
    Only i (s.setFile j f) := by
  intro k hk
  by_cases hkj : k = j
  · subst hkj
    rw [file_self]
    exact hj.resolve_right hk
  · rw [file_other _ hkj]
    exact h k hk

theorem Only.step (h : Only i s)
    (he : ∀ j flags, e = .open j flags → j = i) (hs : Step s e s') : Only i s' := by
  have hopen {j : Nat} {f : File} (hf : s.file j = some f) : j = i := by
    by_contra hj
    rw [h j hj] at hf
    cases hf
  have hfinish {t : Nat} {c : Call} {f g : File} (hf : s.file c.file = some f) :
      Only i (s.finish t c g) := by
    intro k hk
    rw [finish_file]
    exact h.setFile (.inr (hopen hf)) k hk
  cases hs.moved with
  | opened _ _ => exact h.setFile (.inr (he _ _ rfl))
  | closed _ _ => exact h.setFile (.inl rfl)
  | began hf _ => exact h.setFile (.inr (hopen hf))
  | failed _ hf => exact hfinish hf
  | stored _ hf _ =>
    intro k hk
    unfold wrote
    split
    · rw [finish_file]
      exact h.setFile (.inr (hopen hf)) k hk
    · exact h.setFile (.inr (hopen hf)) k hk
  | finished _ hf => exact hfinish hf

theorem alone_of_shared {content : List Byte} {l : List Move} (h : Run Step (closed content) l s)
    (hopen : ∀ e ∈ l, ∀ j flags, e = .open j flags → j = i) :
    Run AloneStep (closed content) l s ∧ Only i s := by
  induction h with
  | nil => exact ⟨.nil, fun _ _ => rfl⟩
  | @snoc s s' l e hrun hs ih =>
    obtain ⟨halone, honly⟩ := ih fun e he => hopen e (List.mem_append_left _ he)
    have hgood : Good s :=
      halone.invariant (good_closed content) fun _ _ _ hg hs => hg.step hs.1 hs.2
    have he := hopen e (List.mem_append_right _ List.mem_cons_self)
    refine ⟨halone.snoc ⟨?_, hs⟩, honly.step he hs⟩
    match e with
    | .chunk t (.wrote n) =>
      intro c hc j hj
      obtain ⟨f, hf, -⟩ := hgood.held t c hc
      have hfile : c.file = i := by
        by_contra hne
        rw [honly _ hne] at hf
        cases hf
      exact honly j (hfile ▸ hj)
    | .chunk _ .fault => trivial
    | .chunk _ .error => trivial
    | .open _ _ => trivial
    | .close _ => trivial
    | .write _ _ _ => trivial
    | .finish _ => trivial

-- Two tasks that share a description, as after a fork.
def sharedMoves : List Move :=
  [.open 0 0o2001, .write 7 0 [1, 2], .chunk 7 (.wrote 2), .finish 7, .write 8 0 [3],
    .chunk 8 (.wrote 1), .finish 8]

theorem append_atomic_shared : ∃ s, Run AloneStep (closed [9]) sharedMoves s ∧
    s.content = [9, 1, 2, 3] ∧ s.log.length = 2 ∧ Appended s := by
  obtain ⟨s, hs, hcontent, hlog⟩ : ∃ s, sharedMoves.foldlM step (closed [9]) = some s ∧
      s.content = [9, 1, 2, 3] ∧ s.log.length = 2 := ⟨_, rfl, rfl, rfl⟩
  have hrun : Run AloneStep (closed [9]) sharedMoves s := by
    refine (alone_of_shared (i := 0) (Run.of_foldlM hs) ?_).1
    simp [sharedMoves]
  exact ⟨s, hrun, hcontent, hlog, append_atomic hrun⟩

-- Two tasks that have opened the file each: the second write hits the bytes of the first one.
def twiceMoves : List Move :=
  [.open 0 0o2001, .open 1 0o2001, .write 7 0 [1], .chunk 7 (.wrote 1), .finish 7, .write 8 1 [2],
    .chunk 8 (.wrote 1), .finish 8]

theorem append_overwrites : ∃ s, Run Step (closed []) twiceMoves s ∧ s.content = [2] ∧
    s.log.map (fun a => (a.offset, a.size, a.bytes)) = [(0, 0, [1]), (0, 1, [2])] ∧ ¬ Appended s := by
  obtain ⟨s, hs, hcontent, hlog⟩ : ∃ s, twiceMoves.foldlM step (closed []) = some s ∧
      s.content = [2] ∧ s.log = [⟨0, 0, [1]⟩, ⟨0, 1, [2]⟩] := ⟨_, rfl, rfl, rfl⟩
  refine ⟨s, Run.of_foldlM hs, hcontent, by rw [hlog]; rfl, fun h => ?_⟩
  have hsecond := (h ⟨0, 1, [2]⟩ (by rw [hlog]; simp)).1
  cases hsecond

end Jnu.User.Append
