import Jnu.Minix.Reads
import Jnu.Vfs.MountTable

namespace Jnu.Vfs.Names

open Lib.Effect Lib.Trace
open Minix (Name nameLen)
open Function

variable {d i t : Nat} {name : Name} {s : Fs} {E : Errno → Fs → Prop}

-- A `sys_open` with O_CREAT: before `vfs_open`, before `vfs_create`, and behind them.
inductive Opening
  | start
  | missing
  | done (r : Except Errno Nat)

def Opening.next (d : Nat) (name : Name) : Opening → FsM Opening
  | .start => do
      match ← (minixLookup d name).attempt with
      | .error .enoent => return .missing
      | r => return .done r
  | .missing => do
      let r ← (minixCreate d name 0o666).attempt
      return .done r
  | .done r => return .done r

-- Tasks that open one name in the directory `d`.
structure Opens where
  fs : Fs
  stage : Nat → Opening

def Opens.Step (d : Nat) (name : Name) (s : Opens) (t : Nat) (s' : Opens) : Prop :=
  ∃ g fs, ((s.stage t).next d name).run s.fs = some (.ok (.ok g, fs)) ∧ s' = ⟨fs, update s.stage t g⟩

-- No other task is between its lookup and its creation.
def Opens.Calm (s : Opens) (t : Nat) : Prop := ∀ u, u ≠ t → s.stage u ≠ .missing

def Opens.CalmStep (d : Nat) (name : Name) (s : Opens) (t : Nat) (s' : Opens) : Prop :=
  s.Calm t ∧ s.Step d name t s'

-- Every call below succeeds, and the directory is in use.
def Fs.Ready (d : Nat) (s : Fs) : Prop := (∀ k, s.env k = none) ∧ s.isDir d = true ∧ s.imap d = true

-- The name can be created and is not there, and there is an inode for it.
def Fs.Vacant (d : Nat) (name : Name) (s : Fs) : Prop :=
  s.Ready d ∧ minixNameValid name = true ∧ name.length ≤ nameLen ∧ s.freeInode ≠ none ∧
    ∀ e ∈ s.entries d, e.inode ≠ 0 → e.name ≠ name

def Fs.found (s : Fs) (d : Nat) (name : Name) : Option Entry :=
  (s.entries d).find? fun e => s.listed e && e.name == name

theorem wp_below {Q : Unit → Fs → Prop} (h : ∀ k, s.env k = none)
    (hQ : Q () { s with clock := s.clock + 1 }) : wp below Q E s := by
  refine wp_bind_read (wp_bind_write ?_)
  dsimp only [id]
  rw [h]
  exact wp_pure hQ

theorem wp_lookup {Q : Except Errno Nat → Fs → Prop} (h : s.Ready d)
    (hQ : Q ((s.found d name).elim (.error .enoent) fun e => .ok e.inode) { s with clock := s.clock + 1 }) :
    wp (minixLookup d name).attempt Q E s := by
  refine wp_attempt (wp_bind_read ?_)
  rw [id, if_neg (by simp [h.2.1])]
  refine wp_bind (wp_below h.1 ?_)
  unfold Fs.found at hQ
  cases hf : (s.entries d).find? fun e => s.listed e && e.name == name with
  | none => exact wp_error (by rwa [hf] at hQ)
  | some e => exact wp_pure (by rwa [hf] at hQ)

section volume

variable {o : Nat} {v : Minix.Fs} {nd : Minix.Node}

-- The entries of the directory are those that the node `nd` has in the blocks of the volume `v`.
structure Fs.Shows (s : Fs) (d : Nat) (v : Minix.Fs) (nd : Minix.Node) : Prop where
  ninodes : s.ninodes = v.sb.ninodes
  isDir : s.isDir d = nd.isDir
  entries : s.entries d = (Minix.dirSlots v.sb v.block nd.raw).map fun p => ⟨p.2.inode, p.2.text⟩

theorem Fs.Shows.found (h : s.Shows d v nd) : s.found d name =
    (Minix.listedOf v.sb v.block nd.raw name).map fun p => ⟨p.2.inode, p.2.text⟩ := by
  unfold Fs.found Fs.listed Minix.listedOf Minix.listed
  rw [h.entries, List.find?_map, h.ninodes]
  rfl

-- `minix_lookup` on the blocks finds the inode that it finds in the entries, unless that cannot be loaded.
theorem Fs.Shows.lookup (h : s.Shows d v nd) (hs : s.Ready d) (hv : Minix.Readable v)
    (hn : v.node o = some nd) (hsize : nd.raw.size.toNat ≤ 2 ^ 32 - Minix.blockSize)
    (hname : name ≠ Minix.dot) :
    wp (minixLookup d name).attempt (fun r _ => wp (Minix.minixLookup o name)
      (fun o' v' => ∃ nd', v'.node o' = some nd' ∧ r = .ok nd'.ino)
      (fun e _ => r = .error e ∨ ∃ ino, r = .ok ino ∧
        (¬ v.Plenty ∨ v.nblocks ≤ Minix.inodeBlock v.sb ino)) v) never s := by
  apply wp_lookup hs
  rw [h.found]
  refine (Minix.wpOr_minixLookup (D := False) hv hn hname (by omega) ?_ ?_ ?_ ?_).resolve_left And.left
  · intro p v' _ hp hm
    exact ⟨_, hm.node, by rw [hp]; rfl⟩
  · intro hfile
    cases (h.isDir.trans hfile).symm.trans hs.2.1
  · intro c _ hp
    exact .inl (by rw [hp]; rfl)
  · intro p e c hp hfail
    exact .inr ⟨_, by rw [hp]; rfl, hfail⟩

end volume

theorem find_put {es : List Entry} {p : Entry → Bool} {e : Entry} (he : p e = true)
    (hp : es.find? p = none) : (if i < es.length then es.set i e else es ++ [e]).find? p = some e := by
  by_cases hi : i < es.length
  · rw [if_pos hi]
    cases hf : (es.set i e).find? p with
    | none => exact absurd he (List.find?_eq_none.1 hf e (List.mem_set hi e))
    | some x =>
      rcases List.mem_or_eq_of_mem_set (List.mem_of_find?_eq_some hf) with hx | rfl
      · exact absurd (List.find?_some hf) (List.find?_eq_none.1 hp x hx)
      · rfl
  · rw [if_neg hi, List.find?_append, hp]
    simp [he]

theorem Fs.Vacant.found (h : s.Vacant d name) : s.found d name = none := by
  apply List.find?_eq_none.2
  intro e he
  simpa [Fs.listed] using fun h0 _ => h.2.2.2.2 e he h0

theorem wp_create (h : s.Vacant d name) :
    wp (minixCreate d name 0o666) (fun i s' => s'.Ready d ∧ s.imap i = false ∧ s'.imap = update s.imap i true ∧
      s'.found d name = some ⟨i, name⟩) never s := by
  have hnone := h.found
  obtain ⟨⟨henv, hdir, hused⟩, hvalid, hshort, hroom, habs⟩ := h
  obtain ⟨ino, hfree⟩ := Option.ne_none_iff_exists'.1 hroom
  have hclear : s.imap ino = false := by simpa using List.find?_some hfree
  have hino := List.mem_range'_1.1 (List.mem_of_find?_eq_some hfree)
  have hne : d ≠ ino := by
    rintro rfl
    cases hclear.symm.trans hused
  have hmiss : findEntry name (s.entries d) = none := by
    apply List.findSome?_eq_none_iff.2
    rintro ⟨e, i⟩ he
    exact if_neg fun hc => habs e (List.fst_mem_of_mem_zipIdx he) hc.1 hc.2
  refine wp_bind_read ?_
  rw [id, if_neg (by simp [hdir])]
  refine wp_bind (wp_bind_attempt (wp_below henv (wp_bind_read ?_)))
  rw [show Fs.freeInode { s with clock := s.clock + 1 } = some ino from hfree]
  refine wp_bind_write (wp_pure ?_)
  rw [if_neg (by omega)]
  refine wp_bind_attempt (wp_bind (wp_below henv (wp_write (wp_bind_write (wp_bind_attempt ?_)))))
  unfold minixAddDirent
  rw [if_neg (by simp [hvalid]), if_neg (by omega)]
  refine wp_bind_attempt (wp_bind_attempt (wp_below henv (wp_bind_read ?_)))
  dsimp only
  rw [update_of_ne hne, hmiss]
  refine wp_error (wp_bind_read (wp_bind (wp_below henv (wp_bind_read (wp_write ?_)))))
  refine wp_bind (wp_below henv (wp_pure ⟨⟨henv, ?_, ?_⟩, hclear, rfl, ?_⟩))
  · exact (update_of_ne hne ..).trans hdir
  · exact (update_of_ne hne ..).trans hused
  dsimp only [Fs.found]
  rw [update_self]
  apply find_put
  · simp [Fs.listed]
    omega
  · exact (congrArg _ (update_of_ne hne ..)).trans hnone

-- Nobody has created the file, or it is what every call returns.
def Opens.Good (d : Nat) (name : Name) (imap : Nat → Bool) (s : Opens) : Prop :=
  (s.fs.Vacant d name ∧ s.fs.imap = imap ∧ ∀ t r, s.stage t ≠ .done r) ∨
  ∃ ino, s.fs.Ready d ∧ imap ino = false ∧ s.fs.imap = update imap ino true ∧
    s.fs.found d name = some ⟨ino, name⟩ ∧ ∀ t, s.stage t = .start ∨ s.stage t = .done (.ok ino)

theorem Opens.Good.next {s : Opens} {imap : Nat → Bool} (h : s.Good d name imap) (hc : s.Calm t) :
    wp ((s.stage t).next d name) (fun g fs => Opens.Good d name imap ⟨fs, update s.stage t g⟩)
      never s.fs := by
  rcases h with ⟨hv, rfl, hnone⟩ | ⟨ino, hr, hfree, himap, hf, hst⟩
  · cases ht : s.stage t with
    | start =>
      refine wp_bind (wp_lookup hv.1 ?_)
      rw [hv.found]
      refine wp_pure (.inl ⟨hv, rfl, fun u r => ?_⟩)
      rcases eq_or_ne u t with rfl | hu
      · simp
      · simpa [hu] using hnone u r
    | missing =>
      refine wp_bind_attempt ((wp_create hv).mono (fun i fs hi => wp_pure (.inr ⟨i, hi.1, hi.2.1, hi.2.2.1,
        hi.2.2.2, fun u => ?_⟩)) fun _ _ => False.elim)
      rcases eq_or_ne u t with rfl | hu
      · simp
      · cases hs : s.stage u with
        | start => simp [hu, hs]
        | missing => exact absurd hs (hc u hu)
        | done r => exact absurd hs (hnone u r)
    | done r => exact absurd ht (hnone t r)
  · have hend : ∀ c, Opens.Good d name imap ⟨{ s.fs with clock := c }, update s.stage t (.done (.ok ino))⟩ := by
      refine fun c => .inr ⟨ino, hr, hfree, himap, hf, fun u => ?_⟩
      rcases eq_or_ne u t with rfl | hu
      · simp
      · simpa [hu] using hst u
    rcases hst t with ht | ht
    · rw [ht]
      refine wp_bind (wp_lookup hr ?_)
      rw [hf]
      exact wp_pure (hend _)
    · rw [ht]
      exact wp_pure (hend _)

-- If no task goes on between the lookup and the creation of another one, every call can go on, and all of
-- them return the one inode that was free.
theorem open_creates_once {s₀ s : Opens} {l : List Nat} (h₀ : s₀.fs.Vacant d name)
    (hs : ∀ t, s₀.stage t = .start) (hrun : Run (Opens.CalmStep d name) s₀ l s) :
    (∃ ino, ∀ t r, s.stage t = .done r → r = .ok ino ∧ s₀.fs.imap ino = false ∧
      s.fs.imap = update s₀.fs.imap ino true) ∧ ∀ t, s.Calm t → ∃ s', s.Step d name t s' := by
  have hg : s.Good d name s₀.fs.imap := by
    refine hrun.invariant (.inl ⟨h₀, rfl, by simp [hs]⟩) ?_
    rintro u t _ hu ⟨hc, g, fs, hr, rfl⟩
    exact (hu.next hc).of_ok hr
  constructor
  · rcases hg with ⟨-, -, hnone⟩ | ⟨ino, -, hfree, himap, -, hst⟩
    · exact ⟨0, fun t r ht => absurd ht (hnone t r)⟩
    · refine ⟨ino, fun t r ht => ⟨?_, hfree, himap⟩⟩
      rcases hst t with hst | hst
      · cases ht.symm.trans hst
      · cases ht.symm.trans hst
        rfl
  · intro t hc
    obtain ⟨g, fs, hr, -⟩ := (hg.next hc).exists_ok
    exact ⟨_, g, fs, hr, rfl⟩

-- The file "m" in the root of a volume that has no files.
def creating : Opens := ⟨emptyVolume, fun _ => .start⟩

-- Task 0 creates the file and task 1 opens it.
theorem open_creates_once_shared : ∃ s, Run (Opens.CalmStep 1 [0x6d]) creating [0, 0, 1] s ∧
    s.stage 0 = .done (.ok 2) ∧ s.stage 1 = .done (.ok 2) ∧
    s.fs.imap = update emptyVolume.imap 2 true := by
  have hv : creating.fs.Vacant 1 [0x6d] :=
      ⟨⟨fun _ => rfl, rfl, rfl⟩, by decide, by decide, by decide, by decide⟩
  obtain ⟨s1, s2, s, h1, h2, h3, hs1, hs2, hs, hs'⟩ : ∃ s1 s2 s, creating.Step 1 [0x6d] 0 s1 ∧
      s1.Step 1 [0x6d] 0 s2 ∧ s2.Step 1 [0x6d] 1 s ∧ s1.stage = update creating.stage 0 .missing ∧
      s2.stage = update s1.stage 0 (.done (.ok 2)) ∧ s.stage 0 = .done (.ok 2) ∧ s.stage 1 = .done (.ok 2) :=
    ⟨_, _, _, ⟨_, _, rfl, rfl⟩, ⟨_, _, rfl, rfl⟩, ⟨_, _, rfl, rfl⟩, rfl, rfl, rfl, rfl⟩
  have hrun : Run (Opens.CalmStep 1 [0x6d]) creating [0, 0, 1] s := by
    refine .cons ⟨fun u _ => nofun, h1⟩ (.cons ⟨fun u hu => ?_, h2⟩ (.one ⟨fun u _ => ?_, h3⟩))
    · rw [hs1, update_of_ne hu]
      nofun
    · rw [hs2, hs1, update_idem]
      by_cases hu : u = 0
      · simp [hu]
      · rw [update_of_ne hu]
        nofun
  obtain ⟨ino, hino⟩ := (open_creates_once hv (fun _ => rfl) hrun).1
  obtain ⟨he, -, himap⟩ := hino 1 _ hs'
  cases he
  exact ⟨s, hrun, hs, hs', himap⟩

-- Both tasks find nothing, and the second one to create the file is refused.
theorem create_refused : ∃ s, Run (Opens.Step 1 [0x6d]) creating [0, 1, 0, 1] s ∧
    s.stage 1 = .done (.error .eexist) :=
  ⟨_, .cons ⟨_, _, rfl, rfl⟩ (.cons ⟨_, _, rfl, rfl⟩ (.cons ⟨_, _, rfl, rfl⟩ (.one ⟨_, _, rfl, rfl⟩))), rfl⟩

end Jnu.Vfs.Names
