import Jnu.Vfs.MountTable

namespace Jnu.Vfs.Names

open Lib.Bytes Lib.Effect Lib.Trace
open Minix (Name slash)
open Function

variable {v w : State}

-- What `vfs_open` finds for the path without its last component, if it is a directory, with this
-- component. A path that `normalize_path` refuses is refused as such.
def State.dirOf (v : State) (path : List Byte) : Except Errno (Inode × Name) :=
  (v.walkStart path).bind fun p =>
    match (components path).getLast? with
    | none => .error .einval
    | some name =>
      ((components path).dropLast.foldlM normalizeStep []).bind fun out =>
        (v.openLoop out.reverse p.2).bind fun dir => if dir.isDir then .ok (dir, name) else .error .enotdir

-- The last component is a name in a directory.
def EndsInName (path : List Byte) : Prop :=
  ∀ name, (components path).getLast? = some name → name ≠ Minix.dot ∧ name ≠ Minix.dotdot

-- The same by the components that are left of the path.
def State.dirLoop (v : State) (comps : List Name) (cur : Inode) : Except Errno (Inode × Name) :=
  match comps.getLast? with
  | none => .error .einval
  | some name => (v.openLoop comps.dropLast cur).bind fun dir =>
    if dir.isDir then .ok (dir, name) else .error .enotdir

-- The directories on the way to the last name have an execute bit, and what the last name is looked
-- for in is a directory.
def State.SearchableFrom (v : State) : List Name → Inode → Prop
  | [], _ => True
  | [_], cur => cur.isDir = true
  | comp :: comp' :: rest, cur => cur.isDir = true → cur.executable = true ∧
      ∀ next, v.walkStep cur comp = .ok next → v.SearchableFrom (comp' :: rest) next

def State.Searchable (v : State) (path : List Byte) : Prop :=
  ∀ comps cur, v.walkStart path = .ok (comps, cur) → v.SearchableFrom comps cur

section walk

variable {cur : Inode} {comps : List Name}

theorem opsLookup_error {name : Name} {e : Errno} (h : v.opsLookup cur name = .error e) :
    e = .enotdir ∨ e = .enoent := by
  unfold State.opsLookup at h
  split at h
  · cases h
    exact .inl rfl
  · split at h <;> split at h <;> cases h <;> exact .inr rfl

theorem parentLoop_cons {comp comp' : Name} {rest : List Name} :
    v.parentLoop (comp :: comp' :: rest) cur =
      if ¬ cur.isDir then .error .enotdir
      else (v.walkStep cur comp).bind (v.parentLoop (comp' :: rest)) :=
  State.parentLoop.eq_3 v cur comp (comp' :: rest) nofun

theorem parentLoop_error : v.parentLoop comps cur ≠ .error .eacces := by
  induction comps generalizing cur with
  | nil => exact nofun
  | cons comp rest ih =>
    cases rest with
    | nil =>
      unfold State.parentLoop
      split <;> exact nofun
    | cons comp' rest =>
      rw [parentLoop_cons]
      split
      · exact nofun
      unfold State.walkStep
      cases hl : v.opsLookup cur comp with
      | error e =>
        intro h
        rcases opsLookup_error hl with rfl | rfl <;> cases h
      | ok next => exact ih

theorem dirLoop_cons {comp comp' : Name} {rest : List Name} :
    v.dirLoop (comp :: comp' :: rest) cur =
      if ¬ cur.isDir then .error .enotdir
      else if ¬ cur.executable then .error .eacces
      else (v.walkStep cur comp).bind (v.dirLoop (comp' :: rest)) := by
  unfold State.dirLoop
  rw [List.getLast?_cons_cons, List.dropLast_cons_cons, State.openLoop]
  split_ifs
  · cases v.walkStep cur comp <;> rfl
  · rfl
  · rfl

theorem parentLoop_eq_dirLoop (hlen : ∀ c ∈ comps, c.length < vfsNameMax) :
    v.parentLoop comps cur = v.dirLoop comps cur ↔ v.SearchableFrom comps cur := by
  fun_induction State.SearchableFrom v comps cur with
  | case1 => exact iff_true_intro rfl
  | case2 comp cur =>
    rw [State.parentLoop, if_neg (Nat.not_le.2 (hlen comp List.mem_cons_self))]
    simp [State.dirLoop, State.openLoop, Except.bind]
  | case3 comp comp' rest cur ih =>
    have hdir := @dirLoop_cons v cur comp comp' rest
    by_cases hd : cur.isDir
    · by_cases he : cur.executable
      · rw [if_neg (not_not.2 hd), if_neg (not_not.2 he)] at hdir
        rw [hdir, parentLoop_cons, if_neg (not_not.2 hd)]
        cases hw : v.walkStep cur comp with
        | error e => simp [Except.bind, he]
        | ok next =>
          simpa [Except.bind, hd, he] using ih next fun c hc => hlen c (List.mem_cons_of_mem _ hc)
      · rw [hdir]
        simpa [hd, he] using parentLoop_error
    · rw [hdir, parentLoop_cons, if_pos hd]
      simp [hd]

theorem dirLoop_cases (comps : List Name) (cur : Inode) : v.SearchableFrom comps cur ∨
    v.dirLoop comps cur = .error .enotdir ∨ v.dirLoop comps cur = .error .eacces := by
  fun_induction State.SearchableFrom v comps cur with
  | case1 => exact .inl trivial
  | case2 comp cur =>
    by_cases hd : cur.isDir
    · exact .inl hd
    · exact .inr (.inl (by simp [State.dirLoop, State.openLoop, Except.bind, hd]))
  | case3 comp comp' rest cur ih =>
    by_cases hd : cur.isDir
    · rw [dirLoop_cons, if_neg (not_not.2 hd)]
      by_cases he : cur.executable
      · rw [if_neg (not_not.2 he)]
        cases hw : v.walkStep cur comp with
        | error e => exact .inl fun _ => ⟨he, nofun⟩
        | ok next =>
          refine (ih next).imp (fun h _ => ⟨he, ?_⟩) id
          rintro _ ⟨⟩
          exact h
      · exact .inr (.inr (if_pos he))
    · exact .inl fun h => absurd h hd

theorem normalizeStep_length (path : List Name) {out out' : List Name} (ho : ∀ c ∈ out, c.length < vfsNameMax)
    (h : path.foldlM normalizeStep out = .ok out') : ∀ c ∈ out', c.length < vfsNameMax := by
  induction path generalizing out with
  | nil =>
    cases h
    exact ho
  | cons comp rest ih =>
    rw [List.foldlM_cons] at h
    cases hn : normalizeStep out comp with
    | error e =>
      rw [hn] at h
      cases h
    | ok next =>
      rw [hn] at h
      refine ih ?_ h
      unfold normalizeStep at hn
      split_ifs at hn with hlen
      · cases hn
        exact ho
      · cases hn
        exact fun c hc => ho c (List.mem_of_mem_tail hc)
      · cases hn
        exact List.forall_mem_cons.2 ⟨Nat.not_le.1 hlen, ho⟩

theorem normalizePath_length {path : List Byte} (h : normalizePath path = .ok comps) :
    ∀ c ∈ comps, c.length < vfsNameMax := by
  unfold normalizePath at h
  split at h
  · cases h
  cases hf : (components path).foldlM normalizeStep [] with
  | error e =>
    rw [hf] at h
    cases h
  | ok out =>
    rw [hf] at h
    cases h
    intro c hc
    exact normalizeStep_length (components path) (List.forall_mem_nil _) hf c (List.mem_reverse.1 hc)

-- Its dirname is the normal form of the path without the last component.
theorem dirOf_eq {path : List Byte} (hn : EndsInName path) :
    v.dirOf path = (v.walkStart path).bind fun p => v.dirLoop p.1 p.2 := by
  unfold State.dirOf State.walkStart
  cases v.mount 0 with
  | none => rfl
  | some mp =>
    dsimp only
    cases hnorm : normalizePath path with
    | error e => rfl
    | ok comps =>
      unfold normalizePath at hnorm
      split at hnorm
      · cases hnorm
      change _ = v.dirLoop comps _
      unfold State.dirLoop
      rcases List.eq_nil_or_concat' (components path) with hc | ⟨init, name, hc⟩
      · rw [hc] at hnorm ⊢
        cases hnorm
        rfl
      · obtain ⟨hdot, hdotdot⟩ := hn name (by rw [hc, List.getLast?_concat])
        rw [hc, List.foldlM_append] at hnorm
        rw [hc, List.getLast?_concat, List.dropLast_concat]
        dsimp only [Except.bind]
        cases hinit : init.foldlM normalizeStep [] with
        | error e =>
          rw [hinit] at hnorm
          cases hnorm
        | ok out =>
          rw [hinit] at hnorm
          change Except.map List.reverse (normalizeStep out name >>= pure) = _ at hnorm
          rw [bind_pure, normalizeStep] at hnorm
          split_ifs at hnorm <;> cases hnorm
          rw [List.reverse_cons, List.getLast?_concat, List.dropLast_concat]

theorem parentOf_eq_dirOf {path : List Byte} (hn : EndsInName path) :
    v.parentOf path = v.dirOf path ↔ v.Searchable path := by
  rw [dirOf_eq hn]
  unfold State.parentOf State.Searchable
  cases hs : v.walkStart path with
  | error e => simp [Except.bind]
  | ok p =>
    obtain ⟨comps, cur⟩ := p
    have hlen : ∀ c ∈ comps, c.length < vfsNameMax := by
      unfold State.walkStart at hs
      split at hs
      · cases hs
      split at hs
      · cases hs
      · next h =>
          cases hs
          exact normalizePath_length h
    simpa [Except.bind] using parentLoop_eq_dirLoop hlen

theorem dirOf_cases {path : List Byte} (hn : EndsInName path) : v.Searchable path ∨
    ∃ e, v.dirOf path = .error e ∧ (e = .enotdir ∨ e = .eacces) := by
  rw [dirOf_eq hn]
  unfold State.Searchable
  cases v.walkStart path with
  | error e => exact .inl nofun
  | ok p =>
    rcases dirLoop_cases (v := v) p.1 p.2 with h | h | h
    · refine .inl ?_
      rintro _ _ ⟨⟩
      exact h
    · exact .inr ⟨_, h, .inl rfl⟩
    · exact .inr ⟨_, h, .inr rfl⟩

end walk

section calls

variable {path : List Byte} {m : Move}

-- `vfs_parent` as the calls may rely on it.
def vfsDir (path : List Byte) : VfsM (Inode × Name) := do
  let r ← Prog.read fun v => v.dirOf path
  onDevice 0 below
  ofExcept r

def Move.byOpen : Move → VfsM Unit
  | .create path mode => do
      let (dir, name) ← vfsDir path
      let _ ← onDirectory dir (minixCreate dir.ino name mode)
  | .unlink path => do
      let (dir, name) ← vfsDir path
      onDirectory dir (minixUnlink dir.ino name)
  | .mkdir path mode => do
      let (dir, name) ← vfsDir path
      onDirectory dir (minixMkdir dir.ino name mode)
  | .rmdir path => do
      let (dir, name) ← vfsDir path
      onDirectory dir (minixRmdir dir.ino name)
  | .rename oldPath newPath => do
      let r ← Prog.read fun v => v.dirOf newPath
      let (old, oldName) ← vfsDir oldPath
      onDevice 0 below
      let (new, newName) ← ofExcept r
      if old.mnt ≠ new.mnt then Prog.error .exdev
      else onDirectory old (minixRename old.ino oldName new.ino newName)
  | mv => mv.exec

def Move.paths : Move → List (List Byte)
  | .create path _ => [path]
  | .unlink path => [path]
  | .mkdir path _ => [path]
  | .rmdir path => [path]
  | .rename old new => [old, new]
  | _ => []

-- The same volumes, whatever the devices below do.
def State.withEnv (v : State) (env : Nat → Nat → Option Errno) : State :=
  { v with fs := fun b => { v.fs b with env := env b } }

section environment

variable {env : Nat → Nat → Option Errno}

theorem withEnv_searchableFrom {comps : List Name} {cur : Inode} :
    (v.withEnv env).SearchableFrom comps cur ↔ v.SearchableFrom comps cur := by
  have hstep : ∀ cur comp, (v.withEnv env).walkStep cur comp = v.walkStep cur comp := fun _ _ => rfl
  fun_induction State.SearchableFrom v comps cur with
  | case1 => rfl
  | case2 => rfl
  | case3 comp comp' rest cur ih =>
    rw [State.SearchableFrom]
    simp only [hstep, ih]

theorem withEnv_searchable {path : List Byte} : (v.withEnv env).Searchable path ↔ v.Searchable path := by
  have hstart : (v.withEnv env).walkStart path = v.walkStart path := by
    unfold State.walkStart
    rfl
  unfold State.Searchable
  simp only [hstart, withEnv_searchableFrom]

end environment

theorem run_vfsDir (hn : EndsInName path) (h : v.Searchable path) :
    (vfsParent path).run v = (vfsDir path).run v := by
  unfold vfsParent vfsDir
  rw [run_bind, run_bind, run_read, run_read, (parentOf_eq_dirOf hn).2 h]

theorem run_byOpen (h : ∀ path ∈ m.paths, EndsInName path ∧ v.Searchable path) :
    m.exec.run v = m.byOpen.run v := by
  have hone : ∀ {path : List Byte} (f : Inode × Name → VfsM Unit), path ∈ m.paths →
      (vfsParent path >>= f).run v = (vfsDir path >>= f).run v := by
    intro path f hp
    rw [run_bind, run_bind, run_vfsDir (h path hp).1 (h path hp).2]
  cases m with
  | create path mode =>
    rw [Move.exec, vfsCreate, Move.byOpen, bind_assoc]
    exact hone _ List.mem_cons_self
  | unlink path => exact hone _ List.mem_cons_self
  | mkdir path mode => exact hone _ List.mem_cons_self
  | rmdir path => exact hone _ List.mem_cons_self
  | rename old new =>
    rw [Move.exec, vfsRename, Move.byOpen, run_bind, run_bind, run_read, run_read]
    obtain ⟨hn, hs⟩ := h new (by simp [Move.paths])
    rw [(parentOf_eq_dirOf hn).2 hs]
    exact hone _ List.mem_cons_self
  | mount dev fstype path => rfl
  | write b ino es => rfl
  | lose b d n => rfl

theorem wp_vfsDir : wp (vfsDir path) (fun r w => v.dirOf path = .ok r ∧ v.Ticked w)
    (fun e w => (v.dirOf path = .error e ∨ ∃ k, (v.fs 0).env k = some e) ∧ v.Ticked w) v := by
  refine wp_bind (wp_read (wp_bind (wp_tick.mono (fun _ w hw => ?_) fun e w hw => ⟨.inr ⟨_, hw.1⟩, hw.2⟩)))
  subst hw
  cases hr : v.dirOf path with
  | error e => exact wp_error ⟨.inl rfl, ticked_clock⟩
  | ok r => exact wp_pure ⟨rfl, ticked_clock⟩

-- The devices fail after the walk.
def lateFailure (v : State) (b k : Nat) : Option Errno :=
  if b = 0 ∧ k = (v.fs 0).clock then none else some .eio

theorem minixUnlink_fails {s : Fs} {d : Nat} {name : Name} (h : s.env s.clock = some .eio) :
    wlp (minixUnlink d name) never (fun e _ => e = .eio) s := by
  refine wlp_bind (wlp_bind (wlp_attempt (wlp_bind (wlp_read (wlp_bind (wlp_write ?_))))))
  simp only [id, h]
  exact wlp_error (wlp_error rfl)

theorem unlink_searchable (hn : EndsInName path) (hwalk : (onDevice 0 below).run v = done () w)
    (hfail : ∀ b, (w.fs b).env (w.fs b).clock = some .eio)
    (h : (Move.unlink path).exec.run v = (Move.unlink path).byOpen.run v) : v.Searchable path := by
  have hparent : (vfsParent path).run v = (ofExcept (v.parentOf path)).run w := by
    rw [vfsParent, run_bind_ok (run_read _ _), run_bind_ok hwalk]
  have hdir : (vfsDir path).run v = (ofExcept (v.dirOf path)).run w := by
    rw [vfsDir, run_bind_ok (run_read _ _), run_bind_ok hwalk]
  rw [Move.exec, vfsUnlink, Move.byOpen, run_bind, run_bind, hparent, hdir] at h
  rcases dirOf_cases (v := v) hn with hs | ⟨e, he, hne⟩
  · exact hs
  rw [he] at h
  cases hp : v.parentOf path with
  | error e' =>
    rw [hp] at h
    cases h
    exact (parentOf_eq_dirOf hn).1 (hp.trans he.symm)
  | ok r =>
    rw [hp] at h
    have hw : wlp (onDirectory r.1 (minixUnlink r.1.ino r.2)) never
        (fun e _ => e = .eio ∨ e = .enosys) w :=
      wlp_onDirectory (fun _ => (minixUnlink_fails (hfail _)).mono (fun _ _ h => h) fun _ _ => .inl) (.inr rfl)
    rcases hw.2 _ _ h with rfl | rfl <;> simp at hne

theorem searchable_of_unlink (hn : EndsInName path)
    (h : (Move.unlink path).exec.run (v.withEnv (lateFailure v)) =
      (Move.unlink path).byOpen.run (v.withEnv (lateFailure v))) : v.Searchable path := by
  have hquiet : lateFailure v 0 (v.fs 0).clock = none := if_pos ⟨rfl, rfl⟩
  obtain ⟨_, w, hwalk, rfl⟩ := (wp_tick (v := v.withEnv (lateFailure v)) (b := 0)).resolve_right
    fun ⟨_, _, _, he, _⟩ => by cases hquiet.symm.trans he
  refine (@withEnv_searchable v (lateFailure v) path).1 (unlink_searchable hn hwalk (fun b => ?_) h)
  by_cases hb : b = 0
  · subst hb
    exact if_neg fun hk => Nat.succ_ne_self _ hk.2
  · dsimp only [State.setFs]
    rw [update_of_ne hb]
    exact if_neg fun hk => hb hk.1

-- The move returns the error of one of its walks, or that of a device, and changes nothing.
def Move.Refused (v : State) (m : Move) (e : Errno) (w : State) : Prop :=
  ((∃ path ∈ m.paths, v.dirOf path = .error e) ∨ ∃ k, (v.fs 0).env k = some e) ∧ v.Ticked w

theorem wp_refused {f : Inode × Name → VfsM Unit} (hp : path ∈ m.paths)
    (hf : ∀ r u, v.dirOf path = .ok r → v.Ticked u → wp (f r) never (m.Refused v) u) :
    wp (vfsDir path >>= f) never (m.Refused v) v := by
  refine wp_bind (wp_vfsDir.mono (fun r u hu => hf r u hu.1 hu.2) fun e u hu => ⟨?_, hu.2⟩)
  exact hu.1.imp_left fun he => ⟨path, hp, he⟩

theorem byOpen_refused {e : Errno} (hp : path ∈ m.paths)
    (he : v.dirOf path = .error e) : wp m.byOpen never (m.Refused v) v := by
  have hone : ∀ {p} {f : Inode × Name → VfsM Unit}, m.paths = [p] → wp (vfsDir p >>= f) never
      (m.Refused v) v := by
    intro p f hm
    rw [hm] at hp
    cases List.mem_singleton.1 hp
    refine wp_refused (hm ▸ hp) fun r u hr _ => ?_
    cases he.symm.trans hr
  cases m with
  | create path mode => exact hone rfl
  | unlink path => exact hone rfl
  | mkdir path mode => exact hone rfl
  | rmdir path => exact hone rfl
  | rename old new =>
    refine wp_bind (wp_read (wp_refused List.mem_cons_self fun r u hr hu => ?_))
    refine wp_bind (wp_tick.mono (fun _ u' hu' => ?_) fun e' u' hu' => ⟨.inr ?_, hu.trans hu'.2⟩)
    · subst hu'
      cases hn : v.dirOf new with
      | error e' => exact wp_bind (wp_error ⟨.inl ⟨new, by simp [Move.paths], hn⟩, hu.trans ticked_clock⟩)
      | ok r' =>
        rcases (by simpa [Move.paths] using hp : path = old ∨ path = new) with rfl | rfl
        · cases he.symm.trans hr
        · cases he.symm.trans hn
    · obtain ⟨c, hc⟩ := hu.fs 0
      rw [hc] at hu'
      exact ⟨_, hu'.1⟩
  | mount dev fstype path => cases hp
  | write b ino es => cases hp
  | lose b d n => cases hp

end calls

theorem parent_as_opened (v : State) (p q : List Byte) (hp : EndsInName p) (hq : EndsInName q) :
    ((v.Searchable p ∧ v.Searchable q) ↔ ∀ (m : Move) (env : Nat → Nat → Option Errno), m.paths ⊆ [p, q] →
      m.exec.run (v.withEnv env) = m.byOpen.run (v.withEnv env)) ∧
    ∀ (m : Move) (path : List Byte) (e : Errno), path ∈ m.paths → v.dirOf path = .error e →
      wp m.byOpen (fun _ _ => False) (m.Refused v) v := by
  refine ⟨⟨fun hs m env hm => run_byOpen fun path hpath => ?_, fun h => ⟨?_, ?_⟩⟩,
    fun m path e hpath he => byOpen_refused hpath he⟩
  · rw [withEnv_searchable]
    rcases (by simpa using hm hpath : path = p ∨ path = q) with rfl | rfl
    · exact ⟨hp, hs.1⟩
    · exact ⟨hq, hs.2⟩
  · exact searchable_of_unlink hp (h (.unlink p) _ (by simp [Move.paths]))
  · exact searchable_of_unlink hq (h (.unlink q) _ (by simp [Move.paths]))

-- The paths "/m/x" and the moves that leave a file of one entry in "/m", which names the file "/n".
def pathX : List Byte := pathM ++ [0x2f, 0x78]

def fileMoves : List (Move × Except Errno Unit) :=
  [(mountMove 0 [slash], .ok ()), (.create pathM 0o644, .ok ()), (.create pathN 0o644, .ok ()),
    (.write 0 2 [⟨3, [0x78]⟩], .ok ())]

-- A name in a directory that is not the root.
theorem parent_as_opened_nested : ∃ s, Run Step emptyVolumes
    [(mountMove 0 [slash], .ok ()), (.mkdir pathM 0o755, .ok ())] s ∧
    (Move.create pathX 0o644).exec.run s = (Move.create pathX 0o644).byOpen.run s := by
  obtain ⟨s1, s, h1, h2, comps, cur, hstart, hs⟩ : ∃ s1 s, Step emptyVolumes (mountMove 0 [slash], .ok ()) s1 ∧
      Step s1 (.mkdir pathM 0o755, .ok ()) s ∧ ∃ comps cur, s.walkStart pathX = .ok (comps, cur) ∧
      s.SearchableFrom comps cur :=
    ⟨_, _, rfl, rfl, _, _, rfl, fun _ => ⟨rfl, by rintro _ ⟨⟩; rfl⟩⟩
  have hname : EndsInName pathX := by
    intro name hn
    cases (rfl : (components pathX).getLast? = some [0x78]).symm.trans hn
    decide
  have hsearch : s.Searchable pathX := by
    intro _ _ h
    cases hstart.symm.trans h
    exact hs
  refine ⟨s, .cons h1 (.one h2), ?_⟩
  exact (parent_as_opened s pathX pathX hname hname).1.1 ⟨hsearch, hsearch⟩ (.create pathX 0o644)
    (fun b => (s.fs b).env) (by simp [Move.paths])

-- The file "/m" is read and written as a directory, and the inode of "/n" is freed.
theorem file_as_directory : ∃ s w, Run Step emptyVolumes fileMoves s ∧
    s.dirOf pathX = .error .enotdir ∧ Step s (.unlink pathX, .ok ()) w ∧
    s.target pathN = .ok ⟨0, 3, false, false⟩ ∧ (s.fs 0).imap 3 = true ∧ (w.fs 0).imap 3 = false ∧
    (w.fs 0).entries 2 ≠ (s.fs 0).entries 2 ∧ w.target pathN = .ok ⟨0, 3, false, false⟩ :=
  ⟨_, _, .cons rfl (.cons rfl (.cons rfl (.one rfl))), rfl, rfl, rfl, rfl, rfl, by decide, rfl⟩

end Jnu.Vfs.Names
