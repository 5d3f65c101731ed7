import Jnu.System.Protection

namespace Jnu.System

open Lib.Dyadic Lib.Effect Lib.Trace Paging Pmm Mm

-- An access is made again after a fault that was resolved, at most `n` times.
def userRetry (sp va : Nat) (acc : Access) : Nat → KM Reply
  | 0 => userAccess sp va acc
  | n + 1 => do
      match ← userAccess sp va acc with
      | .handled .resumed => userRetry sp va acc n
      | r => return r

-- The access goes through after finitely many faults, and the process is not killed for it.
def Resolves (k : Kern) (sp va : Nat) (acc : Access) : Prop :=
  (∃ n b k', (userRetry sp va acc n).run k = some (.ok (.ok (.value b), k'))) ∧
    ∀ n k', (userRetry sp va acc n).run k ≠ some (.ok (.ok (.handled .killed), k'))

section retry

variable {k k' : Kern} {R : Set Nat} {K : Set Block} {sp va : Nat} {acc : Access} {a : AddrSpace}
  {e : BitVec 64} {vf : VmaFlags}

theorem userRetry_done {r : Reply} (h : (userAccess sp va acc).run k = done r k')
    (hr : r ≠ .handled .resumed) (n : Nat) : (userRetry sp va acc n).run k = done r k' := by
  cases n with
  | zero => exact h
  | succ n =>
    unfold userRetry
    rw [run_bind_ok h]
    cases r with
    | value b => rfl
    | handled hd =>
      cases hd with
      | resumed => exact absurd rfl hr
      | killed => rfl

theorem userRetry_again (n : Nat) (h : (userAccess sp va acc).run k = done (.handled .resumed) k') :
    (userRetry sp va acc (n + 1)).run k = (userRetry sp va acc n).run k' := by
  rw [userRetry, run_bind_ok h]

theorem resolves_now {b : BitVec 8}
    (h : (userAccess sp va acc).run k = done (.value b) k') : Resolves k sp va acc := by
  have hdone := userRetry_done h (by simp)
  refine ⟨⟨0, b, k', hdone 0⟩, fun n k'' hc => ?_⟩
  rw [hdone n] at hc
  cases hc

theorem resolves_again (h : (userAccess sp va acc).run k = done (.handled .resumed) k')
    (h' : Resolves k' sp va acc) : Resolves k sp va acc := by
  obtain ⟨⟨n, b, k'', hn⟩, hno⟩ := h'
  refine ⟨⟨n + 1, b, k'', (userRetry_again n h).trans hn⟩, fun m k'' hc => ?_⟩
  cases m with
  | zero =>
    rw [show (userRetry sp va acc 0).run k = _ from h] at hc
    cases hc
  | succ m =>
    rw [userRetry_again m h] at hc
    exact hno m k'' hc

theorem access_run (acc : Access) (h : Base k R K) (ha : k.space sp = some a) (hva : va < userTop)
    (hp : k.pte sp (va / pageSize) = some e) (hw : acc.isStore = true → has e pteWrite = true)
    (hx : acc.isFetch = true → has e pteNx = false) :
    ∃ b k', (userAccess sp va acc).run k = done (.value b) k' := by
  have hpass : acc.passes ⟨pteAddr e + va % pageSize, true, has e pteWrite, !has e pteNx⟩ = true := by
    cases acc with
    | load => rfl
    | store b => simpa [Access.passes, Access.isStore, Access.isFetch] using hw rfl
    | fetch => simpa [Access.passes, Access.isStore, Access.isFetch] using hx rfl
  unfold userAccess
  rw [run_bind_ok (run_pml4Of ha), run_bind_ok (run_read _ k), translate_run h ha (page_lt hva), hp]
  dsimp only [Option.map_some]
  rw [if_pos hpass]
  cases acc with
  | load => exact ⟨_, k, rfl⟩
  | store b => exact ⟨b, _, rfl⟩
  | fetch => exact ⟨_, k, rfl⟩

theorem fetch_killed (h : Sound k R K) (ha : k.space sp = some a)
    (hva : va < userTop) (hp : k.pte sp (va / pageSize) = some e) (hx : has e pteNx = true) :
    (userAccess sp va .fetch).run k = done (.handled .killed) k := by
  obtain ⟨L, hg⟩ := h.spaces sp a ha
  have hhandle : (exceptionsHandle (some sp) va ⟨true, false, true, true⟩).run k =
      done .killed k := by
    unfold exceptionsHandle
    rw [run_bind_ok (run_spaceOf ha), run_bind_ok (run_known (vmaFind_eq hg.tree.holds))]
    cases a.vmas.spans.locate L va with
    | none => rfl
    | some id => rfl
  unfold userAccess
  rw [run_bind_ok (run_pml4Of ha), run_bind_ok (run_read _ k), translate_run h.base ha (page_lt hva), hp]
  dsimp only [Option.map_some]
  rw [if_neg (by simp [Access.passes, Access.isStore, Access.isFetch, hx])]
  show (exceptionsHandle (some sp) va ⟨true, false, true, true⟩ >>= _).run k = _
  rw [run_bind_ok hhandle]
  rfl

theorem resolves_of_fault {s' : Phys} {hd : Handled} (hs : Sound { k with phys := s' } R K)
    (ha : k.space sp = some a) (hva : va < userTop)
    (hrun : (userAccess sp va acc).run k = done (.handled hd) { k with phys := s' })
    (hf : Faulted k s' sp va acc hd) (hvf : k.flags sp va = some vf) (hperm : permits vf acc = true)
    (hfree : 4 ≤ freeCount k.phys) (hfetch : acc.isFetch = true → k.pte sp (va / pageSize) = none) :
    Resolves k sp va acc := by
  have hres : hd = .resumed := by
    refine hf.resumes vf hvf ?_ hfree hfetch
    cases acc <;> exact hperm
  subst hres
  obtain ⟨e, hp, hw, hx⟩ := hf.ready rfl
  obtain ⟨b, k'', hrun'⟩ := access_run acc (k := { k with phys := s' }) hs.base ha hva hp hw
    fun hft => hx hft (hfetch hft)
  exact resolves_again hrun (resolves_now hrun')

theorem resolves_iff (h : Sound k R K) (hvf : k.flags sp va = some vf)
    (hperm : permits vf acc = true) (hfree : 4 ≤ freeCount k.phys) :
    Resolves k sp va acc ↔
      ¬ (acc = .fetch ∧ ∃ e, k.pte sp (va / pageSize) = some e ∧ has e pteNx = true) := by
  obtain ⟨a, ha⟩ := flags_live hvf
  have hva := (h.flags_user hvf).2.1
  constructor
  · intro hres hc
    obtain ⟨rfl, e, hp, hx⟩ := hc
    exact hres.2 0 k (fetch_killed h ha hva hp hx)
  intro hno
  obtain ⟨r, k', hrun, s', rfl, hs, hout⟩ := (userAccess_spec acc h ha hva).exists_ok
  rcases hout with ⟨b, rfl, -⟩ | ⟨hd, rfl, hf⟩
  · exact resolves_now hrun
  by_cases hfetch : acc.isFetch = true → k.pte sp (va / pageSize) = none
  · exact resolves_of_fault hs ha hva hrun hf hvf hperm hfree hfetch
  -- the page is there and executable, so the access goes through at once
  push Not at hfetch
  obtain ⟨hft, hp⟩ := hfetch
  obtain ⟨e, hp⟩ := Option.ne_none_iff_exists'.1 hp
  obtain rfl : acc = .fetch := by
    cases acc with
    | fetch => rfl
    | _ => cases hft
  have hx : has e pteNx = false := by
    by_contra hc
    exact hno ⟨rfl, e, hp, by simpa using hc⟩
  obtain ⟨b, k'', hrun'⟩ := access_run .fetch h.base ha hva hp
    (by simp [Access.isStore]) fun _ => hx
  exact resolves_now hrun'

end retry

-- A permitted access is resolved, but for code on a page that was read first.
theorem fault_complete {k₀ k : Kern} {R : Set Nat} {K : Set Block} {l : List Event}
    (hb : Boot k₀ R K) (hrun : Run SafeStep k₀ l k) :
    ∀ sp va acc vf, k.flags sp va = some vf → permits vf acc = true → 4 ≤ freeCount k.phys →
      (Resolves k sp va acc ↔
        ¬ (acc = .fetch ∧ ∃ e, k.pte sp (va / pageSize) = some e ∧ has e pteNx = true)) :=
  fun _ _ _ _ hvf hperm hfree => resolves_iff (SafeRun.kept hb hrun).1 hvf hperm hfree

def readExec : BitVec 32 := protRead ||| protExec

theorem mapping_flags {k : Kern} {a : AddrSpace} {prot : BitVec 32} (ha : k.space 1 = some a)
    (hdraw : a.vmas.One 2 (mapping prot)) :
    k.flags 1 crossing = some (protToVma prot) := by
  obtain ⟨hfind, hvma⟩ := mapping_found hdraw
  unfold Kern.flags
  rw [ha]
  show ((vmaFind a.vmas crossing).bind _) = _
  rw [hfind]
  show some (a.vmas.vma 2).flags = _
  rw [hvma]
  rfl

-- The first access to a page of code is a fetch.
theorem fault_complete_fetch : ∃ k₀ R K k, Boot k₀ R K ∧ Run SafeStep k₀ (mapEvents readExec) k ∧
    Resolves k 1 crossing .fetch := by
  obtain ⟨k₀, R, K, k, a, pa, hboot, hrun, h, ha, hdraw, hnone⟩ := mapEvents_run readExec (by decide)
  refine ⟨k₀, R, K, k, hboot, hrun, ?_⟩
  refine (fault_complete hboot hrun 1 crossing .fetch _ (mapping_flags ha hdraw) (by decide)
    (Nat.le_trans (by decide) h.free)).2 ?_
  intro hc
  obtain ⟨-, e, hp, -⟩ := hc
  rw [hnone] at hp
  cases hp

def readEvents : List Event := mapEvents readExec ++
  [(.access 1 crossing .load, .ok (.reply (.handled .resumed)))]

theorem fault_complete_read_first : ∃ k₀ R K k vf, Boot k₀ R K ∧ Run SafeStep k₀ readEvents k ∧
    k.flags 1 crossing = some vf ∧ permits vf .fetch = true ∧ 4 ≤ freeCount k.phys ∧
    (userAccess 1 crossing .fetch).run k = some (.ok (.ok (.handled .killed), k)) := by
  obtain ⟨k₀, R, K, k, a, pa, hboot, hrun, h, ha, hdraw, hnone⟩ := mapEvents_run readExec (by decide)
  obtain ⟨hfind, hvma⟩ := mapping_found hdraw
  obtain ⟨s', e, hrun', h', hset, -, hx, -⟩ := h.access_fault (m := 200) crossing .load
    ha (by decide) (hnone 1 _) hfind (by rw [hvma]; decide)
  have hstep : SafeStep k (.access 1 crossing .load, .ok (.reply (.handled .resumed)))
      { k with phys := s' } := ⟨not_false, step_access ha (by decide) hrun'⟩
  have hall : Run SafeStep k₀ readEvents { k with phys := s' } := hrun.snoc hstep
  refine ⟨k₀, R, K, _, protToVma readExec, hboot, hall,
    mapping_flags (k := { k with phys := s' }) ha hdraw, by decide, Nat.le_trans (by decide) h'.free, ?_⟩
  refine fetch_killed (e := e) (SafeRun.kept hboot hall).1 ha (by decide) ?_ hx
  exact (hset.pte 1 _).trans (if_pos ⟨rfl, rfl⟩)

end Jnu.System
