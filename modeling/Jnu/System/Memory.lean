import Jnu.System.Overflow

namespace Jnu.System

open Lib.Dyadic Lib.Effect Lib.Trace Paging Pmm Mm
open Function

variable {k k' : Kern} {R : Set Nat} {K : Set Block} {x t len r src dst va : Nat}

-- The memory of the processes as they are meant to see it: every space has bytes at the addresses
-- it has mapped.
abbrev Memory := Nat → Nat → Option (BitVec 8)

namespace Memory

def empty : Memory := fun _ _ => none

def fill (m : Memory) (sp start stop : Nat) (o : Option (BitVec 8)) : Memory :=
  fun t x => if t = sp ∧ start ≤ x ∧ x < stop then o else m t x

def assign (m : Memory) (sp : Nat) (f : Nat → Option (BitVec 8)) : Memory := update m sp f

-- What a call does to the memory; a call that fails does nothing to it, and neither does a fault.
def next (m : Memory) : Event → Memory
  | (.createSpace, .ok (.space (some sp))) => m.assign sp fun _ => none
  | (.destroySpace sp, .ok _) => m.assign sp fun _ => none
  | (.mapAnonymous sp _ length _ _, .ok (.addr r)) =>
    m.fill sp r (r + pageAlignUp length.toNat) (some 0)
  | (.munmap sp addr length, .ok _) =>
    m.fill sp addr.toNat (addr.toNat + pageAlignUp length.toNat) none
  | (.cloneSpace src, .ok (.space (some dst))) => m.assign dst (m src)
  | (.access sp va (.store b), .ok (.reply (.value _))) => m.fill sp va (va + 1) (some b)
  | _ => m

theorem fill_inside {m : Memory} {sp start stop : Nat} {o : Option (BitVec 8)} (h : start ≤ x)
    (h' : x < stop) : m.fill sp start stop o sp x = o := if_pos ⟨rfl, h, h'⟩

def after (m : Memory) (l : List Event) : Memory := l.foldl next m

end Memory

-- The kernel holds the byte of the model at every address that is mapped.
def Shows (k : Kern) (m : Memory) : Prop :=
  ∀ sp x, k.flags sp x ≠ none → m sp x = some (k.byte sp x)

section shows

variable {m : Memory} {sp : Nat} {start stop : Nat} {s' : Phys}

theorem Shows.same (h : Shows k m) (hf : ∀ t x, k'.flags t x ≠ none → k.flags t x ≠ none)
    (hb : ∀ t x, k'.flags t x ≠ none → k'.byte t x = k.byte t x) : Shows k' m := by
  intro t x hx
  rw [hb t x hx]
  exact h t x (hf t x hx)

theorem Shows.space {f : Nat → Option (BitVec 8)} (h : Shows k m)
    (hspace : ∀ t, t ≠ sp → k'.space t = k.space t) (hf : ∀ x, k'.flags sp x = none)
    (hw : ∀ t u i, t ≠ sp → i < 512 → k'.words t u i = k.words t u i) : Shows k' (m.assign sp f) := by
  intro t x hx
  have ht : t ≠ sp := by
    intro ht
    rw [ht] at hx
    exact hx (hf x)
  rw [flags_congr (hspace t ht)] at hx
  unfold Memory.assign
  rw [update_of_ne ht, byte_congr fun i hi => hw t _ i ht hi]
  exact h t x hx

theorem remap_byte {F : Nat → Option VmaFlags} {D : Nat → Prop} (hr : Remap k k' sp F D)
    (hx : ¬ (t = sp ∧ D (x / pageSize))) : k'.byte t x = k.byte t x :=
  byte_congr fun i hi => hr.sheds.words t _ i hx hi

theorem Shows.remap_self (h : Shows k m) (hr : Remap k k' sp (k.flags sp) fun _ => False) :
    Shows k' m := by
  refine h.same ?_ fun t x _ => remap_byte hr fun hc => hc.2
  intro t x hx
  by_cases ht : t = sp
  · subst ht
    rwa [hr.flags] at hx
  · rwa [flags_congr (hr.other t ht)] at hx

theorem in_page (hs : start % pageSize = 0) (he : stop % pageSize = 0) :
    (start ≤ x / pageSize * pageSize ∧ x / pageSize * pageSize < stop) ↔ start ≤ x ∧ x < stop := by
  simp only [pageSize] at hs he ⊢
  omega

theorem add_pageAlignUp (h : start % pageSize = 0) : (start + pageAlignUp len) % pageSize = 0 := by
  rw [Nat.add_mod, h, pageAlignUp_mod]
  rfl

theorem removed_shows (h : Shows k m) (hs : start % pageSize = 0) (he : stop % pageSize = 0)
    (hr : Remap k k' sp (fun x => if start ≤ x ∧ x < stop then none else k.flags sp x)
      fun v => start ≤ v * pageSize ∧ v * pageSize < stop ∧ k.flags sp (v * pageSize) ≠ none) :
    Shows k' m ∧ Shows k' (m.fill sp start stop none) := by
  have hmain : ∀ t x, k'.flags t x ≠ none → k.flags t x ≠ none ∧
      ¬ (t = sp ∧ start ≤ x ∧ x < stop) ∧ k'.byte t x = k.byte t x := by
    intro t x hx
    by_cases ht : t = sp
    · subst ht
      rw [hr.flags] at hx
      by_cases hin : start ≤ x ∧ x < stop
      · rw [if_pos hin] at hx
        exact absurd rfl hx
      · rw [if_neg hin] at hx
        refine ⟨hx, fun hc => hin hc.2, remap_byte hr fun hc => hin ?_⟩
        exact (in_page hs he).1 ⟨hc.2.1, hc.2.2.1⟩
    · rw [flags_congr (hr.other t ht)] at hx
      exact ⟨hx, fun hc => ht hc.1, remap_byte hr fun hc => ht hc.1⟩
  refine ⟨h.same (fun t x hx => (hmain t x hx).1) fun t x hx => (hmain t x hx).2.2, ?_⟩
  intro t x hx
  obtain ⟨hfl, hout, hb⟩ := hmain t x hx
  unfold Memory.fill
  rw [if_neg hout, hb]
  exact h t x hfl

theorem Shows.mapped {prot : BitVec 32} (hk : Safe k) (h : Shows k m) (hm : Mapped k k' sp r len prot) :
    Shows k' (m.fill sp r (r + len) (some 0)) := by
  have hal : r % pageSize = 0 ∧ (r + len) % pageSize = 0 := by
    have h1 := hm.aligned
    simp only [pageSize] at h1 ⊢
    omega
  intro t x hx
  unfold Memory.fill
  by_cases hin : t = sp ∧ r ≤ x ∧ x < r + len
  · obtain ⟨rfl, hin⟩ := hin
    rw [if_pos ⟨rfl, hin⟩]
    have hpage := (in_page hal.1 hal.2).2 hin
    have hnone : k'.pte t (x / pageSize) = none := by
      by_cases hfl : k.flags t (x / pageSize * pageSize) ≠ none
      · exact hm.remap.sheds.gone t _ ⟨rfl, hpage.1, hpage.2, hfl⟩
      rw [hm.remap.sheds.pte t _ fun hc => hfl hc.2.2.2]
      cases hp : k.pte t (x / pageSize) with
      | none => rfl
      | some e =>
        obtain ⟨vf, hvf, -⟩ := hk.within t _ e hp
        exact absurd (by simp [hvf]) hfl
    rw [byte_none hnone]
  · rw [if_neg hin, remap_byte hm.remap fun hc => hin ⟨hc.1, (in_page hal.1 hal.2).1 ⟨hc.2.1, hc.2.2.1⟩⟩]
    apply h t x
    by_cases ht : t = sp
    · subst ht
      rwa [hm.remap.flags, if_neg fun hc => hin ⟨rfl, hc⟩] at hx
    · rwa [flags_congr (hm.remap.other t ht)] at hx

theorem Shows.reprotected {vf : VmaFlags} (h : Shows k m)
    (hr : Reprotect k k' sp start stop vf) : Shows k' m := by
  refine h.same ?_ fun t x _ => byte_congr fun i hi => hr.words t _ i hi
  intro t x hx
  by_cases ht : t = sp
  · subst ht
    rw [hr.flags] at hx
    by_cases hin : start ≤ x ∧ x < stop
    · rw [if_pos hin] at hx
      intro hc
      rw [hc] at hx
      exact hx rfl
    · rwa [if_neg hin] at hx
  · rwa [flags_congr (hr.other t ht)] at hx

theorem Shows.cloned (hs : Sound k R K) (h : Shows k m)
    (hc : Cloned k k' src dst) : Shows k' (m.assign dst (m src)) := by
  intro t x hx
  unfold Memory.assign
  by_cases ht : t = dst
  · subst ht
    rw [hc.flags] at hx
    rw [update_self, byte_congr fun i hi => hc.copy _ i (hs.flags_page x ▸ hx) hi]
    exact h src x hx
  · rw [flags_congr (hc.other t ht)] at hx
    rw [update_of_ne ht, byte_congr fun i hi => hc.words t _ i ht hi]
    exact h t x hx

section

variable (h : Shows k m) (hk : k' = { k with phys := s' })
include h hk

theorem Shows.phys (hw : ∀ t u i, i < 512 → k'.words t u i = k.words t u i) : Shows k' m := by
  have hf : ∀ t x, k'.flags t x = k.flags t x := fun t x => flags_congr (by rw [hk]) x
  refine h.same ?_ fun t x _ => byte_congr fun i hi => hw t _ i hi
  intro t x hx
  rwa [hf] at hx

theorem Shows.resolved (hr : Resolved k sp va s') : Shows k' m := by
  obtain ⟨_, _, -, hset, -⟩ := hr
  refine h.phys hk ?_
  rw [hk]
  exact hset.words

theorem Shows.failed (hr : PageKeep k.roots k.phys s') : Shows k' m := by
  refine h.phys hk ?_
  rw [hk]
  exact hr.words

theorem Shows.completed {acc : Access} {b : BitVec 8} (hc : Completed k k' sp va acc b) :
    Shows k' (m.next (.access sp va acc, .ok (.reply (.value b)))) := by
  have hf : ∀ t x, k'.flags t x = k.flags t x := fun t x => flags_congr (by rw [hk]) x
  intro t x hx
  rw [hf] at hx
  cases acc with
  | load =>
    rw [hc.bytes]
    exact h t x hx
  | fetch =>
    rw [hc.bytes]
    exact h t x hx
  | store c =>
    rw [hc.bytes]
    show (if t = sp ∧ va ≤ x ∧ x < va + 1 then some c else m t x) =
      some (if t = sp ∧ x = va then c else k.byte t x)
    by_cases hin : t = sp ∧ x = va
    · rw [if_pos hin, if_pos ⟨hin.1, by omega, by omega⟩]
    · rw [if_neg hin, if_neg fun hc => hin ⟨hc.1, by omega⟩]
      exact h t x hx

end

theorem Shows.effect {c : Call} {r : Except Errno Answer} (hs : Sound k R K) (hk : Safe k)
    (h : Shows k m) (he : Effect k k' c r) : Shows k' (m.next (c, r)) := by
  cases he with
  | created hi fresh hspace =>
    refine h.space ?_ (flags_empty (by rw [hspace, update_self])) fun t u i _ => hi.words t u i
    intro t ht
    rw [hspace, update_of_ne ht]
  | notCreated hi hspace =>
    refine h.same ?_ fun t x _ => byte_congr fun i => hi.words t _ i
    intro t x hx
    rwa [flags_congr (congrFun hspace t)] at hx
  | destroyed hspace hsh =>
    refine h.space ?_ (flags_none ?_) fun t u i ht => hsh.words t u i ht
    · intro t ht
      rw [hspace, update_of_ne ht]
    · rw [hspace, update_self]
  | mapped hm => exact h.mapped hk hm
  | notMapped hm =>
    rcases hm with hm | ⟨-, hal, -, hm⟩
    · exact h.remap_self hm
    · exact (removed_shows h hal (add_pageAlignUp hal) hm).1
  | unmapped hal hre => exact (removed_shows h hal (add_pageAlignUp hal) hre).2
  | notUnmapped hre => exact h.remap_self hre
  | reprotected _ _ hre => exact h.reprotected hre
  | notReprotected hre => exact h.remap_self hre
  | cloned hc => exact h.cloned hs hc
  | notCloned hc =>
    refine h.same ?_ fun t x _ => byte_congr fun i => hc.words t _ i
    intro t x hx
    rwa [flags_congr (congrFun hc.space t)] at hx
  | lazyFilled hk' hr => exact h.resolved hk' hr
  | notLazyFilled hk' hr => exact h.failed hk' hr
  | copied hk' hr => exact h.resolved hk' hr
  | notCopied hk' hr => exact h.failed hk' hr
  | completed hk' hc => exact h.completed hk' hc
  | faulted hk' hf =>
    have hm : ∀ sp va acc hd, m.next (.access sp va acc, .ok (.reply (.handled hd))) = m := by
      intro sp va acc hd
      cases acc <;> rfl
    rw [hm]
    rcases hf.effect with ⟨-, hr⟩ | ⟨-, hr⟩
    · exact h.failed hk' hr
    · exact h.resolved hk' hr

end shows

section refinement

variable {k'' : Kern} {l : List Event}

theorem SafeRun.shows (hb : Boot k R K) (hrun : Run SafeStep k l k') :
    Shows k' (Memory.empty.after l) := by
  have hfirst : Shows k Memory.empty := fun sp x hx => absurd (flags_none (hb.vacant sp) x) hx
  refine (hrun.follows (r := fun m k => (Sound k R K ∧ Safe k) ∧ Shows k m)
    ⟨⟨hb.sound, .boot hb⟩, hfirst⟩ ?_).2
  intro m k e k' h hs
  exact ⟨hs.safe h.1, h.2.effect h.1.1 h.1.2 (hs.effect h.1.1).2⟩

-- After any calls without the overflow, a load or a fetch that goes through gives the byte of the
-- model.
theorem private_memory {sp va : Nat} {acc : Access} {b : BitVec 8} (hb : Boot k R K)
    (hrun : Run SafeStep k l k') (hacc : acc.isStore = false)
    (hs : Step k' (.access sp va acc, .ok (.reply (.value b))) k'') : Memory.empty.after l sp va = some b := by
  obtain ⟨hsound, hkept⟩ := SafeRun.kept hb hrun
  obtain ⟨-, heff⟩ := SafeStep.effect (e := (.access sp va acc, .ok (.reply (.value b))))
    ⟨not_false, hs⟩ hsound
  have hshow := SafeRun.shows hb hrun
  cases heff with
  | completed _ hc =>
    obtain ⟨e, he, -⟩ := hc.entry
    obtain ⟨vf, hvf, -⟩ := hkept.within sp _ e he
    rw [← hsound.flags_page] at hvf
    rw [hshow sp va (by simp [hvf]), hc.value, hc.bytes]
    cases acc with
    | load => rfl
    | fetch => rfl
    | store c => cases hacc

end refinement

-- The first space still has its byte, and the copy has its own.
theorem private_memory_copied : ∃ k₀ R K k k' k'', Boot k₀ R K ∧ Run SafeStep k₀ copyEvents k ∧
    Step k (.access 1 crossing .load, .ok (.reply (.value 7))) k' ∧
    Step k (.access 3 crossing .load, .ok (.reply (.value 9))) k'' := by
  obtain ⟨k₀, R, K, -, k, a, b, e₁, -, e₃, hboot, -, -, -, -, hrun, hbase, ha, hb, hp₁, hp₃, -⟩ :=
    copyEvents_run
  have hload₁ := step_access ha (by decide) (read_run crossing .load hbase ha (by decide) hp₁ rfl nofun)
  have hload₃ := step_access hb (by decide) (read_run crossing .load hbase hb (by decide) hp₃ rfl nofun)
  have h₁ : Memory.empty.after copyEvents 1 crossing = some (k.byte 1 crossing) :=
    private_memory hboot hrun rfl hload₁
  have h₃ : Memory.empty.after copyEvents 3 crossing = some (k.byte 3 crossing) :=
    private_memory hboot hrun rfl hload₃
  have hseven : Memory.empty.after copyEvents 1 crossing = some 7 := by rfl
  have hnine : Memory.empty.after copyEvents 3 crossing = some 9 := by rfl
  rw [← Option.some.inj (hseven.symm.trans h₁)] at hload₁
  rw [← Option.some.inj (hnine.symm.trans h₃)] at hload₃
  exact ⟨k₀, R, K, k, k, k, hboot, hrun, hload₁, hload₃⟩

-- A store, a copy of the space, and the removal of the page in the copy.
def leakEvents : List Event := firstEvents ++
  [(.access 1 crossing (.store 5), .ok (.reply (.handled .resumed))),
    (.access 1 crossing (.store 5), .ok (.reply (.value 5))),
    (.cloneSpace 1, .ok (.space (some 4))),
    (.munmap 4 (BitVec.ofNat 64 (crossing - pageSize)) 8192, .ok .done)]

theorem window_found {t : VmaTree} (h : t.Pair 2 3 wrapped window) : vmaFind t crossing = some (some 3) := by
  obtain ⟨hr, hn⟩ := h
  simp only [List.forall_mem_cons] at hn
  unfold vmaFind
  rw [hr, findFrom_left (by rw [hn.1.2]; decide), hn.1.1,
    findFrom_here (by rw [hn.2.1.2]; decide) (by rw [hn.2.1.2]; decide)]

theorem window_kept {k : Kern} {b : AddrSpace} (hb : k.space 4 = some b)
    (h : b.vmas.Pair 5 6 window wrapped) :
    (vmaRemoveRange 4 (some 4) (crossing - pageSize) mmapBaseTop).run k = done () k := by
  obtain ⟨hfirst, -, -⟩ := pair_order h
  obtain ⟨hr, hn⟩ := h
  simp only [List.forall_mem_cons] at hn
  have hbelow : vmaFind b.vmas (crossing - pageSize) = some none := by
    unfold vmaFind
    rw [hr, findFrom_left (by rw [hn.1.2]; decide), hn.1.1, findFrom_left (by rw [hn.2.1.2]; decide),
      hn.2.1.1, findFrom_none]
  have hlast : vmaFind b.vmas (mmapBaseTop - 1) = some (some 5) := by
    unfold vmaFind
    rw [hr, findFrom_here (by rw [hn.1.2]; decide) (by rw [hn.1.2]; decide)]
  have habove : vmaAtOrAbove b.vmas (crossing - pageSize) = some (some 6) := by
    rw [vmaAtOrAbove_skip hbelow hfirst, skipBelow_here (by rw [hn.2.1.2]; decide)]
  refine removeRange_nothing _ _ hb (by decide) hbelow hlast ?_ habove ?_
  · intro id hid
    obtain rfl := Option.some.inj hid
    rw [hn.1.2]
    exact Nat.le_refl _
  · intro id hid
    obtain rfl := Option.some.inj hid
    rw [hn.2.1.2]
    exact Nat.le_refl _

-- With the overflow, a page that was removed still shows what was stored before.
theorem private_memory_overflow : ∃ k₀ R K k k', Boot k₀ R K ∧ Run Step k₀ leakEvents k ∧
    Step k (.access 4 crossing .load, .ok (.reply (.value 5))) k' ∧
    Memory.empty.after leakEvents 4 crossing = none := by
  obtain ⟨k₀, R, K, k3, a, pa, hboot, hrun3, h3, ha3, hdraw, hvac, hnone, hrand⟩ := firstEvents_run
  have hwindow : (a.vmas.vma 3).flags.write = true := by
    rw [(hdraw.2 (3, ⟨some 2, none, none, .red⟩, window) (by simp)).2]
    rfl
  -- the store faults and is repeated
  obtain ⟨s4, e, hrun4, h4, hp4, hw, hz⟩ := h3.store_fault (m := 196) crossing 5 ha3 (by decide)
    hnone (window_found hdraw) hwindow
  set k4 : Kern := { k3 with phys := s4 } with hk4
  obtain ⟨s5, hrun5, h5, hp5, hbyte⟩ := h4.store crossing 5 ha3 (by decide)
    hp4.entry hw hz fun _ _ _ he' _ => hp4.key he'
  set k5 : Kern := { k4 with phys := s5 } with hk5
  have hcount := count_sole 1 ceilingPage fun t u _ he' => hp4.key ((hp5 t u).symm.trans he')
  -- the copy shares the page
  obtain ⟨k6, b, hrun6, h6, hb6, -, hdraw6, -, hshare⟩ :=
    cloneWindow (m := 192) h5 ha3 hdraw hvac hrand hcount
  obtain ⟨e1, e2, hp6, -, -, hwords⟩ := hshare.2 e ((hp5 1 _).trans hp4.entry)
  have hb5 : k6.byte 4 crossing = 5 := by
    rw [← hbyte]
    exact byte_congr hwords
  have hrun7 : (exec (.munmap 4 (BitVec.ofNat 64 (crossing - pageSize)) 8192)).run k6 =
      done .done k6 := by
    show (sysMunmap (some 4) (crossing - pageSize) 8192 >>= fun _ => pure Answer.done).run k6 = _
    have hunmap : (sysMunmap (some 4) (crossing - pageSize) 8192).run k6 = done () k6 :=
      window_kept hb6 hdraw6
    rw [run_bind_ok hunmap]
    rfl
  have hload := read_run crossing .load h6.base hb6 (by decide) ((hp6 4 _).trans (if_pos ⟨rfl, rfl⟩)) rfl nofun
  rw [hb5] at hload
  have htop : crossing < userTop := by decide
  have hrun : Run Step k₀ leakEvents k6 := by
    have hstep4 := hrun3.snoc (step_access ha3 htop hrun4)
    have hstep5 := hstep4.snoc (step_access ha3 htop hrun5)
    have hstep6 := hstep5.snoc (step_cloneSpace ha3 hcount hrun6)
    exact hstep6.snoc ⟨by simp [Call.Valid, hb6], hrun7⟩
  refine ⟨k₀, R, K, k6, k6, hboot, hrun, step_access hb6 htop hload, ?_⟩
  have hstart : (BitVec.ofNat 64 (crossing - pageSize)).toNat ≤ crossing := by decide
  have hstop : crossing < (BitVec.ofNat 64 (crossing - pageSize)).toNat +
      pageAlignUp (8192 : BitVec 64).toNat := by decide
  simp only [Memory.after, leakEvents, List.foldl_append, List.foldl_cons, List.foldl_nil]
  exact Memory.fill_inside hstart hstop

end Jnu.System
