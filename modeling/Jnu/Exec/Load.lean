import Jnu.Exec.Defs
import Jnu.Mm.Fault

namespace Jnu.Exec

open Lib.Dyadic Lib.Effect Paging Pmm Mm

variable {image : ExecImage} {l : Loader} {R : Set Nat} {K : Set Block} {sp va lo' hi' x n : Nat}
  {a : AddrSpace} {In : Nat → Prop}

section image

variable {file : List Byte}

-- The bytes of the file do not change; a read may still fail or come back short.
def ExecImage.Reads (image : ExecImage) (file : List Byte) : Prop :=
  ∀ n off len bs, image.readAt n off len = .ok bs → bs = (file.drop off).take len

theorem imageReadExact_spec (image : ExecImage) (off len : Nat) (l : Loader) :
    wp (imageReadExact image off len)
      (fun bs l' => l' = { l with reads := l.reads + 1 } ∧ bs.length = len ∧
        off + len ≤ image.size ∧ image.readAt l.reads off len = .ok bs)
      (fun _ l' => l'.kern = l.kern ∧ l.reads ≤ l'.reads) l := by
  unfold imageReadExact
  refine wp_ite (fun hb => ?_) fun hb => ?_
  · exact wp_error ⟨rfl, Nat.le_refl _⟩
  apply wp_bind_read
  apply wp_bind_write
  cases hr : image.readAt l.reads off len with
  | error e => exact wp_error ⟨rfl, Nat.le_succ _⟩
  | ok bs =>
    by_cases hlen : bs.length = len
    · simp only [hlen, if_true]
      exact wp_pure ⟨rfl, hlen, by omega, rfl⟩
    · simp only [hlen, if_false]
      exact wp_error ⟨rfl, Nat.le_succ _⟩

end image

section pages

variable {k k'' : Kern} {v start stop : Nat}
variable {u lo hi f : Nat} {k' : Kern} {s s1 s2 : Phys} {roots : Nat → Option Nat} {O : Set Block}

def Private (k : Kern) (sp u : Nat) : Prop :=
  ∃ e, k.pte sp u = some e ∧ pteFrame e ≠ zeroFrame k.phys ∧
    ∀ t w e', k.pte t w = some e' → pteFrame e' = pteFrame e → t = sp ∧ w = u

theorem private_of_write (h : Sound k R K) {e : BitVec 64} (hp : k.pte sp u = some e)
    (hw : has e pteWrite = true) : Private k sp u := by
  obtain ⟨hz, hex⟩ := h.owned.exclusive sp u e hp hw
  exact ⟨e, hp, hz, hex⟩

theorem Private.entry {e : BitVec 64} (h : Private k sp u) (he : k.pte sp u = some e) :
    pteFrame e ≠ zeroFrame k.phys ∧
      ∀ t w e', k.pte t w = some e' → pteFrame e' = pteFrame e → t = sp ∧ w = u := by
  obtain ⟨e', he', hrest⟩ := h
  rw [he] at he'
  cases he'
  exact hrest

theorem Private.congr (h : Private k sp u) (hp : ∀ t w, k'.pte t w = k.pte t w)
    (hz : k'.phys.pmm.mmZeroPage = k.phys.pmm.mmZeroPage) : Private k' sp u := by
  obtain ⟨e, hpe, hze, hex⟩ := h
  refine ⟨e, (hp sp u).trans hpe, ?_, fun t w e' he' => hex t w e' ?_⟩
  · rw [zeroFrame_eq hz]
    exact hze
  · rw [← hp]
    exact he'

-- Bytes of one space between `lo` and `hi` may have changed.
structure Stored (k k' : Kern) (sp lo hi : Nat) : Prop where
  eq : ∃ s', k' = { k with phys := s' }
  zeroPage : k'.phys.pmm.mmZeroPage = k.phys.pmm.mmZeroPage
  pte : ∀ t u, k'.pte t u = k.pte t u
  bytes : ∀ t x, ¬ (t = sp ∧ lo ≤ x ∧ x < hi) → k'.byte t x = k.byte t x

theorem Stored.refl (k : Kern) (sp lo hi : Nat) : Stored k k sp lo hi :=
  ⟨⟨k.phys, rfl⟩, rfl, fun _ _ => rfl, fun _ _ _ => rfl⟩

theorem Stored.trans (h : Stored k k' sp lo hi)
    (h' : Stored k' k'' sp lo hi) : Stored k k'' sp lo hi := by
  obtain ⟨s1, rfl⟩ := h.eq
  obtain ⟨s2, rfl⟩ := h'.eq
  exact ⟨⟨s2, rfl⟩, h'.zeroPage.trans h.zeroPage, fun t u => (h'.pte t u).trans (h.pte t u),
    fun t x hx => (h'.bytes t x hx).trans (h.bytes t x hx)⟩

theorem Stored.mono (h : Stored k k' sp lo hi) (hlo : lo' ≤ lo) (hhi : hi ≤ hi') : Stored k k' sp lo' hi' :=
  ⟨h.eq, h.zeroPage, h.pte, fun t x hx => h.bytes t x (by omega)⟩

theorem Stored.space (h : Stored k k' sp lo hi) : k'.space = k.space := by
  obtain ⟨s', rfl⟩ := h.eq
  rfl

theorem wrap64_user (h : x ≤ userTop) : wrap64 x = x := by
  unfold wrap64 userTop at *
  omega

theorem rwUser_flags : UserFlags (vmaToPteFlags rwUser) := ⟨by decide, by decide, by decide⟩

theorem materialisePage_spec (h : Sound k R K) (ha : k.space sp = some a) (hv : v < userPages)
    (hp : k.pte sp v = none) :
    wp (materialisePage a.pml4Phys (v * pageSize))
      (fun _ s' => Sound { k with phys := s' } R K ∧ ∃ e, PageSet k.roots sp v e k.phys s' ∧
        has e pteWrite = true ∧ has e pteNx = true)
      (fun _ s' => Sound { k with phys := s' } R K ∧ PageKeep k.roots k.phys s' ∧
        freeCount k.phys ≤ 3) k.phys := by
  have hpt := h.base.pt
  rw [h.base.pml4_eq ha]
  unfold materialisePage vmmMap
  refine (allocUserPage_spec hpt).any.next ?_
  rintro pa s1 (⟨rfl, rfl, hfree⟩ | ⟨g, rfl, hne, hpt1, hg⟩)
  · exact wp_error ⟨h, PageKeep.refl _ _, by omega⟩
  rw [if_neg hne]
  have hp1 : pte s1.mem k.roots sp v = none := (hg.keep.pte sp v).trans hp
  have hz1 : PageZero s1.mem g := by
    rw [hg.mem]
    exact hg.zero
  apply wp_bind_attempt
  refine (mapZero_spec hpt1 (Kern.roots_eq ha) hv hp1 hg.lt rwUser_flags hz1 fun _ _ => rfl).mono ?_ ?_
  · rintro _ s' ⟨hpt', hset, -⟩
    obtain ⟨hz, hfresh⟩ := hg.frame hpt rwUser_flags
    replace hset := hg.keep.set hset
    apply wp_pure
    refine ⟨h.phys hpt' hset.zeroPage ?_, _, hset, entryOf_write.trans (by decide),
      entryOf_nx.trans (by decide)⟩
    exact h.owned.set hset.pte (fun _ => hz) fun t u e' _ he' hf => absurd hf (hfresh t u e' he')
  · rintro err s2 ⟨-, hfree, hpt2, hkeep⟩
    have hzf := zeroFrame_eq (hkeep.zeroPage.trans hg.keep.zeroPage)
    refine (putUserPage_spec hpt2 (by rw [hzf]; exact hg.ne)).any.next ?_
    rintro _ s' ⟨hpt', hkeep'⟩
    have hkept := hg.keep.trans (hkeep.trans hkeep')
    refine wp_error ⟨h.keep hpt' hkept, hkept, ?_⟩
    have := hg.free
    omega

-- Pages of the set `In` have been filled with fresh frames; what they show has not changed.
structure Populated (k k' : Kern) (sp : Nat) (In : Nat → Prop) : Prop where
  eq : ∃ s', k' = { k with phys := s' }
  zeroPage : k'.phys.pmm.mmZeroPage = k.phys.pmm.mmZeroPage
  inside : ∀ u, In u → k'.pte sp u = none ∨
    ∃ e, k'.pte sp u = some e ∧ has e pteWrite = true ∧ has e pteNx = true
  outside : ∀ t u, ¬ (t = sp ∧ In u) → k'.pte t u = k.pte t u
  bytes : ∀ t x, k'.byte t x = k.byte t x

theorem Populated.space (h : Populated k k' sp In) : k'.space = k.space := by
  obtain ⟨s', rfl⟩ := h.eq
  rfl

theorem Populated.step (h : Populated k { k with phys := s1 } sp In)
    (hz : s2.pmm.mmZeroPage = s1.pmm.mmZeroPage)
    (hw : ∀ t u i, i < 512 → words s2 k.roots t u i = words s1 k.roots t u i)
    (hpte : ∀ t u, pte s2.mem k.roots t u = pte s1.mem k.roots t u ∨ (t = sp ∧ In u) ∧
      ∃ e, pte s2.mem k.roots t u = some e ∧ has e pteWrite = true ∧ has e pteNx = true) :
    Populated k { k with phys := s2 } sp In := by
  refine ⟨⟨s2, rfl⟩, hz.trans h.zeroPage, fun u hu => ?_, fun t u hu => ?_, fun t x => ?_⟩
  · rcases hpte sp u with he | ⟨-, he⟩
    · rw [show ({ k with phys := s2 } : Kern).pte sp u = _ from he]
      exact h.inside u hu
    · exact .inr he
  · exact ((hpte t u).resolve_right fun hc => hu hc.1).trans (h.outside t u hu)
  · rw [← h.bytes t x]
    exact byte_congr fun i hi => hw t _ i hi

theorem materialisePages_spec (h : Sound k R K) (ha : k.space sp = some a) (hs : start % pageSize = 0)
    (he : stop % pageSize = 0) (hle : start ≤ stop) (htop : stop ≤ userTop)
    (hvac : ∀ u, start ≤ u * pageSize → u * pageSize < stop → k.pte sp u = none) :
    wp (materialisePages a.pml4Phys start stop)
      (fun _ s' => Sound { k with phys := s' } R K ∧
        Populated k { k with phys := s' } sp (fun u => start ≤ u * pageSize ∧ u * pageSize < stop) ∧
        ∀ u, start ≤ u * pageSize → u * pageSize < stop →
          ({ k with phys := s' } : Kern).pte sp u ≠ none)
      (fun _ s' => Sound { k with phys := s' } R K ∧
        Populated k { k with phys := s' } sp (fun u => start ≤ u * pageSize ∧ u * pageSize < stop))
      k.phys := by
  refine (wp_forPages (f := materialisePage a.pml4Phys) (fun D s' => Sound { k with phys := s' } R K ∧
    Populated k { k with phys := s' } sp (fun u => start ≤ u * pageSize ∧ u * pageSize < stop) ∧
    ∀ u, start ≤ u * pageSize → u * pageSize < stop → (pte s'.mem k.roots sp u ≠ none ↔ D u))
    hs he hle htop ?_ ?_).post ?_
  · refine ⟨h, ⟨⟨_, rfl⟩, rfl, fun u hu => .inl (hvac u hu.1 hu.2), fun _ _ _ => rfl, fun _ _ => rfl⟩, ?_⟩
    exact fun u hu hu' => iff_of_false (fun hc => hc (hvac u hu hu')) id
  · rintro v D s1 hv hin hD ⟨hs1, hpop, hdone⟩
    refine (materialisePage_spec hs1 ha hv (not_not.1 (mt (hdone v hin.1 hin.2).1 hD))).mono ?_ ?_
    · rintro _ s2 ⟨hs2, e, hset, hw, hnx⟩
      have hpte : ∀ t u, pte s2.mem k.roots t u = _ := hset.pte
      refine ⟨hs2, hpop.step hset.zeroPage hset.words fun t u => ?_, fun u hu hu' => ?_⟩
      · rw [hpte]
        split_ifs with hc
        · exact .inr ⟨⟨hc.1, hc.2 ▸ hin⟩, e, rfl, hw, hnx⟩
        · exact .inl rfl
      · rw [hpte]
        by_cases huv : u = v
        · simp [huv]
        · rw [if_neg fun hc => huv hc.2]
          exact (hdone u hu hu').trans (or_iff_left huv).symm
    · rintro err s2 ⟨hs2, hkeep, -⟩
      exact ⟨hs2, hpop.step hkeep.zeroPage hkeep.words fun t u => .inl (hkeep.pte t u)⟩
  · rintro _ s' ⟨hs', hpop, hdone⟩
    exact ⟨hs', hpop, fun u hu hu' => (hdone u hu hu').2 ⟨hu, hu'⟩⟩

theorem vmaToPteFlags_eq {vf : VmaFlags} (h : vf.user = true) :
    vmaToPteFlags vf = vmaFlagsToPte vf := by
  obtain ⟨r, w, x, u⟩ := vf
  cases w <;> cases x <;> decide +revert

-- The entries of the pages `In` have exactly the access of the flags.
structure Reset (sp : Nat) (In : Nat → Prop) (vf : VmaFlags)
    (p p' : Nat → Nat → Option (BitVec 64)) : Prop where
  inside : ∀ u, In u → ∃ e e', p sp u = some e ∧ p' sp u = some e' ∧ pteFrame e' = pteFrame e ∧
    has e' pteWrite = vf.write ∧ has e' pteNx = (!vf.exec)
  outside : ∀ t u, ¬ (t = sp ∧ In u) → p' t u = p t u

theorem protectRange_spec (vf : VmaFlags)
    (h : PtInv s R roots O fun _ => 0) (ho : Owned (pte s.mem roots) (zeroFrame s))
    (hroot : roots sp = some f) (hv : v + n ≤ userPages) (huser : vf.user = true)
    (hpriv : ∀ u, v ≤ u → u < v + n → ∃ e, pte s.mem roots sp u = some e ∧
      has e pteWrite = true) :
    wp (pagingProtect (f * pageSize) (v * pageSize) n (vmaToPteFlags vf))
      (fun _ s' => PtInv s' R roots O (fun _ => 0) ∧ Owned (pte s'.mem roots) (zeroFrame s') ∧
        Reset sp (fun u => v ≤ u ∧ u < v + n) vf (pte s.mem roots) (pte s'.mem roots) ∧
        Unmoved roots s s')
      never s := by
  rw [vmaToPteFlags_eq huser]
  have hfl := (vmaFlagsToPte_user vf).1
  unfold pagingProtect
  refine (wp_forRange (fun i s' => PtInv s' R roots O (fun _ => 0) ∧
    Owned (pte s'.mem roots) (zeroFrame s') ∧
    Reset sp (fun u => v ≤ u ∧ u < v + i) vf (pte s.mem roots) (pte s'.mem roots) ∧
    Unmoved roots s s') ?_ ?_).post ?_
  · refine ⟨h, ho, ⟨fun u hu => ?_, fun _ _ _ => rfl⟩, .refl _ _⟩
    omega
  · intro i s1 hi h1
    obtain ⟨hpt1, ho1, hre1, hun1⟩ := h1
    have hw := wrap_page (i := i) (show v + i < userPages by omega)
    refine (pagingProtect_step hpt1 hroot (by omega) hfl hw).mono ?_ ?_
    · intro _ s2 h2
      obtain ⟨e, hpe, hpt2, hl, -⟩ := h2
      have hset : PageSet roots sp (v + i) (entryOf e (vmaFlagsToPte vf)) s1 s2 := by
        refine pageSet_of_leafSet hpt1 hpt2 hl entryOf_present fun j _ => ?_
        unfold words
        rw [hpe, entryOf_frame hfl.bits]
      have hsame := hre1.outside sp (v + i) (by omega)
      have hframe := entryOf_frame (a := e) hfl.bits
      have hz2 := zeroFrame_eq hset.zeroPage
      -- the page was writable, so its frame is mapped nowhere else
      have hwe : has e pteWrite = true := by
        obtain ⟨e', hpe', hwe'⟩ := hpriv (v + i) (by omega) (by omega)
        rw [hsame, hpe'] at hpe
        rwa [← Option.some.inj hpe]
      refine ⟨hpt2, ?_, ⟨fun u hu => ?_, fun t u hu => ?_⟩, hun1.trans ⟨hset.zeroPage, hset.words⟩⟩
      · rw [hz2]
        exact ho1.reflag hpe hset.pte hframe fun _ => ho1.exclusive sp (v + i) e hpe hwe
      · by_cases hui : u = v + i
        · refine ⟨e, _, ?_, ?_, hframe, ?_, ?_⟩
          · rw [hui, ← hsame, hpe]
          · rw [hset.pte, if_pos ⟨rfl, hui⟩]
          · rw [entryOf_write, vmaFlagsToPte_write]
          · rw [entryOf_nx, (vmaFlagsToPte_nx vf).1]
        · obtain ⟨e0, e1, hp0, hp1, hrest⟩ := hre1.inside u (by omega)
          refine ⟨e0, e1, hp0, ?_, hrest⟩
          rw [hset.pte, if_neg (fun hc => hui hc.2), hp1]
      · rw [hset.pte, if_neg (by omega), hre1.outside t u (by omega)]
    · intro err s2 h2
      obtain ⟨-, -, hnone⟩ := h2
      obtain ⟨e, hpe, -⟩ := hpriv (v + i) (by omega) (by omega)
      rw [hre1.outside sp (v + i) (by omega), hpe] at hnone
      cases hnone
  · intro _ s' hs'
    exact hs'

end pages

-- The bytes that the image has from `off` on are in memory from `va` on.
def CopyOf (image : ExecImage) (k : Kern) (sp off va n : Nat) : Prop :=
  ∀ file, image.Reads file → ∀ i, i < n → k.byte sp (va + i) = file.getD (off + i) 0

end Jnu.Exec
