import Jnu.Minix.File

namespace Jnu.Minix

open Lib.Bytes Lib.Effect

variable {ι : Type} [DecidableEq ι] {o len x : Nat} {κ : ι} {s s' s2 : Fs} {F : Files ι} {nd nd' nd1 : Node}
  {c : Clock} {b i n : Nat} {M M' : Slot → Nat}

theorem slotZone_retouch (h : Good s F κ o) (hn : s.node o = some nd) (hn' : s'.node o = some nd')
    (hz : nd'.raw.zone = nd.raw.zone) (block : Nat → Mem) :
    slotZone block (F.refresh κ s' o) = slotZone block F := by
  funext κ' sl
  by_cases hk : κ' = κ
  · rw [hk, slotZone_eq (refresh_self hn'), slotZone_eq (h.node hn)]
    exact zoneOf_congr hz (fun _ _ _ => rfl) sl
  · unfold slotZone
    rw [refresh_other hk]

theorem Good.retouch (h : Good s F κ o) (hn : s.node o = some nd) (nd' : Node)
    (hz : nd'.raw.zone = nd.raw.zone) (hs' : s' = (s.at c).withNode o nd') :
    Good s' (F.refresh κ s' o) κ o ∧ slotZone s'.block (F.refresh κ s' o) = slotZone s.block F ∧
      byteAt s.sb s'.block (F.refresh κ s' o) = byteAt s.sb s.block F := by
  have hn' : s'.node o = some nd' := by rw [hs', withNode_self]
  have hmap : slotZone s'.block (F.refresh κ s' o) = slotZone s.block F := by
    rw [slotZone_retouch h hn hn' hz, hs']
    rfl
  have hb : s'.block = s.block := by rw [hs']; rfl
  have hsb : s'.sb = s.sb := by rw [hs']; rfl
  refine ⟨⟨?_, ?_, ⟨?_, fun κ' sl hin => ?_⟩, nd', hn', refresh_self hn'⟩, hmap, ?_⟩
  · rw [hs']
    exact h.fits
  · rw [hs']
    exact h.calm
  · rw [hmap, hsb]
    exact h.held.apart
  · rw [hmap, hsb] at hin ⊢
    rw [hb]
    exact h.held.marked κ' sl hin
  · funext κ' x
    unfold byteAt
    rw [hmap, hb]

-- The blocks `i` to `i + n - 1` made present: the list holds those that were missing.
structure Provided (o : Nat) (κ : ι) (i n : Nat) (s : Fs) (F : Files ι) (ok : Bool)
    (created : List Nat) (s' : Fs) : Prop where
  grown : Grown o κ (fun x => ∃ j, i ≤ j ∧ j < i + n ∧ x.Fills j) s F s'
  present : ok = true → ∀ j, i ≤ j → j < i + n →
    InData s.sb (slotZone s'.block (F.refresh κ s' o) κ (.data j))
  stuck : ok = false → ∃ j, i ≤ j ∧ j < i + n ∧ ¬ InData s.sb (slotZone s.block F κ (.data j))
  missing : ∀ j ∈ created, j < maxBlocks ∧ slotZone s.block F κ (.data j) = 0
  complete : ∀ j, slotZone s'.block (F.refresh κ s' o) κ (.data j) ≠ slotZone s.block F κ (.data j) →
    j ∈ created

theorem data_home_lt (h : (Slot.data b).home ≠ .nowhere) : b < maxBlocks := by
  unfold maxBlocks
  simp only [Slot.home] at h
  split_ifs at h
  · omega
  · omega
  · omega
  · exact absurd rfl h

theorem allocLoop_spec (h : Good s F κ o) :
    wp (allocLoop o n i) (fun r s' => Provided o κ i n s F r.1 r.2 s') never s := by
  induction n generalizing i s F with
  | zero =>
    refine wp_pure ⟨.at h s.clock, fun _ j h1 h2 => absurd h1 (by omega), fun hc => Bool.noConfusion hc,
      fun j hj => absurd hj List.not_mem_nil, fun j hj => absurd ?_ hj⟩
    rw [h.refresh]
  | succ n ih =>
    apply wp_bind
    apply minixBmap_read h
    intro c
    apply (minixBmap_spec (h.at c)).next _
    intro pblk s1 hm
    have hg1 : Grown o κ (fun x => ∃ j, i ≤ j ∧ j < i + (n + 1) ∧ x.Fills j) s F s1 := by
      have hF : F.refresh κ (s.at c) o = F := h.refresh
      apply (Grown.at h c).trans
      rw [hF]
      exact hm.grown.mono fun x hx => ⟨i, Nat.le_refl i, by omega, hx.2⟩
    -- of the blocks, only block `i` can have changed
    have hone : ∀ j, slotZone s1.block (F.refresh κ s1 o) κ (.data j) ≠
        slotZone s.block F κ (.data j) → j = i ∧ slotZone s.block F κ (.data i) = 0 ∧
          InData s.sb (slotZone s1.block (F.refresh κ s1 o) κ (.data i)) := by
      intro j hj
      rcases hm.grown.map (.data j) with hs | ⟨⟨-, hA⟩, h0, hin, -⟩
      · exact absurd hs hj
      rcases hA with ⟨hji, -⟩ | hA
      · rw [Slot.data.injEq] at hji
        rw [hji] at h0 hin
        exact ⟨hji, h0, hin⟩
      · exact hA.elim
    have hval := hm.value
    rw [at_sb] at hval
    refine wp_ite (fun hp => ?_) fun hp => ?_
    · have hout : ¬ InData s.sb (slotZone s1.block (F.refresh κ s1 o) κ (.data i)) := by
        intro hin
        rw [if_pos hin] at hval
        rw [hval] at hp
        exact h.fits.ne_zero hin hp
      refine wp_pure ⟨hg1, fun hc => Bool.noConfusion hc, fun _ => ⟨i, Nat.le_refl i, by omega, fun hin => ?_⟩,
        fun j hj => absurd hj List.not_mem_nil, fun j hj => absurd (hone j hj).2.2 hout⟩
      rw [← hg1.zone_ne (h.fits.ne_zero hin)] at hin
      exact hout hin
    have hin : InData s.sb (slotZone s1.block (F.refresh κ s1 o) κ (.data i)) := by
      by_contra hc
      rw [if_neg hc] at hval
      exact hp hval
    have hne := h.fits.ne_zero hin
    have hsb := hg1.frame.sb
    apply (ih hg1.good).next _
    intro rest s2 hr
    apply wp_pure
    obtain ⟨hg2, hpres, hstuck, hmiss, hcomp⟩ := hr
    rw [refresh_refresh, hsb] at hpres
    simp only [refresh_refresh] at hcomp
    -- block `i` is in the list exactly if it was missing
    have hmem : ∀ j, j ∈ (if (if InData s.sb (slotZone s.block F κ (.data i)) then
        slotZone s.block F κ (.data i) else 0) = 0 then i :: rest.2 else rest.2) ↔
        (j = i ∧ ¬ InData s.sb (slotZone s.block F κ (.data i))) ∨ j ∈ rest.2 := by
      intro j
      by_cases hold : InData s.sb (slotZone s.block F κ (.data i))
      · rw [if_pos hold, if_neg (h.fits.ne_zero hold)]
        simp [hold]
      · simp [hold]
    refine ⟨hg1.trans (hg2.mono ?_), fun hok j h1 h2 => ?_, fun hok => ?_, fun j hj => ?_, fun j hj => ?_⟩
    · rintro x ⟨j, h1, h2, hx⟩
      exact ⟨j, by omega, by omega, hx⟩
    · by_cases hji : j = i
      · have := hg2.zone_ne hne
        rw [refresh_refresh] at this
        rw [hji, this]
        exact hin
      · exact hpres hok j (by omega) (by omega)
    · obtain ⟨j, h1, h2, hout⟩ := hstuck hok
      refine ⟨j, by omega, by omega, fun hin => ?_⟩
      rw [hsb, hg1.zone_ne (h.fits.ne_zero hin)] at hout
      exact hout hin
    · rcases (hmem j).1 hj with ⟨rfl, hold⟩ | hj
      · refine ⟨data_home_lt (slotZone_home_ne hne), ?_⟩
        by_contra h0
        rw [hg1.zone_ne h0] at hin
        exact hold hin
      · obtain ⟨h1, h2⟩ := hmiss j hj
        refine ⟨h1, ?_⟩
        by_contra h0
        rw [hg1.zone_ne h0] at h2
        exact h0 h2
    · apply (hmem j).2
      by_cases hc : slotZone s2.block (F.refresh κ s2 o) κ (.data j) =
          slotZone s1.block (F.refresh κ s1 o) κ (.data j)
      · rw [hc] at hj
        obtain ⟨hji, h0, -⟩ := hone j hj
        rw [h0]
        exact .inl ⟨hji, h.fits.zero_out⟩
      · exact .inr (hcomp j hc)

section rollback

-- The outcome of a write that failed: sizes, blocks and bytes as before, and no zone more in use.
structure Undone (o : Nat) (κ : ι) (s : Fs) (F : Files ι) (s' : Fs) : Prop where
  frame : Frame o s s'
  good : Good s' (F.refresh κ s' o) κ o
  map : ∀ j, slotZone s'.block (F.refresh κ s' o) κ (.data j) = slotZone s.block F κ (.data j)
  tables : ∀ sl, slotZone s'.block (F.refresh κ s' o) κ sl = slotZone s.block F κ sl ∨
    slotZone s'.block (F.refresh κ s' o) κ sl = 0
  other : ∀ κ', κ' ≠ κ → slotZone s'.block (F.refresh κ s' o) κ' = slotZone s.block F κ'
  marks : ∀ w, InData s.sb w → zmarked s.sb s'.block w = true → zmarked s.sb s.block w = true
  freed : ∀ w, InData s.sb w → zmarked s.sb s.block w = true → zmarked s.sb s'.block w = true ∨
    ∃ sl, slotZone s.block F κ sl = w ∧ slotZone s'.block (F.refresh κ s' o) κ sl = 0
  bytes : byteAt s.sb s'.block (F.refresh κ s' o) = byteAt s.sb s.block F

theorem Undone.at (h : Good s F κ o) (c : Clock) : Undone o κ s F (s.at c) := by
  have hF : F.refresh κ (s.at c) o = F := h.refresh
  refine ⟨.at o s c, hF.symm ▸ h.at c, fun j => ?_, fun sl => .inl ?_, fun κ' _ => ?_, fun _ _ hm => hm,
    fun _ _ hm => .inl hm, ?_⟩
  · rw [hF, at_block]
  · rw [hF, at_block]
  · rw [hF, at_block]
  · rw [hF, at_block]

theorem Undone.of_at (h : Undone o κ (s.at c) F s') : Undone o κ s F s' :=
  ⟨h.frame.of_at, h.good, h.map, h.tables, h.other, h.marks, h.freed, h.bytes⟩

theorem table_before (hdata : ∀ j, M' (.data j) = M (.data j))
    (hfill : ∀ t : Slot, t.IsTable → M' t ≠ 0 → Filled M' t)
    (hup : ∀ sl t i, sl.home = .entry t i → M sl ≠ 0 → M t ≠ 0) {t : Slot} (ht : t.IsTable)
    (hne : M' t ≠ 0) : M t ≠ 0 := by
  have hlow : ∀ t : Slot, (∃ j, t = .single ∨ t = .inner j) → M' t ≠ 0 → M t ≠ 0 := by
    intro t ⟨j, hj⟩ hne
    have htt : t.IsTable := by rcases hj with rfl | rfl <;> trivial
    obtain ⟨sl, i, hh, hsl⟩ := hfill t htt hne
    have hd : ∃ b, sl = .data b := by
      rcases hj with rfl | rfl
      · exact home_data (j := 0) (.inl hh)
      · exact home_data (.inr hh)
    obtain ⟨b, rfl⟩ := hd
    rw [hdata] at hsl
    exact hup _ t i hh hsl
  cases t with
  | data b => exact absurd ht (Slot.not_table b)
  | single => exact hlow _ ⟨0, .inl rfl⟩ hne
  | inner j => exact hlow _ ⟨j, .inr rfl⟩ hne
  | double =>
    obtain ⟨sl, i, hh, hsl⟩ := hfill .double trivial hne
    have hsome : sl.home ≠ .nowhere := by
      rw [hh]
      exact fun hc => Home.noConfusion hc
    have hin : sl = .inner i := by
      rw [← Slot.ofHome_home hsome, hh]
      rfl
    rw [hin] at hh hsl
    exact hup _ _ i hh (hlow _ ⟨i, .inr rfl⟩ hsl)

variable {created : List Nat} {s1 : Fs}

theorem rollbackAlloc_spec (hn : s.node o = some nd) (hsz : nd.raw.size = BitVec.ofNat 32 nd.size)
    {ok : Bool} (hp : Provided o κ i n s F ok created s1) :
    wp (rollbackAlloc o created nd.size nd.raw.time) (fun _ s' => Undone o κ s F s') never s1 := by
  have hsb1 := hp.grown.frame.sb
  apply (clearAll_spec hp.grown.good fun j hj => (hp.missing j hj).1).next _
  intro _ s2 ⟨hs2, hclear⟩
  apply (minixPruneEmptyIndirects_spec hs2.good).next _
  intro _ s3 ⟨hs3, hfill⟩
  rw [refresh_refresh] at hclear
  simp only [refresh_refresh] at hfill
  -- the blocks are those from before the call
  have hdata : ∀ j, slotZone s3.block (F.refresh κ s3 o) κ (.data j) =
      slotZone s.block F κ (.data j) := by
    intro j
    have h₃ := hs3.keeps (.data j) (Slot.not_table j)
    simp only [refresh_refresh] at h₃
    rw [h₃]
    by_cases hj : j ∈ created
    · rw [hclear j hj, (hp.missing j hj).2]
    have h₂ := hs2.keeps (.data j) (by rintro ⟨b, hb, hc⟩; exact hj (Slot.data.inj hc ▸ hb))
    rw [refresh_refresh] at h₂
    rw [h₂]
    by_contra hc
    exact hj (hp.complete j hc)
  have hshrunk := (hs2.mono fun _ _ => trivial).trans (hs3.mono fun _ _ => trivial)
  have hother : ∀ κ', κ' ≠ κ → slotZone s3.block (F.refresh κ s3 o) κ' = slotZone s.block F κ' := by
    intro κ' hne
    have := hshrunk.other κ' hne
    rw [refresh_refresh] at this
    rw [this, hp.grown.other κ' hne]
  -- a slot that is still filled was filled before
  have hbefore : ∀ sl, slotZone s3.block (F.refresh κ s3 o) κ sl ≠ 0 → slotZone s.block F κ sl ≠ 0 := by
    intro sl hne
    cases sl with
    | data j =>
      rw [hdata j] at hne
      exact hne
    | single => exact table_before hdata hfill (fun sl t i hh hc hz => hc (slotZone_of_table hh hz)) trivial hne
    | double => exact table_before hdata hfill (fun sl t i hh hc hz => hc (slotZone_of_table hh hz)) trivial hne
    | inner j =>
      exact table_before hdata hfill (fun sl t i hh hc hz => hc (slotZone_of_table hh hz)) trivial hne
  have htables : ∀ sl, slotZone s3.block (F.refresh κ s3 o) κ sl = slotZone s.block F κ sl ∨
      slotZone s3.block (F.refresh κ s3 o) κ sl = 0 := by
    intro sl
    by_cases hne : slotZone s3.block (F.refresh κ s3 o) κ sl = 0
    · exact .inr hne
    have h₁ := (hshrunk.map sl).resolve_right fun hc => by
      rw [refresh_refresh] at hc
      exact hne hc.2
    rw [refresh_refresh] at h₁
    rw [h₁, hp.grown.zone_ne (hbefore sl hne)]
    exact .inl rfl
  have hmarks : ∀ w, InData s.sb w → zmarked s.sb s3.block w = true →
      zmarked s.sb s.block w = true := by
    intro w hw hm
    have hm1 := hshrunk.marks w (hsb1 ▸ hw) (by rw [hsb1]; exact hm)
    rw [hsb1] at hm1
    rcases hp.grown.track w hw hm1 with hm0 | ⟨sl, -, h0, heq⟩
    · exact hm0
    exfalso
    apply hbefore sl _ h0
    intro hz
    have := hshrunk.gone sl (by rw [heq, hsb1]; exact hw) (by rw [refresh_refresh]; exact hz)
    rw [heq, hsb1, hm] at this
    cases this
  have hfreed : ∀ w, InData s.sb w → zmarked s.sb s.block w = true → zmarked s.sb s3.block w = true ∨
      ∃ sl, slotZone s.block F κ sl = w ∧ slotZone s3.block (F.refresh κ s3 o) κ sl = 0 := by
    intro w hw hm
    have hm1 := hp.grown.marks w hw hm
    have hfree := hshrunk.freed w (hsb1 ▸ hw) (by rw [hsb1]; exact hm1)
    rw [hsb1, refresh_refresh] at hfree
    apply hfree.imp_right
    rintro ⟨sl, -, h1, h2⟩
    refine ⟨sl, ?_, h2⟩
    -- the zone was in use, so the slot had it before
    rcases hp.grown.map sl with h3 | ⟨-, -, -, h3⟩
    · rw [← h3, h1]
    · rw [h1, hm] at h3
      cases h3
  have hbytes : byteAt s.sb s3.block (F.refresh κ s3 o) = byteAt s.sb s.block F := by
    funext κ' x
    have h₃ := (hs3.bytes κ' x).resolve_right fun hc => Slot.not_table _ hc.2.1
    simp only [refresh_refresh] at h₃
    rw [hs2.frame.sb, hsb1] at h₃
    rw [h₃]
    have h₂ := hs2.bytes κ' x
    rw [refresh_refresh, hsb1, hp.grown.bytes κ' x] at h₂
    rcases h₂ with h₂ | ⟨hk, ⟨b, hb, hc⟩, h₂⟩
    · exact h₂
    -- a block that was missing showed zeroes
    have h0 := (hp.missing b hb).2
    rw [h₂, hk]
    unfold byteAt
    rw [hc, h0, if_neg (hsb1 ▸ hp.grown.good.fits.zero_out)]
  obtain ⟨nd3, hn3, hk3⟩ := (hp.grown.frame.trans hshrunk.frame).self nd hn
  apply wp_bind_nodeOf hn3
  apply wp_setNode
  have hg3 : Good s3 (F.refresh κ s3 o) κ o := by
    have := hshrunk.good
    rwa [refresh_refresh] at this
  have hsb3 : s3.sb = s.sb := hshrunk.frame.sb.trans hsb1
  obtain ⟨hg4, hmap4, hbytes4⟩ := hg3.retouch (c := s3.clock) hn3 { nd3 with
    size := nd.size
    raw := { nd3.raw with size := BitVec.ofNat 32 nd.size, time := nd.raw.time }
    dirty := true } rfl rfl
  rw [refresh_refresh] at hg4 hmap4 hbytes4
  rw [hsb3] at hbytes4
  refine ⟨?_, hg4, fun j => ?_, fun sl => ?_, fun κ' hne => ?_, hmarks, fun w hw hm => ?_, hbytes4.trans hbytes⟩
  · have hraw : { nd3.raw with size := BitVec.ofNat 32 nd.size, time := nd.raw.time } =
        { nd.raw with zone := nd3.raw.zone } := by rw [hk3.raw, ← hsz]
    refine ⟨(hp.grown.frame.trans hshrunk.frame).toOuter.trans
      (Outer.put (c := s3.clock) fun _ _ => rfl), fun nd0 hn0 => ⟨_, withNode_self, ?_⟩⟩
    rw [hn, Option.some.injEq] at hn0
    rw [← hn0]
    exact ⟨hk3.ino, rfl, hk3.isDir, hk3.mode, hk3.refcount, hraw, fun _ => rfl⟩
  · exact (congrFun (congrFun hmap4 κ) (.data j)).trans (hdata j)
  · have hsl := congrFun (congrFun hmap4 κ) sl
    exact (htables sl).imp hsl.trans hsl.trans
  · exact (congrFun hmap4 κ').trans (hother κ' hne)
  · apply (hfreed w hw hm).imp_right
    rintro ⟨sl, h1, h2⟩
    exact ⟨sl, h1, (congrFun (congrFun hmap4 κ) sl).trans h2⟩

end rollback

section write

variable {offset : Nat} {bs : List Byte}

structure NodeWritten (offset len : Nat) (nd nd' : Node) : Prop where
  ino : nd'.ino = nd.ino
  size : nd'.size = max nd.size (offset + len)
  isDir : nd'.isDir = nd.isDir
  mode : nd'.mode = nd.mode
  refcount : nd'.refcount = nd.refcount
  rawSize : nd.raw.size = BitVec.ofNat 32 nd.size → nd'.raw.size = BitVec.ofNat 32 nd'.size
  raw : nd'.raw = { nd.raw with
    zone := nd'.raw.zone, size := nd'.raw.size, time := nd'.raw.time }
  dirty : nd'.dirty = true

structure Wrote (o : Nat) (κ : ι) (offset : Nat) (bs : List Byte) (s : Fs) (F : Files ι)
    (s' : Fs) : Prop where
  outer : Outer o s s'
  node : ∀ nd, s.node o = some nd → ∃ nd', s'.node o = some nd' ∧ NodeWritten offset bs.length nd nd'
  good : Good s' (F.refresh κ s' o) κ o
  map : ∀ sl, slotZone s'.block (F.refresh κ s' o) κ sl = slotZone s.block F κ sl ∨
    (slotZone s.block F κ sl = 0 ∧ InData s.sb (slotZone s'.block (F.refresh κ s' o) κ sl) ∧
      ∃ j, offset / blockSize ≤ j ∧ j ≤ (offset + bs.length - 1) / blockSize ∧ sl.Fills j)
  present : ∀ x, offset ≤ x → x < offset + bs.length →
    InData s.sb (slotZone s'.block (F.refresh κ s' o) κ (.data (x / blockSize)))
  other : ∀ κ', κ' ≠ κ → slotZone s'.block (F.refresh κ s' o) κ' = slotZone s.block F κ'
  marks : ∀ w, InData s.sb w → zmarked s.sb s.block w = true → zmarked s.sb s'.block w = true
  track : ∀ w, InData s.sb w → zmarked s.sb s'.block w = true → zmarked s.sb s.block w = true ∨
    ∃ sl, slotZone s.block F κ sl = 0 ∧ slotZone s'.block (F.refresh κ s' o) κ sl = w
  bytes : ∀ κ' x, byteAt s.sb s'.block (F.refresh κ s' o) κ' x =
    if κ' = κ ∧ offset ≤ x ∧ x < offset + bs.length then bs.getD (x - offset) 0
    else byteAt s.sb s.block F κ' x

theorem Wrote.of_parts {A : Slot → Prop} {s1 : Fs} (hn : s.node o = some nd) (hg : Grown o κ A s F s1)
    (hA : ∀ sl, A sl → ∃ j, offset / blockSize ≤ j ∧ j ≤ (offset + bs.length - 1) / blockSize ∧ sl.Fills j)
    (hpres : ∀ x, offset ≤ x → x < offset + bs.length →
      InData s.sb (slotZone s1.block (F.refresh κ s1 o) κ (.data (x / blockSize))))
    (hst : Stored κ offset bs s1 (F.refresh κ s1 o) s2) (hn1 : s1.node o = some nd1)
    (hz : nd'.raw.zone = nd1.raw.zone) (hw : NodeWritten offset bs.length nd nd')
    (hs' : s' = (s2.at c).withNode o nd') : Wrote o κ offset bs s F s' := by
  have hsb1 := hg.frame.sb
  have hn2 : s2.node o = some nd1 := by
    obtain ⟨c, block, rfl⟩ := hst.state
    exact hn1
  obtain ⟨hg3, hmap3, hbytes3⟩ := (hg.good.stored hst).retouch hn2 nd' hz hs'
  rw [refresh_refresh] at hg3 hmap3 hbytes3
  have hmap := hmap3.trans hst.map
  have hmarks : ∀ w, InData s.sb w → zmarked s.sb s'.block w = zmarked s.sb s1.block w := by
    intro w hw
    have := hst.marks w (hsb1 ▸ hw)
    rw [hsb1] at this
    rw [← this, hs']
    rfl
  refine ⟨?_, fun nd0 hn0 => ?_, hg3, fun sl => ?_, fun x h1 h2 => ?_, fun κ' hne => ?_, fun w hw hm => ?_,
    fun w hw hm => ?_, fun κ' x => ?_⟩
  · apply hg.frame.toOuter.trans
    have hbelow := hst.below
    obtain ⟨c', block, rfl⟩ := hst.state
    rw [hs']
    exact .put hbelow
  · rw [hn, Option.some.injEq] at hn0
    exact ⟨nd', by rw [hs', withNode_self], hn0 ▸ hw⟩
  · rw [hmap]
    exact (hg.map sl).imp_right fun hc => ⟨hc.2.1, hc.2.2.1, hA sl hc.1⟩
  · rw [hmap]
    exact hpres x h1 h2
  · rw [hmap, hg.other κ' hne]
  · rw [hmarks w hw]
    exact hg.marks w hw hm
  · rw [hmarks w hw] at hm
    rw [hmap]
    exact (hg.track w hw hm).imp_right fun ⟨sl, _, h1, h2⟩ => ⟨sl, h1, h2⟩
  · have hx := hst.bytes κ' x
    rw [hsb1, hg.bytes κ' x] at hx
    rw [← hx, ← hsb1, ← hst.sb]
    exact congrFun (congrFun hbytes3 κ') x

theorem Wrote.of_at (h : Wrote o κ offset bs (s.at c) F s') : Wrote o κ offset bs s F s' :=
  ⟨h.outer.of_at, h.node, h.good, h.map, h.present, h.other, h.marks, h.track, h.bytes⟩

theorem backupOf_spec {Q : List Byte → Fs → Prop} {E : Errno → Fs → Prop}
    (h : Good s F κ o) (hn : s.node o = some nd) (hend : offset + len ≤ 2 ^ 42)
    (hQ : ∀ bs c, Q bs (s.at c)) : wp (backupOf o offset len nd.size) Q E s := by
  unfold backupOf
  split_ifs with hoff
  · apply wp_bind_attempt
    have hread : wp (minixRead o offset (min len (nd.size - offset))) (fun bs s' => (∃ c, s' = s.at c) ∧
        bs = slice (byteAt s.sb s.block F κ) offset (min len (nd.size - offset)))
        never s := by
      apply wp_bind_nodeOf hn
      rw [if_neg (by omega), Nat.min_assoc, Nat.min_self]
      exact readLoop_spec h (Nat.le_refl _) (by omega)
    apply hread.any.post _
    intro bs s' ⟨⟨c, hs'⟩, hbs⟩
    have hlen : bs.length = min len (nd.size - offset) := by rw [hbs, slice_length]
    dsimp only
    rw [if_neg (by simpa using hlen), hs']
    exact wp_pure (hQ _ c)
  · exact wp_pure (hQ _ s.clock)

theorem mem_range_block (h1 : offset ≤ x) (h2 : x < offset + len) :
    offset / blockSize ≤ x / blockSize ∧
      x / blockSize < offset / blockSize + ((offset + len - 1) / blockSize - offset / blockSize + 1) := by
  have := Nat.div_le_div_right (c := blockSize) h1
  have := Nat.div_le_div_right (c := blockSize) (show x ≤ offset + len - 1 by omega)
  omega

inductive Refused (s : Fs) (F : Files ι) (κ : ι) (offset len : Nat) : Errno → Prop
  | large (h : 0xffffffff < offset + len) : Refused s F κ offset len .einval
  | memory (h : ¬ s.Plenty) : Refused s F κ offset len .enomem
  | space (j : Nat) (h1 : offset / blockSize ≤ j) (h2 : j ≤ (offset + len - 1) / blockSize)
      (h : ¬ InData s.sb (slotZone s.block F κ (.data j))) : Refused s F κ offset len .enospc

section

variable (h : Good s F κ o) (hn : s.node o = some nd) (hsz : nd.raw.size = BitVec.ofNat 32 nd.size)
include h hn hsz

theorem writeChunk_spec (hbs : bs ≠ []) :
    wp (writeChunk o offset bs)
      (fun n s' => n = bs.length ∧ offset + bs.length ≤ maxSize ∧ Wrote o κ offset bs s F s')
      (fun e s' => Refused s F κ offset bs.length e ∧ Undone o κ s F s') s := by
  have hpos : 0 < bs.length := List.length_pos_iff.2 hbs
  have hrange : ∀ j, offset / blockSize ≤ j → j < offset / blockSize +
      ((offset + bs.length - 1) / blockSize - offset / blockSize + 1) →
      j ≤ (offset + bs.length - 1) / blockSize := by
    intro j h1 h2
    have := Nat.div_le_div_right (c := blockSize) (show offset ≤ offset + bs.length - 1 by omega)
    omega
  apply wp_bind_nodeOf hn
  refine wp_ite (fun hbig => wp_error ⟨.large hbig, Undone.at h s.clock⟩) fun hbig => ?_
  apply wp_bind
  refine wp_kmalloc_cases (fun c1 => ?_) fun c1 hp => wp_error ⟨.memory hp, Undone.at h c1⟩
  apply wp_bind
  refine wp_kmalloc_cases (fun c2 => ?_) fun c2 hp => wp_error ⟨.memory hp, Undone.at h c2⟩
  apply wp_bind
  refine backupOf_spec (h.at c2) hn (by omega) fun backup c3 => ?_
  apply (allocLoop_spec (h.at c3)).any.next _
  intro ⟨all, created⟩ s1 hp
  by_cases hall : ¬ all = true
  · dsimp only
    rw [if_pos hall]
    apply (rollbackAlloc_spec (s := s.at c3) hn hsz hp).any.next _
    intro _ s' hu
    obtain ⟨j, h1, h2, hout⟩ := hp.stuck (by simpa using hall)
    exact wp_error ⟨.space j h1 (hrange j h1 h2) hout, hu.of_at⟩
  dsimp only
  rw [if_neg hall]
  rw [not_not] at hall
  have hmapped : ∀ x, offset ≤ x → x < offset + bs.length →
      InData s1.sb (slotZone s1.block (F.refresh κ s1 o) κ (.data (x / blockSize))) := by
    intro x h1 h2
    obtain ⟨h3, h4⟩ := mem_range_block h1 h2
    rw [hp.grown.frame.sb]
    exact hp.present hall _ h3 h4
  apply (writeLoop_spec hp.grown.good (Nat.le_refl _) hmapped).any.next _
  intro left s2 ⟨hl, hst⟩
  rw [if_neg (by simpa using hl)]
  apply wp_bind
  apply wp_rtcNowUnix
  intro now c4
  obtain ⟨nd1, hn1, hk1⟩ := hp.grown.frame.self nd hn
  have hn2 : s2.node o = some nd1 := by
    obtain ⟨c, block, rfl⟩ := hst.state
    exact hn1
  refine wp_bind_nodeOf hn2 ?_
  apply wp_bind
  apply wp_setNode
  apply wp_pure
  have hroom : offset + bs.length ≤ maxSize := by
    have hlast := hmapped (offset + bs.length - 1) (by omega) (by omega)
    have hlt := data_home_lt (slotZone_home_ne (hp.grown.good.fits.ne_zero hlast))
    unfold maxSize
    unfold blockSize at hlt ⊢
    omega
  refine ⟨rfl, hroom, ?_⟩
  apply Wrote.of_at (c := c3)
  refine .of_parts (c := c4) hn hp.grown (fun sl ⟨j, h1, h2, hj⟩ => ⟨j, h1, hrange j h1 h2, hj⟩)
    (fun x h1 h2 => ?_) hst hn1 ?_ ?_ rfl
  · have hin := hmapped x h1 h2
    rw [hp.grown.frame.sb] at hin
    exact hin
  · rfl
  refine ⟨hk1.ino, by rw [hk1.size], hk1.isDir, hk1.mode, hk1.refcount, fun _ => ?_, ?_, rfl⟩
  · rw [hk1.size]
    split_ifs with hgrow
    · rfl
    · rw [hk1.raw, Nat.max_eq_left (by omega)]
      exact hsz
  · rw [hk1.raw]

theorem minixWrite_spec :
    wp (minixWrite o offset bs)
      (fun n s' => n = min bs.length minixWriteMaxChunk ∧
        (bs ≠ [] → offset + n ≤ maxSize ∧ Wrote o κ offset (bs.take minixWriteMaxChunk) s F s') ∧
        (bs = [] → s' = s))
      (fun e s' => Refused s F κ offset (min bs.length minixWriteMaxChunk) e ∧ Undone o κ s F s') s := by
  unfold minixWrite
  split_ifs with hbs
  · apply wp_pure
    rw [hbs]
    exact ⟨rfl, fun hc => absurd rfl hc, fun _ => rfl⟩
  have hne : bs.take minixWriteMaxChunk ≠ [] := by
    rw [Ne, List.take_eq_nil_iff]
    rintro (hc | hc)
    · cases hc
    · exact hbs hc
  have hlen : (bs.take minixWriteMaxChunk).length = min bs.length minixWriteMaxChunk := by
    rw [List.length_take, Nat.min_comm]
  rw [← hlen]
  apply (writeChunk_spec h hn hsz hne).post _
  intro n s' ⟨hlen, hend, hw⟩
  rw [hlen]
  exact ⟨rfl, fun _ => ⟨hend, hw⟩, fun hc => absurd hc hbs⟩

end

end write

end Jnu.Minix
