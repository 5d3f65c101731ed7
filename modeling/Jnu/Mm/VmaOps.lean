import Jnu.Mm.Invariant

namespace Jnu.Mm

open Lib.Dyadic Lib.Effect Lib.Intervals Paging Pmm
open Function

variable {k : Kern} {root id b m p : Nat} {a : AddrSpace} {t t'' : VmaTree} {L A B L'' C : List Nat}
  {R : Set Nat} {K : Set Block}

variable {k' k'' : Kern} {D D' : Nat → Nat → Prop}

section tree

variable {P : Vma → Prop} {t' : VmaTree} {n : Nat} {L' : List Nat} {x i upper : Nat}

-- The map from addresses to flags that the VMAs `L` make up.
def addrMap (t : VmaTree) (L : List Nat) (x : Nat) : Option VmaFlags :=
  (t.spans.locate L x).map fun i => (t.vma i).flags

theorem addrMap_eq_some (h : t.spans.Ordered L) {f : VmaFlags} :
    addrMap t L x = some f ↔
      ∃ i ∈ L, (t.vma i).start ≤ x ∧ x < (t.vma i).stop ∧ (t.vma i).flags = f := by
  unfold addrMap
  simp only [Option.map_eq_some_iff, h.locate_eq_some]
  constructor
  · rintro ⟨i, ⟨hi, hlo, hhi⟩, hf⟩
    exact ⟨i, hi, hlo, hhi, hf⟩
  · rintro ⟨i, hi, hlo, hhi, hf⟩
    exact ⟨i, ⟨hi, hlo, hhi⟩, hf⟩

theorem addrMap_eq_none :
    addrMap t L x = none ↔ ∀ i ∈ L, ¬ ((t.vma i).start ≤ x ∧ x < (t.vma i).stop) := by
  unfold addrMap
  rw [Option.map_eq_none_iff]
  exact Family.locate_eq_none

theorem addrMap_congr (h : ∀ i ∈ L, t'.vma i = t.vma i) (x : Nat) :
    addrMap t' L x = addrMap t L x := by
  have hloc : t'.spans.locate L x = t.spans.locate L x := by
    apply List.find?_congr
    intro i hi
    apply decide_eq_decide.2
    simp only [Family.Has, VmaTree.spans, h i hi]
  unfold addrMap
  rw [hloc]
  cases he : t.spans.locate L x with
  | none => rfl
  | some i => rw [Option.map_some, Option.map_some, h i (List.mem_of_find?_eq_some he)]

-- The tree holds the VMAs `L`; they are objects of the heap and satisfy `P`.
structure TreeInv (P : Vma → Prop) (t : VmaTree) (n : Nat) (L : List Nat) : Prop where
  holds : t.Holds L
  alloc : ∀ i ∈ L, i < n
  good : ∀ i ∈ L, P (t.vma i)

theorem TreeInv.mono (h : TreeInv P t n L) (hn : n ≤ m) : TreeInv P t m L :=
  ⟨h.holds, fun i hi => (h.alloc i hi).trans_le hn, h.good⟩

theorem TreeInv.range (h : TreeInv P t n L) (hi : i ∈ L) :
    (t.vma i).start < (t.vma i).stop := h.holds.ordered.nonempty i hi

-- What both parts of a VMA inherit when it is cut at a page boundary.
structure Cuttable (P : Vma → Prop) : Prop where
  lower : ∀ v b, P v → v.start < b → b < v.stop → b % pageSize = 0 → P { v with stop := b }
  upper : ∀ v b, P v → v.start < b → b < v.stop → b % pageSize = 0 → P { v with start := b }

structure Cut (t t' : VmaTree) (A B : List Nat) (id upper b : Nat) : Prop where
  lower : t'.vma id = { t.vma id with stop := b }
  upper : t'.vma upper = { t.vma id with start := b }
  other : ∀ i ∈ A ++ B, t'.vma i = t.vma i
  inside : (t.vma id).start < b ∧ b < (t.vma id).stop

theorem Cut.addrMap (h : Cut t t' A B id upper b) (ho : t.spans.Ordered (A ++ id :: B))
    (ho' : t'.spans.Ordered (A ++ id :: upper :: B)) (x : Nat) :
    addrMap t' (A ++ id :: upper :: B) x = addrMap t (A ++ id :: B) x := by
  apply Option.ext
  intro f
  rw [addrMap_eq_some ho', addrMap_eq_some ho]
  obtain ⟨hlo, hhi⟩ := h.inside
  constructor
  · rintro ⟨i, hi, hs, he, hf⟩
    simp only [List.mem_append, List.mem_cons] at hi
    have hmem : i ∈ A ∨ i ∈ B → ∃ i ∈ A ++ id :: B,
        (t.vma i).start ≤ x ∧ x < (t.vma i).stop ∧ (t.vma i).flags = f := by
      intro hi
      rw [h.other i (by simpa using hi)] at hs he hf
      exact ⟨i, by simp; tauto, hs, he, hf⟩
    rcases hi with hi | rfl | rfl | hi
    · exact hmem (.inl hi)
    · rw [h.lower] at hs he hf
      simp only at hs he hf
      exact ⟨i, by simp, hs, by omega, hf⟩
    · rw [h.upper] at hs he hf
      simp only at hs he hf
      exact ⟨id, by simp, by omega, he, hf⟩
    · exact hmem (.inr hi)
  · rintro ⟨i, hi, hs, he, hf⟩
    simp only [List.mem_append, List.mem_cons] at hi
    have hmem : i ∈ A ∨ i ∈ B → ∃ i ∈ A ++ id :: upper :: B,
        (t'.vma i).start ≤ x ∧ x < (t'.vma i).stop ∧ (t'.vma i).flags = f := by
      intro hi
      rw [← h.other i (by simpa using hi)] at hs he hf
      exact ⟨i, by simp; tauto, hs, he, hf⟩
    rcases hi with hi | rfl | hi
    · exact hmem (.inl hi)
    · by_cases hxb : x < b
      · refine ⟨i, by simp, ?_⟩
        rw [h.lower]
        exact ⟨hs, hxb, hf⟩
      · refine ⟨upper, by simp, ?_⟩
        rw [h.upper]
        exact ⟨not_lt.1 hxb, he, hf⟩
    · exact hmem (.inr hi)

theorem Cut.within (h : Cut t t' A B id upper b) (hi : i ∈ A ++ id :: upper :: B) :
    ∃ j ∈ A ++ id :: B, (t.vma j).start ≤ (t'.vma i).start ∧ (t'.vma i).stop ≤ (t.vma j).stop := by
  obtain ⟨hlo, hhi⟩ := h.inside
  simp only [List.mem_append, List.mem_cons] at hi
  rcases hi with hi | rfl | rfl | hi
  · exact ⟨i, by simp [hi], by rw [h.other i (by simp [hi])], by rw [h.other i (by simp [hi])]⟩
  · exact ⟨i, by simp, by rw [h.lower], by rw [h.lower]; exact hhi.le⟩
  · exact ⟨id, by simp, by rw [h.upper]; exact hlo.le, by rw [h.upper]⟩
  · exact ⟨i, by simp [hi], by rw [h.other i (by simp [hi])], by rw [h.other i (by simp [hi])]⟩

-- The same map, made up of parts of the old VMAs.
structure Refined (t t' : VmaTree) (L L' : List Nat) : Prop where
  addrMap : ∀ x, addrMap t' L' x = addrMap t L x
  within : ∀ i ∈ L', ∃ j ∈ L, (t.vma j).start ≤ (t'.vma i).start ∧ (t'.vma i).stop ≤ (t.vma j).stop

theorem Refined.refl (t : VmaTree) (L : List Nat) : Refined t t L L :=
  ⟨fun _ => rfl, fun i hi => ⟨i, hi, le_refl _, le_refl _⟩⟩

theorem Refined.trans (h : Refined t t' L L') (h' : Refined t' t'' L' L'') : Refined t t'' L L'' := by
  refine ⟨fun x => (h'.addrMap x).trans (h.addrMap x), fun i hi => ?_⟩
  obtain ⟨j, hj, hj1, hj2⟩ := h'.within i hi
  obtain ⟨m, hm, hm1, hm2⟩ := h.within j hj
  exact ⟨m, hm, hm1.trans hj1, hj2.trans hm2⟩

def NoStraddle (t : VmaTree) (L : List Nat) (b : Nat) : Prop :=
  ∀ i ∈ L, (t.vma i).stop ≤ b ∨ b ≤ (t.vma i).start

theorem Refined.noStraddle (h : Refined t t' L L') (hb : NoStraddle t L b) :
    NoStraddle t' L' b := by
  intro i hi
  obtain ⟨j, hj, hj1, hj2⟩ := h.within i hi
  rcases hb j hj with hc | hc
  · exact .inl (hj2.trans hc)
  · exact .inr (hc.trans hj1)

theorem noStraddle_of_locate (h : t.spans.Ordered L) (hp : p = b ∨ p + 1 = b)
    (hno : ∀ i, t.spans.locate L p = some i → (t.vma i).stop ≤ b ∨ b ≤ (t.vma i).start) :
    NoStraddle t L b := by
  intro i hi
  by_contra hc
  have hhas : t.spans.Has p i := ⟨by show (t.vma i).start ≤ p; omega, by show p < (t.vma i).stop; omega⟩
  have := hno i (h.locate_eq_some.2 ⟨hi, hhas⟩)
  omega

end tree

-- Only the tree of one space has changed.
structure Retree (k k' : Kern) (root : Nat) (a : AddrSpace) (t' : VmaTree) : Prop where
  idle : Idle k k'
  other : ∀ sp, sp ≠ root → k'.space sp = k.space sp
  self : k'.space root = some { a with vmas := t' }

theorem Retree.refl (ha : k.space root = some a) : Retree k k root a a.vmas := ⟨Idle.refl k, fun _ _ => rfl, ha⟩

theorem Retree.trans {t' : VmaTree} (h : Retree k k' root a t')
    (h' : Retree k' k'' root { a with vmas := t' } t'') : Retree k k'' root a t'' :=
  ⟨h.idle.trans h'.idle, fun sp hsp => (h'.other sp hsp).trans (h.other sp hsp), h'.self⟩

section split

variable {P c : Vma → Prop} {n start stop : Nat}

-- The original comes out, then its lower part goes back, then the upper part.
theorem split_tree {t : VmaTree} (h : TreeInv P t n (A ++ id :: B)) (hP : Cuttable P)
    (hlo : (t.vma id).start < b) (hhi : b < (t.vma id).stop) (hb : b % pageSize = 0) :
    ∃ t1 t2 t3, vmaRemove (t.set n { t.vma id with start := b }) id = some t1 ∧
      vmaInsert (t1.setStop id b) id = some (.ok t2) ∧ vmaInsert t2 n = some (.ok t3) ∧
      TreeInv P t3 (n + 1) (A ++ id :: n :: B) ∧ Cut t t3 A B id n b := by
  have hn : n ∉ A ++ id :: B := fun hc => absurd (h.alloc n hc) (lt_irrefl n)
  have hnd := h.holds.ordered.nodup
  have hid : id ∉ A ++ B := by
    simp only [List.nodup_append, List.nodup_cons, List.mem_cons] at hnd
    simp only [List.mem_append, not_or]
    exact ⟨fun hc => hnd.2.2 id hc id (.inl rfl) rfl, hnd.2.1.1⟩
  have hne : n ≠ id := fun hc => hn (by simp [hc])
  have hin : ∀ i ∈ A ++ B, i ≠ id ∧ i ≠ n := by
    intro i hi
    refine ⟨fun hc => hid (hc ▸ hi), fun hc => hn ?_⟩
    rw [← hc]
    simp only [List.mem_append, List.mem_cons] at hi ⊢
    tauto
  obtain ⟨hoA, hoxB, hAx⟩ := Family.Ordered.append_iff.1 h.holds.ordered
  obtain ⟨-, -, hxB⟩ := Family.Ordered.cons_iff.1 hoxB
  have hAv : ∀ i ∈ A, (t.vma i).stop ≤ (t.vma id).start := fun i hi => hAx i hi id (by simp)
  have hvB : ∀ i ∈ B, (t.vma id).stop ≤ (t.vma i).start := hxB
  have h0 : (t.set n { t.vma id with start := b }).Holds (A ++ id :: B) := by
    refine h.holds.congr (set_rb ..) fun i hi => ?_
    rw [set_vma, update_of_ne]
    exact fun hc => hn (hc ▸ hi)
  obtain ⟨t1, ht1, hvma1, h1⟩ := vmaRemove_spec h0 (show id ∈ A ++ id :: B by simp)
  have herase : (A ++ id :: B).erase id = A ++ B := by
    rw [List.erase_append_right _ (fun hc => hid (by simp [hc])), List.erase_cons_head]
  rw [herase] at h1
  -- the contents of the descriptors once the original is shrunk
  have hvma : (t1.setStop id b).vma = update (update t.vma n
      { t.vma id with start := b }) id { t.vma id with stop := b } := by
    rw [setStop_vma, hvma1, set_vma, update_of_ne hne.symm]
  have hvid : (t1.setStop id b).vma id = { t.vma id with stop := b } := by
    rw [hvma, update_self]
  have hvn : (t1.setStop id b).vma n = { t.vma id with start := b } := by
    rw [hvma, update_of_ne hne, update_self]
  have hother : ∀ i ∈ A ++ B, (t1.setStop id b).vma i = t.vma i := by
    intro i hi
    rw [hvma, update_of_ne (hin i hi).1, update_of_ne (hin i hi).2]
  have h1' : (t1.setStop id b).Holds (A ++ B) := by
    refine h1.congr (setStop_rb ..) fun i hi => ?_
    rw [setStop_vma, update_of_ne (hin i hi).1]
  have hA : ∀ i ∈ A, i ∈ A ++ B := fun i hi => List.mem_append_left _ hi
  have hB : ∀ i ∈ B, i ∈ A ++ B := fun i hi => List.mem_append_right _ hi
  obtain ⟨t2, ht2, hvma2, h2⟩ := vmaInsert_between h1' hid (by rw [hvid]; exact hlo)
    (fun i hi => by rw [hvid, hother i (hA i hi)]; exact hAv i hi)
    (fun i hi => by rw [hvid, hother i (hB i hi)]; exact hhi.le.trans (hvB i hi))
  have h2' : t2.Holds ((A ++ [id]) ++ B) := by simpa using h2
  obtain ⟨t3, ht3, hvma3, h3⟩ := vmaInsert_between h2'
    (fun hc => hn (by simpa using hc)) (by rw [hvma2, hvn]; exact hhi)
    (fun i hi => by
      rw [hvma2, hvn]
      rcases List.mem_append.1 hi with hi | hi
      · rw [hother i (hA i hi)]
        exact (hAv i hi).trans hlo.le
      · rw [List.mem_singleton.1 hi, hvid])
    (fun i hi => by rw [hvma2, hvn, hother i (hB i hi)]; exact hvB i hi)
  have hcut : Cut t t3 A B id n b :=
    ⟨by rw [hvma3, hvma2, hvid], by rw [hvma3, hvma2, hvn],
      fun i hi => by rw [hvma3, hvma2, hother i hi], hlo, hhi⟩
  refine ⟨t1, t2, t3, ht1, ht2, ht3, ⟨by simpa using h3, fun i hi => ?_, fun i hi => ?_⟩, hcut⟩
  · simp only [List.mem_append, List.mem_cons] at hi
    have halloc : i ∈ A ++ id :: B → i < n + 1 := fun hm => (h.alloc i hm).trans (Nat.lt_succ_self n)
    rcases hi with hi | hi | rfl | hi
    · exact halloc (by simp [hi])
    · exact halloc (by simp [hi])
    · exact Nat.lt_succ_self i
    · exact halloc (by simp [hi])
  · have hgood := h.good id (by simp)
    simp only [List.mem_append, List.mem_cons] at hi
    rcases hi with hi | rfl | rfl | hi
    · rw [hcut.other i (hA i hi)]
      exact h.good i (by simp [hi])
    · rw [hcut.lower]
      exact hP.lower _ b hgood hlo hhi hb
    · rw [hcut.upper]
      exact hP.upper _ b hgood hlo hhi hb
    · rw [hcut.other i (hB i hi)]
      exact h.good i (by simp [hi])

theorem vmaSplitAt_spec (h : Base k R K) (ha : k.space root = some a)
    (ht : TreeInv P a.vmas k.heap.next (A ++ id :: B)) (hP : Cuttable P)
    (hlo : (a.vmas.vma id).start < b) (hhi : b < (a.vmas.vma id).stop) (hb : b % pageSize = 0) :
    wp (vmaSplitAt root id b)
      (fun upper k' => Base k' R K ∧ ∃ t', Retree k k' root a t' ∧
        TreeInv P t' k'.heap.next (A ++ id :: upper :: B) ∧ Cut a.vmas t' A B id upper b)
      (fun e k' => e = .enomem ∧ Base k' R K ∧ Idle k k' ∧ k'.space = k.space) k := by
  obtain ⟨t1, t2, t3, h1, h2, h3, htree, hcut⟩ := split_tree ht hP hlo hhi hb
  unfold vmaSplitAt
  apply wp_vmasOf ha
  rw [if_neg (by omega), if_neg (by omega)]
  refine (kzalloc_spec h).any.next ?_
  rintro r k1 ⟨hb1, hi1, hsp1, hr⟩
  cases r with
  | none => exact wp_error ⟨rfl, hb1, hi1, hsp1⟩
  | some upper =>
    obtain ⟨rfl, hnext⟩ := hr upper rfl
    have ha1 : k1.space root = some a := by rw [hsp1, ha]
    apply wp_known h1
    apply wp_known h2
    apply wp_known h3
    apply wp_bind_write
    apply wp_pure
    refine ⟨hb1.setVmas, t3, ⟨hi1.trans Idle.setVmas, fun sp hsp => ?_, setVmas_self ha1⟩, ?_, hcut⟩
    · rw [setVmas_of_ne hsp, hsp1]
    · show TreeInv P t3 k1.heap.next _
      rw [hnext]
      exact htree

section

variable (h : Base k R K) (ha : k.space root = some a) (ht : TreeInv P a.vmas k.heap.next L)
  (hP : Cuttable P)
include h ha ht hP

theorem vmaSplitAt_refined (hid : id ∈ L) (hlo : (a.vmas.vma id).start < b) (hhi : b < (a.vmas.vma id).stop)
    (hb : b % pageSize = 0) :
    wp (vmaSplitAt root id b)
      (fun _ k' => Base k' R K ∧ ∃ t' L', Retree k k' root a t' ∧ TreeInv P t' k'.heap.next L' ∧
        Refined a.vmas t' L L' ∧ NoStraddle t' L' b)
      (fun e k' => e = .enomem ∧ Base k' R K ∧ Idle k k' ∧ k'.space = k.space) k := by
  obtain ⟨A, B, rfl⟩ := List.append_of_mem hid
  refine (vmaSplitAt_spec h ha ht hP hlo hhi hb).post ?_
  rintro upper k' ⟨hb', t', hre, ht', hcut⟩
  refine ⟨hb', t', _, hre, ht', ⟨hcut.addrMap ht.holds.ordered ht'.holds.ordered,
    fun i hi => hcut.within hi⟩, ?_⟩
  obtain ⟨-, hoxB, hAx⟩ := Family.Ordered.append_iff.1 ht.holds.ordered
  obtain ⟨-, -, hxB⟩ := Family.Ordered.cons_iff.1 hoxB
  intro i hi
  simp only [List.mem_append, List.mem_cons] at hi
  rcases hi with hi | rfl | rfl | hi
  · left
    rw [hcut.other i (by simp [hi])]
    have : (a.vmas.vma i).stop ≤ (a.vmas.vma id).start := hAx i hi id (by simp)
    omega
  · left
    rw [hcut.lower]
  · right
    rw [hcut.upper]
  · right
    rw [hcut.other i (by simp [hi])]
    have : (a.vmas.vma id).stop ≤ (a.vmas.vma i).start := hxB i hi
    omega

-- The VMA found next to the boundary is cut there, if the boundary is inside it.
theorem splitFound_spec [DecidablePred c] (hb : b % pageSize = 0)
    (hp : p = b ∨ p + 1 = b) (hc : ∀ v, v.start ≤ p → p < v.stop → (c v ↔ v.start < b ∧ b < v.stop)) :
    wp (do
        let t ← vmasOf root
        match ← Prog.known (vmaFind t p) with
        | none => return
        | some v =>
          if c (t.vma v) then
            let _ ← vmaSplitAt root v b : KM Unit)
      (fun _ k' => Base k' R K ∧ ∃ t' L', Retree k k' root a t' ∧ TreeInv P t' k'.heap.next L' ∧
        Refined a.vmas t' L L' ∧ NoStraddle t' L' b)
      (fun e k' => e = .enomem ∧ Base k' R K ∧ Idle k k' ∧ k'.space = k.space) k := by
  have hsame : NoStraddle a.vmas L b → Base k R K ∧ ∃ t' L', Retree k k root a t' ∧
      TreeInv P t' k.heap.next L' ∧ Refined a.vmas t' L L' ∧ NoStraddle t' L' b :=
    fun hno => ⟨h, a.vmas, L, Retree.refl ha, ht, Refined.refl _ _, hno⟩
  apply wp_vmasOf ha
  apply wp_known (vmaFind_eq ht.holds)
  cases hloc : a.vmas.spans.locate L p with
  | none =>
    apply wp_pure
    apply hsame
    apply noStraddle_of_locate ht.holds.ordered hp
    simp [hloc]
  | some v =>
    obtain ⟨hv, hlo, hhi⟩ := ht.holds.ordered.locate_eq_some.1 hloc
    have hiff := hc (a.vmas.vma v) hlo hhi
    refine wp_ite (fun hin => ?_) fun hin => ?_
    · obtain ⟨h1, h2⟩ := hiff.1 hin
      refine (vmaSplitAt_refined h ha ht hP hv h1 h2 hb).next ?_
      exact fun _ k' hk' => wp_pure hk'
    apply wp_pure
    apply hsame
    apply noStraddle_of_locate ht.holds.ordered hp
    intro i hi
    rw [hloc] at hi
    rw [← Option.some.inj hi]
    rw [hiff] at hin
    omega

theorem splitBounds_spec (hs : start % pageSize = 0) (he : stop % pageSize = 0)
    (hlt : start < stop) {β : Type} {m : KM β} {Q : β → Kern → Prop} {E : Errno → Kern → Prop}
    (hm : ∀ k' t' L', Base k' R K → Retree k k' root a t' → TreeInv P t' k'.heap.next L' →
      Refined a.vmas t' L L' → NoStraddle t' L' start → NoStraddle t' L' stop → wp m Q E k')
    (hE : ∀ k' t' L', Base k' R K → Retree k k' root a t' → TreeInv P t' k'.heap.next L' →
      Refined a.vmas t' L L' → E .enomem k') :
    wp (do
        splitLeft root start
        splitRight root stop
        m) Q E k := by
  have hleft : ∀ v : Vma, v.start ≤ start → start < v.stop →
      (v.start < start ↔ v.start < start ∧ start < v.stop) :=
    fun v _ h2 => (and_iff_left h2).symm
  have hright : ∀ v : Vma, v.start ≤ stop - 1 → stop - 1 < v.stop →
      (v.stop > stop ↔ v.start < stop ∧ stop < v.stop) :=
    fun v h1 _ => (and_iff_right (by omega)).symm
  refine (splitFound_spec h ha ht hP hs (.inl rfl) hleft).bind ?_ ?_
  · rintro _ k1 ⟨hb1, t1, L1, hre1, ht1, hf1, hno1⟩
    refine (splitFound_spec hb1 hre1.self ht1 hP he (by omega) hright).bind ?_ ?_
    · rintro _ k2 ⟨hb2, t2, L2, hre2, ht2, hf2, hno2⟩
      exact hm k2 t2 L2 hb2 (hre1.trans hre2) ht2 (hf1.trans hf2) (hf2.noStraddle hno1) hno2
    rintro e k2 ⟨rfl, hb2, hi2, hsp2⟩
    refine hE k2 t1 L1 hb2 ⟨hre1.idle.trans hi2, fun sp hsp => ?_, ?_⟩ (ht1.mono hi2.next) hf1
    · rw [hsp2, hre1.other sp hsp]
    · rw [hsp2, hre1.self]
  · rintro e k1 ⟨rfl, hb1, hi1, hsp1⟩
    refine hE k1 a.vmas L hb1 ⟨hi1, fun sp _ => by rw [hsp1], by rw [hsp1, ha]⟩
      (ht.mono hi1.next) (Refined.refl _ _)

end

end split

-- The entries of the pages `D` are gone; the rest is as before.
structure Sheds (D : Nat → Nat → Prop) (k k' : Kern) : Prop where
  kernelPml4 : k'.kernelPml4 = k.kernelPml4
  next : k.heap.next ≤ k'.heap.next
  zeroPage : k'.phys.pmm.mmZeroPage = k.phys.pmm.mmZeroPage
  gone : ∀ sp v, D sp v → k'.pte sp v = none
  pte : ∀ sp v, ¬ D sp v → k'.pte sp v = k.pte sp v
  words : ∀ sp v i, ¬ D sp v → i < 512 → k'.words sp v i = k.words sp v i

theorem Idle.sheds (h : Idle k k') : Sheds never k k' where
  kernelPml4 := h.kernelPml4
  next := h.next
  zeroPage := h.zeroPage
  gone _ _ hd := hd.elim
  pte sp v _ := h.pte sp v
  words sp v i _ := h.words sp v i

theorem Sheds.trans (h : Sheds D k k')
    (h' : Sheds D' k' k'') : Sheds (fun sp v => D sp v ∨ D' sp v) k k'' where
  kernelPml4 := h'.kernelPml4.trans h.kernelPml4
  next := h.next.trans h'.next
  zeroPage := h'.zeroPage.trans h.zeroPage
  gone sp v hd := by
    by_cases hd' : D' sp v
    · exact h'.gone sp v hd'
    · rw [h'.pte sp v hd']
      exact h.gone sp v (hd.resolve_right hd')
  pte sp v hd := by
    rw [not_or] at hd
    rw [h'.pte sp v hd.2, h.pte sp v hd.1]
  words sp v i hd hi := by
    rw [not_or] at hd
    rw [h'.words sp v i hd.2 hi, h.words sp v i hd.1 hi]

theorem Sheds.congr (h : Sheds D k k') (hD : ∀ sp v, D' sp v ↔ D sp v) : Sheds D' k k' where
  kernelPml4 := h.kernelPml4
  next := h.next
  zeroPage := h.zeroPage
  gone sp v hd := h.gone sp v ((hD sp v).1 hd)
  pte sp v hd := h.pte sp v (mt (hD sp v).2 hd)
  words sp v i hd := h.words sp v i (mt (hD sp v).2 hd)

section remove

variable {P : Vma → Prop} {start stop : Nat} {space : Option Nat}

def Vma.Covers (v : Vma) (p : Nat) : Prop := v.start ≤ p * pageSize ∧ p * pageSize < v.stop

theorem Base.pml4_eq (h : Base k R K) (ha : k.space root = some a) :
    a.pml4Phys = paToPfn a.pml4Phys * pageSize :=
  (pfnToPa_paToPfn (h.rootAligned root a ha)).symm

theorem Kern.roots_eq (ha : k.space root = some a) : k.roots root = some (paToPfn a.pml4Phys) := by
  unfold Kern.roots
  rw [ha, Option.map_some]

theorem Kern.roots_congr {k' : Kern} {t' : VmaTree} (ha : k.space root = some a)
    (hother : ∀ sp, sp ≠ root → k'.space sp = k.space sp)
    (ha' : k'.space root = some { a with vmas := t' }) : k'.roots = k.roots := by
  funext sp
  unfold Kern.roots
  by_cases hsp : sp = root
  · rw [hsp, ha', ha, Option.map_some, Option.map_some]
  · rw [hother sp hsp]

theorem unmapVma_spec {v : Vma} (h : Base k R K) (ha : k.space root = some a)
    (hs : v.start % pageSize = 0) (he : v.stop % pageSize = 0) (hlt : v.start < v.stop)
    (hspace : space = none ∨ (space = some root ∧ v.stop ≤ userTop)) :
    wp (unmapVma space v)
      (fun _ k' => Base k' R K ∧ k'.space = k.space ∧
        Sheds (fun sp p => space = some sp ∧ v.Covers p) k k')
      never k := by
  rcases hspace with rfl | ⟨rfl, htop⟩
  · apply wp_pure
    refine ⟨h, rfl, (Idle.refl k).sheds.congr fun sp p => ?_⟩
    simp
  unfold unmapVma
  apply wp_pml4Of ha
  apply wp_zoom
  have htop' : v.stop ≤ 0x0000800000000000 := htop
  have hsub : sub64 v.stop v.start = v.stop - v.start := sub64_eq (by omega) (by omega)
  have hv0 : v.start = v.start / pageSize * pageSize := by
    simp only [pageSize] at hs ⊢
    omega
  have hpages : v.start / pageSize + (v.stop - v.start) / pageSize ≤ userPages := by
    simp only [pageSize, userPages, Nat.reducePow] at hs he ⊢
    omega
  have hspec := pagingUnmap_spec h.pt (Kern.roots_eq ha) hpages
  rw [← hv0, ← h.pml4_eq ha] at hspec
  rw [hsub]
  refine hspec.post ?_
  rintro _ s' ⟨hpt, hdrop, hpte⟩
  have hcov : ∀ t p, (t = root ∧ v.start / pageSize ≤ p ∧
      p < v.start / pageSize + (v.stop - v.start) / pageSize) ↔
        (some root = some t ∧ v.Covers p) := by
    intro t p
    simp only [Vma.Covers, Option.some.injEq, pageSize] at hs he ⊢
    omega
  refine ⟨⟨hpt, ?_, h.numbered, h.slabAligned, h.slabOwn, h.rootAligned, h.spaceId, h.kernel⟩,
    rfl, ⟨rfl, le_refl _, hdrop.zeroPage, ?_, ?_, ?_⟩⟩
  · have hzf := zeroFrame_eq hdrop.zeroPage
    rw [hzf]
    exact h.zeroHeld
  · intro t p hd
    exact (hpte t p).trans (if_pos ((hcov t p).2 hd))
  · intro t p hd
    exact (hpte t p).trans (if_neg (mt (hcov t p).1 hd))
  · intro t p i hd hi
    refine words_congr h.pt hpt hdrop.zeroPage
      ((hpte t p).trans (if_neg (mt (hcov t p).1 hd))) (fun w hw hw' => ?_) hi
    exact hdrop.data w (h.pt.not_table hw) (.inr hw')

-- The loop takes out every VMA from the first one that ends above `start` up to `stop`.
theorem removeLoop_spec (h : Base k R K) (ha : k.space root = some a)
    (ht : TreeInv P a.vmas k.heap.next (A ++ B))
    (hP : ∀ v, P v → v.start % pageSize = 0 ∧ v.stop % pageSize = 0)
    (hspace : space = none ∨ (space = some root ∧ stop ≤ userTop))
    (hB : ∀ i ∈ B, start ≤ (a.vmas.vma i).start) (hno : NoStraddle a.vmas B stop) :
    wp (removeLoop root space start stop B.head?)
      (fun _ k' => Base k' R K ∧ (∀ sp, sp ≠ root → k'.space sp = k.space sp) ∧
        ∃ t', k'.space root = some { a with vmas := t' } ∧ t'.vma = a.vmas.vma ∧
          TreeInv P t' k'.heap.next
            (A ++ B.dropWhile fun i => decide ((a.vmas.vma i).start < stop)) ∧
          Sheds (fun sp p => space = some sp ∧ ∃ i ∈ B, (a.vmas.vma i).start < stop ∧
            (a.vmas.vma i).Covers p) k k')
      never k := by
  induction B generalizing k a with
  | nil =>
    rw [removeLoop.eq_def]
    apply wp_pure
    refine ⟨h, fun _ _ => rfl, a.vmas, ha, rfl, ht, (Idle.refl k).sheds.congr ?_⟩
    simp
  | cons x B ih =>
    rw [removeLoop.eq_def]
    apply wp_vmasOf ha
    refine wp_ite (fun hlt => ?_) fun hlt => ?_
    · apply wp_known ht.holds.vmaNext_eq
      have hxs : (a.vmas.vma x).stop ≤ stop := by
        rcases hno x (by simp) with hc | hc
        · exact hc
        · omega
      rw [if_pos ⟨hB x (by simp), hxs⟩]
      obtain ⟨hxal, hxal'⟩ := hP _ (ht.good x (by simp))
      have hxspace : space = none ∨ (space = some root ∧ (a.vmas.vma x).stop ≤ userTop) :=
        hspace.imp_right fun hc => ⟨hc.1, hxs.trans hc.2⟩
      refine (unmapVma_spec h ha hxal hxal' (ht.range (by simp)) hxspace).any.next ?_
      rintro _ k1 ⟨hb1, hsp1, hsh1⟩
      -- the VMA comes out of the tree
      have hx : x ∉ A := by
        have hnd := ht.holds.ordered.nodup
        simp only [List.nodup_append, List.mem_cons] at hnd
        exact fun hc => hnd.2.2 x hc x (.inl rfl) rfl
      obtain ⟨t2, hrem, hvma, ht2⟩ := vmaRemove_spec ht.holds (show x ∈ A ++ x :: B by simp)
      rw [List.erase_append_right _ hx, List.erase_cons_head] at ht2
      apply wp_known hrem
      apply wp_bind_write
      refine (kfree_spec _ hb1.setVmas).any.next ?_
      rintro _ k2 ⟨hb2, hi2, hsp2⟩
      have ha1 : k1.space root = some a := by rw [hsp1, ha]
      have ha2 : k2.space root = some { a with vmas := t2 } := by rw [hsp2, setVmas_self ha1]
      have hsh : Sheds (fun sp p => space = some sp ∧ (a.vmas.vma x).Covers p) k k2 := by
        have hi : Idle k1 k2 := Idle.setVmas.trans hi2
        apply (hsh1.trans hi.sheds).congr
        simp
      have htree : TreeInv P t2 k2.heap.next (A ++ B) := by
        have hsub : ∀ i ∈ A ++ B, i ∈ A ++ x :: B := by
          intro i hi
          simp only [List.mem_append, List.mem_cons] at hi ⊢
          tauto
        refine ⟨ht2, fun i hi => (ht.alloc i (hsub i hi)).trans_le hsh.next, fun i hi => ?_⟩
        rw [hvma]
        exact ht.good i (hsub i hi)
      have hrec := ih hb2 ha2 htree
        (fun i hi => by simp only [hvma]; exact hB i (by simp [hi]))
        (fun i hi => by simp only [hvma]; exact hno i (by simp [hi]))
      refine hrec.post ?_
      rintro _ k' ⟨hb', hother, t', hself, hvma', htree', hsh'⟩
      simp only [hvma] at hvma' htree' hsh'
      refine ⟨hb', fun sp hsp => ?_, t', hself, hvma', ?_, (hsh.trans hsh').congr ?_⟩
      · rw [hother sp hsp, hsp2, setVmas_of_ne hsp, hsp1]
      · rwa [List.dropWhile_cons, if_pos (by simpa using hlt)]
      · intro sp p
        simp only [List.mem_cons, exists_eq_or_imp]
        tauto
    · apply wp_pure
      obtain ⟨-, hoxB, -⟩ := Family.Ordered.append_iff.1 ht.holds.ordered
      obtain ⟨hne, -, hxB⟩ := Family.Ordered.cons_iff.1 hoxB
      have hne : (a.vmas.vma x).start < (a.vmas.vma x).stop := hne
      refine ⟨h, fun _ _ => rfl, a.vmas, ha, rfl, ?_, (Idle.refl k).sheds.congr ?_⟩
      · rwa [List.dropWhile_cons, if_neg (by simpa using hlt)]
      intro sp p
      simp only [iff_false, not_and, not_exists]
      intro _ i hi hc
      rcases List.mem_cons.1 hi with rfl | hi
      · exact absurd hc hlt
      · have : (a.vmas.vma x).stop ≤ (a.vmas.vma i).start := hxB i hi
        omega

theorem divide (h : t.spans.Ordered L) (hno : NoStraddle t L start) :
    ∃ A, L = A ++ L.dropWhile (fun i => decide ((t.vma i).stop ≤ start)) ∧
      (∀ i ∈ A, (t.vma i).stop ≤ start) ∧
      ∀ i ∈ L.dropWhile (fun i => decide ((t.vma i).stop ≤ start)), start ≤ (t.vma i).start := by
  refine ⟨L.takeWhile fun i => decide ((t.vma i).stop ≤ start),
    (List.takeWhile_append_dropWhile).symm, fun i hi => ?_, fun i hi => ?_⟩
  · simpa using List.mem_takeWhile_imp hi
  · obtain ⟨hi, hlt⟩ := h.mem_dropWhile_hi.1 hi
    exact (hno i hi).resolve_left (not_le.2 hlt)

section

variable (h : t.spans.Ordered (A ++ B)) (hA : ∀ i ∈ A, (t.vma i).stop ≤ start)
  (hB : ∀ i ∈ B, start ≤ (t.vma i).start) (hno : NoStraddle t B stop)
include h hA hB hno

theorem addrMap_remove (hC : C = B.dropWhile fun i => decide ((t.vma i).start < stop)) (x : Nat) :
    addrMap t (A ++ C) x =
      if start ≤ x ∧ x < stop then none else addrMap t (A ++ B) x := by
  obtain ⟨-, hoB, -⟩ := Family.Ordered.append_iff.1 h
  have hmem : ∀ i, i ∈ C ↔ i ∈ B ∧ stop ≤ (t.vma i).start := by
    intro i
    rw [hC]
    exact hoB.mem_dropWhile_lo
  have hsub := (List.Sublist.refl A).append (hC ▸ List.dropWhile_sublist ..)
  by_cases hx : start ≤ x ∧ x < stop
  · rw [if_pos hx, addrMap_eq_none]
    intro i hi hc
    rcases List.mem_append.1 hi with hi | hi
    · have := hA i hi
      omega
    · have := ((hmem i).1 hi).2
      omega
  rw [if_neg hx]
  apply Option.ext
  intro f
  rw [addrMap_eq_some (h.sublist hsub), addrMap_eq_some h]
  constructor
  · rintro ⟨i, hi, hc⟩
    exact ⟨i, hsub.subset hi, hc⟩
  rintro ⟨i, hi, hs, he, hf⟩
  refine ⟨i, ?_, hs, he, hf⟩
  rcases List.mem_append.1 hi with hi | hi
  · exact List.mem_append_left _ hi
  apply List.mem_append_right
  rw [hmem]
  have := hB i hi
  refine ⟨hi, ?_⟩
  rcases hno i hi with hc | hc <;> omega

theorem covered_iff :
    (start ≤ p * pageSize ∧ p * pageSize < stop ∧ addrMap t (A ++ B) (p * pageSize) ≠ none) ↔
      ∃ i ∈ B, (t.vma i).start < stop ∧ (t.vma i).Covers p := by
  rw [Option.ne_none_iff_exists']
  constructor
  · rintro ⟨hps, hpe, f, hpf⟩
    obtain ⟨i, hi, his, hie, -⟩ := (addrMap_eq_some h).1 hpf
    rcases List.mem_append.1 hi with hi | hi
    · have := hA i hi
      omega
    · exact ⟨i, hi, by omega, his, hie⟩
  · rintro ⟨i, hi, hlt, his, hie⟩
    have h1 := hB i hi
    have h2 := (hno i hi).resolve_right (by omega)
    exact ⟨by omega, by omega, _, (addrMap_eq_some h).2
      ⟨i, List.mem_append_right _ hi, his, hie, rfl⟩⟩

end

theorem vmaRemoveRange_spec (h : Base k R K) (ha : k.space root = some a)
    (ht : TreeInv P a.vmas k.heap.next L) (hP : Cuttable P)
    (hPa : ∀ v, P v → v.start % pageSize = 0 ∧ v.stop % pageSize = 0)
    (hspace : space = none ∨ (space = some root ∧ stop ≤ userTop))
    (hs : start % pageSize = 0) (he : stop % pageSize = 0) (hlt : start < stop) :
    wp (vmaRemoveRange root space start stop)
      (fun _ k' => Base k' R K ∧ (∀ sp, sp ≠ root → k'.space sp = k.space sp) ∧
        ∃ t' L', k'.space root = some { a with vmas := t' } ∧ TreeInv P t' k'.heap.next L' ∧
          (∀ x, addrMap t' L' x = if start ≤ x ∧ x < stop then none else addrMap a.vmas L x) ∧
          Sheds (fun sp p => space = some sp ∧ start ≤ p * pageSize ∧ p * pageSize < stop ∧
            addrMap a.vmas L (p * pageSize) ≠ none) k k')
      (fun e k' => e = .enomem ∧ Base k' R K ∧ ∃ t' L', Retree k k' root a t' ∧
        TreeInv P t' k'.heap.next L' ∧ Refined a.vmas t' L L') k := by
  unfold vmaRemoveRange
  rw [if_neg (by omega)]
  refine splitBounds_spec h ha ht hP hs he hlt ?_ ?_
  · intro k1 t1 L1 hb1 hre ht1 hf hno1 hno2
    have ha1 := hre.self
    apply wp_vmasOf ha1
    apply wp_known (vmaAtOrAbove_eq ht1.holds start)
    obtain ⟨A, hL, hA, hB⟩ := divide ht1.holds.ordered hno1
    set B := L1.dropWhile fun i => decide ((t1.vma i).stop ≤ start) with hBdef
    have ht1' := hL ▸ ht1
    have hno2' : NoStraddle t1 B stop := fun i hi => hno2 i (by rw [hL]; simp [hi])
    refine (removeLoop_spec hb1 ha1 ht1' hPa hspace hB hno2').any.post ?_
    rintro _ k' ⟨hb', hother, t', hself, hvma, htree, hsh⟩
    set C := B.dropWhile fun i => decide ((t1.vma i).start < stop) with hC
    have hord := ht1'.holds.ordered
    have hcongr : ∀ x, addrMap t' (A ++ C) x = addrMap t1 (A ++ C) x :=
      addrMap_congr fun i _ => by rw [hvma]
    refine ⟨hb', fun sp hsp => (hother sp hsp).trans (hre.other sp hsp), t', A ++ C, hself, htree,
      fun x => ?_, (hre.idle.sheds.trans hsh).congr fun sp p => ?_⟩
    · rw [hcongr, addrMap_remove hord hA hB hno2' hC, ← hL, hf.addrMap]
    rw [false_or, ← hf.addrMap, hL]
    apply and_congr_right
    intro _
    exact covered_iff hord hA hB hno2'
  · intro k' t' L' hb' hre ht' hf
    exact ⟨rfl, hb', t', L', hre, ht', hf⟩

end remove

end Jnu.Mm
