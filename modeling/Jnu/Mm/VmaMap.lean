import Jnu.Lib.Trace
import Jnu.Mm.Boot
import Jnu.Mm.Mmap
import Jnu.Mm.Roomy

namespace Jnu.Mm

open Lib.Dyadic Lib.Effect Lib.Intervals Lib.Trace Paging Pmm

variable {L : List Nat} {id root n : Nat} {k : Kern} {R : Set Nat} {K : Set Block}

section visits

variable {t : VmaTree}

-- The VMAs that the walk from `vma_first` through `vma_next` comes to.
inductive VmaTree.Visits (t : VmaTree) : Nat → Prop
  | first {id : Nat} : vmaFirst t = some (some id) → t.Visits id
  | next {i id : Nat} : t.Visits i → vmaNext t i = some (some id) → t.Visits id

theorem VmaTree.Holds.visits (h : t.Holds L) : t.Visits id ↔ id ∈ L := by
  constructor
  · intro hv
    induction hv with
    | first hf =>
      rw [h.vmaFirst_eq] at hf
      exact List.mem_of_mem_head? (Option.some.inj hf)
    | next _ hn ih =>
      obtain ⟨A, B, rfl⟩ := List.append_of_mem ih
      rw [h.vmaNext_eq] at hn
      exact List.mem_append_right _ (List.mem_cons_of_mem _
        (List.mem_of_mem_head? (Option.some.inj hn)))
  · intro hid
    obtain ⟨A, B, rfl⟩ := List.append_of_mem hid
    clear hid
    -- by induction on what comes before it, from the end
    induction A using List.reverseRecOn generalizing id B with
    | nil => exact .first h.vmaFirst_eq
    | append_singleton A x ih =>
      have h' : t.Holds (A ++ x :: ([] ++ id :: B)) := by simpa using h
      exact .next (ih _ h') h'.vmaNext_eq

end visits

-- The VMAs of a tree as a walk sees them: `L` in this order.
structure Walk (t : VmaTree) (L : List Nat) : Prop where
  first : vmaFirst t = some L.head?
  next : ∀ A x B, L = A ++ x :: B → vmaNext t x = some B.head?
  nonempty : ∀ i ∈ L, (t.vma i).start < (t.vma i).stop
  aligned : ∀ i ∈ L, (t.vma i).start % pageSize = 0 ∧ (t.vma i).stop % pageSize = 0
  increasing : L.Pairwise fun i j => (t.vma i).stop ≤ (t.vma j).start

def PageVma (v : Vma) : Prop := v.start % pageSize = 0 ∧ v.stop % pageSize = 0

theorem PageVma.cuttable : Cuttable PageVma :=
  ⟨fun _ _ h _ _ hb => ⟨h.1, hb⟩, fun _ _ h _ _ hb => ⟨hb, h.2⟩⟩

-- The calls on one tree; `unmap` says whether `vma_remove_range` gets the address space.
inductive TreeOp
  | insert (start len : Nat) (flags : VmaFlags)
  | splitAt (id boundary : Nat)
  | removeRange (unmap : Bool) (start stop : Nat)
  | remove (id : Nat)

def removeVma (root id : Nat) : KM Unit := do
  let t ← vmasOf root
  let t ← Prog.known (vmaRemove t id)
  setVmas root t
  kfree id

def spaceArg (root : Nat) (unmap : Bool) : Option Nat := if unmap then some root else none

def treeExec (root : Nat) : TreeOp → KM Unit
  | .insert start len flags => do
      let _ ← insertAnonymous root start len flags
  | .splitAt id boundary => do
      let _ ← vmaSplitAt root id boundary
  | .removeRange unmap start stop => vmaRemoveRange root (spaceArg root unmap) start stop
  | .remove id => removeVma root id

-- Page-aligned ranges, and VMAs that are in the tree. Pages are unmapped in user space only.
def TreeOp.Valid (t : VmaTree) : TreeOp → Prop
  | .insert start len _ => start % pageSize = 0 ∧ len % pageSize = 0 ∧ 0 < len ∧
      start + len < 2 ^ 64
  | .splitAt id _ => t.Visits id
  | .removeRange unmap start stop => start % pageSize = 0 ∧ stop % pageSize = 0 ∧
      (unmap = true → stop ≤ userTop)
  | .remove id => t.Visits id

-- A call on the tree, or anything else that leaves the tree alone and memory in order.
inductive TreeStep (root : Nat) (R : Set Nat) (K : Set Block) : Kern → Option TreeOp → Kern → Prop
  | call {k k' : Kern} {a : AddrSpace} {op : TreeOp} {r : Except Errno Unit}
      (ha : k.space root = some a) (hv : op.Valid a.vmas)
      (hr : (treeExec root op).run k = some (.ok (r, k'))) : TreeStep root R K k (some op) k'
  | other {k k' : Kern} (hb : Base k' R K) (hspace : k'.space root = k.space root)
      (hnext : k.heap.next ≤ k'.heap.next) : TreeStep root R K k none k'

-- The tree of the space holds page-aligned VMAs.
structure TreeKept (root : Nat) (R : Set Nat) (K : Set Block) (k : Kern) : Prop where
  base : Base k R K
  tree : ∃ a L, k.space root = some a ∧ TreeInv PageVma a.vmas k.heap.next L

section calls

variable {k' : Kern} {b start stop len : Nat} {a : AddrSpace} {vf : VmaFlags} {v : Vma}
  {unmap : Bool}

theorem vmaInsert_refuses {t : VmaTree} (ht : TreeInv PageVma t n L) (hid : id ∉ L)
    (hne : v.start < v.stop) :
    ∃ r, vmaInsert (t.set id v) id = some r ∧ ((∃ e, r = .error e) ↔ r = .error .eexist) ∧
      (r = .error .eexist ↔ ∃ i ∈ L, v.start < (t.vma i).stop ∧ (t.vma i).start < v.stop) := by
  rcases ht.holds.insertNew hid hne with ⟨he, hm⟩ | ⟨t', A, B, he, rfl, h', hself, hold⟩
  · exact ⟨_, he, by simp, by simpa using hm⟩
  refine ⟨_, he, by simp, ?_⟩
  simp only [reduceCtorEq, false_iff, not_exists, not_and, not_lt]
  intro i hi hlt
  -- in the new tree the two are in order
  obtain ⟨-, hoxB, hAx⟩ := Family.Ordered.append_iff.1 h'.ordered
  obtain ⟨-, -, hxB⟩ := Family.Ordered.cons_iff.1 hoxB
  rcases List.mem_append.1 hi with hiA | hiB
  · have : (t'.vma i).stop ≤ (t'.vma id).start := hAx i hiA id (by simp)
    rw [hself, hold i hi] at this
    omega
  · have : (t'.vma id).stop ≤ (t'.vma i).start := hxB i hiB
    rw [hself, hold i hi] at this
    omega

section

variable (h : TreeKept root R K k)
include h

theorem TreeKept.insert (ha : k.space root = some a) (hs : start % pageSize = 0) (hl : len % pageSize = 0)
    (hpos : 0 < len) (hlt : start + len < 2 ^ 64) :
    wp (insertAnonymous root start len vf) (fun _ k' => TreeKept root R K k')
      (fun _ k' => TreeKept root R K k' ∧ k'.space = k.space ∧ ∀ t p, k'.pte t p = k.pte t p) k := by
  obtain ⟨a', L, ha', ht⟩ := h.tree
  cases ha.symm.trans ha'
  have hw : wrap64 (start + len) = start + len := by
    unfold wrap64
    omega
  have hv : PageVma ⟨start, start + len, vf⟩ := by
    refine ⟨hs, ?_⟩
    simp only [pageSize] at hs hl ⊢
    omega
  unfold insertAnonymous
  rw [hw]
  refine (kzalloc_spec h.base).any.next ?_
  rintro r k1 ⟨hb1, hi1, hsp1, hr⟩
  have ha1 : k1.space root = some a := by rw [hsp1, ha]
  have hkept : TreeKept root R K k1 := ⟨hb1, a, L, ha1, ht.mono hi1.next⟩
  cases r with
  | none => exact wp_error ⟨hkept, hsp1, hi1.pte⟩
  | some n =>
    obtain ⟨rfl, hnext⟩ := hr n rfl
    have hn : k.heap.next ∉ L := fun hc => absurd (ht.alloc _ hc) (lt_irrefl _)
    obtain ⟨r, hins, herr, hmeet⟩ :=
      vmaInsert_refuses (v := ⟨start, start + len, vf⟩) ht hn (by simpa using hpos)
    apply wp_vmasOf ha1
    apply wp_known hins
    cases r with
    | error e =>
      refine (kfree_spec _ hb1).any.next ?_
      rintro _ k2 ⟨hb2, hi2, hsp2⟩
      refine wp_error ⟨⟨hb2, a, L, by rw [hsp2, ha1], ?_⟩, hsp2.trans hsp1, fun t p => ?_⟩
      · exact ht.mono (hi1.trans hi2).next
      · exact (hi2.pte t p).trans (hi1.pte t p)
    | ok t' =>
      have hfree : ∀ i ∈ L, (a.vmas.vma i).stop ≤ start ∨ start + len ≤ (a.vmas.vma i).start := by
        intro i hi
        by_contra hc
        have := hmeet.2 ⟨i, hi, by dsimp only; omega, by dsimp only; omega⟩
        cases this
      obtain ⟨t'', L', hins', htree, -⟩ := ht.insert hv (by simpa using hpos) hfree
      cases hins.symm.trans hins'
      apply wp_bind_write
      apply wp_pure
      refine ⟨hb1.setVmas, _, L', setVmas_self ha1, ?_⟩
      show TreeInv PageVma t' k1.heap.next L'
      rwa [hnext]

theorem TreeKept.splitAt (ha : k.space root = some a) (hid : a.vmas.Visits id) :
    wp (vmaSplitAt root id b) (fun _ k' => TreeKept root R K k') (fun _ k' => TreeKept root R K k') k := by
  obtain ⟨a', L, ha', ht⟩ := h.tree
  cases ha.symm.trans ha'
  by_cases h1 : b ≤ (a.vmas.vma id).start ∨ b ≥ (a.vmas.vma id).stop
  · unfold vmaSplitAt
    apply wp_vmasOf ha
    rw [if_pos h1]
    exact wp_error h
  by_cases h2 : b % pageSize ≠ 0
  · unfold vmaSplitAt
    apply wp_vmasOf ha
    rw [if_neg h1, if_pos h2]
    exact wp_error h
  refine (vmaSplitAt_refined h.base ha ht PageVma.cuttable (ht.holds.visits.1 hid) (by omega)
    (by omega) (by omega)).mono ?_ ?_
  · rintro _ k' ⟨hb, t', L', hre, ht', -⟩
    exact ⟨hb, _, L', hre.self, ht'⟩
  · rintro e k' ⟨-, hb, hi, hsp⟩
    exact ⟨hb, a, L, by rw [hsp, ha], ht.mono hi.next⟩

theorem TreeKept.removeRange (hs : start % pageSize = 0) (he : stop % pageSize = 0) (hlt : start < stop)
    (htop : unmap = true → stop ≤ userTop) :
    wp (vmaRemoveRange root (spaceArg root unmap) start stop)
      (fun _ k' => TreeKept root R K k' ∧
        (∀ x, k'.flags root x = if start ≤ x ∧ x < stop then none else k.flags root x) ∧
        (∀ p, unmap = true → start ≤ p * pageSize → p * pageSize < stop →
          k.flags root (p * pageSize) ≠ none → k'.pte root p = none) ∧
        ∀ t p, ¬ (unmap = true ∧ t = root ∧ start ≤ p * pageSize ∧ p * pageSize < stop ∧
          k.flags root (p * pageSize) ≠ none) → k'.pte t p = k.pte t p)
      (fun e k' => TreeKept root R K k' ∧ e = .enomem ∧
        (∀ x, k'.flags root x = k.flags root x) ∧ ∀ t p, k'.pte t p = k.pte t p) k := by
  obtain ⟨a, L, ha, ht⟩ := h.tree
  have hspace : spaceArg root unmap = none ∨ (spaceArg root unmap = some root ∧ stop ≤ userTop) := by
    unfold spaceArg
    cases unmap with
    | false => exact .inl rfl
    | true => exact .inr ⟨rfl, htop rfl⟩
  have harg : ∀ t, spaceArg root unmap = some t ↔ unmap = true ∧ t = root := by
    intro t
    unfold spaceArg
    cases unmap with
    | false => simp
    | true => simp [eq_comm]
  refine (vmaRemoveRange_spec h.base ha ht PageVma.cuttable (fun _ hv => hv) hspace hs he hlt).mono
    ?_ ?_
  · rintro _ k' ⟨hb', hother, t', L', hself, htree, hmap, hsh⟩
    refine ⟨⟨hb', _, L', hself, htree⟩, fun x => ?_, fun p hu hp hp' hf => ?_, fun t p hd => ?_⟩
    · rw [flags_eq hself htree.holds, hmap, flags_eq ha ht.holds]
    · rw [flags_eq ha ht.holds] at hf
      exact hsh.gone root p ⟨(harg root).2 ⟨hu, rfl⟩, hp, hp', hf⟩
    · apply hsh.pte
      rintro ⟨ht', hp⟩
      rw [flags_eq ha ht.holds] at hd
      exact hd ⟨((harg t).1 ht').1, ((harg t).1 ht').2, hp⟩
  · rintro e k' ⟨rfl, hb', t', L', hre, htree, href⟩
    refine ⟨⟨hb', _, L', hre.self, htree⟩, rfl, fun x => ?_, hre.idle.pte⟩
    rw [flags_eq hre.self htree.holds, href.addrMap, flags_eq ha ht.holds]

theorem TreeKept.remove (ha : k.space root = some a) (hid : a.vmas.Visits id) :
    wp (removeVma root id) (fun _ k' => TreeKept root R K k') never k := by
  obtain ⟨a', L, ha', ht⟩ := h.tree
  cases ha.symm.trans ha'
  obtain ⟨t', hrem, hvma, ht'⟩ := vmaRemove_spec ht.holds (ht.holds.visits.1 hid)
  unfold removeVma
  apply wp_vmasOf ha
  apply wp_known hrem
  apply wp_bind_write
  refine (kfree_spec _ h.base.setVmas).post ?_
  rintro _ k' ⟨hb, hi, hsp⟩
  refine ⟨hb, _, L.erase id, by rw [hsp]; exact setVmas_self ha, ht', fun i hi' => ?_, fun i hi' => ?_⟩
  · exact (ht.alloc i (List.mem_of_mem_erase hi')).trans_le hi.next
  · rw [hvma]
    exact ht.good i (List.mem_of_mem_erase hi')

theorem TreeKept.call {op : TreeOp} (ha : k.space root = some a) (hv : op.Valid a.vmas) :
    wp (treeExec root op) (fun _ k' => TreeKept root R K k') (fun _ k' => TreeKept root R K k') k := by
  cases op with
  | insert start len flags =>
    obtain ⟨hs, hl, hpos, hlt⟩ := hv
    refine (h.insert ha hs hl hpos hlt).bind ?_ fun _ _ hc => hc.1
    exact fun _ _ hc => wp_pure hc
  | splitAt id b =>
    refine (h.splitAt ha hv).next ?_
    exact fun _ _ hc => wp_pure hc
  | removeRange unmap start stop =>
    obtain ⟨hs, he, htop⟩ := hv
    by_cases hlt : start < stop
    · exact (h.removeRange hs he hlt htop).mono (fun _ _ hc => hc.1) fun _ _ hc => hc.1
    show wp (vmaRemoveRange root (spaceArg root unmap) start stop) _ _ k
    unfold vmaRemoveRange
    rw [if_pos (by omega)]
    exact wp_error h
  | remove id => exact (h.remove ha hv).mono (fun _ _ hc => hc) fun _ _ hc => hc.elim

theorem TreeKept.step {op : Option TreeOp} (hs : TreeStep root R K k op k') : TreeKept root R K k' := by
  cases hs with
  | call ha hv hr =>
    rcases h.call ha hv with ⟨_, k1, hr', hk⟩ | ⟨_, k1, hr', hk⟩
    · cases hr.symm.trans hr'
      exact hk
    · cases hr.symm.trans hr'
      exact hk
  | other hb hspace hnext =>
    obtain ⟨a, L, ha, ht⟩ := h.tree
    exact ⟨hb, a, L, by rw [hspace, ha], ht.mono hnext⟩

end

end calls

section main

variable {k₀ : Kern} {a₀ : AddrSpace} {ops : List (Option TreeOp)}

theorem vma_tree_exact (hb : Base k₀ R K) (ha₀ : k₀.space root = some a₀) (he : a₀.vmas = .empty)
    (hrun : Run (TreeStep root R K) k₀ ops k) :
    ∃ a L, k.space root = some a ∧ Walk a.vmas L ∧
      (∀ x, ∃ r, vmaFind a.vmas x = some r ∧
        ∀ i, r = some i ↔ i ∈ L ∧ (a.vmas.vma i).start ≤ x ∧ x < (a.vmas.vma i).stop) ∧
      (∀ id v, ¬ a.vmas.Visits id → v.start < v.stop → ∃ r, vmaInsert (a.vmas.set id v) id = some r ∧
        ((∃ e, r = .error e) ↔ r = .error .eexist) ∧
        (r = .error .eexist ↔
          ∃ i ∈ L, v.start < (a.vmas.vma i).stop ∧ (a.vmas.vma i).start < v.stop)) ∧
      (∀ start len vf, start % pageSize = 0 → len % pageSize = 0 → 0 < len → start + len < 2 ^ 64 →
        wp (insertAnonymous root start len vf) (fun _ _ => True)
          (fun _ k' => k'.space root = k.space root ∧ ∀ t p, k'.pte t p = k.pte t p) k) ∧
      ∀ unmap start stop, start % pageSize = 0 → stop % pageSize = 0 → start < stop →
        (unmap = true → stop ≤ userTop) →
        wp (vmaRemoveRange root (spaceArg root unmap) start stop)
          (fun _ k' =>
            (∀ x, k'.flags root x = if start ≤ x ∧ x < stop then none else k.flags root x) ∧
            (∀ p, unmap = true → start ≤ p * pageSize → p * pageSize < stop →
              k.flags root (p * pageSize) ≠ none → k'.pte root p = none) ∧
            ∀ t p, ¬ (unmap = true ∧ t = root ∧ start ≤ p * pageSize ∧ p * pageSize < stop ∧
              k.flags root (p * pageSize) ≠ none) → k'.pte t p = k.pte t p)
          (fun e k' => e = .enomem ∧ (∀ x, k'.flags root x = k.flags root x) ∧
            ∀ t p, k'.pte t p = k.pte t p) k := by
  have h0 : TreeKept root R K k₀ := by
    refine ⟨hb, a₀, [], ha₀, ?_, by simp, by simp⟩
    rw [he]
    exact .empty
  have h := hrun.invariant h0 fun _ _ _ h hs => h.step hs
  obtain ⟨a, L, ha, ht⟩ := h.tree
  refine ⟨a, L, ha, ⟨ht.holds.vmaFirst_eq, ?_, fun i hi => ht.range hi, ht.good,
    ht.holds.ordered.apart⟩, fun x => ⟨_, vmaFind_eq ht.holds, fun i => ?_⟩, ?_, ?_, ?_⟩
  · rintro A x B rfl
    exact ht.holds.vmaNext_eq
  · exact ht.holds.ordered.locate_eq_some
  · intro id v hid hne
    exact vmaInsert_refuses ht (fun hc => hid (ht.holds.visits.2 hc)) hne
  · intro start len vf hs hl hpos hlt
    refine (h.insert ha hs hl hpos hlt).mono (fun _ _ _ => trivial) ?_
    rintro _ k' ⟨-, hsp, hpte⟩
    exact ⟨by rw [hsp], hpte⟩
  · intro unmap start stop hs he hlt htop
    exact (h.removeRange hs he hlt htop).mono (fun _ _ hc => hc.2) fun _ _ hc => hc.2

-- A first space gets a page, and a part of that range is taken away again.
theorem vma_tree_exact_first :
    ∃ k₀ k R K a L, Run (TreeStep 1 R K) k₀ [some (.insert 0x10000 0x2000 ⟨true, true, false, true⟩),
      some (.removeRange true 0x10000 0x11000)] k ∧ k.space 1 = some a ∧ Walk a.vmas L := by
  obtain ⟨s, K, pa, hboot, hfree⟩ := bootKern_boot
  obtain ⟨-, a₀, k₀, -, -, ha0, hempty, -, hb0, -⟩ := (Roomy.bootKern s pa fun _ => 0).createSpace
    (hboot _).base (Nat.lt_of_lt_of_le (by decide) hfree)
  have ha0 : k₀.space 1 = some a₀ := ha0
  have h0 : TreeKept 1 (registeredPages wideMap) K k₀ := by
    refine ⟨hb0, a₀, [], ha0, ?_, by simp, by simp⟩
    rw [hempty]
    exact .empty
  have hstep : ∀ (k : Kern) (a : AddrSpace) (op : TreeOp), k.space 1 = some a → op.Valid a.vmas →
      TreeKept 1 (registeredPages wideMap) K k → ∃ k',
        TreeStep 1 (registeredPages wideMap) K k (some op) k' ∧
          TreeKept 1 (registeredPages wideMap) K k' := by
    intro k a op ha hv hk
    rcases hk.call ha hv with ⟨_, k', hr, hk'⟩ | ⟨_, k', hr, hk'⟩
    · exact ⟨k', .call ha hv hr, hk'⟩
    · exact ⟨k', .call ha hv hr, hk'⟩
  obtain ⟨k1, hs1, h1⟩ := hstep k₀ _ (.insert 0x10000 0x2000 ⟨true, true, false, true⟩) ha0
    (by simp [TreeOp.Valid, pageSize]) h0
  obtain ⟨a1, -, ha1, -⟩ := h1.tree
  obtain ⟨k2, hs2, -⟩ := hstep k1 a1 (.removeRange true 0x10000 0x11000) ha1
    (by simp [TreeOp.Valid, pageSize, userTop]) h1
  have hrun : Run (TreeStep 1 (registeredPages wideMap) K) k₀ _ k2 := .snoc (.snoc .nil hs1) hs2
  obtain ⟨a, L, ha, hwalk, -⟩ := vma_tree_exact hb0 ha0 hempty hrun
  exact ⟨k₀, k2, _, K, a, L, hrun, ha, hwalk⟩

end main

end Jnu.Mm
