import Jnu.Mm.Fault

namespace Jnu.User

open Lib.Dyadic Lib.Effect Paging Pmm Mm

abbrev Byte := BitVec 8

-- The start and the end of a range. `none`: the end wraps around.
def rangeEnd (uaddr len : Nat) : Option (Nat × Nat) :=
  if len = 0 then some (uaddr, uaddr)
  else if wrap64 (uaddr + len) < uaddr then none
  else some (uaddr, wrap64 (uaddr + len))

def userRangeOk (uaddr len : Nat) : Bool :=
  match rangeEnd uaddr len with
  | none => false
  | some (start, stop) =>
    if len = 0 then decide (start < userTop)
    else !(start = 0 || start ≥ userTop || stop > userTop)

def currentPml4 (current : Option Nat) : KM Nat :=
  match current with
  | none => Prog.read fun k => k.kernelPml4
  | some sp => pml4Of sp

def checkPage (pml4 page : Nat) (write : Bool) : PhysM Unit := do
  match ← (pagingGetFlags pml4 page).attempt with
  | .error _ => Prog.error .efault
  | .ok flags =>
    if has flags pteUser = false then Prog.error .efault
    else if write = true ∧ has flags pteWrite = false then Prog.error .efault
    else return

def userRangeMapped (current : Option Nat) (uaddr len : Nat) (write : Bool) : KM Unit := do
  if userRangeOk uaddr len = false then Prog.error .efault
  else if len = 0 then return
  else
    match rangeEnd uaddr len with
    | none => Prog.error .efault
    | some (start, stop) =>
      let pml4 ← currentPml4 current
      let page := start / pageSize * pageSize
      onPhys (Prog.forRange (fun i => checkPage pml4 (page + i * pageSize) write)
        (pagesIn page stop))

-- `memcpy` from user memory. A fault of the kernel stops the machine.
def memcpyFrom (pml4 va : Nat) : Nat → PhysM (List Byte)
  | 0 => return []
  | n + 1 => do
      let mem ← Prog.read fun s => s.mem
      let t ← Prog.known (translate mem pml4 va)
      let bs ← memcpyFrom pml4 (va + 1) n
      return byteAt mem t.pa :: bs

def memcpyTo (pml4 va : Nat) : List Byte → PhysM Unit
  | [] => return
  | b :: bs => do
      let mem ← Prog.read fun s => s.mem
      let t ← Prog.known (translate mem pml4 va)
      if t.write then
        Prog.write fun s => { s with mem := setByte s.mem t.pa b }
        memcpyTo pml4 (va + 1) bs
      else Prog.known none

-- `dst` tells whether the pointer is there.
def copyFromUser (current : Option Nat) (dst : Bool) (usrc len : Nat) : KM (List Byte) := do
  if len = 0 then return []
  else if dst = false then Prog.error .einval
  else
    userRangeMapped current usrc len false
    let pml4 ← currentPml4 current
    onPhys (memcpyFrom pml4 usrc len)

def copyToUser (current : Option Nat) (udst : Nat) (src : Option (List Byte)) (len : Nat) :
    KM Unit := do
  if len = 0 then return
  else
    match src with
    | none => Prog.error .einval
    | some bs =>
      userRangeMapped current udst len true
      let pml4 ← currentPml4 current
      onPhys (memcpyTo pml4 udst (bs.take len))

section range

variable {uaddr len u x : Nat}

def InUser (uaddr len : Nat) : Prop := 1 ≤ uaddr ∧ uaddr + len ≤ userTop

theorem userRangeOk_iff (h : uaddr < 2 ^ 64) (hl : len < 2 ^ 64) (h0 : 0 < len) :
    userRangeOk uaddr len = true ↔ InUser uaddr len := by
  unfold userRangeOk rangeEnd InUser
  rw [if_neg (by omega)]
  by_cases hw : wrap64 (uaddr + len) < uaddr
  · rw [if_pos hw]
    unfold wrap64 at hw
    simp only [Bool.false_eq_true, userTop, false_iff]
    omega
  rw [if_neg hw]
  unfold wrap64 at hw ⊢
  dsimp only
  rw [if_neg (by omega)]
  rw [Bool.not_eq_true', Bool.or_eq_false_iff, Bool.or_eq_false_iff, decide_eq_false_iff_not,
    decide_eq_false_iff_not, decide_eq_false_iff_not]
  omega

theorem InUser.range (h : InUser uaddr len) (h0 : 0 < len) :
    rangeEnd uaddr len = some (uaddr, uaddr + len) := by
  have hw : wrap64 (uaddr + len) = uaddr + len := by
    have h1 := h.2
    unfold wrap64
    simp only [userTop] at h1
    omega
  unfold rangeEnd
  rw [if_neg (by omega), hw, if_neg (by omega)]

def Touches (uaddr len u : Nat) : Prop := uaddr / pageSize ≤ u ∧ u * pageSize < uaddr + len

theorem touches_iff (h0 : 0 < len) :
    Touches uaddr len u ↔
      ∃ i, i < pagesIn (uaddr / pageSize * pageSize) (uaddr + len) ∧ u = uaddr / pageSize + i := by
  unfold Touches pagesIn
  simp only [pageSize]
  constructor
  · intro h
    exact ⟨u - uaddr / 4096, by omega, by omega⟩
  · intro h
    omega

theorem touches_page (h1 : uaddr ≤ x) (h2 : x < uaddr + len) : Touches uaddr len (x / pageSize) := by
  unfold Touches
  simp only [pageSize]
  omega

end range

section spec

variable {k : Kern} {R : Set Nat} {K : Set Block} {sp uaddr len u : Nat} {a : AddrSpace}

-- Every page of the range is there, and may be written to if that is asked for.
def Resident (k : Kern) (sp uaddr len : Nat) (write : Bool) : Prop :=
  ∀ u, Touches uaddr len u → ∃ e, k.pte sp u = some e ∧ (write = true → has e pteWrite = true)

theorem checkPage_spec (write : Bool) (h : Base k R K) (ha : k.space sp = some a) (hu : u < userPages) :
    wp (checkPage a.pml4Phys (u * pageSize) write)
      (fun _ s => s = k.phys ∧ ∃ e, k.pte sp u = some e ∧ (write = true → has e pteWrite = true))
      (fun err s => err = .efault ∧ s = k.phys ∧
        ¬ ∃ e, k.pte sp u = some e ∧ (write = true → has e pteWrite = true)) k.phys := by
  have hpage : u * pageSize / pageSize = u := Nat.mul_div_cancel _ (by decide)
  have hget := pagingGetFlags_run (v := u * pageSize) h.pt.shape (Kern.roots_eq ha) (by rwa [hpage])
  rw [← h.pml4_eq ha, hpage] at hget
  unfold checkPage
  apply wp_bind_attempt
  cases hp : k.pte sp u with
  | none =>
    rw [show pte k.phys.mem k.roots sp u = none from hp] at hget
    exact wp_of_error hget (wp_error ⟨rfl, rfl, by simp⟩)
  | some e =>
    rw [show pte k.phys.mem k.roots sp u = some e from hp] at hget
    apply wp_of_ok hget
    dsimp only
    rw [if_neg (by simp [(h.pt.shape.leaf sp u e hp).user])]
    refine wp_ite (fun hw => ?_) fun hw => ?_
    · refine wp_error ⟨rfl, rfl, fun hc => ?_⟩
      obtain ⟨e'', he'', hwe⟩ := hc
      obtain rfl := Option.some.inj he''
      simp [hw.2, hw.1] at hwe
    · refine wp_pure ⟨rfl, e, rfl, fun hwr => ?_⟩
      by_contra hc
      exact hw ⟨hwr, by simpa using hc⟩

theorem userRangeMapped_spec (write : Bool) (h : Base k R K) (ha : k.space sp = some a)
    (hu : uaddr < 2 ^ 64) (hl : len < 2 ^ 64) (h0 : 0 < len) :
    wp (userRangeMapped (some sp) uaddr len write)
      (fun _ k' => k' = k ∧ InUser uaddr len ∧ Resident k sp uaddr len write)
      (fun e k' => e = .efault ∧ k' = k ∧ (InUser uaddr len → ¬ Resident k sp uaddr len write)) k := by
  have hok := userRangeOk_iff hu hl h0
  unfold userRangeMapped
  by_cases hin : InUser uaddr len
  · rw [if_neg (by simp [hok.2 hin]), if_neg (by omega), hin.range h0]
    apply wp_pml4Of ha
    apply wp_zoom
    -- the pages up to number `i` have been looked at
    refine (wp_forRange (fun i s => s = k.phys ∧ ∀ j, j < i →
      ∃ e, k.pte sp (uaddr / pageSize + j) = some e ∧ (write = true → has e pteWrite = true))
      ?_ ?_).mono ?_ ?_ (E := fun err s => err = .efault ∧ s = k.phys ∧ ¬ Resident k sp uaddr len write)
    · exact ⟨rfl, fun j hj => absurd hj (Nat.not_lt_zero j)⟩
    · intro i s hi hs
      obtain ⟨rfl, hall⟩ := hs
      have hpage : uaddr / pageSize + i < userPages := by
        have htop := hin.2
        unfold pagesIn at hi
        simp only [pageSize, userTop, userPages, Nat.reducePow] at hi htop ⊢
        omega
      rw [← Nat.add_mul]
      refine (checkPage_spec write h ha hpage).mono ?_ ?_
      · intro _ s hs
        refine ⟨hs.1, fun j hj => ?_⟩
        by_cases hji : j = i
        · rw [hji]
          exact hs.2
        · exact hall j (by omega)
      · intro e s hs
        exact ⟨hs.1, hs.2.1, fun hc => hs.2.2 (hc _ ((touches_iff h0).2 ⟨i, hi, rfl⟩))⟩
    · intro _ s hs
      refine ⟨by rw [hs.1], hin, fun u hu => ?_⟩
      obtain ⟨i, hi, rfl⟩ := (touches_iff h0).1 hu
      exact hs.2 i hi
    · intro e s hs
      exact ⟨hs.1, by rw [hs.2.1], fun _ => hs.2.2⟩
  · rw [if_pos (by
      rw [← Bool.not_eq_true, hok]
      exact hin)]
    exact wp_error ⟨rfl, rfl, fun hc => absurd hc hin⟩

theorem memcpyFrom_run (h : Base k R K) (ha : k.space sp = some a) (n : Nat) :
    ∀ va, va + n ≤ userTop → (∀ x, va ≤ x → x < va + n → k.pte sp (x / pageSize) ≠ none) →
      (memcpyFrom a.pml4Phys va n).run k.phys =
        done ((List.range n).map fun i => k.byte sp (va + i)) k.phys := by
  induction n with
  | zero =>
    intro va _ _
    rfl
  | succ n ih =>
    intro va htop hall
    obtain ⟨e, hp⟩ := Option.ne_none_iff_exists'.1 (hall va (Nat.le_refl _) (by omega))
    have hrec := ih (va + 1) (by omega) fun x h1 h2 => hall x (by omega) (by omega)
    have htr : translate k.phys.mem a.pml4Phys va =
        some ⟨pteAddr e + va % pageSize, true, has e pteWrite, !has e pteNx⟩ := by
      rw [translate_run h ha (page_lt (by omega)), hp]
      rfl
    unfold memcpyFrom
    rw [run_bind_ok (run_read _ k.phys), run_bind_ok (run_known htr), run_bind_ok hrec]
    rw [List.range_succ_eq_map, List.map_cons, List.map_map,
      show k.byte sp (va + 0) = byteAt k.phys.mem (pteAddr e + va % pageSize) from byte_eq hp]
    have hshift : (fun i => k.byte sp (va + 1 + i)) = (fun i => k.byte sp (va + i)) ∘ Nat.succ := by
      funext i
      congr 1
      omega
    rw [hshift]
    rfl

-- Only the bytes of the range have changed, to those of `bs`.
def Written (k k' : Kern) (sp uaddr : Nat) (bs : List Byte) : Prop :=
  (∀ t u, k'.pte t u = k.pte t u) ∧ ∀ t x, k'.byte t x =
    if t = sp ∧ uaddr ≤ x ∧ x < uaddr + bs.length then bs.getD (x - uaddr) 0 else k.byte t x

theorem memcpyTo_run (bs : List Byte) : ∀ va (k : Kern), Sound k R K → k.space sp = some a →
    va + bs.length ≤ userTop →
    (∀ x, va ≤ x → x < va + bs.length →
      ∃ e, k.pte sp (x / pageSize) = some e ∧ has e pteWrite = true) →
    ∃ s', (memcpyTo a.pml4Phys va bs).run k.phys = done () s' ∧
      Sound { k with phys := s' } R K ∧ Written k { k with phys := s' } sp va bs := by
  induction bs with
  | nil =>
    intro va k h _ _ _
    exact ⟨k.phys, rfl, h, fun _ _ => rfl, fun t x => by rw [if_neg (by simp)]⟩
  | cons b bs ih =>
    intro va k h ha htop hall
    rw [List.length_cons] at htop hall
    obtain ⟨e, hp, hw⟩ := hall va (Nat.le_refl _) (by omega)
    have htr : translate k.phys.mem a.pml4Phys va =
        some ⟨pteAddr e + va % pageSize, true, has e pteWrite, !has e pteNx⟩ := by
      rw [translate_run h.base ha (page_lt (by omega)), hp]
      rfl
    obtain ⟨h₁, hpte1, hbytes1⟩ := store_spec h hp hw b rfl
    set k1 : Kern := { k with phys := { k.phys with
      mem := setByte k.phys.mem (pteAddr e + va % pageSize) b } } with hk1
    obtain ⟨s', hrun, h', hpte', hbytes'⟩ := ih (va + 1) k1 h₁ ha (by omega) fun x h1 h2 => by
      rw [hpte1]
      exact hall x (by omega) (by omega)
    refine ⟨s', ?_, h', fun t u => (hpte' t u).trans (hpte1 t u), fun t x => ?_⟩
    · unfold memcpyTo
      rw [run_bind_ok (run_read _ k.phys), run_bind_ok (run_known htr)]
      rw [if_pos hw]
      exact hrun
    · rw [hbytes', hbytes1, List.length_cons]
      by_cases hx : t = sp ∧ va + 1 ≤ x ∧ x < va + 1 + bs.length
      · rw [if_pos hx, if_pos (by omega)]
        rw [show x - va = (x - (va + 1)) + 1 by omega, List.getD_cons_succ]
      rw [if_neg hx]
      by_cases hv : t = sp ∧ x = va
      · rw [if_pos hv, if_pos (by omega), hv.2, Nat.sub_self, List.getD_cons_zero]
      · rw [if_neg hv, if_neg (by omega)]

-- `copy_from_user` returns 0 and the bytes of the buffer.
def CopiesFrom (k : Kern) (sp usrc len : Nat) : Prop :=
  (copyFromUser (some sp) true usrc len).run k =
    some (.ok (.ok ((List.range len).map fun i => k.byte sp (usrc + i)), k))

-- `copy_to_user` returns 0 and the buffer has the bytes.
def CopiesTo (k : Kern) (sp udst : Nat) (bs : List Byte) : Prop :=
  ∃ k', (copyToUser (some sp) udst (some bs) bs.length).run k = some (.ok (.ok (), k')) ∧
    Written k k' sp udst bs

theorem copiesFrom_iff (h : Base k R K) (ha : k.space sp = some a) (hu : uaddr < 2 ^ 64)
    (hl : len < 2 ^ 64) (h0 : 0 < len) :
    CopiesFrom k sp uaddr len ↔ InUser uaddr len ∧ Resident k sp uaddr len false := by
  unfold CopiesFrom copyFromUser
  rw [if_neg (by omega), if_neg (by simp)]
  rcases userRangeMapped_spec false h ha hu hl h0 with
    ⟨_, k', hrun, rfl, hin, hres⟩ | ⟨e, k', hrun, rfl, rfl, hno⟩
  · rw [run_bind_ok hrun, run_bind_ok (show (currentPml4 (some sp)).run k' = _ from run_pml4Of ha)]
    refine iff_of_true (run_onPhys (memcpyFrom_run h ha len uaddr hin.2 fun x h1 h2 => ?_)) ⟨hin, hres⟩
    obtain ⟨e, he, -⟩ := hres _ (touches_page h1 h2)
    simp [he]
  · rw [run_bind, hrun]
    exact iff_of_false (by simp) fun hc => hno hc.1 hc.2

theorem copiesTo_iff {bs : List Byte} (h : Sound k R K) (ha : k.space sp = some a)
    (hu : uaddr < 2 ^ 64) (hl : bs.length < 2 ^ 64) (h0 : bs ≠ []) :
    CopiesTo k sp uaddr bs ↔ InUser uaddr bs.length ∧ Resident k sp uaddr bs.length true := by
  have hpos := List.length_pos_iff.2 h0
  unfold CopiesTo copyToUser
  rw [if_neg (by omega)]
  dsimp only
  rw [List.take_length]
  rcases userRangeMapped_spec true h.base ha hu hl hpos with
    ⟨_, k', hrun, rfl, hin, hres⟩ | ⟨e, k', hrun, rfl, rfl, hno⟩
  · rw [run_bind_ok hrun, run_bind_ok (show (currentPml4 (some sp)).run k' = _ from run_pml4Of ha)]
    obtain ⟨s', hcopy, -, hw⟩ := memcpyTo_run bs uaddr k' h ha hin.2 fun x h1 h2 => by
      obtain ⟨e, he, hwe⟩ := hres _ (touches_page h1 h2)
      exact ⟨e, he, hwe rfl⟩
    exact iff_of_true ⟨_, run_onPhys hcopy, hw⟩ ⟨hin, hres⟩
  · rw [run_bind, hrun]
    exact iff_of_false (by simp) fun hc => hno hc.1 hc.2

end spec

end Jnu.User
