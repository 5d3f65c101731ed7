import Mathlib

namespace Jnu.Lib.Chain

open Function

-- The two link fields of the nodes of intrusive doubly linked lists.
@[ext] structure Links (ι : Type*) where
  next : ι → Option ι
  prev : ι → Option ι

variable {ι : Type*} {head : Option ι} {l l' : Links ι} {p cur : Option ι} {xs A B : List ι} {x y : ι}

-- From `cur`, reached from `p`, the `next` links visit exactly `xs` and the `prev` links lead
-- back along them.
def Linked (l : Links ι) : Option ι → Option ι → List ι → Prop
  | _, cur, [] => cur = none
  | p, cur, x :: xs => cur = some x ∧ l.prev x = p ∧ Linked l (some x) (l.next x) xs

theorem Linked.head? (h : Linked l p cur xs) : cur = xs.head? := by
  cases xs with
  | nil => exact h
  | cons x xs => exact h.1

-- Only the links of the listed nodes matter.
theorem Linked.congr (h : Linked l p cur xs) (hnext : ∀ x ∈ xs, l'.next x = l.next x)
    (hprev : ∀ x ∈ xs, l'.prev x = l.prev x) : Linked l' p cur xs := by
  induction xs generalizing p cur with
  | nil => exact h
  | cons x xs ih =>
    obtain ⟨hcur, hp, hrest⟩ := h
    refine ⟨hcur, (hprev x (by simp)).trans hp, ?_⟩
    rw [hnext x (by simp)]
    exact ih hrest (fun y hy => hnext y (by simp [hy])) (fun y hy => hprev y (by simp [hy]))

theorem Linked.neighbours
    (h : Linked l p cur (A ++ x :: B)) : l.prev x = A.getLast?.or p ∧ l.next x = B.head? := by
  induction A generalizing p cur with
  | nil =>
    obtain ⟨-, hp, hrest⟩ := h
    exact ⟨by simpa using hp, hrest.head?⟩
  | cons a A ih =>
    obtain ⟨-, -, hrest⟩ := h
    obtain ⟨hprev, hnext⟩ := ih hrest
    refine ⟨?_, hnext⟩
    rw [hprev, List.getLast?_cons]
    cases A.getLast? <;> rfl

variable [DecidableEq ι]

def Links.setNext (l : Links ι) (i : ι) (v : Option ι) : Links ι :=
  { l with next := update l.next i v }

def Links.setPrev (l : Links ι) (i : ι) (v : Option ι) : Links ι :=
  { l with prev := update l.prev i v }

def Links.setNext? (l : Links ι) (i : Option ι) (v : Option ι) : Links ι :=
  match i with
  | some i => l.setNext i v
  | none => l

def Links.setPrev? (l : Links ι) (i : Option ι) (v : Option ι) : Links ι :=
  match i with
  | some i => l.setPrev i v
  | none => l

@[simp] theorem Links.next_setNext (l : Links ι) (i j : ι) (v : Option ι) :
    (l.setNext i v).next j = if j = i then v else l.next j := by
  simp [setNext, update_apply]

@[simp] theorem Links.prev_setNext (l : Links ι) (i : ι) (v : Option ι) :
    (l.setNext i v).prev = l.prev := rfl

@[simp] theorem Links.next_setPrev (l : Links ι) (i : ι) (v : Option ι) :
    (l.setPrev i v).next = l.next := rfl

@[simp] theorem Links.prev_setPrev (l : Links ι) (i j : ι) (v : Option ι) :
    (l.setPrev i v).prev j = if j = i then v else l.prev j := by
  simp [setPrev, update_apply]

@[simp] theorem Links.prev_setNext? (l : Links ι) (i v : Option ι) :
    (l.setNext? i v).prev = l.prev := by
  cases i <;> rfl

@[simp] theorem Links.next_setNext? (l : Links ι) (i v : Option ι) (j : ι) :
    (l.setNext? i v).next j = if i = some j then v else l.next j := by
  cases i with
  | none => simp [setNext?]
  | some i => simp [setNext?, eq_comm]

@[simp] theorem Links.next_setPrev? (l : Links ι) (i v : Option ι) :
    (l.setPrev? i v).next = l.next := by
  cases i <;> rfl

@[simp] theorem Links.prev_setPrev? (l : Links ι) (i v : Option ι) (j : ι) :
    (l.setPrev? i v).prev j = if i = some j then v else l.prev j := by
  cases i with
  | none => simp [setPrev?]
  | some i => simp [setPrev?, eq_comm]

def Links.push (l : Links ι) (head : Option ι) (x : ι) : Links ι :=
  ((l.setPrev x none).setNext x head).setPrev? head (some x)

-- Take `x` out of its list: its neighbours are linked to each other, its own links cleared.
def Links.unlink (l : Links ι) (x : ι) : Links ι :=
  (((l.setNext? (l.prev x) (l.next x)).setPrev? (l.next x) (l.prev x)).setNext x none).setPrev x none

theorem Linked.push (h : Linked l none head xs) (hnd : xs.Nodup) (hx : x ∉ xs) :
    Linked (l.push head x) none (some x) (x :: xs) := by
  have hhead := h.head?
  have hxh : head ≠ some x := by
    intro he
    rw [hhead] at he
    exact hx (List.mem_of_mem_head? he)
  refine ⟨rfl, by simp [Links.push, hxh], ?_⟩
  cases xs with
  | nil => simp [Links.push, Linked, hhead]
  | cons y ys =>
    have hyx : y ≠ x := fun he => hx (by simp [he])
    obtain ⟨hcur, hprev, hrest⟩ := h
    refine ⟨by simp [Links.push, hcur], by simp [Links.push, hcur], ?_⟩
    have hy : (l.push head x).next y = l.next y := by simp [Links.push, hyx]
    rw [hy]
    refine hrest.congr ?_ ?_
    · intro z hz
      have hzx : z ≠ x := fun he => hx (by simp [← he, hz])
      simp [Links.push, hzx]
    · intro z hz
      have hzx : z ≠ x := fun he => hx (by simp [← he, hz])
      have hzy : y ≠ z := fun he => (List.nodup_cons.1 hnd).1 (he ▸ hz)
      simp [Links.push, hcur, hzx, hzy]

theorem Links.next_unlink (l : Links ι) (x : ι) (hy : y ≠ x) :
    (l.unlink x).next y = if l.prev x = some y then l.next x else l.next y := by
  simp [unlink, hy]

theorem Links.prev_unlink (l : Links ι) (x : ι) (hy : y ≠ x) :
    (l.unlink x).prev y = if l.next x = some y then l.prev x else l.prev y := by
  simp [unlink, hy]

-- The induction is on the nodes before `x`; `p`, from which the list is entered, is not in it.
private theorem Linked.unlink_aux (h : Linked l p cur (A ++ x :: B)) (hnd : (A ++ x :: B).Nodup)
    (hp : ∀ q, p = some q → q ∉ A ++ x :: B) :
    Linked (l.unlink x) p (if A = [] then l.next x else cur) (A ++ B) := by
  have hnb := h.neighbours
  induction A generalizing p cur with
  | nil =>
    obtain ⟨-, hprev, hrest⟩ := h
    have hx : x ∉ B := (List.nodup_cons.1 hnd).1
    have hB : B.Nodup := (List.nodup_cons.1 hnd).2
    cases B with
    | nil => simpa [Linked] using hrest
    | cons b B =>
      obtain ⟨hcur, -, htail⟩ := hrest
      have hbx : b ≠ x := fun he => hx (by simp [he])
      have hnext : ∀ z ∈ b :: B, (l.unlink x).next z = l.next z := by
        intro z hz
        have hzx : z ≠ x := fun he => hx (he ▸ hz)
        have hzp : l.prev x ≠ some z := by
          intro he
          exact hp z (hprev ▸ he) (by simp [List.mem_cons.1 hz])
        rw [Links.next_unlink _ _ hzx, if_neg hzp]
      refine ⟨by simpa using hcur, ?_, ?_⟩
      · rw [Links.prev_unlink _ _ hbx, if_pos hcur, hprev]
      rw [hnext b (by simp)]
      refine htail.congr (fun z hz => hnext z (by simp [hz])) ?_
      intro z hz
      have hzx : z ≠ x := fun he => hx (by simp [← he, hz])
      have hzb : l.next x ≠ some z := by
        rw [hcur]
        intro he
        exact (List.nodup_cons.1 hB).1 (Option.some.inj he ▸ hz)
      rw [Links.prev_unlink _ _ hzx, if_neg hzb]
  | cons a A ih =>
    obtain ⟨hcur, hprev, hrest⟩ := h
    obtain ⟨ha, hnd'⟩ := List.nodup_cons.1 hnd
    have hax : a ≠ x := fun he => ha (by simp [he])
    have hih := ih hrest hnd' (fun q hq => Option.some.inj hq ▸ ha) hrest.neighbours
    have hanext : l.next x ≠ some a := by
      rw [hnb.2]
      intro he
      exact ha (by simp [List.mem_of_mem_head? he])
    have hgo : (l.unlink x).next a = if A = [] then l.next x else l.next a := by
      rw [Links.next_unlink _ _ hax, hrest.neighbours.1]
      cases A with
      | nil => simp
      | cons b A =>
        have hlast : (b :: A).getLast? ≠ some a := by
          intro he
          exact ha (List.mem_append_left _ (List.mem_of_getLast? he))
        have hor : ((b :: A).getLast?.or (some a)) ≠ some a := by
          rw [List.getLast?_cons] at hlast ⊢
          simpa using hlast
        rw [if_neg hor, if_neg (by simp)]
    refine ⟨by simpa using hcur, ?_, ?_⟩
    · rw [Links.prev_unlink _ _ hax, if_neg hanext, hprev]
    · rw [hgo]
      exact hih

theorem Linked.unlink (h : Linked l none head (A ++ x :: B)) (hnd : (A ++ x :: B).Nodup) :
    Linked (l.unlink x) none (if A = [] then l.next x else head) (A ++ B) :=
  h.unlink_aux hnd (fun _ hq => nomatch hq)

end Jnu.Lib.Chain
