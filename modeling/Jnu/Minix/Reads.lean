import Jnu.Minix.Scan
import Jnu.Minix.Volume

namespace Jnu.Minix

open Lib.Bytes Lib.Effect
open Function

variable {α : Type} {s s' s'' : Fs} {o ino index fuel i target n curr : Nat} {nd : Node} {name : Name}
  {raw : RawInode} {D : Prop} {Q : α → Fs → Prop} {E : Errno → Fs → Prop} {X : Nat → Prop}

-- Only new objects, and nothing else but the clock.
structure Quiet (s s' : Fs) : Prop where
  sb : s'.sb = s.sb
  nblocks : s'.nblocks = s.nblocks
  device : s'.device = s.device
  block : s'.block = s.block
  icache : s'.icache = s.icache
  env : s'.env = s.env
  next : s.next ≤ s'.next
  node : ∀ o, o < s.next → s'.node o = s.node o

theorem Quiet.at (s : Fs) (c : Clock) : Quiet s (s.at c) :=
  ⟨rfl, rfl, rfl, rfl, rfl, rfl, Nat.le_refl _, fun _ _ => rfl⟩

theorem Quiet.trans (h : Quiet s s') (h' : Quiet s' s'') : Quiet s s'' where
  sb := h'.sb.trans h.sb
  nblocks := h'.nblocks.trans h.nblocks
  device := h'.device.trans h.device
  block := h'.block.trans h.block
  icache := h'.icache.trans h.icache
  env := h'.env.trans h.env
  next := Nat.le_trans h.next h'.next
  node := fun o ho => (h'.node o (Nat.lt_of_lt_of_le ho h.next)).trans (h.node o ho)

theorem Quiet.readable (h : Quiet s s') (hs : Readable s) : Readable s' := by
  constructor
  · intro n
    rw [h.env]
    exact hs.calm n
  · rw [h.sb, h.nblocks]
    exact hs.device

theorem Quiet.diskInode (h : Quiet s s') (ino : Nat) : s'.diskInode ino = s.diskInode ino := by
  unfold Fs.diskInode
  rw [h.sb, h.block]

-- One new object, and nothing else but the clock.
structure Made (nd : Node) (s s' : Fs) : Prop where
  quiet : Quiet s s'
  next : s'.next = s.next + 1
  node : s'.node s.next = some nd
  other : ∀ o, o ≠ s.next → s'.node o = s.node o

theorem Made.of_at {c : Clock} (h : Made nd (s.at c) s') : Made nd s s' :=
  ⟨(Quiet.at s c).trans h.quiet, h.next, h.node, h.other⟩

theorem wp_minixGetRawInode {Q : RawInode → Fs → Prop} (hs : s.Calm)
    (hQ : ∀ c, ino ≠ 0 → ino ≤ s.sb.ninodes → inodeBlock s.sb ino < s.nblocks →
      Q (s.diskInode ino) (s.at c))
    (hE : ∀ e c, ino = 0 ∨ s.sb.ninodes < ino ∨ s.nblocks ≤ inodeBlock s.sb ino → E e (s.at c)) :
    wp (minixGetRawInode ino) Q E s := by
  apply wp_bind
  apply wp_superOf
  split_ifs with hino
  · exact wp_error (hE _ s.clock (by omega))
  push Not at hino
  apply wp_bind
  apply wp_bufcacheGet hs
  intro c
  split_ifs with hb
  · apply wp_dataOf
    exact wp_pure (hQ c hino.1 hino.2 (of_decide_eq_true hb))
  · rw [decide_eq_true_eq] at hb
    exact wp_error (hE _ c (by omega))

theorem wp_minixInodeFromRaw {Q : Nat → Fs → Prop}
    (hQ : ∀ s', Made ⟨ino, raw.size.toNat, raw.isDir, raw.mode, raw, false, 0⟩ s s' → Q s.next s')
    (hE : ∀ c, ¬ s.Plenty → E .enomem (s.at c)) : wp (minixInodeFromRaw ino raw) Q E s := by
  apply wp_bind
  apply wp_kmalloc_cases
  · intro c
    apply wp_bind
    apply wp_kmalloc_cases
    · intro c'
      apply wp_bind_read
      apply wp_bind
      apply wp_setNode
      apply wp_bind_write
      apply wp_pure
      refine hQ _ ⟨⟨rfl, rfl, rfl, rfl, rfl, rfl, Nat.le_succ _, fun o ho => ?_⟩, rfl, withNode_self,
        fun o ho => ?_⟩
      · exact withNode_other (Nat.ne_of_lt ho)
      · exact withNode_other ho
    · intro c' hp
      exact wp_error (hE c' hp)
  · intro c hp
    exact wp_error (hE c hp)

def listedOf (sb : Super) (block : Nat → Mem) (raw : RawInode) (name : Name) : Option (Nat × DirEntry) :=
  (dirSlots sb block raw).find? fun p => listed sb p.2 && p.2.text == name

-- The object that a lookup makes for an inode of the table.
def Fs.loaded (s : Fs) (ino : Nat) : Node :=
  ⟨ino, (s.diskInode ino).size.toNat, (s.diskInode ino).isDir, (s.diskInode ino).mode, s.diskInode ino,
    false, 0⟩

theorem wpOr_minixLookup {Q : Nat → Fs → Prop} (hs : Readable s) (hn : s.node o = some nd)
    (hname : name ≠ dot) (hD : 2 ^ 32 - blockSize < nd.raw.size.toNat → D)
    (hQ : ∀ p s', nd.isDir = true → listedOf s.sb s.block nd.raw name = some p →
      Made (s.loaded p.2.inode) s s' → Q s.next s')
    (hfile : nd.isDir = false → E .enotdir s)
    (hnone : ∀ c, nd.isDir = true → listedOf s.sb s.block nd.raw name = none → E .enoent (s.at c))
    (hfail : ∀ p e c, listedOf s.sb s.block nd.raw name = some p →
      ¬ s.Plenty ∨ s.nblocks ≤ inodeBlock s.sb p.2.inode → E e (s.at c)) :
    wpOr D (minixLookup o name) Q E s := by
  apply wpOr_bind
  apply (wp_nodeOf hn _).wpOr
  cases hdir : nd.isDir with
  | false =>
    exact wpOr_error (hfile hdir)
  | true =>
    rw [if_neg (by simp), if_neg hname]
    apply wpOr_bind
    apply (wp_superOf _).wpOr
    apply wpOr_bind
    apply wpOr_dirFind hs hn hD
    intro c
    rw [← List.head?_eq_getElem?, List.head?_filter]
    cases hf : (dirSlots s.sb s.block nd.raw).find? (fun p => listed s.sb p.2 && p.2.text == name) with
    | none => exact wpOr_error (hnone c hdir hf)
    | some p =>
      apply wp.wpOr
      apply wp_bind_attempt
      have hok := List.find?_some hf
      rw [Bool.and_eq_true] at hok
      have hl := of_decide_eq_true hok.1
      apply wp_minixGetRawInode (s := s.at c) hs.calm
      · intro c' _ _ _
        apply wp_minixInodeFromRaw
        · exact fun s' hm => hQ p s' hdir hf (Made.of_at (s := s) (c := c') hm)
        · exact fun c'' hp => hfail p _ _ hf (.inl hp)
      · intro e c' hbad
        have hbad' : p.2.inode = 0 ∨ s.sb.ninodes < p.2.inode ∨ s.nblocks ≤ inodeBlock s.sb p.2.inode := hbad
        exact wp_error (hfail p _ _ hf (.inr (by omega)))

section

variable (hs : Readable s) (hn : s.node o = some nd) (hdir : nd.isDir = true)
  (hD : 2 ^ 32 - blockSize < nd.raw.size.toNat → D)
include hs hn hdir hD

theorem wpOr_minixReaddir {Q : Option DirEntry → Fs → Prop}
    (hQ : ∀ c, Q (((dirSlots s.sb s.block nd.raw).filter fun p => listed s.sb p.2)[index]?.map Prod.snd)
      (s.at c)) :
    wpOr D (minixReaddir o index) Q E s := by
  apply wpOr_bind
  apply (wp_nodeOf hn _).wpOr
  rw [if_neg (by simp [hdir])]
  apply wpOr_bind
  apply (wp_superOf _).wpOr
  apply wpOr_bind
  apply wpOr_dirFind hs hn hD
  exact fun c => wpOr_pure (hQ c)

end

theorem wlp_minixGetRawInode {Q : RawInode → Fs → Prop} (hs : s.Calm)
    (hQ : ∀ c, Q (s.diskInode ino) (s.at c)) (hE : ∀ e c, E e (s.at c)) :
    wlp (minixGetRawInode ino) Q E s :=
  (wp_minixGetRawInode hs (fun c _ _ _ => hQ c) fun e c _ => hE e c).wlp

theorem wlp_minixInodeFromRaw {Q : Nat → Fs → Prop}
    (hQ : ∀ s', Made ⟨ino, raw.size.toNat, raw.isDir, raw.mode, raw, false, 0⟩ s s' → Q s.next s')
    (hE : ∀ c, E .enomem (s.at c)) : wlp (minixInodeFromRaw ino raw) Q E s :=
  (wp_minixInodeFromRaw hQ fun c _ => hE c).wlp

end Jnu.Minix
