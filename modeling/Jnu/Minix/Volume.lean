import Jnu.Lib.Trace
import Jnu.Minix.Write

namespace Jnu.Minix

open Lib.Bytes

-- The files of a volume: an inode object in memory, or an inode of the table that has none.
inductive Key
  | live (o : Nat)
  | stored (ino : Nat)
  deriving DecidableEq, Repr

def Fs.diskInode (s : Fs) (ino : Nat) : RawInode :=
  RawInode.get (s.block (inodeBlock s.sb ino)) (inodeOffset ino)

def Fs.files (s : Fs) : Files Key
  | .live o => (s.node o).map Node.raw
  | .stored ino =>
    if (1 ≤ ino ∧ ino ≤ s.sb.ninodes) ∧ imarked s.block ino = true ∧ s.icache ino = none then
      some (s.diskInode ino)
    else none

def Fs.sizeOf (s : Fs) : Key → Nat
  | .live o => match s.node o with
    | some nd => nd.size
    | none => 0
  | .stored ino => match s.files (.stored ino) with
    | some r => r.size.toNat
    | none => 0

-- Byte `x` of a file as its blocks hold it, past the end of the file too.
def Fs.byte (s : Fs) (κ : Key) (x : Nat) : Byte := byteAt s.sb s.block s.files κ x

def Fs.content (s : Fs) (κ : Key) : List Byte := slice (s.byte κ) 0 (s.sizeOf κ)

-- A volume without damage: every zone number is a marked zone of the data area that is named once, and the
-- objects in memory agree with their inodes.
structure Consistent (s : Fs) : Prop where
  fits : s.sb.Fits s.nblocks
  held : Held s.sb s.block s.files
  zones : ∀ κ sl, slotZone s.block s.files κ sl ≠ 0 → InData s.sb (slotZone s.block s.files κ sl)
  sizes : ∀ o nd, s.node o = some nd → nd.size ≤ maxSize ∧ nd.raw.size = BitVec.ofNat 32 nd.size

variable {s s' : Fs} {o ino nblocks : Nat} {nd : Node} {c : Clock}

theorem Super.Fits.imap_area {sb : Super} (hf : sb.Fits nblocks)
    (h : ino ≤ sb.ninodes) : InodeArea sb (2 + ino / bitsPerBlock) := by
  have h1 : ino / bitsPerBlock < sb.imapBlocks := by
    apply Nat.div_lt_of_lt_mul
    rw [Nat.mul_comm]
    exact Nat.lt_of_le_of_lt h hf.imap
  exact .inl (by omega)

theorem Super.Fits.inode_area {sb : Super} (hf : sb.Fits nblocks) (h1 : 1 ≤ ino)
    (h2 : ino ≤ sb.ninodes) : InodeArea sb (inodeBlock sb ino) := by
  have h3 := hf.table
  unfold rawInodeSize blockSize at h3
  refine .inr ⟨Nat.le_add_right _ _, ?_⟩
  unfold inodeBlock blockSize rawInodeSize
  omega

theorem Outer.files (hf : s.sb.Fits s.nblocks) (h : Outer o s s') :
    s'.files = s.files.refresh (.live o) s' o := by
  funext κ
  cases κ with
  | live o' =>
    by_cases ho : o' = o
    · rw [ho, Files.refresh, Function.update_self]
      rfl
    · rw [refresh_other (by simpa using ho)]
      change (s'.node o').map Node.raw = (s.node o').map Node.raw
      rw [h.node o' ho]
  | stored ino =>
    rw [refresh_other (by simp)]
    simp only [Fs.files]
    rw [h.sb, h.icache]
    by_cases hi : 1 ≤ ino ∧ ino ≤ s.sb.ninodes
    · have h1 : imarked s'.block ino = imarked s.block ino := by
        unfold imarked mapBit
        rw [h.below _ (hf.imap_area hi.2)]
      have h2 : s'.diskInode ino = s.diskInode ino := by
        unfold Fs.diskInode
        rw [h.sb, h.below _ (hf.inode_area hi.1 hi.2)]
      rw [h1, h2]
    · rw [if_neg fun hc => hi hc.1, if_neg fun hc => hi hc.1]

theorem Consistent.good (h : Consistent s) (hs : s.Calm) (hn : s.node o = some nd) :
    Good s s.files (.live o) o :=
  ⟨h.fits, hs, h.held, nd, hn, by simp [Fs.files, hn]⟩

theorem Consistent.at (h : Consistent s) (c : Clock) : Consistent (s.at c) :=
  ⟨h.fits, h.held, h.zones, h.sizes⟩

theorem Outer.sizeOf (hf : s.sb.Fits s.nblocks) (h : Outer o s s') {κ : Key} (hκ : κ ≠ .live o) :
    s'.sizeOf κ = s.sizeOf κ := by
  cases κ with
  | live o' =>
    have ho : o' ≠ o := fun hc => hκ (by rw [hc])
    simp only [Fs.sizeOf]
    rw [h.node o' ho]
  | stored ino =>
    simp only [Fs.sizeOf]
    rw [h.files hf, refresh_other hκ]

end Jnu.Minix
