import Jnu.Minix.Calls
import Jnu.Minix.Dir

namespace Jnu.Minix

open Lib.Bytes

section answer

variable {α : Type} {v : Except Errno α}

-- The value or error code of a run that ends, without the state.
def answer (r : Option (Except Panic (Except Errno α × Fs))) : Option (Except Errno α) :=
  match r with
  | some (.ok (v, _)) => some v
  | _ => none

theorem exists_of_answer {r : Option (Except Panic (Except Errno α × Fs))}
    (h : answer r = some v) : ∃ s', r = some (.ok (v, s')) := by
  unfold answer at h
  split at h
  · cases h
    exact ⟨_, rfl⟩
  · cases h

def stateAfter (m : FsM α) (s : Fs) : Fs :=
  match m.run s with
  | some (.ok (_, s')) => s'
  | _ => s

theorem run_stateAfter {m : FsM α} {s : Fs} (h : answer (m.run s) = some v) :
    m.run s = some (.ok (v, stateAfter m s)) := by
  obtain ⟨s', hrun⟩ := exists_of_answer h
  unfold stateAfter
  rw [hrun]

def after (s : Fs) (c : FileCall) : Fs := stateAfter c.exec s

theorem fileStep_after {s : Fs} {c : FileCall} {v : Except Errno FileResult}
    (hn : (s.node c.object).isSome) (hc : c.Fits) (h : answer (c.exec.run s) = some v) :
    FileStep s (c, v) (after s c) := ⟨hn, hc, run_stateAfter h⟩

end answer

-- A small volume: 32 inodes, eleven zones, and a file, which is open.
section sample

def sampleSuper : Super where
  ninodes := 32
  nzones := 16
  imapBlocks := 1
  zmapBlocks := 1
  firstdatazone := 5
  logZoneSize := 0
  magic := 0x137f

theorem sampleSuper_fits : sampleSuper.Fits 16 := by
  constructor <;> decide

def smallInode (mode : BitVec 16) (nlinks : BitVec 8) (size z : Nat) : RawInode :=
  { RawInode.zeroed with
    mode := mode
    nlinks := nlinks
    size := BitVec.ofNat 32 size
    zone := fun i => if i = 0 then BitVec.ofNat 16 z else 0 }

-- A directory entry with a name of one letter, or of two with the same letter.
def sampleEntry (ino : Nat) (letter : Byte) (twice : Bool) : Mem := fun i =>
  if i = 0 then BitVec.ofNat 8 ino
  else if i = 2 ∨ (i = 3 ∧ twice) then letter
  else 0

def sampleRoot : RawInode := smallInode 0x41ed 2 48 5

def sampleFile (size z : Nat) : RawInode := smallInode 0x81a4 1 size z

-- `.`, `..` and `f`, which is inode 2.
def sampleDir : Mem := fun i =>
  if i < 16 then sampleEntry 1 0x2e false i
  else if i < 32 then sampleEntry 1 0x2e true (i - 16)
  else if i < 48 then sampleEntry 2 0x66 false (i - 32)
  else 0

-- The fields of `sampleSuper` as they are on the device.
def superBytes : Mem := fun i => [32, 0, 16, 0, 1, 0, 1, 0, 5, 0, 0, 0, 0, 0, 0, 0, 0x7f, 0x13].getD i 0

-- The blocks of the volume, with `data` in zone 6.
def sampleBlock (size z : Nat) (data : Mem) (b : Nat) : Mem :=
  if b = 1 then superBytes
  else if b = 2 then fun i => if i = 0 then 7 else 0
  else if b = 3 then fun i => if i = 0 then 7 else 0
  else if b = 4 then (sampleFile size z).put (sampleRoot.put (fun _ => 0) 0) 32
  else if b = 5 then sampleDir
  else if b = 6 then data
  else fun _ => 0

def sampleNode (size z : Nat) (o : Nat) : Option Node :=
  if o = 0 then some ⟨1, 48, true, 0x41ed, sampleRoot, false, 1⟩
  else if o = 1 then some ⟨2, size, false, 0x81a4, sampleFile size z, false, 1⟩
  else none

def sample (size z : Nat) (data : Mem) : Fs where
  sb := sampleSuper
  nblocks := 16
  block := sampleBlock size z data
  device := sampleBlock size z data
  node := sampleNode size z
  next := 2
  icache ino := if ino = 1 then some 0 else if ino = 2 then some 1 else none
  env := ⟨fun _ => false, fun _ => false, fun _ => 0⟩
  clock := ⟨0, 0, 0⟩

variable {size z w : Nat} {data : Mem}

theorem smallInode_izone (mode : BitVec 16) (nlinks : BitVec 8) (size z i : Nat) (hz : z < 2 ^ 16) :
    (smallInode mode nlinks size z).izone i = if i = 0 then z else 0 := by
  unfold RawInode.izone smallInode
  by_cases hi : i < 9
  · rw [dif_pos hi]
    by_cases h0 : i = 0
    · simp only [h0, Fin.zero_eta, if_true]
      rw [BitVec.toNat_ofNat, Nat.mod_eq_of_lt hz]
    rw [if_neg h0]
    have : (⟨i, hi⟩ : Fin 9) ≠ 0 := fun hc => h0 (congrArg Fin.val hc)
    simp only [this, if_false]
    rfl
  · rw [dif_neg hi, if_neg (by omega)]

theorem zoneOf_direct {r : RawInode} (h7 : r.izone 7 = 0) (h8 : r.izone 8 = 0) (block : Nat → Mem)
    (sl : Slot) : zoneOf block r sl = match sl with
      | .data b => if b < 7 then r.izone b else 0
      | _ => 0 := by
  have hin : ∀ j, zoneOf block r (.inner j) = 0 := by
    intro j
    simp only [zoneOf, h8, tableEntry]
    simp
  cases sl with
  | single => exact h7
  | double => exact h8
  | inner j => exact hin j
  | data b =>
    dsimp only
    split_ifs with hb
    · exact zoneOf_field (if_pos hb)
    rw [zoneOf_home]
    simp only [Slot.home, if_neg hb]
    split_ifs
    · dsimp only
      rw [tableEntry, if_pos (show zoneOf block r .single = 0 from h7)]
    · dsimp only
      rw [tableEntry, if_pos (hin _)]
    · rfl

theorem smallInode_zone (mode : BitVec 16) (nlinks : BitVec 8) (hz : z < 2 ^ 16) (block : Nat → Mem)
    (sl : Slot) : zoneOf block (smallInode mode nlinks size z) sl = if sl = .data 0 then z else 0 := by
  rw [zoneOf_direct (by rw [smallInode_izone _ _ _ _ _ hz]; rfl)
    (by rw [smallInode_izone _ _ _ _ _ hz]; rfl)]
  cases sl with
  | data b =>
    dsimp only
    rw [smallInode_izone _ _ _ _ _ hz]
    by_cases hb : b = 0
    · simp [hb]
    · simp [hb]
  | single => rfl
  | double => rfl
  | inner j => rfl

theorem sample_stored (ino : Nat) : (sample size z data).files (.stored ino) = none := by
  have hall : ∀ i, i < 33 → ¬ ((1 ≤ i ∧ i ≤ 32) ∧ testBit (fun j => if j = 0 then 7 else 0) i = true ∧
      (if i = 1 then some 0 else if i = 2 then some 1 else none) = (none : Option Nat)) := by
    decide
  unfold Fs.files
  apply if_neg
  rintro ⟨hi, hm, hc⟩
  have hi' : ino ≤ 32 := hi.2
  refine hall ino (by omega) ⟨hi, ?_, hc⟩
  have hdiv : ino / bitsPerBlock = 0 := Nat.div_eq_of_lt (by unfold bitsPerBlock; omega)
  have hmod : ino % bitsPerBlock = ino := Nat.mod_eq_of_lt (by unfold bitsPerBlock; omega)
  unfold imarked mapBit at hm
  rw [hdiv, hmod] at hm
  exact hm

theorem sample_zone (hz : z < 2 ^ 16) (κ : Key) (sl : Slot) :
    slotZone (sample size z data).block (sample size z data).files κ sl =
      if κ = .live 0 ∧ sl = .data 0 then 5 else if κ = .live 1 ∧ sl = .data 0 then z else 0 := by
  cases κ with
  | stored ino => rw [slotZone_none (sample_stored ino), if_neg (by simp), if_neg (by simp)]
  | live o =>
    by_cases h0 : o = 0
    · have hF : (sample size z data).files (.live o) = some sampleRoot := by rw [h0]; rfl
      rw [slotZone_eq hF, sampleRoot, smallInode_zone _ _ (by decide), h0]
      simp
    by_cases h1 : o = 1
    · have hF : (sample size z data).files (.live o) = some (sampleFile size z) := by rw [h1]; rfl
      rw [slotZone_eq hF, sampleFile, smallInode_zone _ _ hz, h1]
      simp
    · have hF : (sample size z data).files (.live o) = none := by
        simp [Fs.files, sample, sampleNode, h0, h1]
      rw [slotZone_none hF]
      simp [h0, h1]

theorem sample_mapped {κ : Key} {sl : Slot} (hz : z = 0 ∨ z = 6)
    (hne : slotZone (sample size z data).block (sample size z data).files κ sl ≠ 0) : sl = .data 0 ∧
      ((κ = .live 0 ∧ slotZone (sample size z data).block (sample size z data).files κ sl = 5) ∨
        (κ = .live 1 ∧ slotZone (sample size z data).block (sample size z data).files κ sl = 6)) := by
  rw [sample_zone (by omega)] at hne ⊢
  split_ifs at hne ⊢ with h0 h1
  · exact ⟨h0.2, .inl ⟨h0.1, rfl⟩⟩
  · exact ⟨h1.2, .inr ⟨h1.1, hz.resolve_left hne⟩⟩
  · exact absurd rfl hne

theorem sample_marked (hw : w = 5 ∨ w = 6) :
    zmarked (sample size z data).sb (sample size z data).block w = true := by
  have hbits : testBit (fun i => if i = 0 then 7 else 0) (w - 5 + 1) = true := by
    rcases hw with rfl | rfl <;> decide
  unfold zmarked mapBit
  have hdiv : (w - sampleSuper.firstdatazone + 1) / bitsPerBlock = 0 := by
    rcases hw with rfl | rfl <;> rfl
  have hmod : (w - sampleSuper.firstdatazone + 1) % bitsPerBlock = w - 5 + 1 := by
    rcases hw with rfl | rfl <;> rfl
  rw [show (sample size z data).sb = sampleSuper from rfl, hdiv, hmod]
  exact hbits

theorem sample_sound (hz : z = 0 ∨ z = 6) (hsize : size ≤ maxSize) : Sound (sample size z data) := by
  have hne : ∀ w, InData sampleSuper w → w ≠ 0 := fun w hw => sampleSuper_fits.ne_zero hw
  refine ⟨⟨sampleSuper_fits, ⟨⟨fun κ sl ht h0 => ?_, fun κ sl κ' sl' hd heq => ?_⟩, fun κ sl hd => ?_⟩,
    fun κ sl h0 => ?_, fun o nd hn => ?_⟩, fun _ => rfl⟩
  · rw [(sample_mapped hz h0).1] at ht
    exact absurd ht (Slot.not_table 0)
  · have h0 := hne _ hd
    obtain ⟨hsl, hκ⟩ := sample_mapped hz h0
    obtain ⟨hsl', hκ'⟩ := sample_mapped hz (heq ▸ h0)
    refine ⟨?_, hsl.trans hsl'.symm⟩
    rcases hκ with ⟨h1, h2⟩ | ⟨h1, h2⟩
    · rcases hκ' with ⟨h3, h4⟩ | ⟨h3, h4⟩
      · rw [h1, h3]
      · omega
    · rcases hκ' with ⟨h3, h4⟩ | ⟨h3, h4⟩
      · omega
      · rw [h1, h3]
  · rcases (sample_mapped hz (hne _ hd)).2 with ⟨-, h5⟩ | ⟨-, h6⟩
    · rw [h5]
      exact sample_marked (.inl rfl)
    · rw [h6]
      exact sample_marked (.inr rfl)
  · rcases (sample_mapped hz h0).2 with ⟨-, h5⟩ | ⟨-, h6⟩
    · rw [h5]
      exact (by decide : InData sampleSuper 5)
    · rw [h6]
      exact (by decide : InData sampleSuper 6)
  · have hmax : 48 ≤ maxSize := by decide
    simp only [sample, sampleNode] at hn
    split_ifs at hn with h0 h1
    · cases hn
      exact ⟨hmax, rfl⟩
    · cases hn
      exact ⟨hsize, rfl⟩

-- The same volume with an empty directory `d`, open as object 1.
def sampleSub : RawInode := smallInode 0x41ed 2 32 6

def sampleDots : Mem := fun i =>
  if i < 16 then sampleEntry 2 0x2e false i
  else if i < 32 then sampleEntry 1 0x2e true (i - 16)
  else 0

def sampleTop : Mem := fun i =>
  if i < 16 then sampleEntry 1 0x2e false i
  else if i < 32 then sampleEntry 1 0x2e true (i - 16)
  else if i < 48 then sampleEntry 2 0x64 false (i - 32)
  else 0

def subBlock (b : Nat) : Mem :=
  if b = 2 then fun i => if i = 0 then 7 else 0
  else if b = 3 then fun i => if i = 0 then 7 else 0
  else if b = 4 then sampleSub.put (sampleRoot.put (fun _ => 0) 0) 32
  else if b = 5 then sampleTop
  else if b = 6 then sampleDots
  else fun _ => 0

def sampleTree : Fs where
  sb := sampleSuper
  nblocks := 16
  block := subBlock
  device := subBlock
  node o :=
    if o = 0 then some ⟨1, 48, true, 0x41ed, sampleRoot, false, 1⟩
    else if o = 1 then some ⟨2, 32, true, 0x41ed, sampleSub, false, 1⟩
    else none
  next := 2
  icache ino := if ino = 1 then some 0 else if ino = 2 then some 1 else none
  env := ⟨fun _ => false, fun _ => false, fun _ => 0⟩
  clock := ⟨0, 0, 0⟩

def oldBytes : Mem := fun i => if i < 2 then 0x41 else 0

end sample

end Jnu.Minix
