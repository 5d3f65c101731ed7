import Jnu.Errno
import Jnu.Lib.Bytes

namespace Jnu.Fat32

open Lib.Bytes

def u32 (n : Nat) : Nat := n % 2 ^ 32

structure Priv where
  bytesPerSec : Nat
  secPerClus : Nat
  rsvdSec : Nat
  numFats : Nat
  fatSz : Nat
  rootClus : Nat
  dataStartSec : Nat
  totalSectors : Nat
  clusterCount : Nat
  clusterBytes : Nat
  deriving DecidableEq

def sectorSize : Nat := 512

def direntSize : Nat := 32

def rootIno : Nat := 1

def eocMin : Nat := 0x0ffffff8

def badCluster : Nat := 0x0ffffff7

def minDataClusters : Nat := 65525

-- `fat32_parse_bpb`, with sector 0 if it can be read.
def parseBpb (sec : Option Mem) (sectorCount : Nat) : Except Errno Priv :=
  match sec with
  | none => .error .eio
  | some b =>
    let bytesPerSec := load b 11 2
    let secPerClus := load b 13 1
    let rsvd := load b 14 2
    let numFats := load b 16 1
    let fatSz := load b 36 4
    let rootClus := load b 44 4
    let totSec := if load b 32 4 = 0 then load b 19 2 else load b 32 4
    let dataSec64 := rsvd + numFats * fatSz
    let dataSec := u32 dataSec64
    let clusterCount := u32 (totSec + 2 ^ 32 - dataSec) / secPerClus
    let lastDataSec := dataSec + clusterCount * secPerClus
    if load b 510 1 ≠ 0x55 ∨ load b 511 1 ≠ 0xaa then .error .einval
    else if bytesPerSec ≠ sectorSize then .error .einval
    else if secPerClus = 0 ∨ secPerClus &&& (secPerClus - 1) ≠ 0 ∨ secPerClus > 128 then .error .einval
    else if rsvd = 0 ∨ numFats = 0 ∨ fatSz = 0 then .error .einval
    else if load b 17 2 ≠ 0 ∨ load b 22 2 ≠ 0 then .error .einval
    else if rootClus < 2 then .error .einval
    else if totSec = 0 then .error .einval
    else if dataSec64 ≥ totSec then .error .einval
    else if clusterCount < minDataClusters then .error .einval
    else if rootClus ≥ u32 (clusterCount + 2) then .error .einval
    else if totSec > sectorCount then .error .einval
    else if fatSz * bytesPerSec < (clusterCount + 2) * 4 then .error .einval
    else if lastDataSec * (sectorSize / direntSize) > 0xffffffff then .error .einval
    else .ok
      { bytesPerSec, secPerClus, rsvdSec := rsvd, numFats, fatSz, rootClus, dataStartSec := dataSec
        totalSectors := totSec, clusterCount, clusterBytes := u32 (secPerClus * bytesPerSec) }

def clusterLba (p : Priv) (cluster : Nat) : Nat :=
  p.dataStartSec + u32 (cluster + 2 ^ 32 - 2) * p.secPerClus

def ClusterValid (p : Priv) (cluster : Nat) : Prop := 2 ≤ cluster ∧ cluster < u32 (p.clusterCount + 2)

-- The sector that `fat32_next_cluster` reads.
def fatSec (p : Priv) (cluster : Nat) : Nat := p.rsvdSec + cluster * 4 / p.bytesPerSec

def direntIno (lba off : Nat) : Nat := u32 (lba * (sectorSize / direntSize) + off / direntSize)

def Slot (p : Priv) (lba off : Nat) : Prop :=
  (∃ c i, ClusterValid p c ∧ i < p.secPerClus ∧ lba = clusterLba p c + i) ∧ off < sectorSize ∧ direntSize ∣ off

-- What the checks of `fat32_parse_bpb` say in exact numbers.
structure Checked (p : Priv) (sectorCount : Nat) : Prop where
  bytesPerSec : p.bytesPerSec = 512
  secPerClus : 0 < p.secPerClus ∧ p.secPerClus ≤ 128
  rsvdSec : 0 < p.rsvdSec
  numFats : 0 < p.numFats
  fatSz : 0 < p.fatSz
  dataStartSec : p.dataStartSec = p.rsvdSec + p.numFats * p.fatSz
  data_lt : p.dataStartSec < p.totalSectors
  total_lt : p.totalSectors < 2 ^ 32
  total_le : p.totalSectors ≤ sectorCount
  clusterCount : p.clusterCount = (p.totalSectors - p.dataStartSec) / p.secPerClus
  fat : (p.clusterCount + 2) * 4 ≤ p.fatSz * 512
  last : (p.dataStartSec + p.clusterCount * p.secPerClus) * 16 ≤ 0xffffffff
  clusterBytes : p.clusterBytes = p.secPerClus * p.bytesPerSec

theorem load_lt (m : Mem) (off n : Nat) : load m off n < 256 ^ n := by
  induction n generalizing off with
  | zero => exact Nat.one_pos
  | succ n ih =>
    have h2 := ih (off + 1)
    rw [load, Nat.pow_succ]
    omega

theorem ite_error_eq_ok {α : Type} {c : Prop} [Decidable c] {e : Errno} {x : Except Errno α} {a : α} :
    (if c then .error e else x) = .ok a ↔ ¬ c ∧ x = .ok a := by
  split <;> simp [*]

theorem parseBpb_checked {sec : Option Mem} {n : Nat} {p : Priv} (h : parseBpb sec n = .ok p) :
    Checked p n := by
  unfold parseBpb at h
  split at h
  · cases h
  rename_i b
  have htot : (if load b 32 4 = 0 then load b 19 2 else load b 32 4) < 2 ^ 32 := by
    have h32 := load_lt b 32 4
    have h16 := load_lt b 19 2
    split <;> omega
  generalize (if load b 32 4 = 0 then load b 19 2 else load b 32 4) = tot at h htot
  simp only [ite_error_eq_ok, Except.ok.injEq, not_or, ne_eq, not_not, Nat.not_lt, ge_iff_le, gt_iff_lt,
    Nat.not_le] at h
  obtain ⟨-, hbytes, ⟨hspc, -, hspc'⟩, ⟨hrsvd, hnum, hsz⟩, -, -, -, hdata, -, -, hn, hfat, hlast, rfl⟩ := h
  have hstart : u32 (load b 14 2 + load b 16 1 * load b 36 4) = load b 14 2 + load b 16 1 * load b 36 4 :=
    Nat.mod_eq_of_lt (hdata.trans htot)
  rw [hstart] at hfat hlast
  have hrest : u32 (tot + 2 ^ 32 - (load b 14 2 + load b 16 1 * load b 36 4)) =
      tot - (load b 14 2 + load b 16 1 * load b 36 4) := by
    unfold u32
    omega
  rw [hrest] at hfat hlast
  rw [hbytes] at hfat
  constructor
  all_goals dsimp only
  case bytesPerSec => exact hbytes
  case secPerClus => exact ⟨Nat.pos_of_ne_zero hspc, hspc'⟩
  case rsvdSec => exact Nat.pos_of_ne_zero hrsvd
  case numFats => exact Nat.pos_of_ne_zero hnum
  case fatSz => exact Nat.pos_of_ne_zero hsz
  case dataStartSec => exact hstart
  case data_lt => rw [hstart]; exact hdata
  case total_lt => exact htot
  case total_le => exact hn
  case clusterCount => rw [hstart, hrest]
  case fat => rw [hstart, hrest]; exact hfat
  case last => rw [hstart, hrest]; exact hlast
  case clusterBytes =>
    rw [hbytes]
    exact Nat.mod_eq_of_lt (by unfold sectorSize; omega)

section

variable {p : Priv} {n c lba off : Nat}

section

variable (h : Checked p n)
include h

theorem Checked.data_ge : p.rsvdSec + p.fatSz ≤ p.dataStartSec := by
  have := Nat.le_mul_of_pos_left p.fatSz h.numFats
  have := h.dataStartSec
  omega

theorem Checked.clusters_le : p.dataStartSec + p.clusterCount * p.secPerClus ≤ p.totalSectors := by
  have := Nat.div_mul_le_self (p.totalSectors - p.dataStartSec) p.secPerClus
  have := h.data_lt
  rw [h.clusterCount]
  omega

-- The FAT takes its own part of the sectors that inode numbers allow for.
theorem Checked.count_lt : p.clusterCount + 2 < 0x0ffffff0 := by
  have := Nat.le_mul_of_pos_right p.clusterCount h.secPerClus.1
  have := h.data_ge
  have := h.fat
  have := h.last
  omega

theorem Checked.valid_iff : ClusterValid p c ↔ 2 ≤ c ∧ c < p.clusterCount + 2 := by
  have hc : u32 (p.clusterCount + 2) = p.clusterCount + 2 := by
    have := h.count_lt
    exact Nat.mod_eq_of_lt (by omega)
  rw [ClusterValid, hc]

theorem Checked.clusterLba_eq (hc : ClusterValid p c) :
    clusterLba p c = p.dataStartSec + (c - 2) * p.secPerClus := by
  have hu : u32 (c + 2 ^ 32 - 2) = c - 2 := by
    have := h.valid_iff.1 hc
    have := h.count_lt
    unfold u32
    omega
  rw [clusterLba, hu]

theorem Checked.cluster_end (hc : ClusterValid p c) :
    clusterLba p c + p.secPerClus ≤ p.dataStartSec + p.clusterCount * p.secPerClus := by
  obtain ⟨h2, hlt⟩ := h.valid_iff.1 hc
  have hle : (c - 2 + 1) * p.secPerClus ≤ p.clusterCount * p.secPerClus := Nat.mul_le_mul_right _ (by omega)
  rw [Nat.succ_mul] at hle
  rw [h.clusterLba_eq hc]
  omega

theorem Checked.slot_bounds (hs : Slot p lba off) :
    p.dataStartSec ≤ lba ∧ lba * 16 + off / 32 ≤ 0xffffffff ∧ off / 32 < 16 := by
  obtain ⟨⟨c, i, hc, hi, rfl⟩, hoff, -⟩ := hs
  have hend := h.cluster_end hc
  have hlba := h.clusterLba_eq hc
  have hlast := h.last
  unfold sectorSize at hoff
  omega

theorem Checked.direntIno_eq (hs : Slot p lba off) :
    direntIno lba off = lba * 16 + off / 32 := by
  have hb := h.slot_bounds hs
  exact Nat.mod_eq_of_lt (by unfold sectorSize direntSize; omega)

end

end

theorem geometry_safe {sec : Option Mem} {n : Nat} {p : Priv} (hp : parseBpb sec n = .ok p) :
    (∀ c, ClusterValid p c →
      (∀ i < p.secPerClus, p.dataStartSec ≤ clusterLba p c + i ∧ clusterLba p c + i < p.totalSectors ∧
        clusterLba p c + i < n) ∧
      p.rsvdSec ≤ fatSec p c ∧ fatSec p c < p.rsvdSec + p.fatSz) ∧
    (∀ v, v = 0 ∨ v = 1 ∨ 0x0ffffff0 ≤ v ∧ v < badCluster ∨ v = badCluster ∨ eocMin ≤ v → ¬ ClusterValid p v) ∧
    (∀ lba off lba' off', Slot p lba off → Slot p lba' off' → direntIno lba off = direntIno lba' off' →
      lba = lba' ∧ off = off') ∧
    (∀ lba off, Slot p lba off →
      direntIno lba off ≠ rootIno ∧ direntIno lba off = lba * (sectorSize / direntSize) + off / direntSize) ∧
    -- the other 32-bit computations are exact too
    p.dataStartSec = p.rsvdSec + p.numFats * p.fatSz ∧ p.dataStartSec ≤ p.totalSectors ∧
    p.clusterCount = (p.totalSectors - p.dataStartSec) / p.secPerClus ∧
    u32 (p.clusterCount + 2) = p.clusterCount + 2 ∧ p.clusterBytes = p.secPerClus * p.bytesPerSec ∧
    ∀ c, ClusterValid p c → clusterLba p c = p.dataStartSec + (c - 2) * p.secPerClus := by
  have h := parseBpb_checked hp
  have hcount := h.count_lt
  have hdata := h.data_ge
  have hrsvd := h.rsvdSec
  refine ⟨fun c hc => ⟨fun i hi => ?_, Nat.le_add_right _ _, ?_⟩, fun v hv hc => ?_,
    fun lba off lba' off' hs hs' he => ?_, fun lba off hs => ⟨fun he => ?_, h.direntIno_eq hs⟩,
    h.dataStartSec, h.data_lt.le, h.clusterCount, Nat.mod_eq_of_lt (by omega), h.clusterBytes,
    fun c hc => h.clusterLba_eq hc⟩
  · have hend := h.cluster_end hc
    have hle := h.clusters_le
    have hn := h.total_le
    rw [h.clusterLba_eq hc] at hend ⊢
    omega
  · obtain ⟨-, hlt⟩ := h.valid_iff.1 hc
    have hfat := h.fat
    rw [fatSec, h.bytesPerSec]
    omega
  · have hlt := h.valid_iff.1 hc
    unfold badCluster eocMin at hv
    omega
  · have hb := h.slot_bounds hs
    have hb' := h.slot_bounds hs'
    rw [h.direntIno_eq hs, h.direntIno_eq hs'] at he
    obtain ⟨-, -, hoff⟩ := hs
    obtain ⟨-, -, hoff'⟩ := hs'
    unfold direntSize at hoff hoff'
    omega
  · have hb := h.slot_bounds hs
    rw [h.direntIno_eq hs] at he
    unfold rootIno at he
    omega

-- A volume of 70000 sectors with two FATs.
def volume : Mem := fun i =>
  ([(12, 2), (13, 1), (14, 32), (16, 2), (33, 0x11), (32, 0x70), (34, 1), (36, 88), (37, 2), (44, 2),
    (510, 0x55), (511, 0xaa)].lookup i).getD 0

theorem geometry_safe_volume : ∃ p, parseBpb (some volume) 70000 = .ok p ∧ p.clusterCount = 68768 ∧
    ∀ c, ClusterValid p c → fatSec p c < p.rsvdSec + p.fatSz := by
  have hp : parseBpb (some volume) 70000 = .ok ⟨512, 1, 32, 2, 600, 2, 1232, 70000, 68768, 512⟩ :=
      by decide +kernel
  exact ⟨_, hp, rfl, fun c hc => ((geometry_safe hp).1 c hc).2.2⟩

end Jnu.Fat32
