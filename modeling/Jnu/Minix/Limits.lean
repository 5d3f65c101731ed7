import Jnu.Minix.Refine
import Jnu.Minix.Sample
import Jnu.Minix.Scan

namespace Jnu.Minix

open Lib.Bytes Lib.Effect Lib.Trace
open Function

section directories

variable {s : Fs} {o size index : Nat} {nd : Node} {ok : DirEntry → Bool}

theorem bufcacheGet_node (b : Nat) :
    wp (bufcacheGet b) (fun _ s' => s'.node = s.node) never s := by
  apply wp_bind_read
  apply wp_bind_write
  exact wp_pure rfl

theorem entrySlot_node (t i : Nat) :
    wp (entrySlot t i false) (fun _ s' => s'.node = s.node) never s := by
  refine (bufcacheGet_node t).next fun _ s' h => wp_ite (fun _ => ?_) fun _ => wp_pure h
  apply wp_dataOf
  rw [if_neg (by simp)]
  apply wp_dataOf
  exact wp_pure h

theorem minixBmap_node (b : Nat) (hn : s.node o = some nd) :
    wp (minixBmap o b false) (fun _ s' => s'.node = s.node) never s := by
  apply wp_bind
  apply wp_superOf
  refine wp_ite (fun _ => ?_) fun _ => wp_ite (fun _ => ?_) fun _ => wp_ite (fun _ => ?_) fun _ => wp_pure rfl
  · apply wp_bind
    exact wp_zoneSlot_read hn (wp_pure rfl)
  · apply wp_bind
    refine wp_zoneSlot_read hn (wp_ite (fun _ => wp_pure rfl) fun _ => ?_)
    exact (entrySlot_node _ _).next fun _ s' h => wp_pure h
  · apply wp_bind
    refine wp_zoneSlot_read hn (wp_ite (fun _ => wp_pure rfl) fun _ => ?_)
    refine (entrySlot_node _ _).next fun _ s' h => wp_ite (fun _ => wp_pure h) fun _ => ?_
    exact (entrySlot_node _ _).next fun _ s'' h' => wp_pure (h'.trans h)

-- While the offset does not wrap, every round comes nearer to the end.
theorem dirScan_ends (hsize : size ≤ 2 ^ 32 - blockSize) (n j : Nat) (hj : size ≤ blockSize * (n + j))
    (index : Nat) (hn : s.node o = some nd) :
    (dirScan o size ok (n + 1) (blockSize * j) index).run s ≠ none := by
  have hends : wp (dirScan o size ok (n + 1) (blockSize * j) index) (fun _ _ => True) (fun _ _ => True) s := by
    induction n generalizing s j index with
    | zero =>
      rw [Nat.zero_add] at hj
      rw [dirScan, if_pos hj]
      exact wp_pure trivial
    | succ n ih =>
      rw [dirScan]
      refine wp_ite (fun _ => wp_pure trivial) fun hlt => ?_
      have hnext : (blockSize * j + blockSize) % 2 ^ 32 = blockSize * (j + 1) := by
        unfold blockSize at *
        omega
      have hmore : ∀ index (s' : Fs), s'.node = s.node → wp (dirScan o size ok (n + 1)
          ((blockSize * j + blockSize) % 2 ^ 32) index) (fun _ _ => True) (fun _ _ => True) s' := by
        intro index s' hs'
        rw [hnext]
        exact ih (j + 1) (by rwa [Nat.add_assoc, Nat.add_comm 1] at hj) index (hs' ▸ hn)
      refine (minixBmap_node _ hn).any.next fun b s1 h1 => wp_ite (fun _ => hmore _ _ h1) fun _ => ?_
      refine (bufcacheGet_node b).any.next fun _ s2 h2 => wp_ite (fun _ => ?_) fun _ => wp_error trivial
      apply wp_dataOf
      dsimp only
      split
      · exact wp_pure trivial
      · exact hmore _ _ (h2.trans h1)
  rcases hends with ⟨_, _, hrun, -⟩ | ⟨_, _, hrun, -⟩ <;> simp [hrun]

-- In a directory of holes that ends in the last block of the range the offset starts over.
theorem dirScan_holes (hsize : 2 ^ 32 - blockSize < size) (hz : ∀ i, nd.raw.izone i = 0) (hs : Readable s)
    (hn : s.node o = some nd) (fuel j : Nat) (hj : j < 2 ^ 22) :
    (dirScan o size ok fuel (blockSize * j) index).run s = none := by
  induction fuel generalizing s j with
  | zero => rfl
  | succ fuel ih =>
    have hlt : ¬ size ≤ blockSize * j := by
      unfold blockSize at *
      omega
    have hnext : (blockSize * j + blockSize) % 2 ^ 32 = blockSize * ((j + 1) % 2 ^ 22) := by
      unfold blockSize
      omega
    have hhole : ∀ b, bmapOf s.sb s.block nd.raw b = 0 := by simp [bmapOf, hz, checked]
    have hread : wp (minixBmap o (blockSize * j / blockSize) false) (fun z s' => z = 0 ∧ ∃ c, s' = s.at c)
        never s := wp_minixBmap_read hs hn fun c => ⟨hhole _, c, rfl⟩
    obtain ⟨z, s', hrun, rfl, c, rfl⟩ := hread.exists_ok
    rw [dirScan, if_neg hlt, run_bind_ok hrun, if_pos rfl, hnext]
    exact ih (s := s.at c) ⟨hs.calm, hs.device⟩ hn _ (Nat.mod_lt _ (by decide))

def holes (size : BitVec 32) : Fs :=
  { sample 0 0 oldBytes with
    node := fun _ => some ⟨1, size.toNat, true, 0x41ed, { RawInode.zeroed with size := size }, false, 1⟩ }

theorem holes_endless {size : BitVec 32} (hsize : 2 ^ 32 - blockSize < size.toNat) (fuel : Nat) :
    (dirScan 0 size.toNat ok fuel 0 index).run (holes size) = none := by
  refine dirScan_holes (j := 0) hsize (fun i => ?_) ⟨fun _ => rfl, Nat.le_refl 16⟩ rfl fuel (by decide)
  unfold RawInode.izone
  split <;> rfl

theorem dir_scans_end (size : BitVec 32) :
    (∀ (s : Fs) (o : Nat) (nd : Node) (ok : DirEntry → Bool) (index : Nat), s.node o = some nd →
      nd.raw.size = size → (∃ fuel, (dirScan o size.toNat ok fuel 0 index).run s ≠ none) ∧
        ∀ m offset, ∀ i ∈ hits (fun _ => true) m (min (size.toNat - offset) blockSize),
          i + dirEntrySize ≤ blockSize) ↔ size.toNat ≤ 2 ^ 32 - blockSize := by
  constructor
  · intro h
    by_contra hc
    obtain ⟨⟨fuel, hfuel⟩, -⟩ := h (holes size) 0 _ (fun _ => false) 0 rfl rfl
    exact hfuel (holes_endless (Nat.not_le.1 hc) fuel)
  · intro hsize s o nd ok index hn _
    have hj : size.toNat ≤ blockSize * (size.toNat + 0) := by
      unfold blockSize
      omega
    refine ⟨⟨_, dirScan_ends hsize size.toNat 0 hj index hn⟩, fun m offset i hi => ?_⟩
    simp only [hits, List.mem_filter, List.mem_map, List.mem_range] at hi
    obtain ⟨⟨j, hj, rfl⟩, -⟩ := hi
    unfold dirEntrySize blockSize at *
    omega

-- The search for a name in a directory of 2^32 - 1 bytes.
theorem dir_scan_endless : ¬ ∃ fuel, (dirScan 0 (2 ^ 32 - 1)
    (fun de => de.inode != 0 && de.text == [0x66]) fuel 0 0).run (holes (-1)) ≠ none :=
  fun ⟨fuel, h⟩ => h (holes_endless (show 2 ^ 32 - blockSize < (-1 : BitVec 32).toNat by decide) fuel)

end directories

section truncates

variable {s₀ s s' : Fs} {o size : Nat} {nd : Node} {c : FileCall} {r : Except Errno FileResult}
  {l : List FileEvent}

-- No file has a block behind its end.
def Tight (s : Fs) : Prop :=
  ∀ o b, slotZone s.block s.files (.live o) (.data b) ≠ 0 → b * blockSize < s.sizeOf (.live o)

-- A write, a read, or a truncate to a size that an inode can have.
structure SizedStep (s : Fs) (e : FileEvent) (s' : Fs) : Prop where
  step : FileStep s e s'
  noMap : ∀ o b create, e.1 ≠ .bmap o b create

theorem Outcome.tight (h : Consistent s) (ho : Outcome s c r s') (hn : s.node c.object = some nd)
    (hmap : ∀ o b create, c ≠ .bmap o b create) (ht : Tight s) : Tight s' := by
  intro o b hne
  by_cases hobj : o = c.object
  · have hF := ho.outer.files h.fits
    rw [hobj] at hne ⊢
    cases ho with
    | @wrote _ _ bs _ hbs hmax hw =>
      dsimp only [FileCall.object] at *
      obtain ⟨nd', hn', hk⟩ := hw.node nd hn
      rw [hF] at hne
      rw [sizeOf_live hn', hk.size]
      rcases hw.map (.data b) with hsame | ⟨-, -, j, -, hj, ⟨hb, -⟩ | hc⟩
      · have hold := ht _ b (hsame ▸ hne)
        rw [sizeOf_live hn] at hold
        exact lt_max_of_lt_left hold
      · have hpos : 0 < (bs.take minixWriteMaxChunk).length :=
          List.length_pos_iff.2 (by simpa [minixWriteMaxChunk] using hbs)
        cases hb
        unfold blockSize at *
        omega
      · exact hc.elim
    | empty => exact ht _ b hne
    | undone hu =>
      dsimp only [FileCall.object] at *
      rw [hu.frame.sizeOf h.fits hn]
      rw [hF, hu.map] at hne
      exact ht _ b hne
    | got => exact ht _ b hne
    | resized hmax hr =>
      dsimp only [FileCall.object] at *
      obtain ⟨nd', hn', hk⟩ := hr.node nd hn
      rw [sizeOf_live hn', hk.size]
      by_contra hc
      have hb := blocksOf_eq hmax
      refine hne (hF ▸ hr.dropped nd hn (fun b' hb' => ?_) b (by unfold blockSize at hc; omega))
      have hold := ht _ b' hb'
      rw [sizeOf_live hn] at hold
      rw [blocksOf_eq (h.sizes _ nd hn).1]
      unfold blockSize at hold
      omega
    | mapped _ => exact absurd rfl (hmap _ _ _)
  · have hκ : Key.live o ≠ .live c.object := fun hc => hobj (Key.live.inj hc)
    rw [ho.other h.fits hκ] at hne
    rw [ho.outer.sizeOf h.fits hκ]
    exact ht o b hne

theorem SizedRun.tight (h : Sound s ∧ Tight s) (hrun : Run SizedStep s l s') : Sound s' ∧ Tight s' := by
  refine hrun.invariant (I := fun s => Sound s ∧ Tight s) h fun s e s' h he => ⟨he.step.sound h.1, ?_⟩
  obtain ⟨nd, hn⟩ := Option.isSome_iff_exists.1 he.step.live
  exact (he.step.outcome h.1.consistent h.1.calm).tight h.1.consistent hn he.noMap h.2

-- The zone numbers that a shrinking truncate drops are those behind the new size, and the zones it frees are
-- those whose numbers it drops.
theorem truncate_stays_inside (h : Sound s₀ ∧ Tight s₀) (hrun : Run SizedStep s₀ l s)
    (hn : s.node o = some nd) (hlt : size < nd.size) :
    (∀ b, b < blocksOf nd.size → (b - 7 - perBlock) / perBlock < perBlock) ∧
      ∃ s', (minixTruncate o size).run s = some (.ok (.ok (), s')) ∧
        (∀ b, slotZone s'.block s'.files (.live o) (.data b) =
          if b * blockSize < size then slotZone s.block s.files (.live o) (.data b) else 0) ∧
        ∀ z, InData s.sb z → (zmarked s.sb s.block z = true ∧ zmarked s.sb s'.block z = false ↔
          ∃ sl, slotZone s.block s.files (.live o) sl = z ∧ slotZone s'.block s'.files (.live o) sl = 0) := by
  obtain ⟨hs, ht⟩ := SizedRun.tight h hrun
  obtain ⟨hmax, hraw⟩ := hs.consistent.sizes o nd hn
  have hb := blocksOf_eq hmax
  have hnew : size ≤ maxSize := by omega
  refine ⟨fun b hlt => ?_, ?_⟩
  · unfold maxSize maxBlocks perBlock blockSize at *
    omega
  obtain ⟨_, s', hrun, hr⟩ :=
    (minixTruncate_spec (hs.consistent.good hs.calm hn) hn hraw (fun _ => hmax) hnew).exists_ok
  refine ⟨s', hrun, ?_⟩
  rw [hr.outer.files hs.consistent.fits]
  refine ⟨fun b => ?_, fun z hz => ⟨fun hc => ?_, ?_⟩⟩
  · split_ifs with hlt
    · exact hr.kept b hlt
    refine hr.dropped nd hn (fun b' hb' => ?_) b ?_
    · have hold := ht _ b' hb'
      rw [sizeOf_live hn] at hold
      unfold blockSize at hold
      omega
    · rw [blocksOf_eq hnew]
      unfold blockSize at hlt
      omega
  · exact (hr.freed z hz hc.1).resolve_left (by simp [hc.2])
  · rintro ⟨sl, rfl, h0⟩
    exact ⟨hs.consistent.held.marked _ sl hz, hr.gone sl hz h0⟩

-- A write adds a second block, and the truncate drops it again.
theorem truncate_stays_inside_second : ∃ s s',
    SizedStep (sample 2 6 oldBytes) (.write 1 1024 [0x42], .ok (.count 1)) s ∧
    (minixTruncate 1 2).run s = some (.ok (.ok (), s')) ∧
    slotZone s.block s.files (.live 1) (.data 1) ≠ 0 ∧
    slotZone s'.block s'.files (.live 1) (.data 1) = 0 := by
  have ht : Tight (sample 2 6 oldBytes) := by
    intro o b hne
    obtain ⟨hb, ⟨ho, -⟩ | ⟨ho, -⟩⟩ := sample_mapped (.inr rfl) hne
    all_goals
      cases hb
      cases ho
      decide
  have hstep : SizedStep (sample 2 6 oldBytes) (.write 1 1024 [0x42], .ok (.count 1)) _ :=
    ⟨fileStep_after rfl trivial (by decide +kernel), by simp⟩
  have hsize : ((after (sample 2 6 oldBytes) (.write 1 1024 [0x42])).node 1).map Node.size = some 1025 := by
    decide +kernel
  obtain ⟨nd, hn, hsize⟩ := Option.map_eq_some_iff.1 hsize
  obtain ⟨-, s', hrun, hzone, -⟩ := truncate_stays_inside
    ⟨sample_sound (.inr rfl) (by decide), ht⟩ (.one hstep) hn (show 2 < nd.size by omega)
  exact ⟨_, s', hstep, hrun, by decide +kernel, hzone 1⟩

-- A file with a double indirect table, which a truncate makes larger than the table can map.
theorem truncate_leaves_table : ∃ s₀ s₁, Sound s₀ ∧
    (minixTruncate 1 (262664 * 1024)).run s₀ = some (.ok (.ok (), s₁)) ∧
    (minixTruncate 1 (262663 * 1024)).run s₁ = none := by
  refine ⟨after (sample 0 0 oldBytes) (.bmap 1 519 true), _, ?_, rfl, rfl⟩
  have hstep : FileStep (sample 0 0 oldBytes) (.bmap 1 519 true, .ok (.zone 0)) _ :=
    fileStep_after rfl trivial rfl
  exact hstep.sound (sample_sound (.inl rfl) (by decide))

end truncates

end Jnu.Minix
