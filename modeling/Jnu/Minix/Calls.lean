import Jnu.Minix.Truncate
import Jnu.Minix.Volume

namespace Jnu.Minix

open Lib.Bytes Lib.Effect Lib.Trace

inductive FileCall
  | write (o offset : Nat) (bs : List Byte)
  | read (o offset len : Nat)
  | truncate (o size : Nat)
  | bmap (o b : Nat) (create : Bool)
  deriving DecidableEq, Repr

inductive FileResult
  | count (n : Nat)
  | data (bs : List Byte)
  | zone (z : Nat)
  | done
  deriving DecidableEq, Repr

def FileCall.object : FileCall → Nat
  | .write o _ _ => o
  | .read o _ _ => o
  | .truncate o _ => o
  | .bmap o _ _ => o

def FileCall.exec : FileCall → FsM FileResult
  | .write o offset bs => do
      let n ← minixWrite o offset bs
      return .count n
  | .read o offset len => do
      let bs ← minixRead o offset len
      return .data bs
  | .truncate o size => do
      minixTruncate o size
      return .done
  | .bmap o b create => do
      let z ← minixBmap o b create
      return .zone z

-- A truncate asks for a size that an inode can have.
def FileCall.Fits : FileCall → Prop
  | .truncate _ size => size ≤ maxSize
  | _ => True

abbrev FileEvent := FileCall × Except Errno FileResult

structure FileStep (s : Fs) (e : FileEvent) (s' : Fs) : Prop where
  live : (s.node e.1.object).isSome
  fits : e.1.Fits
  run : e.1.exec.run s = some (.ok (e.2, s'))

inductive Outcome (s : Fs) : FileCall → Except Errno FileResult → Fs → Prop
  | wrote {o offset : Nat} {bs : List Byte} {s' : Fs} (hbs : bs ≠ [])
      (hmax : offset + (bs.take minixWriteMaxChunk).length ≤ maxSize)
      (h : Wrote o (.live o) offset (bs.take minixWriteMaxChunk) s s.files s') :
      Outcome s (.write o offset bs) (.ok (.count (bs.take minixWriteMaxChunk).length)) s'
  | empty {o offset : Nat} : Outcome s (.write o offset []) (.ok (.count 0)) s
  | undone {o offset : Nat} {bs : List Byte} {e : Errno} {s' : Fs}
      (h : Undone o (.live o) s s.files s') : Outcome s (.write o offset bs) (.error e) s'
  | got {o offset len : Nat} {c : Clock} : Outcome s (.read o offset len) (.ok (.data
      (slice (s.byte (.live o)) offset (min len (s.sizeOf (.live o) - offset))))) (s.at c)
  | resized {o size : Nat} {s' : Fs} (hmax : size ≤ maxSize)
      (h : Resized o (.live o) size s s.files s') : Outcome s (.truncate o size) (.ok .done) s'
  | mapped {o b z : Nat} {create : Bool} {s' : Fs}
      (h : Mapped o (.live o) b create s s.files z s') : Outcome s (.bmap o b create) (.ok (.zone z)) s'

variable {s s' : Fs} {o : Nat} {nd nd' : Node} {c : FileCall} {e : FileEvent} {l : List FileEvent}
  {r : Except Errno FileResult}

theorem sizeOf_live (hn : s.node o = some nd) : s.sizeOf (.live o) = nd.size := by
  simp only [Fs.sizeOf]
  rw [hn]

theorem maxSize_lt : maxSize < 2 ^ 32 := by
  unfold maxSize maxBlocks perBlock blockSize
  omega

theorem FileCall.exec_spec (h : Consistent s) (hs : s.Calm) (hn : (s.node c.object).isSome)
    (hc : c.Fits) : wp c.exec (fun r s' => Outcome s c (.ok r) s')
      (fun e s' => Outcome s c (.error e) s') s := by
  obtain ⟨nd, hn⟩ := Option.isSome_iff_exists.1 hn
  obtain ⟨hmax, hraw⟩ := h.sizes _ nd hn
  have hg := h.good hs hn
  cases c with
  | write o offset bs =>
    apply (minixWrite_spec hg hn hraw).bind _ fun _ _ hu => Outcome.undone hu.2
    intro n s' ⟨hlen, hwrote, hempty⟩
    apply wp_pure
    have hn' : n = (bs.take minixWriteMaxChunk).length := by rw [hlen, List.length_take, Nat.min_comm]
    by_cases hbs : bs = []
    · rw [hempty hbs, hn', hbs]
      exact .empty
    · obtain ⟨hmax, hw⟩ := hwrote hbs
      rw [hn'] at hmax ⊢
      exact .wrote hbs hmax hw
  | read o offset len =>
    have hlt := maxSize_lt
    apply (minixRead_spec hg hn (by omega)).any.next _
    intro bs s' ⟨⟨c, hc⟩, hbs⟩
    apply wp_pure
    rw [← sizeOf_live hn] at hbs
    rw [hc, hbs]
    exact .got
  | truncate o size =>
    apply (minixTruncate_spec hg hn hraw (fun _ => hmax) hc).any.next _
    exact fun _ s' hr => wp_pure (.resized hc hr)
  | bmap o b create =>
    apply (minixBmap_spec hg).any.next _
    exact fun z s' hm => wp_pure (.mapped hm)

theorem FileCall.exec_ends (h : Consistent s) (hs : s.Calm) (hn : (s.node c.object).isSome)
    (hc : c.Fits) : ∃ r s', FileStep s (c, r) s' := by
  rcases FileCall.exec_spec h hs hn hc with ⟨r, s', hrun, -⟩ | ⟨e, s', hrun, -⟩
  · exact ⟨.ok r, s', hn, hc, hrun⟩
  · exact ⟨.error e, s', hn, hc, hrun⟩

theorem FileStep.outcome (h : Consistent s) (hs : s.Calm) (he : FileStep s e s') :
    Outcome s e.1 e.2 s' := by
  have hspec := FileCall.exec_spec h hs he.live he.fits
  obtain ⟨c, r⟩ := e
  cases r with
  | ok r => exact hspec.of_ok he.run
  | error e => exact hspec.of_error he.run

theorem Consistent.step (h : Consistent s) (ho : Outer o s s')
    (hg : Good s' (s.files.refresh (.live o) s' o) (.live o) o)
    (hother : ∀ κ, κ ≠ .live o →
      slotZone s'.block (s.files.refresh (.live o) s' o) κ = slotZone s.block s.files κ)
    (hmap : ∀ sl, slotZone s'.block (s.files.refresh (.live o) s' o) (.live o) sl =
        slotZone s.block s.files (.live o) sl ∨
      slotZone s'.block (s.files.refresh (.live o) s' o) (.live o) sl = 0 ∨
      InData s.sb (slotZone s'.block (s.files.refresh (.live o) s' o) (.live o) sl))
    (hsize : ∀ nd', s'.node o = some nd' →
      nd'.size ≤ maxSize ∧ nd'.raw.size = BitVec.ofNat 32 nd'.size) : Consistent s' := by
  have hF := ho.files h.fits
  rw [← hF] at hg hother hmap
  refine ⟨hg.fits, hg.held, fun κ sl hne => ?_, fun o' nd' hn' => ?_⟩
  · rw [ho.sb]
    by_cases hκ : κ = .live o
    · rw [hκ] at hne ⊢
      rcases hmap sl with hsame | h0 | hin
      · rw [hsame] at hne ⊢
        exact h.zones _ sl hne
      · exact absurd h0 hne
      · exact hin
    · rw [hother κ hκ] at hne ⊢
      exact h.zones κ sl hne
  · by_cases hoo : o' = o
    · rw [hoo] at hn'
      exact hsize nd' hn'
    · rw [ho.node o' hoo] at hn'
      exact h.sizes o' nd' hn'

section effects

variable {offset size b z : Nat} {bs : List Byte} {create : Bool}

section

variable (h : Consistent s) (hn : s.node o = some nd)
include h hn

theorem Wrote.consistent (hw : Wrote o (.live o) offset bs s s.files s')
    (hmax : offset + bs.length ≤ maxSize) : Consistent s' := by
  refine h.step hw.outer hw.good hw.other (fun sl => ?_) fun nd' hn' => ?_
  · exact (hw.map sl).imp_right fun hc => .inr hc.2.1
  · obtain ⟨nd1, hn1, hk⟩ := hw.node nd hn
    obtain ⟨h1, h2⟩ := h.sizes o nd hn
    rw [hn1, Option.some.injEq] at hn'
    rw [← hn']
    refine ⟨?_, hk.rawSize h2⟩
    rw [hk.size]
    omega

theorem Frame.sizes (hf : Frame o s s') (hn' : s'.node o = some nd') :
    nd'.size ≤ maxSize ∧ nd'.raw.size = BitVec.ofNat 32 nd'.size := by
  obtain ⟨nd1, hn1, hk⟩ := hf.self nd hn
  rw [hn1, Option.some.injEq] at hn'
  rw [← hn', hk.size, hk.raw]
  exact h.sizes o nd hn

theorem Undone.consistent (hu : Undone o (.live o) s s.files s') : Consistent s' := by
  have hin : ∀ sl, slotZone s'.block (s.files.refresh (.live o) s' o) (.live o) sl ≠ 0 → sl.IsTable →
      InData s'.sb (slotZone s'.block (s.files.refresh (.live o) s' o) (.live o) sl) :=
    fun sl hne ht => hu.good.held.apart.table _ sl ht hne
  rw [hu.frame.sb] at hin
  refine h.step hu.frame.toOuter hu.good hu.other (fun sl => ?_) fun nd' hn' => hu.frame.sizes h hn hn'
  by_cases h0 : slotZone s'.block (s.files.refresh (.live o) s' o) (.live o) sl = 0
  · exact .inr (.inl h0)
  cases sl with
  | data j => exact .inl (hu.map j)
  | single => exact .inr (.inr (hin _ h0 trivial))
  | double => exact .inr (.inr (hin _ h0 trivial))
  | inner j => exact .inr (.inr (hin _ h0 trivial))

theorem Resized.consistent (hr : Resized o (.live o) size s s.files s') (hmax : size ≤ maxSize) :
    Consistent s' := by
  refine h.step hr.outer hr.good hr.other (fun sl => (hr.map sl).imp_right .inl) fun nd' hn' => ?_
  obtain ⟨nd1, hn1, hk⟩ := hr.node nd hn
  rw [hn1, Option.some.injEq] at hn'
  rw [← hn', hk.size, hk.rawSize]
  exact ⟨hmax, rfl⟩

theorem Mapped.consistent (hm : Mapped o (.live o) b create s s.files z s') : Consistent s' :=
  h.step hm.grown.frame.toOuter hm.grown.good hm.grown.other
    (fun sl => (hm.grown.map sl).imp_right fun hc => .inr hc.2.2.1)
    fun _ hn' => hm.grown.frame.sizes h hn hn'

end

end effects

theorem Outcome.outer (h : Outcome s c r s') : Outer c.object s s' := by
  cases h with
  | wrote _ _ hw => exact hw.outer
  | empty => exact .at _ s s.clock
  | undone hu => exact hu.frame.toOuter
  | got => exact .at _ s _
  | resized _ hr => exact hr.outer
  | mapped hm => exact hm.grown.frame.toOuter

theorem Outcome.other {κ : Key} (hf : s.sb.Fits s.nblocks)
    (h : Outcome s c r s') (hκ : κ ≠ .live c.object) :
    slotZone s'.block s'.files κ = slotZone s.block s.files κ := by
  have hF := h.outer.files hf
  cases h with
  | wrote _ _ hw => exact hF ▸ hw.other κ hκ
  | empty => rfl
  | undone hu => exact hF ▸ hu.other κ hκ
  | got => rfl
  | resized _ hr => exact hF ▸ hr.other κ hκ
  | mapped hm => exact hF ▸ hm.grown.other κ hκ

theorem Outcome.consistent (hc : Consistent s)
    (hn : s.node c.object = some nd) (h : Outcome s c r s') : Consistent s' := by
  cases h with
  | wrote _ hmax hw => exact hw.consistent hc hn hmax
  | empty => exact hc
  | undone hu => exact hu.consistent hc hn
  | got => exact hc.at _
  | resized hmax hr => exact hr.consistent hc hn hmax
  | mapped hm => exact hm.consistent hc hn

structure Sound (s : Fs) : Prop where
  consistent : Consistent s
  calm : s.Calm

theorem FileStep.sound (h : Sound s) (he : FileStep s e s') : Sound s' := by
  have hout := he.outcome h.consistent h.calm
  obtain ⟨nd, hn⟩ := Option.isSome_iff_exists.1 he.live
  refine ⟨hout.consistent h.consistent hn, fun n => ?_⟩
  rw [hout.outer.env]
  exact h.calm n

theorem FileRun.sound (h : Sound s) (hr : Run FileStep s l s') : Sound s' :=
  hr.invariant h fun _ _ _ h he => FileStep.sound h he

-- The object of a call stands for the same inode, and is clean only if its size has not changed.
theorem Outcome.self (hn : s.node c.object = some nd) (h : Outcome s c r s') :
    ∃ nd', s'.node c.object = some nd' ∧ nd'.ino = nd.ino ∧
      (nd'.dirty = false → nd.dirty = false ∧ nd'.raw.size = nd.raw.size) := by
  have hframe : Frame c.object s s' → ∃ nd', s'.node c.object = some nd' ∧ nd'.ino = nd.ino ∧
      (nd'.dirty = false → nd.dirty = false ∧ nd'.raw.size = nd.raw.size) := by
    intro hf
    obtain ⟨nd', hn', hk⟩ := hf.self nd hn
    refine ⟨nd', hn', hk.ino, fun hd => ⟨?_, by rw [hk.raw]⟩⟩
    by_contra hc
    rw [hk.dirty (by simpa using hc)] at hd
    cases hd
  cases h with
  | wrote _ _ hw =>
    obtain ⟨nd', hn', hk⟩ := hw.node nd hn
    exact ⟨nd', hn', hk.ino, fun hd => by simp [hk.dirty] at hd⟩
  | empty => exact ⟨nd, hn, rfl, fun hd => ⟨hd, rfl⟩⟩
  | undone hu => exact hframe hu.frame
  | got => exact ⟨nd, hn, rfl, fun hd => ⟨hd, rfl⟩⟩
  | resized _ hr =>
    obtain ⟨nd', hn', hk⟩ := hr.node nd hn
    refine ⟨nd', hn', hk.ino, fun hd => ?_⟩
    rcases hk.dirty with rfl | hd'
    · exact ⟨hd, rfl⟩
    · simp [hd'] at hd
  | mapped hm => exact hframe hm.grown.frame

theorem Outcome.live (hn : s.node c.object = some nd)
    (h : Outcome s c r s') (o : Nat) : (s'.node o).isSome = (s.node o).isSome := by
  by_cases ho : o = c.object
  · obtain ⟨nd', hn', -⟩ := h.self hn
    rw [ho, hn, hn']
    rfl
  · rw [h.outer.node o ho]

end Jnu.Minix
