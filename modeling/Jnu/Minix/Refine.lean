import Jnu.Minix.Sample

namespace Jnu.Minix

open Lib.Bytes Lib.Effect Lib.Trace

variable {bs : List Byte} {offset size o b : Nat} {s s' : Fs} {nd : Node}

-- An array with `bs` put at `offset`. A gap in front of `bs` is filled with zeroes.
def overwrite (a : List Byte) (offset : Nat) (bs : List Byte) : List Byte :=
  (a ++ List.replicate (offset - a.length) 0).take offset ++ bs ++ a.drop (offset + bs.length)

-- An array cut, or made longer with zeroes.
def resize (a : List Byte) (size : Nat) : List Byte :=
  (a ++ List.replicate (size - a.length) 0).take size

def Fs.mapping (s : Fs) (o b : Nat) : Option Nat :=
  match (minixBmap o b false).run s with
  | some (.ok (.ok z, _)) => some z
  | _ => none

def Fs.allocated (s : Fs) (z : Nat) : Prop := InData s.sb z ∧ zmarked s.sb s.block z = true

-- What a call owes its caller, in terms of the files as byte arrays.
def FileSpec (s s' : Fs) : FileCall → Except Errno FileResult → Prop
  | .write o offset bs, .ok (.count n) => n ≤ bs.length ∧ (n = 0 ↔ bs = []) ∧
      s'.content (.live o) = (if n = 0 then s.content (.live o)
        else overwrite (s.content (.live o)) offset (bs.take n)) ∧
      ∀ κ, κ ≠ .live o → s'.content κ = s.content κ
  | .write _ _ _, .error _ => s'.content = s.content ∧
      (∀ o b, (s.node o).isSome → s'.mapping o b = s.mapping o b) ∧
      ∀ z, s'.allocated z → s.allocated z
  | .read o offset len, .ok (.data bs) =>
    bs = ((s.content (.live o)).drop offset).take len ∧ s'.content = s.content
  | .truncate o size, .ok .done => s'.content (.live o) = resize (s.content (.live o)) size ∧
      ∀ κ, κ ≠ .live o → s'.content κ = s.content κ
  | .bmap _ _ _, .ok (.zone _) => s'.content = s.content
  | _, _ => False

-- The blocks of the file hold zeroes between its end and the place where the call goes on.
def Padded (s : Fs) : FileCall → Prop
  | .write o offset bs => bs ≠ [] → ∀ x, s.sizeOf (.live o) ≤ x → x < offset → s.byte (.live o) x = 0
  | .truncate o size => ∀ x, s.sizeOf (.live o) ≤ x → x < size → s.byte (.live o) x = 0
  | _ => True

section arrays

variable {a : List Byte} {x : Nat}

theorem overwrite_length (a : List Byte) (offset : Nat) :
    (overwrite a offset bs).length = max a.length (offset + bs.length) := by
  simp only [overwrite, List.length_append, List.length_take, List.length_replicate, List.length_drop]
  omega

theorem overwrite_getD (a : List Byte) (offset x : Nat) :
    (overwrite a offset bs).getD x 0 =
      if offset ≤ x ∧ x < offset + bs.length then bs.getD (x - offset) 0 else a.getD x 0 := by
  have hlen : ((a ++ List.replicate (offset - a.length) 0).take offset).length = offset := by
    simp only [List.length_take, List.length_append, List.length_replicate]
    omega
  unfold overwrite
  by_cases h1 : x < offset
  · rw [List.append_assoc, List.getD_append _ _ _ _ (by rw [hlen]; exact h1), if_neg (by omega)]
    simp only [List.getD_eq_getElem?_getD, List.getElem?_take, if_pos h1, List.getElem?_append]
    split_ifs with h2
    · rfl
    · rw [List.getElem?_eq_none (l := a) (by omega), List.getElem?_replicate]
      split_ifs <;> rfl
  · rw [List.append_assoc, List.getD_append_right _ _ _ _ (by rw [hlen]; omega), hlen]
    by_cases h2 : x < offset + bs.length
    · rw [if_pos (by omega), List.getD_append _ _ _ _ (by omega)]
    · rw [if_neg (by omega), List.getD_append_right _ _ _ _ (by omega)]
      simp only [List.getD_eq_getElem?_getD, List.getElem?_drop]
      rw [show offset + bs.length + (x - offset - bs.length) = x by omega]

theorem resize_length (a : List Byte) (size : Nat) : (resize a size).length = size := by
  simp only [resize, List.length_take, List.length_append, List.length_replicate]
  omega

theorem resize_getD (h : x < size) : (resize a size).getD x 0 = a.getD x 0 := by
  simp only [resize, List.getD_eq_getElem?_getD, List.getElem?_take, if_pos h, List.getElem?_append]
  split_ifs with h2
  · rfl
  · rw [List.getElem?_eq_none (l := a) (by omega), List.getElem?_replicate]
    split_ifs <;> rfl

end arrays

section content

variable {κ : Key}

theorem content_length (s : Fs) (κ : Key) : (s.content κ).length = s.sizeOf κ := by
  unfold Fs.content
  rw [slice_length]

theorem content_getD (s : Fs) (κ : Key) (x : Nat) :
    (s.content κ).getD x 0 = if x < s.sizeOf κ then s.byte κ x else 0 := by
  by_cases hx : x < s.sizeOf κ
  · rw [if_pos hx]
    unfold Fs.content
    rw [slice_getD hx, Nat.zero_add]
  · rw [if_neg hx, List.getD_eq_default _ _ (by rw [content_length]; omega)]

theorem content_eq_iff {a : List Byte} :
    s.content κ = a ↔ a.length = s.sizeOf κ ∧ ∀ x, x < s.sizeOf κ → s.byte κ x = a.getD x 0 := by
  constructor
  · rintro rfl
    refine ⟨content_length s κ, fun x hx => ?_⟩
    rw [content_getD, if_pos hx]
  rintro ⟨hlen, hx⟩
  apply List.ext_getElem
  · rw [content_length, hlen]
  intro x h1 h2
  rw [content_length] at h1
  have := hx x h1
  have hget := content_getD s κ x
  rw [if_pos h1, this] at hget
  rw [List.getD_eq_getElem _ _ (by rw [content_length]; exact h1), List.getD_eq_getElem _ _ h2] at hget
  exact hget

theorem content_congr (hsize : s'.sizeOf κ = s.sizeOf κ) (hbyte : ∀ x, s'.byte κ x = s.byte κ x) :
    s'.content κ = s.content κ := by
  unfold Fs.content
  rw [hsize]
  exact slice_congr fun i _ => hbyte _

theorem Outer.byte (hf : s.sb.Fits s.nblocks) (ho : Outer o s s') (κ : Key) (x : Nat) :
    s'.byte κ x = byteAt s.sb s'.block (s.files.refresh (.live o) s' o) κ x := by
  unfold Fs.byte
  rw [ho.files hf, ho.sb]

theorem Frame.sizeOf (hf : s.sb.Fits s.nblocks) (h : Frame o s s') (hn : s.node o = some nd) (κ : Key) :
    s'.sizeOf κ = s.sizeOf κ := by
  by_cases hκ : κ = .live o
  · obtain ⟨nd', hn', hk⟩ := h.self nd hn
    rw [hκ, sizeOf_live hn, sizeOf_live hn', hk.size]
  · exact h.toOuter.sizeOf hf hκ

end content

theorem slice_clip (m : Mem) (offset len size : Nat) :
    slice m offset (min len (size - offset)) = ((slice m 0 size).drop offset).take len := by
  apply List.ext_getElem
  · simp only [List.length_take, List.length_drop, slice_length]
  · intro i h1 h2
    simp only [slice, List.getElem_take, List.getElem_drop, List.getElem_map, List.getElem_range,
      Nat.zero_add]

theorem mapping_live {nd : Node} (h : Sound s) (hn : s.node o = some nd) :
    s.mapping o b = some (if InData s.sb (slotZone s.block s.files (.live o) (.data b)) then
      slotZone s.block s.files (.live o) (.data b) else 0) := by
  have hread : wp (minixBmap o b false) (fun z _ => z = if InData s.sb (slotZone s.block s.files (.live o)
      (.data b)) then slotZone s.block s.files (.live o) (.data b) else 0) never s :=
    minixBmap_read (h.consistent.good h.calm hn) fun c => rfl
  obtain ⟨z, s', hrun, hz⟩ := hread.exists_ok
  unfold Fs.mapping
  rw [hrun, ← hz]

theorem mapping_congr (h : Sound s) (h' : Sound s') (hsb : s'.sb = s.sb)
    (hlive : ∀ o, (s'.node o).isSome = (s.node o).isSome)
    (hmap : ∀ o b, slotZone s'.block s'.files (.live o) (.data b) =
      slotZone s.block s.files (.live o) (.data b)) (o b : Nat) (ho : (s.node o).isSome) :
    s'.mapping o b = s.mapping o b := by
  obtain ⟨nd, hn⟩ := Option.isSome_iff_exists.1 ho
  obtain ⟨nd', hn'⟩ := Option.isSome_iff_exists.1 ((hlive o).trans ho)
  rw [mapping_live h hn, mapping_live h' hn', hmap, hsb]

variable {s₀ : Fs} {z : Nat} {c : FileCall} {r : Except Errno FileResult}
  {l : List FileEvent}

theorem Wrote.spec_iff (h : Consistent s) (hn : s.node o = some nd)
    (hw : Wrote o (.live o) offset bs s s.files s') :
    s'.content (.live o) = overwrite (s.content (.live o)) offset bs ↔
      ∀ x, s.sizeOf (.live o) ≤ x → x < offset → s.byte (.live o) x = 0 := by
  obtain ⟨nd', hn', hk⟩ := hw.node nd hn
  have hsize : s'.sizeOf (.live o) = max (s.sizeOf (.live o)) (offset + bs.length) := by
    rw [sizeOf_live hn', sizeOf_live hn, hk.size]
  have hbyte : ∀ x, s'.byte (.live o) x =
      if offset ≤ x ∧ x < offset + bs.length then bs.getD (x - offset) 0 else s.byte (.live o) x := by
    intro x
    rw [hw.outer.byte h.fits, hw.bytes]
    simp only [true_and]
    rfl
  rw [content_eq_iff, overwrite_length, content_length, hsize]
  constructor
  · intro ⟨_, hall⟩ x h1 h2
    have hx := hall x (by omega)
    rw [hbyte, overwrite_getD, if_neg (by omega), if_neg (by omega), content_getD, if_neg (by omega)] at hx
    exact hx
  · intro hpad
    refine ⟨rfl, fun x hx => ?_⟩
    rw [hbyte, overwrite_getD, content_getD]
    split_ifs with h1 h2
    · rfl
    · rfl
    · exact hpad x (by omega) (by omega)

theorem Wrote.content_other (h : Consistent s) (hw : Wrote o (.live o) offset bs s s.files s') {κ : Key}
    (hκ : κ ≠ .live o) : s'.content κ = s.content κ := by
  apply content_congr (hw.outer.sizeOf h.fits hκ)
  intro x
  rw [hw.outer.byte h.fits, hw.bytes, if_neg fun hc => hκ hc.1]
  rfl

theorem Resized.spec_iff (h : Consistent s) (hn : s.node o = some nd)
    (hr : Resized o (.live o) size s s.files s') :
    s'.content (.live o) = resize (s.content (.live o)) size ↔
      ∀ x, s.sizeOf (.live o) ≤ x → x < size → s.byte (.live o) x = 0 := by
  obtain ⟨nd', hn', hk⟩ := hr.node nd hn
  have hsize : s'.sizeOf (.live o) = size := by rw [sizeOf_live hn', hk.size]
  have hbyte : ∀ x, x < size → s'.byte (.live o) x = s.byte (.live o) x := by
    intro x hx
    rw [hr.outer.byte h.fits]
    exact (hr.bytes (.live o) x).resolve_right fun hc => absurd hc.2.1 (by omega)
  rw [content_eq_iff, resize_length, hsize]
  constructor
  · intro ⟨_, hall⟩ x h1 h2
    have hx := hall x h2
    rw [hbyte x h2, resize_getD h2, content_getD, if_neg (by omega)] at hx
    exact hx
  · intro hpad
    refine ⟨rfl, fun x hx => ?_⟩
    rw [hbyte x hx, resize_getD hx, content_getD]
    split_ifs with h1
    · rfl
    · exact hpad x (by omega) hx

theorem Resized.content_other (h : Consistent s) (hr : Resized o (.live o) size s s.files s') {κ : Key}
    (hκ : κ ≠ .live o) : s'.content κ = s.content κ := by
  apply content_congr (hr.outer.sizeOf h.fits hκ)
  intro x
  rw [hr.outer.byte h.fits]
  exact (hr.bytes κ x).resolve_right fun hc => hκ hc.1

theorem Undone.spec (h : Sound s) (h' : Sound s') (hn : s.node o = some nd)
    (hu : Undone o (.live o) s s.files s') :
    s'.content = s.content ∧ (∀ o b, (s.node o).isSome → s'.mapping o b = s.mapping o b) ∧
      ∀ z, s'.allocated z → s.allocated z := by
  have hF := hu.frame.toOuter.files h.consistent.fits
  refine ⟨?_, ?_, ?_⟩
  · funext κ
    apply content_congr (hu.frame.sizeOf h.consistent.fits hn κ)
    intro x
    rw [hu.frame.toOuter.byte h.consistent.fits, hu.bytes]
    rfl
  · apply mapping_congr h h' hu.frame.sb
    · intro o'
      exact Outcome.live (c := .write o 0 []) (r := .error .eio) hn (.undone hu) o'
    intro o' b
    rw [hF]
    by_cases ho : o' = o
    · rw [ho]
      exact hu.map b
    · exact congrFun (hu.other (.live o') (by simpa using ho)) (.data b)
  · intro z ⟨hz, hm⟩
    rw [hu.frame.sb] at hz hm
    exact ⟨hz, hu.marks z hz hm⟩

theorem Outcome.spec (h : Sound s) (h' : Sound s') (hn : s.node c.object = some nd)
    (ho : Outcome s c r s') :
    (∀ e, r = .error e → FileSpec s s' c r) ∧ ∀ v, r = .ok v → (FileSpec s s' c r ↔ Padded s c) := by
  cases ho with
  | @wrote o offset bs s' hbs hmax hw =>
    have hne : (bs.take minixWriteMaxChunk).length ≠ 0 := by
      rw [List.length_take]
      have := List.length_pos_iff.2 hbs
      unfold minixWriteMaxChunk
      omega
    have htake : bs.take (bs.take minixWriteMaxChunk).length = bs.take minixWriteMaxChunk := by
      rw [List.length_take, List.take_eq_take_iff, Nat.min_assoc, Nat.min_self]
    refine ⟨fun _ he => (nomatch he), fun v _ => ?_⟩
    change s.node o = some nd at hn
    have hiff := hw.spec_iff h.consistent hn
    simp only [FileSpec, Padded, if_neg hne, htake]
    rw [hiff]
    constructor
    · intro hc _
      exact hc.2.2.1
    · intro hp
      refine ⟨List.length_take_le' _ _, ⟨fun hc => absurd hc hne, fun hc => absurd hc hbs⟩, hp hbs, ?_⟩
      exact fun κ hκ => hw.content_other h.consistent hκ
  | empty =>
    refine ⟨fun _ he => (nomatch he), fun v _ => ?_⟩
    simp [FileSpec, Padded]
  | undone hu =>
    exact ⟨fun e _ => hu.spec h h' hn, fun _ hv => nomatch hv⟩
  | @got o offset len c =>
    refine ⟨fun _ he => (nomatch he), fun v _ => ⟨fun _ => trivial, fun _ => ⟨?_, rfl⟩⟩⟩
    exact slice_clip _ _ _ _
  | @resized o size s' hmax hr =>
    change s.node o = some nd at hn
    refine ⟨fun _ he => (nomatch he), fun v _ => ?_⟩
    simp only [FileSpec, Padded]
    rw [hr.spec_iff h.consistent hn]
    exact ⟨fun hc => hc.1, fun hp => ⟨hp, fun κ hκ => hr.content_other h.consistent hκ⟩⟩
  | mapped hm =>
    refine ⟨fun _ he => (nomatch he), fun v _ => ⟨fun _ => trivial, fun _ => ?_⟩⟩
    funext κ
    apply content_congr (hm.grown.frame.sizeOf h.consistent.fits hn κ)
    intro x
    rw [hm.grown.frame.toOuter.byte h.consistent.fits, hm.grown.bytes]
    rfl

-- The next call ends, and does what it should if the file has zeroes where it uncovers old blocks.
theorem file_calls_refine (h : Sound s₀) (hr : Run FileStep s₀ l s) (hn : (s.node c.object).isSome)
    (hc : c.Fits) : (∃ r s', FileStep s (c, r) s') ∧
      ∀ r s', FileStep s (c, r) s' → (∀ e, r = .error e → FileSpec s s' c r) ∧
        ∀ v, r = .ok v → (FileSpec s s' c r ↔ Padded s c) := by
  have hs := FileRun.sound h hr
  refine ⟨FileCall.exec_ends hs.consistent hs.calm hn hc, fun r s' he => ?_⟩
  obtain ⟨nd, hnd⟩ := Option.isSome_iff_exists.1 hn
  exact (he.outcome hs.consistent hs.calm).spec hs (he.sound hs) hnd

-- Two writes at the end of a file.
theorem file_calls_refine_writes : ∃ s s',
    FileStep (sample 1 6 oldBytes) (.write 1 1 [7], .ok (.count 1)) s ∧
    FileStep s (.write 1 2 [8], .ok (.count 1)) s' ∧ FileSpec s s' (.write 1 2 [8]) (.ok (.count 1)) := by
  have hfirst : FileStep (sample 1 6 oldBytes) (.write 1 1 [7], .ok (.count 1)) _ :=
    fileStep_after rfl trivial (by decide +kernel)
  have hsecond : FileStep (after (sample 1 6 oldBytes) (.write 1 1 [7])) (.write 1 2 [8], .ok (.count 1)) _ :=
    fileStep_after (by decide +kernel) trivial (by decide +kernel)
  have hsize : (after (sample 1 6 oldBytes) (.write 1 1 [7])).sizeOf (.live 1) = 2 := by decide +kernel
  obtain ⟨-, hspec⟩ := file_calls_refine (sample_sound (.inr rfl) (by decide)) (.one hfirst)
    (show (Fs.node _ (FileCall.write 1 2 [8]).object).isSome from hsecond.live) trivial
  refine ⟨_, _, hfirst, hsecond, ((hspec _ _ hsecond).2 _ rfl).2 fun _ x h1 h2 => ?_⟩
  omega

-- A file of one byte with an old byte behind its end: a write at offset 10 uncovers it.
theorem write_uncovers_old_byte : Sound (sample 1 6 oldBytes) ∧
    ∃ s', FileStep (sample 1 6 oldBytes) (.write 1 10 [7], .ok (.count 1)) s' ∧
      ¬ FileSpec (sample 1 6 oldBytes) s' (.write 1 10 [7]) (.ok (.count 1)) := by
  have hsound : Sound (sample 1 6 oldBytes) := sample_sound (.inr rfl) (by decide)
  have hans : answer ((FileCall.write 1 10 [7]).exec.run (sample 1 6 oldBytes)) = some (.ok (.count 1)) := by
    decide +kernel
  obtain ⟨s', hrun⟩ := exists_of_answer hans
  have hstep : FileStep (sample 1 6 oldBytes) (.write 1 10 [7], .ok (.count 1)) s' := ⟨rfl, trivial, hrun⟩
  refine ⟨hsound, s', hstep, fun hc => ?_⟩
  have hspec := (hstep.outcome hsound.consistent hsound.calm).spec hsound (hstep.sound hsound) rfl
  have hpad := (hspec.2 _ rfl).1 hc (by decide) 1 (by decide) (by decide)
  exact absurd hpad (by decide)

end Jnu.Minix
