import Jnu.Minix.Sample
import Jnu.Minix.Refine

namespace Jnu.Minix

open Lib.Bytes Lib.Effect Lib.Trace

variable {s₀ s₁ s₂ s s' : Fs} {o x : Nat} {c : FileCall} {r : Except Errno FileResult} {e : FileEvent}
  {l l₁ l₂ : List FileEvent} {nd : Node}

def Writes (o x : Nat) : FileEvent → Prop
  | (.write o' offset _, .ok (.count n)) => o' = o ∧ offset ≤ x ∧ x < offset + n
  | _ => False

-- The blocks of the object hold nothing but zeroes behind the end of the file.
def Clean (s : Fs) (o : Nat) : Prop :=
  ∀ x, s.sizeOf (.live o) ≤ x → s.byte (.live o) x = 0

-- The bytes that a truncate cuts off in the last block it keeps are zeroes already.
def CutsZeroes (s : Fs) : FileCall → Prop
  | .truncate o size => ∀ x, size ≤ x → x < blocksOf size * blockSize → x < s.sizeOf (.live o) →
      s.byte (.live o) x = 0
  | _ => True

structure TidyStep (o : Nat) (s : Fs) (e : FileEvent) (s' : Fs) : Prop where
  step : FileStep s e s'
  tidy : e.1.object = o → CutsZeroes s e.1

theorem Outcome.byte_or_zero (hf : s.sb.Fits s.nblocks) (ho : Outcome s c r s') (hw : ¬ Writes o x (c, r)) :
    s'.byte (.live o) x = s.byte (.live o) x ∨ s'.byte (.live o) x = 0 := by
  cases ho with
  | @wrote o' offset bs s' hbs hmax h =>
    left
    rw [h.outer.byte hf, h.bytes, if_neg]
    · rfl
    · rintro ⟨hκ, h1, h2⟩
      exact hw ⟨(Key.live.inj hκ).symm, h1, h2⟩
  | empty => exact .inl rfl
  | undone h =>
    rw [h.frame.toOuter.byte hf, h.bytes]
    exact .inl rfl
  | got => exact .inl rfl
  | resized hmax h =>
    rw [h.outer.byte hf]
    exact (h.bytes (.live o) x).imp_right fun hc => hc.2.2
  | mapped h =>
    rw [h.grown.frame.toOuter.byte hf]
    exact .inl (h.grown.bytes (.live o) x)

theorem Outcome.clean (h : Consistent s) (hn : s.node c.object = some nd) (ho : Outcome s c r s')
    (hclean : Clean s o) (htidy : c.object = o → CutsZeroes s c) : Clean s' o := by
  intro x hx
  have hkeep : s.sizeOf (.live o) ≤ x → ¬ Writes o x (c, r) → s'.byte (.live o) x = 0 := by
    intro h1 h2
    rcases ho.byte_or_zero h.fits h2 with hs | h0
    · rw [hs]
      exact hclean x h1
    · exact h0
  by_cases hobj : c.object = o
  · cases ho with
    | @wrote o' offset bs s' hbs hmax hw =>
      subst hobj
      change s.node o' = some nd at hn
      obtain ⟨nd', hn', hk⟩ := hw.node nd hn
      change s'.sizeOf (.live o') ≤ x at hx
      rw [sizeOf_live hn', hk.size] at hx
      apply hkeep
      · change s.sizeOf (.live o') ≤ x
        rw [sizeOf_live hn]
        omega
      · rintro ⟨-, -, h2⟩
        omega
    | empty => exact hkeep hx fun ⟨_, h1, h2⟩ => absurd h1 (by omega)
    | undone hu =>
      rw [hu.frame.sizeOf h.fits hn] at hx
      exact hkeep hx fun hc => hc
    | got => exact hkeep hx fun hc => hc
    | @resized o' size s' hmax hr =>
      subst hobj
      change s.node o' = some nd at hn
      obtain ⟨nd', hn', hk⟩ := hr.node nd hn
      change s'.sizeOf (.live o') ≤ x at hx
      rw [sizeOf_live hn', hk.size] at hx
      change s'.byte (.live o') x = 0
      by_cases hold : s.sizeOf (.live o') ≤ x
      · exact hkeep hold fun hc => hc
      by_cases hblock : blocksOf size ≤ x / blockSize
      · rw [sizeOf_live hn] at hold
        rw [hr.outer.byte h.fits]
        exact hr.cut nd hn x hblock (by omega)
      -- the last block that stays
      have hzero : s.byte (.live o') x = 0 := by
        apply htidy rfl x hx _ (by omega)
        unfold blockSize at hblock ⊢
        omega
      rcases Outcome.byte_or_zero (o := o') (x := x) h.fits (.resized hmax hr) (fun hc => hc) with hs | h0
      · rw [hs, hzero]
      · exact h0
    | mapped hm =>
      rw [hm.grown.frame.sizeOf h.fits hn] at hx
      exact hkeep hx fun hc => hc
  · rw [ho.outer.sizeOf h.fits fun hc => hobj (Key.live.inj hc).symm] at hx
    apply hkeep hx
    intro hc
    cases ho with
    | wrote _ _ _ => exact hobj hc.1
    | empty => exact hobj hc.1
    | undone _ => exact hc
    | got => exact hc
    | resized _ _ => exact hc
    | mapped _ => exact hc

-- A consistent volume where the file `o` hides no old bytes.
structure Tidy (o : Nat) (s : Fs) : Prop where
  sound : Sound s
  clean : Clean s o

theorem TidyStep.keeps (h : Tidy o s) (he : TidyStep o s e s') : Tidy o s' := by
  obtain ⟨nd, hn⟩ := Option.isSome_iff_exists.1 he.step.live
  have hout := he.step.outcome h.sound.consistent h.sound.calm
  exact ⟨he.step.sound h.sound, hout.clean h.sound.consistent hn h.clean he.tidy⟩

theorem Tidy.run (h : Tidy o s) (hr : Run (TidyStep o) s l s') : Tidy o s' :=
  hr.invariant h fun _ _ _ h he => TidyStep.keeps h he

theorem Tidy.zero_kept (h : Tidy o s) (hr : Run (TidyStep o) s l s') (hzero : s.byte (.live o) x = 0)
    (hw : ∀ e ∈ l, ¬ Writes o x e) : s'.byte (.live o) x = 0 := by
  induction hr with
  | nil => exact hzero
  | @snoc s₁ s₂ l e hr he ih =>
    have h1 := h.run hr
    have hkeep := ih fun e' he' => hw e' (List.mem_append_left _ he')
    have hout := he.step.outcome h1.sound.consistent h1.sound.calm
    rcases hout.byte_or_zero h1.sound.consistent.fits
      (hw e (List.mem_append_right _ List.mem_cons_self)) with hs | h0
    · rw [hs, hkeep]
    · exact h0

-- For a file without old bytes behind its end, in a run whose truncates cut off only zeroes.
theorem exposed_byte_reads_zero (h : Sound s₀) (hclean : Clean s₀ o) (hr₁ : Run (TidyStep o) s₀ l₁ s₁)
    (hr₂ : Run (TidyStep o) s₁ l₂ s₂) (hout : s₁.sizeOf (.live o) ≤ x) (hw : ∀ e ∈ l₂, ¬ Writes o x e)
    (hin : x < s₂.sizeOf (.live o)) : ∃ c, (minixRead o x 1).run s₂ = some (.ok (.ok [0], s₂.at c)) := by
  have h1 := Tidy.run ⟨h, hclean⟩ hr₁
  have h2 := h1.run hr₂
  have hzero := h1.zero_kept hr₂ (h1.clean x hout) hw
  cases hn : s₂.node o with
  | none =>
    simp only [Fs.sizeOf, hn] at hin
    exact absurd hin (Nat.not_lt_zero x)
  | some nd =>
    have hmax := (h2.sound.consistent.sizes o nd hn).1
    have hlt := maxSize_lt
    have hread : wp (minixRead o x 1) (fun bs s' => (∃ c, s' = s₂.at c) ∧
        bs = slice (s₂.byte (.live o)) x (min 1 (nd.size - x))) never s₂ :=
      minixRead_spec (h2.sound.consistent.good h2.sound.calm hn) hn (by omega)
    obtain ⟨bs, s', hrun, ⟨c, hs'⟩, hbs⟩ := hread.exists_ok
    rw [sizeOf_live hn] at hin
    rw [show min 1 (nd.size - x) = 1 by omega] at hbs
    have hone : bs = [0] := by
      rw [hbs]
      exact congrArg (fun b => [b]) hzero
    rw [hs', hone] at hrun
    exact ⟨c, hrun⟩

-- A file of one byte, written and then made longer by a truncate.
def shortFile : Fs := after (sample 0 0 oldBytes) (.write 1 0 [0x41])

def longerFile : Fs := after shortFile (.truncate 1 3)

theorem shortFile_step : FileStep (sample 0 0 oldBytes) (.write 1 0 [0x41], .ok (.count 1)) shortFile :=
  fileStep_after rfl trivial (by decide +kernel)

theorem longerFile_step : FileStep shortFile (.truncate 1 3, .ok .done) longerFile :=
  fileStep_after (by decide +kernel) (show 3 ≤ maxSize by decide) (by decide +kernel)

theorem exposed_byte_reads_zero_grown :
    ∃ c, (minixRead 1 2 1).run longerFile = some (.ok (.ok [0], longerFile.at c)) := by
  have hsize : shortFile.sizeOf (.live 1) = 1 := by decide +kernel
  have hsound : Sound (sample 0 0 oldBytes) := sample_sound (.inl rfl) (Nat.zero_le _)
  refine exposed_byte_reads_zero (o := 1) hsound (fun x _ => ?_)
    (.one ⟨shortFile_step, fun _ => trivial⟩) (.one ⟨longerFile_step, fun _ => ?_⟩) (x := 2) (by omega) ?_
    (by decide +kernel)
  · apply byteAt_zero sampleSuper_fits
    rw [sample_zone (by decide)]
    simp
  · intro x h1 _ h3
    change x < shortFile.sizeOf (.live 1) at h3
    omega
  · intro e he hc
    rw [List.mem_singleton.1 he] at hc
    exact hc

-- Two bytes written, the second cut off, and the file made longer again: the byte is back.
def cutFile : Fs := after (after (sample 0 0 oldBytes) (.write 1 0 [0x41, 0x42])) (.truncate 1 1)

theorem cut_byte_reappears : Sound (sample 0 0 oldBytes) ∧
    Run FileStep (sample 0 0 oldBytes) [(.write 1 0 [0x41, 0x42], .ok (.count 2)),
      (.truncate 1 1, .ok .done)] cutFile ∧
    cutFile.sizeOf (.live 1) = 1 ∧
    Run FileStep cutFile [(.truncate 1 2, .ok .done)] (after cutFile (.truncate 1 2)) ∧
    answer ((minixRead 1 1 1).run (after cutFile (.truncate 1 2))) = some (.ok [0x42]) := by
  refine ⟨sample_sound (.inl rfl) (Nat.zero_le _), ?_, by decide +kernel, ?_, by decide +kernel⟩
  · refine .cons (fileStep_after rfl ?_ ?_) (.one (fileStep_after ?_ ?_ ?_))
    · trivial
    · decide +kernel
    · decide +kernel
    · exact (show 1 ≤ maxSize by decide)
    · decide +kernel
  · refine .one (fileStep_after ?_ ?_ ?_)
    · decide +kernel
    · exact (show 2 ≤ maxSize by decide)
    · decide +kernel

end Jnu.Minix
