import Jnu.Lib.Trace
import Jnu.Mm.Defs

namespace Jnu.Arch.Context

open Lib.Trace
open Function

abbrev Word := BitVec 64

inductive Gpr
  | rax | rbx | rcx | rdx | rsi | rdi | rbp | rsp | r8 | r9 | r10 | r11 | r12 | r13 | r14 | r15
  deriving DecidableEq

-- The registers of a program in user mode. `F` is the type of the FPU and SSE states.
structure User (F : Type) where
  gpr : Gpr → Word
  rip : Word
  rflags : Word
  fpu : F
  fsBase : Word
  gsBase : Word

variable {F : Type}

-- What `syscall_entry` pushes: SYSCALL has put RIP in rcx and RFLAGS in r11.
def syscallFrame (u : User F) : Gpr → Word := update (update u.gpr .rcx u.rip) .r11 u.rflags

def sysretFlags (r11 : Word) : Word := (r11 &&& 0x3C7FD7) ||| 2

-- The end of `syscall_entry`.
def sysret (frame : Gpr → Word) (result : Word) (fpu : F) (fsBase gsBase : Word) : User F :=
  ⟨update frame .rax result, frame .rcx, sysretFlags (frame .r11), fpu, fsBase, gsBase⟩

section first

-- `fork`, or `clone` with the value of CLONE_SETTLS.
inductive Call
  | fork
  | clone (childStack : Word) (tls : Option Word)

-- The fields of `struct task` that the first entry and `switch_to` read.
structure NewTask (F : Type) where
  userFrame : Gpr → Word
  fpuState : F
  fsBase : Word

-- `process_fork` and `sched_create_thread_task`; `init` is what `fpu_state_init` copies.
def newTask (init : F) (fsBase : Word) (frame : Gpr → Word) : Call → Option (NewTask F)
  | .fork => if frame .rcx = 0 ∨ frame .rsp = 0 then none else some ⟨frame, init, fsBase⟩
  | .clone childStack tls =>
    if childStack = 0 ∨ Mm.userTop ≤ childStack.toNat then none
    else some ⟨update frame .rsp childStack, init, tls.getD fsBase⟩

structure Bases (F : Type) where
  fpu : F
  fsBase : Word
  gsBase : Word

def switchTo (t : NewTask F) (c : Bases F) : Bases F :=
  { c with fpu := t.fpuState, fsBase := t.fsBase }

-- A preemption before `cli` gives back the FPU and the FS base.
def usermodeEnterForkFrame (frame : Gpr → Word) (c : Bases F) : Option (User F) :=
  if frame .rcx = 0 ∨ frame .rsp = 0 then none
  else
    -- `arch_syscall_install_user_gs`
    let c := { c with gsBase := 0 }
    -- `mov %ax, %fs` and `mov %ax, %gs`
    let c := { c with fsBase := 0 }
    let c := { c with gsBase := 0 }
    some ⟨update frame .rax 0, frame .rcx, frame .r11 ||| 0x202, c.fpu, c.fsBase, c.gsBase⟩

-- The child at its first instruction in user mode.
def firstUser (init : F) (fsBase : Word) (c : Bases F) (call : Call) (u : User F) : Option (User F) :=
  (newTask init fsBase (syscallFrame u) call).bind fun t =>
    usermodeEnterForkFrame t.userFrame (switchTo t c)

def Call.fsBase (u : User F) : Call → Word
  | .fork => u.fsBase
  | .clone _ tls => tls.getD u.fsBase

def Call.child (u : User F) (call : Call) : User F :=
  let s := sysret (syscallFrame u) 0 u.fpu (call.fsBase u) u.gsBase
  match call with
  | .fork => s
  | .clone childStack _ => { s with gpr := update s.gpr .rsp childStack }

variable {init : F} {fsBase : Word} {c : Bases F} {call : Call} {u s : User F}

theorem firstUser_eq (h : firstUser init fsBase c call u = some s) :
    s = { call.child u with rflags := u.rflags ||| 0x202, fpu := init, fsBase := 0, gsBase := 0 } := by
  obtain ⟨t, ht, h⟩ := Option.bind_eq_some_iff.1 h
  obtain ⟨-, ⟨⟩⟩ := Option.ite_none_left_eq_some.1 h
  cases call with
  | fork =>
    obtain ⟨-, ⟨⟩⟩ := Option.ite_none_left_eq_some.1 ht
    rfl
  | clone childStack tls =>
    obtain ⟨-, ⟨⟩⟩ := Option.ite_none_left_eq_some.1 ht
    rw [update_comm (show Gpr.rsp ≠ Gpr.rax by decide)]
    rfl

-- The child starts with a fresh FPU state and with both bases 0.
theorem first_user_state (h : firstUser init fsBase c call u = some s) : s = call.child u ↔
    u.fpu = init ∧ call.fsBase u = 0 ∧ u.gsBase = 0 ∧ sysretFlags u.rflags = u.rflags ||| 0x202 := by
  have hchild : call.child u = ⟨(call.child u).gpr, u.rip, sysretFlags u.rflags, u.fpu, call.fsBase u,
      u.gsBase⟩ := by
    cases call <;> rfl
  rw [firstUser_eq h, hchild]
  simp only [User.mk.injEq, true_and]
  tauto

-- The program of task `j`, with registers, an FPU state and an FS base of its own.
def program (j : Nat) (fsBase : Word) : User Nat := ⟨fun _ => BitVec.ofNat 64 (j + 1), 1, 0x202, j, fsBase, 0⟩

theorem first_user_state_plain : ∃ s, firstUser 3 0 ⟨5, 0x5000, 1⟩ .fork (program 3 0) = some s ∧
    s = Call.fork.child (program 3 0) :=
  ⟨_, rfl, (first_user_state rfl).2 ⟨rfl, rfl, rfl, by decide⟩⟩

theorem first_user_loses_tls : ∃ s, firstUser 3 0x7000 ⟨5, 0, 0⟩ .fork (program 3 0x7000) = some s ∧
    s.fsBase = 0 ∧ (Call.fork.child (program 3 0x7000)).fsBase = 0x7000 :=
  ⟨_, rfl, rfl, rfl⟩

end first

section switches

-- What is on the kernel stack for the way back to user mode.
inductive Frame
  | irq (gpr : Gpr → Word) (rip rflags : Word)
  | syscall (gpr : Gpr → Word)

-- `last` is not in the code: the registers with which the task left user mode, with its own calls of
-- `arch_prctl`.
structure Task (F : Type) where
  frame : Frame
  fpuState : F
  fsBase : Word
  last : User F

-- In the kernel `cpu` has registers of the kernel, but the FPU and the FS base of the program.
structure Machine (F : Type) where
  user : Bool
  cpu : User F
  kernelGs : Word
  current : Nat
  task : Nat → Task F

inductive Move (F : Type)
  -- instructions in user mode and in the kernel
  | run (u : User F)
  | kernel (u : User F)
  -- an interrupt or a fault in user mode
  | interrupt
  | syscall
  | archSetFs (addr : Word)
  | archSetGs (addr : Word)
  | switch (j : Nat)
  -- the way back of `isr_common` or `syscall_entry`, with what is in rax
  | resume (result : Word)

namespace Machine

variable (m : Machine F)

def self : Task F := m.task m.current

def setSelf (t : Task F) : Machine F := { m with task := update m.task m.current t }

-- To the kernel, with `swapgs`.
def leave (f : Frame) : Machine F :=
  { m.setSelf { m.self with frame := f, last := m.cpu } with
    user := false, cpu := { m.cpu with gsBase := m.kernelGs }, kernelGs := m.cpu.gsBase }

def back (result : Word) : User F :=
  match m.self.frame with
  | .irq gpr rip rflags => ⟨gpr, rip, rflags, m.cpu.fpu, m.cpu.fsBase, m.kernelGs⟩
  | .syscall gpr => sysret gpr result m.cpu.fpu m.cpu.fsBase m.kernelGs

def archSetFs (addr : Word) : Machine F :=
  { m.setSelf { m.self with fsBase := addr, last := { m.self.last with fsBase := addr } } with
    cpu := { m.cpu with fsBase := addr } }

-- MSR_GS_BASE is the base of the kernel here; `gs_base` is for the first entry only.
def archSetGs (addr : Word) : Machine F :=
  { m.setSelf { m.self with last := { m.self.last with gsBase := addr } } with
    cpu := { m.cpu with gsBase := addr } }

def switch (j : Nat) : Machine F :=
  { m.setSelf { m.self with fpuState := m.cpu.fpu, fsBase := m.cpu.fsBase } with
    cpu := { m.cpu with fpu := (m.task j).fpuState, fsBase := (m.task j).fsBase }, current := j }

end Machine

inductive Step (m : Machine F) : Move F → Machine F → Prop
  -- a program has no way to a GS base but the flat selector, and RFLAGS has no other bits
  | run {u : User F} (hu : m.user = true) (hf : sysretFlags u.rflags = u.rflags)
      (hg : u.gsBase = m.cpu.gsBase ∨ u.gsBase = 0) : Step m (.run u) { m with cpu := u }
  | kernel {u : User F} (hu : m.user = false) (hf : u.fpu = m.cpu.fpu) (hs : u.fsBase = m.cpu.fsBase)
      (hg : u.gsBase = m.cpu.gsBase) : Step m (.kernel u) { m with cpu := u }
  | interrupt (hu : m.user = true) :
      Step m .interrupt (m.leave (.irq m.cpu.gpr m.cpu.rip m.cpu.rflags))
  | syscall (hu : m.user = true) : Step m .syscall (m.leave (.syscall (syscallFrame m.cpu)))
  | archSetFs {addr : Word} (hu : m.user = false) (ha : addr.toNat < Mm.userTop) :
      Step m (.archSetFs addr) (m.archSetFs addr)
  | archSetGs {addr : Word} (hu : m.user = false) (ha : addr.toNat < Mm.userTop) :
      Step m (.archSetGs addr) (m.archSetGs addr)
  | switch {j : Nat} (hu : m.user = false) (hj : j ≠ m.current) : Step m (.switch j) (m.switch j)
  | resume (result : Word) (hu : m.user = false) : Step m (.resume result)
      { m with user := true, cpu := m.back result, kernelGs := m.cpu.gsBase }

-- No task sets its GS base.
def QuietStep (m : Machine F) (e : Move F) (m' : Machine F) : Prop :=
  (∀ addr, e ≠ .archSetGs addr) ∧ Step m e m'

-- The frame of a task that is in the kernel.
structure Task.Framed (t : Task F) : Prop where
  gsBase : t.last.gsBase = 0
  rflags : sysretFlags t.last.rflags = t.last.rflags
  frame : t.frame = .irq t.last.gpr t.last.rip t.last.rflags ∨ t.frame = .syscall (syscallFrame t.last)

-- The tasks are past their first entry, which leaves 0 as the GS base.
structure Kept (scratch : Word) (m : Machine F) : Prop where
  inUser : m.user = true →
    m.cpu.gsBase = 0 ∧ m.kernelGs = scratch ∧ sysretFlags m.cpu.rflags = m.cpu.rflags
  inKernel : m.user = false → m.cpu.gsBase = scratch ∧ m.kernelGs = 0 ∧ m.self.Framed ∧
    m.cpu.fpu = m.self.last.fpu ∧ m.cpu.fsBase = m.self.last.fsBase
  parked : ∀ j, j ≠ m.current → (m.task j).Framed ∧ (m.task j).fpuState = (m.task j).last.fpu ∧
    (m.task j).fsBase = (m.task j).last.fsBase

variable {scratch result : Word} {m m' m'' : Machine F} {e : Move F} {es : List (Move F)}

theorem Kept.leave {f : Frame} (h : Kept scratch m) (hu : m.user = true)
    (hf : f = .irq m.cpu.gpr m.cpu.rip m.cpu.rflags ∨ f = .syscall (syscallFrame m.cpu)) :
    Kept scratch (m.leave f) := by
  obtain ⟨hg, hk, hr⟩ := h.inUser hu
  have hself : (m.leave f).self = ⟨f, m.self.fpuState, m.self.fsBase, m.cpu⟩ := update_self ..
  refine ⟨nofun, fun _ => ?_, fun j hj => ?_⟩
  · rw [hself]
    exact ⟨hk, hg, ⟨hg, hr, hf⟩, rfl, rfl⟩
  · rw [show (m.leave f).task j = m.task j from update_of_ne hj _ _]
    exact h.parked j hj

theorem Kept.back (h : Kept scratch m) (hu : m.user = false) (result : Word) : m.back result = m.self.last ∨
    ((∃ gpr, m.self.frame = .syscall gpr) ∧
      m.back result = { m.self.last with gpr := update (syscallFrame m.self.last) .rax result }) := by
  obtain ⟨-, hk, hF, hf, hs⟩ := h.inKernel hu
  unfold Machine.back
  rw [hk, hf, hs, ← hF.gsBase]
  rcases hF.frame with hfr | hfr
  · rw [hfr]
    exact .inl rfl
  rw [hfr]
  refine .inr ⟨⟨_, rfl⟩, ?_⟩
  have hr : sysretFlags (syscallFrame m.self.last .r11) = m.self.last.rflags := hF.rflags
  dsimp only [sysret]
  rw [hr]
  rfl

theorem Kept.step (h : Kept scratch m) (hs : QuietStep m e m') : Kept scratch m' := by
  obtain ⟨hq, hs⟩ := hs
  cases hs with
  | run hu hf hg =>
    obtain ⟨hgs, hk, -⟩ := h.inUser hu
    refine ⟨fun _ => ⟨hg.elim (·.trans hgs) id, hk, hf⟩, fun h' => ?_, h.parked⟩
    cases hu.symm.trans h'
  | kernel hu hf hs hg =>
    obtain ⟨hgs, hk, hF, hf', hs'⟩ := h.inKernel hu
    refine ⟨fun h' => ?_, fun _ => ⟨hg.trans hgs, hk, hF, hf.trans hf', hs.trans hs'⟩, h.parked⟩
    cases hu.symm.trans h'
  | interrupt hu => exact h.leave hu (.inl rfl)
  | syscall hu => exact h.leave hu (.inr rfl)
  | @archSetFs addr hu ha =>
    obtain ⟨hgs, hk, hF, hf, -⟩ := h.inKernel hu
    have hself : (m.archSetFs addr).self =
        ⟨m.self.frame, m.self.fpuState, addr, { m.self.last with fsBase := addr }⟩ := update_self ..
    refine ⟨fun h' => ?_, fun _ => ?_, fun j hj => ?_⟩
    · cases hu.symm.trans h'
    · rw [hself]
      exact ⟨hgs, hk, ⟨hF.gsBase, hF.rflags, hF.frame⟩, hf, rfl⟩
    · rw [show (m.archSetFs addr).task j = m.task j from update_of_ne hj _ _]
      exact h.parked j hj
  | archSetGs hu ha => exact absurd rfl (hq _)
  | @switch j hu hj =>
    obtain ⟨hgs, hk, hF, hf, hs⟩ := h.inKernel hu
    obtain ⟨hFj, hfj, hsj⟩ := h.parked j hj
    have hself : (m.switch j).self = m.task j := update_of_ne hj _ _
    refine ⟨fun h' => ?_, fun _ => ?_, fun i hi => ?_⟩
    · cases hu.symm.trans h'
    · rw [hself]
      exact ⟨hgs, hk, hFj, hfj, hsj⟩
    by_cases hc : i = m.current
    · rw [show (m.switch j).task i = ⟨m.self.frame, m.cpu.fpu, m.cpu.fsBase, m.self.last⟩ from
        hc ▸ update_self ..]
      exact ⟨⟨hF.gsBase, hF.rflags, hF.frame⟩, hf, hs⟩
    · rw [show (m.switch j).task i = m.task i from update_of_ne hc _ _]
      exact h.parked i hc
  | resume result hu =>
    obtain ⟨hgs, -, hF, -⟩ := h.inKernel hu
    have hb : (m.back result).gsBase = m.self.last.gsBase ∧ (m.back result).rflags = m.self.last.rflags := by
      rcases h.back hu result with hb | ⟨-, hb⟩ <;> rw [hb] <;> exact ⟨rfl, rfl⟩
    refine ⟨fun _ => ⟨hb.1.trans hF.gsBase, hgs, ?_⟩, nofun, h.parked⟩
    exact (congrArg sysretFlags hb.2).trans (hF.rflags.trans hb.2.symm)

-- A task comes back to user mode with the registers it had, but for those that a system call changes.
theorem context_kept (h0 : Kept scratch m) (h : Run QuietStep m es m')
    (hs : QuietStep m' (.resume result) m'') :
    m''.cpu = m'.self.last ∨ ((∃ gpr, m'.self.frame = .syscall gpr) ∧
      m''.cpu = { m'.self.last with gpr := update (syscallFrame m'.self.last) .rax result }) := by
  have hk : Kept scratch m' := h.invariant h0 fun _ _ _ => Kept.step
  obtain ⟨-, hs⟩ := hs
  cases hs with
  | resume _ hu => exact hk.back hu result

def parked (u : User Nat) : Task Nat := ⟨.irq u.gpr u.rip u.rflags, u.fpu, u.fsBase, u⟩

-- Task 0 runs, and the others have been interrupted.
def started : Machine Nat := ⟨true, program 0 0, 1, 0, fun j => parked (program j (BitVec.ofNat 64 j))⟩

-- What task 1 has come to when it is interrupted again.
def progress : User Nat := { program 1 6 with gpr := fun _ => 42, fpu := 8 }

def turns : List (Move Nat) :=
  [.syscall, .switch 1, .resume 0, .run progress, .interrupt, .switch 0, .resume 7, .interrupt, .switch 1]

theorem context_kept_switch : ∃ m m', Run QuietStep started turns m ∧ m.cpu.fpu = 8 ∧
    QuietStep m (.resume 0) m' ∧ m'.cpu = progress := by
  have hF : ∀ j, (started.task j).Framed := fun j => ⟨rfl, (by decide : sysretFlags 0x202 = 0x202), .inl rfl⟩
  have h0 : Kept 1 started := ⟨fun _ => ⟨rfl, rfl, by decide⟩, nofun, fun j _ => ⟨hF j, rfl, rfl⟩⟩
  obtain ⟨m, m', hrun, hf, hs, hm⟩ : ∃ m m', Run QuietStep started turns m ∧ m.cpu.fpu = 8 ∧
      QuietStep m (.resume 0) m' ∧ m.self = parked progress :=
    ⟨_, _, .cons ⟨nofun, .syscall rfl⟩ <| .cons ⟨nofun, .switch rfl (by decide)⟩ <|
      .cons ⟨nofun, .resume 0 rfl⟩ <| .cons ⟨nofun, .run rfl (by decide) (.inr rfl)⟩ <|
      .cons ⟨nofun, .interrupt rfl⟩ <| .cons ⟨nofun, .switch rfl (by decide)⟩ <|
      .cons ⟨nofun, .resume 7 rfl⟩ <| .cons ⟨nofun, .interrupt rfl⟩ <|
      .one ⟨nofun, .switch rfl (by decide)⟩, rfl, ⟨nofun, .resume 0 rfl⟩, rfl⟩
  refine ⟨m, m', hrun, hf, hs, ?_⟩
  rcases context_kept h0 hrun hs with h | ⟨⟨gpr, hg⟩, -⟩
  · rw [h, hm]
    rfl
  · rw [hm] at hg
    cases hg

-- The GS base that a task asks for goes to MSR_KERNEL_GS_BASE.
theorem context_loses_gs : ∃ m m', Run Step started [.syscall, .archSetGs 0x7000] m ∧
    Step m (.resume 0) m' ∧ m.self.last.gsBase = 0x7000 ∧ m'.cpu.gsBase = 0 ∧ m'.kernelGs = 0x7000 :=
  ⟨_, _, .cons (.syscall rfl) (.one (.archSetGs rfl (by decide))), .resume 0 rfl, rfl, rfl, rfl⟩

end switches

end Jnu.Arch.Context
