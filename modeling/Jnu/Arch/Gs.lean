import Jnu.Lib.Refs
import Jnu.Lib.Trace
import Jnu.Mm.Defs

namespace Jnu.Arch

open Lib.Refs Lib.Trace
open Function

-- What the CPU pushes of the code it leaves: the privilege bits of CS and the IF of RFLAGS.
structure Frame where
  user : Bool
  ifl : Bool
  deriving DecidableEq

-- The instructions that touch IF, the privilege level or a GS base; `call` is a call of C code.
inductive Op
  | cli
  | sti
  | swapgs
  | movGs
  | wrGs (v : Nat)
  | wrTaskGs
  | wrKernelGs (v : Nat)
  | call
  | dispatch
  | iretq (f : Frame)
  | sysret (ifl : Bool)
  deriving DecidableEq

namespace Op

def isCall : Op → Bool
  | .call => true
  | .dispatch => true
  | _ => false

end Op

-- `scratch` is `&boot_scratch`.
variable (scratch : Nat) {g' v j bootCpu : Nat}

def installUserGs : List Op := [.wrKernelGs scratch, .wrGs 0]

def usermodeEnter : List Op :=
  .movGs :: installUserGs scratch ++ [.wrTaskGs, .cli, .iretq ⟨true, true⟩]

def usermodeEnterForkFrame : List Op :=
  installUserGs scratch ++ [.cli, .movGs, .iretq ⟨true, true⟩]

-- `r11` holds the flags of the user.
def syscallEntry (r11 : Bool) : List Op :=
  [.swapgs, .sti, .dispatch, .cli, .call, .swapgs, .sysret r11]

def isrCommon (f : Frame) : List Op :=
  (if f.user then [.swapgs] else []) ++ [.call] ++
    (if f.user then [.call, .swapgs] else []) ++ [.iretq f]

-- The start of a new task: `user_thread_entry` without and with a frame (`thread_user_entry` is like the
-- second), or a kernel thread.
inductive Entry
  | enter
  | forkFrame
  | kernel

def threadEntry : Entry → List Op
  | .enter => .call :: usermodeEnter scratch
  | .forkFrame => .call :: usermodeEnterForkFrame scratch
  | .kernel => [.call]

structure Cpu where
  user : Bool
  ifl : Bool
  gs : Nat
  kernelGs : Nat

-- `code` is the rest of the kernel code, `ifl` the IF that `spin_unlock_irqrestore` gives back.
structure Task where
  code : List Op
  ifl : Bool
  gsBase : Nat

structure Machine where
  cpu : Cpu
  current : Nat
  task : Nat → Option Task

namespace Machine

def setTask (m : Machine) (i : Nat) (t : Task) : Machine :=
  { m with task := update m.task i (some t) }

def goto (m : Machine) (t : Task) (cpu : Cpu) (code : List Op) : Machine :=
  { m.setTask m.current { t with code := code } with cpu := cpu }

-- The CPU leaves `code` for the kernel, with interrupts off.
def trap (m : Machine) (t : Task) (code : List Op) : Machine :=
  m.goto t { m.cpu with user := false, ifl := false } code

end Machine

def execOp (t : Task) (cpu : Cpu) : Op → Option Cpu
  | .cli => some { cpu with ifl := false }
  | .sti => some { cpu with ifl := true }
  | .swapgs => some { cpu with gs := cpu.kernelGs, kernelGs := cpu.gs }
  | .movGs => some { cpu with gs := 0 }
  | .wrGs v => some { cpu with gs := v }
  | .wrTaskGs => some { cpu with gs := t.gsBase }
  | .wrKernelGs v => some { cpu with kernelGs := v }
  | .iretq f => some { cpu with user := f.user, ifl := f.ifl }
  | .sysret r11 => some { cpu with user := true, ifl := r11 }
  | .call => none
  | .dispatch => none

inductive Move
  -- the next instruction of the kernel, or the end of its C code
  | exec
  | ret
  -- an interrupt, an exception (of the user or in C code), a system call
  | interrupt
  | fault
  | syscall
  -- `mov %ax, %gs` in user mode
  | userMovGs
  -- what C code does to this state
  | archSetGs (addr : Nat)
  | spawn (i : Nat) (e : Entry)
  | switch (i : Nat)

-- `sys_arch_prctl` with ARCH_SET_GS
def archSetGs (m : Machine) (t : Task) (addr : Nat) : Machine :=
  if addr ≥ Mm.userTop then m
  else { m.setTask m.current { t with gsBase := addr } with cpu := { m.cpu with gs := addr } }

-- `switch_to` leaves both GS bases as they are.
def switchTo (m : Machine) (t : Task) (i : Nat) (next : Task) : Machine :=
  if i = m.current then m
  else { m.setTask m.current { t with ifl := m.cpu.ifl } with
    cpu := { m.cpu with ifl := next.ifl }, current := i }

-- What the CPU can do next in user mode,
def userStep (m : Machine) (t : Task) : Move → Option Machine
  | .interrupt => if m.cpu.ifl then some (m.trap t (isrCommon ⟨true, true⟩ ++ t.code)) else none
  | .fault => some (m.trap t (isrCommon ⟨true, m.cpu.ifl⟩ ++ t.code))
  | .syscall => some (m.trap t (syscallEntry m.cpu.ifl ++ t.code))
  | .userMovGs => some { m with cpu := { m.cpu with gs := 0 } }
  | _ => none

-- and in the kernel with the instruction `op` in front of `rest`.
def kernelStep (m : Machine) (t : Task) (op : Op) (rest : List Op) : Move → Option Machine
  | .exec => (execOp t m.cpu op).map fun cpu => m.goto t cpu rest
  | .ret => if op.isCall ∧ rest ≠ [] then some (m.goto t m.cpu rest) else none
  | .interrupt =>
    if m.cpu.ifl then some (m.trap t (isrCommon ⟨false, true⟩ ++ op :: rest)) else none
  | .fault =>
    if op.isCall then some (m.trap t (isrCommon ⟨false, m.cpu.ifl⟩ ++ op :: rest)) else none
  | .archSetGs addr => if op = .dispatch then some (archSetGs m t addr) else none
  | .spawn i e =>
    if op.isCall ∧ m.task i = none then some (m.setTask i ⟨threadEntry scratch e, true, t.gsBase⟩)
    else none
  | .switch i =>
    if op.isCall then (m.task i).map fun next => switchTo m t i next else none
  | _ => none

def step (m : Machine) (e : Move) : Option Machine :=
  match m.task m.current with
  | none => none
  | some t =>
    if m.cpu.user then userStep m t e
    else match t.code with
      | [] => none
      | op :: rest => kernelStep scratch m t op rest e

-- After `cpu_init` and `arch_syscall_init`, in the boot task.
def boot (bootCpu : Nat) (ifl : Bool) : Machine :=
  { cpu := ⟨false, ifl, bootCpu, scratch⟩
    current := 0
    task := update (fun _ => none) 0 (some ⟨[.call], ifl, 0⟩) }

-- The interrupts of kernel code do not touch GS: what matters is the code below them.
def below : List Op → List Op
  | .call :: .iretq ⟨false, _⟩ :: c => below c
  | .iretq ⟨false, _⟩ :: c => below c
  | c => c

-- A first entry to user mode has executed its first instruction.
def Entering (c : List Op) : Prop :=
  below c <:+ (usermodeEnter scratch).tail ∨ below c <:+ (usermodeEnterForkFrame scratch).tail

instance (c : List Op) : Decidable (Entering scratch c) := by
  unfold Entering
  infer_instance

-- No call sets the GS base, and no task is switched out in the middle of its first entry.
def Disciplined (m : Machine) : Move → Prop
  | .archSetGs addr => addr ≥ Mm.userTop
  | .switch _ => ∀ t, m.task m.current = some t → ¬ Entering scratch t.code
  | _ => True

instance (m : Machine) (e : Move) : Decidable (Disciplined scratch m e) := by
  cases e with
  | archSetGs addr => exact inferInstanceAs (Decidable (addr ≥ Mm.userTop))
  | switch i =>
    exact decidable_of_iff (∀ t ∈ m.task m.current, ¬ Entering scratch t.code) (by rfl)
  | _ => exact inferInstanceAs (Decidable True)

-- What kernel code needs to get back to user mode with the right pair of bases.
inductive Need
  | nothing
  | gs
  | kernelGs
  | never
  deriving DecidableEq

namespace Need

def swap : Need → Need
  | .gs => .kernelGs
  | .kernelGs => .gs
  | n => n

-- The need before a write to the GS base,
def writeGs : Need → Need
  | .gs => .never
  | n => n

-- and before a write of `v` to MSR_KERNEL_GS_BASE.
def writeKernelGs (v : Nat) : Need → Need
  | .kernelGs => if v = scratch then .nothing else .never
  | n => n

def Met (gs kernelGs : Nat) : Need → Prop
  | .nothing => True
  | .gs => gs = scratch
  | .kernelGs => kernelGs = scratch
  | .never => False

end Need

def need : List Op → Need
  | [] => .nothing
  | .swapgs :: c => (need c).swap
  | .movGs :: c => (need c).writeGs
  | .wrGs _ :: c => (need c).writeGs
  | .wrTaskGs :: c => (need c).writeGs
  | .wrKernelGs v :: c => (need c).writeKernelGs scratch v
  | .iretq f :: c => if f.user then .kernelGs else need c
  | .sysret _ :: _ => .kernelGs
  | _ :: c => need c

-- The instructions that leave the GS base as it is and stay in the kernel.
def Op.isPlain : Op → Bool
  | .cli => true
  | .sti => true
  | .call => true
  | .dispatch => true
  | .iretq f => !f.user
  | _ => false

-- Code that needs MSR_KERNEL_GS_BASE is a first entry or runs with interrupts off.
def Placed (op : Op) (c : List Op) (ifl : Bool) : Prop :=
  (need scratch (op :: c) = .kernelGs →
    Entering scratch (op :: c) ∨ (ifl = false ∧ op.isCall = false)) ∧
  (need scratch (op :: c) = .nothing → ¬ Entering scratch (op :: c) →
    op.isPlain = true ∨ Entering scratch c)

def Ordered : List Op → Bool → Prop
  | [], _ => False
  | op :: c, ifl =>
    Placed scratch op c ifl ∧
    match op with
    | .cli => Ordered c false
    | .sti => Ordered c true
    | .iretq f => if f.user then c = [] else Ordered c f.ifl
    | .sysret _ => c = []
    | .call => c = [] ∨ Ordered c ifl
    | .dispatch => c = [] ∨ Ordered c ifl
    | _ => Ordered c ifl

section Code

variable {scratch : Nat} {op : Op} {c : List Op} {i : Bool} {n : Need} {g k : Nat}

@[simp]
theorem entering_iretq : Entering scratch (.iretq ⟨false, i⟩ :: c) ↔ Entering scratch c := by
  simp only [Entering, below]

@[simp]
theorem entering_trap : Entering scratch (.call :: .iretq ⟨false, i⟩ :: c) ↔ Entering scratch c := by
  simp only [Entering, below]

theorem need_call (h : op.isCall = true) : need scratch (op :: c) = need scratch c := by
  cases op <;> simp_all [Op.isCall, need]

section

variable (h : Ordered scratch (op :: c) i)
include h

theorem Ordered.placed : Placed scratch op c i := by
  unfold Ordered at h
  exact h.1

theorem Ordered.call (hop : op.isCall = true) (hc : c ≠ []) : Ordered scratch c i := by
  cases op <;> simp_all [Op.isCall, Ordered]

theorem Ordered.need_ne (hi : i = true ∨ op.isCall = true) (hidle : ¬ Entering scratch (op :: c)) :
    need scratch (op :: c) ≠ .kernelGs := by
  intro hneed
  rcases h.placed.1 hneed with hent | ⟨hif, hcall⟩
  · exact hidle hent
  · rcases hi with hi | hi <;> simp_all

theorem Ordered.trap (hi : i = true ∨ op.isCall = true) :
    Ordered scratch (.call :: .iretq ⟨false, i⟩ :: op :: c) false := by
  have hin : Ordered scratch (.iretq ⟨false, i⟩ :: op :: c) false := by
    refine ⟨⟨fun _ => .inr ⟨rfl, rfl⟩, fun _ _ => .inl rfl⟩, ?_⟩
    exact h
  refine ⟨⟨fun hneed => .inl ?_, fun _ _ => .inl rfl⟩, .inr hin⟩
  by_contra hidle
  exact h.need_ne hi hidle hneed

end

theorem ordered_isrCommon_user (f : Bool) :
    Ordered scratch (isrCommon ⟨true, f⟩) false ∧ need scratch (isrCommon ⟨true, f⟩) = .kernelGs := by
  simp [isrCommon, Ordered, Placed, need, Need.swap, Op.isCall]

theorem ordered_syscallEntry (r11 : Bool) :
    Ordered scratch (syscallEntry r11) false ∧ need scratch (syscallEntry r11) = .kernelGs := by
  simp [syscallEntry, Ordered, Placed, need, Need.swap, Op.isCall]

theorem need_threadEntry (e : Entry) : need scratch (threadEntry scratch e) = .nothing := by
  cases e <;> simp [threadEntry, usermodeEnter, usermodeEnterForkFrame, installUserGs, need,
    Need.writeGs, Need.writeKernelGs]

theorem entering_threadEntry (e : Entry) : ¬ Entering scratch (threadEntry scratch e) := by
  cases e <;> simp [threadEntry, Entering, below, usermodeEnter, usermodeEnterForkFrame,
    installUserGs, List.suffix_cons_iff]

theorem ordered_threadEntry (e : Entry) (i : Bool) : Ordered scratch (threadEntry scratch e) i := by
  cases e <;> simp [threadEntry, Ordered, Placed, Entering, below, usermodeEnter,
    usermodeEnterForkFrame, installUserGs, List.suffix_cons_iff, need, Need.writeGs,
    Need.writeKernelGs, Op.isPlain]

theorem Need.Met.swap (h : n.swap.Met scratch g k) : n.Met scratch k g := by
  cases n <;> simp_all [Need.swap, Need.Met]

theorem Need.Met.writeGs (h : n.writeGs.Met scratch g k) : n.Met scratch g' k := by
  cases n <;> simp_all [Need.writeGs, Need.Met]

theorem Need.Met.writeKernelGs (h : (n.writeKernelGs scratch v).Met scratch g k) : n.Met scratch g v := by
  cases n with
  | kernelGs =>
    unfold Need.writeKernelGs at h
    by_cases hv : v = scratch
    · exact hv
    · rw [if_neg hv] at h
      exact h.elim
  | _ => exact h

variable {t : Task} {cpu cpu' : Cpu}

theorem exec_kernel (he : execOp t cpu op = some cpu') (hk : cpu.user = false)
    (h : (need scratch (op :: c)).Met scratch cpu.gs cpu.kernelGs)
    (ho : Ordered scratch (op :: c) cpu.ifl) :
    (cpu'.user = true ∧ cpu'.kernelGs = scratch ∧ c = []) ∨
    (cpu'.user = false ∧ (need scratch c).Met scratch cpu'.gs cpu'.kernelGs ∧
      Ordered scratch c cpu'.ifl) := by
  cases op <;> cases he
  case sysret r11 => exact .inl ⟨rfl, h, ho.2⟩
  case iretq f =>
    obtain ⟨_ | _, ifl⟩ := f
    · exact .inr ⟨rfl, h, ho.2⟩
    · exact .inl ⟨rfl, h, ho.2⟩
  case cli | sti => exact .inr ⟨hk, h, ho.2⟩
  case swapgs => exact .inr ⟨hk, Need.Met.swap h, ho.2⟩
  case movGs | wrGs | wrTaskGs => exact .inr ⟨hk, Need.Met.writeGs h, ho.2⟩
  case wrKernelGs v => exact .inr ⟨hk, Need.Met.writeKernelGs h, ho.2⟩

theorem below_of_suffix
    (h : c <:+ (usermodeEnter scratch).tail ∨ c <:+ (usermodeEnterForkFrame scratch).tail) :
    below c = c := by
  simp only [usermodeEnter, usermodeEnterForkFrame, installUserGs, List.cons_append,
    List.nil_append, List.tail_cons, List.suffix_cons_iff, List.suffix_nil] at h
  rcases h with (h | h | h | h | h | h) | (h | h | h | h | h) <;> subst h <;> rfl

theorem Entering.exec (h : Entering scratch (op :: c)) (he : execOp t cpu op = some cpu') :
    Entering scratch c := by
  have hsuffix (hb : below (op :: c) = op :: c) : Entering scratch c := by
    unfold Entering at h
    rw [hb] at h
    have hc := h.imp (List.suffix_cons op c).trans (List.suffix_cons op c).trans
    unfold Entering
    rwa [below_of_suffix hc]
  cases op with
  | iretq f =>
    obtain ⟨user, ifl⟩ := f
    cases user with
    | true => exact hsuffix rfl
    | false => exact entering_iretq.1 h
  | call => cases he
  | _ => exact hsuffix rfl

theorem entering_call (hop : op.isCall = true) (h : Entering scratch (op :: c)) :
    Entering scratch c := by
  -- a first entry calls no C code, so the call is the one of an interrupt
  have hno (hb : below (op :: c) = op :: c) : Entering scratch c := by
    unfold Entering at h
    rw [hb] at h
    have hmem := h.imp (·.subset List.mem_cons_self) (·.subset List.mem_cons_self)
    cases op <;> simp_all [Op.isCall, usermodeEnter, usermodeEnterForkFrame, installUserGs]
  cases op with
  | call =>
    cases c with
    | nil => exact hno rfl
    | cons op' c' =>
      cases op' with
      | iretq f =>
        obtain ⟨_ | _, i⟩ := f
        · exact entering_iretq.2 (entering_trap.1 h)
        · exact hno rfl
      | _ => exact hno rfl
  | dispatch => exact hno rfl
  | _ => cases hop

theorem need_nothing (he : execOp t cpu op = some cpu') (hk : cpu'.user = false)
    (h : need scratch c = .nothing) : need scratch (op :: c) = .nothing := by
  cases op with
  | sysret r11 => cases he; cases hk
  | iretq f => cases he; simp_all [need]
  | _ => simp_all [need, Need.swap, Need.writeGs, Need.writeKernelGs]

theorem exec_quiet (he : execOp t cpu op = some cpu') (hk : cpu'.user = false)
    (ho : Ordered scratch (op :: c) cpu.ifl) (hneed : need scratch c = .nothing)
    (hidle : ¬ Entering scratch c) :
    need scratch (op :: c) = .nothing ∧ ¬ Entering scratch (op :: c) ∧ cpu'.gs = cpu.gs := by
  have hneed' := need_nothing he hk hneed
  have hidle' : ¬ Entering scratch (op :: c) := fun h => hidle (h.exec he)
  refine ⟨hneed', hidle', ?_⟩
  have hplain := (ho.placed.2 hneed' hidle').resolve_right hidle
  cases op <;> simp_all [Op.isPlain, execOp] <;> cases he <;> rfl

end Code

section Run

structure Parked (t : Task) : Prop where
  ordered : Ordered scratch t.code t.ifl
  idle : ¬ Entering scratch t.code
  call : ∃ op rest, t.code = op :: rest ∧ op.isCall = true
  possible : need scratch t.code ≠ .never

-- In user mode MSR_KERNEL_GS_BASE is the scratch area, in the kernel the bases are those the code needs. The
-- other tasks wait in C code.
structure Good (m : Machine) (t : Task) : Prop where
  here : m.task m.current = some t
  user : m.cpu.user = true → t.code = [] ∧ m.cpu.kernelGs = scratch
  ordered : m.cpu.user = false → Ordered scratch t.code m.cpu.ifl
  met : m.cpu.user = false → (need scratch t.code).Met scratch m.cpu.gs m.cpu.kernelGs
  quiet : m.cpu.user = false → ¬ Entering scratch t.code → need scratch t.code = .nothing →
    m.cpu.gs = scratch ∨
      ∀ j tj, j ≠ m.current → m.task j = some tj → need scratch tj.code = .nothing
  others : ∀ j tj, j ≠ m.current → m.task j = some tj → Parked scratch tj

variable {scratch} {m m' : Machine} {t next : Task}
variable {i g k : Nat} {cpu : Cpu} {c : List Op} {op : Op} {e : Move}

theorem setTask_other (h : j ≠ i) : (m.setTask i t).task j = m.task j :=
  update_of_ne h _ _

theorem setTask_self (i : Nat) : (m.setTask i t).task i = some t := update_self _ _ _

theorem Good.kernel (h : Good scratch m t) (hk : cpu.user = false)
    (ho : Ordered scratch c cpu.ifl) (hm : (need scratch c).Met scratch cpu.gs cpu.kernelGs)
    (hq : ¬ Entering scratch c → need scratch c = .nothing → cpu.gs = scratch ∨
      ∀ j tj, j ≠ m.current → m.task j = some tj → need scratch tj.code = .nothing) :
    Good scratch (m.goto t cpu c) { t with code := c } := by
  refine ⟨setTask_self _, fun hu => ?_, fun _ => ho, fun _ => hm, fun _ hidle hneed => ?_,
    fun j tj hj htj => ?_⟩
  · cases hk.symm.trans hu
  · refine (hq hidle hneed).imp_right fun hothers j tj hj htj => hothers j tj hj ?_
    rwa [← setTask_other hj]
  · refine h.others j tj hj ?_
    rwa [← setTask_other hj]

theorem Good.back (h : Good scratch m t) (hu : cpu.user = true)
    (hk : cpu.kernelGs = scratch) : Good scratch (m.goto t cpu []) { t with code := [] } := by
  have hno (hf : (m.goto t cpu []).cpu.user = false) : False := by
    cases hf.symm.trans hu
  refine ⟨setTask_self _, fun _ => ⟨rfl, hk⟩, fun hf => (hno hf).elim, fun hf => (hno hf).elim,
    fun hf => (hno hf).elim, fun j tj hj htj => h.others j tj hj ?_⟩
  rwa [← setTask_other hj]

-- A trap from user mode: its code begins with the `swapgs` that needs MSR_KERNEL_GS_BASE.
theorem Good.trap_user (h : Good scratch m t) (hu : m.cpu.user = true) (ho : Ordered scratch c false)
    (hc : need scratch c = .kernelGs) : Good scratch (m.trap t c) { t with code := c } := by
  refine h.kernel rfl ho ?_ fun _ hneed => ?_
  · rw [hc]
    exact (h.user hu).2
  · rw [hc] at hneed
    cases hneed

section

variable (h : Good scratch m t) (hk : m.cpu.user = false)
include h hk

theorem Good.trap_kernel (hc : t.code = op :: c) (hi : m.cpu.ifl = true ∨ op.isCall = true) :
    Good scratch (m.trap t (isrCommon ⟨false, m.cpu.ifl⟩ ++ op :: c))
      { t with code := isrCommon ⟨false, m.cpu.ifl⟩ ++ op :: c } := by
  obtain ⟨_, _, _⟩ := t
  cases hc
  exact h.kernel rfl ((h.ordered hk).trap hi) (h.met hk) (h.quiet hk)

theorem Good.exec (hc : t.code = op :: c) (he : execOp t m.cpu op = some cpu) :
    Good scratch (m.goto t cpu c) { t with code := c } := by
  obtain ⟨_, _, _⟩ := t
  cases hc
  rcases exec_kernel he hk (h.met hk) (h.ordered hk) with ⟨hu, hkgs, hnil⟩ | ⟨hk', hm', ho'⟩
  · subst hnil
    exact h.back hu hkgs
  refine h.kernel hk' ho' hm' fun hidle hneed => ?_
  obtain ⟨hneed', hidle', hgs⟩ := exec_quiet he hk' (h.ordered hk) hneed hidle
  rw [hgs]
  exact h.quiet hk hidle' hneed'

theorem Good.ret (hc : t.code = op :: c) (hop : op.isCall = true) (hne : c ≠ []) :
    Good scratch (m.goto t m.cpu c) { t with code := c } := by
  obtain ⟨_, _, _⟩ := t
  cases hc
  have hneed : need scratch (op :: c) = need scratch c := need_call hop
  refine h.kernel hk ((h.ordered hk).call hop hne) (hneed ▸ h.met hk) fun hidle hnone => ?_
  exact h.quiet hk (fun hent => hidle (entering_call hop hent)) (hneed.trans hnone)

theorem Good.spawn (hi : m.task i = none) (e : Entry) :
    Good scratch (m.setTask i ⟨threadEntry scratch e, true, t.gsBase⟩) t := by
  have hne : m.current ≠ i := by
    rintro rfl
    rw [h.here] at hi
    cases hi
  refine ⟨(setTask_other hne).trans h.here, h.user, h.ordered, h.met, fun _ hidle hneed => ?_,
    fun j tj hj htj => ?_⟩
  · refine (h.quiet hk hidle hneed).imp_right fun hothers j tj hj htj => ?_
    rcases of_update htj with ⟨-, rfl⟩ | ⟨-, htj⟩
    · exact need_threadEntry e
    · exact hothers j tj hj htj
  · rcases of_update htj with ⟨-, rfl⟩ | ⟨-, htj⟩
    · refine ⟨ordered_threadEntry e true, entering_threadEntry e, ?_, ?_⟩
      · cases e <;> exact ⟨_, _, rfl, rfl⟩
      · rw [need_threadEntry]
        simp
    · exact h.others j tj hj htj

end

theorem Parked.met {t : Task} (h : Parked scratch t)
    (hg : g = scratch ∨ need scratch t.code = .nothing) : (need scratch t.code).Met scratch g k := by
  obtain ⟨op, rest, hc, hop⟩ := h.call
  have ho := h.ordered
  have hidle := h.idle
  rw [hc] at ho hidle
  have hne := ho.need_ne (.inr hop) hidle
  rw [← hc] at hne
  cases hn : need scratch t.code with
  | nothing => trivial
  | gs => exact hg.resolve_right (by rw [hn]; simp)
  | kernelGs => exact absurd hn hne
  | never => exact absurd hn h.possible

section

variable (h : Good scratch m t) (hk : m.cpu.user = false) (hc : t.code = op :: c) (hop : op.isCall = true)
  (hidle : ¬ Entering scratch t.code)
include h hk hc hop hidle

theorem Good.settled :
    m.cpu.gs = scratch ∨ (need scratch t.code = .nothing ∧
      ∀ j tj, j ≠ m.current → m.task j = some tj → need scratch tj.code = .nothing) := by
  have ho := h.ordered hk
  have hm := h.met hk
  have hne : need scratch t.code ≠ .kernelGs := by
    rw [hc] at ho hidle ⊢
    exact ho.need_ne (.inr hop) hidle
  cases hn : need scratch t.code with
  | nothing => exact (h.quiet hk hidle hn).imp_right fun hothers => ⟨rfl, hothers⟩
  | gs =>
    rw [hn] at hm
    exact .inl hm
  | kernelGs => exact absurd hn hne
  | never =>
    rw [hn] at hm
    exact hm.elim

theorem Good.parked : Parked scratch { t with ifl := m.cpu.ifl } := by
  refine ⟨h.ordered hk, hidle, ⟨op, c, hc, hop⟩, fun hnever => ?_⟩
  have hm := h.met hk
  rw [hnever] at hm
  exact hm

theorem Good.switch (hi : i ≠ m.current) (hnext : m.task i = some next) :
    Good scratch (switchTo m t i next) next := by
  have hset := h.settled hk hc hop hidle
  have hparked := h.others i next hi hnext
  unfold switchTo
  rw [if_neg hi]
  refine ⟨(setTask_other hi).trans hnext, fun hu => ?_, fun _ => hparked.ordered, fun _ => ?_,
    fun _ _ _ => hset.imp_right ?_, fun j tj hj htj => ?_⟩
  · cases hk.symm.trans hu
  · exact hparked.met (hset.imp_right fun hall => hall.2 i next hi hnext)
  · rintro ⟨hneed, hothers⟩ j tj - htj
    rcases of_update htj with ⟨-, rfl⟩ | ⟨hj, htj⟩
    · exact hneed
    · exact hothers j tj hj htj
  · rcases of_update htj with ⟨-, rfl⟩ | ⟨hj, htj⟩
    · exact h.parked hk hc hop hidle
    · exact h.others j tj hj htj

end

-- In user mode the CPU loads a selector, or it enters the kernel by one of two ways.
theorem userStep_cases (hs : userStep m t e = some m') : m' = { m with cpu := { m.cpu with gs := 0 } } ∨
    ∃ c f, (c = isrCommon ⟨true, f⟩ ∨ c = syscallEntry f) ∧ m' = m.trap t (c ++ t.code) := by
  unfold userStep at hs
  cases e with
  | interrupt =>
    obtain ⟨-, hs⟩ := Option.ite_none_right_eq_some.1 hs
    cases hs
    exact .inr ⟨_, _, .inl rfl, rfl⟩
  | fault =>
    cases hs
    exact .inr ⟨_, _, .inl rfl, rfl⟩
  | syscall =>
    cases hs
    exact .inr ⟨_, _, .inr rfl, rfl⟩
  | userMovGs =>
    cases hs
    exact .inl rfl
  | _ => cases hs

theorem Good.userStep (h : Good scratch m t) (hu : m.cpu.user = true)
    (hs : userStep m t e = some m') : ∃ t', Good scratch m' t' := by
  rcases userStep_cases hs with rfl | ⟨c, f, hf, rfl⟩
  · have hno (hf : m.cpu.user = false) : False := absurd (hf.symm.trans hu) Bool.false_ne_true
    exact ⟨t, h.here, h.user, fun hf => (hno hf).elim, fun hf => (hno hf).elim,
      fun hf => (hno hf).elim, h.others⟩
  · rw [(h.user hu).1, List.append_nil]
    have hc : Ordered scratch c false ∧ need scratch c = .kernelGs := by
      rcases hf with rfl | rfl
      · exact ordered_isrCommon_user f
      · exact ordered_syscallEntry f
    exact ⟨_, h.trap_user hu hc.1 hc.2⟩

theorem Good.kernelStep (h : Good scratch m t) (hk : m.cpu.user = false)
    (hc : t.code = op :: c) (hd : Disciplined scratch m e)
    (hs : kernelStep scratch m t op c e = some m') : ∃ t', Good scratch m' t' := by
  unfold Arch.kernelStep at hs
  cases e with
  | exec =>
    obtain ⟨cpu, he, rfl⟩ := Option.map_eq_some_iff.1 hs
    exact ⟨_, h.exec hk hc he⟩
  | ret =>
    obtain ⟨⟨hop, hne⟩, hs⟩ := Option.ite_none_right_eq_some.1 hs
    cases hs
    exact ⟨_, h.ret hk hc hop hne⟩
  | interrupt =>
    obtain ⟨hi, hs⟩ := Option.ite_none_right_eq_some.1 hs
    cases hs
    have htrap := h.trap_kernel hk hc (.inl hi)
    rw [hi] at htrap
    exact ⟨_, htrap⟩
  | fault =>
    obtain ⟨hop, hs⟩ := Option.ite_none_right_eq_some.1 hs
    cases hs
    exact ⟨_, h.trap_kernel hk hc (.inr hop)⟩
  | archSetGs addr =>
    obtain ⟨-, hs⟩ := Option.ite_none_right_eq_some.1 hs
    cases hs
    have hsame : archSetGs m t addr = m := if_pos hd
    rw [hsame]
    exact ⟨t, h⟩
  | spawn i e =>
    obtain ⟨⟨-, hi⟩, hs⟩ := Option.ite_none_right_eq_some.1 hs
    cases hs
    exact ⟨t, h.spawn hk hi e⟩
  | switch i =>
    obtain ⟨hop, hs⟩ := Option.ite_none_right_eq_some.1 hs
    obtain ⟨next, hnext, rfl⟩ := Option.map_eq_some_iff.1 hs
    by_cases hi : i = m.current
    · refine ⟨t, ?_⟩
      unfold switchTo
      rw [if_pos hi]
      exact h
    · exact ⟨next, h.switch hk hc hop (hd t h.here) hi hnext⟩
  | _ => cases hs

theorem Good.step (h : Good scratch m t) (hd : Disciplined scratch m e)
    (hs : step scratch m e = some m') : ∃ t', Good scratch m' t' := by
  unfold Arch.step at hs
  rw [h.here] at hs
  by_cases hu : m.cpu.user = true
  · simp only [if_pos hu] at hs
    exact h.userStep hu hs
  have hk : m.cpu.user = false := Bool.eq_false_iff.2 hu
  simp only [if_neg hu] at hs
  cases hc : t.code with
  | nil =>
    rw [hc] at hs
    cases hs
  | cons op c =>
    rw [hc] at hs
    exact h.kernelStep hk hc hd hs

theorem boot_other {ifl : Bool} (hj : j ≠ 0) : (boot scratch bootCpu ifl).task j = none := by
  change update (fun _ => none) 0 (some (⟨[.call], ifl, 0⟩ : Task)) j = none
  rw [update_of_ne hj]

theorem boot_good (bootCpu : Nat) (ifl : Bool) :
    Good scratch (boot scratch bootCpu ifl) ⟨[.call], ifl, 0⟩ := by
  have hnone {j : Nat} {tj : Task} (hj : j ≠ 0)
      (htj : (boot scratch bootCpu ifl).task j = some tj) : False := by
    rw [boot_other hj] at htj
    cases htj
  exact ⟨rfl, fun hu => absurd hu Bool.false_ne_true, fun _ => ordered_threadEntry .kernel ifl,
    fun _ => trivial, fun _ _ _ => .inr fun j tj hj htj => (hnone hj htj).elim,
    fun j tj hj htj => (hnone hj htj).elim⟩

end Run

-- The steps of the machine, and those of the runs without the two hazards.
def Step (m : Machine) (e : Move) (m' : Machine) : Prop := step scratch m e = some m'

def DisciplinedStep (m : Machine) (e : Move) (m' : Machine) : Prop :=
  Disciplined scratch m e ∧ Step scratch m e m'

-- At CPL 3 MSR_KERNEL_GS_BASE is the scratch area, which every way into the kernel makes the GS base.
def KernelGs (m : Machine) : Prop :=
  m.cpu.user = true →
    m.cpu.kernelGs = scratch ∧
    ∀ e m' m'', m'.cpu.user = false → Step scratch m e m' → Step scratch m' .exec m'' →
      m''.cpu.gs = scratch

variable {m m' : Machine} {t : Task}

theorem userStep_swapgs {e : Move} (hu : m.cpu.user = true)
    (hs : userStep m t e = some m') (hk : m'.cpu.user = false) :
    m'.cpu.kernelGs = m.cpu.kernelGs ∧
      ∃ c, m'.task m'.current = some { t with code := .swapgs :: c } := by
  rcases userStep_cases hs with rfl | ⟨c, f, rfl | rfl, rfl⟩
  · cases hk.symm.trans hu
  · exact ⟨rfl, _, setTask_self _⟩
  · exact ⟨rfl, _, setTask_self _⟩

variable {scratch}

theorem exec_swapgs {c : List Op} (ht : m.task m.current = some { t with code := .swapgs :: c })
    (hk : m.cpu.user = false) (hs : Step scratch m .exec m') : m'.cpu.gs = m.cpu.kernelGs := by
  unfold Step step at hs
  rw [ht] at hs
  simp only [hk, Bool.false_eq_true, if_false] at hs
  cases hs
  rfl

theorem kernelGs_of_good (h : Good scratch m t) : KernelGs scratch m := by
  intro hu
  have hkgs := (h.user hu).2
  refine ⟨hkgs, fun e m' m'' hk hs hexec => ?_⟩
  have hstep : userStep m t e = some m' := by
    unfold Step step at hs
    rw [h.here] at hs
    simpa only [if_pos hu] using hs
  obtain ⟨hsame, c, ht⟩ := userStep_swapgs hu hstep hk
  rw [exec_swapgs ht hk hexec, hsame, hkgs]

theorem kernelGs_kept {bootCpu : Nat} {ifl : Bool} {l : List Move} {m : Machine}
    (h : Run (DisciplinedStep scratch) (boot scratch bootCpu ifl) l m) : KernelGs scratch m := by
  obtain ⟨t, hgood⟩ := h.invariant (I := fun m => ∃ t, Good scratch m t)
    ⟨_, boot_good bootCpu ifl⟩ fun m e m' ⟨t, hgood⟩ hs => hgood.step hs.1 hs.2
  exact kernelGs_of_good hgood

-- The boot task starts a task that gets to user mode, and the task makes a system call.
def firstCall : List Move :=
  [.spawn 1 .enter, .switch 1, .ret, .exec, .exec, .exec, .exec, .exec, .exec, .syscall, .exec,
    .exec]

def callEnd : List Move := [.ret, .exec, .ret, .exec, .exec]

def outcome (step : Machine → Move → Option Machine) (l : List Move) : Option (Bool × Nat) :=
  (l.foldlM step (boot 0xffffffff80100000 0xffffffff80200000 true)).map fun m =>
    (m.cpu.user, m.cpu.kernelGs)

theorem run_of_outcome {f : Machine → Move → Option Machine} {l : List Move} {u : Bool} {k : Nat}
    (h : outcome f l = some (u, k)) :
    ∃ m, Run (fun m e m' => f m e = some m') (boot 0xffffffff80100000 0xffffffff80200000 true) l m ∧
      m.cpu.user = u ∧ m.cpu.kernelGs = k := by
  obtain ⟨m, hm, hend⟩ := Option.map_eq_some_iff.1 h
  cases hend
  exact ⟨m, Run.of_foldlM hm, rfl, rfl⟩

theorem kernelGs_kept_call : ∃ m,
    Run (DisciplinedStep 0xffffffff80100000) (boot 0xffffffff80100000 0xffffffff80200000 true)
      (firstCall ++ callEnd) m ∧ m.cpu.user = true ∧ KernelGs 0xffffffff80100000 m := by
  have h : outcome (fun m e =>
      if Disciplined 0xffffffff80100000 m e then step 0xffffffff80100000 m e else none)
      (firstCall ++ callEnd) = some (true, 0xffffffff80100000) := by decide +kernel
  obtain ⟨m, hrun, hu, -⟩ := run_of_outcome h
  have hrun' : Run (DisciplinedStep 0xffffffff80100000)
      (boot 0xffffffff80100000 0xffffffff80200000 true) (firstCall ++ callEnd) m :=
    hrun.mono fun s e s' _ hs => Option.ite_none_right_eq_some.1 hs
  exact ⟨m, hrun', hu, kernelGs_kept hrun'⟩

-- The system call sets the GS base, or the task is switched out in its call for a task that is then
-- interrupted in its first entry.
theorem kernelGs_lost :
    (∃ m, Run (Step 0xffffffff80100000) (boot 0xffffffff80100000 0xffffffff80200000 true)
      (firstCall ++ [.archSetGs 0x1000] ++ callEnd) m ∧
        m.cpu.user = true ∧ m.cpu.kernelGs = 0x1000) ∧
    (∃ m, Run (Step 0xffffffff80100000) (boot 0xffffffff80100000 0xffffffff80200000 true)
      (firstCall ++ [.spawn 2 .enter, .switch 2, .ret, .exec, .interrupt, .switch 1] ++ callEnd) m ∧
        m.cpu.user = true ∧ m.cpu.kernelGs = 0) ∧
    (∃ m, Run (Step 0xffffffff80100000) (boot 0xffffffff80100000 0xffffffff80200000 true)
      (firstCall ++ [.spawn 2 .forkFrame, .switch 2, .ret, .exec, .exec, .interrupt, .switch 1] ++
        callEnd) m ∧ m.cpu.user = true ∧ m.cpu.kernelGs = 0) := by
  refine ⟨run_of_outcome ?_, run_of_outcome ?_, run_of_outcome ?_⟩ <;> decide +kernel

end Jnu.Arch
