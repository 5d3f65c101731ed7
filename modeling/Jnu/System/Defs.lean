import Jnu.Lib.Trace
import Jnu.Mm.Boot
import Jnu.Mm.Clone
import Jnu.Mm.Fault

namespace Jnu.System

open Lib.Effect Lib.Refs Paging Pmm Mm

-- What the kernel is asked to do with address spaces, and what user code does in them.
inductive Call
  | createSpace
  | destroySpace (sp : Nat)
  | mapAnonymous (sp : Nat) (addr length : BitVec 64) (prot flags : BitVec 32)
  | munmap (sp : Nat) (addr length : BitVec 64)
  | mprotect (sp : Nat) (addr length : BitVec 64) (prot : BitVec 32)
  | cloneSpace (src : Nat)
  | lazyFault (sp va : Nat) (ec : FaultCode)
  | cowFault (sp va : Nat)
  | access (sp va : Nat) (acc : Access)

inductive Answer
  | done
  | space (sp : Option Nat)
  | addr (r : Nat)
  | reply (r : Reply)
  deriving DecidableEq, Repr

-- `vmm_handle_lazy_fault` with the VMA at the address.
def lazyFault (sp va : Nat) (ec : FaultCode) : KM Unit := do
  let a ← spaceOf sp
  match ← Prog.known (vmaFind a.vmas va) with
  | none => Prog.error .efault
  | some id =>
    onPhys (vmmHandleLazyFault a.pml4Phys (a.vmas.vma id) (va / pageSize * pageSize) ec)

def cowFault (sp va : Nat) : KM Unit := do
  let pml4 ← pml4Of sp
  onPhys (vmmHandleCowFault pml4 va)

def exec : Call → KM Answer
  | .createSpace => do
      let r ← vmmCreateSpace
      return .space r
  | .destroySpace sp => do
      vmmDestroySpace sp
      return .done
  | .mapAnonymous sp addr length prot flags => do
      let r ← vmmMapAnonymous sp addr.toNat length.toNat prot flags
      return .addr r
  | .munmap sp addr length => do
      sysMunmap (some sp) addr.toNat length.toNat
      return .done
  | .mprotect sp addr length prot => do
      sysMprotect (some sp) addr.toNat length.toNat prot
      return .done
  | .cloneSpace src => do
      let dst ← vmmCloneSpace src
      return .space (some dst)
  | .lazyFault sp va ec => do
      lazyFault sp va ec
      return .done
  | .cowFault sp va => do
      cowFault sp va
      return .done
  | .access sp va acc => do
      let r ← userAccess sp va acc
      return .reply r

-- A lazy fault is at a page that is not there, and a write fault goes on if the VMA may be written. User
-- code runs in a space that exists, and fewer than 65535 entries map one frame.
def Call.Valid (k : Kern) : Call → Prop
  | .createSpace => True
  | .destroySpace sp => k.space sp ≠ none
  | .mapAnonymous sp _ _ _ _ => k.space sp ≠ none
  | .munmap sp _ _ => k.space sp ≠ none
  | .mprotect sp _ _ _ => k.space sp ≠ none
  | .cloneSpace src => k.space src ≠ none ∧
      ∀ f, f ≠ zeroFrame k.phys → count (frameMap k.phys.mem k.roots) f < 65535
  | .lazyFault sp va _ => k.flags sp va ≠ none ∧ k.pte sp (va / pageSize) = none
  | .cowFault sp va => ∃ vf, k.flags sp va = some vf ∧ vf.write = true
  | .access sp va _ => k.space sp ≠ none ∧ va < userTop

def Call.Overflows (k : Kern) : Call → Prop
  | .mapAnonymous sp _ length _ flags => GapOverflow k sp length.toNat flags
  | _ => False

abbrev Event := Call × Except Errno Answer

def Step (k : Kern) (e : Event) (k' : Kern) : Prop :=
  e.1.Valid k ∧ (exec e.1).run k = some (.ok (e.2, k'))

def SafeStep (k : Kern) (e : Event) (k' : Kern) : Prop := ¬ e.1.Overflows k ∧ Step k e k'

end Jnu.System
