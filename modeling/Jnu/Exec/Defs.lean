import Jnu.Mm.Defs

namespace Jnu.Exec

open Lib.Effect Paging Pmm Mm

abbrev Byte := BitVec 8

-- `struct exec_image`. Another task may write the file between two calls of `read_at`, so what
-- a call returns depends on which call it is.
structure ExecImage where
  size : Nat
  readAt : Nat → Nat → Nat → Except Errno (List Byte)

-- The loader at work: the kernel, and how often the image has been read.
structure Loader where
  kern : Kern
  reads : Nat

abbrev LoadM := Prog Panic Errno Loader

def onKern (m : KM α) : LoadM α := m.zoom (fun l => l.kern) fun l k => { l with kern := k }

def leNat : List Byte → Nat
  | [] => 0
  | b :: bs => b.toNat + 256 * leNat bs

def field (bs : List Byte) (off len : Nat) : Nat := leNat ((bs.drop off).take len)

structure Elf64Ehdr where
  ident : List Byte
  type : Nat
  machine : Nat
  entry : Nat
  phoff : Nat
  phentsize : Nat
  phnum : Nat
  deriving DecidableEq, Repr

structure Elf64Phdr where
  type : Nat
  flags : Nat
  offset : Nat
  vaddr : Nat
  filesz : Nat
  memsz : Nat
  deriving DecidableEq, Repr

def ehdrSize : Nat := 64

def phdrSize : Nat := 56

def elf64Ehdr (bs : List Byte) : Elf64Ehdr where
  ident := bs.take 16
  type := field bs 16 2
  machine := field bs 18 2
  entry := field bs 24 8
  phoff := field bs 32 8
  phentsize := field bs 54 2
  phnum := field bs 56 2

def elf64Phdr (bs : List Byte) : Elf64Phdr where
  type := field bs 0 4
  flags := field bs 4 4
  offset := field bs 8 8
  vaddr := field bs 16 8
  filesz := field bs 32 8
  memsz := field bs 40 8

def ptLoad : Nat := 1

-- The bits `PF_X` and `PF_W` of `p_flags`.
def Elf64Phdr.exec (ph : Elf64Phdr) : Bool := ph.flags.testBit 0

def Elf64Phdr.write (ph : Elf64Phdr) : Bool := ph.flags.testBit 1

-- `memcmp(e_ident, "\x7fELF", 4)` and the bytes `EI_CLASS` and `EI_DATA`.
def identOk (ident : List Byte) : Bool := ident.take 6 == [0x7F#8, 0x45#8, 0x4C#8, 0x46#8, 2#8, 1#8]

def imageReadExact (image : ExecImage) (off len : Nat) : LoadM (List Byte) := do
  if off > image.size ∨ len > image.size - off then Prog.error .enoexec
  else
    let n ← Prog.read fun l => l.reads
    Prog.write fun l => { l with reads := n + 1 }
    match image.readAt n off len with
    | .error e => Prog.error e
    | .ok bs => if bs.length = len then return bs else Prog.error .enoexec

def userRange (start len : Nat) : Option Nat :=
  let e := wrap64 (start + len)
  if len = 0 ∨ e < start then none
  else if start < 0x1000 ∨ start ≥ userTop ∨ e > userTop then none
  else some e

structure ExecLoadInfo where
  entry : Nat
  low : Nat
  high : Nat
  deriving DecidableEq, Repr

-- The variables of the loop in `elf64_validate_image`.
structure Validation where
  low : Nat
  high : Nat
  loads : Nat
  entryInExec : Bool

def ehdrOk (eh : Elf64Ehdr) : Bool :=
  identOk eh.ident && eh.type == 2 && eh.machine == 62 && eh.phentsize == phdrSize && eh.phnum != 0

-- One program header. `none`: it is refused.
def validatePhdr (size entry : Nat) (ph : Elf64Phdr) (v : Validation) : Option Validation :=
  if ph.type ≠ ptLoad then some v
  else if ph.filesz > ph.memsz ∨ ph.offset > size ∨ ph.filesz > size - ph.offset ∨
      (ph.exec ∧ ph.write) then none
  else
    match userRange ph.vaddr ph.memsz with
    | none => none
    | some e => some {
        low := if ph.vaddr < v.low then ph.vaddr else v.low
        high := if e > v.high then e else v.high
        loads := v.loads + 1
        entryInExec := v.entryInExec || (ph.exec && decide (entry ≥ ph.vaddr ∧ entry < e)) }

-- The program headers from number `i` on, `n` of them.
def validateLoop (image : ExecImage) (eh : Elf64Ehdr) : Nat → Nat → Validation → LoadM Validation
  | 0, _, v => return v
  | n + 1, i, v => do
      let bs ← imageReadExact image (wrap64 (eh.phoff + i * phdrSize)) phdrSize
      match validatePhdr image.size eh.entry (elf64Phdr bs) v with
      | none => Prog.error .enoexec
      | some v => validateLoop image eh n (i + 1) v

def elf64ValidateImage (image : ExecImage) : LoadM ExecLoadInfo := do
  let bs ← imageReadExact image 0 ehdrSize
  let eh := elf64Ehdr bs
  if ehdrOk eh = false then Prog.error .enoexec
  else if eh.phoff > image.size ∨ eh.phnum > (image.size - eh.phoff) / phdrSize then
    Prog.error .enoexec
  else
    let v ← validateLoop image eh eh.phnum 0 ⟨userTop, 0, 0, false⟩
    if v.loads = 0 ∨ v.entryInExec = false then Prog.error .enoexec
    else return ⟨eh.entry, v.low, v.high⟩

def pageDown (v : Nat) : Nat := v / pageSize * pageSize

def pageUp (v : Nat) : Nat := pageAlignUp v

def chunkLen (va len : Nat) : Nat := min (pageSize - va % pageSize) len

theorem chunkLen_pos {v len : Nat} (h : 0 < len) : 0 < chunkLen v len := by
  unfold chunkLen
  have : v % pageSize < pageSize := Nat.mod_lt _ (by decide)
  omega

def writeToSpace (pml4 va : Nat) (src : List Byte) : PhysM Unit :=
  if _h : src = [] then return
  else do
    let n := chunkLen va src.length
    let pte ← pagingGetFlags pml4 va
    Prog.write fun s =>
      { s with mem := copyTo s.mem (pteAddr pte + va % pageSize) (src.take n) }
    writeToSpace pml4 (wrap64 (va + n)) (src.drop n)
  termination_by src.length
  decreasing_by
    have hpos := List.length_pos_iff.2 _h
    have := chunkLen_pos (v := va) hpos
    simp only [List.length_drop]
    omega

def vmaToPteFlags (f : VmaFlags) : BitVec 64 :=
  let pte := 0#64
  let pte := if f.write then pte ||| pteWrite else pte
  let pte := if f.user then pte ||| pteUser else pte
  if f.exec then pte else pte ||| pteNx

def vmmMap (pml4 virt phys pages : Nat) (flags : VmaFlags) : PhysM Unit :=
  pagingMap pml4 virt phys pages (vmaToPteFlags flags)

def vmmProtect (pml4 virt pages : Nat) (newFlags : VmaFlags) : PhysM Unit :=
  pagingProtect pml4 virt pages (vmaToPteFlags newFlags)

-- `VMA_READ | VMA_WRITE | VMA_USER`.
def rwUser : VmaFlags := ⟨true, true, false, true⟩

def materialisePage (pml4 va : Nat) : PhysM Unit := do
  let pa ← PhysM.allocUserPage
  if pa = 0 then Prog.error .enomem
  else
    match ← (vmmMap pml4 va pa 1 rwUser).attempt with
    | .ok _ => return
    | .error e =>
      PhysM.putUserPage pa
      Prog.error e

def materialisePages (pml4 start stop : Nat) : PhysM Unit :=
  Prog.forRange (fun i => materialisePage pml4 (start + i * pageSize)) (pagesIn start stop)

def protRW : BitVec 32 := protRead ||| protWrite

def fixedAnonymous : BitVec 32 := mapFixed ||| mapPrivate ||| mapAnonymous

def segmentFlags (ph : Elf64Phdr) : VmaFlags := ⟨true, ph.write, ph.exec, true⟩

def copyFile (sp : Nat) (image : ExecImage) (fileOff currVa remaining : Nat) : LoadM Unit :=
  if _h : remaining = 0 then return
  else do
    let chunk := if remaining > pageSize then pageSize else remaining
    let bs ← imageReadExact image fileOff chunk
    let pml4 ← onKern (pml4Of sp)
    onKern (onPhys (writeToSpace pml4 currVa bs))
    copyFile sp image (wrap64 (fileOff + chunk)) (wrap64 (currVa + chunk)) (remaining - chunk)
  termination_by remaining
  decreasing_by
    have : 0 < pageSize := by decide
    split <;> omega

-- `seg_vma->flags = final_flags`.
def setSegmentFlags (sp start : Nat) (flags : VmaFlags) : KM Unit := do
  let t ← vmasOf sp
  match ← Prog.known (vmaFind t start) with
  | none => return
  | some id => setVmas sp (t.setFlags id flags)

def loadSegment (sp : Nat) (image : ExecImage) (ph : Elf64Phdr) : LoadM Unit := do
  let start := pageDown ph.vaddr
  let stop := pageUp (wrap64 (ph.vaddr + ph.memsz))
  let _ ← onKern (vmmMapAnonymous sp start (sub64 stop start) protRW fixedAnonymous)
  let pml4 ← onKern (pml4Of sp)
  onKern (onPhys (materialisePages pml4 start stop))
  copyFile sp image ph.offset ph.vaddr ph.filesz
  onKern (onPhys (vmmProtect pml4 start (sub64 stop start / pageSize) (segmentFlags ph)))
  onKern (setSegmentFlags sp start (segmentFlags ph))

def loadLoop (sp : Nat) (image : ExecImage) (eh : Elf64Ehdr) : Nat → Nat → LoadM Unit
  | 0, _ => return
  | n + 1, i => do
      let bs ← imageReadExact image (wrap64 (eh.phoff + i * phdrSize)) phdrSize
      let ph := elf64Phdr bs
      if ph.type = ptLoad then loadSegment sp image ph
      loadLoop sp image eh n (i + 1)

def elf64LoadImage (sp : Nat) (image : ExecImage) : LoadM ExecLoadInfo := do
  let info ← elf64ValidateImage image
  let bs ← imageReadExact image 0 ehdrSize
  let eh := elf64Ehdr bs
  loadLoop sp image eh eh.phnum 0
  return info

end Jnu.Exec
