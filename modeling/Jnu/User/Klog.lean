import Mathlib

namespace Jnu.User.Klog

-- A byte of the log, and whether a user process gave it.
abbrev Cell := Char × Bool

inductive Level
  | panic
  | err
  | warn
  | info
  | debug

def levelTag : Level → String
  | .panic => "PANIC"
  | .err => "ERROR"
  | .warn => "WARN "
  | .info => "INFO "
  | .debug => "DEBUG"

def ringSize : Nat := 64 * 1024

def writeChunk : Nat := 128

def fmtUint (width : Nat) (fill : Char) (n : Nat) : List Char :=
  List.replicate (width - (Nat.toDigits 10 n).length) fill ++ Nat.toDigits 10 n

-- `[%5lu.%06lu] %s `
def header (us : Nat) (level : Level) : List Char :=
  '[' :: fmtUint 5 ' ' (us / 1000000) ++ '.' :: fmtUint 6 '0' (us % 1000000) ++ "] ".toList ++
    (levelTag level).toList ++ [' ']

-- What `vprintk` puts into its buffer of 1024 bytes: a string that ends with a newline.
def printkLine (us : Nat) (level : Level) (body : List Char) : List Char :=
  let line := ((header us level ++ body).take 1023).takeWhile (· ≠ '\x00')
  if line.getLast? = some '\n' then line else line.take 1022 ++ ['\n']

def sanitize (c : Char) : Char :=
  if c = '\n' ∨ c = '\t' then c else if c.toNat < 0x20 ∨ c.toNat = 0x7f then '.' else c

def userStart : List Char := "user[pid=".toList

def own (s : List Char) : List Cell := s.map (·, false)

def userPrefix (pid : Nat) : List Cell := own (userStart ++ (Nat.toDigits 10 pid ++ "]: ".toList))

-- `klog_user_write`: the prefix is in front of the first byte and of a byte behind a newline.
def klogUserWrite (pid : Nat) (first : Bool) : List Char → List Cell
  | [] => []
  | c :: rest => (if first then userPrefix pid else []) ++ (c, true) :: klogUserWrite pid (c = '\n') rest

-- `vprintk`, and one chunk in `sys_write`.
inductive Event
  | vprintk (us : Nat) (level : Level) (body : List Char)
  | write (pid : Nat) (buf : List Char) (h : buf.length ≤ writeChunk)

def Event.text : Event → List Cell
  | .vprintk us level body => own (printkLine us level body)
  | .write pid buf _ => klogUserWrite pid true (buf.map sanitize)

-- `ring_write` of one byte; the list starts with the oldest.
def ringWrite (r : List Cell) (x : Cell) : List Cell := (r ++ [x]).drop (r.length + 1 - ringSize)

def written (l : List Event) : List Cell := l.flatMap Event.text

def ring (l : List Event) : List Cell := (written l).foldl ringWrite []

def push (line : List Cell) (x : Cell) : List Cell := if line.length < 255 then line ++ [x] else line

def emit (line : List Cell) : List Cell → List (List Cell)
  | [] => if line = [] then [] else [line]
  | x :: r => if x.1 = '\n' then push line x :: emit [] r else emit (push line x) r

-- A line with a byte of a user starts like one of the user or with a header.
def Honest (line : List Cell) : Prop := (∃ x ∈ line, x.2 = true) →
  userStart <+: line.map Prod.fst ∨ ∃ us level, header us level <+: line.map Prod.fst

def Clean (line r : List Cell) : Prop := ∀ m ∈ emit line r, Honest m

def Begun (line : List Cell) : Prop := userStart <+: line.map Prod.fst

theorem push_start (line : List Cell) (x : Cell) : line <+: push line x := by
  unfold push
  split
  · exact List.prefix_append ..
  · exact List.prefix_rfl

section lines

variable {line r s : List Cell} {x : Cell} {m : List Cell} {k pid : Nat}

theorem Begun.push (h : Begun line) : Begun (push line x) := h.trans ((push_start line x).map _)

theorem Honest.push {c : Char} (h : Honest line) : Honest (push line (c, false)) := by
  rintro ⟨x, hx, hu⟩
  have hline : x ∈ line := by
    unfold Klog.push at hx
    split at hx
    · rcases List.mem_append.1 hx with hx | hx
      · exact hx
      · rw [List.mem_singleton.1 hx] at hu
        cases hu
    · exact hx
  have hstart := (push_start line (c, false)).map Prod.fst
  exact (h ⟨x, hline, hu⟩).imp (·.trans hstart) fun ⟨us, level, hp⟩ => ⟨us, level, hp.trans hstart⟩

theorem clean_cons (hx : x.1 ≠ '\n') : Clean line (x :: r) ↔ Clean (push line x) r := by
  rw [Clean, emit, if_neg hx]
  rfl

theorem Begun.text (h : Begun line) (hs : ∀ x ∈ s, x.1 ≠ '\n') (hr : ∀ line, Begun line → Clean line r) :
    Clean line (s ++ r) := by
  induction s generalizing line with
  | nil => exact hr line h
  | cons x s ih =>
    rw [List.cons_append, clean_cons (hs x (by simp))]
    exact ih h.push fun y hy => hs y (by simp [hy])

end lines

-- The start of the oldest line is overwritten: the last byte that went is not a newline.
def Cut (l : List Event) : Prop :=
  ∃ x ∈ ((written l).take ((written l).length - ringSize)).getLast?, x.1 ≠ '\n'

-- 513 lines of 128 bytes: the first is overwritten, and the others are whole.
def wrapActs : List Event :=
  List.replicate 513 (.write 1 (List.replicate 114 'x' ++ ['\n']) (by decide))

end Jnu.User.Klog
