import Mathlib.Data.List.Basic
import Mathlib.Tactic.Common

/-!
# The records of `awk`

`awk_getline` of `editors/awk.c`, where `RS` is one character, or empty for paragraphs. A buffer is
all of its bytes, and `none` is an access outside of it.
-/

namespace Busybox.Awk

abbrev Buffer := List UInt8

/-! ## Strings of the buffer -/

/-- `strchr`, in a string that ends in the buffer. -/
def strchr (c : UInt8) : Buffer → Option (Option Nat)
  | [] => none
  | x :: b => if x = c then some (some 0) else if x = 0 then some none
    else return (← strchr c b).map (· + 1)

/-- `memchr(b, '\0', n)` of these `n` bytes. -/
def memchr (b : List UInt8) : Option Nat := b.findIdx? (· = 0)

/-- `while (b[i] == '\n') i++` -/
def newlines : Buffer → Option Nat
  | [] => none
  | x :: b => if x = 10 then return (← newlines b) + 1 else some 0

/-- `strstr(b, "\n\n")` -/
def strstr : Buffer → Option (Option Nat)
  | [] => none
  | [x] => if x = 0 then some none else none
  | x :: y :: b =>
    if x = 0 then some none
    else if x = 10 ∧ y = 10 then some (some 0)
    else return (← strstr (y :: b)).map (· + 1)

/-- The string at an offset, if the byte at `stop` is a NUL meanwhile. -/
def stringUntil (b : Buffer) (start stop : Nat) : Option (List UInt8) :=
  if stop < b.length then some (((b.set stop 0).drop start).takeWhile (· ≠ 0)) else none

/-! ## One record -/

/-- What is still to be read, and how many reads there were. A read gets as many bytes as `splits`
says, or fewer. -/
structure Source where
  left : List UInt8
  reads : Nat

/-- The `rstream`; the size of the buffer is its length. -/
structure Rstream where
  buffer : Buffer
  adv : Nat
  pos : Nat
  source : Source

/-- The two offsets of the separator, and how many newlines are in front of the record. -/
structure Separator where
  so : Nat
  eo : Nat
  rp : Nat
  found : Bool

/-- One attempt to find the end of the record in what was read. -/
def search (rs : UInt8) (b : Buffer) (p pp rp : Nat) : Option Separator :=
  if p = 0 then some ⟨p, p, rp, false⟩
  else if rs ≠ 0 then do
    match (← strchr rs (b.drop pp)) <|> memchr ((b.drop pp).take (p - pp)) with
    | some s => return ⟨pp + s, pp + s + 1, rp, true⟩
    | none => return ⟨p, p, rp, false⟩
  else do
    let rp := rp + (← newlines (b.drop rp))
    match ← strstr (b.drop rp) with
    | some s =>
      let so := rp + s
      let eo := so + (← newlines (b.drop so))
      return ⟨so, eo, rp, (← b[eo]?) ≠ 0⟩
    | none => return ⟨p, p, rp, false⟩

/-- `memmove(m, m+a, p+1)` -/
def moveFront (m : Buffer) (a p : Nat) : Option Buffer :=
  if a = 0 then some m
  else if a + p + 1 ≤ m.length then
    some ((m.drop a).take (p + 1) ++ m.drop (p + 1))
  else none

variable (splits : Nat → Nat) (junk : UInt8)

/-- `qrealloc`; what is new in the buffer is not initialized. -/
def qrealloc (m : Buffer) (n : Nat) : Buffer :=
  if n ≥ m.length then m ++ List.replicate (n + n / 2 + 80 - m.length) junk else m

/-- `safe_read` -/
def read (source : Source) (len : Nat) : List UInt8 × Source :=
  let n := min len (splits source.reads + 1)
  (source.left.take n, ⟨source.left.drop n, source.reads + 1⟩)

/-- A read behind the `p` bytes that are there, and the NUL. -/
def fill (m : Buffer) (p : Nat) (chunk : List UInt8) : Option Buffer :=
  if p + chunk.length < m.length then
    some (m.take p ++ chunk ++ 0 :: m.drop (p + chunk.length + 1))
  else none

theorem read_lt {source : Source} {len : Nat} (some : (read splits source len).1 ≠ []) :
    (read splits source len).2.left.length < source.left.length := by
  have positive := List.length_pos_iff.mpr some
  simp only [read, List.length_take, List.length_drop] at positive ⊢
  omega

/-- The loop: the buffer, what it holds and the end of the record. -/
def readLoop (rs : UInt8) (rsm : Rstream) (pp rp : Nat) : Option (Rstream × Separator) := do
  let separator ← search rs (rsm.buffer.drop rsm.adv) rsm.pos pp rp
  if separator.found then some (rsm, separator)
  else do
    let m := qrealloc junk (← moveFront rsm.buffer rsm.adv rsm.pos) (rsm.pos + 128)
    let got := read splits rsm.source (m.length - rsm.pos - 1)
    let m ← fill m rsm.pos got.1
    if _nothing : got.1 = [] then some (⟨m, 0, rsm.pos, got.2⟩, separator)
    else readLoop rs ⟨m, 0, rsm.pos + got.1.length, got.2⟩ rsm.pos separator.rp
termination_by rsm.source.left.length
decreasing_by exact read_lt splits _nothing

/-- `awk_getline`: the record and `RT`, unless it returns 0. -/
def awkGetline (rs : UInt8) (rsm : Rstream) :
    Option (Option (List UInt8 × List UInt8) × Rstream) := do
  let buffer := if rsm.buffer = [] then qrealloc junk [] 256 else rsm.buffer
  let (rsm, separator) ← readLoop splits junk rs { rsm with buffer } 0 0
  let b := rsm.buffer.drop rsm.adv
  let rsm' := { rsm with adv := rsm.adv + separator.eo, pos := rsm.pos - separator.eo }
  if rsm.pos = 0 then return (none, rsm')
  else
    let record ← stringUntil b separator.rp separator.so
    let rt ← stringUntil b separator.so separator.eo
    return (some (record, rt), rsm')

/-- What a number of calls return, one after the other. -/
def calls (rs : UInt8) : Nat → Rstream → Option (List (Option (List UInt8 × List UInt8)))
  | 0, _ => some []
  | n + 1, rsm => do
    let (delivered, rsm) ← awkGetline splits junk rs rsm
    return delivered :: (← calls rs n rsm)

/-- A stream of which nothing was read yet. -/
def stream (input : List UInt8) : Rstream := ⟨[], 0, 0, ⟨input, 0⟩⟩

end Busybox.Awk
