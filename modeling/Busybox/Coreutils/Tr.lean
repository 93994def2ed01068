import Busybox.Lib.Fallible
import Busybox.Libbb.Xatonum
import Mathlib.Logic.Function.Basic

/-!
# tr

`expand` reads a string into a buffer, and every store into it is checked here against the size
allocated. The buffers are then used again for what is read and what is written.
-/

namespace Busybox.Coreutils.Tr

open Fallible (bind_eq_ok)
open Libbb.Xatonum (Text)
open Libbb.EscapeSequence (processEscapeSequence processEscapeSequence_length)

def ASCII : Nat := 256

/-- `BUFSIZ` of the C library. -/
def BUFSIZ : Nat := 8192

def TR_BUFSIZ : Nat := if ASCII * 2 < BUFSIZ then BUFSIZ else ASCII * 2

inductive Failure
  | overrun
  | usage
  | message (text : Text)
  -- with what has been written until then
  | readError (written : List UInt8)
  deriving DecidableEq

/-! ## The buffer -/

structure Buffer where
  mem : Nat → UInt8 := fun _ => 0
  size : Nat := TR_BUFSIZ
  pos : Nat := 0

def Buffer.content (b : Buffer) : List UInt8 := (List.range b.pos).map b.mem

def Buffer.store (b : Buffer) (index : Nat) (c : UInt8) : Except Failure Buffer :=
  if index < b.size then .ok { b with mem := Function.update b.mem index c } else .error .overrun

/-- `buffer[pos++] = c` -/
def Buffer.put (c : UInt8) (b : Buffer) : Except Failure Buffer := do
  let b ← b.store b.pos c
  return { b with pos := b.pos + 1 }

def Buffer.grow (b : Buffer) : Buffer :=
  if b.size < b.pos + ASCII then { b with size := b.size + ASCII } else b

/-- The loop from `i` up to `last`. -/
def putRange (i last : Nat) (b : Buffer) : Except Failure Buffer :=
  if i ≤ last then do
    let b ← b.put (UInt8.ofNat i)
    putRange (i + 1) last b
  else .ok b
termination_by last + 1 - i

/-! ## Classes -/

inductive Class
  | alpha
  | alnum
  | digit
  | lower
  | upper
  | space
  | blank
  | punct
  | cntrl
  | xdigit
  deriving DecidableEq

def classes : List (Text × Class) :=
  [(ascii "alpha:]", .alpha), (ascii "alnum:]", .alnum), (ascii "digit:]", .digit),
    (ascii "lower:]", .lower), (ascii "upper:]", .upper), (ascii "space:]", .space),
    (ascii "blank:]", .blank), (ascii "punct:]", .punct), (ascii "cntrl:]", .cntrl),
    (ascii "xdigit:]", .xdigit)]

/-- `index_in_strings` -/
def indexInStrings (tmp : Text) : Option Class :=
  (classes.find? fun (string, _) => string == tmp).map Prod.snd

def isprintAsciionly (ch : UInt8) : Bool := 0x20 ≤ ch && ch ≤ 0x7e
def isalnum (ch : UInt8) : Bool :=
  ch - 48 ≤ 9 || (ch ||| 0x20) - 97 ≤ 25
def isspace (ch : UInt8) : Bool := ch - 9 == 23 || ch - 9 ≤ 4
def iscntrl (ch : UInt8) : Bool := ch < 32 || ch == 0x7f

/-- The characters from `i` on that pass a test. -/
def putSome (p : UInt8 → Bool) (i : Nat) (b : Buffer) : Except Failure Buffer :=
  if i < ASCII then do
    let b ← (if p (UInt8.ofNat i) then b.put (UInt8.ofNat i) else .ok b)
    putSome p (i + 1) b
  else .ok b
termination_by ASCII - i

/-- The small letters are stored behind the capital ones, of which `pos` gets to the end. -/
def putHex (i : Nat) (b : Buffer) : Except Failure Buffer :=
  if i ≤ 70 then do
    let b ← b.store (b.pos + 6) (UInt8.ofNat i ||| 0x20)
    let b ← b.put (UInt8.ofNat i)
    putHex (i + 1) b
  else .ok b
termination_by 71 - i

def putXdigit (b : Buffer) : Except Failure Buffer := do
  let b ← putHex 65 b
  return { b with pos := b.pos + 6 }

def putLines (b : Buffer) : Except Failure Buffer := do
  let b ← b.put 10
  let b ← b.put 11
  let b ← b.put 12
  b.put 13

def putSpaces (j : Class) (b : Buffer) : Except Failure Buffer := do
  let b ← b.put 9
  let b ← (if j = .space then putLines b else .ok b)
  b.put 32

def putClass (j : Class) (b : Buffer) : Except Failure Buffer := do
  let b ← (if j = .alnum ∨ j = .digit ∨ j = .xdigit then putRange 48 57 b else .ok b)
  let b ← (if j = .alpha ∨ j = .alnum ∨ j = .upper then putRange 65 90 b else .ok b)
  let b ← (if j = .alpha ∨ j = .alnum ∨ j = .lower then putRange 97 122 b else .ok b)
  let b ← (if j = .space ∨ j = .blank then putSpaces j b else .ok b)
  let b ← (if j = .punct ∨ j = .cntrl then
    putSome (fun i => (decide (j = .punct) && isprintAsciionly i && !isalnum i && !isspace i) ||
      (decide (j = .cntrl) && iscntrl i)) 0 b
  else .ok b)
  if j = .xdigit then putXdigit b else .ok b

/-! ## A string -/

/-- `*arg` and what is behind it, with an escape sequence replaced by its character. -/
def unescaped (c : UInt8) (arg : Text) : UInt8 × Text :=
  if c = 92 then processEscapeSequence arg else (c, arg)

/-- A bracket, with what is behind it. -/
def bracket (arg : Text) (b : Buffer) : Except Failure (Text × Buffer) :=
  match arg with
  | 58 :: arg =>
    let i := 7 + if arg.head? = some 120 then 1 else 0
    match indexInStrings (arg.take i) with
    | none => do
      let b ← b.put 91
      return (58 :: arg, b)
    | some j => do
      let b ← putClass j b
      return (arg.drop i, b)
  | 61 :: arg => do
    let b ← b.put (arg.headD 0)
    match arg with
    | _ :: 61 :: 93 :: arg => return (arg, b)
    | _ => .error .usage
  | arg => do
    -- "The rest of "[xyz..." cases is treated as normal string"
    let b ← b.put 91
    return (arg, b)

/-- One round of the loop, at a character and what is behind it. -/
def expandItem (c : UInt8) (arg : Text) (b : Buffer) : Except Failure (Text × Buffer) :=
  match arg with
  | [45] => do
    -- "0-": copy verbatim
    let b ← b.put c
    return ([45], b)
  | 45 :: ac :: arg => do
    let (ac, arg) := unescaped ac arg
    let b ← putRange c.toNat ac.toNat b
    return (arg, b)
  | arg =>
    if c = 91 then bracket arg b
    else do
      let b ← b.put c
      return (arg, b)

theorem unescaped_length (c : UInt8) (arg : Text) : (unescaped c arg).2.length ≤ arg.length := by
  unfold unescaped
  split
  · exact processEscapeSequence_length arg
  · exact Nat.le_refl _

theorem bracket_length {arg rest : Text} {b b' : Buffer}
    (turn : bracket arg b = .ok (rest, b')) : rest.length ≤ arg.length := by
  unfold bracket at turn
  split at turn
  case h_1 arg =>
    simp only at turn
    split at turn
    case h_1 =>
      obtain ⟨_, -, last⟩ := bind_eq_ok.mp turn
      cases last
      exact Nat.le_refl _
    case h_2 =>
      obtain ⟨_, -, last⟩ := bind_eq_ok.mp turn
      cases last
      rw [List.length_drop, List.length_cons]
      omega
  case h_2 arg =>
    obtain ⟨_, -, last⟩ := bind_eq_ok.mp turn
    split at last
    · cases last
      simp only [List.length_cons]
      omega
    · cases last
  case h_3 =>
    obtain ⟨_, -, last⟩ := bind_eq_ok.mp turn
    cases last
    exact Nat.le_refl _

theorem expandItem_length {c : UInt8} {arg rest : Text} {b b' : Buffer}
    (turn : expandItem c arg b = .ok (rest, b')) : rest.length ≤ arg.length := by
  unfold expandItem at turn
  split at turn
  case h_1 =>
    obtain ⟨_, -, last⟩ := bind_eq_ok.mp turn
    cases last
    exact Nat.le_refl _
  case h_2 ac arg =>
    obtain ⟨_, -, last⟩ := bind_eq_ok.mp turn
    cases last
    exact (unescaped_length ac arg).trans (by simp only [List.length_cons]; omega)
  case h_3 =>
    split at turn
    · exact bracket_length turn
    · obtain ⟨_, -, last⟩ := bind_eq_ok.mp turn
      cases last
      exact Nat.le_refl _

def expandLoop (arg : Text) (b : Buffer) : Except Failure Buffer :=
  match arg with
  | [] => .ok b
  | c :: arg =>
    match _turn : expandItem (unescaped c arg).1 (unescaped c arg).2 b.grow with
    | .error failure => .error failure
    | .ok (rest, b) => expandLoop rest b
termination_by arg.length
decreasing_by
  exact Nat.lt_succ_of_le ((expandItem_length _turn).trans (unescaped_length c arg))

/-- An argument is so short that the sizes do not wrap. -/
def expand (arg : Text) : Except Failure (List UInt8) := do
  let b ← expandLoop arg {}
  return b.content

/-! ## The sets -/

/-- `complement`, the characters in their order. -/
def complement (buffer : List UInt8) : List UInt8 :=
  ((List.range ASCII).map UInt8.ofNat).filter fun ch => !buffer.contains ch

/-- `map`, with the last character of the second string. -/
def mapFrom (last : UInt8) (pvector : UInt8 → UInt8) : List UInt8 → List UInt8 → UInt8 → UInt8
  | [], _ => pvector
  | c :: string1, [] => mapFrom last (Function.update pvector c last) string1 []
  | c :: string1, d :: string2 => mapFrom d (Function.update pvector c d) string1 string2

def map (pvector : UInt8 → UInt8) (string1 string2 : List UInt8) : UInt8 → UInt8 :=
  mapFrom 48 pvector string1 string2

structure Tables where
  vector : UInt8 → UInt8
  invec : UInt8 → Bool
  outvec : UInt8 → Bool

structure Options where
  complement : Bool
  delete : Bool
  squeezeReps : Bool

/-! ## The input -/

/-- What a `read` returns. -/
abbrev Chunk := {text : List UInt8 // text ≠ [] ∧ text.length ≤ TR_BUFSIZ}

/-- The characters of a read; `last` and what is in `str2`. -/
def chunkLoop (opts : Options) (t : Tables) (last : Nat) (out : List UInt8) :
    List UInt8 → Except Failure (Nat × List UInt8)
  | [] => .ok (last, out)
  | c :: input =>
    let coded := t.vector c
    if opts.delete ∧ t.invec c then chunkLoop opts t last out input
    else if opts.squeezeReps ∧ last = coded.toNat ∧ (t.invec c ∨ t.outvec coded) then
      chunkLoop opts t last out input
    else if out.length < TR_BUFSIZ then chunkLoop opts t coded.toNat (out ++ [coded]) input
    else .error .overrun

/-- One read after another; one that fails is none. -/
def readLoop (opts : Options) (t : Tables) (last : Nat) (written : List UInt8) :
    List (Option Chunk) → Except Failure (List UInt8)
  | [] => .ok written
  | none :: _ => .error (.readError written)
  | some chunk :: reads => do
    let (last, out) ← chunkLoop opts t last [] chunk.1
    readLoop opts t last (written ++ out) reads

/-- `vector` and `str2`. -/
def pairing (str1 : List UInt8) :
    Option Text → Except Failure ((UInt8 → UInt8) × List UInt8)
  | none => .ok (id, [])
  | some [] => .error (.message (ascii "STRING2 cannot be empty"))
  | some string2 => do
    let str2 ← expand string2
    return (map id str1 str2, str2)

/-- What is written for the input. -/
def trMain (opts : Options) (string1 : Text) (string2 : Option Text) (reads : List (Option Chunk)) :
    Except Failure (List UInt8) := do
  let str1 ← expand string1
  let str1 := if opts.complement then complement str1 else str1
  let (vector, str2) ← pairing str1 string2
  -- "not equal to any char"
  readLoop opts ⟨vector, str1.contains, str2.contains⟩ 256 [] reads

end Busybox.Coreutils.Tr
