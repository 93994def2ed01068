import Busybox.Lib.Ranges
import Busybox.Libbb.Decimal
import Busybox.Uuencode.Codec

/-!
# cut

A list of ranges is sorted by its starts. Bytes, fields and lines are then selected by a loop of
their own over the list.
-/

namespace Busybox.Coreutils.Cut

open Libbb.Xatonum (Text Refusal xatoiPositive)
open Uuencode (fgetline fgetline_length)

/-! ## The list -/

structure CutList where
  startpos : Nat
  endpos : Int
  deriving DecidableEq

def EOL : Int := 2 ^ 31 - 1
def NON_RANGE : Int := -1

/-- The text up to a delimiter, and what is behind it. -/
def strsep (delim : UInt8) (line : List UInt8) : List UInt8 × Option (List UInt8) :=
  (line.takeWhile (· ≠ delim),
    match line.dropWhile (· ≠ delim) with
    | [] => none
    | _ :: rest => some rest)

def number (text : Text) : Except Text Nat :=
  match xatoiPositive text with
  | .ok n => .ok n
  | .error refusal => .error refusal.message

/-- "get the start pos" -/
def getStart (ntok : Text) : Except Text Nat :=
  if ntok = [] then .ok 0
  else do
    let s ← number ntok
    -- "arrays are zero based, while the user expects the first char on the line to be char #1"
    return s - 1

/-- "get the end pos" -/
def getEnd (s : Nat) : Option Text → Except Text Int
  | none => .ok NON_RANGE
  | some [] => .ok EOL
  | some ltok => do
    let e ← number ltok
    -- an end position of 0 means "til the end of the line"
    let e : Int := (if e = 0 then EOL else e) - 1
    return if e = s then NON_RANGE else e

def parseRange (ltok : Text) : Except Text CutList := do
  let startpos ← getStart (strsep 45 ltok).1
  let endpos ← getEnd startpos (strsep 45 ltok).2
  return { startpos, endpos }

/-- "it's actually legal to pass an empty list" -/
def parseLists (sopt : Text) : Except Text (List CutList) :=
  ((sopt.splitOn 44).filter (· ≠ [])).mapM parseRange

/-- A sort by the starts; what it does with equal ones is its own business. -/
structure Qsort where
  sort : List CutList → List CutList
  perm : ∀ lists, (sort lists).Perm lists
  sorted : ∀ lists, (sort lists).Pairwise fun a b => a.startpos ≤ b.startpos

/-! ## Bytes -/

/-- What is marked in `printed`, and what is put out. -/
structure Output where
  printed : Nat → Bool := fun _ => false
  out : List UInt8 := []

def Output.mark (o : Output) (pos : Nat) : Nat → Bool := fun p => p == pos || o.printed p

def byteLoop (line : List UInt8) (endpos : Int) (spos : Nat) (o : Output) : Output :=
  if inLine : spos < line.length then
    let o := if o.printed spos then o
      else { printed := o.mark spos, out := o.out ++ [line.get ⟨spos, inLine⟩] }
    if endpos < (spos + 1 : Nat) then o else byteLoop line endpos (spos + 1) o
  else o
termination_by line.length - spos

def cutBytes (lists : List CutList) (line : List UInt8) : List UInt8 :=
  (lists.foldl (fun o list => byteLoop line list.endpos list.startpos o) {}).out ++ [10]

/-! ## Lines -/

/-- Whether the loop gets to the line from a position in a range. -/
def lineLoop (linenum : Int) (endpos : Int) (spos : Nat) (rest : List CutList) : Bool :=
  if spos < linenum then
    if endpos < (spos + 1 : Nat) ∨ endpos = NON_RANGE then
      match rest with
      | [] => false
      | next :: rest =>
        if linenum < next.startpos then false else lineLoop linenum next.endpos next.startpos rest
    else lineLoop linenum endpos (spos + 1) rest
  else true
termination_by (rest.length, (linenum - spos).toNat)

def lineSelected (lists : List CutList) (linenum : Nat) : Bool :=
  let linenum : Int := Int.bmod linenum (2 ^ 32)
  match lists with
  | [] => false
  | first :: rest =>
    if linenum < first.startpos then false else lineLoop linenum first.endpos first.startpos rest

/-! ## Fields -/

/-- The variables of the loop over the fields of a line; `line` is what `strsep` has left. -/
structure Fields where
  line : Option (List UInt8)
  ndelim : Int := -1
  nfieldsPrinted : Nat := 0
  field : Option (List UInt8) := none
  printed : Int → Bool := fun _ => false
  out : List UInt8 := []

/-- "find the field we're looking for" -/
def seek (delim : UInt8) (spos : Nat) (s : Fields) : Fields :=
  match s.line with
  | none => s
  | some line =>
    if s.ndelim < spos then
      seek delim spos { s with
        field := some (strsep delim line).1, line := (strsep delim line).2, ndelim := s.ndelim + 1 }
    else s
termination_by (spos - s.ndelim).toNat

/-- "we found it, and it hasn't been printed yet" -/
def printField (delim : UInt8) (spos : Nat) (s : Fields) : Fields :=
  match s.field with
  | some field =>
    if s.ndelim = spos ∧ s.printed s.ndelim = false then
      { s with
        out := s.out ++ (if 0 < s.nfieldsPrinted then [delim] else []) ++ field
        printed := fun p => p == s.ndelim || s.printed p
        nfieldsPrinted := s.nfieldsPrinted + 1 }
    else s
  | none => s

/-- The loop over a range, for as many rounds as it has positions. -/
def fieldLoop (delim : UInt8) (endpos : Int) (spos : Nat) (s : Fields) : Fields :=
  let s := printField delim spos (seek delim spos s)
  if (spos + 1 : Nat) ≤ endpos ∧ s.line.isSome ∧ endpos ≠ NON_RANGE then
    fieldLoop delim endpos (spos + 1) s
  else s
termination_by (endpos - spos).toNat

/-- The loop over the ranges, "for as long as we've got a line to process". -/
def fieldLists (delim : UInt8) (s : Fields) : List CutList → Fields
  | [] => s
  | list :: rest =>
    if s.line.isSome then
      fieldLists delim (fieldLoop delim list.endpos list.startpos s) rest
    else s

/-- `strchr` finds the NUL behind every line. -/
def cutFields (lists : List CutList) (delim : UInt8) (suppress : Bool) (line : List UInt8) :
    List UInt8 :=
  if delim ∈ line ∨ delim = 0 then (fieldLists delim { line := some line } lists).out ++ [10]
  else if suppress then []
  else line ++ [10]

/-! ## Files -/

inductive Mode
  | bytes
  | fields
  deriving DecidableEq

/-- The lines that `xmalloc_fgetline` returns; a newline or a NUL ends one. -/
def fgetlines : List UInt8 → List (List UInt8)
  | [] => []
  | ch :: stream => (fgetline (ch :: stream)).1 :: fgetlines (fgetline (ch :: stream)).2
termination_by stream => stream.length
decreasing_by exact fgetline_length ch stream

/-- A line and its number from 0 on, unless the size of `printed` is no `int`. -/
def cutLine (mode : Mode) (lists : List CutList) (delim : UInt8) (suppress : Bool)
    (line : List UInt8) (linenum : Nat) : Option (List UInt8) :=
  if 2 ^ 31 ≤ line.length + 1 then none
  else match mode with
    | .bytes => some (cutBytes lists line)
    | .fields =>
      if delim = 10 then some (if lineSelected lists linenum then line ++ [10] else [])
      else some (cutFields lists delim suppress line)

def cutFile (mode : Mode) (lists : List CutList) (delim : UInt8) (suppress : Bool)
    (stream : List UInt8) : Option (List UInt8) :=
  (((fgetlines stream).zipIdx).mapM fun (line, linenum) =>
    cutLine mode lists delim suppress line linenum).map List.flatten

/-- The options of a command line. -/
structure Options where
  mode : Option Mode
  list : Text
  delim : Option Text
  suppress : Bool

/-- `-d`, a tab if it is not given. -/
def getDelim : Option Text → Except Text UInt8
  | none => .ok 9
  | some [] => .ok 0
  | some [c] => .ok c
  | some _ => .error (ascii "the delimiter must be a single character")

/-- What is put out for the files, or the message on exit. -/
def cutMain (qsort : Qsort) (opt : Options) (files : List (List UInt8)) :
    Except Text (Option (List UInt8)) :=
  match opt.mode with
  | none => .error (ascii "expected a list of bytes, characters, or fields")
  | some mode => do
    let delim ← getDelim opt.delim
    if mode ≠ .fields ∧ opt.suppress then
      .error (ascii "suppressing non-delimited lines makes sense only when operating on fields")
    else if mode ≠ .fields ∧ delim ≠ 9 then
      .error (ascii "a delimiter may be specified only when operating on fields")
    else do
      let lists ← parseLists opt.list
      if lists = [] then .error (ascii "missing list of positions")
      else return (files.mapM (cutFile mode (qsort.sort lists) delim opt.suppress)).map List.flatten

end Busybox.Coreutils.Cut
