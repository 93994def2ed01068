import Busybox.Libbb.GetLine
import Busybox.Libbb.Strtonum
import Busybox.Pwdgrp.Tokenize
import Busybox.Udhcp.Optval

/-!
# Looking up a record

`getpwnam` and its relatives in `libpwdgrp/pwd_grp.c` take the first record with the key, and turn
its fields into a structure in the block that holds them. Whether a field was what it should be is
reported by `errno` alone. Pointers are offsets of the block; nothing is read outside of it.
-/

namespace Busybox.Pwdgrp.Lookup

open Libbb.Strings Libbb.Strtonum Tokenize
open Udhcp.Optval (unsignedText)

abbrev Text := List UInt8

/-- The letters of `def`. -/
inductive Letter
  /-- `S` -/
  | stringNotEmpty
  /-- `s` -/
  | string
  /-- `I` -/
  | id
  /-- `l` -/
  | long
  /-- `m` -/
  | members
  /-- `r` -/
  | reserved
  deriving DecidableEq

/-- `struct const_passdb`. The members of the structure stand in the order of `def`. -/
structure Passdb where
  fields : List Letter
  sizeOf : Nat

/-- `"SsIIsss"` -/
def pwDb : Passdb := ⟨[.stringNotEmpty, .string, .id, .id, .string, .string, .string], 48⟩

/-- `"SsIm"` -/
def grDb : Passdb := ⟨[.stringNotEmpty, .string, .id, .members], 32⟩

/-- `"Ssllllllr"` -/
def spDb : Passdb :=
  ⟨[.stringNotEmpty, .string, .long, .long, .long, .long, .long, .long, .reserved], 72⟩

/-- A record in its buffer, up to `tokenize_end`, and `string_size`. -/
structure Record where
  buf : List UInt8
  stringSize : Nat

/-- The additional space for `members[]`. -/
def withMembers (db : Passdb) (buf : List UInt8) : Record :=
  if db.fields.length = grDb.fields.length then ⟨buf, buf.length + (3 + buf.count 44) * 8⟩
  else ⟨buf, buf.length⟩

/-- `parse_common`, over the lines that are read. -/
def parseCommon (db : Passdb) (key : Text) (fieldPos : Nat) : List Text → Option (Option Record)
  | [] => some none
  | buf :: lines =>
    -- Skip empty lines, comment lines
    if buf = [] ∨ buf.head? = some 35 then parseCommon db key fieldPos lines
    else do
      let tokens ← tokenize (buf ++ [0]) 58
      if tokens.numFields ≠ db.fields.length then parseCommon db key fieldPos lines
      else
        let field ← stringAt tokens.buffer (← nthString tokens.buffer 0 fieldPos)
        if key = field then return some (withMembers db (tokens.buffer.take tokens.tokenizeEnd))
        else parseCommon db key fieldPos lines

/-! ## The structure -/

/-- A member of the structure, in which strings are pointers. -/
inductive Member
  | string (p : Nat)
  | id (value : Int)
  | long (value : Int)
  | members (ps : List Nat)
  | reserved

/-- Where the strings stand, and how many bytes of the block there are from there on. -/
structure Block where
  address : Nat
  size : Nat

/-- The variables of `convert_to_struct`. -/
structure Conversion where
  cells : List UInt8
  buffer : Nat
  errno : Errno
  result : List Member

/-- `while (--i >= 0)`: the members that are not empty, and the pointer behind the last one. -/
def membersLoop (cells : List UInt8) : Nat → Nat → Option (List Nat × Nat)
  | 0, buffer => some ([], buffer)
  | i + 1, buffer => do
    let text ← stringAt cells buffer
    let (members, finish) ← membersLoop cells i (buffer + text.length + 1)
    return (if text ≠ [] then buffer :: members else members, finish)

/-- The array of so many pointers and a NULL, aligned behind the strings, lies in the block. -/
def Block.holds (block : Block) (tokenizeEnd count : Nat) : Bool :=
  (block.address + tokenizeEnd + 8) / 8 * 8 + (count + 1) * 8 ≤ block.address + block.size

def convertMembers (block : Block) (state : Conversion) : Option Conversion := do
  let tokens ← tokenize (state.cells.drop state.buffer) 44
  let cells := state.cells.take state.buffer ++ tokens.buffer
  let (members, buffer) ← membersLoop cells tokens.numFields state.buffer
  if block.holds (state.buffer + tokens.tokenizeEnd) members.length then
    return { state with cells, buffer, result := state.result ++ [.members members] }
  else none

/-- The body of the loop up to the next field. -/
def convertField (block : Block) (field : Letter) (state : Conversion) : Option Conversion := do
  match field with
  | .stringNotEmpty =>
    let text ← stringAt state.cells state.buffer
    return { state with
      result := state.result ++ [.string state.buffer]
      errno := if text = [] then EINVAL else state.errno }
  | .string => return { state with result := state.result ++ [.string state.buffer] }
  | .id =>
    let (value, errno) := bbStrtou (← stringAt state.cells state.buffer)
    return { state with result := state.result ++ [.id value], errno }
  | .long =>
    let text ← stringAt state.cells state.buffer
    let (value, errno) := if text = [] then (-1, state.errno) else bbStrtol text
    return { state with result := state.result ++ [.long value], errno }
  | .members => convertMembers block state
  | .reserved => return { state with result := state.result ++ [.reserved] }

/-- `buffer += strlen(buffer) + 1` -/
def nextField (state : Conversion) : Option Conversion := do
  let text ← stringAt state.cells state.buffer
  return { state with buffer := state.buffer + text.length + 1 }

/-- The loop over `def`. -/
def convertFields (block : Block) : List Letter → Conversion → Option Conversion
  | [], state => some state
  | [field], state => convertField block field state
  | field :: fields, state => do
    convertFields block fields (← nextField (← convertField block field state))

/-- A member of the structure, as the caller sees it. -/
inductive Value
  | string (text : Text)
  | id (value : Int)
  | long (value : Int)
  | members (texts : List Text)
  | reserved
  deriving DecidableEq

/-- What a member of the structure says. -/
def Member.read (cells : List UInt8) : Member → Option Value
  | .string p => (stringAt cells p).map .string
  | .id value => some (.id value)
  | .long value => some (.long value)
  | .members ps => (ps.mapM (stringAt cells)).map .members
  | .reserved => some .reserved

/-- What the caller is given: the structure or NULL, and `errno`. -/
structure Returned where
  result : Option (List Value)
  errno : Errno
  deriving DecidableEq

/-- `convert_to_struct` -/
def convertToStruct (db : Passdb) (block : Block) (buf : List UInt8) (errno : Errno) :
    Option Returned := do
  let state ← convertFields block db.fields ⟨buf, 0, errno, []⟩
  if state.errno ≠ 0 then return ⟨none, state.errno⟩
  else return ⟨some (← state.result.mapM (Member.read state.cells)), 0⟩

/-- `getXXnam_r`, with the strings in the caller's buffer. -/
def getXXnamR (db : Passdb) (name : Text) (address buflen : Nat) (file : List UInt8)
    (errno : Errno) : Option Returned := do
  match ← parseCommon db name 0 (Libbb.fgetlines [] file) with
  | none => return ⟨none, errno⟩
  | some record =>
    if buflen < record.stringSize then return ⟨none, ERANGE⟩
    else convertToStruct db ⟨address, buflen⟩ record.buf errno

/-- `getXXnam`, with the strings behind the structure in a block of the library. -/
def getXXnam (db : Passdb) (name : Text) (fieldPos address : Nat) (file : List UInt8)
    (errno : Errno) : Option Returned := do
  match ← parseCommon db name fieldPos (Libbb.fgetlines [] file) with
  | none => return ⟨none, errno⟩
  | some record =>
    convertToStruct db ⟨address + db.sizeOf, record.stringSize⟩ record.buf errno

/-- The functions that are called. -/
inductive Function
  | getpwnam (name : Text)
  | getpwuid (id : UInt32)
  | getgrnam (name : Text)
  | getgrgid (id : UInt32)
  | getspnam_r (name : Text) (buflen : Nat)

/-- A call, for every content of the file it reads, every address of the block it uses and every
`errno` before. The calls it makes itself leave `errno` alone where they succeed. -/
def call (address : Nat) (file : List UInt8) (errno : Errno) : Function → Option Returned
  | .getpwnam name => getXXnam pwDb name 0 address file errno
  | .getpwuid id => getXXnam pwDb (unsignedText id.toNat) 2 address file errno
  | .getgrnam name => getXXnam grDb name 0 address file errno
  | .getgrgid id => getXXnam grDb (unsignedText id.toNat) 2 address file errno
  | .getspnam_r name buflen => getXXnamR spDb name address buflen file errno

/-- The file that is read. -/
def Function.db : Function → Passdb
  | .getpwnam _ | .getpwuid _ => pwDb
  | .getgrnam _ | .getgrgid _ => grDb
  | .getspnam_r _ _ => spDb

/-- The text that is looked for. -/
def Function.key : Function → Text
  | .getpwnam name | .getgrnam name | .getspnam_r name _ => name
  | .getpwuid id | .getgrgid id => unsignedText id.toNat

/-- Where it is looked for. -/
def Function.fieldPos : Function → Nat
  | .getpwnam _ | .getgrnam _ | .getspnam_r _ _ => 0
  | .getpwuid _ | .getgrgid _ => 2

/-- There is room for the record, with a NUL behind each field, in the buffer of the caller, if it
is one. -/
def Function.roomFor (function : Function) (record : List Text) : Bool :=
  match function with
  | .getspnam_r _ buflen => (stored record).length ≤ buflen
  | .getpwnam _ | .getpwuid _ | .getgrnam _ | .getgrgid _ => true

end Busybox.Pwdgrp.Lookup
