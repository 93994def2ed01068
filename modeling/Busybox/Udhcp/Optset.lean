import Busybox.Lib.SortedTable
import Busybox.Libbb.Xatonum
import Busybox.Udhcp.EncodedNames
import Busybox.Udhcp.Optval
import Busybox.Udhcp.Options

/-!
# Sets of options

`udhcp_str2optset` turns the text of an option into values, and `attach_option` keeps them
in a linked list of options in binary form. The list is a Lean list of the blocks that
`data` points to, and a pointer into it is an index.
-/

namespace Busybox.Udhcp.Optset

open Memory SortedTable
open Options (optCode optLen optData)

abbrev Text := List UInt8

/-! ## Attaching -/

def d6OptCode : Nat := 0
def d6OptLen : Nat := 2
def d6OptData : Nat := 4

/-- A byte of a block that was initialised. -/
def byteAt (data : Block UInt8) (i : Nat) : UInt8 := (data.getD i none).getD 0

/-- `xrealloc`. -/
def realloc (data : Block UInt8) (size : Nat) : Block UInt8 :=
  data.take size ++ List.replicate (size - data.length) none

/-- `memcpy` into a block that is large enough. -/
def memcpy (data : Block UInt8) (offset : Nat) (values : Text) : Block UInt8 :=
  data.take offset ++ values.map some ++ data.drop (offset + values.length)

/-- What the list is searched by. -/
def codeByte (data : Block UInt8) : Nat := (byteAt data optCode).toNat

/-- `udhcp_find_option`. -/
def udhcpFindOption (optList : List (Block UInt8)) (code : UInt8) : Option Nat :=
  position codeByte code.toNat optList

/-- A hexadecimal digit. -/
def hexVal (c : UInt8) : Option UInt8 :=
  if 48 ≤ c ∧ c ≤ 57 then some (c - 48)
  else if 97 ≤ c ||| 0x20 ∧ c ||| 0x20 ≤ 102 then some ((c ||| 0x20) - 87)
  else none

def colon : UInt8 := 58

/-- `hex2bin` with room for `count` bytes, `none` where `errno` is set. -/
def hex2bin (count : Nat) (str : Text) : Option Text :=
  match count, str with
  | _, [] => some []
  | 0, _ :: _ => none
  | count + 1, c :: str =>
    match hexVal c, str with
    | none, _ => none
    | some high, [] => some [high]
    | some high, c :: str =>
      match hexVal c with
      | some low =>
        (hex2bin count (if str.head? = some colon then str.drop 1 else str)).map
          ((high <<< 4 ||| low) :: ·)
      | none =>
        if c = colon then
          (hex2bin count (if str.head? = some colon then str.drop 1 else str)).map (high :: ·)
        else none

/-- A value that is attached: `length` bytes of the buffer, if `attach_option` does not
convert the string in it. -/
structure Call where
  optflag : DhcpOptflag
  buffer : Text
  length : Nat

/-- The bytes that are attached, `none` where the process dies. `dname_enc` has no bytes for a
name that it rejects. -/
def Call.value (call : Call) : Option Text :=
  match call.optflag.type with
  | .bin => hex2bin 255 call.buffer
  | .dnsString =>
    match Names.dnameEnc call.buffer with
    | .ok (res, len) => some (res.take len).reduceOption
    | .error _ => some []
  | _ => some (call.buffer.take call.length)

/-- The data of a new option. -/
def newData (code : UInt8) (value : Text) (dhcpv6 : Bool) : Block UInt8 :=
  if dhcpv6 then
    -- optflag->code >> 8 of an uint8_t, code, length >> 8, length
    ([0, code, (value.length / 256).toUInt8, value.length.toUInt8] ++ value).map some
  else ([code, value.length.toUInt8] ++ value).map some

/-- A value at the end of an existing option, if it is short enough. -/
def addTo (value : Text) (data : Block UInt8) : Block UInt8 :=
  let oldLen := (byteAt data optLen).toNat
  if oldLen + value.length < 255 then
    let data := realloc data (optData + 1 + oldLen + value.length)
    let data := memcpy data (optData + oldLen) value
    memcpy data optLen [(oldLen + value.length).toUInt8]
  else data  -- ignore the data

/-- `attach_option`, `none` where the process dies. -/
def attachOption (dhcpv6 : Bool) (optList : List (Block UInt8)) (call : Call) :
    Option (List (Block UInt8)) :=
  call.value.map fun value =>
    match udhcpFindOption optList call.optflag.code with
    | none =>
      place codeByte (newData call.optflag.code value dhcpv6) call.optflag.code.toNat optList
    | some existing =>
      if call.optflag.list then optList.modify existing (addTo value)
      else optList  -- ignore the new data

/-! ## Reading the text of an option -/

/-- `strtok`: a token and the text behind the delimiter that ends it. -/
def strtok (delims s : Text) : Option (Text × Text) :=
  let token := s.dropWhile (· ∈ delims)
  if token = [] then none
  else some (token.takeWhile (· ∉ delims), (token.dropWhile (· ∉ delims)).drop 1)

/-- `trim`. -/
def trim (s : Text) : Text := (s.rdropWhile Libbb.Xatonum.isspace).dropWhile Libbb.Xatonum.isspace

/-- `isalnum` of the C locale. -/
def isalnum (c : UInt8) : Bool := Libbb.Xatonum.isDigit 36 c

/-- `bb_strtou`, `none` where `errno` is set. -/
def bbStrtou (base : Nat) (arg : Text) : Option Nat :=
  if arg.head?.any isalnum then
    match Libbb.Xatonum.strtou base arg with
    | some (value, []) => if value < 2 ^ 32 then some value else none
    | _ => none
  else none

/-- `bb_strtoi`, `none` where `errno` is set. -/
def bbStrtoi (base : Nat) (arg : Text) : Option Int :=
  let negative := arg.head? = some 45
  let digits := if negative then arg.drop 1 else arg
  if digits.head?.any isalnum then
    match Libbb.Xatonum.strtou base digits with
    | some (value, []) =>
      let v : Int := if negative then -value else value
      if -2 ^ 31 ≤ v ∧ v < 2 ^ 31 then some v else none
    | _ => none
  else none

/-- `htons` and `htonl`, as bytes. -/
def bytes16 (tmp : Nat) : Text := [(tmp / 256).toUInt8, tmp.toUInt8]
def bytes32 (tmp : Nat) : Text :=
  [(tmp / 256 ^ 3).toUInt8, (tmp / 256 ^ 2).toUInt8, (tmp / 256).toUInt8, tmp.toUInt8]

/-- An address in network order. -/
abbrev Nip := {ip : Text // ip.length = 4}

def nameDelims : Text := [32, 9, 61, 58]        -- " \t=:"
def valueDelims : Text := [44, 32, 9]           -- ", \t"
def pairDelims : Text := [44, 32, 9, 47, 45]    -- ", \t/-"

/-- `case_OPTION_STRING`. -/
def stringValue (optflag : DhcpOptflag) (val : Text) : Option Call :=
  let length := min val.length 254
  if 0 < length then some ⟨optflag, val, length⟩ else none

/-- A raw option: a string between quotes, or hexadecimal digits for `attach_option`. -/
def rawValue (optflag : DhcpOptflag) (val : Text) : Option Call :=
  match val with
  | [] => some ⟨optflag, [], dhcpOptionLengths optflag.type⟩
  | delim :: inner =>
    if (delim = 34 ∨ delim = 39) ∧ inner.getLast? = some delim then
      stringValue { optflag with type := .string } inner.dropLast
    else some ⟨optflag, val, dhcpOptionLengths optflag.type⟩

section Reading

variable (str2nip : Text → Option Nip)

/-- A route: the destination before the slash, the mask behind it, and the gateway. -/
def routeValue (optflag : DhcpOptflag) (val : Text) (rest : Text) : Option Call × Text :=
  match val.dropWhile (· ≠ 47) with
  | [] => (none, rest)
  | _ :: maskText =>
    let destination := str2nip (val.takeWhile (· ≠ 47))
    let mask := bbStrtou 10 maskText
    match strtok pairDelims rest with
    | none => (none, [])
    | some (val, rest) =>
      match destination, mask with
      | some nip, some mask =>
        if 32 < mask then (none, rest)
        else
          let length := (mask + 7) / 8 + 5
          match str2nip val with
          | none => (none, rest)
          | some gateway =>
            (some ⟨optflag, mask.toUInt8 :: (nip.1.take (length - 5) ++ gateway.1), length⟩, rest)
      | _, _ => (none, rest)

/-- The `switch` over the types: what is attached, `none` for a `retval` of zero, and the text
behind the value. -/
def readValue (optflag : DhcpOptflag) (val rest : Text) : Option Call × Text :=
  let length := dhcpOptionLengths optflag.type
  match optflag.type with
  | .ip => ((str2nip val).map fun nip => ⟨optflag, nip.1, length⟩, rest)
  | .ipPair =>
    match strtok pairDelims rest with
    | none => (none, [])
    | some (val', rest) =>
      ((str2nip val).bind fun nip => (str2nip val').map fun nip' =>
        ⟨optflag, nip.1 ++ nip'.1, length⟩, rest)
  | .string | .stringHost | .dnsString => (stringValue optflag val, rest)
  | .u8 => ((bbStrtou 0 val).map fun tmp => ⟨optflag, [tmp.toUInt8], length⟩, rest)
  | .u16 => ((bbStrtou 0 val).map fun tmp => ⟨optflag, bytes16 tmp, length⟩, rest)
  | .u32 => ((bbStrtou 0 val).map fun tmp => ⟨optflag, bytes32 tmp, length⟩, rest)
  | .s32 => ((bbStrtoi 0 val).map fun tmp => ⟨optflag, bytes32 (tmp % 2 ^ 32).toNat, length⟩, rest)
  | .staticRoutes => routeValue str2nip optflag val rest
  | .bin => (rawValue optflag val, rest)
  | .sixRd | .sipServers => (none, rest)

/-- `val`: all that is left for a raw option, else a token. -/
def nextValue (optflag : DhcpOptflag) (s : Text) : Option (Text × Text) :=
  if optflag.type = .bin ∧ ¬optflag.req ∧ ¬optflag.list then
    (strtok [] s).map fun (val, rest) => (trim val, rest)
  else strtok valueDelims s

theorem strtok_length {delims s token rest : Text} (taken : strtok delims s = some (token, rest)) :
    rest.length < s.length := by
  unfold strtok at taken
  simp only at taken
  split at taken
  case isTrue => cases taken
  case isFalse some =>
    cases taken
    have shorter := (List.dropWhile_suffix (l := s) (· ∈ delims)).length_le
    have tail := (List.dropWhile_suffix (l := s.dropWhile (· ∈ delims)) (· ∉ delims)).length_le
    have positive := List.length_pos_iff.mpr some
    rw [List.length_drop]
    omega

theorem nextValue_length {optflag : DhcpOptflag} {s val rest : Text}
    (taken : nextValue optflag s = some (val, rest)) : rest.length < s.length := by
  unfold nextValue at taken
  split at taken
  · obtain ⟨⟨token, behind⟩, took, same⟩ := Option.map_eq_some_iff.mp taken
    cases same
    exact strtok_length took
  · exact strtok_length taken

theorem routeValue_length (optflag : DhcpOptflag) (val rest : Text) :
    (routeValue str2nip optflag val rest).2.length ≤ rest.length := by
  unfold routeValue
  split
  · exact Nat.le_refl _
  · simp only
    split
    · exact Nat.zero_le _
    case h_2 took =>
      have shorter := Nat.le_of_lt (strtok_length took)
      split
      · split
        · exact shorter
        · split <;> exact shorter
      · exact shorter

theorem readValue_length (optflag : DhcpOptflag) (val rest : Text) :
    (readValue str2nip optflag val rest).2.length ≤ rest.length := by
  unfold readValue
  cases optflag.type with
  | ipPair =>
    simp only
    split
    · exact Nat.zero_le _
    case h_2 took => exact Nat.le_of_lt (strtok_length took)
  | staticRoutes => exact routeValue_length str2nip optflag val rest
  | _ => exact Nat.le_refl _

variable {σ : Type} (attach : σ → Call → Option σ)

/-- The loop over the values. What is done with them is a parameter. -/
def valuesLoop (optflag : DhcpOptflag) (retval : Bool) (s : Text) (state : σ) : Option (Bool × σ) :=
  match _taken : nextValue optflag s with
  | none => some (retval, state)
  | some (val, behind) =>
    match _read : readValue str2nip optflag val behind with
    | (none, _) => some (false, state)
    | (some call, rest) =>
      match attach state call with
      | none => none
      | some state =>
        if optflag.list then valuesLoop optflag true rest state else some (true, state)
termination_by s.length
decreasing_by
  have shorter := readValue_length str2nip optflag val behind
  rw [_read] at shorter
  exact Nat.lt_of_le_of_lt shorter (nextValue_length _taken)

section Loop

variable {str2nip attach} {optflag : DhcpOptflag} {retval : Bool} {s val behind rest : Text}
  {state : σ}

theorem valuesLoop_over (taken : nextValue optflag s = none) :
    valuesLoop str2nip attach optflag retval s state = some (retval, state) := by
  rw [valuesLoop]
  split
  case h_1 => rfl
  case h_2 other => cases taken.symm.trans other

theorem valuesLoop_refused (taken : nextValue optflag s = some (val, behind))
    (read : readValue str2nip optflag val behind = (none, rest)) :
    valuesLoop str2nip attach optflag retval s state = some (false, state) := by
  rw [valuesLoop]
  split
  case h_1 other => cases taken.symm.trans other
  case h_2 other =>
    cases taken.symm.trans other
    split
    case h_1 => rfl
    case h_2 other => cases read.symm.trans other

theorem valuesLoop_value {call : Call} (taken : nextValue optflag s = some (val, behind))
    (read : readValue str2nip optflag val behind = (some call, rest)) :
    valuesLoop str2nip attach optflag retval s state = (attach state call).bind fun state =>
      if optflag.list then valuesLoop str2nip attach optflag true rest state
      else some (true, state) := by
  rw [valuesLoop]
  split
  case h_1 other => cases taken.symm.trans other
  case h_2 other =>
    cases taken.symm.trans other
    split
    case h_1 other => cases read.symm.trans other
    case h_2 other =>
      cases read.symm.trans other
      cases attach state call <;> rfl

end Loop

/-- `udhcp_str2optset` with names beside the flags of their options, `none` where the process
dies. -/
def udhcpStr2optset (options : List (Text × DhcpOptflag)) (str : Text) (state : σ) :
    Option (Bool × σ) :=
  match strtok nameDelims str with
  | none => some (false, state)
  | some (opt, rest) =>
    match (bbStrtou 0 opt).filter (· < 255) with
    | some optcode =>
      valuesLoop str2nip attach ⟨.bin, false, false, optcode.toUInt8⟩ false rest state
    | none =>
      match options.find? fun option => option.1 = opt with
      | none => none
      | some (_, optflag) => valuesLoop str2nip attach optflag false rest state

end Reading

end Busybox.Udhcp.Optset
