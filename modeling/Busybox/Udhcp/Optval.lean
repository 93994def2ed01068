import Busybox.Udhcp.Names

/-!
# The types of options

What `dhcp_optflags` says about an option: its type, whether the client requests it, and
whether a list of values may be given. The types of `dhcp_option_lengths` are those of
`FEATURE_UDHCP_RFC3397`.
-/

namespace Busybox.Udhcp

inductive OptionType
  | ip
  | ipPair
  | string
  | stringHost
  | u8
  | u16
  | u32
  | s32
  | bin
  | staticRoutes
  | sixRd
  | dnsString
  | sipServers
deriving DecidableEq, Repr

/-- `struct dhcp_optflag`; the flags are `OPTION_TYPE_MASK`, `OPTION_REQ` and `OPTION_LIST`. -/
structure DhcpOptflag where
  type : OptionType
  req : Bool
  list : Bool
  code : UInt8
deriving DecidableEq, Repr

/-- `dhcp_option_lengths`. A designated initialiser leaves zero at `OPTION_BIN`. -/
def dhcpOptionLengths : OptionType → Nat
  | .ip => 4
  | .ipPair => 8
  | .string => 1
  | .stringHost => 1
  | .u8 => 1
  | .u16 => 2
  | .u32 => 4
  | .s32 => 4
  | .bin => 0
  | .staticRoutes => 5
  | .sixRd => 12
  | .dnsString => 1
  | .sipServers => 1

/-- `dhcp_optflags`, up to the zeroed entry. -/
def dhcpOptflags : List DhcpOptflag := [
  ⟨.ip, true, false, 0x01⟩,
  ⟨.s32, false, false, 0x02⟩,
  ⟨.ip, true, true, 0x03⟩,
  ⟨.ip, true, true, 0x06⟩,
  ⟨.ip, false, true, 0x09⟩,
  ⟨.stringHost, true, false, 0x0c⟩,
  ⟨.u16, false, false, 0x0d⟩,
  ⟨.stringHost, true, false, 0x0f⟩,
  ⟨.ip, false, false, 0x10⟩,
  ⟨.string, false, false, 0x11⟩,
  ⟨.u8, false, false, 0x17⟩,
  ⟨.u16, false, false, 0x1a⟩,
  ⟨.ip, true, false, 0x1c⟩,
  ⟨.ipPair, false, true, 0x21⟩,
  ⟨.stringHost, false, false, 0x28⟩,
  ⟨.ip, false, true, 0x29⟩,
  ⟨.ip, true, true, 0x2a⟩,
  ⟨.ip, false, true, 0x2c⟩,
  ⟨.u32, false, false, 0x33⟩,
  ⟨.ip, false, false, 0x36⟩,
  ⟨.string, false, false, 0x38⟩,
  ⟨.stringHost, false, false, 0x42⟩,
  ⟨.string, false, false, 0x43⟩,
  ⟨.string, false, false, 0x64⟩,
  ⟨.string, false, false, 0x65⟩,
  ⟨.dnsString, false, true, 0x77⟩,
  ⟨.sipServers, false, false, 0x78⟩,
  ⟨.staticRoutes, false, true, 0x79⟩,
  ⟨.u16, false, false, 0x84⟩,
  ⟨.u8, false, false, 0x85⟩,
  ⟨.string, false, false, 0xd1⟩,
  ⟨.string, false, false, 0xd2⟩,
  ⟨.u32, false, false, 0xd3⟩,
  ⟨.sixRd, false, false, 0xd4⟩,
  ⟨.staticRoutes, false, true, 0xf9⟩,
  ⟨.string, false, false, 0xfc⟩,
  -- only used internally
  ⟨.ip, false, false, 0x32⟩,
  ⟨.u8, false, false, 0x35⟩,
  ⟨.u16, false, false, 0x39⟩]

/-- No entry of the table has the type of a raw option. -/
theorem dhcpOptflags_type : ∀ optflag ∈ dhcpOptflags, optflag.type ≠ .bin := by decide

theorem dhcpOptionLengths_pos {type : OptionType} (known : type ≠ .bin) :
    0 < dhcpOptionLengths type := by
  cases type with
  | bin => exact absurd rfl known
  | _ => decide

end Busybox.Udhcp

/-!
## Options as text

`xmalloc_optname_optval` allocates a buffer by an estimate and prints the name and the
value of an option into it. Every access is checked here: a read of the payload, a store
to the buffer, and a read of a string from it.
-/

namespace Busybox.Udhcp.Optval

open Memory
open Names (dot space)

abbrev Text := List UInt8

/-- What is undefined in C. -/
inductive Fault
  | outside
  | zeroDivision
deriving DecidableEq, Repr

/-- An access that is checked. -/
def access {α : Type} : Option α → Except Fault α
  | none => .error .outside
  | some value => .ok value

/-! ## Texts -/

def slash : UInt8 := 47
def colon : UInt8 := 58
def equals : UInt8 := 61

/-- `%u`. -/
def unsignedText (number : Nat) : Text :=
  (Nat.toDigits 10 number).map fun digit => digit.toNat.toUInt8

/-- `%ld` of a value that was cast to `unsigned long`, on a machine where `long` has 64 bits
or 32. -/
def longText (lp64 : Bool) (value : Nat) : Text :=
  if !lp64 ∧ 2 ^ 31 ≤ value then 45 :: unsignedText (2 ^ 32 - value) else unsignedText value

/-- `sprint_nip`. -/
def nipText (pre ip : Text) : Text :=
  pre ++ List.intercalate [dot] (ip.map fun byte => unsignedText byte.toNat)

/-- `0x20 | bb_hexdigits_upcase[c]`. -/
def hexDigit (c : UInt8) : UInt8 := if c < 10 then 48 + c else 87 + c

/-- `bin2hex`. -/
def bin2hex (bytes : Text) : Text :=
  bytes.flatMap fun c : UInt8 => [hexDigit (c >>> 4), hexDigit (c &&& 15)]

/-- `sprint_nip6`. -/
def nip6Text (ip : Text) : Text :=
  List.intercalate [colon] ((List.range 8).map fun group => ((bin2hex ip).drop (group * 4)).take 4)

/-- Two bytes or four in network order. -/
def bigEndian (bytes : Text) : Nat := bytes.foldl (fun value byte => value * 256 + byte.toNat) 0

def isalnum (c : UInt8) : Bool :=
  (48 ≤ c && c ≤ 57) || (65 ≤ c && c ≤ 90) || (97 ≤ c && c ≤ 122)

/-- `good_hostname`. -/
def goodHostname (name : Text) : Bool :=
  name.head? ≠ some 45 && name.all fun c => isalnum c || c == 45 || c == 95 || c == 46

/-! ## The buffer -/

/-- The buffer, and where `dest` points into it. -/
structure Output where
  ret : Block UInt8
  dest : Nat

/-- `dest += sprintf(dest, ...)`. -/
def Output.sprintf (out : Output) (text : Text) : Except Fault Output :=
  (access (store out.ret out.dest (text ++ [0]))).map fun ret => ⟨ret, out.dest + text.length⟩

/-- `*dest++ = c`. -/
def Output.put (out : Output) (c : UInt8) : Except Fault Output :=
  (access (store out.ret out.dest [c])).map fun ret => ⟨ret, out.dest + 1⟩

/-- `*dest = '\0'`. -/
def Output.terminate (out : Output) : Except Fault Output :=
  (access (store out.ret out.dest [0])).map fun ret => { out with ret }

/-- The string at the start of some cells. -/
def readString : Block UInt8 → Except Fault Text
  | some c :: cells => if c = 0 then .ok [] else (readString cells).map (c :: ·)
  | _ => .error .outside

/-- `safe_strncpy`. -/
def safeStrncpy (ret : Block UInt8) (dst : Nat) (src : Text) (size : Nat) :
    Except Fault (Block UInt8) :=
  if size = 0 then .ok ret
  else do
    let ret ← access (store ret (dst + (size - 1)) [0])
    access (store ret dst ((src ++ List.replicate size 0).take (size - 1)))

/-! ## The options -/

/-- The bytes of the payload from an index on. -/
def readBytes (payload : Text) (option count : Nat) : Except Fault Text :=
  if option + count ≤ payload.length then .ok ((payload.drop option).take count)
  else .error .outside

/-- The loop over static routes. -/
def staticRoutes (payload : Text) (pfx : Text) (option : Nat) (len : Int) (out : Output) :
    Except Fault Output :=
  if len < 1 + 4 then .ok out  -- mask + 0-byte ip + router
  else do
    let mask ← access payload[option]?
    if 32 < mask.toNat then .ok out
    else do
      let bytes := (mask.toNat + 7) / 8
      let nip ← readBytes payload (option + 1) bytes
      if len - 1 - bytes < 4 then .ok out
      else do
        -- print ip/mask
        let out ← out.sprintf (nipText pfx (nip ++ List.replicate (4 - bytes) 0))
        let out ← out.sprintf ([slash] ++ unsignedText mask.toNat ++ [space])
        -- print router
        let router ← readBytes payload (option + 1 + bytes) 4
        let out ← out.sprintf (nipText [] router)
        staticRoutes payload [space] (option + 1 + bytes + 4) (len - 1 - bytes - 4) out
termination_by len.toNat

/-- The variables of the loop. -/
structure State where
  type : OptionType
  optlen : Nat
  option : Nat
  len : Int
  out : Output

/-- A pass of the loop ends with `continue` or its last line, or it leaves the loop. -/
inductive Pass
  | next (state : State)
  | leave (ret : Block UInt8)

/-- One element of the types that are formatted element by element. -/
def element (lp64 : Bool) (payload : Text) (state : State) : Except Fault Output := do
  let bytes ← readBytes payload state.option state.optlen
  match state.type with
  | .ip => state.out.sprintf (nipText [] bytes)
  | .ipPair => do
    let out ← state.out.sprintf (nipText [] (bytes.take 4))
    out.sprintf (nipText [slash] (bytes.drop 4))
  | .s32 => state.out.sprintf (longText lp64 (bigEndian bytes))
  | _ => state.out.sprintf (unsignedText (bigEndian bytes))

/-- `option += optlen; len -= optlen;`. -/
def State.advance (state : State) (out : Output) : State :=
  { state with option := state.option + state.optlen, len := state.len - state.optlen, out }

/-- What is done behind the `switch`. -/
def remaining (state : State) (out : Output) : Except Fault Pass :=
  if state.len - state.optlen < state.optlen then .ok (.leave out.ret)
  else do
    let out ← out.put space
    let out ← out.terminate
    .ok (.next (state.advance out))

/-- `dname_dec` with what was printed so far. -/
def domains (payload : Text) (option : Nat) (len : Int) (out : Output) : Except Fault Pass := do
  let pre ← readString out.ret
  match Names.dnameDec ((payload.drop option).take len.toNat) pre with
  | .ok dest => .ok (.leave dest)
  | .error .null => .ok (.leave out.ret)
  | .error .outside => .error .outside

/-- `OPTION_STRING`, and `OPTION_STRING_HOST` with its check. -/
def stringValue (host : Bool) (payload : Text) (state : State) : Except Fault (Block UInt8) := do
  let len := state.len.toNat
  let text ← readBytes payload state.option len
  let ret ← access (store state.out.ret state.out.dest text)
  let ret ← access (store ret (state.out.dest + len) [0])
  if host then do
    let name ← readString (ret.drop state.out.dest)
    if goodHostname name then .ok ret
    else safeStrncpy ret state.out.dest [98, 97, 100] len  -- "bad"
  else .ok ret

/-- `OPTION_6RD`. -/
def sixRd (payload : Text) (state : State) : Except Fault Pass :=
  if state.len < 1 + 1 + 16 + 4 then .ok (.leave state.out.ret)
  else do
    let ip4MaskLen ← access payload[state.option]?
    if 32 < ip4MaskLen.toNat then .ok (.leave state.out.ret)
    else do
      let prefixLen ← access payload[state.option + 1]?
      if 128 < (prefixLen.toNat : Int) + 32 - ip4MaskLen.toNat then .ok (.leave state.out.ret)
      else do
        let out ← state.out.sprintf (unsignedText ip4MaskLen.toNat ++ [space])
        let out ← out.sprintf (unsignedText prefixLen.toNat ++ [space])
        let ip6 ← readBytes payload (state.option + 2) 16
        let out ← out.sprintf (nip6Text ip6)
        let out ← out.put space
        -- 6rdBRIPv4Address(es), use common IPv4 logic to process them
        .ok (.next { type := .ip, optlen := 4, option := state.option + 18,
                     len := state.len - 18, out })

/-- `OPTION_SIP_SERVERS`. -/
def sipServers (payload : Text) (state : State) : Except Fault Pass := do
  let kind ← access payload[state.option]?
  if kind = 1 then
    -- use common IPv4 logic to process IP addrs
    .ok (.next { state with
      type := .ip, optlen := 4, option := state.option + 1, len := state.len - 1 })
  else if kind = 0 then domains payload (state.option + 1) (state.len - 1) state.out
  else .ok (.leave state.out.ret)

/-- One pass of the loop. -/
def pass (lp64 : Bool) (payload : Text) (state : State) : Except Fault Pass :=
  match state.type with
  | .string => (stringValue false payload state).map .leave
  | .stringHost => (stringValue true payload state).map .leave
  | .staticRoutes =>
    (staticRoutes payload [] state.option state.len state.out).map fun out => .leave out.ret
  | .sixRd => sixRd payload state
  | .dnsString => domains payload state.option state.len state.out
  | .sipServers => sipServers payload state
  | .bin => remaining state state.out  -- the switch has no such case
  | _ => element lp64 payload state >>= remaining state

variable {lp64 : Bool} {payload : Text} {state next : State} {out : Output}

theorem remaining_next (goes : remaining state out = .ok (.next next)) :
    next.optlen = state.optlen ∧ next.len = state.len - state.optlen ∧
      (state.optlen : Int) ≤ next.len := by
  unfold remaining at goes
  split at goes
  case isTrue => cases goes
  case isFalse more =>
    obtain ⟨out', _, goes⟩ := Fallible.bind_eq_ok.mp goes
    obtain ⟨out'', _, goes⟩ := Fallible.bind_eq_ok.mp goes
    cases goes
    exact ⟨rfl, rfl, Int.not_lt.mp more⟩

theorem domains_leaves {option : Nat} {len : Int} :
    domains payload option len out ≠ .ok (.next next) := by
  intro goes
  obtain ⟨pre, _, goes⟩ := Fallible.bind_eq_ok.mp goes
  split at goes <;> cases goes

theorem sixRd_next (goes : sixRd payload state = .ok (.next next)) :
    next.optlen = 4 ∧ next.len = state.len - 18 ∧ 4 ≤ next.len := by
  unfold sixRd at goes
  split at goes
  case isTrue => cases goes
  case isFalse long =>
    obtain ⟨ip4MaskLen, _, goes⟩ := Fallible.bind_eq_ok.mp goes
    split at goes
    case isTrue => cases goes
    obtain ⟨prefixLen, _, goes⟩ := Fallible.bind_eq_ok.mp goes
    split at goes
    case isTrue => cases goes
    obtain ⟨lens, _, goes⟩ := Fallible.bind_eq_ok.mp goes
    obtain ⟨lens, _, goes⟩ := Fallible.bind_eq_ok.mp goes
    obtain ⟨ip6, _, goes⟩ := Fallible.bind_eq_ok.mp goes
    obtain ⟨address, _, goes⟩ := Fallible.bind_eq_ok.mp goes
    obtain ⟨out, _, goes⟩ := Fallible.bind_eq_ok.mp goes
    cases goes
    exact ⟨rfl, rfl, by simp only; omega⟩

theorem sipServers_next (goes : sipServers payload state = .ok (.next next)) :
    next.optlen = 4 ∧ next.len = state.len - 1 := by
  obtain ⟨kind, _, goes⟩ := Fallible.bind_eq_ok.mp goes
  split at goes
  · cases goes
    exact ⟨rfl, rfl⟩
  · split at goes
    · exact absurd goes domains_leaves
    · cases goes

theorem map_leave {α : Type} {x : Except Fault α} {f : α → Block UInt8} :
    x.map (fun a => Pass.leave (f a)) ≠ .ok (.next next) := by
  cases x <;> exact nofun

/-- A pass that goes on has used up some of the payload, if an element has a length. -/
theorem pass_next (goes : pass lp64 payload state = .ok (.next next)) (positive : 0 < state.optlen)
    (more : (state.optlen : Int) ≤ state.len) :
    0 < next.optlen ∧ next.len.toNat < state.len.toNat := by
  have remain {out : Output} (goes : remaining state out = .ok (.next next)) :
      0 < next.optlen ∧ next.len.toNat < state.len.toNat := by
    obtain ⟨same, len, left⟩ := remaining_next goes
    omega
  unfold pass at goes
  split at goes
  · exact absurd goes map_leave
  · exact absurd goes map_leave
  · exact absurd goes map_leave
  · obtain ⟨optlen, len, left⟩ := sixRd_next goes
    omega
  · exact absurd goes domains_leaves
  · obtain ⟨optlen, len⟩ := sipServers_next goes
    omega
  · exact remain goes
  · obtain ⟨out, _, goes⟩ := Fallible.bind_eq_ok.mp goes
    exact remain goes

/-- The loop. -/
def loop (lp64 : Bool) (payload : Text) (state : State) (positive : 0 < state.optlen) :
    Except Fault (Block UInt8) :=
  if more : state.len < state.optlen then .ok state.out.ret
  else
    match passed : pass lp64 payload state with
    | .error fault => .error fault
    | .ok (.leave ret) => .ok ret
    | .ok (.next next) =>
      have used := pass_next passed positive (Int.not_lt.mp more)
      loop lp64 payload next used.1
termination_by state.len.toNat
decreasing_by exact used.2

/-- `len_of_option_as_string`. -/
def lenOfOptionAsString : OptionType → Nat
  | .ip => 17
  | .ipPair => 34
  | .string => 1
  | .stringHost => 1
  | .u8 => 5
  | .u16 => 7
  | .u32 => 12
  | .s32 => 13
  | .bin => 0
  | .staticRoutes => 36
  | .sixRd => 65
  | .dnsString => 1
  | .sipServers => 17

/-- `upper_length`. -/
def upperLength (type : OptionType) (len : Nat) : Nat :=
  lenOfOptionAsString type * ((len + dhcpOptionLengths type) / dhcpOptionLengths type)

/-- `xmalloc_optname_optval` of a payload, whose length is the byte in front of it. -/
def xmallocOptnameOptval (lp64 : Bool) (payload : Text) (optflag : DhcpOptflag) (optName : Text) :
    Except Fault (Block UInt8) :=
  if positive : 0 < dhcpOptionLengths optflag.type then do
    let out : Output :=
      ⟨alloc (upperLength optflag.type payload.length + optName.length + 2), 0⟩
    let out ← out.sprintf (optName ++ [equals])
    loop lp64 payload ⟨optflag.type, dhcpOptionLengths optflag.type, 0, payload.length, out⟩ positive
  else .error .zeroDivision

end Busybox.Udhcp.Optval
