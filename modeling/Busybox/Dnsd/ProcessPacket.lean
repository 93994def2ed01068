import Busybox.Lib.Accesses

/-!
# A packet of `dnsd`

`process_packet` of `networking/dnsd.c`: a reply is built in the buffer of the packet. What the
buffer holds behind the packet, and the stack behind the buffer, is what was there before.
-/

namespace Busybox.Dnsd

open Accesses

def MAX_PACK_LEN : Nat := 512

/-- What a line of the configuration file becomes, the strings without their NUL. -/
structure DnsEntry where
  ip : List UInt8
  rip : List UInt8
  name : List UInt8
  ip_length : ip.length = 4
  rip_nul : 0 ∉ rip
  name_nul : 0 ∉ name

structure Config where
  entries : List DnsEntry
  ttl : UInt32 := 120
  silent : Bool := false

/-! ## Strings of the buffer -/

/-- `strlen`, of at most a number of bytes. -/
def strlen : Nat → Nat → Prog Nat
  | 0, _ => pure 0
  | fuel + 1, s => do
    if (← load s) = 0 then pure 0
    else return (← strlen fuel (s + 1)) + 1

def tolower (c : UInt8) : UInt8 := if 65 ≤ c ∧ c ≤ 90 then c + 32 else c

/-- Whether `strcasecmp` is 0. -/
def strcasecmp : List UInt8 → Nat → Prog Bool
  | [], s => return (← load s) = 0
  | c :: name, s => do
    if tolower c = tolower (← load s) then strcasecmp name (s + 1) else pure false

def isPrefixedWith (string : Nat) : List UInt8 → Prog Bool
  | [] => pure true
  | key :: rest => do
    if key = (← load string) then isPrefixedWith (string + 1) rest else pure false

/-- `move_from_unaligned16` and `ntohs` -/
def moveFrom16 (address : Nat) : Prog UInt16 := do
  let high ← load address
  let low ← load (address + 1)
  return 256 * high.toUInt16 + low.toUInt16

/-- `memcpy` of bytes that are elsewhere. -/
def put (dest : Nat) : List UInt8 → Prog Unit
  | [] => pure ()
  | byte :: bytes => do
    store dest byte
    put (dest + 1) bytes

/-- `memcpy` inside the buffer. -/
def copy (dest src : Nat) : Nat → Prog Unit
  | 0 => pure ()
  | n + 1 => do
    store dest (← load src)
    copy (dest + 1) (src + 1) n

def bytes16 (n : UInt16) : List UInt8 := [(n >>> 8).toUInt8, n.toUInt8]

def bytes32 (n : UInt32) : List UInt8 :=
  [(n >>> 24).toUInt8, (n >>> 16).toUInt8, (n >>> 8).toUInt8, n.toUInt8]

/-! ## The packet -/

def REQ_A : UInt16 := 1
def REQ_PTR : UInt16 := 12

/-- `table_lookup`: an address, or a name with its NUL. -/
def tableLookup (type : UInt16) (queryString : Nat) : List DnsEntry → Prog (Option (List UInt8))
  | [] => pure none
  | d :: entries => do
    let wildcard := d.name.head? = some 1 ∧ d.name[1]? = some 42
    if type = REQ_A then
      if wildcard then pure (some d.ip)
      else if ← strcasecmp d.name queryString then pure (some d.ip)
      else tableLookup type queryString entries
    else if wildcard then tableLookup type queryString entries
    else if ← isPrefixedWith queryString d.rip then pure (some (d.name ++ [0]))
    else tableLookup type queryString entries

/-- `empty_packet:` and what follows, with the bytes of `outr_flags`. -/
def emptyPacket (silent : Bool) (high low : UInt8) (answb : Nat) : Prog Nat := do
  if low &&& 0xf ≠ 0 ∧ silent then pure 0
  else do
    store 2 ((← load 2) ||| high)
    store 3 ((← load 3) ||| low)
    put 8 [0, 0, 0, 0]
    put 4 [0, 1]
    return answb

variable (conf : Config)

/-- `outr_rlen`, which is a `uint16_t`. -/
def outrRlen (type : UInt16) (answstr : List UInt8) : UInt16 :=
  if type = REQ_PTR then .ofNat answstr.length else 4

/-- The resource record, behind the question. -/
def appendAnswer (queryLen : Nat) (outrRlen : UInt16) (answstr : List UInt8) : Prog Nat := do
  let answb := 12 + queryLen
  copy answb 12 queryLen
  put (answb + queryLen) (bytes32 conf.ttl)
  put (answb + queryLen + 4) (bytes16 outrRlen)
  put (answb + queryLen + 6) (answstr.take outrRlen.toNat)
  put 6 [0, 1]
  emptyPacket conf.silent 0x84 0 (answb + queryLen + 6 + outrRlen.toNat)

/-- A query of class INET, for an address or a name. -/
def answer (queryLen : Nat) (type : UInt16) : Prog Nat := do
  let answb := 12 + queryLen
  match ← tableLookup type 12 conf.entries with
  | none => emptyPacket conf.silent 0x84 3 answb
  | some answstr =>
    if answb + queryLen + 4 + 2 + (outrRlen type answstr).toNat > MAX_PACK_LEN then
      emptyPacket conf.silent 0x84 3 answb
    else appendAnswer conf queryLen (outrRlen type answstr) answstr

/-- A standard query, from its class on. -/
def standardQuery (typeClass : Nat) : Prog Nat := do
  let answb := typeClass + 4
  if (← moveFrom16 (typeClass + 2)) ≠ 1 then emptyPacket conf.silent 0x80 4 answb
  else do
    let type ← moveFrom16 typeClass
    if type ≠ REQ_A ∧ type ≠ REQ_PTR then emptyPacket conf.silent 0x80 4 answb
    else answer conf (answb - 12) type

/-- `process_packet`; `query_len` counts the type and the class. -/
def processPacket : Prog Nat := do
  if (← load 4) = 0 ∧ (← load 5) = 0 then pure 0
  else if (← load 2) &&& 0x80 ≠ 0 then pure 0
  else do
    let typeClass := 12 + ((← strlen (MAX_PACK_LEN + 1) 12) + 1)
    if (← load 2) &&& 0x78 ≠ 0 then emptyPacket conf.silent 0x80 4 (typeClass + 4)
    else standardQuery conf typeClass

/-- `buf[r] = '\0'`, and what was there before behind it. -/
def received (packet : List UInt8) (before : Memory) : Memory := fun i =>
  if i < packet.length then packet.getD i 0 else if i = packet.length then 0 else before i

/-- What is sent for a packet. -/
def reply (packet : List UInt8) (before : Memory) : Option (List UInt8) :=
  let ended := (processPacket conf).run (received packet before)
  if ended.value = 0 then none else some ((List.range ended.value).map ended.memory)

end Busybox.Dnsd
