import Busybox.Udhcp.Leases
import Busybox.Lib.Runs

/-!
# The packet loop of udhcpd

One received packet is one step of the server. The functions follow `dhcpd.c`
in the build where the address scan starts at `start_ip`
(`FEATURE_UDHCPD_BASE_IP_ON_MAC` off) and the lease file is rewritten at every
new acceptance (`FEATURE_UDHCPD_WRITE_LEASES_EARLY` on).
-/

namespace Busybox.Udhcp

/-- A `static_lease` line. -/
structure StaticLease where
  mac : Mac
  nip : UInt32
deriving DecidableEq, Repr

/-- `struct server_data_t`. `startIp` and `endIp` are in host order. -/
structure ServerData where
  serverNip : UInt32
  startIp : UInt32
  endIp : UInt32
  maxLeaseSec : UInt32
  minLeaseSec : UInt32
  maxLeases : Nat
  declineTime : UInt32
  conflictTime : UInt32
  offerTime : UInt32
  staticLeases : List StaticLease
deriving DecidableEq, Repr

/-- A received packet. `option code` is what `udhcp_get_option` finds: the data
bytes of the first option with that code. -/
structure DhcpPacket where
  op : UInt8
  hlen : UInt8
  ciaddr : UInt32
  chaddr : Mac
  option : Nat → Option (List UInt8)

/-! ## Options -/

def dhcpHostName : Nat := 12
def dhcpRequestedIp : Nat := 50
def dhcpLeaseTime : Nat := 51
def dhcpMessageType : Nat := 53
def dhcpServerId : Nat := 54

def bootRequest : UInt8 := 1

/-- `move_from_unaligned32` from four option bytes: the word as it lies in memory. -/
def loadWord (bytes : List UInt8) : UInt32 :=
  UInt32.ofNat (bytes.foldr (fun byte high => byte.toNat + 256 * high) 0)

/-- `udhcp_get_option32`: an option whose data is not four bytes long is not found. -/
def DhcpPacket.option32 (packet : DhcpPacket) (code : Nat) : Option UInt32 :=
  match packet.option code with
  | some bytes => if bytes.length = 4 then some (loadWord bytes) else none
  | none => none

/-- The name and length that `add_lease` is given for the `DHCP_HOST_NAME` option. -/
def DhcpPacket.hostName (packet : DhcpPacket) : Option (List UInt8 × Nat) :=
  (packet.option dhcpHostName).map fun name => (name, name.length)

/-! ## Static leases -/

/-- Find static lease IP by mac; 0 when there is none. -/
def getStaticNipByMac (config : ServerData) (mac : Mac) : UInt32 :=
  match config.staticLeases.find? (·.mac == mac) with
  | some staticLease => staticLease.nip
  | none => 0

def isNipReservedAsStatic (config : ServerData) (nip : UInt32) : Bool :=
  config.staticLeases.any (·.nip == nip)

/-! ## Choosing an address -/

/-- Check if the IP is taken; if it is, add it to the lease table. -/
def nobodyRespondsToArp (config : ServerData) (world : World) (nip : UInt32)
    (server : Server) : Bool × Server :=
  let answer := world.arpping server.arpCalls
  let server := { server with arpCalls := server.arpCalls + 1 }
  if answer then
    (true, server)
  else
    (false, (addLease world none nip config.conflictTime none server).2)

/-- The lease a table pointer refers to. -/
def Server.leaseAt (server : Server) (slot : Nat) : DynLease :=
  server.leases[slot]?.getD emptyLease

/-- The addresses that the scan passes over unseen: x.x.x.0, x.x.x.255, the
server's own and the statically reserved ones. -/
def skipsAddress (config : ServerData) (addr : UInt32) : Bool :=
  addr &&& 0xff == 0 || addr &&& 0xff == 0xff
    || htonl addr == config.serverNip || isNipReservedAsStatic config (htonl addr)

/-- One turn of the address loop: the address to return, if it is found free, and
the oldest lease seen so far. -/
def scanAddress (config : ServerData) (world : World) (addr : UInt32)
    (oldestLease : Option Nat) (server : Server) : Option UInt32 × Option Nat × Server :=
  if skipsAddress config addr then
    (none, oldestLease, server)
  else
    match findLeaseByNip (htonl addr) server with
    | none =>
      match nobodyRespondsToArp config world (htonl addr) server with
      | (true, server) => (some (htonl addr), oldestLease, server)
      | (false, server) => (none, oldestLease, server)
    | some lease =>
      match oldestLease with
      | none => (none, some lease, server)
      | some oldest =>
        if (server.leaseAt lease).expires < (server.leaseAt oldest).expires then
          (none, some lease, server)
        else
          (none, oldestLease, server)

/-- The address loop with `left` addresses to go. -/
def scanAddresses (config : ServerData) (world : World) :
    Nat → UInt32 → Option Nat → Server → Option UInt32 × Option Nat × Server
  | 0, _, oldestLease, server => (none, oldestLease, server)
  | left + 1, addr, oldestLease, server =>
    match scanAddress config world addr oldestLease server with
    | (some nip, oldestLease, server) => (some nip, oldestLease, server)
    | (none, oldestLease, server) =>
      scanAddresses config world left (addr + 1) oldestLease server

/-- How many turns the loop from `start_ip` makes before `addr` equals `end_ip + 1`,
counting modulo 2^32 as `addr` does. -/
def scanLength (config : ServerData) : Nat := (config.endIp - config.startIp).toNat + 1

/-- The last test of `find_free_or_expired_nip`: the oldest lease that the scan met
is given away if it is expired and nobody answers at its address. The pointer is
followed anew each time, since a conflict entry may have taken its slot. -/
def expiredNip (config : ServerData) (world : World) (oldestLease : Nat) (server : Server) :
    UInt32 × Server :=
  match isExpiredLease world (server.leaseAt oldestLease) server with
  | (false, server) => (0, server)
  | (true, server) =>
    match nobodyRespondsToArp config world (server.leaseAt oldestLease).leaseNip server with
    | (false, server) => (0, server)
    | (true, server) => ((server.leaseAt oldestLease).leaseNip, server)

/-- Find a new usable (we think) address; 0 when there is none. -/
def findFreeOrExpiredNip (config : ServerData) (world : World) (server : Server) :
    UInt32 × Server :=
  match scanAddresses config world (scanLength config) config.startIp none server with
  | (some nip, _, server) => (nip, server)
  | (none, none, server) => (0, server)
  | (none, some oldestLease, server) => expiredNip config world oldestLease server

/-! ## Replies -/

/-- `select_lease_time`. -/
def selectLeaseTime (config : ServerData) (packet : DhcpPacket) : UInt32 :=
  match packet.option32 dhcpLeaseTime with
  | none => config.maxLeaseSec
  | some word =>
    let leaseTimeSec := ntohl word
    let leaseTimeSec :=
      if leaseTimeSec > config.maxLeaseSec then config.maxLeaseSec else leaseTimeSec
    if leaseTimeSec < config.minLeaseSec then config.minLeaseSec else leaseTimeSec

/-- `send_packet`, recording the packet. -/
def sendPacket (reply : Reply) (server : Server) : Server :=
  { server with sent := server.sent ++ [reply] }

/-- A lease pointer of the main loop: `&fake_lease`, which holds a static address,
or a pointer into the table. -/
inductive LeasePtr
  | fake (leaseNip : UInt32)
  | slot (index : Nat)
deriving DecidableEq, Repr

/-- `lease->lease_nip`. -/
def LeasePtr.leaseNip (server : Server) : LeasePtr → UInt32
  | .fake nip => nip
  | .slot index => (server.leaseAt index).leaseNip

/-- The third test of `send_offer` on the requested address: it is not already
taken, or is taken, but expired. -/
def requestedIsFree (world : World) (requestedNip : UInt32) (server : Server) :
    Bool × Server :=
  match findLeaseByNip requestedNip server with
  | none => (true, server)
  | some slot => isExpiredLease world (server.leaseAt slot) server

/-- The address `send_offer` picks for a client without a static lease; 0 when
there is none. -/
def offeredNip (config : ServerData) (world : World) (lease : Option LeasePtr)
    (requestedNip : UInt32) (server : Server) : UInt32 × Server :=
  match lease with
  | some lease =>
    -- a dynamic lease for this client: reuse its IP, even if it is expired
    (lease.leaseNip server, server)
  | none =>
    if requestedNip ≠ 0 ∧ config.startIp ≤ ntohl requestedNip
        ∧ ntohl requestedNip ≤ config.endIp then
      match requestedIsFree world requestedNip server with
      | (true, server) => (requestedNip, server)
      | (false, server) => findFreeOrExpiredNip config world server
    else
      findFreeOrExpiredNip config world server

/-- The OFFER of `yiaddr`, settled on in the state `settled`. -/
def offerReply (config : ServerData) (oldpacket : DhcpPacket) (yiaddr : UInt32)
    (settled : Server) : Reply where
  type := .offer
  chaddr := oldpacket.chaddr
  yiaddr := yiaddr
  leaseTimeSec := some (selectLeaseTime config oldpacket)
  before := settled.leases
  clock := settled.clock

/-- We got a DHCP DISCOVER. Send an OFFER. -/
def sendOffer (config : ServerData) (world : World) (oldpacket : DhcpPacket)
    (staticLeaseNip : UInt32) (lease : Option LeasePtr) (requestedNip : UInt32)
    (server : Server) : Server :=
  if staticLeaseNip = 0 then
    match offeredNip config world lease requestedNip server with
    | (yiaddr, chosen) =>
      if yiaddr = 0 then
        chosen
      else
        -- reserve the IP for a short time hoping to get DHCPREQUEST soon
        match addLease world (some oldpacket.chaddr) yiaddr config.offerTime
            oldpacket.hostName chosen with
        | (none, server) => server
        | (some _, server) => sendPacket (offerReply config oldpacket yiaddr chosen) server
  else
    sendPacket (offerReply config oldpacket staticLeaseNip server) server

/-- `send_NAK`. -/
def sendNak (oldpacket : DhcpPacket) (server : Server) : Server :=
  sendPacket
    { type := .nak, chaddr := oldpacket.chaddr, yiaddr := 0, leaseTimeSec := none
      before := server.leases, clock := server.clock } server

/-- Seconds that are negative as a `signed_leasetime_t` become 0. -/
def clampNegative (seconds : UInt32) : UInt32 :=
  if 0x80000000 ≤ seconds then 0 else seconds

/-- The record `write_leases` writes for a lease: `expires` counted from the present. -/
def leaseRecord (curr : UInt32) (lease : DynLease) : DynLease :=
  { lease with expires := htonl (clampNegative (lease.expires - curr)) }

/-- `write_leases`: one record for every entry that has an address. -/
def writeLeases (world : World) (server : Server) : Server :=
  let (writtenAt, server) := timeNull world server
  let curr := UInt32.ofNat writtenAt
  { server with
    leaseFile := some
      { writtenAt := writtenAt
        records := (server.leases.filter (·.leaseNip ≠ 0)).map (leaseRecord curr) } }

/-- `send_ACK`. -/
def sendAck (config : ServerData) (world : World) (oldpacket : DhcpPacket)
    (yiaddr : UInt32) (server : Server) : Server :=
  let leaseTimeSec := selectLeaseTime config oldpacket
  let server := sendPacket
    { type := .ack, chaddr := oldpacket.chaddr, yiaddr := yiaddr
      leaseTimeSec := some leaseTimeSec, before := server.leases, clock := server.clock } server
  let server := (addLease world (some oldpacket.chaddr) yiaddr leaseTimeSec
    oldpacket.hostName server).2
  writeLeases world server

/-- `send_inform`: an ACK without `yiaddr` and lease time. -/
def sendInform (oldpacket : DhcpPacket) (server : Server) : Server :=
  sendPacket
    { type := .ack, chaddr := oldpacket.chaddr, yiaddr := 0, leaseTimeSec := none
      before := server.leases, clock := server.clock } server

/-! ## The main loop -/

/-- The lease the main loop looks up for a client: `&fake_lease` for a static one. -/
def lookupLease (config : ServerData) (mac : Mac) (server : Server) : Option LeasePtr :=
  let staticLeaseNip := getStaticNipByMac config mac
  if staticLeaseNip ≠ 0 then
    some (.fake staticLeaseNip)
  else
    (findLeaseByMac mac server).map .slot

/-- The DHCPREQUEST case. -/
def handleRequest (config : ServerData) (world : World) (packet : DhcpPacket)
    (lease : Option LeasePtr) (server : Server) : Server :=
  let requestedIpOpt := packet.option32 dhcpRequestedIp
  let requestedNip := requestedIpOpt.getD packet.ciaddr
  if requestedIpOpt = none ∧ requestedNip = 0 then
    server
  else if ∃ ptr ∈ lease, requestedNip = ptr.leaseNip server then
    sendAck config world packet requestedNip server
  else if packet.option32 dhcpServerId ≠ none ∨ requestedIpOpt ≠ none then
    sendNak packet server
  else
    server

/-- The DHCPDECLINE case: the address stays set aside under the zero MAC. A write
through `&fake_lease` changes nothing in the table. -/
def handleDecline (config : ServerData) (world : World) (packet : DhcpPacket)
    (lease : Option LeasePtr) (server : Server) : Server :=
  match packet.option32 dhcpServerId, packet.option32 dhcpRequestedIp, lease with
  | some _, some requestedNip, some (.slot index) =>
    if requestedNip = (server.leaseAt index).leaseNip then
      let (now, server) := time world server
      server.store (server.leases.set index
        { server.leaseAt index with leaseMac := zeroMac, expires := now + config.declineTime })
    else
      server
  | _, _, _ => server

/-- The DHCPRELEASE case. -/
def handleRelease (world : World) (packet : DhcpPacket) (lease : Option LeasePtr)
    (server : Server) : Server :=
  match packet.option32 dhcpServerId, lease with
  | some _, some (.slot index) =>
    if packet.ciaddr = (server.leaseAt index).leaseNip then
      let (now, server) := time world server
      server.store (server.leases.set index { server.leaseAt index with expires := now })
    else
      server
  | _, _ => server

/-- The `switch` on the message type. -/
def dispatch (config : ServerData) (world : World) (packet : DhcpPacket) (state : UInt8)
    (server : Server) : Server :=
  let staticLeaseNip := getStaticNipByMac config packet.chaddr
  let lease := lookupLease config packet.chaddr server
  match state.toNat with
  | 1 => sendOffer config world packet staticLeaseNip lease
      ((packet.option32 dhcpRequestedIp).getD 0) server
  | 3 => handleRequest config world packet lease server
  | 4 => handleDecline config world packet lease server
  | 7 => handleRelease world packet lease server
  | 8 => sendInform packet server
  | _ => server

/-- The tests the main loop makes on a received packet: the message type of a
packet it goes on with, `none` for one it ignores. -/
def packetState (config : ServerData) (packet : DhcpPacket) : Option UInt8 :=
  if packet.hlen ≠ 6 then
    none
  else if packet.op ≠ bootRequest then
    none
  else
    match packet.option dhcpMessageType with
    | none => none
    | some [] => none
    | some (state :: _) =>
      if state < 1 ∨ 8 < state then
        none
      else if ∃ serverId ∈ packet.option32 dhcpServerId, serverId ≠ config.serverNip then
        -- client talks to somebody else
        none
      else
        some state

/-- What the main loop does with one received packet. -/
def handlePacket (config : ServerData) (world : World) (server : Server)
    (packet : DhcpPacket) : Server :=
  match packetState config packet with
  | none => server
  | some state => dispatch config world packet state server

/-- What makes the main loop leave `poll`: a packet, or the `auto_time` timeout
and SIGUSR1, upon which it writes the lease file. -/
inductive Input
  | packet (packet : DhcpPacket)
  | writeLeases

/-- One turn of the main loop. -/
def serverStep (config : ServerData) (world : World) (server : Server) : Input → Server
  | .packet packet => handlePacket config world server packet
  | .writeLeases => writeLeases world server

/-! ## Start-up -/

/-- The tests and the conversion `read_leases` makes on one record: `none` when
the record is passed over, else its remaining seconds. -/
def recordTimeLeft (config : ServerData) (timePassed : UInt32) (lease : DynLease) :
    Option UInt32 :=
  let y := ntohl lease.leaseNip
  if config.startIp ≤ y ∧ y ≤ config.endIp then
    if getStaticNipByMac config lease.leaseMac ≠ 0 then
      none
    else if isNipReservedAsStatic config lease.leaseNip then
      none
    else
      -- expired leases are kept with 0 seconds left
      some (clampNegative (ntohl lease.expires - timePassed))
  else
    none

/-- The loop of `read_leases` over the records. -/
def loadRecords (config : ServerData) (world : World) (timePassed : UInt32) :
    List DynLease → Server → Server
  | [], server => server
  | lease :: rest, server =>
    match recordTimeLeft config timePassed lease with
    | none => loadRecords config world timePassed rest server
    | some expires =>
      match addLease world (some lease.leaseMac) lease.leaseNip expires
          (some (lease.hostname, hostnameSize)) server with
      | (none, server) => server
      | (some _, server) => loadRecords config world timePassed rest server

/-- `read_leases`. -/
def readLeases (config : ServerData) (world : World) (file : Option LeaseFile)
    (server : Server) : Server :=
  match file with
  | none => server
  | some file =>
    let (now, server) := timeNull world server
    let timePassed : Int := now - file.writtenAt
    if timePassed < 0 ∨ 12 * 60 * 60 < timePassed then
      server
    else
      loadRecords config world (UInt32.ofNat timePassed.toNat) file.records server

/-- The server after `xzalloc` of the lease table. -/
def zeroServer (config : ServerData) (leaseFile : Option LeaseFile) : Server where
  leases := List.replicate config.maxLeases emptyLease
  timeCalls := 0
  arpCalls := 0
  clock := 0
  leaseFile := leaseFile
  sent := []
  history := [List.replicate config.maxLeases emptyLease]

/-- The server when the main loop starts. -/
def startServer (config : ServerData) (world : World) (leaseFile : Option LeaseFile) : Server :=
  readLeases config world leaseFile (zeroServer config leaseFile)

/-- The server after the inputs, one after another. -/
def runServer (config : ServerData) (world : World) (start : Server)
    (inputs : List Input) : Server :=
  GuardedRun.run (serverStep config world) start inputs

/-! ## A small network

Three addresses, one of them reserved for `printerMac`, and two more clients. -/

def printerMac : Mac := #v[2, 0, 0, 0, 0, 1]
def laptopMac : Mac := #v[2, 0, 0, 0, 0, 2]
def phoneMac : Mac := #v[2, 0, 0, 0, 0, 3]

/-- The server is 192.168.0.1 and hands out 192.168.0.20 to 192.168.0.22. -/
def officeConfig (staticLeases : List StaticLease) : ServerData where
  serverNip := htonl 0xC0A80001
  startIp := 0xC0A80014
  endIp := 0xC0A80016
  maxLeaseSec := 864000
  minLeaseSec := 60
  maxLeases := 3
  declineTime := 3600
  conflictTime := 3600
  offerTime := 60
  staticLeases := staticLeases

/-- 192.168.0.21 is reserved for the printer. -/
def printerLine : StaticLease := ⟨printerMac, htonl 0xC0A80015⟩

/-- A network where the clock stands still and nobody answers an ARP probe. -/
def quietWorld : World := ⟨fun _ => 1000, fun _ => true⟩

/-- A packet of the given type with a requested-IP option; only a DISCOVER (1) names
no server. -/
def request (type : UInt8) (mac : Mac) (requested : List UInt8) : DhcpPacket where
  op := bootRequest
  hlen := 6
  ciaddr := 0
  chaddr := mac
  option code :=
    if code = dhcpMessageType then some [type]
    else if code = dhcpRequestedIp then some requested
    else if code = dhcpServerId ∧ type ≠ 1 then some [192, 168, 0, 1]
    else none

end Busybox.Udhcp
