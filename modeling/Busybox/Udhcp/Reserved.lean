import Busybox.Udhcp.Steps

/-!
# Reserved addresses

An address of a `static_lease` line is meant for one client, and the server's
own address for none. The address scan skips both. `send_offer` accepts a
requested address without asking whether it is one of them, so the exclusion
holds of the runs in which no request for such an address is accepted.
-/

namespace Busybox.Udhcp

/-- The address is neither the server's own nor reserved for another client. -/
def AllowedFor (config : ServerData) (mac : Mac) (nip : UInt32) : Prop :=
  nip ≠ config.serverNip ∧
    ∀ staticLease ∈ config.staticLeases, staticLease.nip = nip → staticLease.mac = mac

/-- The address is neither the server's own nor statically reserved. -/
def Requestable (config : ServerData) (nip : UInt32) : Prop :=
  nip ≠ config.serverNip ∧ isNipReservedAsStatic config nip = false

/-- A configuration that does not contradict itself: its addresses are real, and the
address a client's static lease gives it is allowed for it. -/
structure Consistent (config : ServerData) : Prop where
  serverReal : config.serverNip ≠ 0
  staticReal : ∀ staticLease ∈ config.staticLeases, staticLease.nip ≠ 0
  staticAllowed : ∀ mac, getStaticNipByMac config mac ≠ 0 →
    AllowedFor config mac (getStaticNipByMac config mac)

/-- Every address in the table is allowed for the hardware address beside it. -/
def Allowed (config : ServerData) (table : List DynLease) : Prop :=
  ∀ lease ∈ table, lease.leaseNip ≠ 0 → AllowedFor config lease.leaseMac lease.leaseNip

variable {config : ServerData}

theorem Requestable.allowedFor {nip : UInt32} (requestable : Requestable config nip) (mac : Mac) :
    AllowedFor config mac nip := by
  refine ⟨requestable.1, fun staticLease member same => ?_⟩
  have unreserved := requestable.2
  simp only [isNipReservedAsStatic, List.any_eq_false, beq_iff_eq] at unreserved
  exact absurd same (unreserved staticLease member)

/-- What the scan does not skip is neither the server's own nor reserved. -/
theorem Scanned.requestable {nip : UInt32} (range : Scanned config nip) :
    Requestable config nip := by
  obtain ⟨addr, usable, rfl⟩ := range
  simp only [skipsAddress, Bool.or_eq_false_iff, beq_eq_false_iff_ne] at usable
  exact ⟨usable.1.2, usable.2⟩

/-- A client without a static address has no static line at all. -/
theorem Consistent.no_line (consistent : Consistent config) {mac : Mac}
    (dynamic : getStaticNipByMac config mac = 0) :
    ∀ staticLease ∈ config.staticLeases, staticLease.mac ≠ mac := by
  intro staticLease member same
  unfold getStaticNipByMac at dynamic
  split at dynamic
  case h_1 first found =>
    exact consistent.staticReal first (List.mem_of_find?_eq_some found) dynamic
  case h_2 missing =>
    exact List.find?_eq_none.mp missing staticLease member (by simpa using same)

/-- Every granted address is allowed for the client it is granted to. -/
theorem Grant.allowedFor {table : List DynLease} {clock nip : UInt32} {mac : Mac}
    (grant : Grant config (Requestable config) table clock mac nip)
    (consistent : Consistent config) (allowed : Allowed config table) :
    AllowedFor config mac nip := by
  cases grant with
  | static real => exact consistent.staticAllowed mac real
  | requested _ _ accepted _ => exact accepted.allowedFor mac
  | scanned _ _ range _ => exact range.requestable.allowedFor mac
  | @renewed lease _ member owner =>
    by_cases real : lease.leaseNip = 0
    · rw [real]
      exact ⟨consistent.serverReal.symm, fun staticLease line zero =>
        absurd zero (consistent.staticReal staticLease line)⟩
    · exact owner ▸ allowed lease member real

theorem Allowed.cleared {table : List DynLease} (allowed : Allowed config table)
    (chaddr : Option Mac) (nip : UInt32) : Allowed config (clearedTable chaddr nip table) := by
  intro lease member real
  rcases mem_clearedTable member with rfl | ⟨old, -⟩
  · exact absurd rfl real
  · exact allowed lease old real

theorem Allowed.set {table : List DynLease} (allowed : Allowed config table) {slot : Nat}
    {entry : DynLease}
    (fits : entry.leaseNip ≠ 0 → AllowedFor config entry.leaseMac entry.leaseNip) :
    Allowed config (table.set slot entry) := by
  intro lease member real
  rcases List.mem_or_eq_of_mem_set member with before | rfl
  · exact allowed lease before real
  · exact fits real

/-- Under a consistent configuration every edit keeps the table allowed. -/
theorem allowed_rules (consistent : Consistent config) :
    TableRules config (Requestable config) (Allowed config) where
  cleared allowed := allowed.cleared
  conflict allowed range _ _ :=
    (allowed.cleared none _).set fun _ => range.requestable.allowedFor zeroMac
  granted allowed grant _ _ _ :=
    (allowed.cleared _ _).set fun _ => grant.allowedFor consistent allowed
  declined allowed atSlot dynamic _ := by
    refine allowed.set fun real => ?_
    obtain ⟨foreign, owned⟩ := allowed _ (List.mem_of_getElem? atSlot) real
    -- the client of a dynamic lease has no static line that its address could come from
    exact ⟨foreign, fun staticLease line same =>
      absurd (owned staticLease line same) (consistent.no_line dynamic staticLease line)⟩
  released allowed atSlot _ := by
    have before := allowed _ (List.mem_of_getElem? atSlot)
    exact allowed.set before

/-- The lease file does not assign the server's own address. -/
def FileAllowed (config : ServerData) (file : Option LeaseFile) : Prop :=
  ∀ contents ∈ file, ∀ lease ∈ contents.records,
    config.startIp ≤ ntohl lease.leaseNip → ntohl lease.leaseNip ≤ config.endIp →
      lease.leaseNip ≠ config.serverNip

/-- A record that `read_leases` does not pass over is in the range and not reserved. -/
theorem recordTimeLeft_ne_none {timePassed : UInt32} {lease : DynLease}
    (kept : recordTimeLeft config timePassed lease ≠ none) :
    config.startIp ≤ ntohl lease.leaseNip ∧ ntohl lease.leaseNip ≤ config.endIp ∧
      getStaticNipByMac config lease.leaseMac = 0 ∧
      isNipReservedAsStatic config lease.leaseNip = false := by
  unfold recordTimeLeft at kept
  dsimp only at kept
  split at kept
  case isFalse => exact absurd rfl kept
  case isTrue inRange =>
    split at kept
    · exact absurd rfl kept
    case isFalse dynamic =>
      split at kept
      · exact absurd rfl kept
      case isFalse unreserved =>
        exact ⟨inRange.1, inRange.2, not_not.mp dynamic, by simpa using unreserved⟩

/-- In every run under a consistent configuration, from any lease file that does not
assign the server's own address, in which `send_offer` accepts no request for the
server's own or a statically reserved address: the address of every OFFER, and of
every ACK of a REQUEST, is allowed for the client it is sent to. -/
theorem run_allowed (config : ServerData) (world : World) (file : Option LeaseFile)
    (inputs : List Input) (consistent : Consistent config) (fileAllowed : FileAllowed config file)
    (admitted : GuardedRun.Admitted (serverStep config world)
      (InputGuard config world (Requestable config)) (startServer config world file) inputs) :
    ∀ reply ∈ (runServer config world (startServer config world file) inputs).sent,
      reply.leaseTimeSec ≠ none → AllowedFor config reply.chaddr reply.yiaddr := by
  have rules := allowed_rules consistent
  have zero : Allowed config (List.replicate config.maxLeases emptyLease) := by
    intro lease member real
    rw [List.eq_of_mem_replicate member] at real
    exact absurd rfl real
  have start : ServerInv config (Requestable config) (Allowed config)
      (startServer config world file) := by
    refine ServerInv.start rules zero ?_
    intro contents present lease member timePassed kept table slot leasetime hostname now allowed
    obtain ⟨lower, upper, -, unreserved⟩ := recordTimeLeft_ne_none kept
    have requestable : Requestable config lease.leaseNip :=
      ⟨fileAllowed contents present lease member lower upper, unreserved⟩
    exact (allowed.cleared _ _).set fun _ => requestable.allowedFor lease.leaseMac
  intro reply sent carries
  obtain ⟨allowed, grounds⟩ := (start.run rules admitted).replies reply sent
  exact (grounds carries).allowedFor consistent allowed

/-- Reserving one address for the printer is consistent. -/
theorem consistent_office : Consistent (officeConfig [printerLine]) where
  serverReal := by decide
  staticReal := by decide
  staticAllowed := by
    intro mac line
    obtain rfl : mac = printerMac := by
      by_contra other
      have foreign : printerLine.mac ≠ mac := fun same => other same.symm
      simp [getStaticNipByMac, officeConfig, foreign] at line
    exact ⟨by decide, by decide⟩

/-- The laptop renews its own address and the printer is acknowledged its reserved one. -/
theorem run_allowed_office :
    let config := officeConfig [printerLine]
    let final := runServer config quietWorld (startServer config quietWorld none)
      [.packet (request 1 laptopMac [192, 168, 0, 20]),
        .packet (request 3 printerMac [192, 168, 0, 21])]
    (∃ reply ∈ final.sent, reply.type = .offer ∧ reply.chaddr = laptopMac) ∧
    (∃ reply ∈ final.sent, reply.type = .ack ∧ reply.yiaddr = printerLine.nip) ∧
    ∀ reply ∈ final.sent, reply.leaseTimeSec ≠ none →
      AllowedFor config reply.chaddr reply.yiaddr := by
  refine ⟨by decide, by decide, run_allowed _ quietWorld none _ consistent_office ?_ ?_⟩
  · simp [FileAllowed]
  · refine ⟨fun _ _ _ _ _ _ _ => ⟨by decide, by decide⟩, ?_, trivial⟩
    intro discover
    exact absurd discover (by decide)

/-- The laptop asks for the printer's address and is offered it; where the range
holds the server's own address, that is offered as well. -/
theorem sendOffer_offers_reserved :
    (¬ ∀ (config : ServerData) (world : World) (inputs : List Input), Consistent config →
      ∀ reply ∈ (runServer config world (startServer config world none) inputs).sent,
        reply.leaseTimeSec ≠ none →
          ∀ staticLease ∈ config.staticLeases, staticLease.nip = reply.yiaddr →
            staticLease.mac = reply.chaddr) ∧
    ¬ ∀ (config : ServerData) (world : World) (inputs : List Input), Consistent config →
      ∀ reply ∈ (runServer config world (startServer config world none) inputs).sent,
        reply.leaseTimeSec ≠ none → reply.yiaddr ≠ config.serverNip := by
  refine ⟨fun claim => ?_, fun claim => ?_⟩
  · exact absurd (claim (officeConfig [printerLine]) quietWorld
      [.packet (request 1 laptopMac [192, 168, 0, 21])] consistent_office) (by decide)
  · have consistent : Consistent { officeConfig [] with serverNip := htonl 0xC0A80016 } :=
      ⟨by decide, by decide, fun mac line => absurd rfl line⟩
    exact absurd (claim _ quietWorld [.packet (request 1 laptopMac [192, 168, 0, 22])]
      consistent) (by decide)

end Busybox.Udhcp
