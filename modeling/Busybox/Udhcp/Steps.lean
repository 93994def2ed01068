import Busybox.Udhcp.Server

/-!
# What a step of the server can do

Every edit of the lease table is a clearing, a conflict entry, a grant, a
decline or a release, and every reply that carries a lease rests on a `Grant`.
`TableRules` lists what a property of tables has to survive; from it
`ServerInv` is kept by every step, so that each invariant of the server is
proved by going through the edits once.
-/

namespace Busybox.Udhcp

/-- The address comes from the scanned range: it is none of the addresses the
scan skips. -/
def Scanned (config : ServerData) (nip : UInt32) : Prop :=
  ∃ addr, skipsAddress config addr = false ∧ nip = htonl addr

/-- No entry has the address, or one that has it is expired. -/
def FreeAt (table : List DynLease) (clock nip : UInt32) : Prop :=
  (∀ lease ∈ table, lease.leaseNip ≠ nip) ∨
    ∃ lease ∈ table, lease.leaseNip = nip ∧ lease.expiredAt clock

/-- The grounds on which the server gives an address to a client: its static
lease, its dynamic lease, a free address it asked for (one that meets
`okRequest`), or one the scan found. -/
inductive Grant (config : ServerData) (okRequest : UInt32 → Prop) (table : List DynLease)
    (clock : UInt32) (mac : Mac) : UInt32 → Prop
  | static (real : getStaticNipByMac config mac ≠ 0) :
      Grant config okRequest table clock mac (getStaticNipByMac config mac)
  | renewed {lease : DynLease} (dynamic : getStaticNipByMac config mac = 0)
      (member : lease ∈ table) (owner : lease.leaseMac = mac) :
      Grant config okRequest table clock mac lease.leaseNip
  | requested {nip : UInt32} (dynamic : getStaticNipByMac config mac = 0) (real : nip ≠ 0)
      (accepted : okRequest nip) (free : FreeAt table clock nip) :
      Grant config okRequest table clock mac nip
  | scanned {nip : UInt32} (dynamic : getStaticNipByMac config mac = 0) (real : nip ≠ 0)
      (range : Scanned config nip) (free : FreeAt table clock nip) :
      Grant config okRequest table clock mac nip

/-- A property of tables that survives every edit the server makes. -/
structure TableRules (config : ServerData) (okRequest : UInt32 → Prop)
    (P : List DynLease → Prop) : Prop where
  cleared : ∀ {table}, P table → ∀ chaddr nip, P (clearedTable chaddr nip table)
  conflict : ∀ {table nip slot}, P table → Scanned config nip →
    ∀ leasetime now, P ((clearedTable none nip table).set slot
      (newLease none nip leasetime none now))
  granted : ∀ {table clock mac nip slot}, P table → Grant config okRequest table clock mac nip →
    ∀ leasetime hostname now, P ((clearedTable (some mac) nip table).set slot
      (newLease (some mac) nip leasetime hostname now))
  declined : ∀ {table slot lease}, P table → table[slot]? = some lease →
    getStaticNipByMac config lease.leaseMac = 0 →
    ∀ expires, P (table.set slot { lease with leaseMac := zeroMac, expires := expires })
  released : ∀ {table slot lease}, P table → table[slot]? = some lease →
    ∀ expires, P (table.set slot { lease with expires := expires })

/-- The grounds of a reply: unless it carries no lease (a NAK, or the answer to
an INFORM), its address was granted from the table it was settled on. -/
def Grounded (config : ServerData) (okRequest : UInt32 → Prop) (P : List DynLease → Prop)
    (reply : Reply) : Prop :=
  P reply.before ∧ (reply.leaseTimeSec ≠ none →
    Grant config okRequest reply.before reply.clock reply.chaddr reply.yiaddr)

/-- The property holds of the table now and at every moment before, and every
reply had its grounds. -/
structure ServerInv (config : ServerData) (okRequest : UInt32 → Prop)
    (P : List DynLease → Prop) (server : Server) : Prop where
  current : P server.leases
  past : ∀ table ∈ server.history, P table
  replies : ∀ reply ∈ server.sent, Grounded config okRequest P reply

section Preservation

variable {config : ServerData} {okRequest : UInt32 → Prop} {P : List DynLease → Prop}
  {world : World} {server : Server}

/-- The invariant looks at the tables and the replies only. -/
theorem ServerInv.congr {after : Server} (inv : ServerInv config okRequest P server)
    (leases : after.leases = server.leases) (history : after.history = server.history)
    (sent : after.sent = server.sent) : ServerInv config okRequest P after where
  current := leases ▸ inv.current
  past := history ▸ inv.past
  replies := sent ▸ inv.replies

theorem ServerInv.time (inv : ServerInv config okRequest P server) :
    ServerInv config okRequest P (time world server).2 :=
  inv.congr rfl rfl rfl

/-- Storing a table that has the property keeps the invariant. -/
theorem ServerInv.store (inv : ServerInv config okRequest P server) {table : List DynLease}
    (holds : P table) : ServerInv config okRequest P (server.store table) where
  current := holds
  past := by
    intro old member
    rcases List.mem_append.mp member with before | here
    · exact inv.past old before
    · obtain rfl := List.mem_singleton.mp here
      exact holds
  replies := inv.replies

/-- Sending a grounded reply keeps the invariant. -/
theorem ServerInv.send (inv : ServerInv config okRequest P server) {reply : Reply}
    (grounded : Grounded config okRequest P reply) :
    ServerInv config okRequest P (sendPacket reply server) where
  current := inv.current
  past := inv.past
  replies := by
    intro other member
    rcases List.mem_append.mp member with before | here
    · exact inv.replies other before
    · obtain rfl := List.mem_singleton.mp here
      exact grounded

/-- `add_lease` keeps the invariant when every insertion it may make does. -/
theorem ServerInv.addLease (inv : ServerInv config okRequest P server)
    (rules : TableRules config okRequest P) {chaddr : Option Mac} {nip leasetime : UInt32}
    {hostname : Option (List UInt8 × Nat)}
    (inserted : ∀ slot now, P ((clearedTable chaddr nip server.leases).set slot
      (newLease chaddr nip leasetime hostname now))) :
    ServerInv config okRequest P (addLease world chaddr nip leasetime hostname server).2 := by
  have cleared := rules.cleared inv.current chaddr nip
  rcases addLease_cases world chaddr nip leasetime hostname server with
    ⟨after, result, leases, history, sent, -⟩ | ⟨after, slot, old, result, -, -, leases, history, sent⟩
  · rw [result]
    refine ⟨leases ▸ cleared, ?_, sent ▸ inv.replies⟩
    rw [history]
    simpa [or_imp, forall_and] using ⟨inv.past, cleared⟩
  · rw [result]
    have holds : P after.leases := leases ▸ inserted slot _
    refine ⟨holds, ?_, sent ▸ inv.replies⟩
    rw [history]
    simpa [or_imp, forall_and] using ⟨inv.past, cleared, holds⟩

/-- A probe that nobody answers leaves the table alone. -/
theorem nobodyRespondsToArp_true {nip : UInt32} {after : Server}
    (result : nobodyRespondsToArp config world nip server = (true, after)) :
    after = { server with arpCalls := server.arpCalls + 1 } := by
  cases answer : world.arpping server.arpCalls <;>
    simp only [nobodyRespondsToArp, answer, if_true, Bool.false_eq_true, if_false,
      Prod.mk.injEq, true_and, false_and] at result
  exact result.symm

/-- A probe that somebody answers makes a conflict entry. -/
theorem nobodyRespondsToArp_false {nip : UInt32} {after : Server}
    (result : nobodyRespondsToArp config world nip server = (false, after)) :
    after = (addLease world none nip config.conflictTime none
      { server with arpCalls := server.arpCalls + 1 }).2 := by
  cases answer : world.arpping server.arpCalls <;>
    simp only [nobodyRespondsToArp, answer, if_true, Bool.false_eq_true, if_false,
      Prod.mk.injEq, true_and, Bool.true_eq_false, false_and] at result
  exact result.symm

/-- A probe keeps the invariant: the only entry it makes is a conflict entry. -/
theorem ServerInv.nobodyRespondsToArp (inv : ServerInv config okRequest P server)
    (rules : TableRules config okRequest P) {nip : UInt32} (range : Scanned config nip)
    {nobody : Bool} {after : Server}
    (result : nobodyRespondsToArp config world nip server = (nobody, after)) :
    ServerInv config okRequest P after := by
  cases nobody with
  | true =>
    rw [nobodyRespondsToArp_true result]
    exact inv.congr rfl rfl rfl
  | false =>
    rw [nobodyRespondsToArp_false result]
    have probed : ServerInv config okRequest P { server with arpCalls := server.arpCalls + 1 } :=
      inv.congr rfl rfl rfl
    exact probed.addLease rules fun slot now => rules.conflict inv.current range _ now

theorem findLeaseByNip_none {nip : UInt32} (absent : findLeaseByNip nip server = none) :
    ∀ lease ∈ server.leases, lease.leaseNip ≠ nip := by
  simpa [findLeaseByNip] using absent

/-- A pointer found in the table refers to a lease of the table that passes the test. -/
theorem leaseAt_of_findIdx? {test : DynLease → Bool} {slot : Nat}
    (found : server.leases.findIdx? test = some slot) :
    server.leases[slot]? = some (server.leaseAt slot) ∧ test (server.leaseAt slot) = true := by
  obtain ⟨bound, passes, -⟩ := List.findIdx?_eq_some_iff_getElem.mp found
  have atSlot : server.leases[slot]? = some server.leases[slot] := List.getElem?_eq_getElem bound
  have same : server.leaseAt slot = server.leases[slot] := by simp [Server.leaseAt, atSlot]
  exact ⟨same ▸ atSlot, same ▸ passes⟩

/-- A pointer to a lease with an address is one into the table. -/
theorem leaseAt_of_ne_zero {slot : Nat} (real : (server.leaseAt slot).leaseNip ≠ 0) :
    server.leases[slot]? = some (server.leaseAt slot) := by
  cases atSlot : server.leases[slot]? with
  | none => exact absurd (by simp [Server.leaseAt, atSlot, emptyLease]) real
  | some lease => simp [Server.leaseAt, atSlot]

/-- Clearing an address that no entry has leaves the table alone. -/
theorem clearedTable_of_absent {nip : UInt32} {table : List DynLease}
    (absent : ∀ lease ∈ table, lease.leaseNip ≠ nip) : clearedTable none nip table = table := by
  have kept : ∀ lease ∈ table,
      (if clearsLease none nip lease then emptyLease else lease) = id lease := by
    intro lease member
    simp [clearsLease, absent lease member]
  rw [clearedTable, List.map_congr_left kept, List.map_id]

/-! ## The scan -/

/-- The pointer the scan carries refers to a lease of an address it did not skip. -/
def PointsIntoRange (config : ServerData) (server : Server) (oldest : Option Nat) : Prop :=
  ∀ slot ∈ oldest, Scanned config (server.leaseAt slot).leaseNip

/-- A conflict entry made during the scan leaves the carried pointer in range,
whether it overwrites the lease pointed to or another. -/
theorem PointsIntoRange.addLease {oldest : Option Nat}
    (points : PointsIntoRange config server oldest) {nip leasetime : UInt32}
    (range : Scanned config nip) (absent : ∀ lease ∈ server.leases, lease.leaseNip ≠ nip) :
    PointsIntoRange config (addLease world none nip leasetime none server).2 oldest := by
  intro slot member
  have before := points slot member
  rcases addLease_cases world none nip leasetime none server with
    ⟨after, result, leases, -⟩ | ⟨after, written, old, result, -, -, leases, -⟩
  · rw [result]
    simpa [Server.leaseAt, leases, clearedTable_of_absent absent] using before
  · rw [result]
    simp only [Server.leaseAt, leases, clearedTable_of_absent absent]
    rcases eq_or_ne written slot with rfl | other
    · cases atSlot : server.leases[written]? with
      | none => simpa [Server.leaseAt, atSlot, List.getElem?_set_self'] using before
      | some lease => simpa [atSlot, List.getElem?_set_self', newLease] using range
    · rw [List.getElem?_set_ne other]
      exact before

/-- What one turn of the scan can do. -/
inductive ScanTurn (config : ServerData) (world : World) (addr : UInt32) (oldest : Option Nat)
    (server : Server) : Option UInt32 → Option Nat → Server → Prop
  | skipped (skips : skipsAddress config addr = true) :
      ScanTurn config world addr oldest server none oldest server
  | free {after : Server} (usable : skipsAddress config addr = false)
      (absent : findLeaseByNip (htonl addr) server = none)
      (probe : nobodyRespondsToArp config world (htonl addr) server = (true, after)) :
      ScanTurn config world addr oldest server (some (htonl addr)) oldest after
  | conflict {after : Server} (usable : skipsAddress config addr = false)
      (absent : findLeaseByNip (htonl addr) server = none)
      (probe : nobodyRespondsToArp config world (htonl addr) server = (false, after)) :
      ScanTurn config world addr oldest server none oldest after
  | older {slot : Nat} (usable : skipsAddress config addr = false)
      (present : findLeaseByNip (htonl addr) server = some slot)
      (older : ∀ held ∈ oldest, (server.leaseAt slot).expires < (server.leaseAt held).expires) :
      ScanTurn config world addr oldest server none (some slot) server
  | younger {slot held : Nat} (usable : skipsAddress config addr = false)
      (present : findLeaseByNip (htonl addr) server = some slot) (remembered : oldest = some held)
      (younger : (server.leaseAt held).expires ≤ (server.leaseAt slot).expires) :
      ScanTurn config world addr oldest server none oldest server

theorem scanAddress_turn {addr : UInt32} {oldest : Option Nat} {found : Option UInt32}
    {oldest' : Option Nat} {after : Server}
    (result : scanAddress config world addr oldest server = (found, oldest', after)) :
    ScanTurn config world addr oldest server found oldest' after := by
  unfold scanAddress at result
  split at result
  case isTrue skips =>
    cases result
    exact .skipped skips
  case isFalse usable =>
    have usable : skipsAddress config addr = false := by simpa using usable
    split at result
    case h_1 absent =>
      cases probe : nobodyRespondsToArp config world (htonl addr) server with
      | mk nobody probed =>
        rw [probe] at result
        cases nobody with
        | true =>
          cases result
          exact .free usable absent probe
        | false =>
          cases result
          exact .conflict usable absent probe
    case h_2 slot present =>
      split at result
      · cases result
        exact .older usable present (by simp)
      · split at result
        case isTrue older =>
          cases result
          exact .older usable present (by rintro held ⟨⟩; exact older)
        case isFalse younger =>
          cases result
          exact .younger usable present rfl (UInt32.not_lt.mp younger)

/-- One turn of the scan keeps the invariant and the carried pointer in range; an
address it returns is a free one of the range. -/
theorem scanAddress_spec (inv : ServerInv config okRequest P server)
    (rules : TableRules config okRequest P) {addr : UInt32} {oldest : Option Nat}
    (points : PointsIntoRange config server oldest) {found : Option UInt32}
    {oldest' : Option Nat} {after : Server}
    (result : scanAddress config world addr oldest server = (found, oldest', after)) :
    ServerInv config okRequest P after ∧ PointsIntoRange config after oldest' ∧
      ∀ nip ∈ found, Scanned config nip ∧ ∀ lease ∈ after.leases, lease.leaseNip ≠ nip := by
  have inRange (usable : skipsAddress config addr = false) : Scanned config (htonl addr) :=
    ⟨addr, usable, rfl⟩
  cases scanAddress_turn result with
  | skipped => exact ⟨inv, points, by simp⟩
  | free usable absent probe =>
    have kept := inv.nobodyRespondsToArp rules (inRange usable) probe
    obtain rfl := nobodyRespondsToArp_true probe
    refine ⟨kept, points, ?_⟩
    rintro nip ⟨⟩
    exact ⟨inRange usable, findLeaseByNip_none absent⟩
  | conflict usable absent probe =>
    refine ⟨inv.nobodyRespondsToArp rules (inRange usable) probe, ?_, by simp⟩
    rw [nobodyRespondsToArp_false probe]
    have probed : PointsIntoRange config { server with arpCalls := server.arpCalls + 1 } oldest :=
      points
    exact probed.addLease (inRange usable) (findLeaseByNip_none absent)
  | older usable present =>
    refine ⟨inv, ?_, by simp⟩
    rintro other ⟨⟩
    rw [eq_of_beq (leaseAt_of_findIdx? present).2]
    exact inRange usable
  | younger => exact ⟨inv, points, by simp⟩

/-- The whole scan, by induction on the addresses to go. -/
theorem scanAddresses_spec (rules : TableRules config okRequest P) {left : Nat} {addr : UInt32}
    {oldest : Option Nat} (inv : ServerInv config okRequest P server)
    (points : PointsIntoRange config server oldest) {found : Option UInt32}
    {oldest' : Option Nat} {after : Server}
    (result : scanAddresses config world left addr oldest server = (found, oldest', after)) :
    ServerInv config okRequest P after ∧ PointsIntoRange config after oldest' ∧
      ∀ nip ∈ found, Scanned config nip ∧ ∀ lease ∈ after.leases, lease.leaseNip ≠ nip := by
  induction left generalizing addr oldest server with
  | zero =>
    cases result
    exact ⟨inv, points, by simp⟩
  | succ left ih =>
    rw [scanAddresses] at result
    cases turn : scanAddress config world addr oldest server with
    | mk returned rest =>
      obtain ⟨pointer, scanned⟩ := rest
      obtain ⟨kept, keptPoints, usable⟩ := scanAddress_spec inv rules points turn
      rw [turn] at result
      cases returned with
      | some nip =>
        cases result
        exact ⟨kept, keptPoints, usable⟩
      | none => exact ih kept keptPoints result

/-- An address of the range is never 0: the scan skips every address ending in 0. -/
theorem Scanned.ne_zero {nip : UInt32} (range : Scanned config nip) : nip ≠ 0 := by
  rintro rfl
  obtain ⟨addr, usable, zero⟩ := range
  have addrZero : addr = 0 := by
    have back := congrArg ntohl zero
    simpa [ntohl, htonl, show swap32 0 = 0 from rfl] using back.symm
  subst addrZero
  simp [skipsAddress] at usable

@[simp] theorem isExpiredLease_fst (lease : DynLease) :
    (isExpiredLease world lease server).1 =
      decide (lease.expiredAt (UInt32.ofNat (world.time server.timeCalls))) := rfl

@[simp] theorem isExpiredLease_snd (lease : DynLease) :
    (isExpiredLease world lease server).2 = (time world server).2 := rfl

/-- An address taken from the oldest lease seen was expired there. -/
theorem expiredNip_spec (rules : TableRules config okRequest P)
    (inv : ServerInv config okRequest P server) {slot : Nat}
    (range : Scanned config (server.leaseAt slot).leaseNip) {nip : UInt32} {after : Server}
    (result : expiredNip config world slot server = (nip, after)) :
    ServerInv config okRequest P after ∧
      (nip ≠ 0 → Scanned config nip ∧ FreeAt after.leases after.clock nip) := by
  have member : server.leaseAt slot ∈ server.leases :=
    List.mem_of_getElem? (leaseAt_of_ne_zero range.ne_zero)
  unfold expiredNip at result
  cases check : isExpiredLease world (server.leaseAt slot) server with
  | mk expired checked =>
    obtain rfl : (time world server).2 = checked := congrArg Prod.snd check
    have expiredEq := congrArg Prod.fst check
    rw [check] at result
    cases expired with
    | false =>
      cases result
      exact ⟨inv.time, fun real => absurd rfl real⟩
    | true =>
      dsimp only at result
      cases probe : nobodyRespondsToArp config world ((time world server).2.leaseAt slot).leaseNip
          (time world server).2 with
      | mk nobody probed =>
        have kept := inv.time.nobodyRespondsToArp rules range probe
        rw [probe] at result
        cases nobody with
        | false =>
          cases result
          exact ⟨kept, fun real => absurd rfl real⟩
        | true =>
          obtain rfl := nobodyRespondsToArp_true probe
          cases result
          refine ⟨kept, fun _ => ⟨range, .inr ⟨_, member, rfl, ?_⟩⟩⟩
          simpa using expiredEq

/-- An address `find_free_or_expired_nip` returns is an address of the range that
no unexpired lease had when it was found. -/
theorem findFreeOrExpiredNip_spec (rules : TableRules config okRequest P)
    (inv : ServerInv config okRequest P server) {nip : UInt32} {after : Server}
    (result : findFreeOrExpiredNip config world server = (nip, after)) :
    ServerInv config okRequest P after ∧
      (nip ≠ 0 → Scanned config nip ∧ FreeAt after.leases after.clock nip) := by
  have start : PointsIntoRange config server none := by rintro slot ⟨⟩
  unfold findFreeOrExpiredNip at result
  cases scan : scanAddresses config world (scanLength config) config.startIp none server with
  | mk found rest =>
    obtain ⟨oldest, scanned⟩ := rest
    obtain ⟨kept, points, usable⟩ := scanAddresses_spec rules inv start scan
    rw [scan] at result
    cases found with
    | some address =>
      cases result
      obtain ⟨range, nobodyHas⟩ := usable nip rfl
      exact ⟨kept, fun _ => ⟨range, .inl nobodyHas⟩⟩
    | none =>
      cases oldest with
      | none =>
        cases result
        exact ⟨kept, fun real => absurd rfl real⟩
      | some slot => exact expiredNip_spec rules kept (points slot rfl) result

/-! ## The replies -/

/-- A requested address found free is one no unexpired lease has. -/
theorem requestedIsFree_spec {nip : UInt32} {free : Bool} {after : Server}
    (result : requestedIsFree world nip server = (free, after)) :
    (after = server ∨ after = (time world server).2) ∧
      (free = true → FreeAt after.leases after.clock nip) := by
  unfold requestedIsFree at result
  split at result
  case h_1 absent =>
    cases result
    exact ⟨.inl rfl, fun _ => .inl (findLeaseByNip_none absent)⟩
  case h_2 slot present =>
    obtain rfl : (time world server).2 = after := congrArg Prod.snd result
    have freeEq := congrArg Prod.fst result
    obtain ⟨atSlot, passes⟩ := leaseAt_of_findIdx? present
    refine ⟨.inr rfl, ?_⟩
    rintro rfl
    refine .inr ⟨_, List.mem_of_getElem? atSlot, eq_of_beq passes, ?_⟩
    simpa using freeEq

/-- The step guard: the requested address that `send_offer` is about to accept
meets `okRequest`. -/
def AcceptsOnly (config : ServerData) (world : World) (okRequest : UInt32 → Prop)
    (requestedNip : UInt32) (server : Server) : Prop :=
  requestedNip ≠ 0 → config.startIp ≤ ntohl requestedNip → ntohl requestedNip ≤ config.endIp →
    (requestedIsFree world requestedNip server).1 = true → okRequest requestedNip

/-- An address `send_offer` picks for a client without a static lease has grounds. -/
theorem offeredNip_spec (rules : TableRules config okRequest P)
    (inv : ServerInv config okRequest P server) {mac : Mac} {requestedNip : UInt32}
    (dynamic : getStaticNipByMac config mac = 0)
    (guard : findLeaseByMac mac server = none →
      AcceptsOnly config world okRequest requestedNip server)
    {nip : UInt32} {after : Server}
    (result : offeredNip config world (lookupLease config mac server) requestedNip server =
      (nip, after)) :
    ServerInv config okRequest P after ∧
      (nip ≠ 0 → Grant config okRequest after.leases after.clock mac nip) := by
  have scanned {nip : UInt32} {start after : Server} (inv : ServerInv config okRequest P start)
      (result : findFreeOrExpiredNip config world start = (nip, after)) :
      ServerInv config okRequest P after ∧
        (nip ≠ 0 → Grant config okRequest after.leases after.clock mac nip) := by
    obtain ⟨kept, usable⟩ := findFreeOrExpiredNip_spec rules inv result
    refine ⟨kept, fun real => ?_⟩
    obtain ⟨range, free⟩ := usable real
    exact .scanned dynamic real range free
  simp only [lookupLease, dynamic, ne_eq, not_true_eq_false, if_false] at result
  cases found : findLeaseByMac mac server with
  | some slot =>
    rw [found] at result
    cases result
    obtain ⟨atSlot, owner⟩ := leaseAt_of_findIdx? found
    exact ⟨inv, fun _ => .renewed dynamic (List.mem_of_getElem? atSlot) (eq_of_beq owner)⟩
  | none =>
    rw [found] at result
    simp only [Option.map_none, offeredNip] at result
    split at result
    case isFalse => exact scanned inv result
    case isTrue inRange =>
      obtain ⟨real, lower, upper⟩ := inRange
      cases check : requestedIsFree world requestedNip server with
      | mk free checked =>
        obtain ⟨same, whenFree⟩ := requestedIsFree_spec check
        have kept : ServerInv config okRequest P checked := by
          rcases same with rfl | rfl
          · exact inv
          · exact inv.time
        rw [check] at result
        cases free with
        | false => exact scanned kept result
        | true =>
          cases result
          have accepted := guard found real lower upper (by rw [check])
          exact ⟨kept, fun _ => .requested dynamic real accepted (whenFree rfl)⟩

/-- `send_offer` keeps the invariant. -/
theorem ServerInv.sendOffer (inv : ServerInv config okRequest P server)
    (rules : TableRules config okRequest P) {packet : DhcpPacket} {requestedNip : UInt32}
    (guard : getStaticNipByMac config packet.chaddr = 0 →
      findLeaseByMac packet.chaddr server = none →
      AcceptsOnly config world okRequest requestedNip server) :
    ServerInv config okRequest P (sendOffer config world packet
      (getStaticNipByMac config packet.chaddr) (lookupLease config packet.chaddr server)
      requestedNip server) := by
  unfold Udhcp.sendOffer
  split
  case isFalse static => exact inv.send ⟨inv.current, fun _ => .static static⟩
  case isTrue dynamic =>
    cases pick : offeredNip config world (lookupLease config packet.chaddr server)
        requestedNip server with
    | mk yiaddr chosen =>
      obtain ⟨kept, grounds⟩ := offeredNip_spec rules inv dynamic (guard dynamic) pick
      dsimp only
      split
      · exact kept
      case isFalse real =>
        have grant := grounds real
        have reserved : ServerInv config okRequest P (Udhcp.addLease world (some packet.chaddr)
            yiaddr config.offerTime packet.hostName chosen).2 :=
          kept.addLease rules fun slot now => rules.granted kept.current grant _ _ now
        cases reserve : Udhcp.addLease world (some packet.chaddr) yiaddr config.offerTime
            packet.hostName chosen with
        | mk slot after =>
          rw [reserve] at reserved
          cases slot with
          | none => exact reserved
          | some slot => exact reserved.send ⟨kept.current, fun _ => grant⟩

theorem ServerInv.writeLeases (inv : ServerInv config okRequest P server) :
    ServerInv config okRequest P (writeLeases world server) :=
  inv.congr rfl rfl rfl

/-- `send_ACK` of a granted address keeps the invariant. -/
theorem ServerInv.sendAck (inv : ServerInv config okRequest P server)
    (rules : TableRules config okRequest P) {packet : DhcpPacket} {yiaddr : UInt32}
    (grant : Grant config okRequest server.leases server.clock packet.chaddr yiaddr) :
    ServerInv config okRequest P (sendAck config world packet yiaddr server) := by
  refine ServerInv.writeLeases ?_
  exact (inv.send ⟨inv.current, fun _ => grant⟩).addLease rules
    fun slot now => rules.granted inv.current grant _ _ now

/-- The lease the main loop looks up is the client's static lease or a table
entry with the client's MAC. -/
theorem lookupLease_cases {mac : Mac} {ptr : LeasePtr}
    (found : lookupLease config mac server = some ptr) :
    (getStaticNipByMac config mac ≠ 0 ∧ ptr = .fake (getStaticNipByMac config mac)) ∨
    (getStaticNipByMac config mac = 0 ∧ ∃ slot, ptr = .slot slot ∧
      server.leases[slot]? = some (server.leaseAt slot) ∧
      (server.leaseAt slot).leaseMac = mac) := by
  unfold lookupLease at found
  dsimp only at found
  split at found
  case isTrue static =>
    cases found
    exact .inl ⟨static, rfl⟩
  case isFalse dynamic =>
    obtain ⟨slot, present, rfl⟩ := Option.map_eq_some_iff.mp found
    obtain ⟨atSlot, owner⟩ := leaseAt_of_findIdx? present
    exact .inr ⟨not_not.mp dynamic, slot, rfl, atSlot, eq_of_beq owner⟩

/-- The DHCPREQUEST case keeps the invariant: an ACK repeats the client's lease. -/
theorem ServerInv.handleRequest (inv : ServerInv config okRequest P server)
    (rules : TableRules config okRequest P) {packet : DhcpPacket} :
    ServerInv config okRequest P (handleRequest config world packet
      (lookupLease config packet.chaddr server) server) := by
  unfold Udhcp.handleRequest
  dsimp only
  split
  · exact inv
  split
  case isTrue matching =>
    obtain ⟨ptr, found, same⟩ := matching
    refine inv.sendAck rules (same ▸ ?_)
    rcases lookupLease_cases found with ⟨static, rfl⟩ | ⟨dynamic, slot, rfl, atSlot, owner⟩
    · exact .static static
    · exact .renewed dynamic (List.mem_of_getElem? atSlot) owner
  split
  · exact inv.send ⟨inv.current, fun carries => absurd rfl carries⟩
  · exact inv

/-- The DHCPDECLINE case keeps the invariant. -/
theorem ServerInv.handleDecline (inv : ServerInv config okRequest P server)
    (rules : TableRules config okRequest P) {packet : DhcpPacket} :
    ServerInv config okRequest P (handleDecline config world packet
      (lookupLease config packet.chaddr server) server) := by
  unfold Udhcp.handleDecline
  split
  case h_1 index _ _ found =>
    split
    · rcases lookupLease_cases found with ⟨-, ⟨⟩⟩ | ⟨dynamic, slot, ⟨⟩, atSlot, owner⟩
      exact inv.time.store (rules.declined inv.current atSlot (owner ▸ dynamic) _)
    · exact inv
  · exact inv

/-- The DHCPRELEASE case keeps the invariant. -/
theorem ServerInv.handleRelease (inv : ServerInv config okRequest P server)
    (rules : TableRules config okRequest P) {packet : DhcpPacket} :
    ServerInv config okRequest P (handleRelease world packet
      (lookupLease config packet.chaddr server) server) := by
  unfold Udhcp.handleRelease
  split
  case h_1 index _ found =>
    split
    · rcases lookupLease_cases found with ⟨-, ⟨⟩⟩ | ⟨dynamic, slot, ⟨⟩, atSlot, owner⟩
      exact inv.time.store (rules.released inv.current atSlot _)
    · exact inv
  · exact inv

/-- The guard of one input: a DISCOVER for which `send_offer` accepts the requested
address requests one that meets `okRequest`. -/
def InputGuard (config : ServerData) (world : World) (okRequest : UInt32 → Prop)
    (server : Server) : Input → Prop
  | .packet packet =>
    packetState config packet = some 1 →
      getStaticNipByMac config packet.chaddr = 0 →
      findLeaseByMac packet.chaddr server = none →
      AcceptsOnly config world okRequest ((packet.option32 dhcpRequestedIp).getD 0) server
  | .writeLeases => True

/-- Every turn of the main loop that meets the guard keeps the invariant. -/
theorem ServerInv.step (rules : TableRules config okRequest P) (server : Server) (input : Input)
    (inv : ServerInv config okRequest P server)
    (guard : InputGuard config world okRequest server input) :
    ServerInv config okRequest P (serverStep config world server input) := by
  cases input with
  | writeLeases => exact inv.writeLeases
  | packet packet =>
    simp only [serverStep, handlePacket]
    split
    · exact inv
    case h_2 state received =>
      unfold dispatch
      dsimp only
      split
      case h_1 discover =>
        have stateEq : state = 1 := UInt8.toNat_inj.mp discover
        exact inv.sendOffer rules (guard (stateEq ▸ received))
      · exact inv.handleRequest rules
      · exact inv.handleDecline rules
      · exact inv.handleRelease rules
      · exact inv.send ⟨inv.current, fun carries => absurd rfl carries⟩
      · exact inv

/-- The invariant holds after every run whose inputs meet the guard. -/
theorem ServerInv.run (rules : TableRules config okRequest P)
    (start : ServerInv config okRequest P server) {inputs : List Input}
    (admitted : GuardedRun.Admitted (serverStep config world)
      (InputGuard config world okRequest) server inputs) :
    ServerInv config okRequest P (runServer config world server inputs) :=
  GuardedRun.invariant_of_admitted (fun state input => ServerInv.step rules state input)
    start admitted

/-- A property of the zeroed table holds when the server starts without a lease file. -/
theorem ServerInv.zero (holds : P (List.replicate config.maxLeases emptyLease))
    (file : Option LeaseFile) : ServerInv config okRequest P (zeroServer config file) where
  current := holds
  past := by simpa [zeroServer] using holds
  replies := by simp [zeroServer]

/-! ## Start-up -/

/-- Loading the records of a lease file keeps the invariant when every insertion of
a record that `read_leases` does not pass over does. -/
theorem ServerInv.loadRecords (rules : TableRules config okRequest P) {timePassed : UInt32}
    {records : List DynLease}
    (loaded : ∀ lease ∈ records, recordTimeLeft config timePassed lease ≠ none →
      ∀ table slot leasetime hostname now, P table →
        P ((clearedTable (some lease.leaseMac) lease.leaseNip table).set slot
          (newLease (some lease.leaseMac) lease.leaseNip leasetime hostname now)))
    (inv : ServerInv config okRequest P server) :
    ServerInv config okRequest P (loadRecords config world timePassed records server) := by
  induction records generalizing server with
  | nil => exact inv
  | cons lease rest ih =>
    have later := fun other member => loaded other (List.mem_cons_of_mem lease member)
    rw [Udhcp.loadRecords]
    split
    · exact ih later inv
    case h_2 expires kept =>
      have added : ServerInv config okRequest P (Udhcp.addLease world (some lease.leaseMac)
          lease.leaseNip expires (some (lease.hostname, hostnameSize)) server).2 :=
        inv.addLease rules fun slot now =>
          loaded lease (List.mem_cons_self ..) (by simp [kept]) _ slot _ _ now inv.current
      split
      case h_1 result =>
        rw [result] at added
        exact added
      case h_2 result =>
        rw [result] at added
        exact ih later added

/-- The invariant holds when the main loop starts, if it survives the loading of
every record of the lease file that is not passed over. -/
theorem ServerInv.start (rules : TableRules config okRequest P)
    (holds : P (List.replicate config.maxLeases emptyLease)) {file : Option LeaseFile}
    (loaded : ∀ contents ∈ file, ∀ lease ∈ contents.records, ∀ timePassed,
      recordTimeLeft config timePassed lease ≠ none →
      ∀ table slot leasetime hostname now, P table →
        P ((clearedTable (some lease.leaseMac) lease.leaseNip table).set slot
          (newLease (some lease.leaseMac) lease.leaseNip leasetime hostname now))) :
    ServerInv config okRequest P (startServer config world file) := by
  have zero : ServerInv config okRequest P (zeroServer config file) := ServerInv.zero holds file
  cases file with
  | none => exact zero
  | some contents =>
    simp only [startServer, readLeases]
    have ticked : ServerInv config okRequest P
        (timeNull world (zeroServer config (some contents))).2 := zero.congr rfl rfl rfl
    split
    · exact ticked
    · exact ticked.loadRecords rules fun lease member => loaded contents rfl lease member _

end Preservation

end Busybox.Udhcp
