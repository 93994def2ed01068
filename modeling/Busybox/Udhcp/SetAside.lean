import Busybox.Udhcp.Exclusive

/-!
# Addresses set aside

A DHCPDECLINE and an answered ARP probe leave an entry under the all-zero
hardware address. `Watch` follows these entries: each one made since the main
loop was entered is still in the table or has expired. Nothing but the
hardware address marks them, so the server loses them to a client that sends
from the all-zero address; the runs covered here have no such client.
-/

namespace Busybox.Udhcp

open Slots

/-- The entry holds an address for nobody: a declined one, or one in conflict. -/
def SetAside (lease : DynLease) : Prop := lease.leaseMac = zeroMac ∧ lease.leaseNip ≠ 0

instance (lease : DynLease) : Decidable (SetAside lease) :=
  inferInstanceAs (Decidable (_ ∧ _))

/-- The clock does not run backward, and the end of either delay fits `leasetime_t`. -/
structure ClockRuns (config : ServerData) (world : World) : Prop where
  forward : Monotone world.time
  declineFits : ∀ call, world.time call + config.declineTime.toNat < 2 ^ 32
  conflictFits : ∀ call, world.time call + config.conflictTime.toNat < 2 ^ 32

/-- The entry was in the table at `start` or at some moment from then on. -/
def SetAsideSince (start server : Server) (lease : DynLease) : Prop :=
  SetAside lease ∧
    ∃ table ∈ start.leases :: server.history.drop start.history.length, lease ∈ table

/-- The entry ends `decline_time` or `conflict_time` after a moment the clock was read. -/
def Dated (config : ServerData) (world : World) (server : Server) (lease : DynLease) : Prop :=
  ∃ call < server.timeCalls,
    lease.expires.toNat = world.time call + config.declineTime.toNat ∨
      lease.expires.toNat = world.time call + config.conflictTime.toNat

/-- What is set aside at present with this address has expired. -/
def Spent (server : Server) (nip : UInt32) : Prop :=
  ∀ lease ∈ server.leases, SetAside lease → lease.leaseNip = nip → lease.expires ≤ server.clock

/-- No reading to come is earlier than the last one. -/
def Ahead (world : World) (server : Server) : Prop :=
  ∀ call, server.timeCalls ≤ call → server.clock ≤ UInt32.ofNat (world.time call)

/-- Every entry set aside since `start` has a date, and is in the table until then.
`replies` is what has been sent. -/
structure Watch (config : ServerData) (world : World) (start : Server) (replies : List Reply)
    (server : Server) : Prop where
  sent : server.sent = replies
  ahead : Ahead world server
  grown : start.history.length ≤ server.history.length
  current : ∀ lease ∈ server.leases, SetAside lease → SetAsideSince start server lease
  held : ∀ lease, SetAsideSince start server lease →
    lease ∈ server.leases ∨ lease.expires ≤ server.clock
  dated : ∀ lease, SetAsideSince start server lease →
    lease ∈ start.leases ∨ Dated config world server lease

theorem ClockRuns.reading_le {config : ServerData} {world : World}
    (runs : ClockRuns config world) {first later : Nat} (order : first ≤ later) :
    UInt32.ofNat (world.time first) ≤ UInt32.ofNat (world.time later) := by
  have bound (call : Nat) : world.time call < 2 ^ 32 := by
    have := runs.declineFits call
    omega
  rw [UInt32.le_iff_toNat_le, UInt32.toNat_ofNat_of_lt' (bound first),
    UInt32.toNat_ofNat_of_lt' (bound later)]
  exact runs.forward order

/-- An end that fits is the reading plus the delay. -/
theorem toNat_reading_add {now : Nat} {delay : UInt32} (fits : now + delay.toNat < 2 ^ 32) :
    (UInt32.ofNat now + delay).toNat = now + delay.toNat := by
  rw [UInt32.toNat_add, UInt32.toNat_ofNat', Nat.mod_eq_of_lt (a := now) (by omega),
    Nat.mod_eq_of_lt fits]

theorem not_setAside_empty : ¬ SetAside emptyLease := fun aside => aside.2 rfl

section Preservation

variable {config : ServerData} {world : World} {start server : Server} {replies : List Reply}

theorem Dated.mono {later : Server} {lease : DynLease} (dated : Dated config world server lease)
    (calls : server.timeCalls ≤ later.timeCalls) : Dated config world later lease := by
  obtain ⟨call, made, ends⟩ := dated
  exact ⟨call, by omega, ends⟩

/-! ## Reading the clock -/

theorem Ahead.time (runs : ClockRuns config world) : Ahead world (time world server).2 := by
  intro call later
  exact runs.reading_le (Nat.le_of_succ_le later)

/-- The watch looks at the table, its history and the clock. -/
theorem Watch.congr {after : Server} (watch : Watch config world start replies server)
    (sent : after.sent = server.sent) (leases : after.leases = server.leases)
    (history : after.history = server.history)
    (calls : server.timeCalls ≤ after.timeCalls) (clock : server.clock ≤ after.clock)
    (ahead : Ahead world after) : Watch config world start replies after where
  sent := sent.trans watch.sent
  ahead := ahead
  grown := history ▸ watch.grown
  current := by
    intro lease member aside
    rw [leases] at member
    simpa only [SetAsideSince, history] using watch.current lease member aside
  held := by
    intro lease since
    rw [SetAsideSince, history] at since
    rw [leases]
    exact (watch.held lease since).imp_right fun ended => UInt32.le_trans ended clock
  dated := by
    intro lease since
    rw [SetAsideSince, history] at since
    exact (watch.dated lease since).imp_right fun dated => dated.mono calls

theorem Watch.time (watch : Watch config world start replies server) (runs : ClockRuns config world) :
    Watch config world start replies (time world server).2 :=
  watch.congr rfl rfl rfl (Nat.le_succ _) (watch.ahead _ (le_refl _)) (Ahead.time runs)

theorem Watch.sendPacket (watch : Watch config world start replies server) (reply : Reply) :
    Watch config world start (replies ++ [reply]) (sendPacket reply server) where
  sent := congrArg (· ++ [reply]) watch.sent
  ahead := watch.ahead
  grown := watch.grown
  current := watch.current
  held := watch.held
  dated := watch.dated

theorem Watch.writeLeases (watch : Watch config world start replies server)
    (runs : ClockRuns config world) : Watch config world start replies (writeLeases world server) :=
  (watch.time runs).congr rfl rfl rfl (le_refl _) (UInt32.le_refl _) (watch.time runs).ahead

/-! ## Editing the table -/

theorem setAsideSince_store (grown : start.history.length ≤ server.history.length)
    {table : List DynLease} {lease : DynLease} :
    SetAsideSince start (server.store table) lease ↔
      SetAsideSince start server lease ∨ (SetAside lease ∧ lease ∈ table) := by
  simp only [SetAsideSince, Server.store_history, List.drop_append_of_le_length grown,
    List.mem_cons, List.mem_append, List.not_mem_nil, or_false]
  constructor
  · rintro ⟨aside, content, member | member | rfl, inside⟩
    · exact .inl ⟨aside, content, .inl member, inside⟩
    · exact .inl ⟨aside, content, .inr member, inside⟩
    · exact .inr ⟨aside, inside⟩
  · rintro (⟨aside, content, member, inside⟩ | ⟨aside, inside⟩)
    · exact ⟨aside, content, member.imp_right .inl, inside⟩
    · exact ⟨aside, table, .inr (.inr rfl), inside⟩

/-- A table that keeps what is set aside until its end, and adds only dated
entries to it, may be stored. -/
theorem Watch.store (watch : Watch config world start replies server) {table : List DynLease}
    (kept : ∀ lease ∈ server.leases, SetAside lease →
      lease ∈ table ∨ lease.expires ≤ server.clock)
    (added : ∀ lease ∈ table, SetAside lease →
      lease ∈ server.leases ∨ Dated config world server lease) :
    Watch config world start replies (server.store table) where
  sent := watch.sent
  ahead := watch.ahead
  grown := by
    have := watch.grown
    simp only [Server.store_history, List.length_append]
    omega
  current := fun lease member aside =>
    (setAsideSince_store watch.grown).mpr (.inr ⟨aside, member⟩)
  held := by
    intro lease since
    rcases (setAsideSince_store watch.grown).mp since with before | ⟨-, member⟩
    · rcases watch.held lease before with present | ended
      · exact kept lease present before.1
      · exact .inr ended
    · exact .inl member
  dated := by
    intro lease since
    rcases (setAsideSince_store watch.grown).mp since with before | ⟨aside, member⟩
    · exact watch.dated lease before
    · rcases added lease member aside with present | dated
      · exact watch.dated lease (watch.current lease present aside)
      · exact .inr dated

/-- Overwriting one slot keeps the entries of the others. -/
theorem mem_set_or_at {table : List DynLease} {slot : Nat} {entry lease : DynLease}
    (member : lease ∈ table) : lease ∈ table.set slot entry ∨ table[slot]? = some lease := by
  obtain ⟨i, atI⟩ := List.getElem?_of_mem member
  rcases eq_or_ne slot i with rfl | other
  · exact .inr atI
  · exact .inl (List.mem_of_getElem? ((List.getElem?_set_ne other).trans atI))

/-- Clearing spares what is set aside, unless its address is the one cleared. -/
theorem Watch.clearLeases (watch : Watch config world start replies server) {chaddr : Option Mac}
    {nip : UInt32} (client : chaddr ≠ some zeroMac) (spent : Spent server nip) :
    Watch config world start replies (clearLeases chaddr nip server) := by
  refine watch.store ?_ ?_
  · intro lease member aside
    by_cases clears : clearsLease chaddr nip lease
    · right
      have address : lease.leaseNip = nip := by
        cases chaddr with
        | none =>
          simp only [clearsLease, Bool.false_or, Bool.and_eq_true, beq_iff_eq] at clears
          exact clears.2
        | some mac =>
          have other : lease.leaseMac ≠ mac := fun same => client (by rw [← aside.1, same])
          simp only [clearsLease, beq_eq_false_iff_ne.mpr other, Bool.false_or,
            Bool.and_eq_true, beq_iff_eq] at clears
          exact clears.2
      exact spent lease member aside address
    · exact .inl (List.mem_map.mpr ⟨lease, member, by rw [if_neg clears]⟩)
  · intro lease member aside
    rcases mem_clearedTable member with rfl | ⟨old, -⟩
    · exact absurd aside not_setAside_empty
    · exact .inl old

/-- `add_lease` for a client, or for a conflict, keeps the watch: it clears an
address whose entries are spent and overwrites an expired entry. -/
theorem Watch.addLease (watch : Watch config world start replies server) (runs : ClockRuns config world)
    {chaddr : Option Mac} {nip leasetime : UInt32} {hostname : Option (List UInt8 × Nat)}
    (client : chaddr ≠ some zeroMac) (spent : Spent server nip)
    (delay : chaddr = none → leasetime = config.conflictTime) :
    Watch config world start replies (addLease world chaddr nip leasetime hostname server).2 := by
  have cleared := watch.clearLeases client spent
  cases search : oldestExpiredFrom 0 (UInt32.ofNat (world.time server.timeCalls)) none
      (clearedTable chaddr nip server.leases) with
  | none =>
    rw [addLease_of_search_none search]
    exact cleared.time runs
  | some slot =>
    rw [addLease_of_search_some search]
    have twice := (cleared.time runs).time runs
    have vacant := oldestExpiredFrom_spec (UInt32.le_refl _) search
    refine twice.store ?_ ?_
    · intro lease member aside
      refine (mem_set_or_at member).imp_right fun overwritten => ?_
      rcases vacant with impossible | ⟨old, atSlot, -, free⟩
      · cases impossible
      obtain rfl : old = lease := Option.some.inj (atSlot.symm.trans overwritten)
      rcases free with zero | expired
      · rw [zero]
        exact UInt32.zero_le
      · exact UInt32.le_trans (UInt32.le_of_lt expired) (runs.reading_le (Nat.le_succ _))
    · intro lease member aside
      rcases List.mem_or_eq_of_mem_set member with before | rfl
      · exact .inl before
      cases chaddr with
      | some mac => exact absurd aside.1 fun same => client (congrArg some same)
      | none =>
        refine .inr ⟨server.timeCalls + 1, Nat.lt_succ_self _, .inr ?_⟩
        rw [delay rfl]
        exact toNat_reading_add (runs.conflictFits _)

/-- A lease for a client sets nothing aside. -/
theorem setAsideSince_of_addLease (watch : Watch config world start replies server) {mac : Mac}
    {nip leasetime : UInt32} {hostname : Option (List UInt8 × Nat)} (client : mac ≠ zeroMac)
    {lease : DynLease}
    (since : SetAsideSince start
      (addLease world (some mac) nip leasetime hostname server).2 lease) :
    SetAsideSince start server lease := by
  have cleared {lease : DynLease} (aside : SetAside lease)
      (member : lease ∈ clearedTable (some mac) nip server.leases) :
      SetAsideSince start server lease := by
    rcases mem_clearedTable member with rfl | ⟨old, -⟩
    · exact absurd aside not_setAside_empty
    · exact watch.current lease old aside
  have first {lease : DynLease} (since : SetAsideSince start
      (clearLeases (some mac) nip server) lease) : SetAsideSince start server lease := by
    rcases (setAsideSince_store watch.grown).mp since with before | ⟨aside, member⟩
    · exact before
    · exact cleared aside member
  cases search : oldestExpiredFrom 0 (UInt32.ofNat (world.time server.timeCalls)) none
      (clearedTable (some mac) nip server.leases) with
  | none =>
    rw [addLease_of_search_none search] at since
    exact first since
  | some slot =>
    rw [addLease_of_search_some search] at since
    have grown : start.history.length ≤ (clearLeases (some mac) nip server).history.length := by
      have := watch.grown
      simp only [Udhcp.clearLeases, Server.store_history, List.length_append]
      omega
    rcases (setAsideSince_store grown).mp since with before | ⟨aside, member⟩
    · exact first before
    · rcases List.mem_or_eq_of_mem_set member with before | rfl
      · exact cleared aside before
      · exact absurd aside.1 client

/-! ## The scan -/

/-- A probe of an address whose entries are spent keeps the watch. -/
theorem Watch.nobodyRespondsToArp (watch : Watch config world start replies server)
    (runs : ClockRuns config world) {nip : UInt32} (spent : Spent server nip) {nobody : Bool}
    {after : Server} (result : nobodyRespondsToArp config world nip server = (nobody, after)) :
    Watch config world start replies after := by
  have probed : Watch config world start replies { server with arpCalls := server.arpCalls + 1 } :=
    watch.congr rfl rfl rfl (le_refl _) (UInt32.le_refl _) watch.ahead
  cases nobody with
  | true =>
    rw [nobodyRespondsToArp_true result]
    exact probed
  | false =>
    rw [nobodyRespondsToArp_false result]
    exact probed.addLease runs (by simp) spent fun _ => rfl

theorem Watch.scanAddress (watch : Watch config world start replies server)
    (runs : ClockRuns config world) {addr : UInt32} {oldest oldest' : Option Nat}
    {found : Option UInt32} {after : Server}
    (result : scanAddress config world addr oldest server = (found, oldest', after)) :
    Watch config world start replies after := by
  have spent (absent : findLeaseByNip (htonl addr) server = none) : Spent server (htonl addr) :=
    fun lease member _ address => absurd address (findLeaseByNip_none absent lease member)
  cases scanAddress_turn result with
  | skipped => exact watch
  | free _ absent probe => exact watch.nobodyRespondsToArp runs (spent absent) probe
  | conflict _ absent probe => exact watch.nobodyRespondsToArp runs (spent absent) probe
  | older => exact watch
  | younger => exact watch

/-- The whole scan, by induction on the addresses to go. -/
theorem Watch.scanAddresses (runs : ClockRuns config world) {left : Nat} {addr : UInt32}
    {oldest oldest' : Option Nat} (watch : Watch config world start replies server)
    {found : Option UInt32} {after : Server}
    (result : scanAddresses config world left addr oldest server = (found, oldest', after)) :
    Watch config world start replies after := by
  induction left generalizing addr oldest server with
  | zero =>
    cases result
    exact watch
  | succ left ih =>
    rw [Udhcp.scanAddresses] at result
    cases turn : Udhcp.scanAddress config world addr oldest server with
    | mk returned rest =>
      obtain ⟨pointer, scanned⟩ := rest
      have kept := watch.scanAddress runs turn
      rw [turn] at result
      cases returned with
      | some nip =>
        cases result
        exact kept
      | none => exact ih kept result

/-- Absence of doubles survives every edit the server makes. -/
theorem unique_rules (config : ServerData) (okRequest : UInt32 → Prop) :
    TableRules config okRequest Unique where
  cleared unique chaddr nip := unique.cleared chaddr nip
  conflict unique _ leasetime now := unique.inserted none _ _ leasetime none now
  granted unique _ leasetime hostname now := unique.inserted _ _ _ leasetime hostname now
  declined unique atSlot _ _ := unique.edited atSlot rfl (.inr rfl)
  released unique atSlot _ := unique.edited atSlot rfl (.inl rfl)

/-- Two entries for one address are the same entry. -/
theorem Unique.eq_of_nip {table : List DynLease} (unique : Unique table) {lease other : DynLease}
    (member : lease ∈ table) (otherMember : other ∈ table) (real : lease.leaseNip ≠ 0)
    (same : lease.leaseNip = other.leaseNip) : lease = other := by
  obtain ⟨i, atI⟩ := List.getElem?_of_mem member
  obtain ⟨j, atJ⟩ := List.getElem?_of_mem otherMember
  obtain rfl := unique.nips atI atJ same real
  exact Option.some.inj (atI.symm.trans atJ)

/-- The server's invariant at the grain the watch needs: addresses are unique. -/
abbrev Tidy (config : ServerData) (server : Server) : Prop :=
  ServerInv config (fun _ => True) Unique server

theorem Watch.expiredNip (watch : Watch config world start replies server)
    (runs : ClockRuns config world) (unique : Unique server.leases) {slot : Nat}
    (range : Scanned config (server.leaseAt slot).leaseNip) {nip : UInt32} {after : Server}
    (result : expiredNip config world slot server = (nip, after)) :
    Watch config world start replies after := by
  have here : server.leaseAt slot ∈ server.leases :=
    List.mem_of_getElem? (leaseAt_of_ne_zero range.ne_zero)
  unfold Udhcp.expiredNip at result
  cases check : isExpiredLease world (server.leaseAt slot) server with
  | mk expired checked =>
    obtain rfl : (Udhcp.time world server).2 = checked := congrArg Prod.snd check
    have expiredEq := congrArg Prod.fst check
    rw [check] at result
    cases expired with
    | false =>
      cases result
      exact watch.time runs
    | true =>
      dsimp only at result
      have spent : Spent (Udhcp.time world server).2
          ((Udhcp.time world server).2.leaseAt slot).leaseNip := by
        intro lease member aside address
        obtain rfl := unique.eq_of_nip member here aside.2 address
        exact UInt32.le_of_lt (of_decide_eq_true expiredEq)
      cases probe : Udhcp.nobodyRespondsToArp config world
          ((Udhcp.time world server).2.leaseAt slot).leaseNip (Udhcp.time world server).2 with
      | mk nobody probed =>
        have kept := (watch.time runs).nobodyRespondsToArp runs spent probe
        rw [probe] at result
        cases nobody <;> (cases result; exact kept)

theorem Watch.findFreeOrExpiredNip (watch : Watch config world start replies server)
    (runs : ClockRuns config world) (tidy : Tidy config server) {nip : UInt32} {after : Server}
    (result : findFreeOrExpiredNip config world server = (nip, after)) :
    Watch config world start replies after := by
  have rules := unique_rules config fun _ => True
  have nowhere : PointsIntoRange config server none := by rintro slot ⟨⟩
  unfold Udhcp.findFreeOrExpiredNip at result
  cases scan : Udhcp.scanAddresses config world (scanLength config) config.startIp none
      server with
  | mk found rest =>
    obtain ⟨oldest, scanned⟩ := rest
    obtain ⟨kept, points, -⟩ := scanAddresses_spec rules tidy nowhere scan
    have watched := watch.scanAddresses runs scan
    rw [scan] at result
    cases found with
    | some address =>
      cases result
      exact watched
    | none =>
      cases oldest with
      | none =>
        cases result
        exact watched
      | some slot => exact watched.expiredNip runs kept.current (points slot rfl) result

/-! ## The replies -/

/-- An address given to a client with a real hardware address is not set aside. -/
theorem Grant.spent {okRequest : UInt32 → Prop} {mac : Mac} {nip : UInt32}
    (grant : Grant config okRequest server.leases server.clock mac nip)
    (unique : Unique server.leases) (client : mac ≠ zeroMac)
    (static : getStaticNipByMac config mac ≠ 0 → Spent server (getStaticNipByMac config mac)) :
    Spent server nip := by
  intro lease member aside address
  have free (free : FreeAt server.leases server.clock nip) : lease.expires ≤ server.clock := by
    rcases free with absent | ⟨holder, holderMember, holderAddress, expired⟩
    · exact absurd address (absent lease member)
    · obtain rfl := unique.eq_of_nip member holderMember aside.2
        (address.trans holderAddress.symm)
      exact UInt32.le_of_lt expired
  cases grant with
  | static real => exact static real lease member aside address
  | requested _ _ _ freeAt => exact free freeAt
  | scanned _ _ _ freeAt => exact free freeAt
  | renewed _ heldMember owner =>
    obtain rfl := unique.eq_of_nip member heldMember aside.2 address
    exact absurd (owner.symm.trans aside.1) client

/-- The address `send_offer` picks for a client without a static lease is spent. -/
theorem Watch.offeredNip (watch : Watch config world start replies server)
    (runs : ClockRuns config world) (tidy : Tidy config server) {mac : Mac}
    {requestedNip : UInt32} (client : mac ≠ zeroMac) (dynamic : getStaticNipByMac config mac = 0)
    {nip : UInt32} {after : Server}
    (result : offeredNip config world (lookupLease config mac server) requestedNip server =
      (nip, after)) :
    Watch config world start replies after ∧ (nip ≠ 0 → Spent after nip) := by
  have anything : findLeaseByMac mac server = none →
      AcceptsOnly config world (fun _ => True) requestedNip server := by
    intro _ _ _ _ _
    trivial
  obtain ⟨kept, grounds⟩ := offeredNip_spec (unique_rules config _) tidy dynamic anything result
  constructor
  · simp only [lookupLease, dynamic, ne_eq, not_true_eq_false, if_false] at result
    cases found : findLeaseByMac mac server with
    | some slot =>
      rw [found] at result
      cases result
      exact watch
    | none =>
      rw [found] at result
      simp only [Option.map_none, Udhcp.offeredNip] at result
      split at result
      case isFalse => exact watch.findFreeOrExpiredNip runs tidy result
      case isTrue =>
        cases check : requestedIsFree world requestedNip server with
        | mk free checked =>
          have looked : Watch config world start replies checked ∧ Tidy config checked := by
            rcases (requestedIsFree_spec check).1 with rfl | rfl
            · exact ⟨watch, tidy⟩
            · exact ⟨watch.time runs, tidy.time⟩
          rw [check] at result
          cases free with
          | false => exact looked.1.findFreeOrExpiredNip runs looked.2 result
          | true =>
            cases result
            exact looked.1
  · intro real
    exact (grounds real).spent kept.current client fun static => absurd dynamic static

/-- The replies after the first `count` that carry a lease have left alone what was
set aside. -/
def LeavesAside (start : Server) (count : Nat) (server : Server) : Prop :=
  ∀ reply ∈ server.sent.drop count, reply.leaseTimeSec ≠ none →
    ∀ lease, SetAsideSince start server lease → lease.leaseNip = reply.yiaddr →
      lease.expires ≤ reply.clock

/-- What a turn of the main loop that finds `server` guarantees. -/
def Turn (config : ServerData) (world : World) (start server after : Server) : Prop :=
  (∃ replies, Watch config world start replies after) ∧
    LeavesAside start server.sent.length after

/-- A turn that sends nothing. -/
theorem Watch.silent {after : Server} (watch : Watch config world start server.sent after) :
    Turn config world start server after := by
  refine ⟨⟨_, watch⟩, ?_⟩
  intro reply member
  rw [watch.sent, List.drop_length] at member
  exact absurd member List.not_mem_nil

/-- A turn that sends one reply, whose address was spent when it was settled on. -/
theorem Watch.answered {chosen after : Server} {reply : Reply}
    (chosenWatch : Watch config world start replies chosen)
    (watch : Watch config world start (server.sent ++ [reply]) after)
    (nothingNew : ∀ lease, SetAsideSince start after lease → SetAsideSince start chosen lease)
    (clock : reply.clock = chosen.clock)
    (spent : reply.leaseTimeSec ≠ none → Spent chosen reply.yiaddr) :
    Turn config world start server after := by
  refine ⟨⟨_, watch⟩, ?_⟩
  intro other member carries lease since address
  rw [watch.sent, List.drop_left, List.mem_singleton] at member
  subst member
  rw [clock]
  rcases chosenWatch.held lease (nothingNew lease since) with present | ended
  · exact spent carries lease present since.1 address
  · exact ended

theorem Watch.sendOffer (watch : Watch config world start server.sent server)
    (runs : ClockRuns config world) (tidy : Tidy config server) {packet : DhcpPacket}
    (client : packet.chaddr ≠ zeroMac)
    (static : getStaticNipByMac config packet.chaddr ≠ 0 →
      Spent server (getStaticNipByMac config packet.chaddr)) (requestedNip : UInt32) :
    Turn config world start server (sendOffer config world packet
      (getStaticNipByMac config packet.chaddr) (lookupLease config packet.chaddr server)
      requestedNip server) := by
  unfold Udhcp.sendOffer
  split
  case isFalse real =>
    exact watch.answered (watch.sendPacket _) (fun _ since => since) rfl fun _ => static real
  case isTrue dynamic =>
    cases pick : Udhcp.offeredNip config world (lookupLease config packet.chaddr server)
        requestedNip server with
    | mk yiaddr chosen =>
      obtain ⟨kept, spent⟩ := watch.offeredNip runs tidy client dynamic pick
      dsimp only
      split
      · exact kept.silent
      case isFalse real =>
        have reserved : Watch config world start server.sent (Udhcp.addLease world
            (some packet.chaddr) yiaddr config.offerTime packet.hostName chosen).2 :=
          kept.addLease runs (by simpa using client) (spent real) (by simp)
        have nothingNew : ∀ lease, SetAsideSince start (Udhcp.addLease world
            (some packet.chaddr) yiaddr config.offerTime packet.hostName chosen).2 lease →
            SetAsideSince start chosen lease :=
          fun _ since => setAsideSince_of_addLease kept client since
        cases reserve : Udhcp.addLease world (some packet.chaddr) yiaddr config.offerTime
            packet.hostName chosen with
        | mk slot after =>
          rw [reserve] at reserved nothingNew
          cases slot with
          | none => exact reserved.silent
          | some slot =>
            exact kept.answered (reserved.sendPacket _) nothingNew rfl fun _ => spent real

theorem Watch.sendAck (watch : Watch config world start server.sent server)
    (runs : ClockRuns config world) {packet : DhcpPacket} {yiaddr : UInt32}
    (client : packet.chaddr ≠ zeroMac) (spent : Spent server yiaddr) :
    Turn config world start server (sendAck config world packet yiaddr server) := by
  have acknowledged := watch.sendPacket
    { type := .ack, chaddr := packet.chaddr, yiaddr := yiaddr
      leaseTimeSec := some (selectLeaseTime config packet), before := server.leases
      clock := server.clock }
  have client' : some packet.chaddr ≠ some zeroMac := by simpa using client
  refine watch.answered ((acknowledged.addLease runs client' spent (by simp)).writeLeases runs)
    ?_ rfl fun _ => spent
  intro lease since
  exact setAsideSince_of_addLease acknowledged client since

/-! ## Turns of the main loop -/

/-- No packet that touches the table comes from the all-zero hardware address, and no
client is given its static address while that is set aside. -/
def SparesSetAside (config : ServerData) (server : Server) : Input → Prop
  | .packet packet => ∀ state ∈ packetState config packet,
    (state ∈ [1, 3, 4, 7] → packet.chaddr ≠ zeroMac) ∧
    (state ∈ [1, 3] → getStaticNipByMac config packet.chaddr ≠ 0 →
      Spent server (getStaticNipByMac config packet.chaddr))
  | .writeLeases => True

theorem Watch.handleRequest (watch : Watch config world start server.sent server)
    (runs : ClockRuns config world) (tidy : Tidy config server) {packet : DhcpPacket}
    (client : packet.chaddr ≠ zeroMac)
    (static : getStaticNipByMac config packet.chaddr ≠ 0 →
      Spent server (getStaticNipByMac config packet.chaddr)) :
    Turn config world start server (handleRequest config world packet
      (lookupLease config packet.chaddr server) server) := by
  unfold Udhcp.handleRequest
  dsimp only
  split
  · exact watch.silent
  split
  case isTrue matching =>
    obtain ⟨ptr, found, same⟩ := matching
    refine watch.sendAck runs client (same ▸ ?_)
    rcases lookupLease_cases found with ⟨real, rfl⟩ | ⟨dynamic, slot, rfl, atSlot, owner⟩
    · exact static real
    · have grant : Grant config (fun _ => True) server.leases server.clock packet.chaddr
          (server.leaseAt slot).leaseNip :=
        .renewed dynamic (List.mem_of_getElem? atSlot) owner
      exact grant.spent tidy.current client static
  split
  · exact watch.answered (watch.sendPacket _) (fun _ since => since) rfl
      fun carries => absurd rfl carries
  · exact watch.silent

/-- A client's own entry is not set aside, so overwriting it loses nothing. -/
theorem mem_set_of_owner {table : List DynLease} {slot : Nat} {held entry lease : DynLease}
    (atSlot : table[slot]? = some held) (client : held.leaseMac ≠ zeroMac)
    (member : lease ∈ table) (aside : SetAside lease) : lease ∈ table.set slot entry := by
  rcases mem_set_or_at member with kept | overwritten
  · exact kept
  · obtain rfl : held = lease := Option.some.inj (atSlot.symm.trans overwritten)
    exact absurd aside.1 client

theorem Watch.handleDecline (watch : Watch config world start server.sent server)
    (runs : ClockRuns config world) {packet : DhcpPacket} (client : packet.chaddr ≠ zeroMac) :
    Turn config world start server (handleDecline config world packet
      (lookupLease config packet.chaddr server) server) := by
  unfold Udhcp.handleDecline
  split
  case h_1 index _ _ found =>
    split
    · rcases lookupLease_cases found with ⟨-, ⟨⟩⟩ | ⟨-, slot, ⟨⟩, atSlot, owner⟩
      refine ((watch.time runs).store ?_ ?_).silent
      · intro lease member aside
        exact .inl (mem_set_of_owner atSlot (owner ▸ client) member aside)
      · intro lease member aside
        rcases List.mem_or_eq_of_mem_set member with before | rfl
        · exact .inl before
        · exact .inr ⟨server.timeCalls, Nat.lt_succ_self _,
            .inl (toNat_reading_add (runs.declineFits _))⟩
    · exact watch.silent
  · exact watch.silent

theorem Watch.handleRelease (watch : Watch config world start server.sent server)
    (runs : ClockRuns config world) {packet : DhcpPacket} (client : packet.chaddr ≠ zeroMac) :
    Turn config world start server (handleRelease world packet
      (lookupLease config packet.chaddr server) server) := by
  unfold Udhcp.handleRelease
  split
  case h_1 index _ found =>
    split
    · rcases lookupLease_cases found with ⟨-, ⟨⟩⟩ | ⟨-, slot, ⟨⟩, atSlot, owner⟩
      refine ((watch.time runs).store ?_ ?_).silent
      · intro lease member aside
        exact .inl (mem_set_of_owner atSlot (owner ▸ client) member aside)
      · intro lease member aside
        rcases List.mem_or_eq_of_mem_set member with before | rfl
        · exact .inl before
        · exact absurd (owner.symm.trans aside.1) client
    · exact watch.silent
  · exact watch.silent

/-- Every turn whose input meets the guard keeps the watch and leaves alone what is
set aside. -/
theorem Watch.step (watch : Watch config world start server.sent server)
    (runs : ClockRuns config world) (tidy : Tidy config server) {input : Input}
    (guard : SparesSetAside config server input) :
    Turn config world start server (serverStep config world server input) := by
  cases input with
  | writeLeases => exact (watch.writeLeases runs).silent
  | packet packet =>
    simp only [serverStep, handlePacket]
    split
    · exact watch.silent
    case h_2 state received =>
      obtain ⟨client, static⟩ := guard state received
      have ofNat {number : UInt8} (is : state.toNat = number.toNat) : state = number :=
        UInt8.toNat_inj.mp is
      unfold dispatch
      dsimp only
      split
      case h_1 discover =>
        obtain rfl : state = 1 := ofNat discover
        exact watch.sendOffer runs tidy (client (by decide)) (static (by decide)) _
      case h_2 request =>
        obtain rfl : state = 3 := ofNat request
        exact watch.handleRequest runs tidy (client (by decide)) (static (by decide))
      case h_3 decline =>
        obtain rfl : state = 4 := ofNat decline
        exact watch.handleDecline runs (client (by decide))
      case h_4 release =>
        obtain rfl : state = 7 := ofNat release
        exact watch.handleRelease runs (client (by decide))
      · exact watch.answered (watch.sendPacket _) (fun _ since => since) rfl
          fun carries => absurd rfl carries
      · exact watch.silent

/-! ## Runs -/

theorem Ahead.addLease (runs : ClockRuns config world) (chaddr : Option Mac)
    (nip leasetime : UInt32) (hostname : Option (List UInt8 × Nat)) :
    Ahead world (addLease world chaddr nip leasetime hostname server).2 := by
  cases search : oldestExpiredFrom 0 (UInt32.ofNat (world.time server.timeCalls)) none
      (clearedTable chaddr nip server.leases) with
  | none =>
    rw [addLease_of_search_none search]
    exact Ahead.time runs
  | some slot =>
    rw [addLease_of_search_some search]
    exact Ahead.time runs

theorem Ahead.loadRecords (runs : ClockRuns config world) {timePassed : UInt32}
    {records : List DynLease} (ahead : Ahead world server) :
    Ahead world (loadRecords config world timePassed records server) := by
  induction records generalizing server with
  | nil => exact ahead
  | cons lease rest ih =>
    rw [Udhcp.loadRecords]
    split
    · exact ih ahead
    case h_2 expires _ =>
      have added : Ahead world (Udhcp.addLease world (some lease.leaseMac) lease.leaseNip
          expires (some (lease.hostname, hostnameSize)) server).2 := Ahead.addLease runs _ _ _ _
      split
      case h_1 result =>
        rw [result] at added
        exact added
      case h_2 result =>
        rw [result] at added
        exact ih added

theorem ahead_startServer (runs : ClockRuns config world) (file : Option LeaseFile) :
    Ahead world (startServer config world file) := by
  cases file with
  | none => exact fun _ _ => UInt32.zero_le
  | some contents =>
    have ticked : Ahead world (timeNull world (zeroServer config (some contents))).2 :=
      Ahead.time runs
    simp only [startServer, readLeases]
    split
    · exact ticked
    · exact ticked.loadRecords runs

theorem tidy_startServer (config : ServerData) (world : World) (file : Option LeaseFile) :
    Tidy config (startServer config world file) :=
  ServerInv.start (unique_rules config _) (unique_zero _)
    fun _ _ _ _ _ _ _ _ _ _ _ unique => unique.inserted _ _ _ _ _ _

/-- The watch begins with what is in the table when the main loop is entered. -/
theorem Watch.begin (ahead : Ahead world start) :
    Watch config world start start.sent start where
  sent := rfl
  ahead := ahead
  grown := le_refl _
  current := fun lease member aside => ⟨aside, _, List.mem_cons_self .., member⟩
  held := by
    rintro lease ⟨-, table, among, member⟩
    rw [List.drop_length, List.mem_singleton] at among
    exact .inl (among ▸ member)
  dated := by
    rintro lease ⟨-, table, among, member⟩
    rw [List.drop_length, List.mem_singleton] at among
    exact .inl (among ▸ member)

theorem Tidy.step (tidy : Tidy config server) (input : Input) :
    Tidy config (serverStep config world server input) := by
  refine ServerInv.step (unique_rules config _) server input tidy ?_
  cases input <;> simp [InputGuard, AcceptsOnly]

/-- The server on watch: the invariant of runs. -/
def Watched (config : ServerData) (world : World) (start server : Server) : Prop :=
  Watch config world start server.sent server ∧ Tidy config server

theorem Watched.step (runs : ClockRuns config world) (server : Server) (input : Input)
    (watched : Watched config world start server) (guard : SparesSetAside config server input) :
    Watched config world start (serverStep config world server input) := by
  obtain ⟨⟨replies, watch⟩, -⟩ := watched.1.step runs watched.2 guard
  exact ⟨watch.sent ▸ watch, watched.2.step input⟩

end Preservation

/-- In every run in which no packet that touches the table comes from the all-zero
hardware address and no client is given a static address that is set aside: an
address set aside since the main loop was entered is so until a reading of the
clock plus `decline_time` or `conflict_time` (one loaded from the lease file, until
the end it was loaded with), and the replies of a turn that carry a lease give it
to nobody before its end. -/
theorem run_setAside (config : ServerData) (world : World) (file : Option LeaseFile)
    (inputs : List Input) (last : Input) (runs : ClockRuns config world)
    (admitted : GuardedRun.Admitted (serverStep config world) (SparesSetAside config)
      (startServer config world file) (inputs ++ [last])) :
    let start := startServer config world file
    let before := runServer config world start inputs
    let after := serverStep config world before last
    (∀ lease, SetAsideSince start after lease →
      lease ∈ start.leases ∨ Dated config world after lease) ∧
    ∀ reply ∈ after.sent.drop before.sent.length, reply.leaseTimeSec ≠ none →
      ∀ lease, SetAsideSince start after lease → lease.leaseNip = reply.yiaddr →
        lease.expires ≤ reply.clock := by
  intro start before after
  obtain ⟨admitted, guard⟩ := GuardedRun.admitted_concat.mp admitted
  have watched : Watched config world start before :=
    GuardedRun.invariant_of_admitted (Watched.step runs)
      ⟨Watch.begin (ahead_startServer runs file), tidy_startServer config world file⟩ admitted
  obtain ⟨⟨replies, watch⟩, leaves⟩ := watched.1.step runs watched.2 guard
  exact ⟨watch.dated, leaves⟩

/-- Three clients take the three addresses and one of them declines its own. -/
def declined : List Input :=
  [.packet (request 1 laptopMac [192, 168, 0, 20]), .packet (request 3 laptopMac [192, 168, 0, 20]),
    .packet (request 1 phoneMac [192, 168, 0, 21]),
    .packet (request 1 printerMac [192, 168, 0, 22]),
    .packet (request 4 laptopMac [192, 168, 0, 20])]

/-- A quiet network keeps time. -/
theorem clockRuns_quiet : ClockRuns (officeConfig []) quietWorld where
  forward := fun _ _ _ => le_refl _
  declineFits := fun _ => show 1000 + 3600 < 2 ^ 32 by decide
  conflictFits := fun _ => show 1000 + 3600 < 2 ^ 32 by decide

/-- After the decline the phone renews its own lease, and 192.168.0.20 stays set aside. -/
theorem run_setAside_office :
    let start := startServer (officeConfig []) quietWorld none
    let before := runServer (officeConfig []) quietWorld start declined
    let after := serverStep (officeConfig []) quietWorld before
      (.packet (request 3 phoneMac [192, 168, 0, 21]))
    (∃ lease ∈ after.leases, SetAside lease ∧ lease.expires = 4600) ∧
    (∃ reply ∈ after.sent.drop before.sent.length, reply.leaseTimeSec ≠ none) ∧
    (∀ lease, SetAsideSince start after lease →
      lease ∈ start.leases ∨ Dated (officeConfig []) quietWorld after lease) ∧
    ∀ reply ∈ after.sent.drop before.sent.length, reply.leaseTimeSec ≠ none →
      ∀ lease, SetAsideSince start after lease → lease.leaseNip = reply.yiaddr →
        lease.expires ≤ reply.clock := by
  refine ⟨by decide, by decide, run_setAside _ _ none declined _ clockRuns_quiet ?_⟩
  have spares (server : Server) (packet : DhcpPacket) (client : packet.chaddr ≠ zeroMac) :
      SparesSetAside (officeConfig []) server (.packet packet) :=
    fun state _ => ⟨fun _ => client, fun _ real => absurd rfl real⟩
  exact ⟨spares _ _ (by decide), spares _ _ (by decide), spares _ _ (by decide),
    spares _ _ (by decide), spares _ _ (by decide), spares _ _ (by decide), trivial⟩

/-- A client that sends from the all-zero address is offered the declined one at once. -/
theorem run_offers_setAside :
    ¬ ∀ (config : ServerData) (world : World) (inputs : List Input) (last : Input),
      ClockRuns config world →
      let start := startServer config world none
      let before := runServer config world start inputs
      let after := serverStep config world before last
      ∀ reply ∈ after.sent.drop before.sent.length, reply.leaseTimeSec ≠ none →
        ∀ lease, SetAsideSince start after lease → lease.leaseNip = reply.yiaddr →
          lease.expires ≤ reply.clock := by
  intro claim
  let start := startServer (officeConfig []) quietWorld none
  let before := runServer (officeConfig []) quietWorld start declined
  let after := serverStep (officeConfig []) quietWorld before
    (.packet (request 1 zeroMac [192, 168, 0, 20]))
  have offered : ∃ reply ∈ after.sent.drop before.sent.length, reply.leaseTimeSec ≠ none ∧
      ∃ lease ∈ (after.history.drop start.history.length).flatten,
        SetAside lease ∧ lease.leaseNip = reply.yiaddr ∧ ¬ lease.expires ≤ reply.clock := by
    decide
  obtain ⟨reply, sent, carries, lease, listed, aside, address, early⟩ := offered
  obtain ⟨table, among, member⟩ := List.mem_flatten.mp listed
  exact early (claim (officeConfig []) quietWorld declined _ clockRuns_quiet reply sent carries
    lease ⟨aside, table, List.mem_cons_of_mem _ among, member⟩ address)

end Busybox.Udhcp
