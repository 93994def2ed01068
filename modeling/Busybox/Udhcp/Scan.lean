import Busybox.Udhcp.Steps

/-!
# When the scan gives up

`find_free_or_expired_nip` returns 0 when no address is to be had. Every
usable address without an entry has then answered its probe. Of the addresses
with an entry only the one whose lease ends first is tried: when that lease is
not expired none is, but when its address answers, no other is looked at.
-/

namespace Busybox.Udhcp

/-- The turns of the address loop: each address with the state its turn finds. -/
def scanTurns (config : ServerData) (world : World) :
    Nat → UInt32 → Option Nat → Server → List (UInt32 × Server)
  | 0, _, _, _ => []
  | left + 1, addr, oldestLease, server =>
    (addr, server) :: match scanAddress config world addr oldestLease server with
      | (some _, _, _) => []
      | (none, oldestLease, server) => scanTurns config world left (addr + 1) oldestLease server

/-- The turns of one call of `find_free_or_expired_nip`. -/
def turns (config : ServerData) (world : World) (server : Server) : List (UInt32 × Server) :=
  scanTurns config world (scanLength config) config.startIp none server

/-- The state the address loop ends in, and the lease it remembers as the oldest. -/
def scanned (config : ServerData) (world : World) (server : Server) : Server :=
  (scanAddresses config world (scanLength config) config.startIp none server).2.2

def remembered (config : ServerData) (world : World) (server : Server) : Option Nat :=
  (scanAddresses config world (scanLength config) config.startIp none server).2.1

/-- An address the server may give to a client of no static lease. -/
def Usable (config : ServerData) (addr : UInt32) : Prop :=
  config.startIp ≤ addr ∧ addr ≤ config.endIp ∧ skipsAddress config addr = false

/-- The turn probes its address and gets an answer. -/
def Conflicts (config : ServerData) (world : World) (addr : UInt32) (state : Server) : Prop :=
  skipsAddress config addr = false ∧ findLeaseByNip (htonl addr) state = none ∧
    (nobodyRespondsToArp config world (htonl addr) state).1 = false

/-- The last test probes the address of the remembered lease and gets an answer. -/
def LastConflicts (config : ServerData) (world : World) (server : Server) (nip : UInt32) : Prop :=
  ∃ slot ∈ remembered config world server,
    let (expired, checked) := isExpiredLease world ((scanned config world server).leaseAt slot)
      (scanned config world server)
    expired = true ∧ nip = (checked.leaseAt slot).leaseNip ∧
      (nobodyRespondsToArp config world nip checked).1 = false

/-- The address answered a probe made by this call. -/
def Answered (config : ServerData) (world : World) (server : Server) (nip : UInt32) : Prop :=
  (∃ turn ∈ turns config world server, htonl turn.1 = nip ∧
    Conflicts config world turn.1 turn.2) ∨ LastConflicts config world server nip

/-- An entry of the table has the address and is not expired. -/
def HeldAt (table : List DynLease) (clock nip : UInt32) : Prop :=
  ∃ lease ∈ table, lease.leaseNip = nip ∧ ¬ lease.expiredAt clock

/-- Whatever conflict entry the address loop makes, it overwrites an entry without an
address. -/
def OverwritesNoAddress (config : ServerData) (world : World) (server : Server) : Prop :=
  ∀ turn ∈ turns config world server, Conflicts config world turn.1 turn.2 →
    ∀ slot ∈ (addLease world none (htonl turn.1) config.conflictTime none
      { turn.2 with arpCalls := turn.2.arpCalls + 1 }).1, (turn.2.leaseAt slot).leaseNip = 0

section Turns

variable {config : ServerData} {world : World} {server after : Server} {addr : UInt32}
  {oldest oldest' : Option Nat}

/-! ## What the turns of a fruitless scan find -/

/-- A turn that returns nothing skips its address, finds an entry with it, or has its
probe answered. -/
theorem scanTurn_finds (turn : ScanTurn config world addr oldest server none oldest' after) :
    skipsAddress config addr = true ∨ (∃ lease ∈ server.leases, lease.leaseNip = htonl addr) ∨
      Conflicts config world addr server := by
  have entry {slot : Nat} (present : findLeaseByNip (htonl addr) server = some slot) :
      ∃ lease ∈ server.leases, lease.leaseNip = htonl addr := by
    obtain ⟨atSlot, passes⟩ := leaseAt_of_findIdx? present
    exact ⟨_, List.mem_of_getElem? atSlot, eq_of_beq passes⟩
  cases turn with
  | skipped skips => exact .inl skips
  | conflict usable absent probe => exact .inr (.inr ⟨usable, absent, congrArg Prod.fst probe⟩)
  | older _ present => exact .inr (.inl (entry present))
  | younger _ present => exact .inr (.inl (entry present))

/-- A scan that returns nothing turns to every address it was to look at. -/
theorem scanTurns_covers {left : Nat}
    (result : scanAddresses config world left addr oldest server = (none, oldest', after))
    {step : Nat} (inside : step < left) :
    ∃ state, (addr + UInt32.ofNat step, state) ∈
      scanTurns config world left addr oldest server := by
  induction left generalizing addr oldest server step with
  | zero => exact absurd inside (Nat.not_lt_zero step)
  | succ left ih =>
    rw [scanTurns]
    cases step with
    | zero => exact ⟨server, by simp⟩
    | succ step =>
      rw [scanAddresses] at result
      cases turn : scanAddress config world addr oldest server with
      | mk returned rest =>
        obtain ⟨pointer, next⟩ := rest
        rw [turn] at result
        cases returned with
        | some nip => cases result
        | none =>
          obtain ⟨state, member⟩ := ih result (Nat.lt_of_succ_lt_succ inside)
          refine ⟨state, List.mem_cons_of_mem _ ?_⟩
          have next : addr + UInt32.ofNat (step + 1) = addr + 1 + UInt32.ofNat step := by
            rw [UInt32.ofNat_add, add_comm (UInt32.ofNat step), ← add_assoc]
            rfl
          rw [next]
          exact member

/-- What holds of every turn of a fruitless scan that returns nothing holds of the
turns of the scan. -/
theorem scanTurns_finds {left : Nat}
    (result : scanAddresses config world left addr oldest server = (none, oldest', after)) :
    ∀ turn ∈ scanTurns config world left addr oldest server,
      skipsAddress config turn.1 = true ∨
        (∃ lease ∈ turn.2.leases, lease.leaseNip = htonl turn.1) ∨
        Conflicts config world turn.1 turn.2 := by
  induction left generalizing addr oldest server with
  | zero => simp [scanTurns]
  | succ left ih =>
    rw [scanAddresses] at result
    rw [scanTurns]
    cases turn : scanAddress config world addr oldest server with
    | mk returned rest =>
      obtain ⟨pointer, next⟩ := rest
      rw [turn] at result
      cases returned with
      | some nip => cases result
      | none =>
        intro other member
        rcases List.mem_cons.mp member with rfl | later
        · exact scanTurn_finds (scanAddress_turn turn)
        · exact ih result other later

/-- An address the scan returns is a real one. -/
theorem scanAddresses_found {left : Nat} {nip : UInt32}
    (result : scanAddresses config world left addr oldest server = (some nip, oldest', after)) :
    nip ≠ 0 := by
  induction left generalizing addr oldest server with
  | zero => cases result
  | succ left ih =>
    rw [scanAddresses] at result
    cases turn : scanAddress config world addr oldest server with
    | mk returned rest =>
      obtain ⟨pointer, next⟩ := rest
      rw [turn] at result
      cases returned with
      | none => exact ih result
      | some found =>
        cases result
        cases scanAddress_turn turn with
        | free usable =>
          have range : Scanned config (htonl addr) := ⟨addr, usable, rfl⟩
          exact range.ne_zero

/-- The loop from `start_ip` turns to every address of the range. -/
theorem turns_covers (nothing : scanAddresses config world (scanLength config) config.startIp
      none server = (none, oldest', after)) (usable : Usable config addr) :
    ∃ state, (addr, state) ∈ turns config world server := by
  obtain ⟨lower, upper, -⟩ := usable
  have distance : (addr - config.startIp).toNat = addr.toNat - config.startIp.toNat :=
    UInt32.toNat_sub_of_le _ _ lower
  have whole : (config.endIp - config.startIp).toNat =
      config.endIp.toNat - config.startIp.toNat :=
    UInt32.toNat_sub_of_le _ _ (UInt32.le_trans lower upper)
  have inside : (addr - config.startIp).toNat < scanLength config := by
    have := UInt32.le_iff_toNat_le.mp upper
    rw [scanLength, whole, distance]
    omega
  have reached := scanTurns_covers nothing inside
  have back : config.startIp + UInt32.ofNat (addr - config.startIp).toNat = addr := by
    rw [UInt32.ofNat_toNat, add_comm, UInt32.sub_add_cancel]
  rwa [back] at reached

/-! ## The remembered lease -/

/-- Every entry with an address stays where it is. -/
def Carries (before after : List DynLease) : Prop :=
  ∀ ⦃slot : Nat⦄ ⦃lease : DynLease⦄, before[slot]? = some lease → lease.leaseNip ≠ 0 → after[slot]? = some lease

theorem Carries.leaseAt (carries : Carries server.leases after.leases) {slot : Nat}
    (real : (server.leaseAt slot).leaseNip ≠ 0) : after.leaseAt slot = server.leaseAt slot := by
  have atSlot := carries (leaseAt_of_ne_zero real) real
  simp [Server.leaseAt, atSlot]

/-- A conflict entry that overwrites no address carries the table along. -/
theorem carries_of_conflict
    (absent : findLeaseByNip (htonl addr) server = none)
    (probe : nobodyRespondsToArp config world (htonl addr) server = (false, after))
    (noAddress : ∀ slot ∈ (addLease world none (htonl addr) config.conflictTime none
      { server with arpCalls := server.arpCalls + 1 }).1, (server.leaseAt slot).leaseNip = 0) :
    Carries server.leases after.leases := by
  intro slot lease atSlot real
  have cleared := clearedTable_of_absent (findLeaseByNip_none absent)
  rw [nobodyRespondsToArp_false probe]
  rcases addLease_cases world none (htonl addr) config.conflictTime none
      { server with arpCalls := server.arpCalls + 1 } with
    ⟨after, result, leases, -⟩ | ⟨after, written, old, result, -, -, leases, -⟩
  · rw [result]
    simpa [leases, cleared] using atSlot
  · have other : written ≠ slot := by
      rintro rfl
      refine real ?_
      simpa [Server.leaseAt, atSlot] using noAddress written (by rw [result]; rfl)
    rw [result]
    dsimp only
    rw [leases, List.getElem?_set_ne other, cleared]
    exact atSlot

/-- The remembered lease ends no later than the given time. -/
def EndsBy (server : Server) (oldest : Option Nat) (expires : UInt32) : Prop :=
  ∃ held ∈ oldest, (server.leaseAt held).expires ≤ expires

/-- What a fruitless stretch of the scan from `server` to `after` keeps, and what it
has found at the addresses of its turns. -/
structure Stretch (config : ServerData) (world : World) (turns : List (UInt32 × Server))
    (oldest : Option Nat) (server : Server) (oldest' : Option Nat) (after : Server) : Prop where
  carries : Carries server.leases after.leases
  points : PointsIntoRange config after oldest'
  remembers : ∀ expires, EndsBy server oldest expires → EndsBy after oldest' expires
  visited : ∀ turn ∈ turns, skipsAddress config turn.1 = false →
    Conflicts config world turn.1 turn.2 ∨
    ∃ lease ∈ after.leases, lease.leaseNip = htonl turn.1 ∧ EndsBy after oldest' lease.expires

/-- One turn. -/
theorem stretch_of_turn (points : PointsIntoRange config server oldest)
    (turn : ScanTurn config world addr oldest server none oldest' after)
    (noAddress : Conflicts config world addr server →
      ∀ slot ∈ (addLease world none (htonl addr) config.conflictTime none
        { server with arpCalls := server.arpCalls + 1 }).1, (server.leaseAt slot).leaseNip = 0) :
    Stretch config world [(addr, server)] oldest server oldest' after := by
  cases turn with
  | skipped skips =>
    exact ⟨fun _ _ atSlot _ => atSlot, points, fun _ ends => ends, by simp [skips]⟩
  | conflict usable absent probe =>
    have conflicts : Conflicts config world addr server :=
      ⟨usable, absent, congrArg Prod.fst probe⟩
    have carries := carries_of_conflict absent probe (noAddress conflicts)
    have same (held : Nat) (is : held ∈ oldest) : after.leaseAt held = server.leaseAt held :=
      carries.leaseAt (points held is).ne_zero
    refine ⟨carries, ?_, ?_, by simp [conflicts]⟩
    · intro held is
      rw [same held is]
      exact points held is
    · rintro expires ⟨held, is, bound⟩
      exact ⟨held, is, by rw [same held is]; exact bound⟩
  | @older slot usable present older =>
    obtain ⟨atSlot, passes⟩ := leaseAt_of_findIdx? present
    have member := List.mem_of_getElem? atSlot
    refine ⟨fun _ _ atSlot _ => atSlot, ?_, ?_, ?_⟩
    · rintro other ⟨⟩
      rw [eq_of_beq passes]
      exact ⟨addr, usable, rfl⟩
    · rintro expires ⟨held, is, bound⟩
      exact ⟨slot, rfl, UInt32.le_trans (UInt32.le_of_lt (older held is)) bound⟩
    · intro other here _
      obtain rfl := List.mem_singleton.mp here
      exact .inr ⟨_, member, eq_of_beq passes, slot, rfl, UInt32.le_refl _⟩
  | @younger slot held usable present remembered younger =>
    obtain ⟨atSlot, passes⟩ := leaseAt_of_findIdx? present
    refine ⟨fun _ _ atSlot _ => atSlot, points, fun _ ends => ends, ?_⟩
    intro other here _
    obtain rfl := List.mem_singleton.mp here
    exact .inr ⟨_, List.mem_of_getElem? atSlot, eq_of_beq passes, held, remembered, younger⟩

/-- The whole scan, by induction on the addresses to go. -/
theorem stretch_of_scan {left : Nat} (points : PointsIntoRange config server oldest)
    (result : scanAddresses config world left addr oldest server = (none, oldest', after))
    (noAddress : ∀ turn ∈ scanTurns config world left addr oldest server,
      Conflicts config world turn.1 turn.2 →
      ∀ slot ∈ (addLease world none (htonl turn.1) config.conflictTime none
        { turn.2 with arpCalls := turn.2.arpCalls + 1 }).1, (turn.2.leaseAt slot).leaseNip = 0) :
    Stretch config world (scanTurns config world left addr oldest server) oldest server oldest'
      after := by
  induction left generalizing addr oldest server with
  | zero =>
    cases result
    exact ⟨fun _ _ atSlot _ => atSlot, points, fun _ ends => ends, by simp [scanTurns]⟩
  | succ left ih =>
    rw [scanAddresses] at result
    rw [scanTurns] at noAddress ⊢
    cases turn : scanAddress config world addr oldest server with
    | mk returned rest =>
      obtain ⟨pointer, next⟩ := rest
      rw [turn] at result noAddress
      cases returned with
      | some nip => cases result
      | none =>
        have first := stretch_of_turn points (scanAddress_turn turn)
          (noAddress (addr, server) (List.mem_cons_self ..))
        have later := ih first.points result
          fun other member => noAddress other (List.mem_cons_of_mem _ member)
        refine ⟨?_, later.points, ?_, ?_⟩
        · intro slot lease atSlot real
          exact later.carries (first.carries atSlot real) real
        · intro expires ends
          exact later.remembers expires (first.remembers expires ends)
        · intro other member usable
          rcases List.mem_cons.mp member with rfl | member
          · refine (first.visited _ (List.mem_singleton_self _) usable).imp_right ?_
            rintro ⟨lease, here, address, ends⟩
            have range : Scanned config (htonl addr) := ⟨addr, usable, rfl⟩
            obtain ⟨slot, atSlot⟩ := List.getElem?_of_mem here
            have carried := later.carries atSlot (address ▸ range.ne_zero)
            exact ⟨lease, List.mem_of_getElem? carried, address, later.remembers _ ends⟩
          · exact later.visited other member usable

/-- The last test gives nothing away: the remembered lease is not expired, or its
address answered. -/
theorem expiredNip_zero {slot : Nat} (real : (server.leaseAt slot).leaseNip ≠ 0)
    (nothing : (expiredNip config world slot server).1 = 0) :
    (¬ (server.leaseAt slot).expiredAt (UInt32.ofNat (world.time server.timeCalls)) ∧
      (expiredNip config world slot server).2 = (time world server).2) ∨
    ((server.leaseAt slot).expiredAt (UInt32.ofNat (world.time server.timeCalls)) ∧
      (nobodyRespondsToArp config world (server.leaseAt slot).leaseNip
        (time world server).2).1 = false) := by
  by_cases expired : (server.leaseAt slot).expiredAt (UInt32.ofNat (world.time server.timeCalls))
  · have check : isExpiredLease world (server.leaseAt slot) server =
        (true, (time world server).2) := Prod.ext (decide_eq_true expired) rfl
    refine .inr ⟨expired, ?_⟩
    rw [expiredNip, check] at nothing
    dsimp only at nothing
    cases probe : nobodyRespondsToArp config world (server.leaseAt slot).leaseNip
        (time world server).2 with
    | mk answer probed =>
      cases answer with
      | false => rfl
      | true =>
        have same : (time world server).2.leaseAt slot = server.leaseAt slot := rfl
        rw [same, probe] at nothing
        obtain rfl := nobodyRespondsToArp_true probe
        exact absurd nothing real
  · have check : isExpiredLease world (server.leaseAt slot) server =
        (false, (time world server).2) := Prod.ext (decide_eq_false expired) rfl
    refine .inl ⟨expired, ?_⟩
    rw [expiredNip, check]

end Turns

/-- When `find_free_or_expired_nip` returns 0, every usable address has an entry when
its turn comes or answered its probe. If besides no conflict entry overwrote the
entry of an address, then every usable address is held by an unexpired lease or
answered; or the lease of theirs that ends first is expired, its address answered,
and the expired leases after it were not tried. -/
theorem findFreeOrExpiredNip_zero (config : ServerData) (world : World) (server : Server)
    (nothing : (findFreeOrExpiredNip config world server).1 = 0) :
    (∀ addr, Usable config addr →
      (∃ state, (addr, state) ∈ turns config world server ∧
        ∃ lease ∈ state.leases, lease.leaseNip = htonl addr) ∨
      Answered config world server (htonl addr)) ∧
    (OverwritesNoAddress config world server →
      (∀ addr, Usable config addr →
        HeldAt (findFreeOrExpiredNip config world server).2.leases
          (findFreeOrExpiredNip config world server).2.clock (htonl addr) ∨
        Answered config world server (htonl addr)) ∨
      ∃ oldest ∈ (scanned config world server).leases,
        LastConflicts config world server oldest.leaseNip ∧
        ∀ addr, Usable config addr → Answered config world server (htonl addr) ∨
          ∃ lease ∈ (scanned config world server).leases,
            lease.leaseNip = htonl addr ∧ oldest.expires ≤ lease.expires) := by
  cases scan : scanAddresses config world (scanLength config) config.startIp none server with
  | mk found rest =>
    obtain ⟨oldest, after⟩ := rest
    have afterEq : scanned config world server = after := by rw [scanned, scan]
    have oldestEq : remembered config world server = oldest := by rw [remembered, scan]
    cases found with
    | some nip =>
      rw [findFreeOrExpiredNip, scan] at nothing
      exact absurd nothing (scanAddresses_found scan)
    | none =>
      have answered {addr : UInt32} {state : Server}
          (turn : (addr, state) ∈ turns config world server)
          (conflicts : Conflicts config world addr state) :
          Answered config world server (htonl addr) :=
        .inl ⟨_, turn, rfl, conflicts⟩
      constructor
      · intro addr usable
        obtain ⟨state, turn⟩ := turns_covers scan usable
        rcases scanTurns_finds scan _ turn with skips | entry | conflicts
        · exact absurd skips (by simp [usable.2.2])
        · exact .inl ⟨state, turn, entry⟩
        · exact .inr (answered turn conflicts)
      · intro noAddress
        have stretch := stretch_of_scan (by rintro slot ⟨⟩) scan noAddress
        have found (addr : UInt32) (usable : Usable config addr) :
            Answered config world server (htonl addr) ∨
              ∃ lease ∈ after.leases, lease.leaseNip = htonl addr ∧
                EndsBy after oldest lease.expires := by
          obtain ⟨state, turn⟩ := turns_covers scan usable
          exact (stretch.visited _ turn usable.2.2).imp_left (answered turn)
        cases oldest with
        | none =>
          left
          intro addr usable
          rcases found addr usable with answered | ⟨_, _, _, _, impossible, _⟩
          · exact .inr answered
          · cases impossible
        | some slot =>
          have range := stretch.points slot rfl
          have here := List.mem_of_getElem? (leaseAt_of_ne_zero range.ne_zero)
          have last : findFreeOrExpiredNip config world server =
              expiredNip config world slot after := by
            rw [findFreeOrExpiredNip, scan]
          rw [last] at nothing ⊢
          rcases expiredNip_zero range.ne_zero nothing with
            ⟨current, ending⟩ | ⟨expired, conflict⟩
          · left
            intro addr usable
            refine (found addr usable).symm.imp_left ?_
            rintro ⟨lease, member, address, held, ⟨⟩, bound⟩
            rw [ending]
            exact ⟨lease, member, address, fun early =>
              current (UInt32.lt_of_le_of_lt bound early)⟩
          · right
            rw [afterEq]
            refine ⟨after.leaseAt slot, here, ⟨slot, oldestEq ▸ rfl, ?_⟩, ?_⟩
            · rw [afterEq]
              exact ⟨decide_eq_true expired, rfl, conflict⟩
            · intro addr usable
              refine (found addr usable).imp_right ?_
              rintro ⟨lease, member, address, held, ⟨⟩, bound⟩
              exact ⟨lease, member, address, bound⟩

/-- Three leases, all expired at 1000, the first of them before the others. -/
def staleServer : Server :=
  { zeroServer (officeConfig []) none with
    leases := [⟨100, htonl 0xC0A80014, laptopMac, []⟩, ⟨200, htonl 0xC0A80015, phoneMac, []⟩,
      ⟨300, htonl 0xC0A80016, printerMac, []⟩] }

/-- Every address answers an ARP probe. -/
def crowdedWorld : World := ⟨fun _ => 1000, fun _ => false⟩

/-- The only address that is tried answers. -/
theorem findFreeOrExpiredNip_zero_stale :
    OverwritesNoAddress (officeConfig []) crowdedWorld staleServer ∧
    (findFreeOrExpiredNip (officeConfig []) crowdedWorld staleServer).1 = 0 ∧
    ((∀ addr, Usable (officeConfig []) addr →
        HeldAt (findFreeOrExpiredNip (officeConfig []) crowdedWorld staleServer).2.leases
          (findFreeOrExpiredNip (officeConfig []) crowdedWorld staleServer).2.clock
          (htonl addr) ∨
        Answered (officeConfig []) crowdedWorld staleServer (htonl addr)) ∨
      ∃ oldest ∈ (scanned (officeConfig []) crowdedWorld staleServer).leases,
        LastConflicts (officeConfig []) crowdedWorld staleServer oldest.leaseNip ∧
        ∀ addr, Usable (officeConfig []) addr →
          Answered (officeConfig []) crowdedWorld staleServer (htonl addr) ∨
          ∃ lease ∈ (scanned (officeConfig []) crowdedWorld staleServer).leases,
            lease.leaseNip = htonl addr ∧ oldest.expires ≤ lease.expires) := by
  have nothing : (findFreeOrExpiredNip (officeConfig []) crowdedWorld staleServer).1 = 0 := by
    decide
  have noAddress : OverwritesNoAddress (officeConfig []) crowdedWorld staleServer := by
    unfold OverwritesNoAddress Conflicts
    decide
  exact ⟨noAddress, nothing, (findFreeOrExpiredNip_zero _ _ _ nothing).2 noAddress⟩

/-- 192.168.0.21 is expired and was not probed, yet nothing is returned. -/
theorem findFreeOrExpiredNip_gives_up :
    ¬ ∀ (config : ServerData) (world : World) (server : Server),
      (findFreeOrExpiredNip config world server).1 = 0 →
      ∀ addr, Usable config addr →
        HeldAt (findFreeOrExpiredNip config world server).2.leases
          (findFreeOrExpiredNip config world server).2.clock (htonl addr) ∨
        Answered config world server (htonl addr) := by
  intro claim
  have usable : Usable (officeConfig []) 0xC0A80015 := ⟨by decide, by decide, by decide⟩
  rcases claim (officeConfig []) crowdedWorld staleServer (by decide) _ usable with
    held | conflicts | last
  · revert held
    unfold HeldAt
    decide
  · revert conflicts
    unfold Conflicts
    decide
  · revert last
    unfold LastConflicts
    decide

end Busybox.Udhcp
