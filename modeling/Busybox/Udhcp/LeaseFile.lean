import Busybox.Udhcp.Exclusive

/-!
# The lease file

`write_leases` counts each expiry from the time of writing, and `read_leases`
puts the records back through `add_lease` one after another. A lease comes back
as it was exactly when its seconds stay in the range of `signed_leasetime_t`, the
clock does not move before it is stored, and no later record clears it: the
entries set aside after a DECLINE or an ARP conflict all carry the zero MAC, which
`read_leases` hands to `add_lease` as a MAC, so that each one clears the ones
before it.
-/

namespace Busybox.Udhcp

open Slots

/-! ## Host names -/

theorem sanitizeChar_cases (c : UInt8) : sanitizeChar c = 46 ∨ sanitizeChar c = c ∧ c ≠ 0 := by
  unfold sanitizeChar
  split
  · refine .inr ⟨rfl, ?_⟩
    rintro rfl
    simp [isalnum] at *
  · exact .inl rfl

theorem sanitizeChar_ne_zero (c : UInt8) : sanitizeChar c ≠ 0 := by
  rcases sanitizeChar_cases c with dot | ⟨same, real⟩
  · simp [dot]
  · rwa [same]

@[simp] theorem sanitizeChar_sanitizeChar (c : UInt8) :
    sanitizeChar (sanitizeChar c) = sanitizeChar c := by
  rcases sanitizeChar_cases c with dot | ⟨same, -⟩
  · rw [dot]; rfl
  · rw [same, same]

theorem sanitize_ne_zero {name : List UInt8} : ∀ c ∈ sanitize name, c ≠ 0 := by
  cases name with
  | nil => simp [sanitize]
  | cons first rest =>
    intro c member
    rcases List.mem_cons.mp member with rfl | member
    · exact sanitizeChar_ne_zero _
    · obtain ⟨old, -, rfl⟩ := List.mem_map.mp member
      exact sanitizeChar_ne_zero old

@[simp] theorem length_sanitize (name : List UInt8) : (sanitize name).length = name.length := by
  cases name <;> simp [sanitize]

/-- Sanitizing turns a leading `-` to a dot, so it leaves a sanitized name alone. -/
@[simp] theorem sanitize_sanitize (name : List UInt8) :
    sanitize (sanitize name) = sanitize name := by
  cases name with
  | nil => rfl
  | cons first rest =>
    have noDash : sanitizeChar (if first = 45 then 46 else first) ≠ 45 := by
      rcases sanitizeChar_cases (if first = 45 then 46 else first) with dot | ⟨same, -⟩
      · rw [dot]; decide
      · rw [same]; split <;> simp_all
    simp [sanitize, noDash]

/-- The name in the field of a lease. -/
theorem storedHostname_eq (hostname : List UInt8) (hostnameLen : Nat) :
    ∃ name, name.length < hostnameSize ∧ (∀ c ∈ name, c ≠ 0) ∧ sanitize name = name ∧
      storedHostname hostname hostnameLen =
        name ++ List.replicate (hostnameSize - name.length) 0 := by
  refine ⟨_, ?_, sanitize_ne_zero, sanitize_sanitize _, rfl⟩
  rw [length_sanitize]
  have shorter := (List.takeWhile_sublist (l := hostname.take
    (min (hostnameLen + 1) hostnameSize - 1)) (· ≠ 0)).length_le
  have taken := List.length_take_le (min (hostnameLen + 1) hostnameSize - 1) hostname
  simp only [hostnameSize] at *
  omega

/-- A hostname field that re-inserting the lease would not change. -/
def HostnameStored (hostname : List UInt8) : Prop :=
  storedHostname hostname hostnameSize = hostname

theorem hostnameStored_empty : HostnameStored emptyLease.hostname := by
  unfold HostnameStored
  decide

theorem hostnameStored_storedHostname (hostname : List UInt8) (hostnameLen : Nat) :
    HostnameStored (storedHostname hostname hostnameLen) := by
  obtain ⟨name, short, real, clean, eq⟩ := storedHostname_eq hostname hostnameLen
  have copied : ((name ++ List.replicate (hostnameSize - name.length) (0 : UInt8)).take
      (hostnameSize - 1)).takeWhile (· ≠ 0) = name := by
    rw [List.take_append, List.take_of_length_le (by omega),
      List.takeWhile_append_of_pos (by simpa using real), List.take_replicate]
    cases min (hostnameSize - 1 - name.length) (hostnameSize - name.length) with
    | zero => simp
    | succ => simp [List.replicate_succ]
  rw [HostnameStored, eq, storedHostname]
  simp only [show min (hostnameSize + 1) hostnameSize - 1 = hostnameSize - 1 from rfl, copied,
    clean]

/-! ## Well-formed tables -/

/-- What holds of the table of a running server, whatever its configuration and
its first lease file. -/
structure WellFormed (config : ServerData) (table : List DynLease) : Prop
    extends Unique table where
  length : table.length = config.maxLeases
  hostnames : ∀ lease ∈ table, HostnameStored lease.hostname

section Tables

variable {config : ServerData} {table : List DynLease}

theorem wellFormed_zero (config : ServerData) :
    WellFormed config (List.replicate config.maxLeases emptyLease) where
  toUnique := unique_zero _
  length := List.length_replicate
  hostnames := by
    intro lease member
    rw [List.eq_of_mem_replicate member]
    exact hostnameStored_empty

theorem newLease_hostname (chaddr : Option Mac) (nip leasetime : UInt32)
    (hostname : Option (List UInt8 × Nat)) (now : UInt32) :
    HostnameStored (newLease chaddr nip leasetime hostname now).hostname := by
  cases hostname with
  | none => exact hostnameStored_empty
  | some given => exact hostnameStored_storedHostname given.1 given.2

theorem WellFormed.cleared (wellFormed : WellFormed config table) (chaddr : Option Mac)
    (nip : UInt32) : WellFormed config (clearedTable chaddr nip table) where
  toUnique := wellFormed.toUnique.cleared chaddr nip
  length := by rw [clearedTable, List.length_map, wellFormed.length]
  hostnames := by
    intro lease member
    rcases mem_clearedTable member with rfl | ⟨old, -⟩
    · exact hostnameStored_empty
    · exact wellFormed.hostnames lease old

theorem WellFormed.inserted (wellFormed : WellFormed config table) (chaddr : Option Mac)
    (nip : UInt32) (slot : Nat) (leasetime : UInt32) (hostname : Option (List UInt8 × Nat))
    (now : UInt32) :
    WellFormed config ((clearedTable chaddr nip table).set slot
      (newLease chaddr nip leasetime hostname now)) where
  toUnique := wellFormed.toUnique.inserted chaddr nip slot leasetime hostname now
  length := by rw [List.length_set, (wellFormed.cleared chaddr nip).length]
  hostnames := by
    intro lease member
    rcases List.mem_or_eq_of_mem_set member with before | rfl
    · exact (wellFormed.cleared chaddr nip).hostnames lease before
    · exact newLease_hostname chaddr nip leasetime hostname now

theorem WellFormed.edited (wellFormed : WellFormed config table) {slot : Nat}
    {lease edit : DynLease} (atSlot : table[slot]? = some lease)
    (address : edit.leaseNip = lease.leaseNip)
    (owner : edit.leaseMac = lease.leaseMac ∨ edit.leaseMac = zeroMac)
    (name : edit.hostname = lease.hostname) : WellFormed config (table.set slot edit) where
  toUnique := wellFormed.toUnique.edited atSlot address owner
  length := by rw [List.length_set, wellFormed.length]
  hostnames := by
    intro other member
    rcases List.mem_or_eq_of_mem_set member with before | rfl
    · exact wellFormed.hostnames other before
    · exact name ▸ wellFormed.hostnames lease (List.mem_of_getElem? atSlot)

/-- Every edit the server makes leaves a well-formed table. -/
theorem wellFormed_rules (config : ServerData) :
    TableRules config (fun _ => True) (WellFormed config) where
  cleared wellFormed := wellFormed.cleared
  conflict wellFormed _ leasetime now := wellFormed.inserted none _ _ leasetime none now
  granted wellFormed _ leasetime hostname now :=
    wellFormed.inserted _ _ _ leasetime hostname now
  declined wellFormed atSlot _ _ := wellFormed.edited atSlot rfl (.inr rfl) rfl
  released wellFormed atSlot _ := wellFormed.edited atSlot rfl (.inl rfl) rfl

/-- A server that started from any lease file has a well-formed table at every moment. -/
theorem run_inv (config : ServerData) (world : World) (file : Option LeaseFile)
    (inputs : List Input) :
    ServerInv config (fun _ => True) (WellFormed config)
      (runServer config world (startServer config world file) inputs) := by
  have start : ServerInv config (fun _ => True) (WellFormed config)
      (startServer config world file) :=
    ServerInv.start (wellFormed_rules config) (wellFormed_zero config)
      fun _ _ lease _ _ _ table slot leasetime hostname now wellFormed =>
        wellFormed.inserted (some lease.leaseMac) lease.leaseNip slot leasetime hostname now
  have admitted : GuardedRun.Admitted (serverStep config world)
      (InputGuard config world fun _ => True) (startServer config world file) inputs := by
    refine GuardedRun.admitted_of_forall (fun server input => ?_) _ inputs
    cases input <;> simp [InputGuard, AcceptsOnly]
  exact start.run (wellFormed_rules config) admitted

theorem run_wellFormed (config : ServerData) (world : World) (file : Option LeaseFile)
    (inputs : List Input) :
    WellFormed config (runServer config world (startServer config world file) inputs).leases :=
  (run_inv config world file inputs).current

/-- Whatever was in the lease file and is leased statically: the table is well formed at every
moment, and no dynamic OFFER or ACK takes an address from a client with an unexpired lease. -/
theorem run_from_file (config : ServerData) (world : World) (file : Option LeaseFile)
    (inputs : List Input) :
    let final := runServer config world (startServer config world file) inputs
    (∀ table ∈ final.leases :: final.history, WellFormed config table) ∧
    ∀ reply ∈ final.sent, reply.leaseTimeSec ≠ none → reply.yiaddr ≠ 0 →
      getStaticNipByMac config reply.chaddr = 0 →
      ∀ lease ∈ reply.before, lease.leaseNip = reply.yiaddr → lease.leaseMac ≠ reply.chaddr →
        ∀ now, reply.clock ≤ now → lease.expiredAt now := by
  intro final
  have inv := run_inv config world file inputs
  refine ⟨List.forall_mem_cons.mpr ⟨inv.current, inv.past⟩, ?_⟩
  intro reply sent carries real dynamic lease member address other now later
  obtain ⟨wellFormed, grounds⟩ := inv.replies reply sent
  exact UInt32.lt_of_lt_of_le ((grounds carries).expired_of_unique wellFormed.toUnique dynamic real
    member address other) later

end Tables

/-! ## Reading the records back -/

/-- `read_leases` re-inserts the record of this lease: it has an address in the range,
and neither the address nor the MAC is statically reserved. -/
def Kept (config : ServerData) (lease : DynLease) : Prop :=
  lease.leaseNip ≠ 0 ∧ config.startIp ≤ ntohl lease.leaseNip ∧
    ntohl lease.leaseNip ≤ config.endIp ∧ getStaticNipByMac config lease.leaseMac = 0 ∧
    isNipReservedAsStatic config lease.leaseNip = false

instance (config : ServerData) (lease : DynLease) : Decidable (Kept config lease) :=
  inferInstanceAs (Decidable (_ ∧ _))

/-- The seconds `read_leases` gives a lease that `write_leases` saw at `curr`. -/
def secondsLeft (curr timePassed expires : UInt32) : UInt32 :=
  clampNegative (clampNegative (expires - curr) - timePassed)

/-- `add_lease` of a lease read back from its record. -/
def reinsert (world : World) (curr timePassed : UInt32) (lease : DynLease) (server : Server) :
    Option Nat × Server :=
  addLease world (some lease.leaseMac) lease.leaseNip (secondsLeft curr timePassed lease.expires)
    (some (lease.hostname, hostnameSize)) server

/-- Re-inserting leases one after another, until there is no slot left. -/
def reload (world : World) (curr timePassed : UInt32) : List DynLease → Server → Server
  | [], server => server
  | lease :: rest, server =>
    match reinsert world curr timePassed lease server with
    | (none, server) => server
    | (some _, server) => reload world curr timePassed rest server

section Reload

variable {config : ServerData} {world : World} {curr timePassed : UInt32}

@[simp] theorem ntohl_htonl (x : UInt32) : ntohl (htonl x) = x := swap32_swap32 x

theorem recordTimeLeft_leaseRecord {lease : DynLease} (real : lease.leaseNip ≠ 0) :
    recordTimeLeft config timePassed (leaseRecord curr lease) =
      if Kept config lease then some (secondsLeft curr timePassed lease.expires) else none := by
  by_cases range : config.startIp ≤ ntohl lease.leaseNip ∧ ntohl lease.leaseNip ≤ config.endIp
  · by_cases dynamic : getStaticNipByMac config lease.leaseMac = 0
    · cases reserved : isNipReservedAsStatic config lease.leaseNip <;>
        simp [recordTimeLeft, leaseRecord, Kept, secondsLeft, range, dynamic, reserved, real]
    · simp [recordTimeLeft, leaseRecord, Kept, range, dynamic]
  · have unkept : ¬ Kept config lease := fun kept => range ⟨kept.2.1, kept.2.2.1⟩
    simp [recordTimeLeft, leaseRecord, unkept, range]

/-- What `read_leases` does with the records of a table is to re-insert the leases
that are kept. -/
theorem loadRecords_leaseRecord (table : List DynLease) (server : Server) :
    loadRecords config world timePassed
        ((table.filter (·.leaseNip ≠ 0)).map (leaseRecord curr)) server =
      reload world curr timePassed (table.filter (Kept config ·)) server := by
  induction table generalizing server with
  | nil => rfl
  | cons lease rest ih =>
    by_cases real : lease.leaseNip ≠ 0
    · rw [List.filter_cons_of_pos (by simpa using real), List.map_cons, loadRecords,
        recordTimeLeft_leaseRecord real]
      by_cases kept : Kept config lease
      · rw [List.filter_cons_of_pos (by simpa using kept), if_pos kept, reload]
        dsimp only
        rw [show addLease world (some (leaseRecord curr lease).leaseMac)
          (leaseRecord curr lease).leaseNip (secondsLeft curr timePassed lease.expires)
          (some ((leaseRecord curr lease).hostname, hostnameSize)) server =
          reinsert world curr timePassed lease server from rfl]
        split <;> simp_all
      · rw [List.filter_cons_of_neg (by simpa using kept), if_neg kept]
        exact ih server
    · have unkept : ¬ Kept config lease := fun kept => real kept.1
      rw [List.filter_cons_of_neg (by simpa using real),
        List.filter_cons_of_neg (by simpa using unkept)]
      exact ih server

/-- How many slots are empty. -/
def emptySlots (server : Server) : Nat := server.leases.countP (·.expires = 0)

/-- The lease that re-inserting puts in the table when the clock then reads `now`. -/
def reinserted (curr timePassed now : UInt32) (lease : DynLease) : DynLease :=
  newLease (some lease.leaseMac) lease.leaseNip (secondsLeft curr timePassed lease.expires)
    (some (lease.hostname, hostnameSize)) now

/-- What re-inserting a lease does to the table: it clears, and then writes the lease
`added` to an empty slot. -/
structure Reinserted (lease added : DynLease) (server after : Server) : Prop where
  timeCalls : after.timeCalls = server.timeCalls + 2
  present : added ∈ after.leases
  origin : ∀ other ∈ after.leases, other = added ∨ other = emptyLease ∨
    (other ∈ server.leases ∧
      clearsLease (some lease.leaseMac) lease.leaseNip other = false)
  spared : ∀ other ∈ server.leases, other.expires ≠ 0 →
    clearsLease (some lease.leaseMac) lease.leaseNip other = false → other ∈ after.leases
  emptySlots : emptySlots server ≤ emptySlots after + 1

variable (world curr timePassed) in
theorem reinsert_spec (lease : DynLease) {server : Server} (room : 0 < emptySlots server) :
    ∃ slot after, reinsert world curr timePassed lease server = (some slot, after) ∧
      Reinserted lease (reinserted curr timePassed
        (UInt32.ofNat (world.time (server.timeCalls + 1))) lease) server after := by
  have emptied : emptySlots server ≤
      (clearedTable (some lease.leaseMac) lease.leaseNip server.leases).countP
        (·.expires = 0) := by
    rw [clearedTable, List.countP_map]
    refine List.countP_mono_left fun other _ empty => ?_
    simp only [Function.comp]
    split
    · rfl
    · exact empty
  have vacant : ∃ other ∈ clearedTable (some lease.leaseMac) lease.leaseNip server.leases,
      other.expires = 0 := by
    obtain ⟨other, member, empty⟩ := List.countP_pos_iff.mp (lt_of_lt_of_le room emptied)
    exact ⟨other, member, by simpa using empty⟩
  obtain ⟨after, slot, old, result, atSlot, empty, leases, timeCalls⟩ :=
    addLease_of_vacant world (some lease.leaseMac) lease.leaseNip
      (secondsLeft curr timePassed lease.expires) (some (lease.hostname, hostnameSize)) server
      vacant
  obtain ⟨inBounds, rfl⟩ := List.getElem?_eq_some_iff.mp atSlot
  refine ⟨slot, after, result, timeCalls, ?_, ?_, ?_, ?_⟩
  · rw [leases]
    exact List.mem_set inBounds _
  · intro other member
    rw [leases] at member
    rcases List.mem_or_eq_of_mem_set member with before | rfl
    · exact .inr (mem_clearedTable before)
    · exact .inl rfl
  · intro other member occupied kept
    have still : other ∈ clearedTable (some lease.leaseMac) lease.leaseNip server.leases :=
      List.mem_map.mpr ⟨other, member, by simp [kept]⟩
    obtain ⟨i, atI⟩ := List.getElem?_of_mem still
    have elsewhere : slot ≠ i := by
      rintro rfl
      rw [atSlot] at atI
      exact occupied (Option.some.inj atI ▸ empty)
    rw [leases]
    refine List.mem_of_getElem? (i := i) ?_
    rwa [List.getElem?_set_ne elsewhere]
  · refine le_trans emptied ?_
    rw [Busybox.Udhcp.emptySlots, leases, List.countP_set inBounds]
    simp only [empty, decide_true, if_true]
    omega

/-- A re-insertion does not bring back an address other than its own. -/
theorem Reinserted.mem_of_other {lease added other : DynLease} {server after : Server}
    (step : Reinserted lease added server after) (address : added.leaseNip = lease.leaseNip)
    (member : other ∈ after.leases) (real : other.leaseNip ≠ 0)
    (foreign : other.leaseNip ≠ lease.leaseNip) :
    other ∈ server.leases ∧ clearsLease (some lease.leaseMac) lease.leaseNip other = false := by
  rcases step.origin other member with rfl | rfl | before
  · exact absurd address foreign
  · exact absurd rfl real
  · exact before

variable (world curr timePassed) in
/-- With an empty slot for each of the first leases, all of them are re-inserted. -/
theorem reload_append {first : List DynLease} (rest : List DynLease) {server : Server}
    (room : first.length ≤ emptySlots server) :
    reload world curr timePassed (first ++ rest) server =
        reload world curr timePassed rest (reload world curr timePassed first server) ∧
      (reload world curr timePassed first server).timeCalls =
        server.timeCalls + 2 * first.length ∧
      emptySlots server ≤
        emptySlots (reload world curr timePassed first server) + first.length := by
  induction first generalizing server with
  | nil => exact ⟨rfl, rfl, le_refl _⟩
  | cons lease others ih =>
    rw [List.length_cons] at room ⊢
    obtain ⟨slot, after, result, step⟩ :=
      reinsert_spec world curr timePassed lease (show 0 < emptySlots server by omega)
    have fewer := step.emptySlots
    obtain ⟨appended, timeCalls, left⟩ := ih (show others.length ≤ emptySlots after by omega)
    simp only [List.cons_append, reload, result]
    refine ⟨appended, ?_, by omega⟩
    rw [timeCalls, step.timeCalls]
    omega

/-- An occupied entry that no re-inserted lease clears stays. -/
theorem reload_spares {list : List DynLease} {server : Server} {other : DynLease}
    (room : list.length ≤ emptySlots server) (member : other ∈ server.leases)
    (occupied : other.expires ≠ 0)
    (spared : ∀ lease ∈ list, clearsLease (some lease.leaseMac) lease.leaseNip other = false) :
    other ∈ (reload world curr timePassed list server).leases := by
  induction list generalizing server with
  | nil => exact member
  | cons lease rest ih =>
    rw [List.length_cons] at room
    obtain ⟨slot, after, result, step⟩ :=
      reinsert_spec world curr timePassed lease (show 0 < emptySlots server by omega)
    have fewer := step.emptySlots
    simp only [reload, result]
    exact ih (by omega) (step.spared other member occupied (spared lease (List.mem_cons_self ..)))
      fun later member => spared later (List.mem_cons_of_mem lease member)

/-- An entry found at the end whose address no re-inserted lease has was there before,
and none of them clears it. -/
theorem mem_of_mem_reload {list : List DynLease} {server : Server} {other : DynLease}
    (room : list.length ≤ emptySlots server)
    (member : other ∈ (reload world curr timePassed list server).leases)
    (real : other.leaseNip ≠ 0) (foreign : ∀ lease ∈ list, other.leaseNip ≠ lease.leaseNip) :
    other ∈ server.leases ∧
      ∀ lease ∈ list, clearsLease (some lease.leaseMac) lease.leaseNip other = false := by
  induction list generalizing server with
  | nil => exact ⟨member, by simp⟩
  | cons lease rest ih =>
    rw [List.length_cons] at room
    obtain ⟨slot, after, result, step⟩ :=
      reinsert_spec world curr timePassed lease (show 0 < emptySlots server by omega)
    have fewer := step.emptySlots
    simp only [reload, result] at member
    obtain ⟨still, spared⟩ := ih (by omega) member
      fun later member => foreign later (List.mem_cons_of_mem lease member)
    obtain ⟨before, kept⟩ := step.mem_of_other rfl still real (foreign lease (List.mem_cons_self ..))
    exact ⟨before, List.forall_mem_cons.mpr ⟨kept, spared⟩⟩

/-- A lease among those re-inserted is in the table afterwards exactly when it was
re-inserted as it is and no later one clears it. -/
theorem mem_reload_iff {before after : List DynLease} {lease : DynLease} {server : Server}
    (room : (before ++ lease :: after).length ≤ emptySlots server)
    (real : lease.leaseNip ≠ 0) (occupied : lease.expires ≠ 0)
    (foreign : ∀ later ∈ after, lease.leaseNip ≠ later.leaseNip) :
    lease ∈ (reload world curr timePassed (before ++ lease :: after) server).leases ↔
      reinserted curr timePassed
          (UInt32.ofNat (world.time (server.timeCalls + 2 * before.length + 1))) lease = lease ∧
        ∀ later ∈ after,
          clearsLease (some later.leaseMac) later.leaseNip lease = false := by
  rw [List.length_append, List.length_cons] at room
  obtain ⟨appended, timeCalls, left⟩ := reload_append world curr timePassed (lease :: after)
    (show before.length ≤ emptySlots server by omega)
  obtain ⟨slot, next, result, step⟩ := reinsert_spec world curr timePassed lease
    (show 0 < emptySlots (reload world curr timePassed before server) by omega)
  have fewer := step.emptySlots
  rw [timeCalls] at step
  simp only [appended, reload, result]
  constructor
  · intro member
    obtain ⟨still, spared⟩ := mem_of_mem_reload (by omega) member real foreign
    refine ⟨?_, spared⟩
    rcases step.origin lease still with same | rfl | ⟨-, kept⟩
    · exact same.symm
    · exact absurd rfl real
    · simp [clearsLease] at kept
  · rintro ⟨same, spared⟩
    exact reload_spares (by omega) (same ▸ step.present) occupied spared

end Reload

/-- The lease is one that a restart at time `now` ought to restore: it has a real
address in the range, neither it nor its MAC is statically reserved, and it has not
expired. -/
structure Restorable (config : ServerData) (now : UInt32) (lease : DynLease) : Prop where
  kept : Kept config lease
  occupied : lease.expires ≠ 0
  unexpired : ¬ lease.expiredAt now

/-- What the downtime leaves of a lease: all its seconds if they were in the range of a
`signed_leasetime_t` when the file was written, else none. -/
theorem secondsLeft_eq {written passed : Nat} (soon : passed < 12 * 60 * 60) (expires : UInt32) :
    secondsLeft (UInt32.ofNat written) (UInt32.ofNat passed) expires =
      if (expires - UInt32.ofNat (written + passed)).toNat + passed < 2 ^ 31 then
        expires - UInt32.ofNat (written + passed)
      else 0 := by
  have clamp (seconds : UInt32) :
      (clampNegative seconds).toNat = if 2 ^ 31 ≤ seconds.toNat then 0 else seconds.toNat := by
    have threshold : (0x80000000 ≤ seconds) ↔ 2 ^ 31 ≤ seconds.toNat := UInt32.le_iff_toNat_le
    unfold clampNegative
    simp only [threshold]
    split <;> rfl
  have bound := expires.toNat_lt
  apply UInt32.toNat_inj.mp
  rw [secondsLeft, clamp, apply_ite UInt32.toNat]
  simp only [UInt32.toNat_sub, clamp, UInt32.toNat_ofNat', UInt32.toNat_zero]
  split <;> split <;> split <;> omega

/-- Re-inserting gives back the lease itself when its hostname is a stored one and the
clock makes up its expiry. -/
theorem reinserted_eq_iff {curr timePassed now : UInt32} {lease : DynLease}
    (hostname : HostnameStored lease.hostname) :
    reinserted curr timePassed now lease = lease ↔
      now + secondsLeft curr timePassed lease.expires = lease.expires := by
  have name : storedHostname lease.hostname hostnameSize = lease.hostname := hostname
  rcases lease with ⟨expires, nip, mac, field⟩
  simp only at name
  simp [reinserted, newLease, name]

/-- A restart within 12 hours of `write_leases` re-inserts the kept leases of the table. -/
theorem startServer_writeLeases (config : ServerData) (world restart : World) (server : Server)
    {written passed : Nat} (writtenAt : world.time server.timeCalls = written)
    (restarted : restart.time 0 = written + passed) (soon : passed < 12 * 60 * 60) :
    startServer config restart (writeLeases world server).leaseFile =
      reload restart (UInt32.ofNat written) (UInt32.ofNat passed)
        (server.leases.filter (Kept config ·))
        (timeNull restart (zeroServer config (writeLeases world server).leaseFile)).2 := by
  have elapsed : (restart.time 0 : Int) - (written : Int) = passed := by omega
  have inTime : ¬ ((passed : Int) < 0 ∨ 12 * 60 * 60 < (passed : Int)) := by omega
  have file : (writeLeases world server).leaseFile = some
      { writtenAt := written
        records := (server.leases.filter (·.leaseNip ≠ 0)).map
          (leaseRecord (UInt32.ofNat written)) } := by
    rw [← writtenAt]
    rfl
  rw [file, ← loadRecords_leaseRecord]
  simp only [startServer, readLeases, timeNull, zeroServer, elapsed, if_neg inTime,
    Int.toNat_natCast]

/-- Among the leases of a table, those after a lease clear it when they are re-inserted
only if both have the zero MAC. -/
theorem Unique.clearsLease_iff {before after : List DynLease} {lease later : DynLease}
    (unique : Unique (before ++ lease :: after)) (member : later ∈ after)
    (real : lease.leaseNip ≠ 0) :
    lease.leaseNip ≠ later.leaseNip ∧
      (clearsLease (some later.leaseMac) later.leaseNip lease = false ↔
        (lease.leaseMac = zeroMac → later.leaseMac ≠ zeroMac)) := by
  obtain ⟨i, atI⟩ := List.getElem?_of_mem member
  have here : (before ++ lease :: after)[before.length]? = some lease := by simp
  have there : (before ++ lease :: after)[before.length + (i + 1)]? = some later := by
    rw [List.getElem?_append_right (by omega)]
    simpa using atI
  have foreign : lease.leaseNip ≠ later.leaseNip := by
    intro same
    have := unique.nips here there same real
    omega
  have owners : lease.leaseMac = later.leaseMac → lease.leaseMac = zeroMac := by
    intro same
    by_contra owned
    have := unique.macs here there same owned
    omega
  refine ⟨foreign, ?_⟩
  simp only [clearsLease, beq_eq_false_iff_ne.mpr foreign, Bool.and_false, Bool.or_false,
    beq_eq_false_iff_ne]
  constructor
  · rintro distinct zero laterZero
    exact distinct (zero.trans laterZero.symm)
  · intro distinct same
    exact distinct (owners same) (same ▸ owners same)

/-- For every table a server can reach and every restart within 12 hours: a lease that
ought to be restored is, with its address, MAC, hostname and expiry, exactly when the
clock at its re-insertion still reads the second the load began in (for a lease that had
2^31 seconds or more to go when the file was written: happens to read its expiry), and,
if its MAC is the zero one, no lease re-inserted after it has the zero MAC. -/
theorem readLeases_writeLeases_iff (config : ServerData) (world : World)
    (file : Option LeaseFile) (inputs : List Input) (restart : World)
    (before after : List DynLease) (lease : DynLease)
    (split : (runServer config world (startServer config world file) inputs).leases =
      before ++ lease :: after)
    (written passed : Nat)
    (writtenAt : world.time
      (runServer config world (startServer config world file) inputs).timeCalls = written)
    (restarted : restart.time 0 = written + passed) (soon : passed < 12 * 60 * 60)
    (restorable : Restorable config (UInt32.ofNat (restart.time 0)) lease) :
    lease ∈ (startServer config restart (writeLeases world
        (runServer config world (startServer config world file) inputs)).leaseFile).leases ↔
      UInt32.ofNat (restart.time (2 * (before.filter (Kept config ·)).length + 2)) =
          (if (lease.expires - UInt32.ofNat (restart.time 0)).toNat + passed < 2 ^ 31 then
            UInt32.ofNat (restart.time 0)
          else lease.expires) ∧
        (lease.leaseMac = zeroMac →
          ∀ later ∈ after, Kept config later → later.leaseMac ≠ zeroMac) := by
  have wellFormed := run_wellFormed config world file inputs
  generalize runServer config world (startServer config world file) inputs = server at *
  rw [startServer_writeLeases config world restart server writtenAt restarted soon]
  obtain ⟨kept, occupied, -⟩ := restorable
  rw [split] at wellFormed
  have member : lease ∈ before ++ lease :: after := by simp
  have keptSplit : server.leases.filter (Kept config ·) =
      before.filter (Kept config ·) ++ lease :: after.filter (Kept config ·) := by
    rw [split, List.filter_append, List.filter_cons_of_pos (by simpa using kept)]
  have room : (before.filter (Kept config ·) ++ lease :: after.filter (Kept config ·)).length ≤
      emptySlots (timeNull restart
        (zeroServer config (writeLeases world server).leaseFile)).2 := by
    have slots : emptySlots (timeNull restart
        (zeroServer config (writeLeases world server).leaseFile)).2 = config.maxLeases := by
      simp [emptySlots, timeNull, zeroServer, List.countP_replicate, emptyLease]
    rw [slots, ← keptSplit, ← wellFormed.length, ← split]
    exact List.length_filter_le _ _
  have clears : ∀ later ∈ after, _ := fun later member =>
    wellFormed.toUnique.clearsLease_iff member kept.1
  rw [keptSplit, mem_reload_iff room kept.1 occupied
    fun later member => (clears later (List.mem_of_mem_filter member)).1,
    reinserted_eq_iff (wellFormed.hostnames lease member), secondsLeft_eq soon, ← restarted]
  refine and_congr ?_ ?_
  · rw [show (timeNull restart (zeroServer config (writeLeases world server).leaseFile)).2.timeCalls
      + 2 * (before.filter (Kept config ·)).length + 1 =
        2 * (before.filter (Kept config ·)).length + 2 by simp [timeNull, zeroServer]; omega]
    generalize UInt32.ofNat (restart.time (2 * (before.filter (Kept config ·)).length + 2)) = now
    split
    · constructor <;> intro same <;> grind
    · rw [UInt32.add_zero]
  · simp only [List.mem_filter, decide_eq_true_eq, and_imp]
    constructor
    · intro spared zero later member laterKept
      exact (clears later member).2.mp (spared later member laterKept) zero
    · intro apart later member laterKept
      exact (clears later member).2.mpr fun zero => apart zero later member laterKept

/-- The network of `quietWorld` a thousand seconds later. -/
def laterWorld : World := ⟨fun _ => 2000, fun _ => true⟩

/-- The laptop asks for 192.168.0.20 and takes it. -/
def laptopJoins : List Input :=
  [.packet (request 1 laptopMac [192, 168, 0, 20]),
    .packet (request 3 laptopMac [192, 168, 0, 20])]

/-- After a restart the laptop still has its lease. -/
theorem readLeases_writeLeases_office :
    newLease (some laptopMac) (htonl 0xC0A80014) 864000 none 1000 ∈
      (startServer (officeConfig []) laterWorld (writeLeases quietWorld
        (runServer (officeConfig []) quietWorld (startServer (officeConfig []) quietWorld none)
          laptopJoins)).leaseFile).leases :=
  (readLeases_writeLeases_iff (officeConfig []) quietWorld none laptopJoins laterWorld
    [emptyLease, emptyLease] [] _ (by decide) 1000 1000 rfl rfl (by decide)
    ⟨by decide, by decide, by decide⟩).mpr ⟨by decide, by decide⟩

/-- Two clients decline their addresses. After a restart only one of the two addresses
is still set aside. -/
theorem readLeases_loses_declined :
    ¬ ∀ (config : ServerData) (world : World) (file : Option LeaseFile) (inputs : List Input)
      (restart : World) (passed : Nat),
      restart.time 0 = world.time (runServer config world (startServer config world file)
        inputs).timeCalls + passed → passed < 12 * 60 * 60 →
      (∀ n, restart.time n = restart.time 0) →
      ∀ lease ∈ (runServer config world (startServer config world file) inputs).leases,
        Restorable config (UInt32.ofNat (restart.time 0)) lease →
        lease ∈ (startServer config restart (writeLeases world
          (runServer config world (startServer config world file) inputs)).leaseFile).leases := by
  intro claim
  have restored := claim (officeConfig []) quietWorld none
    (laptopJoins ++ [.packet (request 4 laptopMac [192, 168, 0, 20]),
      .packet (request 1 phoneMac [192, 168, 0, 21]),
      .packet (request 3 phoneMac [192, 168, 0, 21]),
      .packet (request 4 phoneMac [192, 168, 0, 21])])
    laterWorld 1000 rfl (by decide) (fun _ => rfl)
    (newLease none (htonl 0xC0A80015) 3600 none 1000) (by decide)
    ⟨by decide, by decide, by decide⟩
  exact absurd restored (by decide)

end Busybox.Udhcp
