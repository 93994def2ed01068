import Busybox.Udhcp.Steps

/-!
# Exclusive leases

Two clients never hold the same address. `Exclusive` is kept by every edit of
the table, `add_lease` included, which clears before it inserts; with the
grounds of each reply it follows that nobody else held an offered or
acknowledged address.
-/

namespace Busybox.Udhcp

open Slots

/-- No two entries share an address or a hardware address, zeros apart. -/
structure Unique (table : List DynLease) : Prop where
  nips : KeyUnique DynLease.leaseNip 0 table
  macs : KeyUnique DynLease.leaseMac zeroMac table

/-- A table without doubles in which an entry without an address has no owner. -/
structure Exclusive (table : List DynLease) : Prop extends Unique table where
  unowned : ∀ lease ∈ table, lease.leaseNip = 0 → lease.leaseMac = zeroMac

theorem unique_zero (count : Nat) : Unique (List.replicate count emptyLease) where
  nips := keyUnique_replicate rfl
  macs := keyUnique_replicate rfl

/-- The table that `xzalloc` returns is exclusive. -/
theorem exclusive_zero (count : Nat) : Exclusive (List.replicate count emptyLease) where
  toUnique := unique_zero count
  unowned := by
    intro lease member _
    rw [List.eq_of_mem_replicate member]
    rfl

section Edits

variable {table : List DynLease} {chaddr : Option Mac} {nip : UInt32}

theorem Unique.cleared (unique : Unique table) (chaddr : Option Mac) (nip : UInt32) :
    Unique (clearedTable chaddr nip table) where
  nips := unique.nips.map fun lease => by split <;> simp [emptyLease]
  macs := unique.macs.map fun lease => by split <;> simp [emptyLease]

/-- After a clearing no entry has the address or the hardware address cleared. -/
theorem not_clears_of_mem_clearedTable {lease : DynLease}
    (member : lease ∈ clearedTable chaddr nip table) :
    (nip ≠ 0 → lease.leaseNip ≠ nip) ∧
      ∀ mac ∈ chaddr, mac ≠ zeroMac → lease.leaseMac ≠ mac := by
  rcases mem_clearedTable member with rfl | ⟨-, spared⟩
  · exact ⟨fun real => real.symm, fun mac _ real => real.symm⟩
  · simp only [clearsLease, Bool.or_eq_false_iff, Bool.and_eq_false_iff, bne_eq_false_iff_eq,
      beq_eq_false_iff_ne] at spared
    refine ⟨fun real => spared.2.resolve_left real, ?_⟩
    rintro mac ⟨⟩ -
    simpa using spared.1

/-- Inserting a lease after clearing its address and owner makes no doubles. -/
theorem Unique.inserted (unique : Unique table) (chaddr : Option Mac) (nip : UInt32) (slot : Nat)
    (leasetime : UInt32) (hostname : Option (List UInt8 × Nat)) (now : UInt32) :
    Unique ((clearedTable chaddr nip table).set slot
      (newLease chaddr nip leasetime hostname now)) where
  nips := by
    refine (unique.cleared chaddr nip).nips.set fun i lease _ atSlot real => ?_
    exact (not_clears_of_mem_clearedTable (List.mem_of_getElem? atSlot)).1 real
  macs := by
    refine (unique.cleared chaddr nip).macs.set fun i lease _ atSlot real => ?_
    cases chaddr with
    | none => exact absurd rfl real
    | some mac =>
      exact (not_clears_of_mem_clearedTable (List.mem_of_getElem? atSlot)).2 mac rfl real

/-- Editing a lease in place, without giving it a new address or owner, makes no
doubles. -/
theorem Unique.edited (unique : Unique table) {slot : Nat} {lease edit : DynLease}
    (atSlot : table[slot]? = some lease) (address : edit.leaseNip = lease.leaseNip)
    (owner : edit.leaseMac = lease.leaseMac ∨ edit.leaseMac = zeroMac) :
    Unique (table.set slot edit) where
  nips := by
    refine unique.nips.set fun i other distinct here real same => ?_
    exact distinct (unique.nips here atSlot (same.trans address) (same ▸ real))
  macs := by
    refine unique.macs.set fun i other distinct here real same => ?_
    rcases owner with kept | gone
    · exact distinct (unique.macs here atSlot (same.trans kept) (same ▸ real))
    · exact real gone

theorem Exclusive.cleared (exclusive : Exclusive table) (chaddr : Option Mac) (nip : UInt32) :
    Exclusive (clearedTable chaddr nip table) where
  toUnique := exclusive.toUnique.cleared chaddr nip
  unowned := by
    intro lease member noAddress
    rcases mem_clearedTable member with rfl | ⟨old, -⟩
    · rfl
    · exact exclusive.unowned lease old noAddress

theorem Exclusive.inserted (exclusive : Exclusive table)
    (owned : nip = 0 → chaddr.getD zeroMac = zeroMac) (slot : Nat) (leasetime : UInt32)
    (hostname : Option (List UInt8 × Nat)) (now : UInt32) :
    Exclusive ((clearedTable chaddr nip table).set slot
      (newLease chaddr nip leasetime hostname now)) where
  toUnique := exclusive.toUnique.inserted chaddr nip slot leasetime hostname now
  unowned := by
    intro lease member noAddress
    rcases List.mem_or_eq_of_mem_set member with before | rfl
    · exact (exclusive.cleared chaddr nip).unowned lease before noAddress
    · exact owned noAddress

theorem Exclusive.edited (exclusive : Exclusive table) {slot : Nat} {lease edit : DynLease}
    (atSlot : table[slot]? = some lease) (address : edit.leaseNip = lease.leaseNip)
    (owner : edit.leaseMac = lease.leaseMac ∨ edit.leaseMac = zeroMac) :
    Exclusive (table.set slot edit) where
  toUnique := exclusive.toUnique.edited atSlot address owner
  unowned := by
    intro other member noAddress
    rcases List.mem_or_eq_of_mem_set member with before | rfl
    · exact exclusive.unowned other before noAddress
    · rcases owner with kept | gone
      · exact kept.trans (exclusive.unowned lease (List.mem_of_getElem? atSlot)
          (address.symm.trans noAddress))
      · exact gone

end Edits

/-- Exclusiveness survives every edit the server makes, whatever the configuration. -/
theorem exclusive_rules (config : ServerData) (okRequest : UInt32 → Prop) :
    TableRules config okRequest Exclusive where
  cleared exclusive chaddr nip := exclusive.cleared chaddr nip
  conflict exclusive range leasetime now :=
    exclusive.inserted (fun zero => absurd zero range.ne_zero) _ leasetime none now
  granted exclusive grant leasetime hostname now := by
    refine exclusive.inserted (fun zero => ?_) _ leasetime hostname now
    cases grant with
    | static real => exact absurd zero real
    | renewed _ member owner => exact owner ▸ exclusive.unowned _ member zero
    | requested _ real => exact absurd zero real
    | scanned _ real => exact absurd zero real
  declined exclusive atSlot _ expires := exclusive.edited atSlot rfl (.inr rfl)
  released exclusive atSlot expires := exclusive.edited atSlot rfl (.inl rfl)

/-- A dynamic grant from a table without doubles takes the address from nobody. -/
theorem Grant.expired_of_unique {config : ServerData} {okRequest : UInt32 → Prop}
    {table : List DynLease} {clock nip : UInt32} {mac : Mac}
    (grant : Grant config okRequest table clock mac nip) (unique : Unique table)
    (dynamic : getStaticNipByMac config mac = 0) (real : nip ≠ 0) {lease : DynLease}
    (member : lease ∈ table) (address : lease.leaseNip = nip) (other : lease.leaseMac ≠ mac) :
    lease.expiredAt clock := by
  obtain ⟨i, atI⟩ := List.getElem?_of_mem member
  have same {holder : DynLease} (there : holder ∈ table) (held : holder.leaseNip = nip) :
      holder = lease := by
    obtain ⟨j, atJ⟩ := List.getElem?_of_mem there
    obtain rfl := unique.nips atI atJ (address.trans held.symm) (address ▸ real)
    exact Option.some.inj (atJ.symm.trans atI)
  have free (at_ : FreeAt table clock nip) : lease.expiredAt clock := by
    rcases at_ with absent | ⟨holder, there, held, expired⟩
    · exact absurd address (absent lease member)
    · exact same there held ▸ expired
  cases grant with
  | static taken => exact absurd dynamic taken
  | renewed _ there owner => exact absurd (same there rfl ▸ owner) other
  | requested _ _ _ at_ => exact free at_
  | scanned _ _ _ at_ => exact free at_

/-- A dynamic grant from an exclusive table takes the address from nobody: any
other owner's lease of it has expired. -/
theorem Grant.expired_of_other {config : ServerData} {okRequest : UInt32 → Prop}
    {table : List DynLease} {clock nip : UInt32} {mac : Mac}
    (grant : Grant config okRequest table clock mac nip) (exclusive : Exclusive table)
    (dynamic : getStaticNipByMac config mac = 0) {lease : DynLease} (member : lease ∈ table)
    (address : lease.leaseNip = nip) (other : lease.leaseMac ≠ mac) : lease.expiredAt clock := by
  by_cases real : nip = 0
  · cases grant with
    | static taken => exact absurd dynamic taken
    | renewed _ there owner =>
      -- an entry without an address has no owner
      have heldZero := exclusive.unowned _ there real
      have leaseZero := exclusive.unowned lease member (address.trans real)
      exact absurd (leaseZero.trans (heldZero.symm.trans owner)) other
    | requested _ real' => exact absurd real real'
    | scanned _ real' => exact absurd real real'
  · exact grant.expired_of_unique exclusive.toUnique dynamic real member address other

/-- In every run from the zeroed table without static leases: at every moment no
two entries share a nonzero address or a nonzero hardware address, and every
OFFER, and every ACK of a REQUEST, gives an address that nobody else held an
unexpired lease of in the table just before, at the time the server last read
and at any time since. -/
theorem run_exclusive (config : ServerData) (world : World) (file : Option LeaseFile)
    (inputs : List Input) (noStatic : config.staticLeases = []) :
    (∀ table ∈ (runServer config world (zeroServer config file) inputs).leases ::
        (runServer config world (zeroServer config file) inputs).history,
      KeyUnique DynLease.leaseNip 0 table ∧ KeyUnique DynLease.leaseMac zeroMac table) ∧
    ∀ reply ∈ (runServer config world (zeroServer config file) inputs).sent,
      reply.leaseTimeSec ≠ none →
      ∀ lease ∈ reply.before, lease.leaseNip = reply.yiaddr → lease.leaseMac ≠ reply.chaddr →
        ∀ now, reply.clock ≤ now → lease.expiredAt now := by
  have start : ServerInv config (fun _ => True) Exclusive (zeroServer config file) :=
    ServerInv.zero (exclusive_zero _) file
  have admitted : GuardedRun.Admitted (serverStep config world)
      (InputGuard config world fun _ => True) (zeroServer config file) inputs := by
    refine GuardedRun.admitted_of_forall (fun server input => ?_) _ inputs
    cases input <;> simp [InputGuard, AcceptsOnly]
  have inv := start.run (exclusive_rules config _) admitted
  refine ⟨?_, ?_⟩
  · intro table member
    have exclusive : Exclusive table := by
      rcases List.mem_cons.mp member with rfl | past
      · exact inv.current
      · exact inv.past table past
    exact ⟨exclusive.nips, exclusive.macs⟩
  · intro reply sent carries lease member address other now later
    obtain ⟨exclusive, grounds⟩ := inv.replies reply sent
    have dynamic : getStaticNipByMac config reply.chaddr = 0 := by
      simp [getStaticNipByMac, noStatic]
    exact UInt32.lt_of_lt_of_le
      ((grounds carries).expired_of_other exclusive dynamic member address other) later

/-- Two clients are offered two addresses, and one of them asks for the other's. -/
theorem run_exclusive_office :
    let final := runServer (officeConfig []) quietWorld (zeroServer (officeConfig []) none)
      [.packet (request 1 laptopMac [192, 168, 0, 20]),
        .packet (request 3 laptopMac [192, 168, 0, 20]),
        .packet (request 1 phoneMac [192, 168, 0, 20]),
        .packet (request 4 laptopMac [192, 168, 0, 20])]
    (∃ reply ∈ final.sent, reply.type = .ack ∧ reply.chaddr = laptopMac) ∧
    (∃ reply ∈ final.sent, reply.type = .offer ∧ reply.chaddr = phoneMac) ∧
    (∀ table ∈ final.leases :: final.history,
      KeyUnique DynLease.leaseNip 0 table ∧ KeyUnique DynLease.leaseMac zeroMac table) ∧
    ∀ reply ∈ final.sent, reply.leaseTimeSec ≠ none →
      ∀ lease ∈ reply.before, lease.leaseNip = reply.yiaddr → lease.leaseMac ≠ reply.chaddr →
        ∀ now, reply.clock ≤ now → lease.expiredAt now :=
  ⟨by decide, by decide, run_exclusive (officeConfig []) quietWorld none _ rfl⟩

end Busybox.Udhcp
