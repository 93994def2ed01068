import Busybox.Lib.OpenAddressing
import Mathlib.Data.UInt
import Mathlib.Tactic.Common

/-!
# The lease table of udhcpd

`g_leases` is an array of `max_leases` entries. A pointer into it is an index
here, and an entry with `expires = 0` is an empty one. The clock and the ARP
probe are the only things the table code asks of its environment: `World` fixes
what the n-th call of each returns, so a statement over every world covers every
advance of time and every answer of the network.
-/

namespace Busybox.Udhcp

/-- The six significant bytes of a hardware address. -/
abbrev Mac := Vector UInt8 6

/-- The all-zero hardware address that empty, conflict and declined entries carry. -/
def zeroMac : Mac := Vector.replicate 6 0

/-- `struct dyn_lease`. `leaseNip` is in network order and `hostname` holds the
twenty bytes of the field. -/
structure DynLease where
  expires : UInt32
  leaseNip : UInt32
  leaseMac : Mac
  hostname : List UInt8
deriving DecidableEq, Repr

/-- `sizeof(hostname)` in `struct dyn_lease`. -/
def hostnameSize : Nat := 20

/-- An entry after `memset(lease, 0, sizeof(*lease))`. -/
def emptyLease : DynLease where
  expires := 0
  leaseNip := 0
  leaseMac := zeroMac
  hostname := List.replicate hostnameSize 0

/-- What the successive calls of `time(NULL)` and `arpping` return; `arpping n`
is true when the n-th probe reports that nobody answered. -/
structure World where
  time : Nat → Nat
  arpping : Nat → Bool

/-- The kinds of packet the server sends. -/
inductive ReplyType
  | offer
  | ack
  | nak
deriving DecidableEq, Repr

/-- A packet handed to `send_packet`. `before` and `clock` are ghost: the table
and the last value read from the clock when `yiaddr` was settled, ahead of the
reservation that `send_offer` and `send_ACK` then make. -/
structure Reply where
  type : ReplyType
  chaddr : Mac
  yiaddr : UInt32
  leaseTimeSec : Option UInt32
  before : List DynLease
  clock : UInt32
deriving DecidableEq, Repr

/-- The lease file: `written_at`, then the records with `expires` counted from
`written_at` and in network order. -/
structure LeaseFile where
  writtenAt : Int
  records : List DynLease
deriving DecidableEq, Repr

/-- The mutable state of the server. `history` is ghost: every content the table
has had so far, the present one included. -/
structure Server where
  leases : List DynLease
  timeCalls : Nat
  arpCalls : Nat
  clock : UInt32
  leaseFile : Option LeaseFile
  sent : List Reply
  history : List (List DynLease)
deriving DecidableEq, Repr

/-- Byte reversal of a 32-bit word: `htonl` and `ntohl` on a little-endian machine. -/
def swap32 (x : UInt32) : UInt32 :=
  let n := x.toNat
  UInt32.ofNat (0x1000000 * (n % 256) + 0x10000 * (n / 0x100 % 256) +
    0x100 * (n / 0x10000 % 256) + n / 0x1000000)

/-- `swap32` on a word given by its bytes. -/
theorem swap32_ofNat {a b c d : Nat} (ha : a < 256) (hb : b < 256) (hc : c < 256)
    (hd : d < 256) :
    swap32 (UInt32.ofNat (a + 0x100 * b + 0x10000 * c + 0x1000000 * d)) =
      UInt32.ofNat (d + 0x100 * c + 0x10000 * b + 0x1000000 * a) := by
  have whole : (UInt32.ofNat (a + 0x100 * b + 0x10000 * c + 0x1000000 * d)).toNat =
      a + 0x100 * b + 0x10000 * c + 0x1000000 * d := by
    rw [UInt32.toNat_ofNat']
    omega
  simp only [swap32, whole]
  congr 1
  omega

@[simp] theorem swap32_swap32 (x : UInt32) : swap32 (swap32 x) = x := by
  have bound := x.toNat_lt
  have split : x = UInt32.ofNat (x.toNat % 256 + 0x100 * (x.toNat / 0x100 % 256) +
      0x10000 * (x.toNat / 0x10000 % 256) + 0x1000000 * (x.toNat / 0x1000000)) := by
    apply UInt32.toNat_inj.mp
    rw [UInt32.toNat_ofNat']
    omega
  rw [split, swap32_ofNat, swap32_ofNat] <;> omega

def htonl : UInt32 → UInt32 := swap32
def ntohl : UInt32 → UInt32 := swap32

/-- `time(NULL)` at its full width. -/
def timeNull (world : World) (server : Server) : Nat × Server :=
  let now := world.time server.timeCalls
  (now, { server with timeCalls := server.timeCalls + 1, clock := UInt32.ofNat now })

/-- `time(NULL)` cut to `leasetime_t`. -/
def time (world : World) (server : Server) : UInt32 × Server :=
  let (now, server) := timeNull world server
  (UInt32.ofNat now, server)

@[simp] theorem time_fst (world : World) (server : Server) :
    (time world server).1 = UInt32.ofNat (world.time server.timeCalls) := rfl

@[simp] theorem time_snd (world : World) (server : Server) :
    (time world server).2 =
      { server with
        timeCalls := server.timeCalls + 1
        clock := UInt32.ofNat (world.time server.timeCalls) } := rfl

/-- Every assignment to `g_leases` goes through here. -/
def Server.store (server : Server) (table : List DynLease) : Server :=
  { server with leases := table, history := server.history ++ [table] }

@[simp] theorem Server.store_leases (server : Server) (table : List DynLease) :
    (server.store table).leases = table := rfl

@[simp] theorem Server.store_history (server : Server) (table : List DynLease) :
    (server.store table).history = server.history ++ [table] := rfl

@[simp] theorem Server.store_sent (server : Server) (table : List DynLease) :
    (server.store table).sent = server.sent := rfl

@[simp] theorem Server.store_clock (server : Server) (table : List DynLease) :
    (server.store table).clock = server.clock := rfl

@[simp] theorem Server.store_timeCalls (server : Server) (table : List DynLease) :
    (server.store table).timeCalls = server.timeCalls := rfl

@[simp] theorem Server.store_leaseFile (server : Server) (table : List DynLease) :
    (server.store table).leaseFile = server.leaseFile := rfl

/-- The loop of `oldest_expired_lease` from index `i` on. -/
def oldestExpiredFrom (i : Nat) (oldestTime : UInt32) (oldestLease : Option Nat) :
    List DynLease → Option Nat
  | [] => oldestLease
  | lease :: rest =>
    if lease.expires = 0 ∨ lease.expires < oldestTime then
      oldestExpiredFrom (i + 1) lease.expires (some i) rest
    else
      oldestExpiredFrom (i + 1) oldestTime oldestLease rest

/-- Whatever the loop returns is the pointer it started with or a slot it passed
whose lease was empty or expired at the time it started with. -/
theorem oldestExpiredFrom_spec {now limit : UInt32} (limited : limit ≤ now) {found : Option Nat}
    {i slot : Nat} {table : List DynLease}
    (result : oldestExpiredFrom i limit found table = some slot) :
    found = some slot ∨ ∃ lease, table[slot - i]? = some lease ∧ i ≤ slot ∧
      (lease.expires = 0 ∨ lease.expires < now) := by
  induction table generalizing i limit found with
  | nil => exact .inl result
  | cons lease rest ih =>
    have later {slot : Nat} (after : i + 1 ≤ slot) :
        (lease :: rest)[slot - i]? = rest[slot - (i + 1)]? := by
      rw [show slot - i = slot - (i + 1) + 1 by omega, List.getElem?_cons_succ]
    rw [oldestExpiredFrom] at result
    split at result
    case isTrue vacant =>
      have lower : lease.expires ≤ now := by
        rcases vacant with empty | expired
        · rw [empty]; exact UInt32.zero_le
        · exact UInt32.le_trans (UInt32.le_of_lt expired) limited
      rcases ih lower result with here | ⟨other, atSlot, after, free⟩
      · obtain rfl : i = slot := by simpa using here
        refine .inr ⟨lease, by simp, le_refl _, ?_⟩
        exact vacant.imp_right fun expired => UInt32.lt_of_lt_of_le expired limited
      · exact .inr ⟨other, by rw [later after]; exact atSlot, by omega, free⟩
    case isFalse =>
      rcases ih limited result with before | ⟨other, atSlot, after, free⟩
      · exact .inl before
      · exact .inr ⟨other, by rw [later after]; exact atSlot, by omega, free⟩

/-- From an empty lease on, only another empty one replaces what the loop has found. -/
theorem oldestExpiredFrom_zero {i : Nat} {found : Option Nat} {table : List DynLease}
    (taken : ∀ lease ∈ table, lease.expires ≠ 0) : oldestExpiredFrom i 0 found table = found := by
  induction table generalizing i found with
  | nil => rfl
  | cons lease rest ih =>
    have occupied := taken lease (List.mem_cons_self ..)
    rw [oldestExpiredFrom, if_neg (by simp [occupied])]
    exact ih fun other member => taken other (List.mem_cons_of_mem lease member)

/-- Where there is an empty lease, the loop returns the slot of one. -/
theorem oldestExpiredFrom_vacant (i : Nat) (limit : UInt32) (found : Option Nat)
    {table : List DynLease} (vacant : ∃ lease ∈ table, lease.expires = 0) :
    ∃ slot lease, oldestExpiredFrom i limit found table = some (i + slot) ∧
      table[slot]? = some lease ∧ lease.expires = 0 := by
  induction table generalizing i limit found with
  | nil => simp at vacant
  | cons lease rest ih =>
    by_cases later : ∃ lease ∈ rest, lease.expires = 0
    · have shifted {limit : UInt32} {found : Option Nat} :
          ∃ slot other, oldestExpiredFrom (i + 1) limit found rest = some (i + slot) ∧
            (lease :: rest)[slot]? = some other ∧ other.expires = 0 := by
        obtain ⟨slot, other, result, atSlot, empty⟩ :=
          ih (i + 1) limit found later
        exact ⟨slot + 1, other, by rw [result]; congr 1; omega, by simpa using atSlot, empty⟩
      rw [oldestExpiredFrom]
      split <;> exact shifted
    · obtain ⟨_, member, empty⟩ := vacant
      rcases List.mem_cons.mp member with rfl | member
      · refine ⟨0, _, ?_, by simp, empty⟩
        rw [oldestExpiredFrom, if_pos (.inl empty), empty, oldestExpiredFrom_zero]
        · rfl
        · exact fun other member zero => later ⟨other, member, zero⟩
      · exact absurd ⟨_, member, empty⟩ later

/-- Find the oldest expired lease, `none` if there are no expired leases. -/
def oldestExpiredLease (world : World) (server : Server) : Option Nat × Server :=
  let (now, server) := time world server
  (oldestExpiredFrom 0 now none server.leases, server)

/-- The test of `clear_leases`: a matching `chaddr`, or a matching nonzero `yiaddr`. -/
def clearsLease (chaddr : Option Mac) (yiaddr : UInt32) (lease : DynLease) : Bool :=
  (match chaddr with
    | some mac => lease.leaseMac == mac
    | none => false)
  || (yiaddr != 0 && lease.leaseNip == yiaddr)

/-- The table after `clear_leases`. -/
def clearedTable (chaddr : Option Mac) (yiaddr : UInt32) (table : List DynLease) :
    List DynLease :=
  table.map fun lease => if clearsLease chaddr yiaddr lease then emptyLease else lease

/-- A cleared entry is either the old one, which the clearing spared, or empty. -/
theorem mem_clearedTable {chaddr : Option Mac} {nip : UInt32} {table : List DynLease}
    {lease : DynLease} (member : lease ∈ clearedTable chaddr nip table) :
    lease = emptyLease ∨ (lease ∈ table ∧ clearsLease chaddr nip lease = false) := by
  obtain ⟨old, oldMember, rfl⟩ := List.mem_map.mp member
  by_cases clears : clearsLease chaddr nip old
  · simp [clears]
  · rw [if_neg clears]
    exact .inr ⟨oldMember, by simpa using clears⟩

/-- Clear out all leases with matching nonzero `chaddr` OR `yiaddr`. -/
def clearLeases (chaddr : Option Mac) (yiaddr : UInt32) (server : Server) : Server :=
  server.store (clearedTable chaddr yiaddr server.leases)

/-- `bb_ascii_isalnum`. -/
def isalnum (c : UInt8) : Bool :=
  (48 ≤ c && c ≤ 57) || (65 ≤ c && c ≤ 90) || (97 ≤ c && c ≤ 122)

/-- The sanitizing of one character after the first test of `add_lease`. -/
def sanitizeChar (c : UInt8) : UInt8 :=
  if isalnum c || c == 45 || c == 95 then c else 46

/-- The sanitizing of a copied name: a leading `-` and every bad character turn to dots. -/
def sanitize : List UInt8 → List UInt8
  | [] => []
  | c :: rest => (sanitizeChar (if c = 45 then 46 else c)) :: rest.map sanitizeChar

/-- The `hostname` field after `safe_strncpy` of `hostname_len + 1` bytes (at most
`sizeof(oldest->hostname)`) into the zeroed field and the sanitizing loop. -/
def storedHostname (hostname : List UInt8) (hostnameLen : Nat) : List UInt8 :=
  let size := min (hostnameLen + 1) hostnameSize
  let name := sanitize ((hostname.take (size - 1)).takeWhile (· ≠ 0))
  name ++ List.replicate (hostnameSize - name.length) 0

/-- The lease `add_lease` writes when the clock reads `now`. -/
def newLease (chaddr : Option Mac) (yiaddr leasetime : UInt32)
    (hostname : Option (List UInt8 × Nat)) (now : UInt32) : DynLease where
  expires := now + leasetime
  leaseNip := yiaddr
  leaseMac := chaddr.getD zeroMac
  hostname := match hostname with
    | some (name, len) => storedHostname name len
    | none => emptyLease.hostname

/-- Add a lease into the table, clearing out any old ones. If `chaddr` is `none`,
this is a conflict lease. Returns the slot used, `none` when every slot is taken
by an unexpired lease. -/
def addLease (world : World) (chaddr : Option Mac) (yiaddr leasetime : UInt32)
    (hostname : Option (List UInt8 × Nat)) (server : Server) : Option Nat × Server :=
  let server := clearLeases chaddr yiaddr server
  let (oldest, server) := oldestExpiredLease world server
  match oldest with
  | none => (none, server)
  | some slot =>
    let (now, server) := time world server
    (some slot, server.store
      (server.leases.set slot (newLease chaddr yiaddr leasetime hostname now)))

section Search

variable {world : World} {chaddr : Option Mac} {yiaddr leasetime : UInt32}
  {hostname : Option (List UInt8 × Nat)} {server : Server}

theorem addLease_of_search_none
    (search : oldestExpiredFrom 0 (UInt32.ofNat (world.time server.timeCalls)) none
      (clearedTable chaddr yiaddr server.leases) = none) :
    addLease world chaddr yiaddr leasetime hostname server =
      (none, (time world (clearLeases chaddr yiaddr server)).2) := by
  have found : (oldestExpiredLease world (clearLeases chaddr yiaddr server)) =
      (none, (time world (clearLeases chaddr yiaddr server)).2) := by
    rw [← search]
    rfl
  rw [addLease, found]

theorem addLease_of_search_some {slot : Nat}
    (search : oldestExpiredFrom 0 (UInt32.ofNat (world.time server.timeCalls)) none
      (clearedTable chaddr yiaddr server.leases) = some slot) :
    addLease world chaddr yiaddr leasetime hostname server =
      (some slot,
        (time world (time world (clearLeases chaddr yiaddr server)).2).2.store
          ((clearedTable chaddr yiaddr server.leases).set slot
            (newLease chaddr yiaddr leasetime hostname
              (UInt32.ofNat (world.time (server.timeCalls + 1)))))) := by
  have found : (oldestExpiredLease world (clearLeases chaddr yiaddr server)) =
      (some slot, (time world (clearLeases chaddr yiaddr server)).2) := by
    rw [← search]
    rfl
  rw [addLease, found]
  rfl

end Search

/-- What `add_lease` does: it clears the table, and then either finds no slot or
overwrites one that is empty or expired. -/
theorem addLease_cases (world : World) (chaddr : Option Mac) (yiaddr leasetime : UInt32)
    (hostname : Option (List UInt8 × Nat)) (server : Server) :
    (∃ after, addLease world chaddr yiaddr leasetime hostname server = (none, after) ∧
      after.leases = clearedTable chaddr yiaddr server.leases ∧
      after.history = server.history ++ [clearedTable chaddr yiaddr server.leases] ∧
      after.sent = server.sent ∧
      ¬ ∃ lease ∈ clearedTable chaddr yiaddr server.leases, lease.expires = 0) ∨
    (∃ after slot old, addLease world chaddr yiaddr leasetime hostname server =
        (some slot, after) ∧
      (clearedTable chaddr yiaddr server.leases)[slot]? = some old ∧
      (old.expires = 0 ∨ old.expires < UInt32.ofNat (world.time server.timeCalls)) ∧
      after.leases = (clearedTable chaddr yiaddr server.leases).set slot
        (newLease chaddr yiaddr leasetime hostname
          (UInt32.ofNat (world.time (server.timeCalls + 1)))) ∧
      after.history = server.history ++
        [clearedTable chaddr yiaddr server.leases, after.leases] ∧
      after.sent = server.sent) := by
  set now := UInt32.ofNat (world.time server.timeCalls) with nowEq
  cases result : oldestExpiredFrom 0 now none (clearedTable chaddr yiaddr server.leases) with
  | none =>
    rw [addLease_of_search_none result]
    refine .inl ⟨_, rfl, rfl, rfl, rfl, ?_⟩
    intro available
    obtain ⟨slot, _, found, -⟩ := oldestExpiredFrom_vacant 0 now none available
    exact absurd (result.symm.trans found) (by simp)
  | some slot =>
    rw [addLease_of_search_some result]
    rcases oldestExpiredFrom_spec (UInt32.le_refl now) result with impossible | ⟨old, atSlot, -, free⟩
    · cases impossible
    · refine .inr ⟨_, slot, old, rfl, by simpa using atSlot, free, rfl, ?_, rfl⟩
      simp [clearLeases]

/-- Where the cleared table has an empty entry, `add_lease` takes an empty one. -/
theorem addLease_of_vacant (world : World) (chaddr : Option Mac) (yiaddr leasetime : UInt32)
    (hostname : Option (List UInt8 × Nat)) (server : Server)
    (vacant : ∃ lease ∈ clearedTable chaddr yiaddr server.leases, lease.expires = 0) :
    ∃ after slot old, addLease world chaddr yiaddr leasetime hostname server =
        (some slot, after) ∧
      (clearedTable chaddr yiaddr server.leases)[slot]? = some old ∧ old.expires = 0 ∧
      after.leases = (clearedTable chaddr yiaddr server.leases).set slot
        (newLease chaddr yiaddr leasetime hostname
          (UInt32.ofNat (world.time (server.timeCalls + 1)))) ∧
      after.timeCalls = server.timeCalls + 2 := by
  obtain ⟨slot, old, found, atSlot, empty⟩ := oldestExpiredFrom_vacant 0
    (UInt32.ofNat (world.time server.timeCalls)) none vacant
  rw [Nat.zero_add] at found
  exact ⟨_, slot, old, addLease_of_search_some found, atSlot, empty, rfl, rfl⟩

/-- True if a lease has expired at the given time. -/
def DynLease.expiredAt (lease : DynLease) (now : UInt32) : Prop := lease.expires < now

instance (lease : DynLease) (now : UInt32) : Decidable (lease.expiredAt now) :=
  inferInstanceAs (Decidable (lease.expires < now))

/-- `is_expired_lease`. -/
def isExpiredLease (world : World) (lease : DynLease) (server : Server) : Bool × Server :=
  let (now, server) := time world server
  (decide (lease.expiredAt now), server)

/-- Find the first lease that matches MAC, `none` if no match. -/
def findLeaseByMac (mac : Mac) (server : Server) : Option Nat :=
  server.leases.findIdx? (·.leaseMac == mac)

/-- Find the first lease that matches IP, `none` if no match. -/
def findLeaseByNip (nip : UInt32) (server : Server) : Option Nat :=
  server.leases.findIdx? (·.leaseNip == nip)

end Busybox.Udhcp
