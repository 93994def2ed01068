import Busybox.Syslog.Passes

/-!
# syslogd and logread

`World` is the buffer with a process that reads it. The passes of `logread` are
under the lock, so a message is logged before or after one; only the first reading
of `tail` can come anywhere, also while a message is being stored.
-/

namespace Busybox.Syslog

open Records RingBuffer

/-- The texts of messages. -/
def texts (msgs : List Message) : List Str := msgs.map Message.text

/-- The bytes that have been stored for messages. -/
def bytes (msgs : List Message) : List UInt8 := encode 0 (texts msgs)

section Messages

variable {msgs : List Message}

theorem texts_free : ∀ text ∈ texts msgs, (0 : UInt8) ∉ text := by
  intro text member
  obtain ⟨msg, -, rfl⟩ := List.mem_map.mp member
  exact msg.noNul

theorem bytes_append (left right : List Message) :
    bytes (left ++ right) = bytes left ++ bytes right := by
  rw [bytes, texts, List.map_append, encode_append]
  rfl

theorem bytes_singleton (msg : Message) : bytes [msg] = Shbuf.stored msg := by
  rw [bytes, texts, List.map_singleton, encode_cons, encode_nil, Shbuf.stored]

/-- The records in the buffer: as many empty ones as there were zeros at first, and
then the messages. -/
theorem window_drop (size : Nat) (msgs : List Message) (offset : Nat) :
    (window size 0 (bytes msgs)).drop offset
      = (encode 0 (List.replicate size [] ++ texts msgs)).drop ((bytes msgs).length + offset) := by
  rw [window, encode_append, encode_replicate, List.drop_drop]
  rfl

theorem records_free (size : Nat) :
    ∀ record ∈ List.replicate size [] ++ texts msgs, (0 : UInt8) ∉ record := by
  intro record member
  rcases List.mem_append.mp member with blank | text
  · rw [List.eq_of_mem_replicate blank]
    exact List.not_mem_nil
  · exact texts_free record text

theorem strings_encode {copy : List UInt8} {records : List Str} (same : copy = encode 0 records)
    (free : ∀ record ∈ records, (0 : UInt8) ∉ record) : strings copy.length copy = records := by
  rw [strings_eq, same, split_encode free (Nat.le_refl _)]

end Messages

section Passes

variable {size : Nat} {shbuf : Shbuf} {msgs earlier since : List Message} {cur follow : Nat}

/-- A pass that dumps the buffer, from any position, prints the last messages; from the
tail it prints all but the one that starts there. -/
theorem Keeps.pass_dumps (keeps : Keeps size shbuf (bytes msgs)) (inside : cur < size)
    (dumps : follow &&& 1 = 0) :
    ∃ blanks kept, pass shbuf cur follow
        = .printed (List.replicate blanks [] ++ texts kept) shbuf.tail (follow >>> 1) ∧
      kept <:+ msgs ∧
      (cur = shbuf.tail → ∀ earlier msg later, msgs = earlier ++ msg :: later →
        (bytes (msg :: later)).length ≤ size → (bytes earlier).length % size ≠ shbuf.tail →
          msg :: later <:+ kept) := by
  obtain ⟨offset, within, place⟩ := exists_offset keeps.inside inside
  have whole : (encode 0 (List.replicate size [] ++ texts msgs)).length
      = size + (bytes msgs).length := by
    rw [encode_append, encode_replicate, List.length_append, List.length_replicate]
    rfl
  have short : (bytes msgs).length + offset
      < (encode 0 (List.replicate size [] ++ texts msgs)).length := by omega
  have ended : 0 ∈ (window size 0 (bytes msgs)).drop offset := by
    rw [window_drop]
    exact stop_mem_drop short
  obtain ⟨next, found, bound, advanced⟩ := keeps.advance within ended
  obtain ⟨skipped, rest, first⟩ := afterStop (records_free size) short
  have copy := keeps.copied (show 0 < next by omega) bound
  have dropped : (window size 0 (bytes msgs)).drop next
      = encode 0 ((List.replicate size [] ++ texts msgs).drop skipped) := by
    rw [← rest, window_drop, found, window_drop, ← Nat.add_assoc, ← Nat.add_assoc]
  rw [dropped] at copy
  have free : ∀ record ∈ (List.replicate size [] ++ texts msgs).drop skipped, (0 : UInt8) ∉ record :=
    fun record member => records_free size record (List.mem_of_mem_drop member)
  refine ⟨size - skipped, msgs.drop (skipped - size), ?_, List.drop_suffix _ _, ?_⟩
  · unfold pass
    rw [if_pos dumps, place, advanced]
    dsimp only
    rw [strings_encode copy free, List.drop_append, List.drop_replicate, List.length_replicate,
      texts, texts, List.map_drop]
  · rintro atTail earlier msg later rfl fits elsewhere
    have start : offset = 0 := by
      split at place <;> omega
    have split : (bytes (earlier ++ msg :: later)).length
        = (bytes earlier).length + (bytes (msg :: later)).length := by
      rw [bytes_append, List.length_append]
    have less : (bytes (msg :: later)).length ≠ size := by
      intro equal
      rw [keeps.tail, split, equal, Nat.add_mod_right] at elsewhere
      exact elsewhere rfl
    have reached : skipped ≤ size + earlier.length := by
      refine first (size + earlier.length) ?_
      have front : (List.replicate size [] ++ texts (earlier ++ msg :: later)).take
          (size + earlier.length) = List.replicate size [] ++ texts earlier := by
        rw [texts, List.map_append, ← List.append_assoc]
        apply List.take_left'
        rw [List.length_append, List.length_replicate, List.length_map]
      have length : (encode 0 (List.replicate size [] ++ texts earlier)).length
          = size + (bytes earlier).length := by
        rw [encode_append, encode_replicate, List.length_append, List.length_replicate]
        rfl
      rw [front, length, split]
      omega
    rw [List.drop_append_of_le_length (by omega)]
    exact List.suffix_append _ _

/-- A pass that follows the log prints what has been logged since, if it is less than
the buffer holds. -/
theorem Keeps.pass_follows (keeps : Keeps size shbuf (bytes (earlier ++ since)))
    (place : cur = (bytes earlier).length % size) (fits : (bytes since).length < size)
    (follows : follow &&& 1 ≠ 0) :
    pass shbuf cur follow = .printed (texts since) shbuf.tail follow := by
  have positive : 0 < size := by omega
  have behind : cur < size := place ▸ Nat.mod_lt _ positive
  have tail : shbuf.tail = (cur + (bytes since).length) % size := by
    rw [keeps.tail, place, Nat.mod_add_mod, bytes_append, List.length_append]
  unfold pass
  rw [if_neg follows]
  by_cases nothing : bytes since = []
  · have none : since = [] := by
      cases since with
      | nil => rfl
      | cons msg later =>
        rw [bytes, texts, List.map_cons, encode_cons] at nothing
        exact absurd nothing (by simp)
    rw [nothing, List.length_nil, Nat.add_zero, Nat.mod_eq_of_lt behind] at tail
    rw [if_pos tail.symm, none]
    rw [tail]
    rfl
  · have some := List.length_pos_of_ne_nil nothing
    have offset : cur = if shbuf.tail + (size - (bytes since).length) < size
        then shbuf.tail + (size - (bytes since).length)
        else shbuf.tail + (size - (bytes since).length) - size := by
      by_cases wraps : cur + (bytes since).length < size
      · rw [Nat.mod_eq_of_lt wraps] at tail
        split <;> omega
      · rw [Nat.mod_eq_sub_mod (by omega), Nat.mod_eq_of_lt (by omega)] at tail
        split <;> omega
    have moved : cur ≠ shbuf.tail := by
      by_cases wraps : cur + (bytes since).length < size
      · rw [Nat.mod_eq_of_lt wraps] at tail
        omega
      · rw [Nat.mod_eq_sub_mod (by omega), Nat.mod_eq_of_lt (by omega)] at tail
        omega
    have copy := keeps.copied (show 0 < size - (bytes since).length by omega) (Nat.sub_le _ _)
    rw [← offset, bytes_append, window_append (Nat.le_of_lt fits), List.drop_left'] at copy
    · rw [if_neg moved]
      dsimp only
      rw [strings_encode copy texts_free]
    · rw [List.length_drop, window_length]

end Passes

/-! ## Runs -/

/-- A `logread` that has read `tail`. `since` are the messages logged after it last
did, and `torn` says that it read it while the first of these was being stored. -/
structure Reader where
  cur : Nat
  follow : Nat
  since : List Message
  torn : Bool

/-- The buffer, all messages logged so far, and a process that reads. -/
structure World where
  shbuf : Shbuf
  logged : List Message
  reader : Option Reader

inductive Event
  /-- `log_to_shmem` is called. -/
  | log (msg : Message)
  /-- `logread` starts with these options. -/
  | start (follow : Nat)
  /-- It starts when `log_to_shmem` has made so many turns. -/
  | startWithin (msg : Message) (count : Nat) (follow : Nat)
  /-- `logread` takes the lock and makes a pass. -/
  | pass

def World.next (world : World) : Event → World
  | .log msg =>
    { shbuf := world.shbuf.logToShmem msg
      logged := world.logged ++ [msg]
      reader := world.reader.map fun reader => { reader with since := reader.since ++ [msg] } }
  | .start follow => { world with reader := some ⟨world.shbuf.tail, follow, [], false⟩ }
  | .startWithin msg count follow =>
    { shbuf := world.shbuf.logToShmem msg
      logged := world.logged ++ [msg]
      reader := some ⟨(world.shbuf.turns count (Shbuf.stored msg)).tail, follow, [msg], true⟩ }
  | .pass =>
    match world.reader with
    | none => world
    | some reader =>
      match pass world.shbuf reader.cur reader.follow with
      | .noCompleteMessages => { world with reader := none }
      | .printed _ cur follow =>
        { world with reader := if follow = 0 then none else some ⟨cur, follow, [], false⟩ }

def World.start (size : Nat) : World := ⟨ipcsyslogInit size, [], none⟩

def World.run (world : World) (events : List Event) : World := events.foldl World.next world

/-- Where a reader stands. -/
structure Placed (size : Nat) (logged : List Message) (reader : Reader) : Prop where
  inside : reader.cur < size
  place : reader.torn = false → ∃ earlier, logged = earlier ++ reader.since ∧
    reader.cur = (bytes earlier).length % size
  torn : reader.torn = true → reader.since ≠ []

structure World.Inv (size : Nat) (world : World) : Prop where
  keeps : Keeps size world.shbuf (bytes world.logged)
  placed : ∀ reader, world.reader = some reader → Placed size world.logged reader

section Runs

variable {size : Nat} {world : World}

theorem World.Inv.passes (inv : world.Inv size) {reader : Reader}
    (reads : world.reader = some reader) :
    ∃ strings follow, Syslog.pass world.shbuf reader.cur reader.follow
      = .printed strings world.shbuf.tail follow := by
  by_cases dumps : reader.follow &&& 1 = 0
  · obtain ⟨blanks, kept, prints, -⟩ := inv.keeps.pass_dumps (inv.placed reader reads).inside dumps
    exact ⟨_, _, prints⟩
  · unfold Syslog.pass
    rw [if_neg dumps]
    split
    · next atTail => exact ⟨_, _, by rw [atTail]⟩
    · exact ⟨_, _, rfl⟩

theorem World.Inv.placed_tail (inv : world.Inv size) (follow : Nat) :
    Placed size world.logged ⟨world.shbuf.tail, follow, [], false⟩ where
  inside := inv.keeps.inside
  place _ := ⟨world.logged, (List.append_nil _).symm, inv.keeps.tail⟩
  torn torn := by cases torn

theorem World.Inv.logged (inv : world.Inv size) (msg : Message) :
    Keeps size (world.shbuf.logToShmem msg) (bytes (world.logged ++ [msg])) := by
  rw [bytes_append, bytes_singleton]
  exact inv.keeps.logToShmem msg

theorem World.Inv.next (inv : world.Inv size) (event : Event) : (world.next event).Inv size := by
  cases event with
  | log msg =>
    refine ⟨inv.logged msg, fun reader reads => ?_⟩
    obtain ⟨before, here, rfl⟩ := Option.map_eq_some_iff.mp reads
    have placed := inv.placed before here
    refine ⟨placed.inside, fun whole => ?_, fun _ => ?_⟩
    · obtain ⟨earlier, all, place⟩ := placed.place whole
      refine ⟨earlier, ?_, place⟩
      simp only [World.next, all, List.append_assoc]
    · exact List.append_ne_nil_of_right_ne_nil _ (List.cons_ne_nil msg [])
  | start follow =>
    refine ⟨inv.keeps, fun reader reads => ?_⟩
    cases reads
    exact inv.placed_tail follow
  | startWithin msg count follow =>
    refine ⟨inv.logged msg, fun reader reads => ?_⟩
    cases reads
    obtain ⟨front, -, keeps, -⟩ := inv.keeps.turns count (Shbuf.stored msg)
    exact ⟨keeps.inside, nofun, fun _ => List.cons_ne_nil msg []⟩
  | pass =>
    unfold World.next
    cases reads : world.reader with
    | none => exact ⟨inv.keeps, fun reader same => absurd (reads.symm.trans same) nofun⟩
    | some reader =>
      obtain ⟨strings, follow, prints⟩ := inv.passes reads
      dsimp only
      rw [prints]
      refine ⟨inv.keeps, fun reader same => ?_⟩
      dsimp only at same
      split at same
      · cases same
      · cases same
        exact inv.placed_tail follow

theorem World.inv_start (positive : 0 < size) : (World.start size).Inv size :=
  ⟨keeps_init positive, nofun⟩

theorem World.Inv.run (inv : world.Inv size) (events : List Event) :
    (world.run events).Inv size := by
  induction events generalizing world with
  | nil => exact inv
  | cons event events ih => exact ih (inv.next event)

end Runs

/-- The message of one byte. -/
def letter (c : UInt8) (visible : c ≠ 0) : Message :=
  ⟨[c], fun member => visible (List.mem_singleton.mp member).symm⟩

end Busybox.Syslog
