import Busybox.Lib.Records
import Busybox.Lib.RingBuffer

/-!
# The circular log buffer

`syslogd` writes messages into shared memory, `logread` prints them. They share
`size`, `tail` and the bytes; each works under the lock, but `logread` reads `tail`
for the first time before it takes the lock.
-/

namespace Busybox.Syslog

/-- The bytes of a C string, without the final NUL. -/
abbrev Str := List UInt8

/-- A message passed to `log_to_shmem`. -/
structure Message where
  text : Str
  noNul : 0 ∉ text
deriving DecidableEq

/-- `struct shbuf_ds`; `data` has one byte more than `size`. -/
structure Shbuf where
  size : Nat
  tail : Nat
  data : List UInt8
deriving DecidableEq, Repr

/-- `memcpy` to a place in the buffer. -/
def memcpy (data : List UInt8) (position : Nat) (source : List UInt8) : List UInt8 :=
  data.take position ++ source ++ data.drop (position + source.length)

/-- `ipcsyslog_init`. -/
def ipcsyslogInit (size : Nat) : Shbuf := ⟨size, 0, List.replicate (size + 1) 0⟩

namespace Shbuf

/-- A turn of `log_to_shmem`, which ends it or leaves the rest of the message. -/
def turn (shbuf : Shbuf) (msg : List UInt8) : Shbuf × Option (List UInt8) :=
  let oldTail := shbuf.tail
  let newTail := oldTail + msg.length
  if newTail < shbuf.size then
    -- store message, set new tail
    ({ shbuf with data := memcpy shbuf.data oldTail msg, tail := newTail }, none)
  else
    -- copy what fits to the end of buffer, and repeat
    let k := shbuf.size - oldTail
    ({ shbuf with data := memcpy shbuf.data oldTail (msg.take k), tail := 0 }, some (msg.drop k))

/-- The buffer after so many turns at most. -/
def turns : Nat → Shbuf → List UInt8 → Shbuf
  | 0, shbuf, _ => shbuf
  | count + 1, shbuf, msg =>
    match shbuf.turn msg with
    | (shbuf, none) => shbuf
    | (shbuf, some rest) => turns count shbuf rest

/-- What `log_to_shmem` stores: the NUL is included. -/
def stored (msg : Message) : List UInt8 := msg.text ++ [0]

/-- `log_to_shmem`; a turn that does not end it stores a byte or more. -/
def logToShmem (shbuf : Shbuf) (msg : Message) : Shbuf :=
  shbuf.turns ((stored msg).length + 1) (stored msg)

end Shbuf

/-! ## logread -/

/-- `strlen`; on bytes without a NUL it is their number, as for `strnlen`. -/
def strlen (s : List UInt8) : Nat := (s.takeWhile (· ≠ 0)).length

/-- A position past the last byte is the first one. -/
def wrap (size cur : Nat) : Nat := if size ≤ cur then 0 else cur

/-- Advance to the oldest complete message, `none` if there is none. -/
def advance (shbuf : Shbuf) (cur : Nat) : Option Nat :=
  -- find NUL
  let cur := cur + strlen (shbuf.data.drop cur)
  if shbuf.size ≤ cur then
    let cur := strlen (shbuf.data.take shbuf.tail)
    if cur = shbuf.tail then none else some (wrap shbuf.size (cur + 1))
  else some (wrap shbuf.size (cur + 1))

/-- The bytes from `cur` to the tail. -/
def copied (shbuf : Shbuf) (cur : Nat) : List UInt8 :=
  if cur ≤ shbuf.tail then (shbuf.data.drop cur).take (shbuf.tail - cur)
  else (shbuf.data.drop cur).take (shbuf.size - cur) ++ shbuf.data.take shbuf.tail

/-- The loop that prints the copy; every turn takes a NUL at least. -/
def strings : Nat → List UInt8 → List Str
  | 0, _ => []
  | _ + 1, [] => []
  | count + 1, c :: copy =>
    (c :: copy).takeWhile (· ≠ 0) :: strings count ((c :: copy).drop (strlen (c :: copy) + 1))

/-- What a pass of `logread_main` under the lock comes to: the strings it prints, and
`cur` and `follow` after it. -/
inductive Pass
  | noCompleteMessages
  | printed (strings : List Str) (cur follow : Nat)
deriving DecidableEq, Repr

/-- A pass over the buffer; bit 0 of `follow` is -f and bit 1 is -F. -/
def pass (shbuf : Shbuf) (cur follow : Nat) : Pass :=
  if follow &&& 1 = 0 then
    -- if -F, "convert" it to -f
    match advance shbuf cur with
    | none => .noCompleteMessages
    | some cur =>
      let copy := copied shbuf cur
      .printed (strings copy.length copy) shbuf.tail (follow >>> 1)
  else if cur = shbuf.tail then .printed [] cur follow
  else
    let copy := copied shbuf cur
    .printed (strings copy.length copy) shbuf.tail follow

/-!
## Storing and reading

The buffer keeps the last `size` bytes of all that has been stored, with zeros before
the first message, and `tail` is where the oldest of them lies. A pass from any
position prints whole messages up to the last one.
-/

open Records RingBuffer

/-- The buffer keeps the end of the bytes stored so far. -/
structure Keeps (size : Nat) (shbuf : Shbuf) (history : List UInt8) : Prop where
  sized : shbuf.size = size
  tail : shbuf.tail = history.length % size
  cells : ∃ cells, shbuf.data = cells ++ [0] ∧
    Holds size shbuf.tail cells (window size 0 history)

section Storing

variable {size : Nat} {shbuf : Shbuf} {history : List UInt8}

theorem Keeps.inside (keeps : Keeps size shbuf history) : shbuf.tail < size := by
  obtain ⟨cells, -, holds⟩ := keeps.cells
  exact holds.inside

theorem keeps_init (positive : 0 < size) : Keeps size (ipcsyslogInit size) [] := by
  refine ⟨rfl, (Nat.zero_mod size).symm, List.replicate size 0, List.replicate_succ', ?_⟩
  refine ⟨positive, List.length_replicate, ?_⟩
  rw [window, List.length_nil, List.append_nil, ipcsyslogInit, List.take_zero, List.append_nil]

/-- A part of a message that ends at the end of the buffer at most is stored. -/
theorem Keeps.copy (keeps : Keeps size shbuf history) {msg : List UInt8}
    (fits : shbuf.tail + msg.length ≤ size) :
    Keeps size
      { shbuf with
        data := memcpy shbuf.data shbuf.tail msg
        tail := if shbuf.tail + msg.length = size then 0 else shbuf.tail + msg.length }
      (history ++ msg) := by
  obtain ⟨cells, data, holds⟩ := keeps.cells
  have inside := holds.inside
  have full := holds.full
  refine ⟨keeps.sized, ?_, cells.take shbuf.tail ++ msg ++ cells.drop (shbuf.tail + msg.length),
    ?_, ?_⟩
  · rw [List.length_append, ← Nat.mod_add_mod, ← keeps.tail]
    dsimp only
    split
    · next atEnd => rw [atEnd, Nat.mod_self]
    · rw [Nat.mod_eq_of_lt (by omega)]
  · dsimp only
    rw [memcpy, data, List.take_append_of_le_length (by omega),
      List.drop_append_of_le_length (by omega), ← List.append_assoc]
  · rw [window_append (by omega)]
    exact holds.write fits

/-- A turn stores the whole message, or as much as fits before the end. -/
theorem Keeps.turn (keeps : Keeps size shbuf history) (msg : List UInt8) :
    match shbuf.turn msg with
    | (next, none) => Keeps size next (history ++ msg)
    | (next, some rest) => ∃ front, msg = front ++ rest ∧ front ≠ [] ∧
        Keeps size next (history ++ front) := by
  have inside := keeps.inside
  have same := keeps.sized
  by_cases fits : shbuf.tail + msg.length < shbuf.size
  · have stores : shbuf.turn msg = _ := if_pos fits
    have copy := keeps.copy (show shbuf.tail + msg.length ≤ size by omega)
    rw [if_neg (by omega)] at copy
    rw [stores]
    exact copy
  · have stores : shbuf.turn msg = _ := if_neg fits
    have length : (msg.take (shbuf.size - shbuf.tail)).length = shbuf.size - shbuf.tail :=
      List.length_take_of_le (by omega)
    have copy := keeps.copy
      (show shbuf.tail + (msg.take (shbuf.size - shbuf.tail)).length ≤ size by omega)
    rw [if_pos (by omega)] at copy
    rw [stores]
    refine ⟨_, (List.take_append_drop (shbuf.size - shbuf.tail) msg).symm, ?_, copy⟩
    intro none
    rw [none, List.length_nil] at length
    omega

/-- With turns enough the message is stored; between two turns a part of it is. -/
theorem Keeps.turns (keeps : Keeps size shbuf history) (count : Nat) (msg : List UInt8) :
    ∃ front, front <+: msg ∧ Keeps size (shbuf.turns count msg) (history ++ front) ∧
      (msg.length < count → front = msg) := by
  induction count generalizing shbuf history msg with
  | zero =>
    refine ⟨[], List.nil_prefix, ?_, fun enough => absurd enough (Nat.not_lt_zero _)⟩
    rw [List.append_nil]
    exact keeps
  | succ count ih =>
    have turned := keeps.turn msg
    unfold Shbuf.turns
    split
    · next next stores =>
      rw [stores] at turned
      exact ⟨msg, List.prefix_refl msg, turned, fun _ => rfl⟩
    · next next rest stores =>
      rw [stores] at turned
      obtain ⟨front, rfl, some, keeps'⟩ := turned
      obtain ⟨more, begins, keeps'', whole⟩ := ih keeps' rest
      refine ⟨front ++ more, List.prefix_append_right_inj front |>.mpr begins, ?_, fun enough => ?_⟩
      · rw [← List.append_assoc]
        exact keeps''
      · have positive := List.length_pos_of_ne_nil some
        rw [List.length_append] at enough
        rw [whole (by omega)]

theorem Keeps.logToShmem (keeps : Keeps size shbuf history) (msg : Message) :
    Keeps size (shbuf.logToShmem msg) (history ++ Shbuf.stored msg) := by
  obtain ⟨front, -, keeps', whole⟩ := keeps.turns ((Shbuf.stored msg).length + 1) (Shbuf.stored msg)
  rwa [whole (Nat.lt_succ_self _)] at keeps'

end Storing

/-! ## A pass -/

theorem strlen_eq (s : List UInt8) : strlen s = upTo 0 s := rfl

theorem strings_eq (count : Nat) (copy : List UInt8) : strings count copy = split 0 count copy := by
  induction count generalizing copy with
  | zero => rfl
  | succ count ih =>
    cases copy with
    | nil => rfl
    | cons c copy => rw [strings, split, ih, strlen_eq]

section Reading

variable {size : Nat} {shbuf : Shbuf} {history : List UInt8}

/-- A position in the buffer is so far behind the oldest byte. -/
theorem exists_offset {tail cur : Nat} (inside : tail < size) (bound : cur < size) :
    ∃ offset < size, cur = if tail + offset < size then tail + offset else tail + offset - size := by
  by_cases before : tail ≤ cur
  · exact ⟨cur - tail, by omega, by split <;> omega⟩
  · exact ⟨cur + size - tail, by omega, by split <;> omega⟩

/-- What is copied from so far behind the oldest byte on. -/
theorem Keeps.copied (keeps : Keeps size shbuf history) {offset : Nat} (past : 0 < offset)
    (within : offset ≤ size) :
    copied shbuf (if shbuf.tail + offset < size then shbuf.tail + offset
      else shbuf.tail + offset - size) = (window size 0 history).drop offset := by
  obtain ⟨cells, data, holds⟩ := keeps.cells
  have inside := holds.inside
  have full := holds.full
  rw [← holds.read offset]
  unfold Syslog.copied
  rw [data, keeps.sized]
  split
  · next front =>
    rw [if_neg (by omega), List.drop_append_of_le_length (by omega), List.take_append_of_le_length,
      List.take_of_length_le, List.take_append_of_le_length (by omega)]
    · rw [List.length_drop]
      omega
    · rw [List.length_drop]
      omega
  · rw [if_pos (by omega), List.drop_append_of_le_length (by omega), List.take_append_of_le_length]
    rw [List.length_drop]
    omega

/-- From any position the next message after a NUL is found, if only there is a NUL
between the position and the newest byte. -/
theorem Keeps.advance (keeps : Keeps size shbuf history) {offset : Nat} (within : offset < size)
    (ended : 0 ∈ (window size 0 history).drop offset) :
    ∃ next, next = offset + upTo 0 ((window size 0 history).drop offset) + 1 ∧ next ≤ size ∧
      advance shbuf (if shbuf.tail + offset < size then shbuf.tail + offset
        else shbuf.tail + offset - size)
        = some (if shbuf.tail + next < size then shbuf.tail + next
          else shbuf.tail + next - size) := by
  obtain ⟨cells, data, holds⟩ := keeps.cells
  have inside := holds.inside
  have full := holds.full
  have window := holds.kept
  rw [window] at ended ⊢
  have older : (cells.drop shbuf.tail).length = size - shbuf.tail := by
    rw [List.length_drop, full]
  have newer : (cells.take shbuf.tail).length = shbuf.tail := List.length_take_of_le (by omega)
  unfold Syslog.advance wrap
  simp only [data, keeps.sized, strlen_eq]
  rw [List.take_append_of_le_length (by omega)]
  by_cases before : shbuf.tail + offset < size
  · rw [if_pos before, List.drop_append_of_le_length (by omega)]
    rw [List.drop_append_of_le_length (by omega), List.drop_drop] at ended ⊢
    have rest : (cells.drop (shbuf.tail + offset)).length = size - (shbuf.tail + offset) := by
      rw [List.length_drop, full]
    by_cases here : 0 ∈ cells.drop (shbuf.tail + offset)
    · have found := upTo_lt here
      rw [upTo_append_of_mem here, upTo_append_of_mem here, if_neg (by omega)]
      refine ⟨_, rfl, by omega, congrArg some ?_⟩
      split <;> split <;> omega
    · have later := (List.mem_append.mp ended).resolve_left here
      have found := upTo_lt later
      have nothing : upTo 0 [(0 : UInt8)] = 0 := rfl
      rw [upTo_append_of_not_mem here, upTo_append_of_not_mem here, nothing, if_pos (by omega),
        if_neg (by omega)]
      refine ⟨_, rfl, by omega, congrArg some ?_⟩
      split <;> split <;> omega
  · have skipped : (cells.drop shbuf.tail ++ cells.take shbuf.tail).drop offset
        = (cells.take shbuf.tail).drop (shbuf.tail + offset - size) := by
      rw [List.drop_append, List.drop_eq_nil_of_le (by omega), List.nil_append, older,
        show offset - (size - shbuf.tail) = shbuf.tail + offset - size by omega]
    rw [if_neg before]
    rw [skipped] at ended ⊢
    have found := upTo_lt ended
    rw [List.length_drop, newer] at found
    have ahead : (cells ++ [0]).drop (shbuf.tail + offset - size)
        = (cells.take shbuf.tail).drop (shbuf.tail + offset - size)
          ++ (cells.drop shbuf.tail ++ [0]) := by
      rw [← List.drop_append_of_le_length (by omega), ← List.append_assoc, List.take_append_drop]
    rw [ahead, upTo_append_of_mem ended, if_neg (by omega)]
    refine ⟨_, rfl, by omega, congrArg some ?_⟩
    split <;> split <;> omega

end Reading

end Busybox.Syslog
