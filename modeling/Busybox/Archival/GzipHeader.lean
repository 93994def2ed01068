import Busybox.Lib.Fallible
import Busybox.Lib.Reading

/-!
# Headers of gzip members

`check_header_gzip` skips the optional fields in a buffer that `top_up` compacts and refills.
A field is skipped at once, so it has to fit into the buffer.
-/

namespace Busybox.Archival.Gunzip

open Reading

/-- `bytebuffer_max`. -/
def bytebufferMax : Nat := 0x4000

/-- The compressed input: `bytebuffer`, `bytebuffer_offset`, `bytebuffer_size`, and what the
reads of `gunzip_src_fd` will find. -/
structure Input where
  buffer : List UInt8
  offset : Nat
  size : Nat
  source : Source

/-- A read outside `bytebuffer_offset..bytebuffer_size`, or a result of 0. -/
inductive Stop
  | outside
  | corrupted
deriving DecidableEq, Repr

/-- Bytes stored over a part of the buffer. -/
def overwrite (buffer : List UInt8) (start : Nat) (bytes : List UInt8) : List UInt8 :=
  buffer.take start ++ bytes ++ buffer.drop (start + bytes.length)

namespace Input

def read (input : Input) (i len : Nat) : Except Stop (List UInt8) :=
  if input.offset ≤ i ∧ i + len ≤ input.size then .ok ((input.buffer.drop i).take len)
  else .error .outside

def advance (n : Nat) (input : Input) : Input := { input with offset := input.offset + n }

end Input

/-- `top_up`. Its callers give the buffer up when it returns 0. -/
def topUp (n : Nat) (input : Input) : Except Stop Input :=
  let count := input.size - input.offset
  if count < n then do
    let kept ← input.read input.offset count
    let buffer := overwrite input.buffer 0 kept
    match fullRead input.source (bytebufferMax - count) with
    | (none, _) => .error .corrupted
    | (some got, source) =>
      let size := got.length + count
      if size < n then .error .corrupted
      else .ok { buffer := overwrite buffer count got, offset := 0, size, source }
  else .ok input

/-- A number of little-endian bytes. -/
def leValue : List UInt8 → Nat
  | [] => 0
  | b :: bytes => b.toNat + 256 * leValue bytes

/-- `buffer_read_le_u16`. -/
def bufferReadLeU16 (input : Input) : Except Stop (Nat × Input) := do
  let bytes ← input.read input.offset 2
  .ok (leValue bytes, input.advance 2)

/-- How many bytes are still to come. -/
def Input.ahead (input : Input) : Nat := input.size - input.offset + (content input.source).length

theorem read_inside {input : Input} {i len : Nat} {bytes : List UInt8}
    (read : input.read i len = .ok bytes) : input.offset ≤ i ∧ i + len ≤ input.size := by
  unfold Input.read at read
  split at read
  · assumption
  · cases read

/-- What `top_up` has refilled is what was to come before. -/
theorem topUp_ahead {n : Nat} {input input' : Input} (topped : topUp n input = .ok input') :
    input'.ahead = input.ahead := by
  unfold topUp at topped
  dsimp only at topped
  split at topped
  · obtain ⟨kept, _, rest⟩ := Fallible.bind_eq_ok.mp topped
    split at rest
    · cases rest
    next got source read =>
      split at rest
      · cases rest
      · cases rest
        have bytes := congrArg List.length (fullReadFrom_content read)
        simp only [List.length_append, List.length_nil] at bytes
        simp only [Input.ahead]
        omega
  · cases topped
    rfl

/-- The inner loop: one text is skipped with the NUL behind it. -/
def skipText (input : Input) : Except Stop Input :=
  match _topped : topUp 1 input with
  | .error stop => .error stop
  | .ok input' =>
    match _read : input'.read input'.offset 1 with
    | .error stop => .error stop
    | .ok bytes =>
      if bytes = [0] then .ok (input'.advance 1) else skipText (input'.advance 1)
termination_by input.ahead
decreasing_by
  have inside := read_inside _read
  have same := topUp_ahead _topped
  simp only [Input.ahead, Input.advance] at same ⊢
  omega

theorem texts_cleared (flags : UInt8) : flags &&& ~~~0x18 &&& 0x18 = 0 := by
  rw [UInt8.and_assoc]
  exact UInt8.and_zero

/-- The outer loop: the texts that are there. -/
def skipTexts (flags : UInt8) (input : Input) : Except Stop Input := do
  let input ← skipText input
  if flags &&& 0x18 ≠ 0x18 then .ok input else skipTexts (flags &&& ~~~0x18) input
termination_by (flags &&& 0x18).toNat
decreasing_by
  have both : flags &&& 0x18 = 0x18 := Decidable.of_not_not ‹_›
  rw [texts_cleared, both]
  decide

def skipExtra (flags : UInt8) (input : Input) : Except Stop Input :=
  if flags &&& 0x04 ≠ 0 then do
    let input ← topUp 2 input
    let (extraShort, input) ← bufferReadLeU16 input
    let input ← topUp extraShort input
    .ok (input.advance extraShort)
  else .ok input

/-- Discard the original name and the file comment, if any. -/
def discardTexts (flags : UInt8) (input : Input) : Except Stop Input :=
  if flags &&& 0x18 ≠ 0 then skipTexts flags input else .ok input

def skipChecksum (flags : UInt8) (input : Input) : Except Stop Input :=
  if flags &&& 0x02 ≠ 0 then do
    let input ← topUp 2 input
    .ok (input.advance 2)
  else .ok input

/-- `check_header_gzip` from the check of the method, with the eight bytes read before it. -/
def checkFields (header : List UInt8) (input : Input) : Except Stop (Nat × Input) :=
  if header.getD 0 0 ≠ 8 then .error .corrupted
  else do
    let flags := header.getD 1 0
    let input ← skipExtra flags input
    let input ← discardTexts flags input
    let mtime := leValue ((header.drop 2).take 4)
    let input ← skipChecksum flags input
    .ok (mtime, input)

/-- `check_header_gzip`, behind the magic number: `xstate->mtime` and the input. -/
def checkHeaderGzip (input : Input) : Except Stop (Nat × Input) := do
  let count := input.size - input.offset
  let kept ← input.read input.offset count
  let rewound := { input with buffer := overwrite input.buffer 0 kept, offset := 0, size := count }
  let input ← topUp 8 rewound
  let header ← input.read input.offset 8
  checkFields header (input.advance 8)

/-! ## The buffer -/

variable {input : Input} {buffer bytes : List UInt8} {start n : Nat}

theorem overwrite_length (room : start + bytes.length ≤ buffer.length) :
    (overwrite buffer start bytes).length = buffer.length := by
  simp only [overwrite, List.length_append, List.length_take, List.length_drop]
  omega

theorem overwrite_take (buffer bytes : List UInt8) (start : Nat) (inside : start ≤ buffer.length) :
    (overwrite buffer start bytes).take (start + bytes.length) = buffer.take start ++ bytes := by
  apply List.take_left'
  rw [List.length_append, List.length_take, Nat.min_eq_left inside]

/-- What `bytebuffer_size` says of the buffer and `bytebuffer_offset`. -/
structure Sound (input : Input) : Prop where
  full : input.buffer.length = bytebufferMax
  ordered : input.offset ≤ input.size
  fits : input.size ≤ bytebufferMax

/-- The bytes that are still to come, from the buffer and from the file. -/
def Input.unread (input : Input) : List UInt8 :=
  (input.buffer.drop input.offset).take (input.size - input.offset) ++ content input.source

theorem Sound.kept_length (sound : Sound input) :
    ((input.buffer.drop input.offset).take (input.size - input.offset)).length =
      input.size - input.offset := by
  have := sound.full
  have := sound.fits
  rw [List.length_take, List.length_drop]
  omega

/-- Bytes that `top_up` has made sure of can be read and skipped. -/
theorem Sound.read (sound : Sound input) (there : n ≤ input.size - input.offset) :
    input.read input.offset n = .ok (input.unread.take n) := by
  have := sound.ordered
  rw [Input.read, if_pos ⟨Nat.le_refl _, by omega⟩, Input.unread,
    List.take_append_of_le_length (by rw [sound.kept_length]; exact there), List.take_take,
    Nat.min_eq_left there]

theorem Sound.advance (sound : Sound input) (there : n ≤ input.size - input.offset) :
    Sound (input.advance n) := by
  have := sound.ordered
  exact ⟨sound.full, by simp only [Input.advance]; omega, sound.fits⟩

theorem Sound.advance_unread (sound : Sound input) (there : n ≤ input.size - input.offset) :
    (input.advance n).unread = input.unread.drop n := by
  have kept := sound.kept_length
  rw [Input.unread, Input.unread, List.drop_append_of_le_length (by rw [kept]; exact there),
    List.drop_take, List.drop_drop, Input.advance, Nat.sub_add_eq]

/-- The buffer after its bytes have been moved to its beginning, and `got` behind them. -/
theorem Sound.moved (sound : Sound input) {got : List UInt8} (source : Source)
    (kept : bytes = (input.buffer.drop input.offset).take (input.size - input.offset))
    (room : got.length ≤ bytebufferMax - (input.size - input.offset)) :
    let moved := overwrite (overwrite input.buffer 0 bytes) (input.size - input.offset) got
    Sound ⟨moved, 0, got.length + (input.size - input.offset), source⟩ ∧
      Input.unread ⟨moved, 0, got.length + (input.size - input.offset), source⟩ =
        bytes ++ got ++ content source := by
  intro moved
  have length : bytes.length = input.size - input.offset := kept ▸ sound.kept_length
  have full := sound.full
  have fits := sound.fits
  have first : (overwrite input.buffer 0 bytes).length = bytebufferMax := by
    rw [overwrite_length (by omega), full]
  have front : (overwrite input.buffer 0 bytes).take (input.size - input.offset) = bytes := by
    have := overwrite_take input.buffer bytes 0 (Nat.zero_le _)
    rwa [Nat.zero_add, length] at this
  constructor
  · refine ⟨?_, Nat.zero_le _, ?_⟩
    · rw [overwrite_length (by omega), first]
    · dsimp only
      omega
  · rw [Input.unread]
    dsimp only
    rw [List.drop_zero, Nat.sub_zero, Nat.add_comm, overwrite_take _ _ _ (by omega), front]

/-! ## What is read -/

/-- The step is refused, or it leaves the buffer sound. -/
abbrev Ends (step : Except Stop Input) : Prop := Fallible.Ends step Sound (· = .corrupted)

/-- After `top_up` there are enough bytes, and they are the ones that were to come. -/
structure Topped (n : Nat) (input input' : Input) : Prop where
  sound : Sound input'
  there : n ≤ input'.size - input'.offset
  same : input'.unread = input.unread
  steady : Steady input.source → Steady input'.source

theorem topUp_ends (sound : Sound input) :
    Fallible.Ends (topUp n input) (Topped n input) (· = .corrupted) := by
  unfold topUp
  dsimp only
  split
  case isFalse enough => exact ⟨sound, Nat.le_of_not_lt enough, rfl, id⟩
  case isTrue =>
    rw [Input.read, if_pos ⟨Nat.le_refl _, by have := sound.ordered; omega⟩, Fallible.ok_bind]
    split
    case h_1 => rfl
    case h_2 got source read =>
      split
      case isTrue => rfl
      case isFalse enough =>
        have room := fullReadFrom_length read
        rw [List.length_nil, Nat.zero_add] at room
        obtain ⟨sound', unread⟩ := sound.moved source rfl room
        refine ⟨sound', Nat.le_of_not_lt enough, ?_, ?_⟩
        · rw [unread, Input.unread, List.append_assoc, ← fullReadFrom_content read, List.nil_append]
        · intro steady
          obtain ⟨source', read', _, steady'⟩ :=
            steady.fullRead (bytebufferMax - (input.size - input.offset))
          rw [read] at read'
          cases read'
          exact steady'

/-- The next bytes, once `top_up` has made sure of them. -/
theorem Topped.read_ends {input' : Input} {α : Type} {next : List UInt8 → Except Stop α}
    {returns : α → Prop} (topped : Topped n input input')
    (ends : Fallible.Ends (next (input.unread.take n)) returns (· = .corrupted)) :
    Fallible.Ends (input'.read input'.offset n >>= next) returns (· = .corrupted) := by
  rw [topped.sound.read topped.there, topped.same, Fallible.ok_bind]
  exact ends

theorem skipText_eq (input : Input) : skipText input = (do
    let input' ← topUp 1 input
    let bytes ← input'.read input'.offset 1
    if bytes = [0] then .ok (input'.advance 1) else skipText (input'.advance 1)) := by
  rw [skipText]
  split
  next stop topped => rw [topped]; rfl
  next input' topped =>
    rw [topped, Fallible.ok_bind]
    split
    next stop read => rw [read]; rfl
    next bytes read => rw [read]; rfl

theorem skipText_ends (sound : Sound input) : Ends (skipText input) := by
  induction left : input.unread.length using Nat.strongRecOn generalizing input with
  | _ left ih =>
    rw [skipText_eq]
    apply (topUp_ends sound).bind
    intro input' topped
    apply topped.read_ends
    have sound' := topped.sound.advance topped.there
    split
    · exact sound'
    · apply ih _ _ sound' rfl
      have kept := topped.sound.kept_length
      have there := topped.there
      have some_left : 0 < input.unread.length := by
        rw [← topped.same, Input.unread, List.length_append]
        omega
      rw [topped.sound.advance_unread topped.there, List.length_drop, topped.same]
      omega

theorem skipTexts_ends (flags : UInt8) (sound : Sound input) : Ends (skipTexts flags input) := by
  induction flags, input using skipTexts.induct with
  | case1 flags input ih =>
    rw [skipTexts]
    apply (skipText_ends sound).bind
    intro input' sound'
    split
    case isTrue => exact sound'
    case isFalse both => exact ih input' both sound'

theorem skipExtra_ends (flags : UInt8) (sound : Sound input) : Ends (skipExtra flags input) := by
  unfold skipExtra
  split
  case isFalse => exact sound
  case isTrue =>
    apply (topUp_ends sound).bind
    intro lengthAt topped
    unfold bufferReadLeU16
    rw [bind_assoc]
    apply topped.read_ends
    apply (topUp_ends (topped.sound.advance topped.there)).bind
    intro extraAt topped
    exact topped.sound.advance topped.there

theorem discardTexts_ends (flags : UInt8) (sound : Sound input) :
    Ends (discardTexts flags input) := by
  unfold discardTexts
  split
  case isTrue => exact skipTexts_ends flags sound
  case isFalse => exact sound

theorem skipChecksum_ends (flags : UInt8) (sound : Sound input) :
    Ends (skipChecksum flags input) := by
  unfold skipChecksum
  split
  case isFalse => exact sound
  case isTrue =>
    apply (topUp_ends sound).bind
    intro input' topped
    exact topped.sound.advance topped.there

theorem checkFields_ends (header : List UInt8) (sound : Sound input) :
    Fallible.Ends (checkFields header input) (fun ended => Sound ended.2) (· = .corrupted) := by
  unfold checkFields
  split
  case isTrue => rfl
  case isFalse =>
    apply (skipExtra_ends _ sound).bind
    intro input soundExtra
    apply (discardTexts_ends _ soundExtra).bind
    intro input soundTexts
    apply (skipChecksum_ends _ soundTexts).bind
    intro input soundEnd
    exact soundEnd

/-- The buffer after it has been rewound. -/
def Input.rewound (input : Input) : Input :=
  { input with
    buffer := overwrite input.buffer 0
      ((input.buffer.drop input.offset).take (input.size - input.offset))
    offset := 0
    size := input.size - input.offset }

theorem Sound.rewound (sound : Sound input) :
    Sound input.rewound ∧ input.rewound.unread = input.unread := by
  have length := sound.kept_length
  have := sound.fits
  have := sound.full
  constructor
  · refine ⟨?_, Nat.zero_le _, by simp only [Input.rewound]; omega⟩
    simp only [Input.rewound]
    rw [overwrite_length (by omega), sound.full]
  · rw [Input.unread, Input.unread]
    simp only [Input.rewound, List.drop_zero, Nat.sub_zero]
    congr 1
    have front := overwrite_take input.buffer
      ((input.buffer.drop input.offset).take (input.size - input.offset)) 0 (Nat.zero_le _)
    rwa [Nat.zero_add, length] at front

theorem Sound.checkHeaderGzip (sound : Sound input) :
    checkHeaderGzip input = (do
      let input ← topUp 8 input.rewound
      let header ← input.read input.offset 8
      checkFields header (input.advance 8)) := by
  have ordered := sound.ordered
  have inside : input.offset ≤ input.offset ∧
      input.offset + (input.size - input.offset) ≤ input.size := by omega
  unfold Gunzip.checkHeaderGzip
  dsimp only
  rw [Input.read, if_pos inside]
  rfl

/-- No byte outside of what has been read into the buffer is looked at. -/
theorem checkHeaderGzip_ends (sound : Sound input) :
    Fallible.Ends (checkHeaderGzip input) (fun ended => Sound ended.2) (· = .corrupted) := by
  rw [sound.checkHeaderGzip]
  apply (topUp_ends sound.rewound.1).bind
  intro input' topped
  apply topped.read_ends
  exact checkFields_ends _ (topped.sound.advance topped.there)

end Busybox.Archival.Gunzip
