import Busybox.Archival.GzipHeader

/-!
# Gzip members with any of the optional fields
-/

namespace Busybox.Archival.Gunzip

open Reading

/-- A file name or a comment, without the NUL that ends it. -/
abbrev Text := {text : List UInt8 // (0 : UInt8) ∉ text}

/-- The header of a member, behind its magic number, with the fields that the format knows. -/
structure Member where
  ftext : Bool
  mtime : BitVec 32
  xfl : UInt8
  os : UInt8
  extra : Option {extra : List UInt8 // extra.length < 2 ^ 16}
  name : Option Text
  comment : Option Text
  crc16 : Option (UInt8 × UInt8)

/-- The `width` low bytes of a number, the lowest first. -/
def leBytes : Nat → Nat → List UInt8
  | 0, _ => []
  | width + 1, n => UInt8.ofNat n :: leBytes width (n / 256)

@[simp] theorem leBytes_length (width n : Nat) : (leBytes width n).length = width := by
  induction width generalizing n with
  | zero => rfl
  | succ width ih => rw [leBytes, List.length_cons, ih]

theorem leValue_leBytes (width n : Nat) (small : n < 256 ^ width) :
    leValue (leBytes width n) = n := by
  induction width generalizing n with
  | zero =>
    rw [Nat.pow_zero] at small
    exact (Nat.lt_one_iff.mp small).symm
  | succ width ih =>
    have high : n / 256 < 256 ^ width := by
      rw [Nat.div_lt_iff_lt_mul (by decide)]
      exact small
    rw [leBytes, leValue, ih _ high, UInt8.toNat_ofNat']
    exact Nat.mod_add_div n 256

namespace Member

/-- FTEXT, FHCRC, FEXTRA, FNAME and FCOMMENT. -/
def flagsOf (ftext fhcrc fextra fname fcomment : Bool) : UInt8 :=
  let flag (bit : UInt8) (present : Bool) := if present then bit else 0
  flag 0x01 ftext ||| flag 0x02 fhcrc ||| flag 0x04 fextra ||| flag 0x08 fname |||
    flag 0x10 fcomment

def flags (member : Member) : UInt8 :=
  flagsOf member.ftext member.crc16.isSome member.extra.isSome member.name.isSome
    member.comment.isSome

def extraField (member : Member) : List UInt8 :=
  match member.extra with
  | none => []
  | some extra => leBytes 2 extra.1.length ++ extra.1

def textField : Option Text → List UInt8
  | none => []
  | some text => text.1 ++ [0]

def crcField (member : Member) : List UInt8 :=
  match member.crc16 with
  | none => []
  | some (low, high) => [low, high]

/-- The part that every header has: the method, the flags, the time and two bytes that are
not looked at. -/
def fixed (member : Member) : List UInt8 :=
  8 :: member.flags :: (leBytes 4 member.mtime.toNat ++ [member.xfl, member.os])

def encode (member : Member) : List UInt8 :=
  member.fixed ++ (member.extraField ++ (textField member.name ++ (textField member.comment ++
    member.crcField)))

theorem flagsOf_bits : ∀ ftext fhcrc fextra fname fcomment : Bool,
    let flags := flagsOf ftext fhcrc fextra fname fcomment
    (flags &&& 0x04 = 0 ↔ fextra = false) ∧ (flags &&& 0x02 = 0 ↔ fhcrc = false) ∧
      (flags &&& 0x18 = 0 ↔ fname = false ∧ fcomment = false) ∧
      (flags &&& 0x18 = 0x18 ↔ fname = true ∧ fcomment = true) := by
  decide

variable (member : Member)

theorem flags_extra : member.flags &&& 0x04 = 0 ↔ member.extra = none := by
  rw [← Option.isSome_eq_false_iff.trans Option.isNone_iff_eq_none]
  exact (flagsOf_bits _ _ _ _ _).1

theorem flags_crc16 : member.flags &&& 0x02 = 0 ↔ member.crc16 = none := by
  rw [← Option.isSome_eq_false_iff.trans Option.isNone_iff_eq_none]
  exact (flagsOf_bits _ _ _ _ _).2.1

theorem flags_texts :
    member.flags &&& 0x18 = 0 ↔ member.name = none ∧ member.comment = none := by
  rw [← Option.isSome_eq_false_iff.trans Option.isNone_iff_eq_none,
    ← Option.isSome_eq_false_iff.trans Option.isNone_iff_eq_none]
  exact (flagsOf_bits _ _ _ _ _).2.2.1

theorem flags_both :
    member.flags &&& 0x18 = 0x18 ↔ member.name.isSome ∧ member.comment.isSome :=
  (flagsOf_bits _ _ _ _ _).2.2.2

end Member

/-! ## A step at a time -/

variable {input : Input} {front rest bytes : List UInt8} {n : Nat}

/-- These bytes are to come, and no read fails. -/
structure Holds (input : Input) (bytes : List UInt8) : Prop where
  sound : Sound input
  steady : Steady input.source
  unread : input.unread = bytes

theorem Holds.topUp (holds : Holds input bytes) (long : n ≤ bytes.length)
    (fits : n ≤ bytebufferMax) : ∃ input', topUp n input = .ok input' ∧ Topped n input input' := by
  have ends := topUp_ends (n := n) holds.sound
  cases topped : Gunzip.topUp n input with
  | ok input' =>
    rw [topped] at ends
    exact ⟨input', rfl, ends⟩
  | error stop =>
    exfalso
    have ordered := holds.sound.ordered
    have kept := holds.sound.kept_length
    have unread := congrArg List.length holds.unread
    obtain ⟨source', read, -, -⟩ :=
      holds.steady.fullRead (bytebufferMax - (input.size - input.offset))
    unfold Gunzip.topUp at topped
    dsimp only at topped
    split at topped
    · rw [Input.read, if_pos ⟨Nat.le_refl _, by omega⟩, Fallible.ok_bind, read] at topped
      dsimp only at topped
      rw [Input.unread, List.length_append] at unread
      rw [if_neg] at topped
      · cases topped
      · rw [List.length_take]
        omega
    · cases topped

/-- A field that fits into the buffer is read and skipped. -/
theorem Holds.skip (holds : Holds input (front ++ rest)) (fits : front.length ≤ bytebufferMax) :
    ∃ input', Gunzip.topUp front.length input = .ok input' ∧
      input'.read input'.offset front.length = .ok front ∧
      Holds (input'.advance front.length) rest := by
  obtain ⟨input', topped, refilled⟩ := holds.topUp (by simp) fits
  have unread := refilled.same.trans holds.unread
  refine ⟨input', topped, ?_, refilled.sound.advance refilled.there, refilled.steady holds.steady,
    ?_⟩
  · rw [refilled.sound.read refilled.there, unread, List.take_left]
  · rw [refilled.sound.advance_unread refilled.there, unread, List.drop_left]

/-- A field that does not fit into the buffer is refused. -/
theorem topUp_beyond (sound : Sound input) (long : bytebufferMax < n) :
    topUp n input = .error .corrupted := by
  have ends := topUp_ends (n := n) sound
  cases topped : topUp n input with
  | ok input' =>
    rw [topped] at ends
    have := ends.there
    have := ends.sound.fits
    omega
  | error stop =>
    rw [topped] at ends
    exact congrArg _ ends

/-- The step succeeds, and these bytes are left. -/
def Leaves (step : Except Stop Input) (rest : List UInt8) : Prop :=
  ∃ input', step = .ok input' ∧ Holds input' rest

theorem skipText_leaves (text : List UInt8) (noNul : (0 : UInt8) ∉ text)
    (holds : Holds input (text ++ [0] ++ rest)) : Leaves (skipText input) rest := by
  induction text generalizing input with
  | nil =>
    have last : Holds input ([0] ++ rest) := holds
    obtain ⟨input', topped, read, after⟩ := last.skip (by decide)
    refine ⟨input'.advance 1, ?_, after⟩
    rw [skipText_eq, show (1 : Nat) = [(0 : UInt8)].length from rfl, topped, Fallible.ok_bind, read,
      Fallible.ok_bind, if_pos rfl]
  | cons c text ih =>
    have same : Holds input ([c] ++ (text ++ [0] ++ rest)) := by simpa using holds
    obtain ⟨input', topped, read, after⟩ := same.skip (show [c].length ≤ _ by
      rw [List.length_singleton]; decide)
    rw [List.mem_cons, not_or] at noNul
    obtain ⟨ended, skipped, left⟩ := ih noNul.2 after
    refine ⟨ended, ?_, left⟩
    have other : ¬ [c] = [0] := fun same => noNul.1 (List.cons.inj same).1.symm
    rw [skipText_eq]
    rw [List.length_singleton] at topped read skipped
    rw [topped, Fallible.ok_bind, read, Fallible.ok_bind, if_neg other, skipped]

theorem skipExtra_leaves (member : Member)
    (fits : ∀ extra ∈ member.extra, extra.1.length ≤ bytebufferMax)
    (holds : Holds input (member.extraField ++ rest)) :
    Leaves (skipExtra member.flags input) rest := by
  unfold skipExtra
  cases found : member.extra with
  | none =>
    rw [Member.extraField, found] at holds
    rw [if_neg (not_not_intro (member.flags_extra.mpr found))]
    exact ⟨input, rfl, holds⟩
  | some extra =>
    have there : member.flags &&& 0x04 ≠ 0 := by rw [Ne, member.flags_extra, found]; nofun
    rw [Member.extraField, found, List.append_assoc] at holds
    obtain ⟨lengthAt, topped, read, behind⟩ := holds.skip (by rw [leBytes_length]; decide)
    rw [leBytes_length] at topped read behind
    obtain ⟨extraAt, refilled, -, left⟩ := behind.skip (fits extra found)
    refine ⟨_, ?_, left⟩
    rw [if_pos there, topped, Fallible.ok_bind, bufferReadLeU16, read]
    simp only [Fallible.ok_bind]
    rw [leValue_leBytes 2 _ extra.2, refilled, Fallible.ok_bind]

/-- An extra field that is longer than the buffer is refused. -/
theorem skipExtra_beyond (member : Member) {extra : {extra : List UInt8 // extra.length < 2 ^ 16}}
    (found : member.extra = some extra) (long : bytebufferMax < extra.1.length)
    (holds : Holds input (member.extraField ++ rest)) :
    skipExtra member.flags input = .error .corrupted := by
  have there : member.flags &&& 0x04 ≠ 0 := by rw [Ne, member.flags_extra, found]; nofun
  rw [Member.extraField, found, List.append_assoc] at holds
  obtain ⟨lengthAt, topped, read, behind⟩ := holds.skip (by rw [leBytes_length]; decide)
  rw [leBytes_length] at topped read behind
  rw [skipExtra, if_pos there, topped, Fallible.ok_bind, bufferReadLeU16, read]
  simp only [Fallible.ok_bind]
  rw [leValue_leBytes 2 _ extra.2, topUp_beyond behind.sound long]
  rfl

/-- Where only one of the texts is there, it is the only one that is skipped. -/
theorem discardTexts_one (member : Member) {text : Text}
    (some_there : member.flags &&& 0x18 ≠ 0) (one : member.flags &&& 0x18 ≠ 0x18)
    (holds : Holds input (Member.textField (some text) ++ rest)) :
    Leaves (discardTexts member.flags input) rest := by
  obtain ⟨left, skipped, behind⟩ := skipText_leaves text.1 text.2 holds
  refine ⟨left, ?_, behind⟩
  rw [discardTexts, if_pos some_there, skipTexts, skipped, Fallible.ok_bind, if_pos one]

theorem discardTexts_leaves (member : Member)
    (holds : Holds input
      (Member.textField member.name ++ (Member.textField member.comment ++ rest))) :
    Leaves (discardTexts member.flags input) rest := by
  have absent := member.flags_texts
  have both := member.flags_both
  cases name : member.name with
  | none =>
    cases comment : member.comment with
    | none =>
      rw [name, comment] at holds
      rw [discardTexts, if_neg (not_not_intro (absent.mpr ⟨name, comment⟩))]
      exact ⟨input, rfl, holds⟩
    | some text =>
      rw [name, comment] at holds absent both
      exact discardTexts_one member (by simp [absent]) (by simp [both]) holds
  | some text =>
    cases comment : member.comment with
    | none =>
      rw [name, comment] at holds absent both
      exact discardTexts_one member (by simp [absent]) (by simp [both]) holds
    | some more =>
      rw [name, comment] at holds absent both
      obtain ⟨first, skipped, between⟩ := skipText_leaves text.1 text.2 holds
      obtain ⟨left, skipped', behind⟩ := skipText_leaves more.1 more.2 between
      refine ⟨left, ?_, behind⟩
      -- The second turn has the bits of both texts cleared, so it is the last one.
      rw [discardTexts, if_pos (by simp [absent]), skipTexts, skipped, Fallible.ok_bind,
        if_neg (by simp [both]), skipTexts, skipped', Fallible.ok_bind, texts_cleared,
        if_pos (by decide)]

theorem skipChecksum_leaves (member : Member) (holds : Holds input (member.crcField ++ rest)) :
    Leaves (skipChecksum member.flags input) rest := by
  unfold skipChecksum
  cases found : member.crc16 with
  | none =>
    rw [Member.crcField, found] at holds
    rw [if_neg (not_not_intro (member.flags_crc16.mpr found))]
    exact ⟨input, rfl, holds⟩
  | some crc =>
    have there : member.flags &&& 0x02 ≠ 0 := by rw [Ne, member.flags_crc16, found]; nofun
    have two : [crc.1, crc.2].length = 2 := rfl
    rw [Member.crcField, found] at holds
    have fits : [crc.1, crc.2].length ≤ bytebufferMax := by rw [two]; decide
    obtain ⟨input', topped, -, behind⟩ := holds.skip fits
    refine ⟨_, ?_, behind⟩
    rw [two] at topped
    rw [if_pos there, topped]
    rfl

/-! ## The whole header -/

/-- What the fixed part says, and how `check_header_gzip` begins. -/
theorem checkHeaderGzip_fixed (member : Member)
    (holds : Holds input (member.fixed ++ rest)) :
    ∃ behind, Holds behind rest ∧ checkHeaderGzip input = (do
      let input ← skipExtra member.flags behind
      let input ← discardTexts member.flags input
      let input ← skipChecksum member.flags input
      .ok (member.mtime.toNat, input)) := by
  have length : member.fixed.length = 8 := by simp [Member.fixed]
  have rewound : Holds input.rewound (member.fixed ++ rest) :=
    ⟨holds.sound.rewound.1, holds.steady, holds.sound.rewound.2.trans holds.unread⟩
  obtain ⟨input', topped, read, behind⟩ := rewound.skip (by rw [length]; decide)
  rw [length] at topped read behind
  refine ⟨_, behind, ?_⟩
  have time : leValue ((member.fixed.drop 2).take 4) = member.mtime.toNat := by
    rw [Member.fixed, List.drop_succ_cons, List.drop_succ_cons, List.drop_zero,
      List.take_left' (leBytes_length _ _), leValue_leBytes 4 _ member.mtime.isLt]
  rw [holds.sound.checkHeaderGzip, topped, Fallible.ok_bind, read, Fallible.ok_bind, checkFields,
    if_neg (by simp [Member.fixed]), time]
  rfl

theorem checkHeaderGzip_leaves (member : Member)
    (fits : ∀ extra ∈ member.extra, extra.1.length ≤ bytebufferMax)
    (holds : Holds input (member.encode ++ rest)) :
    ∃ input', checkHeaderGzip input = .ok (member.mtime.toNat, input') ∧ Holds input' rest := by
  rw [Member.encode, List.append_assoc] at holds
  obtain ⟨behind, left, begins⟩ := checkHeaderGzip_fixed member holds
  rw [List.append_assoc, List.append_assoc, List.append_assoc] at left
  obtain ⟨texts, skipped, left⟩ := skipExtra_leaves member fits left
  obtain ⟨checksum, discarded, left⟩ := discardTexts_leaves member left
  obtain ⟨ended, checked, left⟩ := skipChecksum_leaves member left
  refine ⟨ended, ?_, left⟩
  rw [begins, skipped, Fallible.ok_bind, discarded, Fallible.ok_bind, checked, Fallible.ok_bind]

theorem checkHeaderGzip_beyond (member : Member)
    {extra : {extra : List UInt8 // extra.length < 2 ^ 16}} (found : member.extra = some extra)
    (long : bytebufferMax < extra.1.length) (holds : Holds input (member.encode ++ rest)) :
    checkHeaderGzip input = .error .corrupted := by
  rw [Member.encode, List.append_assoc] at holds
  obtain ⟨behind, left, begins⟩ := checkHeaderGzip_fixed member holds
  rw [List.append_assoc] at left
  rw [begins, skipExtra_beyond member found long left]
  rfl

/-- The input as `unpack_gz_stream` begins with it. -/
def fresh (source : Source) : Input := ⟨List.replicate bytebufferMax 0, 0, 0, source⟩

theorem fresh_sound (source : Source) : Sound (fresh source) :=
  ⟨List.length_replicate, Nat.le_refl 0, Nat.zero_le _⟩

theorem fresh_unread (bytes : List UInt8) : (fresh [.bytes bytes]).unread = bytes := by
  simp [fresh, Input.unread]

/-- A header with nothing but an extra field of some length. -/
def onlyExtra (length : Nat) (short : length < 2 ^ 16) : Member where
  ftext := false
  mtime := 0
  xfl := 0
  os := 3
  extra := some ⟨List.replicate length 0, by rw [List.length_replicate]; exact short⟩
  name := none
  comment := none
  crc16 := none

theorem onlyExtra_steady (length : Nat) (short : length < 2 ^ 16) (rest : List UInt8) :
    Steady [.bytes ((onlyExtra length short).encode ++ rest)] := by
  intro arrival inside
  rw [List.mem_singleton] at inside
  exact ⟨8, _, inside⟩

/-- No read is outside of the buffered bytes, and a header is skipped to the first byte
behind it exactly if its extra field is not longer than the buffer. -/
theorem checkHeaderGzip_skips_iff (sound : Sound input) :
    checkHeaderGzip input ≠ .error .outside ∧
      ∀ member rest, Steady input.source → input.unread = Member.encode member ++ rest →
        ((∃ input', checkHeaderGzip input = .ok (member.mtime.toNat, input') ∧
            Sound input' ∧ input'.unread = rest) ↔
          ∀ extra ∈ member.extra, extra.1.length ≤ bytebufferMax) := by
  constructor
  · have ends := checkHeaderGzip_ends sound
    intro outside
    rw [outside] at ends
    cases ends
  · intro member rest steady unread
    have holds : Holds input (member.encode ++ rest) := ⟨sound, steady, unread⟩
    constructor
    · rintro ⟨input', succeeds, -, -⟩ extra found
      apply Nat.le_of_not_lt
      intro long
      rw [checkHeaderGzip_beyond member found long holds] at succeeds
      cases succeeds
    · intro fits
      obtain ⟨input', succeeds, left⟩ := checkHeaderGzip_leaves member fits holds
      exact ⟨input', succeeds, left.sound, left.unread⟩

/-- An extra field that fills the buffer to its last byte. -/
theorem checkHeaderGzip_skips_full :
    let member := onlyExtra 16384 (by decide)
    let input := fresh [.bytes (member.encode ++ [3, 0])]
    Sound input ∧ ∃ input', checkHeaderGzip input = .ok (0, input') ∧ Sound input' ∧
      input'.unread = [3, 0] := by
  intro member input
  refine ⟨fresh_sound _, ?_⟩
  apply ((checkHeaderGzip_skips_iff (fresh_sound _)).2 member [3, 0]
    (onlyExtra_steady 16384 _ _) (fresh_unread _)).mpr
  rintro extra found
  obtain rfl := Option.some.inj found
  rw [List.length_replicate]
  exact Nat.le_refl _

/-- An extra field of one byte more is refused. -/
theorem checkHeaderGzip_refuses :
    ¬ ∀ input, Sound input → checkHeaderGzip input ≠ .error .outside ∧
      ∀ member rest, Steady input.source → input.unread = Member.encode member ++ rest →
        ∃ input', checkHeaderGzip input = .ok (member.mtime.toNat, input') ∧ Sound input' ∧
          input'.unread = rest := by
  intro skips
  let member := onlyExtra 16385 (by decide)
  have sound := fresh_sound [.bytes (member.encode ++ [3, 0])]
  have steady := onlyExtra_steady 16385 (by decide) [3, 0]
  have unread := fresh_unread (member.encode ++ [3, 0])
  obtain ⟨input', succeeds, -, -⟩ := (skips _ sound).2 member [3, 0] steady unread
  have long : bytebufferMax < (List.replicate 16385 (0 : UInt8)).length := by
    rw [List.length_replicate]
    decide
  rw [checkHeaderGzip_beyond member rfl long ⟨sound, steady, unread⟩] at succeeds
  cases succeeds

end Busybox.Archival.Gunzip
