import Mathlib
import Busybox.Udhcp.Options

/-!
# What the search for an option reads

The loop of `udhcp_get_option` once more, one pass after another, with an error for a byte outside
the field that is walked, and with the overload fields that it went to.
-/

namespace Busybox.Udhcp.Options

/-- Where the loop stands; `walked` is ghost: the overload fields it went to so far. -/
structure Walk where
  field : Field
  optionptr : Nat
  rem : Int
  overload : Nat
  walked : List Field
deriving DecidableEq, Repr

/-- A byte outside the field that is walked. -/
structure OutsideField where
  field : Field
  index : Nat
deriving DecidableEq, Repr

/-- A byte of a field. -/
def Packet.read (packet : Packet) (field : Field) (index : Nat) : Except OutsideField UInt8 :=
  match (packet.field field)[index]? with
  | some byte => .ok byte
  | none => .error ⟨field, index⟩

/-- One pass of the loop: where it stands then, or what it ends with. -/
def walkPass (packet : Packet) (code : Int) (w : Walk) : Except OutsideField (Walk ⊕ Lookup) :=
  if w.rem ≤ 0 then .ok (.inr .malformed)
  else do
    let optCodeByte ← packet.read w.field (w.optionptr + optCode)
    if optCodeByte = dhcpPadding then
      pure (.inl { w with optionptr := w.optionptr + 1, rem := w.rem - 1 })
    else if optCodeByte = dhcpEnd then
      if w.overload &&& fileField101 = fileField then
        pure (.inl ⟨.file, 0, 128, w.overload ||| fileField101, .file :: w.walked⟩)
      else if w.overload &&& snameField101 = snameField then
        pure (.inl ⟨.sname, 0, 64, w.overload ||| snameField101, .sname :: w.walked⟩)
      else pure (.inr .notFound)
    else if w.rem ≤ optLen then pure (.inr .malformed)
    else do
      let optLenByte ← packet.read w.field (w.optionptr + optLen)
      let len := 2 + optLenByte.toNat
      if w.rem - len < 0 then pure (.inr .malformed)
      else if optCodeByte.toNat = code then
        if optLenByte = 0 then pure (.inr .malformed)
        else pure (.inr (.found w.field (w.optionptr + optData)))
      else if optCodeByte = dhcpOptionOverload ∧ 3 ≤ len then do
        let data ← packet.read w.field (w.optionptr + optData)
        pure (.inl { w with
          optionptr := w.optionptr + len, rem := w.rem - len
          overload := w.overload ||| data.toNat })
      else pure (.inl { w with optionptr := w.optionptr + len, rem := w.rem - len })

/-- So many passes of the loop: what it ended with and the overload fields it went to, or nothing
when it goes on. -/
def walkFrom (packet : Packet) (code : Int) :
    Nat → Walk → Except OutsideField (Option (Lookup × List Field))
  | 0, _ => .ok none
  | passes + 1, w => do
    match ← walkPass packet code w with
    | .inl next => walkFrom packet code passes next
    | .inr result => pure (some (result, w.walked))

/-- The loop before its first pass. -/
def walkStart (packet : Packet) : Walk := ⟨.options, 0, packet.options.val.length, 0, []⟩

section Walk

variable {packet : Packet} {code : Int} {w : Walk}

/-- The walk is inside its field, and each overload field was gone to as often as its high bit
says. -/
structure Inside (packet : Packet) (w : Walk) : Prop where
  left : 0 ≤ w.rem
  ends : w.optionptr + w.rem = (packet.field w.field).length
  file : w.walked.count .file = (w.overload.testBit 8).toNat
  sname : w.walked.count .sname = (w.overload.testBit 9).toNat

/-- The bytes that are left to look at, in this field and in those not yet looked at. -/
def Walk.measure (w : Walk) : Nat :=
  w.rem.toNat + 129 * (!w.overload.testBit 8).toNat + 65 * (!w.overload.testBit 9).toNat

/-- What is read less than `rem` bytes on is in the field. -/
theorem Inside.read_bind {α : Type} (inside : Inside packet w) (index : Nat) (less : index < w.rem)
    (next : UInt8 → Except OutsideField α) :
    (packet.read w.field (w.optionptr + index) >>= next) =
      next (packet.byte w.field (w.optionptr + index)) := by
  have room : w.optionptr + index < (packet.field w.field).length := by
    have := inside.ends
    omega
  rw [Packet.read, Packet.byte, List.getD_eq_getElem?_getD, List.getElem?_eq_getElem room]
  rfl

/-- The bits that an option byte is ORed into are not the high ones. -/
theorem testBit_or_byte {overload bit : Nat} (data : UInt8) (high : 8 ≤ bit) :
    (overload ||| data.toNat).testBit bit = overload.testBit bit := by
  have clear : data.toNat.testBit bit = false := Nat.testBit_lt_two_pow
    (Nat.lt_of_lt_of_le data.toNat_lt (Nat.pow_le_pow_right Nat.two_pos high))
  rw [Nat.testBit_or, clear, Bool.or_false]

/-- A pointer that is returned has its length byte and all of its data in the field. -/
def Returned (packet : Packet) (result : Lookup) : Prop :=
  ∀ field optionptr, result = .found field optionptr → optData ≤ optionptr ∧
    packet.byte field (optionptr - optData + optLen) ≠ 0 ∧
    optionptr + (packet.byte field (optionptr - optData + optLen)).toNat ≤
      (packet.field field).length

/-- The rest of the search from where a walk stands. -/
def Walk.search (packet : Packet) (code : Int) (w : Walk) : Lookup :=
  getOptionFrom packet code w.field w.optionptr w.rem w.overload

/-- The walk goes on to an overload field that it has not looked at. -/
theorem Inside.enter_file (inside : Inside packet w)
    (untouched : w.overload &&& fileField101 = fileField) :
    Inside packet ⟨.file, 0, 128, w.overload ||| fileField101, .file :: w.walked⟩ ∧
      Walk.measure ⟨.file, 0, 128, w.overload ||| fileField101, .file :: w.walked⟩ < w.measure := by
  have clear : w.overload.testBit 8 = false := clear_of_open untouched (by decide) (by decide)
  have set : (w.overload ||| fileField101).testBit 8 = true := by
    rw [Nat.testBit_or, clear]
    decide
  have other : (w.overload ||| fileField101).testBit 9 = w.overload.testBit 9 := by
    rw [Nat.testBit_or, show fileField101.testBit 9 = false by decide, Bool.or_false]
  have size : (packet.field .file).length = 128 := packet.file.2
  constructor
  · constructor
    · exact Int.natCast_nonneg _
    · rw [size]
      rfl
    · rw [List.count_cons_self, inside.file, set, clear]
      rfl
    · rw [List.count_cons_of_ne (by decide), inside.sname, other]
  · have := inside.left
    simp only [Walk.measure, set, other, clear, Bool.not_true, Bool.not_false, Bool.toNat_true,
      Bool.toNat_false]
    omega

theorem Inside.enter_sname (inside : Inside packet w)
    (untouched : w.overload &&& snameField101 = snameField) :
    Inside packet ⟨.sname, 0, 64, w.overload ||| snameField101, .sname :: w.walked⟩ ∧
      Walk.measure ⟨.sname, 0, 64, w.overload ||| snameField101, .sname :: w.walked⟩ <
        w.measure := by
  have clear : w.overload.testBit 9 = false := clear_of_open untouched (by decide) (by decide)
  have set : (w.overload ||| snameField101).testBit 9 = true := by
    rw [Nat.testBit_or, clear]
    decide
  have other : (w.overload ||| snameField101).testBit 8 = w.overload.testBit 8 := by
    rw [Nat.testBit_or, show snameField101.testBit 8 = false by decide, Bool.or_false]
  have size : (packet.field .sname).length = 64 := packet.sname.2
  constructor
  · constructor
    · exact Int.natCast_nonneg _
    · rw [size]
      rfl
    · rw [List.count_cons_of_ne (by decide), inside.file, other]
    · rw [List.count_cons_self, inside.sname, set, clear]
      rfl
  · have := inside.left
    simp only [Walk.measure, set, other, clear, Bool.not_true, Bool.not_false, Bool.toNat_true,
      Bool.toNat_false]
    omega

/-- The walk goes on in its field. -/
theorem Inside.advance (inside : Inside packet w) (len overload : Nat) (some : 0 < len)
    (room : len ≤ w.rem) (file : overload.testBit 8 = w.overload.testBit 8)
    (sname : overload.testBit 9 = w.overload.testBit 9) :
    Inside packet { w with
      optionptr := w.optionptr + len, rem := w.rem - len, overload := overload } ∧
    Walk.measure { w with
      optionptr := w.optionptr + len, rem := w.rem - len, overload := overload } < w.measure := by
  have ends := inside.ends
  refine ⟨⟨?_, ?_, ?_, ?_⟩, ?_⟩
  · dsimp only
    omega
  · dsimp only
    omega
  · rw [inside.file, file]
  · rw [inside.sname, sname]
  · simp only [Walk.measure, file, sname]
    omega

/-- One pass ends the search, or goes on with the rest of it. -/
theorem walkPass_cases (inside : Inside packet w) (code : Int) :
    (walkPass packet code w = .ok (.inr (w.search packet code)) ∧
      Returned packet (w.search packet code)) ∨
    ∃ next, walkPass packet code w = .ok (.inl next) ∧ Inside packet next ∧
      next.measure < w.measure ∧ w.search packet code = next.search packet code := by
  rw [walkPass, Walk.search, getOptionFrom]
  by_cases none : w.rem ≤ 0
  · rw [if_pos none, if_pos none]
    exact .inl ⟨rfl, by rintro _ _ ⟨⟩⟩
  rw [if_neg none, if_neg none, inside.read_bind optCode (not_le.mp none)]
  by_cases padding : packet.byte w.field (w.optionptr + optCode) = dhcpPadding
  · rw [if_pos padding, if_pos padding]
    have next := inside.advance 1 w.overload Nat.one_pos (by omega) rfl rfl
    exact .inr ⟨_, rfl, next.1, next.2, rfl⟩
  rw [if_neg padding, if_neg padding]
  by_cases marker : packet.byte w.field (w.optionptr + optCode) = dhcpEnd
  · rw [if_pos marker, if_pos marker]
    by_cases file : w.overload &&& fileField101 = fileField
    · rw [if_pos file, if_pos file]
      exact .inr ⟨_, rfl, (inside.enter_file file).1, (inside.enter_file file).2, rfl⟩
    rw [if_neg file, if_neg file]
    by_cases sname : w.overload &&& snameField101 = snameField
    · rw [if_pos sname, if_pos sname]
      exact .inr ⟨_, rfl, (inside.enter_sname sname).1, (inside.enter_sname sname).2, rfl⟩
    · rw [if_neg sname, if_neg sname]
      exact .inl ⟨rfl, by rintro _ _ ⟨⟩⟩
  rw [if_neg marker, if_neg marker]
  by_cases short : w.rem ≤ optLen
  · rw [if_pos short, if_pos short]
    exact .inl ⟨rfl, by rintro _ _ ⟨⟩⟩
  rw [if_neg short, if_neg short, inside.read_bind optLen (not_le.mp short)]
  dsimp only
  generalize length : packet.byte w.field (w.optionptr + optLen) = lenByte
  by_cases cut : w.rem - ((2 + lenByte.toNat : Nat) : Int) < 0
  · rw [if_pos cut, if_pos cut]
    exact .inl ⟨rfl, by rintro _ _ ⟨⟩⟩
  rw [if_neg cut, if_neg cut]
  by_cases same : ((packet.byte w.field (w.optionptr + optCode)).toNat : Int) = code
  · rw [if_pos same, if_pos same]
    by_cases zero : lenByte = 0
    · rw [if_pos zero, if_pos zero]
      exact .inl ⟨rfl, by rintro _ _ ⟨⟩⟩
    · rw [if_neg zero, if_neg zero]
      refine .inl ⟨rfl, ?_⟩
      rintro _ _ ⟨⟩
      have ends := inside.ends
      rw [Nat.add_sub_cancel, length]
      exact ⟨Nat.le_add_left .., zero, by simp only [optData]; omega⟩
  rw [if_neg same, if_neg same]
  by_cases overloads : packet.byte w.field (w.optionptr + optCode) = dhcpOptionOverload ∧
      3 ≤ 2 + lenByte.toNat
  · have third : (optData : Int) < w.rem := by
      simp only [optData]
      omega
    rw [if_pos overloads, if_pos overloads, inside.read_bind optData third]
    have next := inside.advance (2 + lenByte.toNat) _ (by omega) (by omega)
      (testBit_or_byte (packet.byte w.field (w.optionptr + optData)) (Nat.le_refl 8))
      (testBit_or_byte (packet.byte w.field (w.optionptr + optData)) (by decide : 8 ≤ 9))
    exact .inr ⟨_, rfl, next.1, next.2, rfl⟩
  · rw [if_neg overloads, if_neg overloads]
    have next := inside.advance (2 + lenByte.toNat) w.overload (by omega) (by omega) rfl rfl
    exact .inr ⟨_, rfl, next.1, next.2, rfl⟩

theorem Inside.once (inside : Inside packet w) :
    w.walked.count .file ≤ 1 ∧ w.walked.count .sname ≤ 1 := by
  rw [inside.file, inside.sname]
  exact ⟨Bool.toNat_le _, Bool.toNat_le _⟩

/-- However many passes there are, none reads outside its field, and what they end with is what
the search finds. -/
theorem walkFrom_cases (inside : Inside packet w) (code : Int) (passes : Nat) :
    (walkFrom packet code passes w = .ok none ∧ passes ≤ w.measure) ∨
    ∃ walked, walkFrom packet code passes w = .ok (some (w.search packet code, walked)) ∧
      (walked.count .file ≤ 1 ∧ walked.count .sname ≤ 1) ∧ Returned packet (w.search packet code) := by
  induction passes generalizing w with
  | zero => exact .inl ⟨rfl, Nat.zero_le _⟩
  | succ passes ih =>
    rcases walkPass_cases inside code with ⟨ends, returned⟩ | ⟨next, goes, there, less, same⟩
    · refine .inr ⟨w.walked, ?_, inside.once, returned⟩
      rw [walkFrom, ends]
      rfl
    · have step : walkFrom packet code (passes + 1) w = walkFrom packet code passes next := by
        rw [walkFrom, goes]
        rfl
      rw [step, same]
      exact (ih there).imp_left fun more => ⟨more.1, by omega⟩

theorem walkStart_inside (packet : Packet) : Inside packet (walkStart packet) where
  left := Int.natCast_nonneg _
  ends := Int.zero_add _
  file := (congrArg Bool.toNat (Nat.zero_testBit 8)).symm
  sname := (congrArg Bool.toNat (Nat.zero_testBit 9)).symm

/-- Every search ends, having read only bytes of the field it was walking and gone to each overload
field at most once; a pointer that it returns has its length byte and all of its data there. -/
theorem udhcpGetOption_walks (packet : Packet) (code : Int) :
    (∀ passes, ∃ result, walkFrom packet code passes (walkStart packet) = .ok result) ∧
    ∃ passes walked,
      walkFrom packet code passes (walkStart packet) = .ok (some (udhcpGetOption packet code, walked)) ∧
      walked.count .file ≤ 1 ∧ walked.count .sname ≤ 1 ∧
      Returned packet (udhcpGetOption packet code) := by
  have start := walkStart_inside packet
  constructor
  · intro passes
    rcases walkFrom_cases start code passes with ⟨goes, -⟩ | ⟨walked, ends, -⟩
    · exact ⟨none, goes⟩
    · exact ⟨_, ends⟩
  · rcases walkFrom_cases start code ((walkStart packet).measure + 1) with
      ⟨-, more⟩ | ⟨walked, ends, once, returned⟩
    · exact absurd more (Nat.not_succ_le_self _)
    · exact ⟨_, walked, ends, once.1, once.2, returned⟩

end Walk

end Busybox.Udhcp.Options
