import Busybox.Udhcp.Optset

/-!
# Keeping a set of options

A set of options stands in the order of its codes, each code once, and a list option has
all that was attached to it. For DHCPv4 that is kept by every run. For DHCPv6 the code has
two bytes, of which `udhcp_find_option` reads the high one, so that nothing but the code
zero is found.
-/

namespace Busybox.Udhcp.Optset

open Memory SortedTable
open Options (optCode optLen optData)

/-! ## Blocks -/

variable {data : Block UInt8} {value : Text}

theorem byteAt_append {front back : Block UInt8} {i : Nat} (inside : i < front.length) :
    byteAt (front ++ back) i = byteAt front i := by
  simp only [byteAt, List.getD_eq_getElem?_getD, List.getElem?_append_left inside]

theorem byteAt_realloc {size i : Nat} (kept : i < size) :
    byteAt (realloc data size) i = byteAt data i := by
  by_cases inside : i < data.length
  · rw [realloc, byteAt_append (by rw [List.length_take]; omega)]
    simp only [byteAt, List.getD_eq_getElem?_getD, List.getElem?_take, if_pos kept]
  · rw [realloc, List.take_of_length_le (by omega)]
    simp only [byteAt, List.getD_eq_getElem?_getD, List.getElem?_append_right (Nat.not_lt.mp inside),
      List.getElem?_replicate, List.getElem?_eq_none (Nat.not_lt.mp inside)]
    split <;> rfl

/-- A `memcpy` changes nothing in front of its target. -/
theorem byteAt_memcpy {offset i : Nat} (before : i < offset) (inside : i < data.length) :
    byteAt (memcpy data offset value) i = byteAt data i := by
  rw [memcpy, List.append_assoc, byteAt_append (by rw [List.length_take]; omega)]
  simp only [byteAt, List.getD_eq_getElem?_getD, List.getElem?_take, if_pos before]

theorem length_realloc (data : Block UInt8) (size : Nat) : (realloc data size).length = size := by
  simp [realloc]
  omega

theorem length_memcpy {offset : Nat} (fits : offset + value.length ≤ data.length) :
    (memcpy data offset value).length = data.length := by
  simp [memcpy]
  omega

/-- Adding to an option keeps its first byte. -/
theorem codeByte_addTo (value : Text) (data : Block UInt8) :
    codeByte (addTo value data) = codeByte data := by
  unfold addTo codeByte
  simp only
  split
  · have size := length_realloc data (optData + 1 + (byteAt data optLen).toNat + value.length)
    have wide : optCode < optData + 1 + (byteAt data optLen).toNat + value.length := by
      simp only [optCode, optData]
      omega
    rw [byteAt_memcpy (by decide) (by rw [length_memcpy (by rw [size]; omega), size]; exact wide),
      byteAt_memcpy (by simp only [optCode, optData]; omega) (by rw [size]; exact wide),
      byteAt_realloc wide]
  · rfl

/-- A block that grows keeps what is in front. -/
theorem realloc_append (front back : Block UInt8) (size : Nat) :
    realloc (front ++ back) (front.length + size) = front ++ realloc back size := by
  simp only [realloc, List.length_append, List.take_append, Nat.add_sub_add_left,
    Nat.add_sub_cancel_left, List.append_assoc]
  rw [List.take_of_length_le (Nat.le_add_right _ _)]

theorem memcpy_append (front back : Block UInt8) {offset : Nat} (place : offset = front.length) :
    memcpy (front ++ back) offset value = front ++ value.map some ++ back.drop value.length := by
  subst place
  rw [memcpy, List.take_left' rfl, ← List.drop_drop, List.drop_left' rfl]

/-- An option of DHCPv4 with its value. What is behind it may be anything. -/
def Holds (code : UInt8) (value : Text) (data : Block UInt8) : Prop :=
  ∃ slack, data = ([code, value.length.toUInt8] ++ value).map some ++ slack

theorem toNat_toUInt8 {length : Nat} (small : length < 256) : length.toUInt8.toNat = length := by
  rw [Nat.toUInt8, UInt8.toNat_ofNat']
  omega

theorem Holds.addTo {code : UInt8} {old : Text} (holds : Holds code old data)
    (fits : old.length + value.length < 255) : Holds code (old ++ value) (addTo value data) := by
  obtain ⟨slack, rfl⟩ := holds
  have oldLen : (byteAt (([code, old.length.toUInt8] ++ old).map some ++ slack) optLen).toNat =
      old.length := toNat_toUInt8 (by omega)
  have front : (([code, old.length.toUInt8] ++ old).map some).length = optData + old.length := by
    simp [optData]
    omega
  have size : optData + 1 + old.length + value.length =
      (([code, old.length.toUInt8] ++ old).map some).length + (1 + value.length) := by omega
  unfold Optset.addTo
  simp only [oldLen, if_pos fits]
  rw [size, realloc_append, memcpy_append _ _ front.symm]
  generalize (realloc slack (1 + value.length)).drop value.length = slack
  refine ⟨slack, ?_⟩
  rw [← List.length_append]
  simp [memcpy, optLen]

theorem holds_newData (code : UInt8) (value : Text) : Holds code value (newData code value false) :=
  ⟨[], (List.append_nil _).symm⟩

/-! ## What is kept -/

/-- The code of an option in the layout of its protocol. -/
def entryCode (dhcpv6 : Bool) (data : Block UInt8) : Nat :=
  if dhcpv6 then (byteAt data d6OptCode).toNat * 256 + (byteAt data (d6OptCode + 1)).toNat
  else (byteAt data optCode).toNat

/-- The cells of its value. -/
def entryData (dhcpv6 : Bool) (data : Block UInt8) : Block UInt8 :=
  if dhcpv6 then
    (data.drop d6OptData).take
      ((byteAt data d6OptLen).toNat * 256 + (byteAt data (d6OptLen + 1)).toNat)
  else (data.drop optData).take (byteAt data optLen).toNat

/-- The values that were attached to a code, one behind another. -/
def valuesOf (code : UInt8) (calls : List Call) : Text :=
  (calls.filter fun call => call.optflag.code = code).flatMap fun call => call.value.getD []

/-- The options in a set are those of the calls. -/
structure WellKept (dhcpv6 : Bool) (calls : List Call) (table : List (Block UInt8)) : Prop where
  ascending : Ascending (entryCode dhcpv6) table
  finds : ∀ code, (udhcpFindOption table code).isSome ↔ ∃ call ∈ calls, call.optflag.code = code
  found : ∀ code i data, udhcpFindOption table code = some i → table[i]? = some data →
    entryCode dhcpv6 data = code.toNat
  lists : ∀ code i data, udhcpFindOption table code = some i → table[i]? = some data →
    (∀ call ∈ calls, call.optflag.code = code → call.optflag.list) →
    (valuesOf code calls).length < 255 → entryData dhcpv6 data = (valuesOf code calls).map some

theorem valuesOf_concat_same {call : Call} {calls : List Call} (attached : call.value = some value) :
    valuesOf call.optflag.code (calls ++ [call]) = valuesOf call.optflag.code calls ++ value := by
  simp [valuesOf, attached]

theorem valuesOf_concat_other {call : Call} {calls : List Call} {code : UInt8}
    (other : call.optflag.code ≠ code) :
    valuesOf code (calls ++ [call]) = valuesOf code calls := by
  simp [valuesOf, other]

/-! ## DHCPv4 -/

/-- The invariant of a run for DHCPv4. -/
structure Kept (calls : List Call) (table : List (Block UInt8)) : Prop where
  ascending : Ascending codeByte table
  known : ∀ data ∈ table, ∃ call ∈ calls, call.optflag.code.toNat = codeByte data
  all : ∀ call ∈ calls, ∃ data ∈ table, codeByte data = call.optflag.code.toNat
  lists : ∀ data ∈ table, ∀ code : UInt8, codeByte data = code.toNat →
    (∀ call ∈ calls, call.optflag.code = code → call.optflag.list) →
    (valuesOf code calls).length < 255 → Holds code (valuesOf code calls) data

variable {calls : List Call} {call : Call} {table table' : List (Block UInt8)}

theorem Kept.valuesOf_new (kept : Kept calls table) {code : UInt8}
    (absent : ∀ data ∈ table, codeByte data ≠ code.toNat) : valuesOf code calls = [] := by
  have none : calls.filter (fun call => call.optflag.code = code) = [] := by
    rw [List.filter_eq_nil_iff]
    intro call mem same
    obtain ⟨data, there, isCode⟩ := kept.all call mem
    rw [of_decide_eq_true same] at isCode
    exact absent data there isCode
  rw [valuesOf, none, List.flatMap_nil]

theorem Kept.attach (kept : Kept calls table) (attached : attachOption false table call = some table') :
    Kept (calls ++ [call]) table' := by
  obtain ⟨value, isValue, rfl⟩ := Option.map_eq_some_iff.mp attached
  have last : call ∈ calls ++ [call] := List.mem_append_right _ (List.mem_singleton_self call)
  -- an option of another code is not affected
  have other {data : Block UInt8} (mem : data ∈ table) {code : UInt8}
      (isCode : codeByte data = code.toNat) (different : call.optflag.code ≠ code)
      (allList : ∀ earlier ∈ calls ++ [call], earlier.optflag.code = code → earlier.optflag.list)
      (short : (valuesOf code (calls ++ [call])).length < 255) :
      Holds code (valuesOf code (calls ++ [call])) data := by
    rw [valuesOf_concat_other different] at short ⊢
    exact kept.lists data mem code isCode
      (fun earlier mem => allList earlier (List.mem_append_left _ mem)) short
  cases look : udhcpFindOption table call.optflag.code with
  | none =>
    have absent := (position_eq_none kept.ascending).mp look
    have isCode : codeByte (newData call.optflag.code value false) = call.optflag.code.toNat := rfl
    simp only
    constructor
    · exact kept.ascending.place isCode absent
    · intro data mem
      rcases mem_place.mp mem with rfl | old
      · exact ⟨call, last, isCode.symm⟩
      · obtain ⟨earlier, mem, same⟩ := kept.known data old
        exact ⟨earlier, List.mem_append_left _ mem, same⟩
    · intro earlier mem
      rcases List.mem_append.mp mem with old | new
      · obtain ⟨data, there, same⟩ := kept.all earlier old
        exact ⟨data, mem_place.mpr (.inr there), same⟩
      · rw [List.mem_singleton.mp new]
        exact ⟨_, mem_place.mpr (.inl rfl), isCode⟩
    · intro data mem code same allList short
      rcases mem_place.mp mem with rfl | old
      · rw [isCode] at same
        cases UInt8.toNat_inj.mp same
        rw [valuesOf_concat_same isValue, kept.valuesOf_new absent, List.nil_append]
        exact holds_newData _ _
      · refine other old same ?_ allList short
        rintro rfl
        exact absent data old same
  | some existing =>
    obtain ⟨found, there, isCode⟩ := key_of_position look
    have mem := List.mem_of_getElem? there
    by_cases list : call.optflag.list
    · simp only [list, if_true]
      constructor
      · exact kept.ascending.modify existing (codeByte_addTo value)
      · intro data changed
        rcases mem_modify changed with ⟨old, was, rfl⟩ | ⟨j, _, was⟩
        · rw [codeByte_addTo]
          obtain ⟨earlier, mem, same⟩ := kept.known old (List.mem_of_getElem? was)
          exact ⟨earlier, List.mem_append_left _ mem, same⟩
        · obtain ⟨earlier, mem, same⟩ := kept.known data (List.mem_of_getElem? was)
          exact ⟨earlier, List.mem_append_left _ mem, same⟩
      · intro earlier mem'
        obtain ⟨data, there', same⟩ : ∃ data ∈ table, codeByte data = earlier.optflag.code.toNat := by
          rcases List.mem_append.mp mem' with old | new
          · exact kept.all earlier old
          · rw [List.mem_singleton.mp new]
            exact ⟨found, mem, isCode⟩
        obtain ⟨data', stays, same'⟩ := exists_mem_modify existing (codeByte_addTo value) there'
        exact ⟨data', stays, same'.trans same⟩
      · intro data changed code same allList short
        rcases mem_modify changed with ⟨old, was, rfl⟩ | ⟨j, apart, was⟩
        · cases was.symm.trans there
          rw [codeByte_addTo] at same
          cases UInt8.toNat_inj.mp (isCode.symm.trans same)
          rw [valuesOf_concat_same isValue] at short ⊢
          rw [List.length_append] at short
          refine (kept.lists found mem _ isCode (fun earlier mem =>
            allList earlier (List.mem_append_left _ mem)) (by omega)).addTo short
        · refine other (List.mem_of_getElem? was) same ?_ allList short
          rintro rfl
          exact apart (kept.ascending.index_eq was there (same.trans isCode.symm))
    · simp only [list, if_false, Bool.false_eq_true]
      constructor
      · exact kept.ascending
      · intro data old
        obtain ⟨earlier, mem, same⟩ := kept.known data old
        exact ⟨earlier, List.mem_append_left _ mem, same⟩
      · intro earlier mem'
        rcases List.mem_append.mp mem' with old | new
        · exact kept.all earlier old
        · rw [List.mem_singleton.mp new]
          exact ⟨found, mem, isCode⟩
      · intro data old code same allList short
        refine other old same ?_ allList short
        rintro rfl
        exact list (allList call last rfl)

theorem kept_nil : Kept [] [] where
  ascending := List.Pairwise.nil
  known := nofun
  all := nofun
  lists := nofun

theorem Kept.wellKept (kept : Kept calls table) : WellKept false calls table where
  ascending := kept.ascending
  finds := by
    intro code
    constructor
    · intro found
      obtain ⟨i, look⟩ := Option.isSome_iff_exists.mp found
      obtain ⟨data, there, isCode⟩ := key_of_position look
      obtain ⟨call, mem, same⟩ := kept.known data (List.mem_of_getElem? there)
      exact ⟨call, mem, UInt8.toNat_inj.mp (same.trans isCode)⟩
    · rintro ⟨call, mem, rfl⟩
      obtain ⟨data, there, isCode⟩ := kept.all call mem
      refine Option.isSome_iff_ne_none.mpr fun missed => ?_
      exact (position_eq_none kept.ascending).mp missed data there isCode
  found := by
    intro code i data look there
    obtain ⟨entry, here, isCode⟩ := key_of_position look
    cases here.symm.trans there
    exact isCode
  lists := by
    intro code i data look there allList short
    obtain ⟨entry, here, isCode⟩ := key_of_position look
    cases here.symm.trans there
    obtain ⟨slack, rfl⟩ :=
      kept.lists data (List.mem_of_getElem? there) code isCode allList short
    have len : (byteAt (([code, (valuesOf code calls).length.toUInt8] ++ valuesOf code calls).map
        some ++ slack) optLen).toNat = (valuesOf code calls).length := toNat_toUInt8 (by omega)
    rw [entryData, if_neg (by decide), len]
    simp [optData]

/-! ## DHCPv6 -/

/-- The first byte of a new option of DHCPv6 is always zero. -/
structure Hidden (table : List (Block UInt8)) : Prop where
  zero : ∀ data ∈ table, codeByte data = 0

theorem Hidden.attach (hidden : Hidden table)
    (attached : attachOption true table call = some table') : Hidden table' := by
  obtain ⟨value, _, rfl⟩ := Option.map_eq_some_iff.mp attached
  constructor
  intro data mem
  split at mem
  · rcases mem_place.mp mem with rfl | old
    · rfl
    · exact hidden.zero data old
  · split at mem
    · rcases mem_modify mem with ⟨old, was, rfl⟩ | ⟨j, _, was⟩
      · rw [codeByte_addTo]
        exact hidden.zero old (List.mem_of_getElem? was)
      · exact hidden.zero data (List.mem_of_getElem? was)
    · exact hidden.zero data mem

/-- Nothing but the code zero is found. -/
theorem Hidden.find (hidden : Hidden table) {code : UInt8}
    (found : (udhcpFindOption table code).isSome) : code = 0 := by
  obtain ⟨i, look⟩ := Option.isSome_iff_exists.mp found
  obtain ⟨data, there, isCode⟩ := key_of_position look
  rw [hidden.zero data (List.mem_of_getElem? there)] at isCode
  exact UInt8.toNat_inj.mp isCode.symm

/-- Calls of the code zero only leave at most one option. -/
def Single (calls : List Call) (table : List (Block UInt8)) : Prop :=
  calls = [] ∧ table = [] ∨ calls ≠ [] ∧ ∃ value, table = [newData 0 value true]

theorem Single.attach (single : Single calls table) (zero : call.optflag.code = 0)
    (notList : call.optflag.list = false) (attached : attachOption true table call = some table') :
    Single (calls ++ [call]) table' := by
  obtain ⟨value, _, rfl⟩ := Option.map_eq_some_iff.mp attached
  rcases single with ⟨rfl, rfl⟩ | ⟨_, old, rfl⟩
  · exact .inr ⟨by simp, value, by rw [zero]; rfl⟩
  · refine .inr ⟨by simp, old, ?_⟩
    have look : udhcpFindOption [newData 0 old true] call.optflag.code = some 0 := by
      rw [zero]
      rfl
    simp only [look, notList, Bool.false_eq_true, if_false]

theorem Single.wellKept (single : Single calls table)
    (zero : ∀ call ∈ calls, call.optflag.code = 0)
    (notList : ∀ call ∈ calls, call.optflag.list = false) : WellKept true calls table := by
  rcases single with ⟨rfl, rfl⟩ | ⟨nonempty, value, rfl⟩
  · exact ⟨List.Pairwise.nil, by simp [udhcpFindOption, position], nofun, nofun⟩
  · obtain ⟨first, mem⟩ := List.exists_mem_of_ne_nil _ nonempty
    have codes {code : UInt8} (found : (udhcpFindOption [newData 0 value true] code).isSome) :
        code = 0 := Hidden.find ⟨by simp [newData, codeByte, byteAt, optCode]⟩ found
    refine ⟨List.pairwise_singleton _ _, fun code => ⟨fun found => ?_, ?_⟩, ?_, ?_⟩
    · rw [codes found]
      exact ⟨first, mem, zero first mem⟩
    · rintro ⟨call, mem, rfl⟩
      have look : udhcpFindOption [newData 0 value true] 0 = some 0 := rfl
      rw [zero call mem, look]
      rfl
    · intro code i data look there
      cases codes (by rw [look]; rfl)
      rw [List.mem_singleton.mp (List.mem_of_getElem? there)]
      simp [entryCode, byteAt, newData, d6OptCode]
    · intro code i data look there allList short
      cases codes (by rw [look]; rfl)
      have isList := allList first mem (zero first mem)
      rw [notList first mem] at isList
      cases isList

/-! ## Runs -/

section Runs

variable (str2nip : Text → Option Nip) (options : List (Text × DhcpOptflag))

/-- What is done to a set of options. -/
inductive Operation
  | attach (call : Call)
  | str2optset (str : Text)

/-- An operation, `none` where the process dies. -/
def perform (dhcpv6 : Bool) (optList : List (Block UInt8)) :
    Operation → Option (List (Block UInt8))
  | .attach call => attachOption dhcpv6 optList call
  | .str2optset str =>
    (udhcpStr2optset str2nip (attachOption dhcpv6) options str optList).map (·.2)

/-- In the place of `attach_option`, a record of the calls. -/
def record (calls : List Call) (call : Call) : Option (List Call) := some (calls ++ [call])

/-- The calls of `attach_option` that an operation makes. -/
def Operation.makes : Operation → List Call
  | .attach call => [call]
  | .str2optset str => ((udhcpStr2optset str2nip record options str []).map (·.2)).getD []

variable {str2nip options} {σ : Type} {attach : σ → Call → Option σ}

/-- The loop makes the same calls whatever is done with them. -/
theorem valuesLoop_record {optflag : DhcpOptflag} {retval result : Bool} {s : Text}
    {state after : σ}
    (done : valuesLoop str2nip attach optflag retval s state = some (result, after)) :
    ∃ made, (∀ before,
        valuesLoop str2nip record optflag retval s before = some (result, before ++ made)) ∧
      made.foldlM attach state = some after := by
  induction size : s.length using Nat.strong_induction_on generalizing s state retval with
  | _ length ih =>
    cases taken : nextValue optflag s with
    | none =>
      rw [valuesLoop_over taken] at done
      cases done
      exact ⟨[], fun before => by rw [valuesLoop_over taken, List.append_nil], rfl⟩
    | some token =>
      obtain ⟨val, behind⟩ := token
      have shorter := nextValue_length taken
      cases read : readValue str2nip optflag val behind with
      | mk given rest =>
        have kept : rest.length ≤ behind.length := by
          have left := readValue_length str2nip optflag val behind
          rwa [read] at left
        cases given with
        | none =>
          rw [valuesLoop_refused taken read] at done
          cases done
          exact ⟨[], fun before => by rw [valuesLoop_refused taken read, List.append_nil], rfl⟩
        | some call =>
          rw [valuesLoop_value taken read] at done
          obtain ⟨next, attached, done⟩ := Option.bind_eq_some_iff.mp done
          by_cases list : optflag.list
          · rw [if_pos list] at done
            obtain ⟨made, recorded, folded⟩ := ih rest.length (by omega) done rfl
            refine ⟨call :: made, fun before => ?_, ?_⟩
            · rw [valuesLoop_value taken read, record, Option.bind_some, if_pos list, recorded,
                List.append_assoc]
              rfl
            · rw [List.foldlM_cons, attached]
              exact folded
          · rw [if_neg list] at done
            cases done
            refine ⟨[call], fun before => ?_, ?_⟩
            · rw [valuesLoop_value taken read, record, Option.bind_some, if_neg list]
            · rw [List.foldlM_cons, attached]
              rfl

theorem udhcpStr2optset_record {str : Text} {result : Bool} {state after : σ}
    (done : udhcpStr2optset str2nip attach options str state = some (result, after)) :
    ∃ made, udhcpStr2optset str2nip record options str [] = some (result, made) ∧
      made.foldlM attach state = some after := by
  unfold udhcpStr2optset at done ⊢
  split at done
  case h_1 => cases done; exact ⟨[], rfl, rfl⟩
  case h_2 opt rest named =>
    split at done
    case h_1 =>
      obtain ⟨made, recorded, folded⟩ := valuesLoop_record done
      exact ⟨made, recorded [], folded⟩
    case h_2 =>
      split at done
      case h_1 => cases done
      case h_2 =>
        obtain ⟨made, recorded, folded⟩ := valuesLoop_record done
        exact ⟨made, recorded [], folded⟩

variable {dhcpv6 : Bool}

/-- An operation is the calls that it makes. -/
theorem perform_makes {operation : Operation} {table table' : List (Block UInt8)}
    (performed : perform str2nip options dhcpv6 table operation = some table') :
    (operation.makes str2nip options).foldlM (attachOption dhcpv6) table = some table' := by
  cases operation with
  | attach call =>
    rw [Operation.makes, List.foldlM_cons, show attachOption dhcpv6 table call = some table' from performed]
    rfl
  | str2optset str =>
    obtain ⟨⟨result, after⟩, done, rfl⟩ := Option.map_eq_some_iff.mp performed
    obtain ⟨made, recorded, folded⟩ := udhcpStr2optset_record done
    rw [Operation.makes, recorded]
    exact folded

/-- The calls of a run. -/
def runMakes (str2nip : Text → Option Nip) (options : List (Text × DhcpOptflag))
    (operations : List Operation) : List Call :=
  operations.flatMap (Operation.makes str2nip options)

theorem run_makes {operations : List Operation} {table table' : List (Block UInt8)}
    (ran : operations.foldlM (perform str2nip options dhcpv6) table = some table') :
    (runMakes str2nip options operations).foldlM (attachOption dhcpv6) table = some table' := by
  induction operations generalizing table with
  | nil => exact ran
  | cons operation operations ih =>
    rw [List.foldlM_cons] at ran
    obtain ⟨next, performed, ran⟩ := Option.bind_eq_some_iff.mp ran
    rw [runMakes, List.flatMap_cons, List.foldlM_append, perform_makes performed]
    exact ih ran

/-- What every call keeps is kept by a run of calls. -/
theorem invariant_of_calls (inv : List Call → List (Block UInt8) → Prop)
    (preserved : ∀ calls table call table', inv calls table →
      attachOption dhcpv6 table call = some table' → inv (calls ++ [call]) table')
    (initial : inv [] []) {calls : List Call} {table : List (Block UInt8)}
    (ran : calls.foldlM (attachOption dhcpv6) [] = some table) : inv calls table := by
  induction calls using List.reverseRecOn generalizing table with
  | nil =>
    cases ran
    exact initial
  | append_singleton calls call ih =>
    rw [List.foldlM_append] at ran
    obtain ⟨before, ran, attached⟩ := Option.bind_eq_some_iff.mp ran
    rw [List.foldlM_cons] at attached
    obtain ⟨after, attached, done⟩ := Option.bind_eq_some_iff.mp attached
    cases done
    exact preserved calls before call _ (ih ran) attached

/-- Every run for DHCPv4 keeps its options in order, each found by its code and the lists
complete. A run for DHCPv6 does exactly if it attaches the code zero only, which no list has. -/
theorem run_wellKept (str2nip : Text → Option Nip) (options : List (Text × DhcpOptflag))
    (operations : List Operation) :
    (∀ table, operations.foldlM (perform str2nip options false) [] = some table →
      WellKept false (runMakes str2nip options operations) table) ∧
    ∀ table, operations.foldlM (perform str2nip options true) [] = some table →
      (∀ call ∈ runMakes str2nip options operations, call.optflag.list → call.optflag.code ≠ 0) →
      (WellKept true (runMakes str2nip options operations) table ↔
        ∀ call ∈ runMakes str2nip options operations, call.optflag.code = 0) := by
  refine ⟨fun table ran => ?_, fun table ran listed => ⟨fun wellKept call mem => ?_, fun zero => ?_⟩⟩
  · have kept := invariant_of_calls Kept (fun _ _ _ _ kept attached => kept.attach attached)
      kept_nil (run_makes ran)
    exact kept.wellKept
  · have hidden := invariant_of_calls (fun _ table => Hidden table)
      (fun _ _ _ _ hidden attached => hidden.attach attached) ⟨nofun⟩ (run_makes ran)
    exact hidden.find ((wellKept.finds _).mpr ⟨call, mem, rfl⟩)
  · have notList (call : Call) (mem : call ∈ runMakes str2nip options operations) :
        call.optflag.list = false :=
      Bool.eq_false_iff.mpr fun list => listed call mem list (zero call mem)
    have single := invariant_of_calls
      (fun calls table => (∀ call ∈ calls, call.optflag.code = 0 ∧ call.optflag.list = false) →
        Single calls table)
      (fun calls table call table' single attached plain => by
        obtain ⟨earlier, last⟩ := List.forall_mem_append.mp plain
        obtain ⟨isZero, isNoList⟩ := last call (List.mem_singleton_self call)
        exact (single earlier).attach isZero isNoList attached)
      (fun _ => .inl ⟨rfl, rfl⟩) (run_makes ran)
      fun call mem => ⟨zero call mem, notList call mem⟩
    exact single.wellKept zero notList

end Runs

/-- `opt router` twice and `opt 31` between. -/
def office : List Operation := [
  .attach ⟨⟨.ip, true, true, 3⟩, [10, 0, 0, 1], 4⟩,
  .str2optset "31 0a0b".toUTF8.toList,
  .attach ⟨⟨.ip, true, true, 3⟩, [10, 0, 0, 2], 4⟩]

/-- The two addresses of the router stand in one option, in front of the other one. -/
theorem run_wellKept_office :
    ∃ table, office.foldlM (perform (fun _ => none) [] false) [] = some table ∧
      WellKept false (runMakes (fun _ => none) [] office) table := by
  obtain ⟨table, ran⟩ : ∃ table,
      office.foldlM (perform (fun _ => none) [] false) [] = some table :=
    Option.isSome_iff_exists.mp (by decide +kernel)
  exact ⟨table, ran, (run_wellKept (fun _ => none) [] office).1 table ran⟩

/-- A time zone of DHCPv6 is attached twice and found not at all. -/
theorem run_duplicates :
    ¬∀ (dhcpv6 : Bool) (operations : List Operation) (table : List (Block UInt8)),
      operations.foldlM (perform (fun _ => none) [] dhcpv6) [] = some table →
      WellKept dhcpv6 (runMakes (fun _ => none) [] operations) table := by
  intro claim
  let zone : Call := ⟨⟨.string, false, false, 41⟩, [69, 83, 84], 3⟩
  have wellKept := claim true [.attach zone, .attach zone]
    [newData 41 [69, 83, 84] true, newData 41 [69, 83, 84] true] (by decide)
  have found := (wellKept.finds 41).mpr ⟨zone, by simp [runMakes, Operation.makes], rfl⟩
  exact absurd found (by decide)

end Busybox.Udhcp.Optset
