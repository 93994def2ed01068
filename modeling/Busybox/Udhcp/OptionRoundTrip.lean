import Busybox.Udhcp.OptionText
import Busybox.Udhcp.OptsetRuns

/-!
# Options there and back

The text of an option is turned into bytes by `udhcp_str2optset` and back into text by
`xmalloc_optname_optval`. The values that were taken come back, a negative number and the
values of a list that had no room excepted.
-/

namespace Busybox.Udhcp

open Memory SortedTable
open Optval (unsignedText nipText slash equals elementText routeText xmallocOptnameOptval)
open Optset (Nip Call udhcpStr2optset udhcpFindOption attachOption entryData bytes16 bytes32)
open Names (dot space)
open Libbb.Xatonum (valueOf)

/-- `dhcp_option_strings`. -/
def dhcpOptionStrings : List Text :=
  ["subnet", "timezone", "router", "dns", "lprsrv", "hostname", "bootsize", "domain", "swapsrv",
    "rootpath", "ipttl", "mtu", "broadcast", "routes", "nisdomain", "nissrv", "ntpsrv", "wins",
    "lease", "serverid", "message", "tftp", "bootfile", "tzstr", "tzdbstr", "search", "sipsrv",
    "staticroutes", "vlanid", "vlanpriority", "pxeconffile", "pxepathprefix", "reboottime", "ip6rd",
    "msstaticroutes", "wpad"].map fun name => name.toUTF8.toList

/-- The names beside their flags; the last flags have no name. -/
def dhcpOptions : List (Text × DhcpOptflag) := dhcpOptionStrings.zip dhcpOptflags

section RoundTrip

variable (str2nip : Text → Option Nip)

/-- The value of an option that is set from a text, as a script gets it: the text is put into a
set, and the option with its code is taken from there. -/
def printedBack (lp64 : Bool) (optList : List (Block UInt8)) (name : Text) (optflag : DhcpOptflag)
    (str : Text) : Option Text := do
  let (accepted, optList) ← udhcpStr2optset str2nip (attachOption false) dhcpOptions str optList
  if accepted then
    let i ← udhcpFindOption optList optflag.code
    let data ← optList[i]?
    let ret ← (xmallocOptnameOptval lp64 (entryData false data).reduceOption optflag name).toOption
    (Optval.readString ret).toOption
  else none

end RoundTrip

variable {type : OptionType} {optflag : DhcpOptflag}

/-! ## What is kept -/

/-- The values for which there is room behind `used` bytes. -/
def taken (used : Nat) : List (Value type) → List (Value type)
  | [] => []
  | value :: rest =>
    if used + value.bytes.length < 255 then value :: taken (used + value.bytes.length) rest
    else taken used rest

/-- Values in front that fit are taken, and what is behind them gets the room that is left. -/
theorem taken_append {used : Nat} {front : List (Value type)}
    (fits : used + (front.flatMap Value.bytes).length < 255) (rest : List (Value type)) :
    taken used (front ++ rest) = front ++ taken (used + (front.flatMap Value.bytes).length) rest := by
  induction front generalizing used with
  | nil => rfl
  | cons value front ih =>
    rw [List.flatMap_cons, List.length_append] at fits ⊢
    rw [List.cons_append, taken, if_pos (by omega), ih (by omega), Nat.add_assoc, List.cons_append]

theorem taken_all {used : Nat} {values : List (Value type)}
    (fits : used + (values.flatMap Value.bytes).length < 255) : taken used values = values := by
  have all := taken_append fits []
  rwa [List.append_nil, taken, List.append_nil] at all

theorem taken_sublist (used : Nat) (values : List (Value type)) :
    (taken used values).Sublist values := by
  induction values generalizing used with
  | nil => exact List.Sublist.slnil
  | cons value rest ih =>
    rw [taken]
    split
    · exact (ih _).cons_cons value
    · exact (ih _).cons value

theorem taken_length {used : Nat} (room : used < 255) (values : List (Value type)) :
    used + ((taken used values).flatMap Value.bytes).length < 255 := by
  induction values generalizing used with
  | nil => exact room
  | cons value rest ih =>
    rw [taken]
    split
    case isTrue fits =>
      have later := ih fits
      rw [List.flatMap_cons, List.length_append]
      omega
    case isFalse => exact ih room

theorem callOf_value (value : Value optflag.type) :
    (callOf optflag value).value = some value.bytes := by
  obtain ⟨type, req, list, code⟩ := optflag
  cases value <;> exact congrArg some (List.take_length)

/-- The values of a list go behind what an option has. -/
theorem foldlM_attachOption (isList : optflag.list = true) {optList : List (Block UInt8)} {i : Nat}
    {data : Block UInt8} {old : Text} (found : udhcpFindOption optList optflag.code = some i)
    (there : optList[i]? = some data) (holds : Optset.Holds optflag.code old data)
    (room : old.length < 255) (values : List (Value optflag.type)) :
    ∃ optList' data', (values.map (callOf optflag)).foldlM (attachOption false) optList =
        some optList' ∧
      udhcpFindOption optList' optflag.code = some i ∧ optList'[i]? = some data' ∧
      Optset.Holds optflag.code (old ++ (taken old.length values).flatMap Value.bytes) data' := by
  induction values generalizing optList data old with
  | nil => exact ⟨optList, data, rfl, found, there, by rwa [taken, List.flatMap_nil, List.append_nil]⟩
  | cons value rest ih =>
    have attached : attachOption false optList (callOf optflag value) =
        some (optList.modify i (Optset.addTo value.bytes)) := by
      simp only [attachOption, callOf_value, Option.map_some]
      simp only [callOf, found, isList, if_true]
    have found' : udhcpFindOption (optList.modify i (Optset.addTo value.bytes)) optflag.code =
        some i := by
      rw [← found]
      exact position_modify i (Optset.codeByte_addTo value.bytes)
    have there' : (optList.modify i (Optset.addTo value.bytes))[i]? =
        some (Optset.addTo value.bytes data) := by
      rw [List.getElem?_modify_eq, there]
      rfl
    rw [List.map_cons, List.foldlM_cons, attached]
    rw [taken]
    by_cases fits : old.length + value.bytes.length < 255
    · rw [if_pos fits, List.flatMap_cons, ← List.append_assoc, ← List.length_append]
      exact ih found' there' (holds.addTo fits) (by rwa [List.length_append])
    · rw [if_neg fits]
      refine ih found' there' ?_ room
      obtain ⟨slack, rfl⟩ := holds
      rw [Optset.addTo]
      simp only
      rw [if_neg]
      · exact ⟨slack, rfl⟩
      · have oldLen : (Optset.byteAt (([optflag.code, old.length.toUInt8] ++ old).map some ++ slack)
            Options.optLen).toNat = old.length := Optset.toNat_toUInt8 (by omega)
        rwa [oldLen]

theorem Value.bytes_length (value : Value type) :
    dhcpOptionLengths type ≤ value.bytes.length ∧ value.bytes.length < 255 := by
  cases value with
  | ip address => simp [Value.bytes, dhcpOptionLengths, address.2]
  | ipPair first second => simp [Value.bytes, dhcpOptionLengths, first.2, second.2]
  | route net mask valid host gateway =>
    simp [Value.bytes, dhcpOptionLengths, gateway.2, net.2]
    omega
  | u8 | u16 | u32 | s32 => simp [Value.bytes, dhcpOptionLengths, bytes16, bytes32]

theorem Value.bytes_length_eq (elementwise : Optval.Elementwise type) (value : Value type) :
    value.bytes.length = dhcpOptionLengths type := by
  cases value with
  | ip address => exact address.2
  | ipPair first second => simp [Value.bytes, dhcpOptionLengths, first.2, second.2]
  | u8 | u16 | u32 | s32 => rfl
  | route => exact elementwise.elim

theorem Value.routes_of_not_elementwise (value : Value type)
    (other : ¬Optval.Elementwise type) : type = .staticRoutes := by
  cases value with
  | route => rfl
  | ip | ipPair | u8 | u16 | u32 | s32 => exact absurd trivial other

/-- An option that was not in the set has its values then. -/
theorem foldlM_attachOption_new {optList : List (Block UInt8)}
    (absent : udhcpFindOption optList optflag.code = none) (first : Value optflag.type)
    (rest : List (Value optflag.type)) (single : optflag.list = false → rest = []) :
    ∃ optList' i data, ((first :: rest).map (callOf optflag)).foldlM (attachOption false) optList =
        some optList' ∧
      udhcpFindOption optList' optflag.code = some i ∧ optList'[i]? = some data ∧
      Optset.Holds optflag.code ((taken 0 (first :: rest)).flatMap Value.bytes) data := by
  have attached : attachOption false optList (callOf optflag first) =
      some (place Optset.codeByte (Optset.newData optflag.code first.bytes false)
        optflag.code.toNat optList) := by
    simp only [attachOption, callOf_value, Option.map_some]
    simp only [callOf, absent]
  have isKey : Optset.codeByte (Optset.newData optflag.code first.bytes false) =
      optflag.code.toNat := rfl
  obtain ⟨i, found, there⟩ : ∃ i, position Optset.codeByte optflag.code.toNat
      (place Optset.codeByte (Optset.newData optflag.code first.bytes false) optflag.code.toNat
        optList) = some i ∧ _ := position_place isKey
  have small := first.bytes_length.2
  rw [List.map_cons, List.foldlM_cons, attached, taken, zero_add, if_pos small, List.flatMap_cons]
  cases list : optflag.list with
  | false =>
    rw [single list, taken, List.flatMap_nil, List.append_nil]
    exact ⟨_, i, _, rfl, found, there, Optset.holds_newData _ _⟩
  | true =>
    obtain ⟨optList', data, folded, found', there', holds⟩ :=
      foldlM_attachOption list found there (Optset.holds_newData _ _) small rest
    exact ⟨optList', i, data, folded, found', there', holds⟩

/-- The bytes of the option that is found. -/
theorem entryData_holds {code : UInt8} {value : Text} {data : Block UInt8} (small : value.length < 255)
    (holds : Optset.Holds code value data) : (entryData false data).reduceOption = value := by
  obtain ⟨slack, rfl⟩ := holds
  have len : (Optset.byteAt (([code, value.length.toUInt8] ++ value).map some ++ slack)
      Options.optLen).toNat = value.length := Optset.toNat_toUInt8 (by omega)
  rw [entryData, if_neg (by decide), len]
  simp [Options.optData, List.reduceOption]

/-! ## What is printed -/

/-- A signed number is not negative. -/
def Value.NonNegative : Value type → Prop
  | .s32 number _ _ => 0 ≤ number
  | _ => True

theorem bigEndian_bytes32 {number : Nat} (fits : number < 2 ^ 32) :
    Optval.bigEndian (bytes32 number) = number := by
  simp only [Optval.bigEndian, bytes32, List.foldl_cons, List.foldl_nil, Nat.toUInt8,
    UInt8.toNat_ofNat']
  omega

/-- An element is printed as the value it was set from. -/
theorem elementText_bytes (elementwise : Optval.Elementwise type) (value : Value type)
    (nonneg : value.NonNegative) : elementText true type value.bytes = value.printed := by
  cases value with
  | ip address => rfl
  | ipPair first second =>
    rw [elementText, Value.bytes, List.take_left' first.2, List.drop_left' first.2, Value.printed]
  | u8 number fits =>
    have read : Optval.bigEndian [number.toUInt8] = number := by
      simp only [Optval.bigEndian, List.foldl_cons, List.foldl_nil, Nat.toUInt8, UInt8.toNat_ofNat']
      omega
    exact congrArg unsignedText read
  | u16 number fits =>
    have read : Optval.bigEndian (bytes16 number) = number := by
      simp only [Optval.bigEndian, bytes16, List.foldl_cons, List.foldl_nil, Nat.toUInt8,
        UInt8.toNat_ofNat']
      omega
    exact congrArg unsignedText read
  | u32 number fits => exact congrArg unsignedText (bigEndian_bytes32 fits)
  | s32 number low high =>
    simp only [Value.NonNegative] at nonneg
    have word : (number % 2 ^ 32).toNat = number.natAbs := by omega
    rw [elementText, Value.bytes, word, bigEndian_bytes32 (by omega), Value.printed, intText,
      if_neg (not_lt.mpr nonneg)]
    exact if_neg (by simp)
  | route => exact elementwise.elim

theorem intText_length {number : Int} (low : -2 ^ 31 ≤ number) (high : number < 2 ^ 31) :
    (intText number).length ≤ 11 := by
  have digits : (unsignedText number.natAbs).length ≤ 10 :=
    Optval.unsignedText_length (by omega) (by decide)
  unfold intText
  split
  · rw [List.length_cons]
    omega
  · omega

/-- The text of a value and a space have room where the estimate counts an element. -/
theorem Value.printed_length (value : Value type) :
    value.printed.length + 1 ≤ Optval.lenOfOptionAsString type := by
  cases value with
  | ip address => exact Nat.le_succ_of_le (Nat.succ_le_succ (Optval.nipText_length address.2 []))
  | ipPair first second =>
    have one := Optval.nipText_length first.2 []
    have two := Optval.nipText_length second.2 [slash]
    simp only [Value.printed, Optval.lenOfOptionAsString, List.length_append,
      List.length_singleton, List.length_nil] at one two ⊢
    omega
  | u8 number fits =>
    have digits : (unsignedText number).length ≤ 3 :=
      Optval.unsignedText_length (by omega) (by decide)
    exact Nat.le_succ_of_le (Nat.succ_le_succ digits)
  | u16 number fits =>
    have digits : (unsignedText number).length ≤ 5 :=
      Optval.unsignedText_length (by omega) (by decide)
    exact Nat.le_succ_of_le (Nat.succ_le_succ digits)
  | u32 number fits =>
    have digits : (unsignedText number).length ≤ 10 :=
      Optval.unsignedText_length (by omega) (by decide)
    exact Nat.le_succ_of_le (Nat.succ_le_succ digits)
  | s32 number low high =>
    exact Nat.le_succ_of_le (Nat.succ_le_succ (intText_length low high))
  | route net mask valid host gateway =>
    have one := Optval.nipText_length net.2 []
    have two := Optval.nipText_length gateway.2 []
    have digits : (unsignedText mask).length ≤ 2 :=
      Optval.unsignedText_length (by omega) (by decide)
    simp only [Value.printed, Optval.lenOfOptionAsString, List.length_append,
      List.length_singleton, List.length_nil] at one two ⊢
    omega

/-- The text of the values. -/
def printedValues (values : List (Value type)) : Text :=
  List.intercalate [space] (values.map Value.printed)

theorem flatMap_bytes_length (values : List (Value type)) :
    values.length * dhcpOptionLengths type ≤ (values.flatMap Value.bytes).length := by
  induction values with
  | nil => exact (zero_mul _).le
  | cons value rest ih =>
    rw [List.flatMap_cons, List.length_append, List.length_cons, add_mul, one_mul, add_comm]
    exact add_le_add value.bytes_length.1 ih

theorem printedValues_length (first : Value type) (rest : List (Value type)) :
    (printedValues (first :: rest)).length ≤
      Optval.upperLength type ((first :: rest).flatMap Value.bytes).length := by
  have positive := dhcpOptionLengths_pos first.not_bin
  have bytes := flatMap_bytes_length (first :: rest)
  have texts : ∀ text ∈ (first :: rest).map Value.printed,
      text.length ≤ Optval.lenOfOptionAsString type - 1 := by
    intro text mem
    obtain ⟨value, _, rfl⟩ := List.mem_map.mp mem
    exact Nat.le_sub_one_of_lt value.printed_length
  have joined := Optval.length_intercalate_lt space texts
  have wide : Optval.lenOfOptionAsString type - 1 + 1 = Optval.lenOfOptionAsString type :=
    Nat.sub_add_cancel (Nat.le_of_add_left_le first.printed_length)
  rw [List.length_map, wide] at joined
  rw [Optval.upperLength_eq _ first.not_bin]
  calc (printedValues (first :: rest)).length
      ≤ (rest.length + 1) * Optval.lenOfOptionAsString type := joined.le
    _ ≤ Optval.lenOfOptionAsString type *
        (((first :: rest).flatMap Value.bytes).length / dhcpOptionLengths type + 1) := by
        rw [mul_comm]
        exact Nat.mul_le_mul_left _
          (Nat.le_succ_of_le ((Nat.le_div_iff_mul_le positive).mpr bytes))

/-- A route is printed as it was set. -/
theorem routeText_printed (pfx : Text) (net : Nip) {mask : Nat} (valid : mask ≤ 32)
    (host : ∀ byte ∈ net.1.drop ((mask + 7) / 8), byte = 0) (gateway : Nip) :
    routeText pfx mask.toUInt8 (net.1.take ((mask + 7) / 8)) gateway.1 =
      pfx ++ (Value.route net mask valid host gateway).printed := by
  have size : (net.1.take ((mask + 7) / 8)).length = (mask + 7) / 8 :=
    List.length_take_of_le (by rw [net.2]; omega)
  have padded : net.1.drop ((mask + 7) / 8) = List.replicate (4 - (mask + 7) / 8) 0 :=
    List.eq_replicate_iff.mpr ⟨by rw [List.length_drop, net.2], host⟩
  have read : mask.toUInt8.toNat = mask := Optset.toNat_toUInt8 (by omega)
  rw [routeText, size, ← padded, List.take_append_drop, read, Value.printed]
  simp only [nipText, List.append_assoc, List.nil_append]

variable {payload text : Text} {total option : Nat} {len : Int} {out : Optval.Output}

/-- A turn of the loop over the routes prints a route. -/
theorem staticRoutes_value (pfx : Text) (value : Value .staticRoutes) {behind : Text}
    (drop : payload.drop option = value.bytes ++ behind) (left : option + len = payload.length)
    (holds : Optval.Holds total out text)
    (fits : text.length + (pfx ++ value.printed).length < total) :
    ∃ out', Optval.staticRoutes payload pfx option len out =
        Optval.staticRoutes payload [space] (option + value.bytes.length)
          (len - value.bytes.length) out' ∧
      Optval.Holds total out' (text ++ (pfx ++ value.printed)) ∧
      Optval.IsString out'.ret (text ++ (pfx ++ value.printed)) := by
  cases value with
  | route net mask valid host gateway =>
    have size : (net.1.take ((mask + 7) / 8)).length = (mask + 7) / 8 :=
      List.length_take_of_le (by rw [net.2]; omega)
    have read : mask.toUInt8.toNat = mask := Optset.toNat_toUInt8 (by omega)
    have bytes : (Value.route net mask valid host gateway).bytes.length =
        1 + (net.1.take ((mask + 7) / 8)).length + 4 := by
      simp only [Value.bytes, List.length_cons, List.length_append, gateway.2]
      omega
    rw [← routeText_printed] at fits ⊢
    rw [Value.bytes, List.cons_append, List.append_assoc] at drop
    obtain ⟨out', turn, holds', is⟩ := Optval.staticRoutes_route pfx drop (by rwa [read])
      (by rw [read, size]) gateway.2 left holds fits
    refine ⟨out', turn.trans ?_, holds', is⟩
    rw [bytes]
    congr 1
    · omega
    · push_cast
      omega

theorem printedValues_cons (first second : Value type) (rest : List (Value type)) :
    printedValues (first :: second :: rest) =
      first.printed ++ ([space] ++ printedValues (second :: rest)) := by
  simp only [printedValues, List.map_cons, List.intercalate_cons_cons, List.append_assoc]

/-- The loop over routes prints the routes that are left. -/
theorem staticRoutes_values (pfx : Text) {first : Value .staticRoutes}
    {rest : List (Value .staticRoutes)}
    (drop : payload.drop option = (first :: rest).flatMap Value.bytes)
    (left : option + len = payload.length) (holds : Optval.Holds total out text)
    (fits : text.length + (pfx ++ printedValues (first :: rest)).length < total) :
    ∃ out', Optval.staticRoutes payload pfx option len out = .ok out' ∧
      Optval.IsString out'.ret (text ++ (pfx ++ printedValues (first :: rest))) := by
  induction rest generalizing pfx first option len out text with
  | nil =>
    have length := congrArg List.length drop
    have positive := first.bytes_length.1
    rw [List.length_drop, List.flatMap_singleton] at length
    rw [List.flatMap_cons] at drop
    rw [dhcpOptionLengths] at positive
    have one : printedValues [first] = first.printed := List.intercalate_singleton ..
    rw [one] at fits ⊢
    obtain ⟨out', turn, _, is⟩ := staticRoutes_value pfx first drop left holds fits
    exact ⟨out', by rw [turn, Optval.staticRoutes, if_pos (by omega)], is⟩
  | cons second rest ih =>
    rw [printedValues_cons, ← List.append_assoc pfx] at fits ⊢
    rw [List.length_append] at fits
    rw [List.flatMap_cons] at drop
    obtain ⟨out', turn, holds', _⟩ := staticRoutes_value pfx first drop left holds (by omega)
    have behind : payload.drop (option + first.bytes.length) =
        (second :: rest).flatMap Value.bytes := by
      rw [← List.drop_drop, drop, List.drop_left' rfl]
    have left' : ((option + first.bytes.length : Nat) : Int) + (len - first.bytes.length) =
        payload.length := by omega
    obtain ⟨out'', looped, is⟩ := ih [space] behind left' holds' (by
      rw [List.length_append]
      omega)
    rw [turn]
    refine ⟨out'', looped, ?_⟩
    rwa [← List.append_assoc]

/-- The values of an option are printed behind its name. -/
theorem xmallocOptnameOptval_values (optflag : DhcpOptflag) (optName : Text)
    (first : Value optflag.type) (rest : List (Value optflag.type))
    (nonneg : ∀ value ∈ first :: rest, value.NonNegative) :
    ∃ ret, xmallocOptnameOptval true ((first :: rest).flatMap Value.bytes) optflag optName = .ok ret ∧
      Optval.IsString ret (optName ++ [equals] ++ printedValues (first :: rest)) := by
  obtain ⟨type, req, list, code⟩ := optflag
  simp only at first rest nonneg ⊢
  have positive := dhcpOptionLengths_pos first.not_bin
  have room := printedValues_length first rest
  have fresh (total : Nat) : Optval.Holds total ⟨alloc total, 0⟩ [] :=
    ⟨rfl, alloc total, rfl, by simp [alloc]⟩
  obtain ⟨out, named, holds, _⟩ := (fresh (Optval.upperLength type
      ((first :: rest).flatMap Value.bytes).length + optName.length + 2)).sprintf (optName ++ [equals])
    (by
      simp only [List.length_append, List.length_singleton, List.length_nil]
      omega)
  rw [List.nil_append] at holds
  have fits : (optName ++ [equals]).length + (printedValues (first :: rest)).length <
      Optval.upperLength type ((first :: rest).flatMap Value.bytes).length + optName.length + 2 := by
    rw [List.length_append, List.length_singleton]
    omega
  have left : ((0 : Nat) : Int) + (((first :: rest).flatMap Value.bytes).length : Int) =
      ((first :: rest).flatMap Value.bytes).length := Int.zero_add _
  unfold xmallocOptnameOptval
  rw [dif_pos positive]
  simp only [named, Fallible.ok_bind]
  by_cases elementwise : Optval.Elementwise type
  · have texts : ((first :: rest).map Value.bytes).map (elementText true type) =
        (first :: rest).map Value.printed := by
      rw [List.map_map]
      exact List.map_congr_left fun value mem => elementText_bytes elementwise value (nonneg value mem)
    have sizes : ∀ bytes ∈ (first :: rest).map Value.bytes, bytes.length = dhcpOptionLengths type := by
      intro bytes mem
      obtain ⟨value, _, rfl⟩ := List.mem_map.mp mem
      exact value.bytes_length_eq elementwise
    have whole : ((first :: rest).flatMap Value.bytes).drop 0 =
        ((first :: rest).map Value.bytes).flatten ++ [] := by
      rw [List.drop_zero, List.append_nil, List.flatMap_def]
    rw [printedValues, ← texts] at fits ⊢
    exact Optval.loop_elements elementwise positive whole sizes positive left holds fits
  · obtain rfl : type = .staticRoutes := first.routes_of_not_elementwise elementwise
    obtain ⟨out', printed, is⟩ := staticRoutes_values [] (List.drop_zero ..) left holds fits
    have long := flatMap_bytes_length (first :: rest)
    rw [List.length_cons, add_mul, dhcpOptionLengths] at long
    refine ⟨out'.ret, Optval.loop_leave (by simp only [dhcpOptionLengths]; omega) ?_, is⟩
    rw [Optval.pass]
    simp only [printed]
    rfl

theorem digit_ne_zero {c : UInt8} (digit : 48 ≤ c.toNat ∧ c.toNat ≤ 57) : c ≠ 0 := by
  rintro rfl
  exact absurd digit.1 (by decide)

theorem unsignedText_noNul (n : Nat) : 0 ∉ unsignedText n := fun nul =>
  digit_ne_zero (unsignedText_digits n 0 nul) rfl

theorem nipText_noNul (ip : Text) : 0 ∉ nipText [] ip := by
  intro nul
  rcases nipText_chars ip 0 nul with isDot | digit
  · exact absurd isDot (by decide)
  · exact digit_ne_zero digit rfl

theorem Value.printed_noNul (value : Value type) : 0 ∉ value.printed := by
  have pair (pre ip : Text) (clean : 0 ∉ pre) : 0 ∉ nipText pre ip := by
    intro nul
    rcases List.mem_append.mp nul with front | back
    · exact clean front
    · exact nipText_noNul ip back
  cases value with
  | ip address => exact nipText_noNul address.1
  | ipPair first second =>
    rw [Value.printed, List.mem_append]
    exact not_or.mpr ⟨nipText_noNul first.1, pair [slash] second.1 (by decide)⟩
  | u8 number | u16 number | u32 number => exact unsignedText_noNul number
  | s32 number =>
    rw [Value.printed, intText]
    split
    · rw [List.mem_cons]
      exact not_or.mpr ⟨by decide, unsignedText_noNul _⟩
    · exact unsignedText_noNul _
  | route net mask valid host gateway =>
    have mask := unsignedText_noNul mask
    simp only [Value.printed, List.mem_append, List.mem_singleton, not_or]
    exact ⟨⟨nipText_noNul net.1, ⟨by decide, mask⟩, by decide⟩, nipText_noNul gateway.1⟩

theorem printedValues_noNul (values : List (Value type)) : 0 ∉ printedValues values := by
  induction values with
  | nil => exact List.not_mem_nil
  | cons first rest ih =>
    cases rest with
    | nil =>
      have one : printedValues [first] = first.printed := List.intercalate_singleton ..
      rw [one]
      exact first.printed_noNul
    | cons second rest =>
      rw [printedValues_cons, List.mem_append, List.mem_append, List.mem_singleton]
      exact not_or.mpr ⟨first.printed_noNul, not_or.mpr ⟨by decide, ih⟩⟩

/-! ## There and back -/

/-- A name in the table is one token, no number, and the first of its kind. -/
theorem dhcpOptions_names : ∀ option ∈ dhcpOptions, option.1 ≠ [] ∧
    (∀ c ∈ option.1, c ∉ Optset.nameDelims) ∧ 0 ∉ option.1 ∧
    (Optset.bbStrtou 0 option.1).filter (· < 255) = none ∧
    dhcpOptions.find? (fun other => other.1 = option.1) = some option := by
  -- a quantifier over the bytes of a name would be decided by trying all bytes
  have clean : ∀ option ∈ dhcpOptions, (option.1.all fun c => c ∉ Optset.nameDelims) = true := by
    decide +kernel
  have others : ∀ option ∈ dhcpOptions, option.1 ≠ [] ∧ 0 ∉ option.1 ∧
      (Optset.bbStrtou 0 option.1).filter (· < 255) = none ∧
      dhcpOptions.find? (fun other => other.1 = option.1) = some option := by
    decide +kernel
  intro option mem
  obtain ⟨nonempty, noNul, notNumber, first⟩ := others option mem
  refine ⟨nonempty, fun c inside => ?_, noNul, notNumber, first⟩
  exact of_decide_eq_true (List.all_eq_true.mp (clean option mem) c inside)

/-- The text of an option reaches the loop over its values. -/
theorem udhcpStr2optset_named {σ : Type} {attach : σ → Call → Option σ} {str2nip : Text → Option Nip}
    {name : Text} {delim : UInt8} (known : (name, optflag) ∈ dhcpOptions)
    (isDelim : delim ∈ Optset.nameDelims) (rest : Text) (state : σ) :
    udhcpStr2optset str2nip attach dhcpOptions (name ++ delim :: rest) state =
      Optset.valuesLoop str2nip attach optflag false rest state := by
  obtain ⟨nonempty, clean, _, notNumber, found⟩ := dhcpOptions_names _ known
  have ends : ∀ c ∈ (delim :: rest).head?, c ∈ Optset.nameDelims := by
    rintro c ⟨⟩
    exact isDelim
  have named : Optset.strtok Optset.nameDelims ([] ++ name ++ delim :: rest) = some (name, rest) :=
    strtok_token nofun nonempty clean ends
  rw [List.nil_append] at named
  unfold udhcpStr2optset
  simp only [named, notNumber, found]

/-- An address of four numbers, as it is resolved without asking. -/
def dottedNip (text : Text) : Option Nip :=
  let bytes := (text.splitOn dot).map fun field => (valueOf 10 field).toUInt8
  if four : bytes.length = 4 then some ⟨bytes, four⟩ else none

theorem dottedNip_nipText (nip : Nip) : dottedNip (nipText [] nip.1) = some nip := by
  have noDot : ∀ field ∈ nip.1.map fun byte => unsignedText byte.toNat, dot ∉ field := by
    intro field mem
    obtain ⟨byte, _, rfl⟩ := List.mem_map.mp mem
    exact fun isDot => absurd (unsignedText_digits _ _ isDot).1 (by decide)
  have fields : (nipText [] nip.1).splitOn dot = nip.1.map fun byte => unsignedText byte.toNat := by
    rw [nipText, List.nil_append]
    exact List.splitOn_intercalate dot noDot (by simp [Nip.ne_nil nip])
  have bytes : ((nipText [] nip.1).splitOn dot).map (fun field => (valueOf 10 field).toUInt8) =
      nip.1 := by
    rw [fields, List.map_map]
    refine List.map_id'' (fun byte => ?_) nip.1
    rw [Function.comp_apply, valueOf_unsignedText]
    exact UInt8.ofNat_toNat
  unfold dottedNip
  simp only [bytes]
  exact dif_pos nip.2

section RoundTrip

variable {str2nip : Text → Option Nip}

/-- A script gets the values that were taken. -/
theorem printedBack_taken (resolves : ∀ nip : Nip, str2nip (nipText [] nip.1) = some nip)
    {name : Text} (known : (name, optflag) ∈ dhcpOptions) {delim : UInt8}
    (isDelim : delim ∈ Optset.nameDelims) (written : Written optflag.type)
    (single : optflag.list = false → written.more = [])
    (nonneg : ∀ value ∈ written.values, value.NonNegative) {optList : List (Block UInt8)}
    (absent : udhcpFindOption optList optflag.code = none) :
    printedBack str2nip true optList name optflag (name ++ delim :: written.text) =
      some (name ++ [equals] ++ printedValues (taken 0 written.values)) := by
  have notMore : optflag.list = false → written.more.map Entry.value = [] := fun notList => by
    rw [single notList, List.map_nil]
  obtain ⟨optList', i, data, folded, found, there, holds⟩ :=
    foldlM_attachOption_new absent written.first (written.more.map Entry.value) notMore
  have values : written.values = written.first :: written.more.map Entry.value := rfl
  have looped : udhcpStr2optset str2nip (attachOption false) dhcpOptions
      (name ++ delim :: written.text) optList = some (true, optList') := by
    rw [udhcpStr2optset_named known isDelim, valuesLoop_written resolves written single, values,
      folded]
    rfl
  have small := taken_length (by decide : 0 < 255) written.values
  rw [zero_add] at small
  have payload := entryData_holds small holds
  have head : taken 0 written.values = written.first ::
      taken written.first.bytes.length (written.more.map Entry.value) := by
    rw [values, taken, zero_add, if_pos written.first.bytes_length.2]
  have nonneg' : ∀ value ∈ taken 0 written.values, value.NonNegative := fun value mem =>
    nonneg value ((taken_sublist 0 written.values).subset mem)
  rw [head] at payload nonneg' ⊢
  obtain ⟨ret, printed, is⟩ := xmallocOptnameOptval_values optflag name _ _ nonneg'
  obtain ⟨text, read, whole⟩ := is.read
  have noNul : 0 ∉ name ++ [equals] := by
    rw [List.mem_append, List.mem_singleton]
    exact not_or.mpr ⟨(dhcpOptions_names _ known).2.2.1, by decide⟩
  rw [whole (by
    rw [List.mem_append]
    exact not_or.mpr ⟨noNul, printedValues_noNul _⟩)] at read
  simp only [printedBack, looped, found, there, payload, printed, read, Option.bind_eq_bind,
    Option.bind_some, if_true, Except.toOption]

/-- A script gets the values that were taken: all of them if they are shorter than 255 bytes, else
those of the list that have room. -/
theorem printedBack_written (resolves : ∀ nip : Nip, str2nip (nipText [] nip.1) = some nip)
    {name : Text} (known : (name, optflag) ∈ dhcpOptions) {delim : UInt8}
    (isDelim : delim ∈ Optset.nameDelims) (written : Written optflag.type)
    (single : optflag.list = false → written.more = [])
    (nonneg : ∀ value ∈ written.values, value.NonNegative) {optList : List (Block UInt8)}
    (absent : udhcpFindOption optList optflag.code = none) :
    printedBack str2nip true optList name optflag (name ++ delim :: written.text) =
        some (name ++ [equals] ++ printedValues (taken 0 written.values)) ∧
      ((written.values.flatMap Value.bytes).length < 255 →
        taken 0 written.values = written.values) :=
  ⟨printedBack_taken resolves known isDelim written single nonneg absent,
    fun fits => taken_all (by omega)⟩

/-- Two routes behind the name of their option. -/
theorem printedBack_written_routes :
    let net : Value .staticRoutes := .route ⟨[10, 1, 0, 0], rfl⟩ 16 (by decide) (by simp)
      ⟨[10, 0, 0, 1], rfl⟩
    let written : Written .staticRoutes := ⟨⟨[], nofun⟩, ⟨[44], by simp [Optset.valueDelims]⟩, net,
      [⟨⟨[32], by simp [Optset.valueDelims]⟩, ⟨[44], by simp [Optset.valueDelims]⟩, net⟩], ⟨[], nofun⟩⟩
    printedBack dottedNip true [] "staticroutes".toUTF8.toList ⟨.staticRoutes, false, true, 0x79⟩
        ("staticroutes".toUTF8.toList ++ 32 :: written.text) =
      some ("staticroutes".toUTF8.toList ++ [equals] ++ printedValues [net, net]) := by
  intro net written
  have known : ("staticroutes".toUTF8.toList, (⟨.staticRoutes, false, true, 0x79⟩ : DhcpOptflag)) ∈
      dhcpOptions := by decide +kernel
  have nonneg : ∀ value ∈ written.values, value.NonNegative := by
    intro value _
    cases value
    trivial
  have isDelim : 32 ∈ Optset.nameDelims := by decide
  have absent : udhcpFindOption [] 0x79 = none := rfl
  have back := printedBack_written dottedNip_nipText known isDelim written nofun nonneg absent
  rw [back.2 (by decide)] at back
  exact back.1

/-- Of 64 addresses the last one is left out, and a timezone of -1 is printed without its sign. -/
theorem printedBack_loses :
    let address : Nip := ⟨[10, 0, 0, 1], rfl⟩
    printedBack dottedNip true [] "dns".toUTF8.toList ⟨.ip, true, true, 0x06⟩
        ("dns ".toUTF8.toList ++ List.intercalate [44] (List.replicate 64 (nipText [] address.1))) =
      some ("dns=".toUTF8.toList ++
        List.intercalate [space] (List.replicate 63 (nipText [] address.1))) ∧
    printedBack dottedNip true [] "timezone".toUTF8.toList ⟨.s32, false, false, 0x02⟩
        "timezone -1".toUTF8.toList = some "timezone=4294967295".toUTF8.toList := by
  intro address
  let entry : Entry .ip := ⟨⟨[44], by simp [Optset.valueDelims]⟩,
    ⟨[44], by simp [Optset.valueDelims]⟩, .ip address⟩
  let written : Written .ip := ⟨⟨[], nofun⟩, entry.within, entry.value, List.replicate 63 entry,
    ⟨[], nofun⟩⟩
  have known : ("dns".toUTF8.toList, (⟨.ip, true, true, 0x06⟩ : DhcpOptflag)) ∈ dhcpOptions := by
    decide +kernel
  have nonneg : ∀ value ∈ written.values, value.NonNegative := by
    intro value _
    cases value
    trivial
  have isDelim : 32 ∈ Optset.nameDelims := by decide
  have absent : udhcpFindOption [] 0x06 = none := rfl
  have back := printedBack_taken dottedNip_nipText known isDelim written nofun nonneg absent
  have text : List.intercalate [44] (List.replicate 64 (nipText [] address.1)) = written.text := by
    decide +kernel
  have front : ((List.replicate 63 (Value.ip address)).flatMap Value.bytes).length = 252 := by
    rw [List.length_flatMap, List.map_replicate, List.sum_replicate_nat]
    rfl
  have taken : taken 0 written.values = List.replicate 63 (.ip address) := by
    have taken := taken_append (by rw [front]; decide : 0 + _ < 255) [.ip address]
    rwa [front] at taken
  refine ⟨?_, by decide +kernel⟩
  have lead : "dns ".toUTF8.toList = "dns".toUTF8.toList ++ [32] := by decide +kernel
  have printed : "dns=".toUTF8.toList = "dns".toUTF8.toList ++ [equals] := by decide +kernel
  rw [taken, printedValues, List.map_replicate] at back
  rw [text, lead, printed, List.append_assoc]
  exact back

end RoundTrip

end Busybox.Udhcp
