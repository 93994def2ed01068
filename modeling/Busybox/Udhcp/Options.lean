import Mathlib.Data.List.Basic
import Mathlib.Data.Nat.Bitwise
import Mathlib.Tactic.Common
import Mathlib.Tactic.Linarith

/-!
# The options of a packet

`udhcp_get_option`, `udhcp_end_option` and `udhcp_add_binary_option` over the bytes of
a packet. An options area that is well formed up to `DHCP_END` is the rendering of a
list of items, and both walks over it are scans of that list.
-/

namespace Busybox.Udhcp.Options

/-! ## Packets -/

/-- So many bytes. -/
abbrev SizedBytes (count : Nat) := {bytes : List UInt8 // bytes.length = count}

def dhcpPadding : UInt8 := 0x00
def dhcpOptionOverload : UInt8 := 0x34
def dhcpEnd : UInt8 := 0xff

def optCode : Nat := 0
def optLen : Nat := 1
def optData : Nat := 2

def fileField : Nat := 1
def snameField : Nat := 2
def fileField101 : Nat := fileField * 0x101
def snameField101 : Nat := snameField * 0x101

def dhcpOptionsBufsize : Nat := 308
/-- `CONFIG_UDHCPC_SLACK_FOR_BUGGY_SERVERS`. -/
def slack : Nat := 80

/-- `struct dhcp_packet`. -/
structure Packet where
  op : UInt8
  htype : UInt8
  hlen : UInt8
  hops : UInt8
  xid : UInt32
  secs : UInt16
  flags : UInt16
  ciaddr : UInt32
  yiaddr : UInt32
  siaddrNip : UInt32
  gatewayNip : UInt32
  chaddr : SizedBytes 16
  sname : SizedBytes 64
  file : SizedBytes 128
  cookie : UInt32
  options : SizedBytes (dhcpOptionsBufsize + slack)

/-- The areas in which options are looked for. -/
inductive Field
  | options
  | file
  | sname
deriving DecidableEq, Repr

def Packet.field (packet : Packet) : Field → List UInt8
  | .options => packet.options
  | .file => packet.file
  | .sname => packet.sname

/-- The byte at an index into a field. `rem` keeps the reader inside the field. -/
def Packet.byte (packet : Packet) (field : Field) (index : Nat) : UInt8 :=
  (packet.field field).getD index 0

/-! ## Finding an option -/

/-- What `udhcp_get_option` ends with: a pointer to the data, or null after the
"malformed option field" complaint, or null without one. -/
inductive Lookup
  | found (field : Field) (optionptr : Nat)
  | malformed
  | notFound
deriving DecidableEq, Repr

/-- How many of the overload fields have not been looked at yet. -/
def unseen (overload : Nat) : Nat := (!overload.testBit 8).toNat + (!overload.testBit 9).toNat

/-- The high bit of `field101` is set in an overload that was looked at. -/
theorem clear_of_open {overload field101 field bit : Nat}
    (untouched : overload &&& field101 = field) (high : field101.testBit bit = true)
    (low : field.testBit bit = false) : overload.testBit bit = false := by
  have bits := congrArg (Nat.testBit · bit) untouched
  simpa only [Nat.testBit_and, high, low, Bool.and_true] using bits

theorem unseen_file {overload : Nat} (untouched : overload &&& fileField101 = fileField) :
    unseen (overload ||| fileField101) < unseen overload := by
  have clear : overload.testBit 8 = false := clear_of_open untouched (by decide) (by decide)
  have high : fileField101.testBit 8 = true := by decide
  have other : fileField101.testBit 9 = false := by decide
  simp only [unseen, Nat.testBit_or, clear, high, other, Bool.or_false, Bool.or_true]
  cases overload.testBit 9 <;> decide

theorem unseen_sname {overload : Nat} (untouched : overload &&& snameField101 = snameField) :
    unseen (overload ||| snameField101) < unseen overload := by
  have clear : overload.testBit 9 = false := clear_of_open untouched (by decide) (by decide)
  have high : snameField101.testBit 9 = true := by decide
  have other : snameField101.testBit 8 = false := by decide
  simp only [unseen, Nat.testBit_or, clear, high, other, Bool.or_false, Bool.or_true]
  cases overload.testBit 8 <;> decide

theorem unseen_or (overload data : Nat) : unseen (overload ||| data) ≤ unseen overload := by
  simp only [unseen, Nat.testBit_or]
  cases overload.testBit 8 <;> cases overload.testBit 9 <;>
    cases data.testBit 8 <;> cases data.testBit 9 <;> decide

/-- The loop of `udhcp_get_option`, from one option or padding byte on. -/
def getOptionFrom (packet : Packet) (code : Int) (field : Field) (optionptr : Nat) (rem : Int)
    (overload : Nat) : Lookup :=
  if rem ≤ 0 then .malformed
  else if packet.byte field (optionptr + optCode) = dhcpPadding then
    getOptionFrom packet code field (optionptr + 1) (rem - 1) overload
  else if packet.byte field (optionptr + optCode) = dhcpEnd then
    if overload &&& fileField101 = fileField then
      -- can use packet->file, and didn't look at it yet
      getOptionFrom packet code .file 0 128 (overload ||| fileField101)
    else if overload &&& snameField101 = snameField then
      -- can use packet->sname, and didn't look at it yet
      getOptionFrom packet code .sname 0 64 (overload ||| snameField101)
    else .notFound
  else if rem ≤ optLen then .malformed
  else
    let len := 2 + (packet.byte field (optionptr + optLen)).toNat
    if rem - len < 0 then .malformed
    else if (packet.byte field (optionptr + optCode)).toNat = code then
      if packet.byte field (optionptr + optLen) = 0 then .malformed
      else .found field (optionptr + optData)
    else if packet.byte field (optionptr + optCode) = dhcpOptionOverload ∧ 3 ≤ len then
      getOptionFrom packet code field (optionptr + len) (rem - len)
        (overload ||| (packet.byte field (optionptr + optData)).toNat)
    else getOptionFrom packet code field (optionptr + len) (rem - len) overload
termination_by (unseen overload, rem.toNat)
decreasing_by
  · exact Prod.Lex.right _ (by omega)
  · exact Prod.Lex.left _ _ (unseen_file ‹_›)
  · exact Prod.Lex.left _ _ (unseen_sname ‹_›)
  · rcases (unseen_or overload (packet.byte field (optionptr + optData)).toNat).lt_or_eq with
      less | same
    · exact Prod.Lex.left _ _ less
    · rw [same]
      exact Prod.Lex.right _ (by omega)
  · exact Prod.Lex.right _ (by omega)

/-- `udhcp_get_option`. -/
def udhcpGetOption (packet : Packet) (code : Int) : Lookup :=
  getOptionFrom packet code .options 0 packet.options.val.length 0

/-- The data bytes at a pointer that `udhcp_get_option` returned: the byte before it
is their number. -/
def Packet.dataAt (packet : Packet) (field : Field) (optionptr : Nat) : List UInt8 :=
  ((packet.field field).drop optionptr).take
    (packet.byte field (optionptr - optData + optLen)).toNat

/-- What a caller of `udhcp_get_option` sees of a packet. -/
def Packet.seen (packet : Packet) (code : Int) : Lookup × List UInt8 :=
  match udhcpGetOption packet code with
  | .found field optionptr => (.found field optionptr, packet.dataAt field optionptr)
  | other => (other, [])

/-! ## Adding an option -/

/-- `udhcp_end_option`: the position of the end marker, and nothing when the walk leaves
the buffer. -/
def endOptionFrom (bytes : List UInt8) (i : Nat) : Option Nat :=
  if inside : i < bytes.length then
    if bytes[i] = dhcpEnd then some i
    else if bytes[i] = dhcpPadding then endOptionFrom bytes (i + 1)
    else if lenInside : i + optLen < bytes.length then
      endOptionFrom bytes (i + (bytes[i + optLen].toNat + (optData - 1)) + 1)
    else none
  else none
termination_by bytes.length - i

def udhcpEndOption (bytes : List UInt8) : Option Nat := endOptionFrom bytes 0

/-- `memcpy` into a buffer at an offset. -/
def memcpy (bytes : List UInt8) (offset : Nat) (source : List UInt8) : List UInt8 :=
  bytes.take offset ++ source ++ bytes.drop (offset + source.length)

theorem length_memcpy {bytes source : List UInt8} {offset : Nat}
    (inside : offset + source.length ≤ bytes.length) :
    (memcpy bytes offset source).length = bytes.length := by
  simp only [memcpy, List.length_append, List.length_take, List.length_drop]
  omega

/-- What `udhcp_add_binary_option` leaves: the packet, and the code of the option in the
message "option 0x%02x did not fit into the packet", if it was printed. -/
structure Outcome where
  packet : Packet
  didNotFit : Option UInt8

/-- `udhcp_add_binary_option`. -/
def udhcpAddBinaryOption (packet : Packet) (addopt : List UInt8) : Option Outcome :=
  match udhcpEndOption packet.options with
  | none => none
  | some end_ =>
    let len := optData + (addopt.getD optLen 0).toNat
    -- end position + (option code/length + addopt length) + end option
    if fits : end_ + len + 1 < dhcpOptionsBufsize then
      some
        { packet :=
            { packet with
              options :=
                ⟨(memcpy packet.options end_ (addopt.take len)).set (end_ + len) dhcpEnd, by
                  rw [List.length_set, length_memcpy, packet.options.2]
                  have short := List.length_take_le len addopt
                  have size := packet.options.2
                  simp only [dhcpOptionsBufsize] at fits size
                  omega⟩ }
          didNotFit := none }
    else some { packet, didNotFit := some (addopt.getD optCode 0) }

/-! ## Well-formed areas -/

/-- An option that can be told from padding and from the end marker. -/
structure BinaryOption where
  code : UInt8
  data : List UInt8
  notPadding : code ≠ dhcpPadding
  notEnd : code ≠ dhcpEnd
  short : data.length < 256

/-- `[code][len][data1][data2]..[dataLEN]` -/
def BinaryOption.bytes (option : BinaryOption) : List UInt8 :=
  option.code :: UInt8.ofNat option.data.length :: option.data

inductive Item
  | padding
  | entry (option : BinaryOption)

def Item.bytes : Item → List UInt8
  | .padding => [dhcpPadding]
  | .entry option => option.bytes

def render (items : List Item) : List UInt8 := items.flatMap Item.bytes

/-- Bytes that are well formed up to `DHCP_END`: padding and whole options, then the
marker, then anything. -/
structure WellFormed (bytes : List UInt8) where
  items : List Item
  rest : List UInt8
  bytes_eq : bytes = render items ++ dhcpEnd :: rest

/-- The option is among the items. -/
def WellFormed.Present {bytes : List UInt8} (area : WellFormed bytes) (code : UInt8) : Prop :=
  ∃ option, Item.entry option ∈ area.items ∧ option.code = code

@[simp] theorem render_nil : render [] = [] := rfl

@[simp] theorem render_cons (item : Item) (items : List Item) :
    render (item :: items) = item.bytes ++ render items := rfl

theorem render_append (front back : List Item) :
    render (front ++ back) = render front ++ render back :=
  List.flatMap_append

@[simp] theorem BinaryOption.length_bytes (option : BinaryOption) :
    option.bytes.length = option.data.length + 2 := rfl

@[simp] theorem BinaryOption.toNat_len (option : BinaryOption) :
    (UInt8.ofNat option.data.length).toNat = option.data.length :=
  UInt8.toNat_ofNat_of_lt option.short

/-! ## The walk of the writer -/

theorem endOptionFrom_end {bytes : List UInt8} {i : Nat} (marker : bytes[i]? = some dhcpEnd) :
    endOptionFrom bytes i = some i := by
  obtain ⟨inside, byte⟩ := List.getElem?_eq_some_iff.mp marker
  rw [endOptionFrom, dif_pos inside, if_pos byte]

theorem endOptionFrom_padding {bytes : List UInt8} {i : Nat}
    (padding : bytes[i]? = some dhcpPadding) :
    endOptionFrom bytes i = endOptionFrom bytes (i + 1) := by
  obtain ⟨inside, byte⟩ := List.getElem?_eq_some_iff.mp padding
  rw [endOptionFrom, dif_pos inside, byte, if_neg (by decide), if_pos rfl]

theorem endOptionFrom_entry {bytes : List UInt8} {i : Nat} {option : BinaryOption}
    (code : bytes[i]? = some option.code)
    (len : bytes[i + optLen]? = some (UInt8.ofNat option.data.length)) :
    endOptionFrom bytes i = endOptionFrom bytes (i + option.bytes.length) := by
  obtain ⟨inside, byte⟩ := List.getElem?_eq_some_iff.mp code
  obtain ⟨lenInside, lenByte⟩ := List.getElem?_eq_some_iff.mp len
  rw [endOptionFrom, dif_pos inside, byte, if_neg option.notEnd, if_neg option.notPadding,
    dif_pos lenInside]
  simp only [optData, lenByte, option.toNat_len, option.length_bytes]
  congr 1

/-- The walk over rendered items ends at the marker behind them. -/
theorem endOptionFrom_render (items : List Item) (front rest : List UInt8) :
    endOptionFrom (front ++ (render items ++ dhcpEnd :: rest)) front.length =
      some (front ++ render items).length := by
  induction items generalizing front with
  | nil => simp [endOptionFrom_end]
  | cons item items ih =>
    have next := ih (front ++ item.bytes)
    rw [List.append_assoc, ← List.append_assoc item.bytes, ← render_cons, List.append_assoc front,
      ← render_cons, List.length_append] at next
    rw [← next]
    cases item with
    | padding => exact endOptionFrom_padding (by simp [Item.bytes])
    | entry option =>
      exact endOptionFrom_entry (by simp [Item.bytes, BinaryOption.bytes])
        (by simp [Item.bytes, BinaryOption.bytes, optLen])

theorem WellFormed.udhcpEndOption_eq {bytes : List UInt8} (area : WellFormed bytes) :
    udhcpEndOption bytes = some (render area.items).length := by
  have walk := endOptionFrom_render area.items [] area.rest
  rwa [List.nil_append, List.nil_append, ← area.bytes_eq] at walk

/-! ## The walk of the reader -/

section Reader

variable {packet : Packet} {code rem : Int} {field : Field} {optionptr overload : Nat}

/-- What the reader does at an end marker. -/
def atEnd (packet : Packet) (code : Int) (overload : Nat) : Lookup :=
  if overload &&& fileField101 = fileField then
    getOptionFrom packet code .file 0 128 (overload ||| fileField101)
  else if overload &&& snameField101 = snameField then
    getOptionFrom packet code .sname 0 64 (overload ||| snameField101)
  else .notFound

/-- The overload flags after an option that is passed over. -/
def BinaryOption.flags (option : BinaryOption) (overload : Nat) : Nat :=
  if option.code = dhcpOptionOverload then
    match option.data with
    | [] => overload
    | first :: _ => overload ||| first.toNat
  else overload

/-- The reader's walk over a list of items: a result, or the flags at the end marker. -/
def scan (field : Field) (code : Int) : List Item → Nat → Nat → Lookup ⊕ Nat
  | [], _, overload => .inr overload
  | .padding :: items, optionptr, overload => scan field code items (optionptr + 1) overload
  | .entry option :: items, optionptr, overload =>
    if option.code.toNat = code then
      if option.data = [] then .inl .malformed else .inl (.found field (optionptr + optData))
    else scan field code items (optionptr + option.bytes.length) (option.flags overload)

theorem getOptionFrom_end (inside : 0 < rem) (marker : packet.byte field optionptr = dhcpEnd) :
    getOptionFrom packet code field optionptr rem overload = atEnd packet code overload := by
  rw [getOptionFrom, if_neg (by omega)]
  simp only [optCode, Nat.add_zero, marker]
  rw [if_neg (by decide), if_pos trivial, atEnd]

theorem getOptionFrom_padding (inside : 0 < rem)
    (padding : packet.byte field optionptr = dhcpPadding) :
    getOptionFrom packet code field optionptr rem overload =
      getOptionFrom packet code field (optionptr + 1) (rem - 1) overload := by
  rw [getOptionFrom, if_neg (by omega)]
  simp only [optCode, Nat.add_zero, padding]
  rw [if_pos trivial]

/-- An option of another code is passed over. -/
theorem getOptionFrom_entry {option : BinaryOption} (inside : option.bytes.length ≤ rem)
    (codeByte : packet.byte field optionptr = option.code)
    (lenByte : packet.byte field (optionptr + 1) = UInt8.ofNat option.data.length)
    (dataByte : ∀ first tail, option.data = first :: tail →
      packet.byte field (optionptr + 2) = first)
    (other : (option.code.toNat : Int) ≠ code) :
    getOptionFrom packet code field optionptr rem overload =
      getOptionFrom packet code field (optionptr + option.bytes.length)
        (rem - option.bytes.length) (option.flags overload) := by
  rw [option.length_bytes] at inside ⊢
  rw [getOptionFrom, if_neg (by omega)]
  simp only [optCode, optLen, optData, Nat.add_zero, codeByte, lenByte, option.toNat_len]
  rw [if_neg option.notPadding, if_neg option.notEnd, if_neg (by omega), if_neg (by omega),
    if_neg other, Nat.add_comm 2]
  unfold BinaryOption.flags
  by_cases overloads : option.code = dhcpOptionOverload
  · cases data : option.data with
    | nil => simp [overloads]
    | cons first tail =>
      rw [dataByte first tail data, if_pos ⟨overloads, by simp⟩, if_pos overloads]
  · rw [if_neg (fun both => overloads both.1), if_neg overloads]

/-- An option of the code that is looked for ends the walk. -/
theorem getOptionFrom_match {option : BinaryOption} (inside : option.bytes.length ≤ rem)
    (codeByte : packet.byte field optionptr = option.code)
    (lenByte : packet.byte field (optionptr + 1) = UInt8.ofNat option.data.length)
    (same : (option.code.toNat : Int) = code) :
    getOptionFrom packet code field optionptr rem overload =
      if option.data = [] then .malformed else .found field (optionptr + optData) := by
  rw [option.length_bytes] at inside
  have empty : UInt8.ofNat option.data.length = 0 ↔ option.data = [] := by
    rw [← UInt8.toNat_inj, option.toNat_len, UInt8.toNat_zero, List.length_eq_zero_iff]
  rw [getOptionFrom, if_neg (by omega)]
  simp only [optCode, optLen, Nat.add_zero, codeByte, lenByte, option.toNat_len]
  rw [if_neg option.notPadding, if_neg option.notEnd, if_neg (by omega), if_neg (by omega),
    if_pos same]
  simp only [empty]

theorem byte_append (front : List UInt8) {tail : List UInt8} {byte : UInt8}
    (bytes : packet.field field = front ++ byte :: tail) :
    packet.byte field front.length = byte := by
  simp [Packet.byte, bytes]

/-- The reader's walk over rendered items is the scan of the items. -/
theorem getOptionFrom_render (packet : Packet) (code : Int) (field : Field) (items : List Item) (front rest : List UInt8) (overload : Nat)
    (bytes : packet.field field = front ++ (render items ++ dhcpEnd :: rest)) :
    getOptionFrom packet code field front.length (render items ++ dhcpEnd :: rest).length overload =
      (scan field code items front.length overload).elim id (atEnd packet code) := by
  induction items generalizing front overload with
  | nil =>
    rw [getOptionFrom_end (by simp) (byte_append front (by simpa using bytes))]
    rfl
  | cons item items ih =>
    have next := fun overload => ih (front ++ item.bytes) overload
      (by simpa [List.append_assoc] using bytes)
    rw [List.length_append] at next
    have split : ((render (item :: items) ++ dhcpEnd :: rest).length : Int) =
        item.bytes.length + (render items ++ dhcpEnd :: rest).length := by
      simp
    cases item with
    | padding =>
      rw [getOptionFrom_padding (by simp; omega) (byte_append front (by simpa [Item.bytes] using bytes)),
        scan, split]
      simpa [Item.bytes] using next overload
    | entry option =>
      have codeByte : packet.byte field front.length = option.code :=
        byte_append front (by simpa [Item.bytes, BinaryOption.bytes] using bytes)
      have lenByte : packet.byte field (front.length + 1) = UInt8.ofNat option.data.length := by
        simpa using byte_append (front ++ [option.code])
          (by simpa [Item.bytes, BinaryOption.bytes] using bytes)
      have dataByte : ∀ first tail, option.data = first :: tail →
          packet.byte field (front.length + 2) = first := by
        intro first tail data
        simpa using byte_append (front ++ [option.code, UInt8.ofNat option.data.length])
          (by simpa [Item.bytes, BinaryOption.bytes, data] using bytes)
      rw [scan, split]
      by_cases same : (option.code.toNat : Int) = code
      · rw [getOptionFrom_match (by simp [Item.bytes]; omega) codeByte lenByte same, if_pos same]
        split <;> rfl
      · rw [getOptionFrom_entry (by simp [Item.bytes]; omega) codeByte lenByte dataByte same,
          if_neg same]
        simp only [Item.bytes] at next ⊢
        rw [add_sub_cancel_left, next]

/-- The reader of a well-formed options area scans its items. -/
theorem udhcpGetOption_eq (packet : Packet) (area : WellFormed packet.options.val) (code : Int) :
    udhcpGetOption packet code =
      (scan .options code area.items 0 0).elim id (atEnd packet code) := by
  have walk := getOptionFrom_render packet code .options area.items [] area.rest 0 area.bytes_eq
  rwa [← area.bytes_eq] at walk

/-- In the overload fields the reader never comes back to the options area. -/
theorem getOptionFrom_congr {after : Packet} (sname : after.sname = packet.sname)
    (file : after.file = packet.file) (overloaded : field ≠ .options) :
    getOptionFrom after code field optionptr rem overload =
      getOptionFrom packet code field optionptr rem overload := by
  have bytes : ∀ field index, field ≠ .options → after.byte field index = packet.byte field index := by
    intro field index overloaded
    cases field with
    | options => exact absurd rfl overloaded
    | file => simp only [Packet.byte, Packet.field, file]
    | sname => simp only [Packet.byte, Packet.field, sname]
  fun_induction getOptionFrom packet code field optionptr rem overload <;>
    rw [getOptionFrom] <;> simp only [bytes _ _ overloaded] <;> grind

theorem atEnd_congr {after : Packet} (sname : after.sname = packet.sname)
    (file : after.file = packet.file) : atEnd after code overload = atEnd packet code overload := by
  simp only [atEnd, getOptionFrom_congr sname file (by decide : Field.file ≠ .options),
    getOptionFrom_congr sname file (by decide : Field.sname ≠ .options)]

/-- What is found in the overload fields lies in them. -/
theorem getOptionFrom_field {found : Field} {pointer : Nat} (overloaded : field ≠ .options)
    (result : getOptionFrom packet code field optionptr rem overload = .found found pointer) :
    found ≠ .options := by
  fun_induction getOptionFrom packet code field optionptr rem overload <;> grind

theorem atEnd_field {found : Field} {pointer : Nat}
    (result : atEnd packet code overload = .found found pointer) : found ≠ .options := by
  unfold atEnd at result
  split at result
  · exact getOptionFrom_field (by decide) result
  · split at result
    · exact getOptionFrom_field (by decide) result
    · cases result

/-! ## Scans -/

/-- A scan that finds something has met the option at the pointer. -/
theorem scan_found {items : List Item} {found : Field} {pointer : Nat}
    (result : scan field code items optionptr overload = .inl (.found found pointer)) :
    found = field ∧ ∃ front option back, items = front ++ .entry option :: back ∧
      pointer = optionptr + (render front).length + optData := by
  induction items generalizing optionptr overload with
  | nil => cases result
  | cons item items ih =>
    cases item with
    | padding =>
      obtain ⟨same, front, option, back, rfl, rfl⟩ := ih result
      exact ⟨same, .padding :: front, option, back, rfl, by simp [Item.bytes]; omega⟩
    | entry option =>
      rw [scan] at result
      split at result
      · split at result
        · cases result
        · cases result
          exact ⟨rfl, [], option, items, rfl, rfl⟩
      · obtain ⟨same, front, later, back, rfl, rfl⟩ := ih result
        exact ⟨same, .entry option :: front, later, back, rfl, by simp [Item.bytes]; omega⟩

/-- An option of another code behind the items changes no scan, unless it sets flags. -/
theorem scan_append_other {added : BinaryOption} (other : (added.code.toNat : Int) ≠ code)
    (noFlags : added.code ≠ dhcpOptionOverload) (items : List Item) :
    scan field code (items ++ [.entry added]) optionptr overload =
      scan field code items optionptr overload := by
  induction items generalizing optionptr overload with
  | nil => simp only [List.nil_append, scan, if_neg other, BinaryOption.flags, if_neg noFlags]
  | cons item items ih =>
    cases item with
    | padding => exact ih
    | entry option => simp only [List.cons_append, scan, ih]

/-- An option behind items without its code is what a scan for it finds. -/
theorem scan_append_match (field : Field) (optionptr overload : Nat) {added : BinaryOption}
    (nonempty : added.data ≠ []) {items : List Item}
    (absent : ∀ option, Item.entry option ∈ items → option.code ≠ added.code) :
    scan field added.code.toNat (items ++ [.entry added]) optionptr overload =
      .inl (.found field (optionptr + (render items).length + optData)) := by
  induction items generalizing optionptr overload with
  | nil => simp only [List.nil_append, scan, if_neg nonempty, render_nil, List.length_nil,
      Nat.add_zero, if_true]
  | cons item items ih =>
    have later := fun option member => absent option (List.mem_cons_of_mem item member)
    rw [render_cons, List.length_append, ← Nat.add_assoc]
    cases item with
    | padding => exact ih _ _ later
    | entry option =>
      have different : ¬ (option.code.toNat : Int) = added.code.toNat := fun same =>
        absent option List.mem_cons_self (UInt8.toNat_inj.mp (Int.ofNat_inj.mp same))
      rw [List.cons_append, scan, if_neg different]
      exact ih _ _ later

/-- The data at a pointer into rendered items are the data of the option there. -/
theorem dataAt_entry (packet : Packet) (field : Field) (front : List UInt8)
    (option : BinaryOption) (tail : List UInt8)
    (bytes : packet.field field = front ++ (option.bytes ++ tail)) :
    packet.dataAt field (front.length + optData) = option.data := by
  have lenByte : packet.byte field (front.length + optData - optData + optLen) =
      UInt8.ofNat option.data.length := by
    simpa [optLen] using byte_append (front ++ [option.code])
      (by simpa [BinaryOption.bytes] using bytes)
  rw [Packet.dataAt, lenByte, option.toNat_len, bytes]
  simp [BinaryOption.bytes, optData, List.drop_append, List.drop_of_length_le]

end Reader

/-! ## What an added option changes -/

/-- Two packets with the same overload fields whose options areas scan alike, and alike
at what is found, are seen alike. -/
theorem seen_congr {packet after : Packet} {code : Int} (area : WellFormed packet.options.val)
    (extended : WellFormed after.options.val) {more : List Item}
    (items : extended.items = area.items ++ more) (sname : after.sname = packet.sname)
    (file : after.file = packet.file)
    (alike : scan .options code extended.items 0 0 = scan .options code area.items 0 0) :
    after.seen code = packet.seen code := by
  have same : udhcpGetOption after code = udhcpGetOption packet code := by
    rw [udhcpGetOption_eq after extended, udhcpGetOption_eq packet area, alike]
    congr 1
    exact funext fun overload => atEnd_congr sname file
  simp only [Packet.seen, same]
  split
  case h_2 => rfl
  case h_1 field optionptr found =>
    rw [udhcpGetOption_eq packet area] at found
    cases result : scan .options code area.items 0 0 with
    | inl lookup =>
      rw [result] at found
      obtain rfl : lookup = .found field optionptr := found
      obtain ⟨rfl, front, option, back, split, rfl⟩ := scan_found result
      have before := dataAt_entry packet .options (render front) option
        (render back ++ dhcpEnd :: area.rest) (area.bytes_eq.trans (by
          rw [split]
          simp [render_append, Item.bytes]))
      have behind := dataAt_entry after .options (render front) option
        (render back ++ (render more ++ dhcpEnd :: extended.rest)) (extended.bytes_eq.trans (by
          rw [items, split]
          simp [render_append, Item.bytes]))
      rw [Nat.zero_add, before, behind]
    | inr overload =>
      rw [result] at found
      have overloaded := atEnd_field found
      cases field with
      | options => exact absurd rfl overloaded
      | file => simp only [Packet.dataAt, Packet.byte, Packet.field, file]
      | sname => simp only [Packet.dataAt, Packet.byte, Packet.field, sname]

/-- The packet's options area has room for an option of so many data bytes. -/
def HasRoom (packet : Packet) (len : Nat) : Prop :=
  ∃ end_, udhcpEndOption packet.options = some end_ ∧
    end_ + (optData + len) + 1 < dhcpOptionsBufsize

/-- The bytes that `udhcp_add_binary_option` writes over the old end marker. -/
theorem memcpy_end {front rest added : List UInt8} (fits : added.length < (dhcpEnd :: rest).length) :
    (memcpy (front ++ dhcpEnd :: rest) front.length added).set (front.length + added.length)
        dhcpEnd =
      front ++ (added ++ dhcpEnd :: (dhcpEnd :: rest).drop (added.length + 1)) := by
  have behind := List.drop_eq_getElem_cons fits
  have copied : memcpy (front ++ dhcpEnd :: rest) front.length added =
      (front ++ added) ++ (dhcpEnd :: rest).drop added.length := by
    rw [memcpy, List.take_left', List.drop_length_add_append]
    rfl
  rw [copied, behind, ← List.length_append, List.set_append_right _ _ (Nat.le_refl _),
    Nat.sub_self, List.set_cons_zero, List.append_assoc]

/-- With room, the option is behind the items that were there. -/
theorem udhcpAddBinaryOption_room {packet : Packet} (area : WellFormed packet.options.val)
    (added : BinaryOption) (trailing : List UInt8) (room : HasRoom packet added.data.length) :
    ∃ after, udhcpAddBinaryOption packet (added.bytes ++ trailing) = some ⟨after, none⟩ ∧
      after.sname = packet.sname ∧ after.file = packet.file ∧
      ∃ extended : WellFormed after.options.val,
        extended.items = area.items ++ [.entry added] := by
  obtain ⟨end_, walk, fits⟩ := room
  obtain rfl : end_ = (render area.items).length :=
    Option.some.inj (walk.symm.trans area.udhcpEndOption_eq)
  have len : optData + ((added.bytes ++ trailing).getD optLen 0).toNat = added.bytes.length := by
    rw [added.length_bytes, Nat.add_comm, ← added.toNat_len]
    rfl
  have size := packet.options.2
  rw [area.bytes_eq, List.length_append] at size
  have inside : added.bytes.length < (dhcpEnd :: area.rest).length := by
    simp only [added.length_bytes, optData, dhcpOptionsBufsize, slack] at fits size ⊢
    omega
  have copied : (added.bytes ++ trailing).take added.bytes.length = added.bytes :=
    List.take_left' rfl
  have written : (memcpy packet.options (render area.items).length
      ((added.bytes ++ trailing).take added.bytes.length)).set
        ((render area.items).length + added.bytes.length) dhcpEnd =
      render (area.items ++ [.entry added]) ++
        dhcpEnd :: (dhcpEnd :: area.rest).drop (added.bytes.length + 1) := by
    rw [copied]
    refine (congrArg (fun bytes => (memcpy bytes _ added.bytes).set _ dhcpEnd)
      area.bytes_eq).trans ((memcpy_end inside).trans ?_)
    simp [render_append, Item.bytes]
  have fitting : (render area.items).length + added.bytes.length + 1 < dhcpOptionsBufsize := by
    rwa [added.length_bytes, Nat.add_comm added.data.length]
  unfold udhcpAddBinaryOption
  simp only [walk, len]
  rw [dif_pos fitting]
  exact ⟨_, rfl, rfl, rfl, ⟨_, _, written⟩, rfl⟩

/-- Without room, the packet is left as it is. -/
theorem udhcpAddBinaryOption_noRoom {packet : Packet} (area : WellFormed packet.options.val)
    (added : BinaryOption) (trailing : List UInt8) (noRoom : ¬ HasRoom packet added.data.length) :
    udhcpAddBinaryOption packet (added.bytes ++ trailing) = some ⟨packet, some added.code⟩ := by
  have walk := area.udhcpEndOption_eq
  have len : optData + ((added.bytes ++ trailing).getD optLen 0).toNat =
      optData + added.data.length := by
    rw [← added.toNat_len]
    rfl
  unfold udhcpAddBinaryOption
  simp only [walk, len]
  rw [dif_neg fun fits => noRoom ⟨_, walk, fits⟩]
  rfl

/-- An option that is not there yet, added to a packet whose options area is well formed:
with room, a search for its code finds exactly its data and every other search sees
what it saw before; without room, the packet is unchanged. -/
theorem udhcpAddBinaryOption_frame {packet : Packet} (area : WellFormed packet.options.val)
    (added : BinaryOption) (trailing : List UInt8) (nonempty : 1 ≤ added.data.length)
    (noFlags : added.code ≠ dhcpOptionOverload) (absent : ¬ area.Present added.code) :
    ∃ outcome, udhcpAddBinaryOption packet (added.bytes ++ trailing) = some outcome ∧
      (HasRoom packet added.data.length →
        (∃ field optionptr,
          outcome.packet.seen added.code.toNat = (.found field optionptr, added.data)) ∧
        ∀ code : Int, code ≠ added.code.toNat →
          outcome.packet.seen code = packet.seen code) ∧
      (¬ HasRoom packet added.data.length → outcome.packet = packet) := by
  by_cases room : HasRoom packet added.data.length
  · obtain ⟨after, result, sname, file, extended, items⟩ :=
      udhcpAddBinaryOption_room area added trailing room
    refine ⟨_, result, fun _ => ⟨?_, ?_⟩, fun noRoom => absurd room noRoom⟩
    · have match_ := scan_append_match .options 0 0
        (List.ne_nil_of_length_pos nonempty) fun option member same => absent ⟨option, member, same⟩
      have found : udhcpGetOption after added.code.toNat =
          .found .options ((render area.items).length + optData) := by
        rw [udhcpGetOption_eq after extended, items, match_, Nat.zero_add]
        rfl
      refine ⟨.options, (render area.items).length + optData, ?_⟩
      simp only [Packet.seen, found]
      rw [dataAt_entry after .options (render area.items) added
        (dhcpEnd :: extended.rest) (extended.bytes_eq.trans (by
          rw [items]
          simp [render_append, Item.bytes]))]
    · intro code other
      apply seen_congr area extended items sname file
      rw [items, scan_append_other (Ne.symm other) noFlags]
  · have result := udhcpAddBinaryOption_noRoom area added trailing room
    exact ⟨_, result, fun has => absurd has room, fun _ => rfl⟩

/-- `DHCP_MESSAGE_TYPE`, an acknowledgement. -/
def messageType : BinaryOption := ⟨53, [5], by decide, by decide, by decide⟩

/-- `DHCP_HOST_NAME`, of two letters. -/
def hostName : BinaryOption := ⟨12, [104, 105], by decide, by decide, by decide⟩

/-- An acknowledgement whose only option is its type. -/
def acknowledgement : Packet where
  op := 2
  htype := 1
  hlen := 6
  hops := 0
  xid := 0
  secs := 0
  flags := 0
  ciaddr := 0
  yiaddr := 0
  siaddrNip := 0
  gatewayNip := 0
  chaddr := ⟨List.replicate 16 0, List.length_replicate⟩
  sname := ⟨List.replicate 64 0, List.length_replicate⟩
  file := ⟨List.replicate 128 0, List.length_replicate⟩
  cookie := 0
  options := ⟨messageType.bytes ++ dhcpEnd :: List.replicate 384 0, by
    rw [List.length_append, List.length_cons, List.length_replicate]
    rfl⟩

/-- Its options area. -/
def acknowledgementArea : WellFormed acknowledgement.options.val where
  items := [.entry messageType]
  rest := List.replicate 384 0
  bytes_eq := rfl

theorem udhcpAddBinaryOption_frame_hostName :
    ∃ outcome, udhcpAddBinaryOption acknowledgement (hostName.bytes ++ []) = some outcome ∧
      (∃ field optionptr, outcome.packet.seen 12 = (.found field optionptr, [104, 105])) ∧
      ∀ code : Int, code ≠ 12 → outcome.packet.seen code = acknowledgement.seen code := by
  have room : HasRoom acknowledgement hostName.data.length :=
    ⟨3, acknowledgementArea.udhcpEndOption_eq, by decide⟩
  have absent : ¬ acknowledgementArea.Present hostName.code := by
    rintro ⟨option, member, same⟩
    obtain rfl : option = messageType := Item.entry.inj (List.mem_singleton.mp member)
    exact absurd same (by decide)
  obtain ⟨outcome, result, added, _⟩ :=
    udhcpAddBinaryOption_frame acknowledgementArea hostName [] (by decide) (by decide) absent
  exact ⟨outcome, result, added room⟩

end Busybox.Udhcp.Options
