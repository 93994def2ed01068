import Busybox.Archival.GzipHeader
import Busybox.Archival.Huft

/-!
# The inflater

Where `abort_unzip` is called, the state is kept as it was then. Two fields of it are no
variables of the program: which tables `huft_build` has returned, and which code sets the
dynamic blocks have described.
-/

namespace Busybox.Archival.Gunzip

open LinkedHeap Reading

def gunzipWsize : Nat := 0x8000

/-- A bit buffer and the number of bits in it. -/
structure Bits where
  b : BitVec 32
  k : Nat
deriving DecidableEq, Repr

namespace Bits

def mask (bits : Bits) (m : Nat) : Nat := bits.b.toNat &&& m

def drop (bits : Bits) (n : Nat) : Bits := ⟨bits.b >>> n, bits.k - n⟩

end Bits

/-- `mask_bits[n]`. -/
def maskBits (n : Nat) : Nat := 2 ^ n - 1

/-- The allocated tables, `inflate_codes_tl` and `inflate_codes_td`. -/
structure Tables where
  heap : Heap Table
  tl : Pointer
  td : Pointer
  /-- The tables that `huft_build` has returned. -/
  built : List Nat
  /-- The code sets of the dynamic blocks. -/
  codeSets : List (List Nat)

/-- `method`: -1 or -2. -/
inductive Method
  | stored
  | codes
deriving DecidableEq, Repr

/-- `state_t`, and what has been written. -/
structure State where
  input : Input
  toRead : Option Nat
  errorMsg : String
  window : List UInt8
  outbufCount : Nat
  bits : Bits
  tables : Tables
  ml : Nat
  md : Nat
  bl : Nat
  bd : Nat
  codes : Bits
  w : Nat
  nn : Nat
  dd : Nat
  resumeCopy : Bool
  method : Method
  needAnotherBlock : Bool
  endReached : Bool
  storedN : Nat
  stored : Bits
  storedW : Nat
  written : List UInt8

/-- A call of `abort_unzip`, an access to what is no live table, or more turns of a loop than
a run was given. -/
inductive Leave
  | abort
  | fault
  | turns
deriving DecidableEq, Repr

abbrev M := EStateM Leave State

/-- `abort_unzip`, up to its call of `huft_free_all`. -/
def abortUnzip {α : Type} : M α := throw .abort

/-! ## Bits of the input -/

/-- "Leave the first 4 bytes empty", and the bytes that have been read behind them. -/
def refilled (input : Input) (got : List UInt8) (source : Source) : Input where
  buffer := overwrite input.buffer 4 got
  offset := 4
  size := got.length + 4
  source

/-- `sz`: `to_read` bounds it, if it is not negative. -/
def readSize (toRead : Option Nat) : Nat :=
  match toRead with
  | none => bytebufferMax - 4
  | some toRead => min toRead (bytebufferMax - 4)

/-- The input after a read of nothing, or after one that failed. -/
def ended (input : Input) (got : Option (List UInt8)) (source : Source) : Input :=
  { input with size := if got = none then 2 ^ 32 - 1 else 0, source }

def refill : M Unit := do
  let s ← get
  if s.input.size ≤ s.input.offset then
    match safeRead s.input.source (readSize s.toRead) with
    | (some (c :: got), source) =>
      set { s with
        input := refilled s.input (c :: got) source
        toRead := s.toRead.map (· - (c :: got).length) }
    | (got, source) => do
      set { s with input := ended s.input got source, errorMsg := "unexpected end of file" }
      abortUnzip
  else pure ()

def nextByte : M UInt8 := do
  refill
  let s ← get
  set { s with input := s.input.advance 1 }
  pure (s.input.buffer.getD s.input.offset 0)

/-- `fill_bitbuffer`. -/
def fillBitbuffer (required : Nat) (bits : Bits) : M Bits :=
  if bits.k < required then do
    let byte ← nextByte
    fillBitbuffer required ⟨bits.b ||| BitVec.ofNat 32 byte.toNat <<< bits.k, bits.k + 8⟩
  else pure bits
termination_by required - bits.k

/-- Bits that are read and dropped. -/
def takeBits (n : Nat) (bits : Bits) : M (Nat × Bits) := do
  let bits ← fillBitbuffer n bits
  pure (bits.mask (maskBits n), bits.drop n)

/-! ## Freeing -/

/-- `huft_free_all`, on tables that are all live. -/
def huftFreeAll (tables : Tables) : Option Tables := do
  let heap ← huftFree tables.heap tables.tl
  let heap ← huftFree heap tables.td
  some { tables with heap, tl := .null, td := .null }

def freeTables : M Unit := do
  let s ← get
  match huftFreeAll s.tables with
  | none => throw .fault
  | some tables => set { s with tables }

/-- `huft_free(inflate_codes_tl)`. -/
def freeTl : M Unit := do
  let s ← get
  match huftFree s.tables.heap s.tables.tl with
  | none => throw .fault
  | some heap => set { s with tables := { s.tables with heap := heap } }

/-! ## Coded blocks -/

/-- An entry of a table. -/
def entryAt (table : Option Nat) (index : Nat) : M Huft := do
  let s ← get
  match (table.bind (LinkedHeap.get s.tables.heap)).bind (·.entries[index]?) with
  | none => throw .fault
  | some t => pure t

/-- `v.n` of an entry. -/
def Huft.number (t : Huft) : M Nat :=
  match t.v with
  | .n value => pure value
  | .t _ => throw .fault

/-- `v.t` of an entry. -/
def Huft.table (t : Huft) : Option Nat :=
  match t.v with
  | .n _ => none
  | .t table => some table

/-- The tables behind an entry with `e` over 16. -/
def followTables (t : Huft) (bits : Bits) : (turns : Nat) → M (Huft × Bits)
  | 0 => throw .turns
  | turns + 1 =>
    if t.e = 99 then abortUnzip
    else do
      let bits ← fillBitbuffer (t.e - 16) (bits.drop t.b)
      let next ← entryAt t.table (bits.mask (maskBits (t.e - 16)))
      if 16 < next.e then followTables next bits turns else pure (next, bits.drop next.b)

/-- An entry behind a pointer. -/
def entryBehind (p : Pointer) (index : Nat) : M Huft :=
  if p.badHuft then throw .fault else entryAt p.table index

/-- The entry for the next code. -/
def decode (p : Pointer) (width m : Nat) (bits : Bits) (turns : Nat) : M (Huft × Bits) := do
  let bits ← fillBitbuffer width bits
  let t ← entryBehind p (bits.mask m)
  if 16 < t.e then followTables t bits turns else pure (t, bits.drop t.b)

/-- A literal. The result says whether the window is full. -/
def putLiteral (value : Nat) (bits : Bits) : M Bool := do
  let s ← get
  let w := s.w + 1
  let s := { s with codes := bits, window := s.window.set s.w (UInt8.ofNat value), w }
  if w = gunzipWsize then do
    set { s with outbufCount := w, w := 0 }
    pure true
  else do
    set s
    pure false

def copyBytes : (e w dd : Nat) → List UInt8 → List UInt8
  | 0, _, _, window => window
  | e + 1, w, dd, window => copyBytes e (w + 1) (dd + 1) (window.set w (window.getD dd 0))

/-- From `do_copy` on. The result says whether the window is full. -/
def doCopy : (turns : Nat) → M Bool
  | 0 => throw .turns
  | turns + 1 => do
    let s ← get
    let dd := s.dd % gunzipWsize
    let e := min (gunzipWsize - max dd s.w) s.nn
    let nn := s.nn - e
    let w := s.w + e
    let s := { s with window := copyBytes e s.w dd s.window, dd := dd + e, nn, w }
    if w = gunzipWsize then do
      set { s with outbufCount := w, resumeCopy := nn ≠ 0, w := 0 }
      pure true
    else if nn ≠ 0 then do
      set s
      doCopy turns
    else do
      set { s with resumeCopy := false }
      pure false

/-- A length with `e` bits and a distance behind it. -/
def copyString (t : Huft) (bits : Bits) (turns : Nat) : M Bool := do
  let length ← t.number
  let (extra, bits) ← takeBits t.e bits
  let s ← get
  let (far, bits) ← decode s.tables.td s.bd s.md bits turns
  let distance ← far.number
  let (more, bits) ← takeBits far.e bits
  let s ← get
  let dd := (s.w + 2 ^ 32 - (distance + more)) % 2 ^ 32
  set { s with codes := bits, nn := length + extra, dd }
  doCopy turns

/-- The end of a block: the globals are restored and the tables freed. -/
def endBlock (bits : Bits) : M Unit := do
  let s ← get
  set { s with codes := bits, outbufCount := s.w, bits := bits }
  freeTables

/-- The loop of `inflate_codes`. The result is false at the end of the block. -/
def codesLoop : (turns : Nat) → M Bool
  | 0 => throw .turns
  | turns + 1 => do
    let s ← get
    let (t, bits) ← decode s.tables.tl s.bl s.ml s.codes turns
    if t.e = 16 then do
      let value ← t.number
      let full ← putLiteral value bits
      if full then pure true else codesLoop turns
    else if t.e = 15 then do
      endBlock bits
      pure false
    else do
      let full ← copyString t bits turns
      if full then pure true else codesLoop turns

/-- `inflate_codes`. -/
def inflateCodes (turns : Nat) : M Bool := do
  let s ← get
  if s.resumeCopy then do
    let full ← doCopy turns
    if full then pure true else codesLoop turns
  else codesLoop turns

/-- `inflate_codes_setup`. -/
def inflateCodesSetup (bl bd : Nat) : M Unit :=
  modify fun s => { s with
    bl, bd, codes := s.bits, w := s.outbufCount, ml := maskBits bl, md := maskBits bd }

/-! ## Stored blocks -/

/-- `inflate_stored_setup`. -/
def inflateStoredSetup (n : Nat) (bits : Bits) : M Unit :=
  modify fun s => { s with storedN := n, stored := bits, storedW := s.outbufCount }

/-- `inflate_stored`. The result is false at the end of the block. -/
def inflateStored : (n : Nat) → M Bool
  | 0 => do
    modify fun s => { s with storedN := 2 ^ 32 - 1, outbufCount := s.storedW, bits := s.stored }
    pure false
  | n + 1 => do
    let s ← get
    let bits ← fillBitbuffer 8 s.stored
    let s ← get
    let w := s.storedW + 1
    let window := s.window.set s.storedW (UInt8.ofNat bits.b.toNat)
    let s := { s with storedN := n, stored := bits.drop 8, window, storedW := w }
    if w = gunzipWsize then do
      set { s with outbufCount := w, storedW := 0 }
      pure true
    else do
      set s
      inflateStored n

/-! ## Block headers -/

namespace Tables

/-- What `huft_build` has made becomes `inflate_codes_tl`. -/
def withTl (tables : Tables) (made : Built) : Tables :=
  { tables with
    heap := made.heap, tl := made.result, built := made.result.table.toList ++ tables.built }

/-- What `huft_build` has made becomes `inflate_codes_td`. -/
def withTd (tables : Tables) (made : Built) : Tables :=
  { tables with
    heap := made.heap, td := made.result, built := made.result.table.toList ++ tables.built }

end Tables

/-- `inflate_codes_tl = huft_build(...)`, and what is stored in `*m`. -/
def buildTl (b : List Nat) (s : Nat) (cpExt : CpExt) (m : Nat) : M Nat := do
  let state ← get
  let made := huftBuild state.tables.heap b s cpExt m
  set { state with tables := state.tables.withTl made }
  pure made.m

/-- `inflate_codes_td = huft_build(...)`, and what is stored in `*m`. -/
def buildTd (b : List Nat) (s : Nat) (cpExt : CpExt) (m : Nat) : M Nat := do
  let state ← get
  let made := huftBuild state.tables.heap b s cpExt m
  set { state with tables := state.tables.withTd made }
  pure made.m

/-- A dynamic block describes a code set. -/
def describe (b : List Nat) : M Unit :=
  modify fun s => { s with tables := { s.tables with codeSets := b :: s.tables.codeSets } }

/-- A check of `inflate_codes_tl` with `BAD_HUFT`. -/
def checkTl : M Unit := do
  let s ← get
  if s.tables.tl.badHuft then abortUnzip else pure ()

/-- A check of `inflate_codes_td` with `BAD_HUFT`. -/
def checkTd : M Unit := do
  let s ← get
  if s.tables.td.badHuft then abortUnzip else pure ()

/-- The error bit of `inflate_codes_td` is cleared. -/
def clearTd : M Unit :=
  modify fun s => { s with tables := { s.tables with td := { s.tables.td with badHuft := false } } }

/-- `case 0`. -/
def storedBlock : M Method := do
  let s ← get
  let bits := s.bits.drop (s.bits.k % 8)
  let (n, bits) ← takeBits 16 bits
  let (complement, bits) ← takeBits 16 bits
  if n ≠ maskBits 16 - complement then abortUnzip
  else do
    inflateStoredSetup n bits
    pure .stored

def fixedLengths : List Nat :=
  List.replicate 144 8 ++ List.replicate 112 9 ++ List.replicate 24 7 ++ List.replicate 8 8

/-- `case 1`. The code set of the distances is not a complete one. -/
def fixedBlock : M Method := do
  let bl ← buildTl fixedLengths 257 lit 7
  let bd ← buildTd (List.replicate 30 5) 0 dist 5
  clearTd
  inflateCodesSetup bl bd
  pure .codes

def border : List Nat := [16, 17, 18, 0, 8, 7, 9, 6, 10, 5, 11, 4, 12, 3, 13, 2, 14, 1, 15]

/-- The lengths of the `nb` first codes of `border`, and zero for the others. -/
def readBitLengths : List Nat → (nb : Nat) → (ll : List Nat) → Bits → M (List Nat × Bits)
  | [], _, ll, bits => pure (ll, bits)
  | place :: border, 0, ll, bits => readBitLengths border 0 (ll.set place 0) bits
  | place :: border, nb + 1, ll, bits => do
    let (length, bits) ← takeBits 3 bits
    readBitLengths border nb (ll.set place length) bits

/-- `while (j--) ll[i++] = l`. -/
def repeatLength (ll : List Nat) (i j l : Nat) : List Nat :=
  ll.take i ++ List.replicate j l ++ ll.drop (i + j)

/-- The literal and distance code lengths, of which there are `n`. -/
def readLengths (bl m n : Nat) (i l : Nat) (ll : List Nat) (bits : Bits) : M (List Nat × Bits) :=
  if i < n then do
    let bits ← fillBitbuffer bl bits
    let s ← get
    let td ← entryBehind s.tables.tl (bits.mask m)
    let bits := bits.drop td.b
    let code ← td.number
    if code < 16 then readLengths bl m n (i + 1) code (ll.set i code) bits
    else if code = 16 then do
      let (more, bits) ← takeBits 2 bits
      if n < i + (3 + more) then abortUnzip
      else readLengths bl m n (i + (3 + more)) l (repeatLength ll i (3 + more) l) bits
    else if code = 17 then do
      let (more, bits) ← takeBits 3 bits
      if n < i + (3 + more) then abortUnzip
      else readLengths bl m n (i + (3 + more)) 0 (repeatLength ll i (3 + more) 0) bits
    else do
      let (more, bits) ← takeBits 7 bits
      if n < i + (11 + more) then abortUnzip
      else readLengths bl m n (i + (11 + more)) 0 (repeatLength ll i (11 + more) 0) bits
  else pure (ll, bits)
termination_by n - i

/-- The table of the code lengths: nineteen codes, of at most seven bits. -/
def buildLengthTable (b : List Nat) : M Nat := do
  describe b
  let bl ← buildTl b 19 ⟨[], []⟩ 7
  checkTl
  pure bl

/-- The tables of the literal/length and of the distance codes. -/
def buildCodeTables (ll : List Nat) (nl nd : Nat) : M Unit := do
  describe (ll.take nl)
  let bl ← buildTl (ll.take nl) 257 lit 9
  checkTl
  describe ((ll.drop nl).take nd)
  let bd ← buildTd ((ll.drop nl).take nd) 0 dist 6
  checkTd
  inflateCodesSetup bl bd

/-- `case 2`. -/
def dynamicBlock : M Method := do
  let s ← get
  let (nl, bits) ← takeBits 5 s.bits
  let (nd, bits) ← takeBits 5 bits
  let (nb, bits) ← takeBits 4 bits
  if 286 < 257 + nl ∨ 30 < 1 + nd then abortUnzip
  else do
    let (ll, bits) ← readBitLengths border (4 + nb) (List.replicate (286 + 30) 0) bits
    let bl ← buildLengthTable (ll.take 19)
    let (ll, bits) ← readLengths bl (maskBits bl) (257 + nl + (1 + nd)) 0 0 ll bits
    freeTl
    modify fun s => { s with bits }
    buildCodeTables ll (257 + nl) (1 + nd)
    pure .codes

/-- `inflate_block`. -/
def inflateBlock : M Method := do
  let s ← get
  let (last, bits) ← takeBits 1 s.bits
  modify fun s => { s with endReached := last = 1 }
  let (t, bits) ← takeBits 2 bits
  modify fun s => { s with bits }
  match t with
  | 0 => storedBlock
  | 1 => fixedBlock
  | 2 => dynamicBlock
  | _ => abortUnzip

/-! ## Windows -/

/-- A block header, if one comes next. -/
def nextBlock : M Unit := do
  let s ← get
  if s.needAnotherBlock then do
    let method ← inflateBlock
    modify fun s => { s with method, needAnotherBlock := false }
  else pure ()

/-- `inflate_stored` or `inflate_codes`. -/
def inflateData (turns : Nat) : M Bool := do
  let s ← get
  match s.method with
  | .stored => inflateStored s.storedN
  | .codes => inflateCodes turns

/-- The loop of `inflate_get_next_window`. The result is false after the last block. -/
def windowLoop : (turns : Nat) → M Bool
  | 0 => throw .turns
  | turns + 1 => do
    let s ← get
    if s.needAnotherBlock ∧ s.endReached then do
      set { s with endReached := false }
      pure false
    else do
      nextBlock
      let full ← inflateData turns
      if full then pure true
      else do
        modify fun s => { s with needAnotherBlock := true }
        windowLoop turns

/-- `inflate_get_next_window`. -/
def inflateGetNextWindow (turns : Nat) : M Bool := do
  modify fun s => { s with outbufCount := 0 }
  windowLoop turns

/-- "Undo too much lookahead". -/
def undoLookahead (s : State) : State :=
  if 8 ≤ s.bits.k then
    let offset := s.input.offset - 1
    { s with
      input := { s.input with
        buffer := s.input.buffer.set offset (UInt8.ofNat s.bits.b.toNat), offset }
      bits := s.bits.drop 8 }
  else s

/-- The windows one after the other. `accepts` says whether `transformer_write` takes what has
been written so far. -/
def unzipLoop (accepts : List UInt8 → Bool) : (turns : Nat) → M Bool
  | 0 => throw .turns
  | turns + 1 => do
    let more ← inflateGetNextWindow turns
    let s ← get
    let written := s.written ++ s.window.take s.outbufCount
    set { s with written }
    if ¬ accepts written then pure false
    else if more then unzipLoop accepts turns
    else do
      modify undoLookahead
      pure true

/-- `inflate_unzip_internal`. The result is false where it returns -1 after a write. -/
def inflateUnzipInternal (accepts : List UInt8 → Bool) (turns : Nat) : M Bool := do
  modify fun s => { s with
    window := List.replicate gunzipWsize 0
    outbufCount := 0
    method := .stored
    needAnotherBlock := true
    resumeCopy := false
    bits := ⟨0, 0⟩
    errorMsg := "corrupted data" }
  unzipLoop accepts turns

end Busybox.Archival.Gunzip
