import Busybox.Libbb.Strings

/-!
# Encoding

`bb_uuencode` turns three bytes into four characters of a table and overwrites
the last one or two characters with the table's termination character when the
bytes run out. `uuencode` writes lines of 45 bytes between a header and a trailer,
the traditional ones with their length in front; `base64` writes lines of 57
bytes and nothing else.
-/

namespace Busybox.Uuencode

/-- Conversion table for base 64, with its termination character. -/
def uuencTblBase64 : List UInt8 :=
  ascii "ABCDEFGHIJKLMNOPQRSTUVWXYZabcdefghijklmnopqrstuvwxyz0123456789+/="

/-- The characters from '!' to '_' behind a '`', which is also the termination character. -/
def uuencTblStd : List UInt8 := ascii "`!\"#$%&'()*+,-./0123456789:;<=>?@ABCDEFGHIJKLMNOPQRSTUVWXYZ[\\]^_`"

/-- The 3x8 bits of three bytes as 4x6 bits. -/
def sixBits (s0 s1 s2 : Nat) : List Nat :=
  [s0 >>> 2, ((s0 &&& 3) <<< 4) + (s1 >>> 4), ((s1 &&& 0xf) <<< 2) + (s2 >>> 6), s2 &&& 0x3f]

/-- Four characters of the table. -/
def group (tbl : List UInt8) (s0 s1 s2 : UInt8) : List UInt8 :=
  (sixBits s0.toNat s1.toNat s2.toNat).map fun bits => tbl.getD bits 0

/-- The loop of `bb_uuencode`: bytes that are missing at the end are assumed 0. -/
def encodeGroups (tbl : List UInt8) : List UInt8 → List UInt8
  | [] => []
  | [s0] => group tbl s0 0 0
  | [s0, s1] => group tbl s0 s1 0
  | s0 :: s1 :: s2 :: rest => group tbl s0 s1 s2 ++ encodeGroups tbl rest

/-- What `length` has come to, times -1, after the loop. -/
def missing (length : Nat) : Nat := (3 - length % 3) % 3

def bbUuencode (tbl src : List UInt8) : List UInt8 :=
  let p := encodeGroups tbl src
  p.take (p.length - missing src.length) ++ List.replicate (missing src.length) (tbl.getD 64 0)

/-- `full_read` until nothing is left: buffers of a fixed size, the last one perhaps shorter. -/
def buffers (size : Nat) (src : List UInt8) : List (List UInt8) :=
  if src = [] ∨ size = 0 then []
  else src.take size :: buffers size (src.drop size)
termination_by src.length
decreasing_by
  rename_i more
  have nonempty := List.length_pos_iff.2 (not_or.1 more).1
  have positive := Nat.pos_of_ne_zero (not_or.1 more).2
  rw [List.length_drop]
  omega

/-- `"%o"` -/
def octal (mode : Nat) : List UInt8 :=
  if mode < 8 then [(48 + mode).toUInt8] else octal (mode / 8) ++ [(48 + mode % 8).toUInt8]

/-- The first line, without its end. -/
def header (base64 : Bool) (mode : Nat) (name : List UInt8) : List UInt8 :=
  ascii "begin" ++ (if base64 then ascii "-base64" else []) ++ ascii " " ++ octal mode ++ ascii " " ++
    name

/-- What `uuencode` writes for one buffer. -/
def encodedLine (base64 : Bool) (buffer : List UInt8) : List UInt8 :=
  if base64 then ascii "\n" ++ bbUuencode uuencTblBase64 buffer
  else ascii "\n" ++ [uuencTblStd.getD buffer.length 0] ++ bbUuencode uuencTblStd buffer

def uuencodeMain (base64 : Bool) (mode : Nat) (name src : List UInt8) : List UInt8 :=
  header base64 mode name ++ ((buffers 45 src).flatMap (encodedLine base64) ++
    if base64 then ascii "\n====\n" else ascii "\n`\nend\n")

/-- `base64` without `-d`. -/
def base64Encode (src : List UInt8) : List UInt8 :=
  (buffers 57 src).flatMap fun buffer => bbUuencode uuencTblBase64 buffer ++ ascii "\n"

/-!
## Decoding

`read_base64` decodes a stream a buffer of 64 characters at a time; what
`decode_base64` has not decoded yet stays at the front of the buffer. `read_stduu`
takes a line at a time and computes the number of bytes in it from its first
character. `uudecode` looks for the header and hands the rest of the stream to one
of the two, `base64 -d` hands over the whole stream.
-/

/-- How a decoder stops. -/
inductive Ending where
  | finished
  | died (message : String)
  | hangs
  deriving DecidableEq, Repr

/-- What a decoder has written, and how it stopped. -/
@[ext]
structure Decoding where
  written : List UInt8
  ending : Ending
  deriving DecidableEq, Repr

/-- A decoding behind bytes that are already written. -/
def Decoding.behind (written : List UInt8) (decoding : Decoding) : Decoding :=
  { decoding with written := written ++ decoding.written }

/-- `strchr(bb_uuenc_tbl_base64, ch)`, as an offset. -/
def tablePtr (ch : UInt8) : Option Nat := uuencTblBase64.findIdx? (· = ch)

/-- The loop that fetches up to four 6-bit values. -/
inductive Fetched where
  | nul (sixBit : List Nat)
  | values (sixBit : List Nat) (src : List UInt8)
  deriving DecidableEq

/-- `src` is a C string: its end is the NUL. -/
def fetch (sixBit : List Nat) : List UInt8 → Fetched
  | [] => if sixBit.length < 4 then .nul sixBit else .values sixBit []
  | ch :: src =>
    if sixBit.length < 4 then
      match tablePtr ch with
      | none => fetch sixBit src
      | some index => if index = 64 then .values sixBit src else fetch (sixBit ++ [index]) src
    else .values sixBit (ch :: src)

/-- The low eight bits, as an assignment to `char` keeps them. -/
def char (value : Nat) : UInt8 := value.toUInt8

/-- 6-bit values to 8-bit ones. A single value gives nothing. -/
def merge : List Nat → List UInt8
  | [a, b] => [char (a <<< 2 ||| b >>> 4)]
  | [a, b, c] => [char (a <<< 2 ||| b >>> 4), char (b <<< 4 ||| c >>> 2)]
  | [a, b, c, d] =>
    [char (a <<< 2 ||| b >>> 4), char (b <<< 4 ||| c >>> 2), char (c <<< 6 ||| d)]
  | _ => []

theorem fetch_values_length {sixBit six : List Nat} {src rest : List UInt8}
    (room : sixBit.length < 4) (fetched : fetch sixBit src = .values six rest) :
    rest.length < src.length := by
  induction src generalizing sixBit with
  | nil => simp [fetch, room] at fetched
  | cons ch src ih =>
    have later : ∀ {sixBit'}, fetch sixBit' src = .values six rest →
        rest.length < (ch :: src).length := by
      intro sixBit' next
      by_cases more : sixBit'.length < 4
      · exact Nat.lt_succ_of_lt (ih more next)
      · cases src <;> simp only [fetch, more, if_false, Fetched.values.injEq] at next <;>
          simp [← next.2]
    simp only [fetch, room, if_true] at fetched
    cases found : tablePtr ch with
    | none => exact later (by simpa [found] using fetched)
    | some index =>
      by_cases terminator : index = 64
      · simp only [found, terminator, if_true, Fetched.values.injEq] at fetched
        simp [← fetched.2]
      · exact later (by simpa [found, terminator] using fetched)

/-- The bytes decoded and the undecoded part of the source. -/
def decodeBase64 (src : List UInt8) : List UInt8 × List UInt8 :=
  match fetched : fetch [] src with
  | .nul sixBit => ([], if sixBit = [] then [] else src)
  | .values sixBit rest =>
    have := fetch_values_length (by decide) fetched
    (merge sixBit ++ (decodeBase64 rest).1, (decodeBase64 rest).2)
termination_by src.length

/-- `flags` of `read_base64`: its low byte as a signed character. -/
def exitChar (flags : BitVec 32) : Int := (flags.setWidth 8).toInt

/-- `BASE64_FLAG_UU_STOP` -/
def uuStyleEnd (flags : BitVec 32) : Bool := flags &&& 0x100#32 != 0#32

def bufferSize : Nat := 64

/-- What the loop that fills the buffer leaves. -/
inductive Filled where
  | exit
  | terminated (inBuf : List UInt8)
  | partly (inBuf stream : List UInt8)
  deriving DecidableEq

/-- The loop around `fgetc`, which gives -1 at the end of the stream. -/
def fillBuffer (exitChar : Int) (inBuf : List UInt8) : List UInt8 → Filled
  | [] =>
    if inBuf.length < bufferSize then
      if -1 = exitChar ∧ inBuf = [] then .exit else .terminated inBuf
    else .partly inBuf []
  | ch :: stream =>
    if inBuf.length < bufferSize then
      if (ch.toNat : Int) = exitChar then if inBuf = [] then .exit else .terminated inBuf
      -- a line end, any other control character or a space ends the piece
      else if ch ≤ 32 then .partly inBuf stream
      else fillBuffer exitChar (inBuf ++ [ch]) stream
    else .partly inBuf (ch :: stream)

theorem fillBuffer_partly {exitChar : Int} {inBuf inBuf' stream stream' : List UInt8}
    (filled : fillBuffer exitChar inBuf stream = .partly inBuf' stream') :
    stream'.length < stream.length ∨ stream' = stream ∧ inBuf' = inBuf ∧
      bufferSize ≤ inBuf.length := by
  induction stream generalizing inBuf with
  | nil =>
    simp only [fillBuffer] at filled
    split at filled
    · split at filled <;> cases filled
    · rename_i full
      cases filled
      exact .inr ⟨rfl, rfl, Nat.le_of_not_lt full⟩
  | cons ch stream ih =>
    simp only [fillBuffer] at filled
    split at filled
    · split at filled
      · split at filled <;> cases filled
      · split at filled
        · cases filled
          exact .inl (Nat.lt_succ_self _)
        · rcases ih filled with shorter | ⟨rfl, -, -⟩
          · exact .inl (Nat.lt_succ_of_lt shorter)
          · exact .inl (Nat.lt_succ_self _)
    · rename_i full
      cases filled
      exact .inr ⟨rfl, rfl, Nat.le_of_not_lt full⟩

/-- `inBuf` holds the `in_count` characters that are not decoded yet. The loop never
ends once 64 characters stay undecoded: nothing more is read then. -/
def readBase64 (flags : BitVec 32) (inBuf stream : List UInt8) : Decoding :=
  match _filled : fillBuffer (exitChar flags) inBuf stream with
  | .exit => ⟨[], .finished⟩
  | .terminated inBuf =>
    if uuStyleEnd flags ∧ inBuf = ascii "====" then ⟨[], .finished⟩
    else if (decodeBase64 inBuf).2 = [] then ⟨(decodeBase64 inBuf).1, .finished⟩
    else ⟨(decodeBase64 inBuf).1, .died "truncated base64 input"⟩
  | .partly inBuf stream =>
    if uuStyleEnd flags ∧ inBuf = ascii "====" then ⟨[], .finished⟩
    else if _short : (decodeBase64 inBuf).2.length < bufferSize then
      (readBase64 flags (decodeBase64 inBuf).2 stream).behind (decodeBase64 inBuf).1
    else ⟨(decodeBase64 inBuf).1, .hangs⟩
termination_by stream.length * bufferSize + inBuf.length
decreasing_by
  simp only [bufferSize] at *
  rcases fillBuffer_partly _filled with shorter | ⟨rfl, rfl, full⟩
  · omega
  · simp only [bufferSize] at full
    omega

/-- `base64 -d`: the flags are `(char)EOF`. -/
def base64Decode (stream : List UInt8) : Decoding := readBase64 (-1) [] stream

/-- `xmalloc_fgets_internal` with "\n": the buffer grows by 200, and only then is
the limit looked at. -/
def fgetsInternal (maxsz idx linebufsz : Nat) : List UInt8 → List UInt8 × List UInt8
  | [] => ([], [])
  | ch :: stream =>
    if linebufsz ≤ idx ∧ maxsz ≤ idx then ([ch], stream)
    else if ch = 10 then ([ch], stream)
    else
      let more :=
        fgetsInternal maxsz (idx + 1) (if linebufsz ≤ idx then linebufsz + 200 else linebufsz) stream
      (ch :: more.1, more.2)

/-- The line without its Unix or MSDOS end, up to a NUL. -/
def lineText (line : List UInt8) : List UInt8 :=
  ((line.reverse.dropWhile fun ch => ch = 10 ∨ ch = 13).reverse).takeWhile (· ≠ 0)

/-- Merges four 6 bit chars to three 8 bit chars until `encodedLen` is used up. The bytes
go to the front of the line, which has been read by then; a char that the line
does not have is its NUL. -/
def decodeGroups (encodedLen : Nat) (linePtr : List UInt8) : List UInt8 :=
  let sixBit (offset : Nat) : Nat := (linePtr.getD offset 0).toNat
  match encodedLen with
  | 0 => []
  | 1 => merge [sixBit 0, sixBit 1]
  | 2 => merge [sixBit 0, sixBit 1, sixBit 2]
  | 3 => merge [sixBit 0, sixBit 1, sixBit 2, sixBit 3]
  | encodedLen + 4 =>
    merge [sixBit 0, sixBit 1, sixBit 2, sixBit 3] ++ decodeGroups encodedLen (linePtr.drop 4)

theorem fgetsInternal_length (maxsz idx linebufsz : Nat) (ch : UInt8) (stream : List UInt8) :
    (fgetsInternal maxsz idx linebufsz (ch :: stream)).2.length < (ch :: stream).length := by
  induction stream generalizing ch idx linebufsz with
  | nil => simp only [fgetsInternal]; split_ifs <;> simp
  | cons next stream ih =>
    rw [fgetsInternal]
    split_ifs
    · exact Nat.lt_succ_self _
    · exact Nat.lt_succ_self _
    · exact Nat.lt_succ_of_lt (ih _ _ next)
    · exact Nat.lt_succ_of_lt (ih _ _ next)

/-- A character as a 6-bit value: a space and a '`' are both 0. -/
def sixBitChar (ch : UInt8) : UInt8 := (ch - 0x20) &&& 0x3f

/-- `strcmp(line, "end")` comes before the conversion of the characters. -/
def readStduu : List UInt8 → Decoding
  | [] => ⟨[], .died "short file"⟩
  | ch :: stream =>
    let line := fgetsInternal (64 * 1024) 0 0 (ch :: stream)
    let text := lineText line.1
    if text = ascii "end" then ⟨[], .finished⟩
    else
      let chars := text.map sixBitChar
      let encodedLen := (chars.getD 0 0).toNat * 4 / 3
      if chars.length ≤ encodedLen then ⟨[], .died "short file"⟩
      else if encodedLen = 0 then readStduu line.2
      else if 60 < encodedLen then ⟨[], .died "line too long"⟩
      else (readStduu line.2).behind (decodeGroups encodedLen (chars.drop 1))
termination_by stream => stream.length
decreasing_by all_goals exact fgetsInternal_length (64 * 1024) 0 0 ch stream

/-- `xmalloc_fgetline`: a line ends at a newline or a NUL. -/
def fgetline : List UInt8 → List UInt8 × List UInt8
  | [] => ([], [])
  | ch :: stream =>
    if ch = 0 ∨ ch = 10 then ([], stream) else (ch :: (fgetline stream).1, (fgetline stream).2)

theorem fgetline_length (ch : UInt8) (stream : List UInt8) :
    (fgetline (ch :: stream)).2.length < (ch :: stream).length := by
  induction stream generalizing ch with
  | nil => simp only [fgetline]; split_ifs <;> simp
  | cons next stream ih =>
    rw [fgetline]
    split_ifs
    · exact Nat.lt_succ_self _
    · exact Nat.lt_succ_of_lt (ih next)

/-- `isspace` -/
def isspace (ch : UInt8) : Bool := ch == 32 || (9 ≤ ch && ch ≤ 13)

/-- `trim` -/
def trim (s : List UInt8) : List UInt8 := ((s.reverse.dropWhile isspace).reverse).dropWhile isspace

/-- The name that `line_ptr` has behind its first space. -/
def nameIn (linePtr : List UInt8) : Option (List UInt8) :=
  match linePtr.dropWhile (· ≠ 32) with
  | [] => none
  | _ :: name => if trim name = [] then none else some (trim name)

/-- The name of the file to write and what goes into it, or the message on exit.
`outname` is the argument of `-o`. The flags are `BASE64_FLAG_UU_STOP` and
`BASE64_FLAG_NO_STOP_CHAR`. -/
def uudecodeMain (outname : Option (List UInt8)) :
    List UInt8 → Except String (List UInt8 × Decoding)
  | [] => .error "no 'begin' line"
  | ch :: stream =>
    let line := fgetline (ch :: stream)
    if (ascii "begin-base64 ").isPrefixOf line.1 then
      match outname.orElse fun _ => nameIn (line.1.drop 13) with
      | none => .error "no 'begin' line"
      | some name => .ok (name, readBase64 0x180 [] line.2)
    else if (ascii "begin ").isPrefixOf line.1 then
      match outname.orElse fun _ => nameIn (line.1.drop 6) with
      | none => .error "no 'begin' line"
      | some name => .ok (name, readStduu line.2)
    else uudecodeMain outname line.2
termination_by stream => stream.length
decreasing_by exact fgetline_length ch stream

end Busybox.Uuencode
