import Busybox.Lib.Fallible

/-!
# `tail`

`tail_main` in `coreutils/tail.c` without `-f`. The end of what was read is kept at the start of a
buffer, and every read puts more behind it. Lengths are kept as `int`, the number that is asked for
as `unsigned` and the size of the buffer as `size_t`.
-/

namespace Busybox.Coreutils.Tail

/-- A number as an `int`. -/
def toInt (n : Int) : Int := Int.bmod n (2 ^ 32)

/-- A number as an `unsigned`. -/
def toUnsigned (n : Int) : Nat := (n % 2 ^ 32).toNat

/-- A number as a `size_t`. -/
def toSize (n : Int) : Nat := (n % 2 ^ 64).toNat

/-- `from_top`, `COUNT_BYTES` and `count`. -/
structure Options where
  fromTop : Bool
  countBytes : Bool
  count : UInt32

/-- Why the program does not go on. No read returns more bytes than were asked for. -/
inductive Stop
  | outOfBounds
  | memoryExhausted
  | tooMuchRead
  deriving DecidableEq

/-- The buffer and the variables of the loop, and what was written. A pointer is an offset of the
buffer. -/
structure State where
  tailbuf : Nat → UInt8
  tailbufsize : Nat
  buf : Int
  taillen : Int
  newlinesSeen : Int
  seen : Nat
  stdout : List UInt8

/-! ## Accesses to the buffer -/

/-- So many bytes from there on lie in the buffer. -/
def State.inside (state : State) (start : Int) (len : Nat) : Bool :=
  len = 0 || (0 ≤ start && start + len ≤ state.tailbufsize)

/-- `xwrite` -/
def State.xwrite (state : State) (start : Int) (len : Nat) : Except Stop State :=
  if state.inside start len then
    .ok { state with
      stdout := state.stdout ++ (List.range len).map fun i => state.tailbuf (start.toNat + i) }
  else .error .outOfBounds

/-- `memmove(tailbuf, src, len)` -/
def State.memmove (state : State) (src : Int) (len : Nat) : Except Stop State :=
  if state.inside src len && state.inside 0 len then
    .ok { state with
      tailbuf := fun i => if i < len then state.tailbuf (src.toNat + i) else state.tailbuf i }
  else .error .outOfBounds

/-- `tail_read(fd, buf, tailbufsize - taillen)` -/
def State.tailRead (state : State) (chunk : List UInt8) : Except Stop State :=
  if toSize (state.tailbufsize - state.taillen) < chunk.length then .error .tooMuchRead
  else if state.inside state.buf chunk.length then
    .ok { state with
      tailbuf := fun i =>
        if state.buf.toNat ≤ i then (chunk[i - state.buf.toNat]?).getD (state.tailbuf i)
        else state.tailbuf i }
  else .error .outOfBounds

/-- `while (k) { if (*s == '\n') k--; s++; }` -/
def State.skip (state : State) (k : Int) (s : Nat) : Except Stop Nat :=
  if k = 0 then .ok s
  else if s < state.tailbufsize then
    state.skip (if state.tailbuf s = 10 then toInt (k - 1) else k) (s + 1)
  else .error .outOfBounds
termination_by state.tailbufsize - s

/-! ## What is done with the bytes of a read -/

variable (bufsiz : Nat) (options : Options)

/-- "We need to skip a few more bytes/lines": the bytes behind the line that is the last one to be
skipped, if it ends here. -/
def skipLines (count : Nat) : List UInt8 → Nat → List UInt8 × Nat
  | [], seen => ([], seen)
  | c :: rest, seen =>
    if c = 10 then
      if seen + 1 = count then (rest, seen + 1) else skipLines count rest (seen + 1)
    else skipLines count rest seen

/-- The number of bytes to write, and `seen` afterwards. -/
def nwrite (seen : Nat) (chunk : List UInt8) : Int × Nat :=
  let count := options.count.toNat
  let nread := toInt chunk.length
  if seen < count then
    if options.countBytes then
      (toInt (nread - toUnsigned (count - seen)), toUnsigned (seen + nread))
    else
      let (rest, seen) := skipLines count chunk seen
      (rest.length, seen)
  else (nread, seen)

/-- The branch for `from_top`. -/
def fromTop (state : State) (chunk : List UInt8) : Except Stop State :=
  let (nwrite, seen) := nwrite options state.seen chunk
  if 0 < nwrite then
    { state with seen }.xwrite (state.buf + toInt chunk.length - nwrite) nwrite.toNat
  else .ok { state with seen }

/-- The branch that keeps the last bytes. -/
def keepBytes (state : State) (chunk : List UInt8) : Except Stop State := do
  let count := options.count.toNat
  let taillen := toInt (state.taillen + toInt chunk.length)
  if toInt count < taillen then
    let state ← state.memmove (taillen - count) count
    return { state with taillen := toInt count, buf := toInt count }
  else return { state with taillen, buf := taillen }

/-- The lines that are kept, with `taillen` and `newlines_seen`. -/
def trim (state : State) (chunk : List UInt8) : Except Stop State := do
  let count := options.count.toNat
  let nread := toInt chunk.length
  let newlines := toInt (state.newlinesSeen + chunk.count 10)
  if newlines < toInt count then
    return { state with newlinesSeen := newlines, taillen := toInt (state.taillen + nread) }
  else
    let extra := if chunk.getLast? = some 10 then 0 else 1
    let s ← state.skip (toInt (state.newlinesSeen + chunk.count 10 + extra - count)) 0
    let taillen := toInt (state.taillen + nread - s)
    let state ← state.memmove s (toSize taillen)
    return { state with taillen, newlinesSeen := toInt (count - extra) }

/-- The buffer is enlarged, unless there is no such block. -/
def enlarge (state : State) : Except Stop State :=
  if state.tailbufsize < (toSize state.taillen + bufsiz) % 2 ^ 64 then
    let tailbufsize := toSize (toInt (state.taillen + bufsiz))
    if 2 ^ 63 ≤ tailbufsize then .error .memoryExhausted else .ok { state with tailbufsize }
  else .ok state

/-- The branch that keeps the last lines. -/
def keepLines (state : State) (chunk : List UInt8) : Except Stop State := do
  let state ← enlarge bufsiz (← trim options state chunk)
  return { state with buf := state.taillen }

/-- The body of the loop. -/
def body (state : State) (chunk : List UInt8) : Except Stop State :=
  if options.fromTop then fromTop options state chunk
  else if options.count ≠ 0 then
    if options.countBytes then keepBytes options state chunk
    else keepLines bufsiz options state chunk
  else .ok state

/-- The loop, over what the reads return until there is nothing more. -/
def tailLoop : List (List UInt8) → State → Except Stop State
  | [], state => .ok state
  | chunk :: chunks, state => do
    let state ← state.tailRead chunk
    if toInt chunk.length ≤ 0 then return state
    else tailLoop chunks (← body bufsiz options state chunk)

/-- "prepare the buffer" -/
def tailbufsize : Nat :=
  let wanted := toUnsigned (options.count.toNat + bufsiz)
  if !options.fromTop && options.countBytes && bufsiz < wanted then wanted else bufsiz

/-- A file whose end can be found needs no buffer for its last bytes. -/
def optimized (seekable : Bool) : Bool := !options.fromTop && seekable && options.countBytes

/-- What is written for one file, from what the reads return and from what is in the buffer at
first. -/
def tailFile (seekable : Bool) (fresh : Nat → UInt8) (chunks : List (List UInt8)) :
    Except Stop (List UInt8) :=
  if optimized options seekable then .ok (chunks.flatten.take options.count.toNat)
  else do
    let state ← tailLoop bufsiz options chunks ⟨fresh, tailbufsize bufsiz options, 0, 0, 0, 1, []⟩
    if options.fromTop then return state.stdout
    else return (← state.xwrite 0 (toSize state.taillen)).stdout

end Busybox.Coreutils.Tail
