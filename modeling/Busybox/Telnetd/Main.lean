import Mathlib.Data.Int.Notation
import Busybox.Lib.Fallible
import Busybox.Lib.RingBuffer

/-!
# A telnet session

A session has two circular buffers: `buf1` is filled from the socket and written to the pty, where
the telnet protocol is taken out; `buf2` is filled from the pty and written to the socket. Every
access to them is checked.
-/

namespace Busybox.Telnetd

open CircularBuffer

def iac : UInt8 := 255

/-- Subnegotiation of an option follows. -/
def sb : UInt8 := 250

/-- Are you there? -/
def ayt : UInt8 := 246

def nop : UInt8 := 241

def teloptNaws : UInt8 := 31

def cr : UInt8 := 13

def lf : UInt8 := 10

/-- `sizeof(struct tsession)` where a pointer has 8 bytes and an int has 4. -/
def sizeofTsession : ℕ := 56

/-- `BUFSIZE` -/
def bufsize : ℕ := (4 * 1024 - sizeofTsession) / 2

/-- `TS_BUF1` or `TS_BUF2` -/
structure Buffer where
  bytes : List UInt8
  full : bytes.length = bufsize

/-- An access is outside of its buffer. -/
inductive Fault
  | outside
deriving DecidableEq, Repr

/-- `count` bytes from `index` on. -/
def Buffer.load (buf : Buffer) (index count : ℤ) : Except Fault (List UInt8) :=
  if 0 ≤ index ∧ 0 ≤ count ∧ index + count ≤ bufsize then
    .ok ((buf.bytes.drop index.toNat).take count.toNat)
  else .error .outside

/-- The byte at `index`. -/
def Buffer.byte (buf : Buffer) (index : ℤ) : Except Fault UInt8 :=
  if 0 ≤ index ∧ index < bufsize then .ok (buf.bytes.getD index.toNat 0) else .error .outside

/-- The bytes from `index` on are overwritten. -/
def Buffer.store (buf : Buffer) (index : ℤ) (data : List UInt8) : Except Fault Buffer :=
  if h : 0 ≤ index ∧ index + data.length ≤ bufsize then
    .ok ⟨overwrite buf.bytes index.toNat data, by
      rw [overwrite_length (by rw [buf.full]; omega), buf.full]⟩
  else .error .outside

/-- `errno`, as far as it matters. -/
inductive Errno
  | eagain
  | eio
  | other
deriving DecidableEq, Repr

/-- What a write returns: an error, or a count. -/
inductive Written
  | error (errno : Errno)
  | count (n : ℕ)
deriving DecidableEq, Repr

/-- What a read can have: an error, or bytes. -/
inductive Arrived
  | error (errno : Errno)
  | bytes (data : List UInt8)
deriving DecidableEq, Repr

/-- `safe_write`: no more is written than there is. -/
def safeWrite (answer : Written) (data : List UInt8) : Written :=
  match answer with
  | .error errno => .error errno
  | .count n => .count (min n data.length)

/-- `safe_read` of `count` bytes at most to `index`: an error, or the buffer and the bytes. -/
def safeRead (buf : Buffer) (index count : ℤ) (answer : Arrived) :
    Except Fault (Except Errno (Buffer × List UInt8)) :=
  if 0 ≤ index ∧ 0 ≤ count ∧ index + count ≤ bufsize then
    match answer with
    | .error errno => .ok (.error errno)
    | .bytes data => do
      let data := data.take count.toNat
      let buf ← buf.store index data
      return .ok (buf, data)
  else .error .outside

/-- `struct tsession`, with its buffers. -/
structure Tsession where
  bufferedIacForPty : Bool
  buf1 : Buffer
  buf2 : Buffer
  rdidx1 : ℤ
  wridx1 : ℤ
  size1 : ℤ
  rdidx2 : ℤ
  wridx2 : ℤ
  size2 : ℤ

/-- What goes in and out. -/
inductive Io
  | toPty (data : List UInt8) (rc : Written)
  | winsize (col row : ℕ)
  | toSocket (data : List UInt8) (rc : Written)
  | fromSocket (data : List UInt8)
  | fromPty (data : List UInt8)
deriving DecidableEq, Repr

/-! ## Buffer 1 to the pty -/

/-- The end of `safe_write_to_pty_decode_iac`. -/
def updateAndReturn (ts : Tsession) (rc : ℕ) (io : List Io) :
    Except Fault (Tsession × Written × List Io) :=
  let wridx1 := if bufsize ≤ ts.wridx1 + rc then 0 else ts.wridx1 + rc
  let size1 := ts.size1 - rc
  if size1 = 0 then .ok ({ ts with rdidx1 := 0, wridx1 := 0, size1 }, .count rc, io)
  else if wridx1 ≠ 0 ∧ wridx1 < ts.rdidx1 then do
    let moved ← ts.buf1.load wridx1 size1
    let buf1 ← ts.buf1.store 0 moved
    return ({ ts with buf1, rdidx1 := ts.rdidx1 - wridx1, wridx1 := 0, size1 }, .count rc, io)
  else .ok ({ ts with wridx1, size1 }, .count rc, io)

/-- From `handle_iac` on: `buf` is the index of the IAC, and `wr` the bytes from there. -/
def handleIac (ts : Tsession) (buf wr : ℤ) (answer : Written) :
    Except Fault (Tsession × Written × List Io) := do
  let code ← ts.buf1.byte (buf + 1)
  if code = iac then
    updateAndReturn ts 2 [.toPty [code] (safeWrite answer [code])]
  else if code = ayt then
    if ts.size2 = 0 then
      let buf2 ← ts.buf2.store 0 [iac]
      let buf2 ← buf2.store 1 [nop]
      updateAndReturn { ts with buf2, wridx2 := 0, rdidx2 := 2, size2 := 2 } 2 []
    else updateAndReturn ts 2 []
  else if 240 ≤ code ∧ code ≤ 249 then updateAndReturn ts 2 []
  else if wr ≤ 2 then updateAndReturn ts 2 []
  else if code = sb then
    let option ← ts.buf1.byte (buf + 2)
    if option = teloptNaws then
      if wr ≤ 6 then updateAndReturn ts wr.toNat []
      else
        let colHigh ← ts.buf1.byte (buf + 3)
        let colLow ← ts.buf1.byte (buf + 4)
        let rowHigh ← ts.buf1.byte (buf + 5)
        let rowLow ← ts.buf1.byte (buf + 6)
        updateAndReturn ts 7
          [.winsize (colHigh.toNat * 256 + colLow.toNat) (rowHigh.toNat * 256 + rowLow.toNat)]
    else updateAndReturn ts 3 []
  else updateAndReturn ts 3 []

/-- Whether the byte behind a CR that was written last is eaten as well. -/
def eatsNext (ts : Tsession) (buf : ℤ) (rc : ℕ) (wr : ℤ) : Except Fault Bool :=
  if rc < wr then do
    let last ← ts.buf1.byte (buf + rc - 1)
    if last = cr then
      let next ← ts.buf1.byte (buf + rc)
      return next = lf || next = 0
    else return false
  else .ok false

/-- `safe_write_to_pty_decode_iac`: the session, what is returned, and what was written. -/
def safeWriteToPtyDecodeIac (ts : Tsession) (answer : Written) :
    Except Fault (Tsession × Written × List Io) := do
  let buf := ts.wridx1
  let wr := min (bufsize - ts.wridx1) ts.size1 % 2 ^ 32
  if ts.bufferedIacForPty then
    handleIac { ts with bufferedIacForPty := false, size1 := ts.size1 + 1, wridx1 := ts.wridx1 - 1 }
      (buf - 1) ((wr + 1) % 2 ^ 32) answer
  else
    let piece ← ts.buf1.load buf wr
    if piece.idxOf? iac ≠ some 0 then
      -- a prefix without IACs, and of that no more than up to the first CR
      let wr := (piece.idxOf? iac).elim wr fun found => (found : ℤ)
      let piece ← ts.buf1.load buf wr
      let rc := (piece.idxOf? cr).elim wr fun found => (found : ℤ) + 1
      let data ← ts.buf1.load buf rc
      match safeWrite answer data with
      | .error errno => return (ts, .error errno, [.toPty data (.error errno)])
      | .count 0 => return (ts, .count 0, [.toPty data (.count 0)])
      | .count rc =>
        let eats ← eatsNext ts buf rc wr
        updateAndReturn ts (if eats then rc + 1 else rc) [.toPty data (.count rc)]
    else if wr ≤ 1 then updateAndReturn { ts with bufferedIacForPty := true } 1 []
    else handleIac ts buf wr answer

/-! ## Buffer 2 to the socket -/

/-- The end of `safe_write_double_iac`, with the result of the last write. -/
def shortWrite (total : ℕ) (rc : Written) : Written :=
  match rc with
  | .error errno => if total = 0 then .error errno else .count total
  | .count n => .count (total + n)

/-- The loop of `safe_write_double_iac`, with what its writes will return. -/
def doubleIacLoop (buf2 : Buffer) :
    List Written → ℤ → ℕ → ℕ → List Io → Except Fault (Written × List Io)
  | [], _, count, total, io =>
    .ok (if count = 0 then .count total else shortWrite total (.error .eagain), io)
  | answer :: answers, buf, count, total, io => do
    if count = 0 then return (.count total, io)
    else
      let first ← buf2.byte buf
      if first = iac then
        let rc := safeWrite answer [iac, iac]
        let io := io ++ [.toSocket [iac, iac] rc]
        if rc ≠ .count 2 then return (shortWrite total rc, io)
        else doubleIacLoop buf2 answers (buf + 1) (count - 1) (total + 1) io
      else
        let piece ← buf2.load buf count
        let wr := (piece.idxOf? iac).getD count
        let data ← buf2.load buf wr
        let rc := safeWrite answer data
        let io := io ++ [.toSocket data rc]
        if rc ≠ .count wr then return (shortWrite total rc, io)
        else doubleIacLoop buf2 answers (buf + wr) (count - wr) (total + wr) io

/-- `safe_write_double_iac` -/
def safeWriteDoubleIac (buf2 : Buffer) (buf : ℤ) (count : ℕ) (answers : List Written) :
    Except Fault (Written × List Io) := doubleIacLoop buf2 answers buf count 0 []

/-!
## The main loop

One session is worked on from `again` over the labels `skip1`, `skip2` and `skip3` to `again`.
-/

/-- Where the main loop is with the session. -/
inductive Point
  | again
  | writePty
  | skip1
  | skip2
  | skip3
deriving DecidableEq, Repr

/-- The descriptors of the session that `select` has left set. -/
structure Ready where
  ptyWritable : Bool
  sockReadable : Bool
  sockWritable : Bool
  ptyReadable : Bool

structure State where
  ts : Tsession
  point : Point
  ready : Ready

/-- What the system has for the next step. -/
structure Answers where
  /-- The shell has exited, and its SIGCHLD was handled. -/
  died : Bool
  /-- Nothing where `select` or `accept` fails. -/
  select : Option Ready
  toPty : Written
  toSocket : List Written
  fromSocket : Arrived
  /-- After EIO it is read again. -/
  fromPty : List Arrived

/-- Select for data that can be written, and where there is room to read. -/
def asked (ts : Tsession) (ready : Ready) : Ready where
  ptyWritable := ready.ptyWritable && 0 < ts.size1
  sockReadable := ready.sockReadable && ts.size1 < bufsize
  sockWritable := ready.sockWritable && 0 < ts.size2
  ptyReadable := ready.ptyReadable && ts.size2 < bufsize

/-- Write to pty from buffer 1. Nothing is left of a session that is killed. -/
def writePty (ts : Tsession) (answer : Written) : Except Fault (List Io × Option Tsession) := do
  let (ts, count, io) ← safeWriteToPtyDecodeIac ts answer
  return (io, if count = .error .eio ∨ count = .error .other then none else some ts)

/-- Write to socket from buffer 2. -/
def writeSocket (ts : Tsession) (answers : List Written) :
    Except Fault (List Io × Option Tsession) := do
  let count := min (bufsize - ts.wridx2) ts.size2
  let (count, io) ← safeWriteDoubleIac ts.buf2 ts.wridx2 (count % 2 ^ 64).toNat answers
  match count with
  | .error errno => return (io, if errno = .eagain then some ts else none)
  | .count count =>
    let wridx2 := if bufsize ≤ ts.wridx2 + count then 0 else ts.wridx2 + count
    let size2 := ts.size2 - count
    return (io, some (if size2 = 0 then { ts with rdidx2 := 0, wridx2 := 0, size2 }
      else { ts with wridx2, size2 }))

/-- Read from socket to buffer 1. A trailing NUL is ignored. -/
def readSocket (ts : Tsession) (answer : Arrived) : Except Fault (List Io × Option Tsession) := do
  let count := min (bufsize - ts.rdidx1) (bufsize - ts.size1)
  match ← safeRead ts.buf1 ts.rdidx1 count answer with
  | .error errno => return ([], if errno = .eagain then some ts else none)
  | .ok (buf1, data) =>
    let count := data.length
    if count = 0 then return ([], none)
    else
      let last ← buf1.byte (ts.rdidx1 + count - 1)
      let count := if last = 0 then count - 1 else count
      let rdidx1 := ts.rdidx1 + count
      return ([.fromSocket data],
        some { ts with
          buf1
          size1 := ts.size1 + count
          rdidx1 := if bufsize ≤ rdidx1 then 0 else rdidx1 })

/-- Read from pty to buffer 2, up to ten times more after EIO. -/
def readPty (ts : Tsession) : List Arrived → ℕ → Except Fault (List Io × Option Tsession)
  | [], _ => .ok ([], some ts)
  | answer :: answers, eio => do
    let count := min (bufsize - ts.rdidx2) (bufsize - ts.size2)
    match ← safeRead ts.buf2 ts.rdidx2 count answer with
    | .error .eagain => return ([], some ts)
    | .error .eio => if eio < 10 then readPty ts answers (eio + 1) else return ([], none)
    | .error .other => return ([], none)
    | .ok (buf2, data) =>
      let count := data.length
      if count = 0 then return ([], none)
      else
        let rdidx2 := ts.rdidx2 + count
        return ([.fromPty data],
          some { ts with
            buf2
            size2 := ts.size2 + count
            rdidx2 := if bufsize ≤ rdidx2 then 0 else rdidx2 })

/-- On to the next label, with what became of the session. -/
def goOn (ready : Ready) (point : Point) :
    List Io × Option Tsession → List Io × Option State
  | (io, ts) => (io, ts.map fun ts => ⟨ts, point, ready⟩)

/-- Work on the session where its descriptor is set, and up to the next label. -/
def guarded (set : Bool) (ready : Ready) (point : Point) (ts : Tsession)
    (work : Except Fault (List Io × Option Tsession)) : Except Fault (List Io × Option State) :=
  goOn ready point <$> if set then work else .ok ([], some ts)

/-- What happens up to the next label. -/
def step (s : State) (answers : Answers) : Except Fault (List Io × Option State) :=
  match s.point with
  | .again =>
    if answers.died then .ok ([], none)
    else match answers.select with
      | none => .ok ([], some s)
      | some ready => .ok ([], some ⟨s.ts, .writePty, asked s.ts ready⟩)
  | .writePty => guarded s.ready.ptyWritable s.ready .skip1 s.ts (writePty s.ts answers.toPty)
  | .skip1 => guarded s.ready.sockWritable s.ready .skip2 s.ts (writeSocket s.ts answers.toSocket)
  | .skip2 => guarded s.ready.sockReadable s.ready .skip3 s.ts (readSocket s.ts answers.fromSocket)
  | .skip3 => guarded s.ready.ptyReadable s.ready .again s.ts (readPty s.ts answers.fromPty 0)

/-- A session until now: what went in and out, and its state as long as it lives. -/
def run : State → List Answers → Except Fault (List Io × Option State)
  | s, [] => .ok ([], some s)
  | s, answers :: rest => do
    let (io, next) ← step s answers
    match next with
    | none => return (io, none)
    | some s =>
      let (more, last) ← run s rest
      return (io ++ more, last)

/-- A buffer in memory that was cleared. -/
def Buffer.zeros : Buffer := ⟨List.replicate bufsize 0, List.length_replicate⟩

/-- `make_new_session`, which is then up to the first `select`. -/
def makeNewSession : State where
  ts := ⟨false, .zeros, .zeros, 0, 0, 0, 0, 0, 0⟩
  point := .again
  ready := ⟨false, false, false, false⟩

end Busybox.Telnetd
