import Busybox.Lib.Fallible
import Busybox.Syslog.Passes

/-!
# Datagrams into messages

`split_escape_and_log` takes a datagram apart at its NULs, and logs each part with its control
characters escaped. A pointer into the datagram is what is left of it, the terminating NUL
included.
-/

namespace Busybox.Syslog

/-- `CONFIG_FEATURE_SYSLOGD_READ_BUFFER_SIZE` -/
def MAX_READ : ℕ := 256

def LOG_NFACILITIES : ℕ := 24

/-- The array that is left, or too many turns. -/
inductive Fault
  | recvbuf
  | parsebuf
  | printbuf
  | enabledFacilityPriomap
  | overrun
  deriving DecidableEq

structure LogRule where
  enabledFacilityPriomap : List UInt8
  size : enabledFacilityPriomap.length = LOG_NFACILITIES
  file : Str

/-- What `ctime` returns: the day of the week, the date and the time, and the year. -/
structure Ctime where
  text : Str
  long : 20 ≤ text.length

/-- The options and globals that logging a message reads, and the tables of `<syslog.h>`. -/
structure Globals where
  timestamp : Bool
  small : Bool
  kmsg : Bool
  /-- `OPT_circularlog`, with a buffer -/
  circularlog : Bool
  primask : ℕ
  logLevel : ℤ
  hostname : Str
  logFile : Str
  logRules : List LogRule
  prioritynames : List (Str × ℕ)
  facilitynames : List (Str × ℕ)

/-- Where a message goes. -/
inductive Logged
  | kmsg (text : Str)
  | shmem (text : Str)
  | locally (file text : Str)
  deriving DecidableEq

def LOG_FAC (pri : ℕ) : ℕ := pri / 8 % 128
def LOG_PRI (pri : ℕ) : ℕ := pri % 8

/-- `LOG_USER | LOG_NOTICE` -/
def defaultPri : ℕ := 13

/-! ## Buffers -/

/-- Read a cell of `parsebuf`. -/
def cell (parsebuf : List UInt8) (i : ℕ) : Except Fault UInt8 :=
  match parsebuf[i]? with
  | some c => .ok c
  | none => .error .parsebuf

def store (parsebuf : List UInt8) (i : ℕ) (c : UInt8) : Except Fault (List UInt8) :=
  if i < parsebuf.length then .ok (parsebuf.set i c) else .error .parsebuf

/-- The string from a cell on. -/
def stringAt (parsebuf : List UInt8) (i : ℕ) : Except Fault Str :=
  if 0 ∈ parsebuf.drop i then .ok ((parsebuf.drop i).takeWhile (· ≠ 0)) else .error .parsebuf

/-- `sprintf(G.printbuf, ...)` of a text -/
def sprintf (text : Str) : Except Fault Str :=
  if text.length + 1 ≤ MAX_READ * 2 + 128 then .ok text else .error .printbuf

/-- `%d` of a number that is not negative -/
def decimal (n : ℕ) : Str := (Nat.toDigits 10 n).map fun c => c.toNat.toUInt8

/-! ## Logging -/

def findByVal (val : ℕ) (codes : List (Str × ℕ)) : Option Str :=
  (codes.find? (·.2 = val)).map Prod.fst

/-- `parse_fac_prio_20`; `snprintf` leaves 19 characters. -/
def parseFacPrio20 (g : Globals) (pri : ℕ) : Str :=
  match findByVal (LOG_FAC pri * 8) g.facilitynames, findByVal (LOG_PRI pri) g.prioritynames with
  | some fac, some prio => (fac ++ [46] ++ prio).take 19
  | _, _ => ([60] ++ decimal pri ++ [62]).take 19

/-- The loop over the rules: the files of those that match. -/
def matchRules (facility prio : ℕ) : List LogRule → Except Fault (List Str)
  | [] => .ok []
  | rule :: rules =>
    match rule.enabledFacilityPriomap[facility]? with
    | none => .error .enabledFacilityPriomap
    | some primap => do
      let files ← matchRules facility prio rules
      return if primap.toNat.testBit prio then rule.file :: files else files

/-- A message that begins with a timestamp: `Jan 18 00:11:22 msg...` -/
def hasTimestamp (msg : List UInt8) (len : ℕ) : Except Fault Bool :=
  if len ≥ 16 then do
    let c3 ← cell msg 3
    let c6 ← cell msg 6
    let c9 ← cell msg 9
    let c12 ← cell msg 12
    let c15 ← cell msg 15
    return c3 = 32 ∧ c6 = 32 ∧ c9 = 58 ∧ c12 = 58 ∧ c15 = 32
  else .ok false

/-- `timestamp_and_log`, with the time it is: `parsebuf`, and what is logged. -/
def timestampAndLog (g : Globals) (ctime : Ctime) (pri : ℕ) (parsebuf : List UInt8) (len : ℕ) :
    Except Fault (List UInt8 × List Logged) := do
  let stamped ← hasTimestamp parsebuf len
  let msg := if stamped then 16 else 0
  let (timestamp, parsebuf) ← (if stamped ∧ ¬g.timestamp then do
      -- use message timestamp
      let parsebuf ← store parsebuf 15 0
      let timestamp ← stringAt parsebuf 0
      return (timestamp, parsebuf)
    -- skip day of week
    else .ok ((ctime.text.drop 4).take 15, parsebuf))
  let text ← stringAt parsebuf msg
  if g.kmsg then do
    let printbuf ← sprintf ([60] ++ decimal (pri &&& g.primask) ++ [62] ++ text ++ [10])
    return (parsebuf, [.kmsg printbuf])
  else do
    let printbuf ← (if g.small then sprintf (timestamp ++ [32] ++ text ++ [10])
      else sprintf (timestamp ++ [32] ++ g.hostname.take 64 ++ [32] ++ parseFacPrio20 g pri ++ [32]
        ++ text ++ [10]))
    let files ← matchRules (LOG_FAC pri) (LOG_PRI pri) g.logRules
    let logged :=
      if files ≠ [] then files.map (.locally · printbuf)
      else if LOG_PRI pri < g.logLevel then
        if g.circularlog then [.shmem printbuf] else [.locally g.logFile printbuf]
      else []
    return (parsebuf, logged)

/-! ## The parts of a datagram -/

/-- `bb_ascii_isalnum` -/
def isalnum (c : UInt8) : Bool :=
  (48 ≤ c && c ≤ 57) || (97 ≤ (c ||| 32) && (c ||| 32) ≤ 122)

def isdigit (c : UInt8) : Bool := 48 ≤ c && c ≤ 57

def UINT_MAX : ℕ := 2 ^ 32 - 1

/-- `bb_strtou(arg, &arg, 10)` -/
def bbStrtou : List UInt8 → Except Fault (ℕ × List UInt8)
  | [] => .error .recvbuf
  | first :: arg =>
    if ¬isalnum first then .ok (UINT_MAX, first :: arg)
    else
      let digits := (first :: arg).takeWhile isdigit
      match (first :: arg).dropWhile isdigit with
      | [] => .error .recvbuf
      | next :: rest =>
        let v := digits.foldl (fun v c => v * 10 + (c.toNat - 48)) 0
        if v > UINT_MAX then .ok (UINT_MAX, next :: rest)
        -- "1234abcg" or out-of-range?
        else if next ≠ 0 ∧ isalnum next then .ok (UINT_MAX, next :: rest)
        else .ok (v, next :: rest)

/-- The magic priority number at `p`, if there is one, and what follows it. -/
def parsePri : List UInt8 → Except Fault (ℕ × List UInt8)
  | [] => .error .recvbuf
  | c :: p =>
    if c ≠ 60 then .ok (defaultPri, c :: p)
    else do
      let (pri, p) ← bbStrtou p
      let p ← (match p with
        | [] => .error .recvbuf
        | c :: rest => .ok (if c = 62 then rest else c :: rest))
      -- not in LOG_FACMASK | LOG_PRIMASK
      return (if pri ≥ 1024 then defaultPri else pri, p)

/-- Copy a part into `parsebuf` from `q` on, with its control characters escaped. -/
def escapeLoop : List UInt8 → List UInt8 → ℕ → Except Fault (List UInt8 × List UInt8 × ℕ)
  | [], _, _ => .error .recvbuf
  | c :: p, parsebuf, q =>
    if c = 0 then do
      let parsebuf ← store parsebuf q 0
      return (p, parsebuf, q)
    else
      let c := if c = 10 then 32 else c
      if c < 32 ∧ c ≠ 9 then do
        let parsebuf ← store parsebuf q 94
        let parsebuf ← store parsebuf (q + 1) (c + 64) -- ^@, ^A, ^B...
        escapeLoop p parsebuf (q + 2)
      else do
        let parsebuf ← store parsebuf q c
        escapeLoop p parsebuf (q + 1)

/-- The loop of `split_escape_and_log`, with the times at which its parts are logged. Each part
takes a byte at least. -/
def splitLoop (g : Globals) (ctime : ℕ → Ctime) (turns : ℕ) (p parsebuf : List UInt8) :
    Except Fault (List UInt8 × List Logged) :=
  if p.length ≤ 1 then .ok (parsebuf, [])
  else match turns with
    | 0 => .error .overrun
    | turns + 1 => do
      let (pri, p) ← parsePri p
      let (p, parsebuf, q) ← escapeLoop p parsebuf 0
      let (parsebuf, logged) ← timestampAndLog g (ctime turns) pri parsebuf q
      let (parsebuf, later) ← splitLoop g ctime turns p parsebuf
      return (parsebuf, logged ++ later)

/-- `split_escape_and_log` of a datagram, in front of the NUL that the caller sets. -/
def splitEscapeAndLog (g : Globals) (ctime : ℕ → Ctime) (parsebuf datagram : List UInt8) :
    Except Fault (List UInt8 × List Logged) :=
  splitLoop g ctime datagram.length (datagram ++ [0]) parsebuf

end Busybox.Syslog
