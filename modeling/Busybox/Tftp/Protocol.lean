import Mathlib.Data.List.Basic

/-!
# tftp_protocol

The function that both `tftp` and `tftpd` run for one transfer, up to its next
wait for a packet. `Transfer` holds its variables; the `goto` labels are the
definitions below. `block_nr` is kept without its wrap-around: the function
only ever uses it through `number`, the sixteen bits that a packet carries.

Waiting times, the progress bar and the addresses are left out: a timeout may
come at any moment, and a packet comes from the peer. A datagram that the
kernel refuses to send ends the process and is left out too.
-/

namespace Busybox.Tftp

/-- TFTP_BLKSIZE_DEFAULT -/
def blksizeDefault : Nat := 512

/-- TFTP_NUM_RETRIES -/
def numRetries : Nat := 12

def errNofile : Nat := 1
def errWrite : Nat := 3
def errBadOpt : Nat := 8

inductive Opcode
  | rrq | wrq | data | ack | error | oack
  deriving DecidableEq, Repr

/-- The options of a request or an OACK, as `tftp_get_option` finds them. -/
structure Options where
  blksize : Option Nat
  tsize : Option Nat
  deriving DecidableEq, Repr

inductive Packet
  | request (get : Bool) (remoteFile : List UInt8) (options : Options)
  | data (block : UInt16) (bytes : List UInt8)
  | ack (block : UInt16)
  | error (reason : Nat) (text : String)
  | oack (options : Options)
  deriving DecidableEq, Repr

def Packet.opcode : Packet → Opcode
  | .request true .. => .rrq
  | .request false .. => .wrq
  | .data .. => .data
  | .ack _ => .ack
  | .error .. => .error
  | .oack _ => .oack

/-- What `read` leaves of a packet in a buffer of `blksize + 4` bytes. The
shortest buffer that a client gets past its own checks holds every OACK, and
nothing reads the tail of the other packets. -/
def Packet.received (blksize : Nat) : Packet → Packet
  | .data block bytes => .data block (bytes.take blksize)
  | packet => packet

/-- `tftp_blksize_check`. -/
def blksizeCheck (blksize maxsize : Nat) : Option Nat :=
  if blksize < 24 ∨ blksize > maxsize then none else some blksize

/-- What the file system does in one turn of the protocol. -/
inductive Disk
  | works
  | cannotOpen
  | cannotRead
  | fills (room : Nat)
  deriving DecidableEq, Repr

/-- The bytes that `full_write` gets onto the disk. -/
def Disk.fullWrite : Disk → List UInt8 → List UInt8
  | .fills room, bytes => bytes.take room
  | _, bytes => bytes

inductive Exit
  | success | failure
  deriving DecidableEq, Repr

/-- Where the function stands: not called yet, waiting at `recv_again`, or
returned. -/
inductive Status
  | idle | polling | returned (exit : Exit)
  deriving DecidableEq, Repr

/-- The variables of `tftp_protocol`. `input` is what is left to read of the
file that is sent; `output` is the file that is written, `none` while it is not
open. -/
structure Transfer where
  get : Bool
  localFile : Bool
  blksize : Nat
  expectOack : Bool
  finished : Bool
  opcode : Opcode
  blockNr : Nat
  xbuf : Packet
  retries : Nat
  input : List UInt8
  output : Option (List UInt8)
  status : Status
  deriving DecidableEq, Repr

/-- `block_nr` as the source has it, a `uint16_t`. -/
def Transfer.number (transfer : Transfer) : UInt16 := UInt16.ofNat transfer.blockNr

/-- What a stretch of the function leaves: its variables and the packets sent. -/
abbrev Turn := Transfer × List Packet

namespace Transfer

/-- Label `err`: a receiver removes its file. -/
def err (transfer : Transfer) : Transfer :=
  { transfer with
    output := if transfer.get && transfer.localFile then none else transfer.output
    status := .returned .failure }

/-- Label `ret`. -/
def ret (transfer : Transfer) : Transfer :=
  if transfer.finished then { transfer with status := .returned .success } else transfer.err

/-- Label `send_err_pkt`. -/
def sendErrPkt (transfer : Transfer) (reason : Nat) (text : String) : Turn :=
  (transfer.err, [.error reason text])

/-- Label `send_again`: `opcode` is the opcode of the packet in `xbuf`, or of
the last packet received since it was built. -/
def sendAgain (transfer : Transfer) : Turn :=
  (if transfer.finished && transfer.opcode == .ack then transfer.ret
    else { transfer with status := .polling }, [transfer.xbuf])

/-- Label `send_pkt`. -/
def sendPkt (transfer : Transfer) (xbuf : Packet) : Turn :=
  sendAgain { transfer with opcode := xbuf.opcode, xbuf := xbuf, retries := numRetries }

/-- The top of the loop: build ACK or DATA. -/
def build (transfer : Transfer) (disk : Disk) : Turn :=
  let next := { transfer with blockNr := transfer.blockNr + 1 }
  if transfer.get then next.sendPkt (.ack transfer.number)
  else if disk = .cannotRead then next.sendErrPkt 0 "read error"
  else
    let bytes := transfer.input.take transfer.blksize
    sendPkt
      { next with
        input := transfer.input.drop transfer.blksize
        finished := transfer.finished || bytes.length != transfer.blksize }
      (.data transfer.number bytes)

/-- No packet came in time. -/
def timeout (transfer : Transfer) : Turn :=
  let next := { transfer with retries := transfer.retries - 1 }
  if next.retries = 0 then (next.ret, []) else next.sendAgain

/-- The DATA packet that a receiver waits for. -/
def write (transfer : Transfer) (disk : Disk) (bytes : List UInt8) : Turn :=
  if transfer.output = none ∧ disk = .cannotOpen then
    -- xopen: the process dies
    ({ transfer with status := .returned .failure }, [])
  else
    let written := disk.fullWrite bytes
    let next := { transfer with output := some (transfer.output.getD [] ++ written) }
    if written.length ≠ bytes.length then next.sendErrPkt errWrite "write error"
    else
      build { next with finished := transfer.finished || written.length != transfer.blksize } disk

/-- A packet that is neither an ERROR nor the answer to a request: one that is
not waited for leads to `recv_again`. -/
def process (transfer : Transfer) (disk : Disk) : Packet → Turn
  | .data recvBlk bytes =>
    if transfer.get && recvBlk == transfer.number then transfer.write disk bytes
    else (transfer, [])
  | .ack recvBlk =>
    if !transfer.get && recvBlk == transfer.number - 1 then
      if transfer.finished then (transfer.ret, []) else transfer.build disk
    else (transfer, [])
  | _ => (transfer, [])

/-- The OACK that answers a request: a receiver acknowledges it as block 0. -/
def acceptOack (transfer : Transfer) (disk : Disk) (options : Options) : Turn :=
  let accepted (blksize : Nat) : Turn :=
    build
      { transfer with
        blksize := blksize
        blockNr := if transfer.get then 0 else transfer.blockNr } disk
  match options.blksize with
  | none => accepted transfer.blksize
  | some asked =>
    match blksizeCheck asked transfer.blksize with
    | none => transfer.sendErrPkt errBadOpt ""
    | some blksize => accepted blksize

/-- A packet has been received. -/
def receive (transfer : Transfer) (disk : Disk) (packet : Packet) : Turn :=
  let next := { transfer with opcode := packet.opcode }
  match packet.received transfer.blksize with
  | .error .. => (next.ret, [])
  | .oack options =>
    if transfer.expectOack then acceptOack { next with expectOack := false } disk options
    else (next, [])
  | other =>
    if transfer.expectOack then
      process { next with expectOack := false, blksize := blksizeDefault } disk other
    else next.process disk other

end Transfer

/-- The options that are added to a request or an OACK. -/
def addOptions (blksize size : Nat) (wantTransferSize : Bool) : Options where
  blksize := if blksize = blksizeDefault then none else some blksize
  tsize := if wantTransferSize then some size else none

/-- The bytes that an option takes: name, value and their NULs. -/
def optionSize (name : Nat) : Option Nat → Nat
  | none => 0
  | some value => name + 1 + (Nat.toDigits 10 value).length + 1

/-- The bytes of a request: opcode, file name, "octet", options. -/
def requestSize (remoteFile : List UInt8) (options : Options) : Nat :=
  2 + (remoteFile.length + 1) + 6 + optionSize 7 options.blksize + optionSize 5 options.tsize

/-- One transfer: what the user asks `tftp` for, what `tftpd` was started with,
and the file that is to be sent. -/
structure Session where
  get : Bool
  remoteFile : List UInt8
  localFile : Bool
  blksize : Nat
  prohibitUpload : Bool
  content : List UInt8
  deriving DecidableEq, Repr

/-- The variables as the function finds them. -/
def blank (get localFile : Bool) (blksize : Nat) (content : List UInt8) : Transfer where
  get := get
  localFile := localFile
  blksize := blksize
  expectOack := false
  finished := false
  opcode := .error
  blockNr := 1
  xbuf := .error 0 ""
  retries := 0
  input := if get then [] else content
  output := none
  status := .idle

namespace Session

/-- The request of the client, and the options it asks for. -/
def options (session : Session) : Options :=
  addOptions session.blksize (if session.get then 0 else session.content.length) true

def request (session : Session) : Packet :=
  .request session.get session.remoteFile session.options

/-- `tftp_main`, and `tftp_protocol` as it runs for `tftp`. -/
def startClient (session : Session) : Turn :=
  let transfer := blank session.get session.localFile session.blksize session.content
  let fails : Turn := ({ transfer with status := .returned .failure }, [])
  match blksizeCheck session.blksize 65564 with
  | none => fails
  | some blksize =>
    -- the request has to fit into xbuf
    if session.remoteFile.length + 3 + 6 ≥ blksize + 4 then fails
    else if blksize + 4 - 1 - (session.remoteFile.length + 9) < 21 + 24 then fails
    else Transfer.sendPkt { transfer with expectOack := true } session.request

/-- The server before a request reaches it. -/
def idleServer (session : Session) : Transfer :=
  blank (!session.get) true blksizeDefault session.content

/-- `tftp_protocol` as it runs for `tftpd`. -/
def startServer (session : Session) (disk : Disk) (get : Bool) (blksize : Nat)
    (wantTransferSize : Bool) : Turn :=
  let transfer := blank get true blksize session.content
  if disk = .cannotOpen then transfer.sendErrPkt errNofile "can't open file"
  else
    let opened := { transfer with output := if get then some [] else none }
    if blksize ≠ blksizeDefault ∨ wantTransferSize then
      opened.sendPkt
        (.oack (addOptions blksize (if get then 0 else session.content.length) wantTransferSize))
    else
      -- an upload without options: ACK the request as block 0
      Transfer.build { opened with blockNr := if get then 0 else 1 } disk

/-- Whether the name has a component that starts with a dot. -/
def dotInFileName (name : List UInt8) : Bool :=
  name.head? == some 46 || (name.zip name.tail).contains (47, 46)

/-- Label `err` of `tftpd_main`: only an ERROR packet is sent. -/
def refuse (session : Session) (reason : Nat) (text : String) : Turn :=
  session.idleServer.sendErrPkt reason text

/-- `tftpd_main`: the request is checked, then `tftp_protocol` runs. -/
def tftpd (session : Session) (disk : Disk) : Packet → Turn
  | .request get remoteFile options =>
    if requestSize remoteFile options > 516 then session.refuse 0 "malformed packet"
    else if dotInFileName remoteFile then session.refuse 0 "dot in file name"
    else
      match blksizeCheck (options.blksize.getD blksizeDefault) 65564 with
      | none => session.refuse errBadOpt ""
      | some blksize =>
        if !get && session.prohibitUpload then session.refuse 0 "write error"
        else session.startServer disk (!get) blksize (get && options.tsize.isSome)
  | _ => session.refuse 0 "malformed packet"

end Session

end Busybox.Tftp
