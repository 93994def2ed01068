import Busybox.Lib.Runs
import Busybox.Lib.Dialogue
import Busybox.Tftp.Protocol

/-!
# A client, a server and the network between them

Every datagram that was ever sent stays in `sent`, with the number of blocks the
sending side of the file had built by then. The network may deliver any of them
at any time and any number of times, or never: losses, duplicates, delays and
reorderings are choices of the events. `Fresh` is the one bound on its delays.
-/

namespace Busybox.Tftp

open GuardedRun

inductive Side
  | client | server
  deriving DecidableEq, Repr

def Side.other : Side → Side
  | .client => .server
  | .server => .client

structure Datagram where
  recipient : Side
  packet : Packet
  stamp : Nat
  deriving DecidableEq, Repr

structure World where
  client : Transfer
  server : Transfer
  sent : List Datagram
  deriving DecidableEq, Repr

namespace World

def party (world : World) : Side → Transfer
  | .client => world.client
  | .server => world.server

def setParty (world : World) : Side → Transfer → World
  | .client, transfer => { world with client := transfer }
  | .server, transfer => { world with server := transfer }

@[simp] theorem party_setParty (world : World) (side : Side) (transfer : Transfer) :
    (world.setParty side transfer).party side = transfer := by
  cases side <;> rfl

@[simp] theorem party_other_setParty (world : World) (side : Side) (transfer : Transfer) :
    (world.setParty side transfer).party side.other = world.party side.other := by
  cases side <;> rfl

@[simp] theorem sent_setParty (world : World) (side : Side) (transfer : Transfer) :
    (world.setParty side transfer).sent = world.sent := by
  cases side <;> rfl

end World

/-- The side that has the file, and the side that gets it. -/
def Session.sender (session : Session) : Side := if session.get then .server else .client

def Session.receiver (session : Session) : Side := session.sender.other

/-- The DATA packets that a party has built so far. -/
def World.blocks (session : Session) (world : World) : Nat :=
  (world.party session.sender).blockNr - 1

/-- A turn of one party: its variables, and its packets on the network. -/
def World.after (session : Session) (world : World) (side : Side) (turn : Turn) : World :=
  let next := world.setParty side turn.1
  { next with
    sent := next.sent ++
      turn.2.map fun packet => ⟨side.other, packet, next.blocks session⟩ }

/-- What can happen: nothing comes in time, `poll` or `read` fails, or the
network delivers a datagram that was sent before. -/
inductive Event
  | timeout (side : Side)
  | pollError (side : Side)
  | readError (side : Side)
  | deliver (index : Nat) (disk : Disk)
  deriving DecidableEq, Repr

/-- A party that polls goes on; one that has returned does nothing. -/
def Transfer.wake (transfer : Transfer) (turn : Transfer → Turn) : Turn :=
  if transfer.status = .polling then turn transfer else (transfer, [])

/-- A datagram arrives: the first one starts the server. -/
def Session.arrive (session : Session) (transfer : Transfer) (disk : Disk) (packet : Packet) :
    Turn :=
  match transfer.status with
  | .idle => session.tftpd disk packet
  | .polling => transfer.receive disk packet
  | .returned _ => (transfer, [])

def step (session : Session) (world : World) : Event → World
  | .timeout side =>
    world.after session side ((world.party side).wake Transfer.timeout)
  | .pollError side =>
    world.after session side ((world.party side).wake fun transfer => (transfer.ret, []))
  | .readError side =>
    world.after session side
      ((world.party side).wake fun transfer => transfer.sendErrPkt 0 "read error")
  | .deliver index disk =>
    match world.sent[index]? with
    | none => world
    | some datagram =>
      world.after session datagram.recipient
        (session.arrive (world.party datagram.recipient) disk datagram.packet)

/-- The client has been called, the server waits for a request. -/
def start (session : Session) : World :=
  World.after session ⟨session.idleServer, session.idleServer, []⟩ .client session.startClient

/-- No datagram is delivered after 32768 further blocks. -/
def Fresh (session : Session) (world : World) : Event → Prop
  | .deliver index _ =>
    ∀ datagram ∈ world.sent[index]?, world.blocks session ≤ datagram.stamp + 32768
  | _ => True

instance (session : Session) (world : World) : DecidablePred (Fresh session world)
  | .deliver index _ => inferInstanceAs (Decidable
      (∀ datagram ∈ world.sent[index]?, world.blocks session ≤ datagram.stamp + 32768))
  | .timeout _ | .pollError _ | .readError _ => inferInstanceAs (Decidable True)

/-!
## What a turn of one party does

A turn is quiet when it neither builds a packet nor takes one: it resends what
is in `xbuf`, or gives up. The other turns build the next DATA or ACK; the
lemmas below say which packet they send and in which state they leave the
party, so that no later proof looks into the function.
-/

open StopAndWait

/-- Nothing is built and nothing is taken in the turn. -/
structure Quiet (transfer : Transfer) (turn : Turn) : Prop where
  blockNr : turn.1.blockNr = transfer.blockNr
  xbuf : turn.1.xbuf = transfer.xbuf
  expects : turn.1.expectOack = true → transfer.expectOack = true
  packets : ∀ packet ∈ turn.2, packet = transfer.xbuf ∨ packet.opcode = .error
  polls : turn.1.status = .polling → ∃ opcode retries expectOack,
    turn.1 = { transfer with opcode := opcode, retries := retries, expectOack := expectOack }
  success : turn.1.status = .returned .success → transfer.finished = true
  called : turn.1.status ≠ .idle

namespace Transfer

variable {transfer : Transfer}

@[simp] theorem err_status : transfer.err.status = .returned .failure := rfl

@[simp] theorem err_blockNr : transfer.err.blockNr = transfer.blockNr := rfl

@[simp] theorem err_expectOack : transfer.err.expectOack = transfer.expectOack := rfl

@[simp] theorem ret_blockNr : transfer.ret.blockNr = transfer.blockNr := by
  unfold ret; split <;> rfl

@[simp] theorem ret_xbuf : transfer.ret.xbuf = transfer.xbuf := by
  unfold ret; split <;> rfl

@[simp] theorem ret_expectOack : transfer.ret.expectOack = transfer.expectOack := by
  unfold ret; split <;> rfl

theorem ret_status : transfer.ret.status =
    .returned (if transfer.finished then .success else .failure) := by
  unfold ret; split <;> simp

theorem quiet_same (polling : transfer.status = .polling) : Quiet transfer (transfer, []) where
  blockNr := rfl
  xbuf := rfl
  expects := id
  packets := by simp
  polls _ := ⟨transfer.opcode, transfer.retries, transfer.expectOack, rfl⟩
  success returned := by simp [polling] at returned
  called := by simp [polling]

/-- Variables that no invariant mentions may change before a quiet turn, and
the wait for an OACK may end. -/
theorem quiet_of_update {opcode : Opcode} {retries : Nat} {expectOack : Bool} {turn : Turn}
    (expects : expectOack = true → transfer.expectOack = true)
    (quiet : Quiet
      { transfer with opcode := opcode, retries := retries, expectOack := expectOack } turn) :
    Quiet transfer turn where
  blockNr := quiet.blockNr
  xbuf := quiet.xbuf
  expects still := expects (quiet.expects still)
  packets := quiet.packets
  polls polling := quiet.polls polling
  success := quiet.success
  called := quiet.called

theorem quiet_ret : Quiet transfer (transfer.ret, []) where
  blockNr := ret_blockNr
  xbuf := ret_xbuf
  expects := by simp
  packets := by simp
  polls polling := by simp [ret_status] at polling
  success returned := by simpa [ret_status] using returned
  called := by simp [ret_status]

theorem quiet_sendErrPkt (reason : Nat) (text : String) :
    Quiet transfer (transfer.sendErrPkt reason text) where
  blockNr := rfl
  xbuf := rfl
  expects := id
  packets packet sent := by
    rw [sendErrPkt, List.mem_singleton] at sent
    exact .inr (sent ▸ rfl)
  polls polling := by simp [sendErrPkt] at polling
  success returned := by simp [sendErrPkt] at returned
  called := by simp [sendErrPkt]

theorem quiet_sendAgain (polling : transfer.status = .polling) :
    Quiet transfer transfer.sendAgain := by
  unfold sendAgain
  split
  · have quiet : Quiet transfer (transfer.ret, []) := quiet_ret
    exact { quiet with packets := by simp }
  · rw [← polling]
    exact { quiet_same polling with packets := by simp }

/-- A timeout resends the last packet, or ends the transfer. -/
theorem quiet_timeout (polling : transfer.status = .polling) :
    Quiet transfer transfer.timeout := by
  simp only [timeout]
  split
  · exact quiet_of_update id quiet_ret
  · exact quiet_of_update id (quiet_sendAgain polling)

/-- A timeout ends a transfer well only when the file is finished and either no
retry is left or the last packet received was an ACK. -/
theorem timeout_success (returned : transfer.timeout.1.status = .returned .success) :
    transfer.finished = true ∧ (transfer.retries ≤ 1 ∨ transfer.opcode = .ack) := by
  simp only [timeout] at returned
  split at returned
  · next last =>
    exact ⟨by simpa [ret_status] using returned, .inl (by omega)⟩
  · unfold sendAgain at returned
    split at returned
    · next final =>
      obtain ⟨finished, ack⟩ := Bool.and_eq_true_iff.mp final
      exact ⟨finished, .inr (by simpa using ack)⟩
    · simp at returned

/-- A receiver builds an ACK, and returns with it when the file is finished. -/
theorem build_get (get : transfer.get = true) (disk : Disk) :
    transfer.build disk =
      ({ transfer with
          blockNr := transfer.blockNr + 1
          opcode := .ack
          xbuf := .ack transfer.number
          retries := numRetries
          status := if transfer.finished then .returned .success else .polling },
        [.ack transfer.number]) := by
  cases finished : transfer.finished <;>
    simp [build, get, sendPkt, sendAgain, ret, finished, Packet.opcode]

/-- A sender builds the DATA packet of the next block. -/
theorem build_put (put : transfer.get = false) {disk : Disk} (reads : disk ≠ .cannotRead) :
    transfer.build disk =
      ({ transfer with
          blockNr := transfer.blockNr + 1
          input := transfer.input.drop transfer.blksize
          finished := transfer.finished ||
            (transfer.input.take transfer.blksize).length != transfer.blksize
          opcode := .data
          xbuf := .data transfer.number (transfer.input.take transfer.blksize)
          retries := numRetries
          status := .polling },
        [.data transfer.number (transfer.input.take transfer.blksize)]) := by
  simp [build, put, reads, sendPkt, sendAgain, Packet.opcode]

/-- The variables once a packet has been looked at. -/
def heard (transfer : Transfer) (opcode : Opcode) : Transfer :=
  { transfer with opcode := opcode, expectOack := false }

theorem quiet_of_heard {opcode : Opcode} {turn : Turn}
    (quiet : Quiet (transfer.heard opcode) turn) : Quiet transfer turn :=
  @quiet_of_update transfer opcode transfer.retries false turn nofun quiet

/-- A receiver writes a DATA packet that bears the awaited number. -/
theorem receive_data (get : transfer.get = true) (unexpecting : transfer.expectOack = false)
    {bytes : List UInt8} (fits : bytes.length ≤ transfer.blksize) (number : UInt16)
    (disk : Disk) :
    transfer.receive disk (.data number bytes) =
      if number = transfer.number then (transfer.heard .data).write disk bytes
      else (transfer.heard .data, []) := by
  simp [receive, Packet.received, List.take_of_length_le fits, process, unexpecting, get, heard,
    Transfer.number, Packet.opcode]

/-- A sender goes on after an ACK that bears the number of its last packet. -/
theorem receive_ack (put : transfer.get = false)
    (plain : transfer.expectOack = true → transfer.blksize = blksizeDefault) (number : UInt16)
    (disk : Disk) :
    transfer.receive disk (.ack number) =
      if number = transfer.number - 1 then
        if transfer.finished then ((transfer.heard .ack).ret, [])
        else (transfer.heard .ack).build disk
      else (transfer.heard .ack, []) := by
  cases expecting : transfer.expectOack with
  | true =>
    have same : transfer.blksize = blksizeDefault := plain expecting
    simp [receive, Packet.received, process, put, heard, Packet.opcode, expecting, ← same, Transfer.number]
  | false =>
    simp [receive, Packet.received, process, put, heard, Packet.opcode, expecting, Transfer.number]

/-- A server passes a request over once it runs. -/
theorem receive_request (unexpecting : transfer.expectOack = false) (get : Bool)
    (remoteFile : List UInt8) (options : Options) (disk : Disk) :
    transfer.receive disk (.request get remoteFile options) =
      (transfer.heard (Packet.request get remoteFile options).opcode, []) := by
  simp [receive, Packet.received, unexpecting, heard, process]

theorem quiet_receive_error {disk : Disk} {reason : Nat} {text : String} :
    Quiet transfer (transfer.receive disk (.error reason text)) :=
  @quiet_of_update transfer .error transfer.retries transfer.expectOack _ id quiet_ret

/-- A client that waits for an OACK goes on with the block size it asked for, and
one that does not passes the OACK over. -/
theorem receive_oack {options : Options}
    (agrees : ∀ asked ∈ options.blksize, asked = transfer.blksize) (disk : Disk) :
    transfer.receive disk (.oack options) = (transfer.heard .oack, []) ∨
      transfer.receive disk (.oack options)
        = (transfer.heard .oack).sendErrPkt errBadOpt "" ∨
      transfer.expectOack = true ∧ transfer.receive disk (.oack options) =
        build { transfer.heard .oack with
          blockNr := if transfer.get then 0 else transfer.blockNr } disk := by
  cases expecting : transfer.expectOack with
  | false =>
    left
    simp [receive, Packet.received, expecting, heard, Packet.opcode]
  | true =>
    right
    simp only [receive, Packet.received, expecting, if_true, acceptOack, true_and]
    cases asked : options.blksize with
    | none => exact .inr rfl
    | some blksize =>
      obtain rfl := agrees blksize asked
      dsimp only
      split
      · exact .inl rfl
      · next accepted =>
        rw [blksizeCheck] at accepted
        split at accepted
        · cases accepted
        · obtain rfl := Option.some.inj accepted
          exact .inr rfl

/-- Building a DATA packet is no way to return success. -/
theorem build_unreturned (put : transfer.get = false) (disk : Disk) :
    (transfer.build disk).1.status ≠ .returned .success := by
  by_cases reads : disk = .cannotRead
  · rw [build, if_neg (by simp [put]), if_pos reads]
    simp [sendErrPkt]
  · simp [build_put put reads]

theorem process_success (put : transfer.get = false) (polling : transfer.status = .polling)
    {disk : Disk} {packet : Packet}
    (success : (transfer.process disk packet).1.status = .returned .success) :
    transfer.finished = true ∧ packet = .ack (transfer.number - 1) := by
  cases packet with
  | ack number =>
    simp only [process, put, Bool.not_false, Bool.true_and, beq_iff_eq] at success
    split at success
    · next awaited =>
      split at success
      · next finished => exact ⟨finished, awaited ▸ rfl⟩
      · exact absurd success (build_unreturned put disk)
    · simp [polling] at success
  | data number bytes => simp [process, put, polling] at success
  | _ => simp [process, polling] at success

/-- A packet ends a sender's transfer well only when the file is finished and it
is an ERROR, or the ACK of the last packet. -/
theorem receive_success (put : transfer.get = false) (polling : transfer.status = .polling)
    {disk : Disk} {packet : Packet}
    (success : (transfer.receive disk packet).1.status = .returned .success) :
    transfer.finished = true ∧
      (packet.opcode = .error ∨ packet = .ack (transfer.number - 1)) := by
  have processed : ∀ (next : Transfer) (heard : Packet),
      (next.process disk heard).1.status = .returned .success → next.get = false →
      next.status = .polling → next.finished = transfer.finished →
      next.blockNr = transfer.blockNr →
        transfer.finished = true ∧ heard = .ack (transfer.number - 1) := by
    intro next heard success put polling finished blockNr
    have ends := process_success put polling success
    rwa [finished, number, blockNr, ← number] at ends
  cases packet with
  | error reason text =>
    have finished : transfer.finished = true := by
      simpa [receive, Packet.received, ret_status] using success
    exact ⟨finished, .inl rfl⟩
  | oack options =>
    simp only [receive, Packet.received] at success
    split at success
    · simp only [acceptOack] at success
      split at success
      · exact absurd success (build_unreturned (by exact put) disk)
      split at success
      · simp [sendErrPkt] at success
      · exact absurd success (build_unreturned (by exact put) disk)
    · simp [polling] at success
  | _ =>
    simp only [receive, Packet.received] at success
    split at success
    all_goals
      have ends := processed _ _ success put polling rfl rfl
      exact ⟨ends.1, .inr (by simpa using ends.2)⟩

end Transfer

/-- A server does not return success on its first packet. -/
theorem Session.tftpd_unreturned (session : Session) (disk : Disk) (packet : Packet) :
    (session.tftpd disk packet).1.status ≠ .returned .success := by
  have refused : ∀ reason text, (session.refuse reason text).1.status ≠ .returned .success := by
    intro reason text
    simp [refuse, Transfer.sendErrPkt]
  have started : ∀ get blksize wantTransferSize,
      (session.startServer disk get blksize wantTransferSize).1.status
        ≠ .returned .success := by
    intro get blksize wantTransferSize
    rw [startServer]
    dsimp only
    split
    · simp [Transfer.sendErrPkt]
    split
    · simp [Transfer.sendPkt, Transfer.sendAgain, blank]
    · cases get with
      | true => simp [Transfer.build_get, blank]
      | false => exact Transfer.build_unreturned rfl disk
  cases packet with
  | request get remoteFile options =>
    rw [tftpd]
    repeat' split
    all_goals first | exact refused _ _ | exact started _ _ _
  | _ => exact refused _ _

end Busybox.Tftp
