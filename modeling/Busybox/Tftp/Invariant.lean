import Busybox.Tftp.Turns

/-!
# The invariant of a transfer

`Sound` says what each datagram on the network is: a DATA packet carries the
block whose number it bears and was sent when that block was the last one built;
an ACK acknowledges a block that has been taken. `Sends` and `Receives` are what
holds of a party that polls, and `Inv` puts both parties and the network
together.
-/

namespace Busybox.Tftp

open StopAndWait

/-- The datagrams that may be on the network once `built` blocks have been built
and `taken` of them written. -/
inductive Sound (session : Session) (built taken : Nat) : Datagram → Prop
  | data (count : Nat) (before : count < built) :
      Sound session built taken ⟨session.receiver,
        .data (UInt16.ofNat (count + 1)) (block session.blksize count session.content), count + 1⟩
  | ack (count stamp : Nat) (before : count ≤ taken) (stamped : stamp ≤ count + 1)
      (plain : count = 0 → session.get = false → session.blksize = blksizeDefault) :
      Sound session built taken ⟨session.sender, .ack (UInt16.ofNat count), stamp⟩
  | oack (options : Options) (stamp : Nat)
      (agrees : ∀ asked ∈ options.blksize, asked = session.blksize) :
      Sound session built taken ⟨.client, .oack options, stamp⟩
  | request (stamp : Nat) : Sound session built taken ⟨.server, session.request, stamp⟩
  | error (recipient : Side) (reason : Nat) (text : String) (stamp : Nat) :
      Sound session built taken ⟨recipient, .error reason text, stamp⟩

theorem Sound.mono {session : Session} {built built' taken taken' : Nat} {datagram : Datagram}
    (sound : Sound session built taken datagram) (builds : built ≤ built')
    (takes : taken ≤ taken') : Sound session built' taken' datagram := by
  cases sound with
  | data count before => exact .data count (by omega)
  | ack count stamp before stamped plain => exact .ack count stamp (by omega) stamped plain
  | oack options stamp agrees => exact .oack options stamp agrees
  | request stamp => exact .request stamp
  | error recipient reason text stamp => exact .error recipient reason text stamp

theorem Sound.of_error {session : Session} {built taken stamp : Nat} {recipient : Side}
    {packet : Packet} (error : packet.opcode = .error) :
    Sound session built taken ⟨recipient, packet, stamp⟩ := by
  cases packet with
  | error reason text => exact .error recipient reason text stamp
  | request get => cases get <;> simp [Packet.opcode] at error
  | _ => simp [Packet.opcode] at error

section Inversion

variable {session : Session} {built taken stamp : Nat} {recipient : Side}

theorem Sound.data_inv {number : UInt16} {bytes : List UInt8}
    (sound : Sound session built taken ⟨recipient, .data number bytes, stamp⟩) :
    recipient = session.receiver ∧ ∃ count < built, number = UInt16.ofNat (count + 1) ∧
      bytes = block session.blksize count session.content ∧ stamp = count + 1 := by
  generalize isDatagram : (⟨recipient, .data number bytes, stamp⟩ : Datagram) = datagram at sound
  cases sound <;> cases isDatagram
  next count before => exact ⟨rfl, count, before, rfl, rfl, rfl⟩

theorem Sound.ack_inv {number : UInt16}
    (sound : Sound session built taken ⟨recipient, .ack number, stamp⟩) :
    recipient = session.sender ∧ ∃ count ≤ taken, number = UInt16.ofNat count ∧
      stamp ≤ count + 1 ∧
      (count = 0 → session.get = false → session.blksize = blksizeDefault) := by
  generalize isDatagram : (⟨recipient, .ack number, stamp⟩ : Datagram) = datagram at sound
  cases sound <;> cases isDatagram
  next count before plain stamped => exact ⟨rfl, count, before, rfl, stamped, plain⟩

theorem Sound.oack_inv {options : Options}
    (sound : Sound session built taken ⟨recipient, .oack options, stamp⟩) :
    recipient = .client ∧ ∀ asked ∈ options.blksize, asked = session.blksize := by
  generalize isDatagram : (⟨recipient, .oack options, stamp⟩ : Datagram) = datagram at sound
  cases sound <;> cases isDatagram
  next agrees => exact ⟨rfl, agrees⟩

theorem Sound.request_inv {get : Bool} {remoteFile : List UInt8} {options : Options}
    (sound : Sound session built taken ⟨recipient, .request get remoteFile options, stamp⟩) :
    recipient = .server ∧ .request get remoteFile options = session.request := by
  generalize isDatagram :
    (⟨recipient, .request get remoteFile options, stamp⟩ : Datagram) = datagram at sound
  cases sound <;> cases isDatagram
  exact ⟨rfl, rfl⟩

end Inversion

/-- A party that sends the file and polls: its blocks are full unless the file
is finished, and what it would resend is sound. -/
structure Sends (session : Session) (transfer : Transfer) : Prop where
  put : transfer.get = false
  blksize : transfer.blksize = session.blksize
  input : transfer.input = session.content.drop ((transfer.blockNr - 1) * session.blksize)
  finished : transfer.finished = true ↔
    session.content.length < (transfer.blockNr - 1) * session.blksize
  xbuf : ∀ taken, Sound session (transfer.blockNr - 1) taken
    ⟨session.receiver, transfer.xbuf, transfer.blockNr - 1⟩

/-- A party that receives the file and polls: it has written the blocks it has
taken, and they were full. -/
structure Receives (session : Session) (transfer : Transfer) : Prop where
  get : transfer.get = true
  blksize : transfer.blksize = session.blksize
  unfinished : transfer.finished = false
  output : transfer.output.getD [] =
    session.content.take ((transfer.blockNr - 1) * session.blksize)
  within : (transfer.blockNr - 1) * session.blksize ≤ session.content.length
  xbuf : ∀ built, built ≤ transfer.blockNr → Sound session built (transfer.blockNr - 1)
    ⟨session.sender, transfer.xbuf, built⟩

/-- The blocks that the receiver has taken. -/
def World.taken (session : Session) (world : World) : Nat :=
  (world.party session.receiver).blockNr - 1

/-- What holds of every world that a transfer reaches. -/
structure Inv (session : Session) (world : World) : Prop where
  started : ∀ side, 1 ≤ (world.party side).blockNr
  idle : ∀ side, (world.party side).status = .idle → (world.party side).blockNr = 1
  called : world.client.status ≠ .idle
  unasked : world.server.expectOack = false
  taken_le_built : world.taken session ≤ world.blocks session
  built_le_taken : world.blocks session ≤ world.taken session + 1
  sends : (world.party session.sender).status = .polling →
    Sends session (world.party session.sender)
  receives : (world.party session.receiver).status = .polling →
    Receives session (world.party session.receiver)
  written : (world.party session.receiver).status = .returned .success →
    (world.party session.receiver).output = some session.content
  whole : session.content.length < world.taken session * session.blksize →
    (world.party session.receiver).status = .returned .success
  expecting : world.client.expectOack = true →
    world.blocks session = 0 ∧ world.client.xbuf.opcode ≠ .ack ∧
      ∀ datagram ∈ world.sent, datagram.recipient = .server → datagram.packet.opcode ≠ .ack
  sound : ∀ datagram ∈ world.sent, Sound session (world.blocks session) (world.taken session) datagram

variable {session : Session} {world : World}

@[simp] theorem Side.other_other (side : Side) : side.other.other = side := by
  cases side <;> rfl

@[simp] theorem Session.other_receiver : session.receiver.other = session.sender :=
  Side.other_other _

@[simp] theorem Session.other_sender : session.sender.other = session.receiver := rfl

@[simp] theorem World.party_after (side : Side) (turn : Turn) :
    (world.after session side turn).party side = turn.1 := by
  cases side <;> rfl

@[simp] theorem World.party_other_after (side : Side) (turn : Turn) :
    (world.after session side turn).party side.other = world.party side.other := by
  cases side <;> rfl

@[simp] theorem World.party_receiver_after (turn : Turn) :
    (world.after session session.sender turn).party session.receiver
      = world.party session.receiver := party_other_after _ _

@[simp] theorem World.party_sender_after (turn : Turn) :
    (world.after session session.receiver turn).party session.sender
      = world.party session.sender := by
  have kept := @party_other_after session world session.receiver turn
  rwa [Session.other_receiver] at kept

theorem World.sent_after (side : Side) (turn : Turn) :
    (world.after session side turn).sent = world.sent ++ turn.2.map fun packet =>
      ⟨side.other, packet, (world.after session side turn).blocks session⟩ := by
  cases side <;> rfl

/-- Progress as the blocks built and taken so far. -/
def Inv.progress (inv : Inv session world) : Progress where
  built := world.blocks session
  taken := world.taken session
  taken_le_built := inv.taken_le_built
  built_le_taken := inv.built_le_taken

/-- No party begins to wait for an OACK; and if the client still waits for one
after the turn, no block has been built or taken in it and the client has
acknowledged nothing. -/
structure Expects (session : Session) (world : World) (side : Side) (turn : Turn) : Prop where
  before : turn.1.expectOack = true → (world.party side).expectOack = true
  blockNr : (world.after session side turn).client.expectOack = true →
    turn.1.blockNr = (world.party side).blockNr
  unacked : side = .client → turn.1.expectOack = true →
    turn.1.xbuf.opcode ≠ .ack ∧ ∀ packet ∈ turn.2, packet.opcode ≠ .ack

theorem World.blocks_after_sender (turn : Turn) :
    (world.after session session.sender turn).blocks session = turn.1.blockNr - 1 := by
  rw [blocks, party_after]

theorem World.taken_after_sender (turn : Turn) :
    (world.after session session.sender turn).taken session = world.taken session := by
  rw [taken, party_receiver_after, taken]

theorem World.blocks_after_receiver (turn : Turn) :
    (world.after session session.receiver turn).blocks session = world.blocks session := by
  rw [blocks, party_sender_after, blocks]

theorem World.taken_after_receiver (turn : Turn) :
    (world.after session session.receiver turn).taken session = turn.1.blockNr - 1 := by
  rw [taken, party_after]

theorem Session.sender_of_get (get : session.get = true) : session.sender = .server := by
  rw [sender, if_pos get]

theorem Session.receiver_of_get (get : session.get = true) : session.receiver = .client := by
  rw [receiver, sender_of_get get]
  rfl

theorem Session.sender_of_put (put : session.get = false) : session.sender = .client := by
  rw [sender, if_neg (by simp [put])]

theorem Session.receiver_of_put (put : session.get = false) : session.receiver = .server := by
  rw [receiver, sender_of_put put]
  rfl

/-- A side is the sender's or the receiver's. -/
theorem Session.side_cases (session : Session) (side : Side) :
    side = session.sender ∨ side = session.receiver := by
  rw [receiver]
  cases side <;> cases session.sender <;> simp [Side.other]

/-- What holds of both parties holds after the turn of one of them. -/
theorem World.forall_party_after {P : Transfer → Prop} {side : Side} {turn : Turn}
    (holds : ∀ other, P (world.party other)) (next : P turn.1) (other : Side) :
    P ((world.after session side turn).party other) := by
  cases side <;> cases other
  · exact next
  · exact holds .server
  · exact holds .client
  · exact next

section Expecting

variable {side : Side} {turn : Turn}

theorem Inv.unasked_after (inv : Inv session world) (expects : Expects session world side turn) :
    (world.after session side turn).server.expectOack = false := by
  cases side with
  | client => exact inv.unasked
  | server =>
    refine Bool.eq_false_iff.mpr fun asked => ?_
    have before : world.server.expectOack = true := expects.before asked
    simp [inv.unasked] at before

theorem Inv.called_after (inv : Inv session world) (called : turn.1.status ≠ .idle) :
    (world.after session side turn).client.status ≠ .idle := by
  cases side with
  | client => exact called
  | server => exact inv.called

theorem Inv.expecting_after (inv : Inv session world) (expects : Expects session world side turn)
    (expecting : (world.after session side turn).client.expectOack = true) :
    (world.after session side turn).blocks session = 0 ∧
      (world.after session side turn).client.xbuf.opcode ≠ .ack ∧
      ∀ datagram ∈ (world.after session side turn).sent,
        datagram.recipient = .server → datagram.packet.opcode ≠ .ack := by
  have before : world.client.expectOack = true := by
    cases side with
    | client => exact expects.before expecting
    | server => exact expecting
  have blockNr := expects.blockNr expecting
  obtain ⟨unbuilt, xbuf, unacked⟩ := inv.expecting before
  refine ⟨?_, ?_, ?_⟩
  · rcases session.side_cases side with rfl | rfl
    · rwa [World.blocks_after_sender, blockNr]
    · rwa [World.blocks_after_receiver]
  · cases side with
    | client => exact (expects.unacked rfl expecting).1
    | server => exact xbuf
  · intro datagram member toServer
    rw [World.sent_after, List.mem_append] at member
    rcases member with earlier | now
    · exact unacked datagram earlier toServer
    · obtain ⟨packet, sent, rfl⟩ := List.mem_map.mp now
      cases side with
      | client => exact (expects.unacked rfl expecting).2 packet sent
      | server => cases toServer

end Expecting

/-- A turn of the sending party keeps the invariant. -/
theorem Inv.after_sender (inv : Inv session world) {turn : Turn}
    (started : 1 ≤ turn.1.blockNr) (called : turn.1.status ≠ .idle)
    (builds : world.blocks session ≤ turn.1.blockNr - 1)
    (bounded : turn.1.blockNr - 1 ≤ world.taken session + 1)
    (sends : turn.1.status = .polling → Sends session turn.1)
    (sound : ∀ packet ∈ turn.2, Sound session (turn.1.blockNr - 1) (world.taken session)
      ⟨session.receiver, packet, turn.1.blockNr - 1⟩)
    (expects : Expects session world session.sender turn) :
    Inv session (world.after session session.sender turn) where
  started := World.forall_party_after (P := fun party => 1 ≤ party.blockNr) inv.started started
  idle := World.forall_party_after (P := fun party => party.status = .idle → party.blockNr = 1)
    inv.idle fun idle => absurd idle called
  taken_le_built := by
    rw [World.blocks_after_sender, World.taken_after_sender]
    exact Nat.le_trans inv.taken_le_built builds
  built_le_taken := by rwa [World.blocks_after_sender, World.taken_after_sender]
  sends := by rwa [World.party_after]
  receives := by rw [World.party_receiver_after]; exact inv.receives
  written := by rw [World.party_receiver_after]; exact inv.written
  whole := by rw [World.taken_after_sender, World.party_receiver_after]; exact inv.whole
  called := inv.called_after called
  unasked := inv.unasked_after expects
  expecting := inv.expecting_after expects
  sound := by
    intro datagram member
    rw [World.blocks_after_sender, World.taken_after_sender]
    rw [World.sent_after, List.mem_append] at member
    rcases member with earlier | now
    · exact (inv.sound datagram earlier).mono builds (Nat.le_refl _)
    · obtain ⟨packet, sent, rfl⟩ := List.mem_map.mp now
      rw [World.blocks_after_sender]
      exact sound packet sent

/-- A turn of the receiving party keeps the invariant. -/
theorem Inv.after_receiver (inv : Inv session world) {turn : Turn}
    (started : 1 ≤ turn.1.blockNr) (called : turn.1.status ≠ .idle)
    (takes : world.taken session ≤ turn.1.blockNr - 1)
    (bounded : turn.1.blockNr - 1 ≤ world.blocks session)
    (receives : turn.1.status = .polling → Receives session turn.1)
    (written : turn.1.status = .returned .success → turn.1.output = some session.content)
    (whole : session.content.length < (turn.1.blockNr - 1) * session.blksize →
      turn.1.status = .returned .success)
    (sound : ∀ packet ∈ turn.2, Sound session (world.blocks session) (turn.1.blockNr - 1)
      ⟨session.sender, packet, world.blocks session⟩)
    (expects : Expects session world session.receiver turn) :
    Inv session (world.after session session.receiver turn) where
  started := World.forall_party_after (P := fun party => 1 ≤ party.blockNr) inv.started started
  idle := World.forall_party_after (P := fun party => party.status = .idle → party.blockNr = 1)
    inv.idle fun idle => absurd idle called
  taken_le_built := by rwa [World.blocks_after_receiver, World.taken_after_receiver]
  built_le_taken := by
    rw [World.blocks_after_receiver, World.taken_after_receiver]
    exact Nat.le_trans inv.built_le_taken (Nat.succ_le_succ takes)
  sends := by rw [World.party_sender_after]; exact inv.sends
  receives := by rwa [World.party_after]
  written := by rwa [World.party_after]
  whole := by rwa [World.taken_after_receiver, World.party_after]
  called := inv.called_after called
  unasked := inv.unasked_after expects
  expecting := inv.expecting_after expects
  sound := by
    intro datagram member
    rw [World.blocks_after_receiver, World.taken_after_receiver]
    rw [World.sent_after, List.mem_append] at member
    rcases member with earlier | now
    · exact (inv.sound datagram earlier).mono (Nat.le_refl _) takes
    · obtain ⟨packet, sent, rfl⟩ := List.mem_map.mp now
      rw [World.blocks_after_receiver, Session.other_receiver]
      exact sound packet sent

/-- A turn that leaves the party as it was and sends nothing changes nothing. -/
theorem World.after_same (side : Side) :
    world.after session side (world.party side, []) = world := by
  cases side <;> simp [after, setParty, party]

end Busybox.Tftp
