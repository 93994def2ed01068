import Busybox.Tftp.Arrivals

/-!
# The start of a transfer

The client sends its request to a server that has not been called.
-/

namespace Busybox.Tftp

variable {session : Session}

/-- `tftp` gives up before it sends anything, or sends its request. -/
structure Requests (session : Session) (turn : Turn) : Prop where
  blockNr : turn.1.blockNr = 1
  called : turn.1.status = .returned .failure ∨ turn.1.status = .polling
  get : turn.1.get = session.get
  blksize : turn.1.blksize = session.blksize
  unfinished : turn.1.finished = false
  input : session.get = false → turn.1.input = session.content
  output : turn.1.output = none
  xbuf : turn.1.xbuf = session.request ∨ turn.1.status = .returned .failure
  expects : turn.1.expectOack = true → turn.1.xbuf = session.request
  packets : ∀ packet ∈ turn.2, packet = session.request

theorem startClient_requests (session : Session) : Requests session session.startClient := by
  have fails : Requests session
      ({ blank session.get session.localFile session.blksize session.content with
          status := .returned .failure }, []) :=
    ⟨rfl, .inl rfl, rfl, rfl, rfl, fun put => by simp [blank, put], rfl, .inr rfl, nofun, by simp⟩
  rw [Session.startClient]
  split
  · exact fails
  split
  · exact fails
  split
  · exact fails
  · exact ⟨rfl, .inr rfl, rfl, rfl, rfl, fun put => by simp [Transfer.sendPkt,
      Transfer.sendAgain, blank, put], rfl, .inl rfl, fun _ => rfl,
      fun packet sent => List.mem_singleton.mp sent⟩

theorem request_opcode (session : Session) : session.request.opcode ≠ .ack := by
  rw [Session.request]
  cases session.get <;> simp [Packet.opcode]

theorem Requests.sends {turn : Turn} (requests : Requests session turn)
    (put : session.get = false) (polling : turn.1.status = .polling) : Sends session turn.1 where
  put := requests.get.trans put
  blksize := requests.blksize
  input := by rw [requests.input put, requests.blockNr, Nat.sub_self, Nat.zero_mul, List.drop_zero]
  finished := by simp [requests.unfinished, requests.blockNr]
  xbuf := by
    intro taken
    rw [Session.receiver_of_put put, requests.xbuf.resolve_right (by simp [polling])]
    exact .request _

theorem Requests.receives {turn : Turn} (requests : Requests session turn)
    (get : session.get = true) (polling : turn.1.status = .polling) :
    Receives session turn.1 where
  get := requests.get.trans get
  blksize := requests.blksize
  unfinished := requests.unfinished
  output := by simp [requests.output, requests.blockNr]
  within := by simp [requests.blockNr]
  xbuf := by
    intro built _
    rw [Session.sender_of_get get, requests.xbuf.resolve_right (by simp [polling])]
    exact .request _

theorem Requests.inv {turn : Turn} (requests : Requests session turn) :
    Inv session (World.after session ⟨session.idleServer, session.idleServer, []⟩ .client turn) := by
  have numbered : ∀ side, ((World.after session ⟨session.idleServer, session.idleServer, []⟩
      .client turn).party side).blockNr = 1 := by
    intro side
    cases side with
    | client => exact requests.blockNr
    | server => rfl
  have unbuilt : (World.after session ⟨session.idleServer, session.idleServer, []⟩
      .client turn).blocks session = 0 := by rw [World.blocks, numbered]
  have untaken : (World.after session ⟨session.idleServer, session.idleServer, []⟩
      .client turn).taken session = 0 := by rw [World.taken, numbered]
  have sent : ∀ datagram ∈ (World.after session ⟨session.idleServer, session.idleServer, []⟩
      .client turn).sent, ∃ stamp, datagram = ⟨.server, session.request, stamp⟩ := by
    intro datagram member
    rw [World.sent_after, List.nil_append] at member
    obtain ⟨packet, sent, rfl⟩ := List.mem_map.mp member
    exact ⟨_, by rw [requests.packets packet sent]; rfl⟩
  exact {
    started := fun side => Nat.le_of_eq (numbered side).symm
    idle := fun side _ => numbered side
    called := by
      intro idle
      have idle : turn.1.status = .idle := idle
      rcases requests.called with status | status <;> rw [status] at idle <;> cases idle
    unasked := rfl
    taken_le_built := by rw [untaken]; exact Nat.zero_le _
    built_le_taken := by rw [unbuilt]; exact Nat.zero_le _
    sends := by
      intro polling
      cases get : session.get with
      | true =>
        rw [Session.sender_of_get get] at polling
        cases polling
      | false =>
        rw [Session.sender_of_put get] at polling ⊢
        exact requests.sends get polling
    receives := by
      intro polling
      cases get : session.get with
      | true =>
        rw [Session.receiver_of_get get] at polling ⊢
        exact requests.receives get polling
      | false =>
        rw [Session.receiver_of_put get] at polling
        cases polling
    written := by
      intro success
      cases get : session.get with
      | true =>
        rw [Session.receiver_of_get get] at success
        have success : turn.1.status = .returned .success := success
        rcases requests.called with status | status <;> rw [status] at success <;> cases success
      | false =>
        rw [Session.receiver_of_put get] at success
        cases success
    whole := by simp [untaken]
    expecting := by
      intro expecting
      refine ⟨unbuilt, ?_, ?_⟩
      · rw [show World.client _ = turn.1 from rfl, requests.expects expecting]
        exact request_opcode session
      · intro datagram member _
        obtain ⟨stamp, rfl⟩ := sent datagram member
        exact request_opcode session
    sound := by
      intro datagram member
      obtain ⟨stamp, rfl⟩ := sent datagram member
      exact .request stamp }

theorem inv_start (session : Session) : Inv session (start session) :=
  (startClient_requests session).inv

end Busybox.Tftp

/-!
## Transfers that end well

A receiver that returns success has written the whole file. For the sender this
is so only if it leaves by the acknowledgement of its last block: once it has
read that block, `finished` is set, and every other way to `ret` returns
success as well.
-/

namespace Busybox.Tftp

open GuardedRun

variable {session : Session} {world : World}

/-- Every step over a fresh network keeps the invariant. -/
theorem Inv.step (inv : Inv session world) {event : Event} (fresh : Fresh session world event) :
    Inv session (step session world event) := by
  have woken : ∀ side turn, ((world.party side).status = .polling →
      Quiet (world.party side) (turn (world.party side))) →
      Inv session (world.after session side ((world.party side).wake turn)) := by
    intro side turn quiet
    rw [Transfer.wake]
    split
    · next polling => exact inv.after_quiet side polling (quiet polling)
    · rw [World.after_same]
      exact inv
  cases event with
  | timeout side => exact woken side _ Transfer.quiet_timeout
  | pollError side => exact woken side _ fun _ => Transfer.quiet_ret
  | readError side => exact woken side _ fun _ => Transfer.quiet_sendErrPkt _ _
  | deliver index disk =>
    rw [Tftp.step]
    split
    · exact inv
    · next datagram found =>
      obtain ⟨recipient, packet, stamp⟩ := datagram
      have member := List.mem_of_getElem? found
      have sound := inv.sound _ member
      have recent : world.blocks session ≤ stamp + 32768 := fresh _ found
      dsimp only
      rw [Session.arrive]
      split
      · next idle =>
        have server : recipient = .server := by
          cases recipient with
          | client => exact absurd idle inv.called
          | server => rfl
        subst server
        exact inv.after_tftpd idle sound disk
      · next polling => exact inv.after_receive polling sound member recent disk
      · rw [World.after_same]
        exact inv

/-- The sender has read its last block and takes a way to `ret` other than the
ACK of that block: its retries are used up, a timeout follows a stale ACK, `poll`
fails, or an ERROR packet comes. -/
def GivesUp (session : Session) (world : World) : Event → Prop
  | .timeout side =>
    side = session.sender ∧ (world.party side).status = .polling ∧
      (world.party side).finished = true ∧
      ((world.party side).retries ≤ 1 ∨ (world.party side).opcode = .ack)
  | .pollError side =>
    side = session.sender ∧ (world.party side).status = .polling ∧
      (world.party side).finished = true
  | .readError _ => False
  | .deliver index _ =>
    ∃ datagram ∈ world.sent[index]?, datagram.recipient = session.sender ∧
      (world.party datagram.recipient).status = .polling ∧
      (world.party datagram.recipient).finished = true ∧ datagram.packet.opcode = .error

instance (session : Session) (world : World) : DecidablePred (GivesUp session world)
  | .timeout _ => inferInstanceAs (Decidable (_ ∧ _))
  | .pollError _ => inferInstanceAs (Decidable (_ ∧ _))
  | .readError _ => inferInstanceAs (Decidable False)
  | .deliver index _ => inferInstanceAs (Decidable (∃ datagram ∈ world.sent[index]?, _))

/-- A sender that has returned success did so after the receiver had. -/
def Acknowledged (session : Session) (world : World) : Prop :=
  (world.party session.sender).status = .returned .success →
    (world.party session.receiver).status = .returned .success

theorem Acknowledged.after (acknowledged : Acknowledged session world) {side : Side} {turn : Turn}
    (sends : side = session.sender → turn.1.status = .returned .success →
      (world.party session.receiver).status = .returned .success)
    (stays : (world.party side).status = .returned .success →
      turn.1.status = .returned .success) :
    Acknowledged session (world.after session side turn) := by
  intro success
  rcases session.side_cases side with rfl | rfl
  · rw [World.party_after] at success
    rw [World.party_receiver_after]
    exact sends rfl success
  · rw [World.party_sender_after] at success
    rw [World.party_after]
    exact stays (acknowledged success)

/-- A sender that ends well by a packet has got the ACK of its last block, which
the receiver has written. -/
theorem Inv.receive_acknowledged (inv : Inv session world)
    (polling : (world.party session.sender).status = .polling) {packet : Packet} {stamp : Nat}
    (sound : Sound session (world.blocks session) (world.taken session)
      ⟨session.sender, packet, stamp⟩)
    (fresh : world.blocks session ≤ stamp + 32768) (disk : Disk)
    (expected : (world.party session.sender).finished = true → packet.opcode ≠ .error)
    (success : ((world.party session.sender).receive disk packet).1.status
      = .returned .success) :
    (world.party session.receiver).status = .returned .success := by
  have sends := inv.sends polling
  obtain ⟨finished, error | rfl⟩ := Transfer.receive_success sends.put polling success
  · exact absurd error (expected finished)
  · obtain ⟨-, count, before, awaited, stamped, -⟩ := sound.ack_inv
    have started := inv.started session.sender
    have numbered : (world.party session.sender).blockNr = world.blocks session + 1 := by
      rw [World.blocks]
      omega
    rw [Transfer.number, numbered, number_succ_sub, number_eq_iff] at awaited
    obtain ⟨-, taken⟩ := inv.progress.ack_current
      (by decide : 32768 + 1 < 65536) before stamped fresh awaited.symm
    have taken : world.blocks session = world.taken session := taken
    have beyond := sends.finished.mp finished
    rw [numbered, Nat.add_sub_cancel, taken] at beyond
    exact inv.whole beyond

/-- A step in which the sender does not give up keeps `Acknowledged`. -/
theorem Inv.step_acknowledged (inv : Inv session world)
    (acknowledged : Acknowledged session world) {event : Event}
    (fresh : Fresh session world event) (patient : ¬ GivesUp session world event) :
    Acknowledged session (Tftp.step session world event) := by
  have woken : ∀ side turn, ((world.party side).status = .polling → side = session.sender →
      (turn (world.party side)).1.status = .returned .success → False) →
      Acknowledged session (world.after session side ((world.party side).wake turn)) := by
    intro side turn fails
    rw [Transfer.wake]
    split
    · next polling =>
      exact acknowledged.after (fun sender success => (fails polling sender success).elim)
        (by simp [polling])
    · rwa [World.after_same]
  cases event with
  | timeout side =>
    refine woken side _ fun polling sender success => patient ⟨sender, polling, ?_⟩
    exact Transfer.timeout_success success
  | pollError side =>
    refine woken side _ fun polling sender success => patient ⟨sender, polling, ?_⟩
    simpa [Transfer.ret_status] using success
  | readError side =>
    refine woken side _ fun _ _ success => ?_
    simp [Transfer.sendErrPkt] at success
  | deliver index disk =>
    rw [Tftp.step]
    split
    · exact acknowledged
    · next datagram found =>
      obtain ⟨recipient, packet, stamp⟩ := datagram
      have sound := inv.sound _ (List.mem_of_getElem? found)
      have recent : world.blocks session ≤ stamp + 32768 := fresh _ found
      dsimp only
      rw [Session.arrive]
      split
      · next idle =>
        refine acknowledged.after (fun _ success => ?_) (by simp [idle])
        exact absurd success (session.tftpd_unreturned disk packet)
      · next polling =>
        refine acknowledged.after ?_ (by simp [polling])
        rintro rfl success
        refine inv.receive_acknowledged polling sound recent disk ?_ success
        intro finished error
        exact patient ⟨_, found, rfl, polling, finished, error⟩
      · rwa [World.after_same]

theorem acknowledged_start (session : Session) : Acknowledged session (start session) := by
  intro success
  cases get : session.get with
  | true =>
    rw [Session.sender_of_get get] at success
    cases success
  | false =>
    rw [Session.sender_of_put get] at success
    have success : session.startClient.1.status = .returned .success := success
    rcases (startClient_requests session).called with status | status <;>
      rw [status] at success <;> cases success

/-- A file of one byte, uploaded in default blocks. -/
def note : Session := ⟨false, [110], true, 512, false, [7]⟩

end Busybox.Tftp
