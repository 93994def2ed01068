import Busybox.Tftp.Steps

/-!
# Datagrams that arrive

The first request starts the server, the first answer tells the client the
block size, and from then on the ACK and DATA packets that are waited for move
the transfer on. All other packets are passed over.
-/

namespace Busybox.Tftp

open StopAndWait

variable {session : Session} {world : World} {transfer : Transfer} {stamp : Nat}

theorem addOptions_agrees (blksize size : Nat) (wantTransferSize : Bool) :
    ∀ asked ∈ (addOptions blksize size wantTransferSize).blksize, asked = blksize := by
  intro asked member
  simp only [addOptions] at member
  split at member
  · cases member
  · exact (Option.mem_some.mp member).symm

/-- A server that has not been called may turn the request down. -/
theorem Inv.after_refuse (inv : Inv session world) (idle : world.server.status = .idle)
    {turn : Turn} (stops : Stops session.idleServer turn) :
    Inv session (world.after session .server turn) := by
  have number : world.server.blockNr = 1 := inv.idle .server idle
  have running : world.server.status ≠ .returned .success := by simp [idle]
  exact inv.after_stop .server running
    ⟨stops.status, stops.blockNr.trans number.symm, stops.expects.trans inv.unasked.symm,
      stops.errors⟩ stops.expects

/-- A server that answers with an OACK waits for the first ACK or DATA packet. -/
theorem Inv.after_oack (inv : Inv session world) (idle : world.server.status = .idle)
    {output : Option (List UInt8)} (empty : output.getD [] = []) {options : Options}
    (agrees : ∀ asked ∈ options.blksize, asked = session.blksize) :
    Inv session (world.after session .server
      (Transfer.sendPkt { blank (!session.get) true session.blksize session.content with
        output := output } (.oack options))) := by
  have number : world.server.blockNr = 1 := inv.idle .server idle
  have expects : ∀ turn : Turn, turn.1.expectOack = false → turn.1.blockNr = 1 →
      Expects session world .server turn := fun turn unasked numbered =>
    ⟨by simp [unasked], fun _ => numbered.trans number.symm, nofun⟩
  have sound : ∀ built taken sent, Sound session built taken ⟨.client, .oack options, sent⟩ :=
    fun built taken sent => .oack options sent agrees
  cases get : session.get with
  | true =>
    have server := Session.sender_of_get get
    have client := Session.receiver_of_get get
    have unbuilt : world.blocks session = 0 := by
      rw [World.blocks, server]
      exact congrArg (· - 1) number
    have after := fun turn => @Inv.after_sender _ _ inv turn
    rw [server] at after
    refine after _ (Nat.le_refl 1) (by simp [Transfer.sendPkt, Transfer.sendAgain, blank])
      (Nat.le_of_eq unbuilt) (Nat.zero_le _) ?_ ?_ (expects _ rfl rfl)
    · intro polling
      exact {
        put := rfl
        blksize := rfl
        input := by simp [Transfer.sendPkt, Transfer.sendAgain, blank]
        finished := by simp [Transfer.sendPkt, Transfer.sendAgain, blank]
        xbuf := by
          intro taken
          rw [client]
          exact sound _ taken _ }
    · intro packet sent
      rw [client]
      cases List.mem_singleton.mp sent
      exact sound _ _ _
  | false =>
    have client := Session.sender_of_put get
    have server := Session.receiver_of_put get
    have untaken : world.taken session = 0 := by
      rw [World.taken, server]
      exact congrArg (· - 1) number
    have after := fun turn => @Inv.after_receiver _ _ inv turn
    rw [server] at after
    refine after _ (Nat.le_refl 1) (by simp [Transfer.sendPkt, Transfer.sendAgain, blank])
      (Nat.le_of_eq untaken) (Nat.zero_le _) ?_
      (by simp [Transfer.sendPkt, Transfer.sendAgain, blank])
      (by simp [Transfer.sendPkt, Transfer.sendAgain, blank]) ?_ (expects _ rfl rfl)
    · intro polling
      exact {
        get := rfl
        blksize := rfl
        unfinished := rfl
        output := by simpa [Transfer.sendPkt, Transfer.sendAgain, blank] using empty
        within := by simp [Transfer.sendPkt, Transfer.sendAgain, blank]
        xbuf := by
          intro built bounded
          rw [client]
          exact sound built _ _ }
    · intro packet sent
      rw [client]
      cases List.mem_singleton.mp sent
      exact sound _ _ _

/-- A server that answers an upload without options acknowledges the request as
block 0. -/
theorem Inv.after_ackRequest (inv : Inv session world) (idle : world.server.status = .idle)
    (upload : session.get = false) (plain : session.blksize = blksizeDefault) (disk : Disk) :
    Inv session (world.after session .server
      (Transfer.build { blank true true session.blksize session.content with
        output := some [], blockNr := 0 } disk)) := by
  have number : world.server.blockNr = 1 := inv.idle .server idle
  have server := Session.receiver_of_put upload
  have untaken : world.taken session = 0 := by
    rw [World.taken, server]
    exact congrArg (· - 1) number
  have builds : BuildsAck session (Transfer.build { blank true true session.blksize
      session.content with output := some [], blockNr := 0 } disk) := by
    apply buildsAck
    case count => exact 0
    case get => rfl
    case blksize => rfl
    case numbered => rfl
    case output => simp
    case opened => exact fun _ => rfl
    case finished => simp [blank]
    case plain => exact fun _ _ => plain
  have after := inv.after_buildsAck builds
  rw [server, Transfer.build_get rfl] at after
  rw [Transfer.build_get rfl]
  refine after (Nat.le_of_eq untaken) (Nat.zero_le _) ⟨by rintro ⟨⟩, fun _ => ?_, by rintro ⟨⟩⟩
  exact number.symm

/-- The request reaches a server that has not been called. -/
theorem Inv.after_tftpd (inv : Inv session world) (idle : world.server.status = .idle)
    {built taken : Nat} {packet : Packet}
    (sound : Sound session built taken ⟨.server, packet, stamp⟩) (disk : Disk) :
    Inv session (world.after session .server (session.tftpd disk packet)) := by
  have refused : ∀ reason text,
      Inv session (world.after session .server (session.refuse reason text)) :=
    fun reason text => inv.after_refuse idle (stops_sendErrPkt reason text)
  by_cases isRequest : packet = session.request
  · subst isRequest
    rw [Session.request, Session.tftpd]
    split
    · exact refused _ _
    split
    · exact refused _ _
    split
    · exact refused _ _
    next blksize valid =>
    have asked : blksize = session.blksize := by
      rw [blksizeCheck] at valid
      split at valid
      · cases valid
      · rw [← Option.some.inj valid, Session.options, addOptions]
        dsimp only
        split
        · next default => exact default.symm
        · rfl
    subst asked
    split
    · exact refused _ _
    rw [Session.startServer]
    dsimp only
    split
    · have stops : Stops (blank (!session.get) true session.blksize session.content) _ :=
        stops_sendErrPkt errNofile "can't open file"
      exact inv.after_refuse idle ⟨stops.status, stops.blockNr, stops.expects, stops.errors⟩
    split
    · refine inv.after_oack idle ?_ (addOptions_agrees _ _ _)
      cases session.get <;> rfl
    · next noOptions =>
      have upload : session.get = false := by
        simpa [Session.options, addOptions] using not_or.mp noOptions |>.2
      have plain : session.blksize = blksizeDefault :=
        Decidable.not_not.mp (not_or.mp noOptions).1
      have after := inv.after_ackRequest idle upload plain disk
      simpa [upload] using after
  · have other : session.tftpd disk packet = session.refuse 0 "malformed packet" := by
      cases packet with
      | request => exact absurd sound.request_inv.2 isRequest
      | _ => rfl
    rw [other]
    exact refused _ _

theorem number_eq_iff (left right : Nat) :
    UInt16.ofNat left = UInt16.ofNat right ↔ left % 65536 = right % 65536 := by
  rw [← UInt16.toNat_inj, UInt16.toNat_ofNat', UInt16.toNat_ofNat']

theorem number_succ_sub (count : Nat) :
    UInt16.ofNat (count + 1) - 1 = UInt16.ofNat count := by
  rw [UInt16.ofNat_add]
  exact UInt16.add_sub_cancel _ _

/-- Once a block is on the network nobody waits for an OACK. -/
theorem Inv.unexpecting (inv : Inv session world) (built : 0 < world.blocks session)
    (side : Side) : (world.party side).expectOack = false := by
  cases side with
  | client =>
    refine Bool.eq_false_iff.mpr fun expecting => ?_
    have unbuilt := (inv.expecting expecting).1
    omega
  | server => exact inv.unasked

/-- DATA reaches a receiver that polls: the number tells the awaited block. -/
theorem Inv.after_data (inv : Inv session world)
    (polling : (world.party session.receiver).status = .polling) {number : UInt16}
    {bytes : List UInt8}
    (sound : Sound session (world.blocks session) (world.taken session)
      ⟨session.receiver, .data number bytes, stamp⟩)
    (fresh : world.blocks session ≤ stamp + 32768) (disk : Disk) :
    Inv session (world.after session session.receiver
      ((world.party session.receiver).receive disk (.data number bytes))) := by
  obtain ⟨-, count, before, rfl, rfl, rfl⟩ := sound.data_inv
  have unexpecting := inv.unexpecting (Nat.zero_lt_of_lt before) session.receiver
  have receives := inv.receives polling
  have fits : (block session.blksize count session.content).length
      ≤ (world.party session.receiver).blksize := by
    rw [receives.blksize]
    exact List.length_take_le _ _
  rw [Transfer.receive_data receives.get unexpecting fits]
  split
  · next awaited =>
    have started := inv.started session.receiver
    have numbered : (world.party session.receiver).blockNr = world.taken session + 1 := by
      rw [World.taken]
      omega
    rw [Transfer.number, numbered, number_eq_iff] at awaited
    obtain ⟨current, pending⟩ := inv.progress.data_current
      (by decide : 32768 + 1 < 65536) before fresh awaited
    have isCount : count = world.taken session := Nat.succ.inj current
    have heard : Receives session ((world.party session.receiver).heard .data) :=
      receives.update .data _ false
    rw [isCount]
    rcases heard.write numbered disk with stops | ⟨next, nextNr, expects, get, wrote, builds⟩
    · exact inv.after_stop _ (by simp [polling])
        ⟨stops.status, stops.blockNr, stops.expects.trans unexpecting.symm, stops.errors⟩
        stops.expects
    · rw [wrote]
      have blockNr : (next.build disk).1.blockNr = world.taken session + 2 := by
        rw [Transfer.build_get get, nextNr]
      have unasked : (next.build disk).1.expectOack = false := by
        rw [Transfer.build_get get]
        exact expects
      have answered := inv.unexpecting (Nat.zero_lt_of_lt before) .client
      refine inv.after_buildsAck builds (by omega) ?_
        (expects_of_answered unasked (.inr answered))
      rw [blockNr]
      exact Nat.le_of_eq pending.symm
  · exact inv.after_quiet _ polling (Transfer.quiet_of_heard (Transfer.quiet_same polling))

/-- ACK reaches a sender that polls: the number tells its last packet. -/
theorem Inv.after_ack (inv : Inv session world)
    (polling : (world.party session.sender).status = .polling) {number : UInt16}
    (sound : Sound session (world.blocks session) (world.taken session)
      ⟨session.sender, .ack number, stamp⟩)
    (member : ⟨session.sender, .ack number, stamp⟩ ∈ world.sent)
    (fresh : world.blocks session ≤ stamp + 32768) (disk : Disk) :
    Inv session (world.after session session.sender
      ((world.party session.sender).receive disk (.ack number))) := by
  obtain ⟨-, count, before, rfl, stamped, noOptions⟩ := sound.ack_inv
  have sends := inv.sends polling
  have heard : Sends session ((world.party session.sender).heard .ack) :=
    sends.update .ack _ false
  -- a client that still waits for an OACK is answered by ACK 0 only without options
  have plain : (world.party session.sender).expectOack = true →
      (world.party session.sender).blksize = blksizeDefault := by
    intro expecting
    rw [sends.blksize]
    cases get : session.get with
    | true =>
      rw [Session.sender_of_get get] at expecting
      exact absurd expecting (by simp [World.party, inv.unasked])
    | false =>
      rw [Session.sender_of_put get] at expecting
      have unbuilt := (inv.expecting expecting).1
      have behind := inv.taken_le_built
      exact noOptions (by omega) get
  rw [Transfer.receive_ack sends.put plain]
  split
  · next awaited =>
    split
    · exact inv.after_quiet _ polling (Transfer.quiet_of_heard Transfer.quiet_ret)
    · next unfinished =>
      have started := inv.started session.sender
      have numbered : (world.party session.sender).blockNr = world.blocks session + 1 := by
        rw [World.blocks]
        omega
      rw [Transfer.number, numbered, number_succ_sub, number_eq_iff] at awaited
      obtain ⟨-, acknowledged⟩ := inv.progress.ack_current
        (by decide : 32768 + 1 < 65536) before stamped fresh awaited
      have builds := heard.build started (Bool.eq_false_iff.mpr unfinished) disk
      refine inv.after_buildsData builds rfl acknowledged builds.expects ?_
      cases get : session.get with
      | true =>
        rw [Session.sender_of_get get] at member
        refine .inr (Bool.eq_false_iff.mpr fun expecting => ?_)
        exact (inv.expecting expecting).2.2 _ member rfl rfl
      | false => exact .inl (Session.sender_of_put get)
  · exact inv.after_quiet _ polling (Transfer.quiet_of_heard (Transfer.quiet_same polling))

/-- An OACK reaches a client that polls. -/
theorem Inv.after_oackReceived (inv : Inv session world)
    (polling : world.client.status = .polling) {options : Options}
    (agrees : ∀ asked ∈ options.blksize, asked = session.blksize) (disk : Disk) :
    Inv session (world.after session .client (world.client.receive disk (.oack options))) := by
  have asked : world.client.blksize = session.blksize := by
    cases get : session.get with
    | true =>
      have receives := inv.receives
      rw [Session.receiver_of_get get] at receives
      exact (receives polling).blksize
    | false =>
      have sends := inv.sends
      rw [Session.sender_of_put get] at sends
      exact (sends polling).blksize
  rcases Transfer.receive_oack (by rwa [asked]) disk with passed | refused | ⟨expecting, builds⟩
  · rw [passed]
    exact inv.after_quiet .client polling
      (Transfer.quiet_of_heard (Transfer.quiet_same polling))
  · rw [refused]
    exact inv.after_quiet .client polling
      (Transfer.quiet_of_heard (Transfer.quiet_sendErrPkt _ _))
  · rw [builds]
    have unbuilt := (inv.expecting expecting).1
    have behind := inv.taken_le_built
    have untaken : world.taken session = 0 := by omega
    cases get : session.get with
    | true =>
      have client := Session.receiver_of_get get
      have receives := inv.receives
      rw [client] at receives
      have receives : Receives session world.client := receives polling
      have started : world.client.blockNr - 1 = 0 := by
        rw [World.taken, client] at untaken
        exact untaken
      have acks : BuildsAck session (Transfer.build { world.client.heard .oack with
          blockNr := if world.client.get then 0 else world.client.blockNr } disk) := by
        apply buildsAck
        case count => exact 0
        case get => exact receives.get
        case blksize => exact receives.blksize
        case numbered => exact if_pos receives.get
        case output =>
          have output := receives.output
          rw [started] at output
          exact output
        case opened => simp [Transfer.heard, receives.unfinished]
        case finished => simp [Transfer.heard, receives.unfinished]
        case plain => simp [get]
      have after := inv.after_buildsAck acks
      rw [client] at after
      refine after ?_ ?_ (expects_of_answered ?_ (.inl rfl))
      all_goals
        rw [Transfer.build_get (by exact receives.get)]
        simp [receives.get, untaken, Transfer.heard]
    | false =>
      have client := Session.sender_of_put get
      have sends := inv.sends
      have started := inv.started .client
      rw [client] at sends
      have sends : Sends session world.client := sends polling
      have same : { world.client.heard .oack with
          blockNr := if world.client.get then 0 else world.client.blockNr }
            = world.client.heard .oack := by
        simp [Transfer.heard, sends.put]
      have unfinished : world.client.finished = false := by
        have finished := sends.finished
        rw [World.blocks, client] at unbuilt
        refine Bool.eq_false_iff.mpr fun isFinished => ?_
        have beyond := finished.mp isFinished
        rw [show world.client.blockNr - 1 = 0 from unbuilt] at beyond
        simp at beyond
      have heard : Sends session (world.client.heard .oack) := sends.update .oack _ false
      rw [same]
      have data := heard.build started unfinished disk
      have after := inv.after_buildsData data (by rw [client]; rfl) (by omega) data.expects
        (.inl client)
      rwa [client] at after

/-- Any datagram reaches a party that polls. -/
theorem Inv.after_receive (inv : Inv session world) {side : Side}
    (polling : (world.party side).status = .polling) {packet : Packet}
    (sound : Sound session (world.blocks session) (world.taken session) ⟨side, packet, stamp⟩)
    (member : ⟨side, packet, stamp⟩ ∈ world.sent)
    (fresh : world.blocks session ≤ stamp + 32768) (disk : Disk) :
    Inv session (world.after session side ((world.party side).receive disk packet)) := by
  cases packet with
  | data number bytes =>
    obtain ⟨rfl, -⟩ := sound.data_inv
    exact inv.after_data polling sound fresh disk
  | ack number =>
    obtain ⟨rfl, -⟩ := sound.ack_inv
    exact inv.after_ack polling sound member fresh disk
  | oack options =>
    obtain ⟨rfl, agrees⟩ := sound.oack_inv
    exact inv.after_oackReceived polling agrees disk
  | request get remoteFile options =>
    obtain ⟨rfl, -⟩ := sound.request_inv
    refine inv.after_quiet .server polling ?_
    have unexpecting : (world.party .server).expectOack = false := inv.unasked
    rw [Transfer.receive_request unexpecting]
    exact Transfer.quiet_of_heard (Transfer.quiet_same polling)
  | error reason text =>
    exact inv.after_quiet side polling Transfer.quiet_receive_error

end Busybox.Tftp
