import Mathlib
import Busybox.Tftp.Invariant

/-!
# Every step keeps the invariant

A quiet turn keeps it whoever makes it. The other turns are those in which a
party starts or a packet that it waits for arrives; there the numbers that the
packets bear, sixteen bits each, are those of the blocks meant, because the
network is `Fresh`.
-/

namespace Busybox.Tftp

open StopAndWait

variable {session : Session} {world : World} {transfer : Transfer}

/-- The variables that `Sends` does not mention may change. -/
theorem Sends.update (sends : Sends session transfer) (opcode : Opcode) (retries : Nat)
    (expectOack : Bool) : Sends session
      { transfer with opcode := opcode, retries := retries, expectOack := expectOack } :=
  ⟨sends.put, sends.blksize, sends.input, sends.finished, sends.xbuf⟩

theorem Receives.update (receives : Receives session transfer) (opcode : Opcode) (retries : Nat)
    (expectOack : Bool) : Receives session
      { transfer with opcode := opcode, retries := retries, expectOack := expectOack } :=
  ⟨receives.get, receives.blksize, receives.unfinished, receives.output, receives.within,
    receives.xbuf⟩

theorem Quiet.toExpects (inv : Inv session world) {side : Side} {turn : Turn}
    (quiet : Quiet (world.party side) turn) : Expects session world side turn where
  before := quiet.expects
  blockNr _ := quiet.blockNr
  unacked := by
    rintro rfl expecting
    have xbuf : world.client.xbuf.opcode ≠ .ack := (inv.expecting (quiet.expects expecting)).2.1
    refine ⟨?_, ?_⟩
    · rw [quiet.xbuf]
      exact xbuf
    · intro packet sent
      rcases quiet.packets packet sent with rfl | error
      · exact xbuf
      · simp [error]

/-- A quiet turn of a party that polls keeps the invariant. -/
theorem Inv.after_quiet (inv : Inv session world) (side : Side) {turn : Turn}
    (polling : (world.party side).status = .polling)
    (quiet : Quiet (world.party side) turn) : Inv session (world.after session side turn) := by
  have started : 1 ≤ turn.1.blockNr := quiet.blockNr ▸ inv.started side
  have expects := quiet.toExpects inv
  rcases session.side_cases side with rfl | rfl
  · have sends := inv.sends polling
    have same : turn.1.blockNr - 1 = world.blocks session := by rw [quiet.blockNr, World.blocks]
    refine inv.after_sender started quiet.called (Nat.le_of_eq same.symm)
      (same ▸ inv.built_le_taken) ?_ ?_ expects
    · intro polls
      obtain ⟨opcode, retries, expectOack, next⟩ := quiet.polls polls
      rw [next]
      exact sends.update opcode retries expectOack
    · intro packet sent
      rcases quiet.packets packet sent with rfl | error
      · rw [quiet.blockNr]
        exact sends.xbuf _
      · exact .of_error error
  · have receives := inv.receives polling
    have same : turn.1.blockNr - 1 = world.taken session := by rw [quiet.blockNr, World.taken]
    refine inv.after_receiver started quiet.called (Nat.le_of_eq same.symm)
      (same ▸ inv.taken_le_built) ?_ ?_ ?_ ?_ expects
    · intro polls
      obtain ⟨opcode, retries, expectOack, next⟩ := quiet.polls polls
      rw [next]
      exact receives.update opcode retries expectOack
    · intro success
      have finished := quiet.success success
      rw [receives.unfinished] at finished
      cases finished
    · intro beyond
      rw [quiet.blockNr] at beyond
      exact absurd beyond (Nat.not_lt.mpr receives.within)
    · intro packet sent
      rcases quiet.packets packet sent with rfl | error
      · rw [quiet.blockNr]
        have bounded := inv.built_le_taken
        have positive := inv.started session.receiver
        refine receives.xbuf _ ?_
        rw [World.taken] at bounded
        omega
      · exact .of_error error

/-- What building the next DATA packet leaves: the block is on the network and
waits in `xbuf`, unless the file cannot be read. -/
structure BuildsData (session : Session) (transfer : Transfer) (turn : Turn) : Prop where
  blockNr : turn.1.blockNr = transfer.blockNr + 1
  expects : turn.1.expectOack = transfer.expectOack
  called : turn.1.status ≠ .idle
  unreturned : turn.1.status ≠ .returned .success
  sends : turn.1.status = .polling → Sends session turn.1
  sound : ∀ packet ∈ turn.2, ∀ taken, Sound session transfer.blockNr taken
    ⟨session.receiver, packet, transfer.blockNr⟩

theorem Sends.build (sends : Sends session transfer) (started : 1 ≤ transfer.blockNr)
    (unfinished : transfer.finished = false) (disk : Disk) :
    BuildsData session transfer (transfer.build disk) := by
  by_cases reads : disk = .cannotRead
  · rw [Transfer.build, if_neg (by simp [sends.put]), if_pos reads]
    exact {
      blockNr := rfl
      expects := rfl
      called := by simp [Transfer.sendErrPkt]
      unreturned := by simp [Transfer.sendErrPkt]
      sends := by simp [Transfer.sendErrPkt]
      sound := by
        intro packet sent taken
        rw [Transfer.sendErrPkt, List.mem_singleton] at sent
        exact .of_error (sent ▸ rfl) }
  · obtain ⟨count, numbered⟩ : ∃ count, transfer.blockNr = count + 1 :=
      ⟨_, (Nat.sub_add_cancel started).symm⟩
    have within : count * session.blksize ≤ session.content.length := by
      have finished := sends.finished
      rw [unfinished, numbered] at finished
      simpa using finished
    have bytes : transfer.input.take transfer.blksize
        = block session.blksize count session.content := by
      rw [sends.input, sends.blksize, numbered, block, Nat.add_sub_cancel]
    have sound : ∀ taken, Sound session transfer.blockNr taken ⟨session.receiver,
        .data transfer.number (transfer.input.take transfer.blksize), transfer.blockNr⟩ := by
      intro taken
      rw [bytes, Transfer.number, numbered]
      exact .data count (Nat.lt_succ_self count)
    rw [Transfer.build_put sends.put reads]
    exact {
      blockNr := rfl
      expects := rfl
      called := by simp
      unreturned := by simp
      sends := fun _ => {
        put := sends.put
        blksize := sends.blksize
        input := by
          rw [sends.input, sends.blksize, List.drop_drop, numbered, Nat.add_sub_cancel,
            Nat.add_sub_cancel, Nat.succ_mul]
        finished := by
          rw [bytes, sends.blksize, unfinished, numbered, Nat.add_sub_cancel, Bool.false_or,
            bne_iff_ne]
          exact block_length_ne_iff within
        xbuf := sound }
      sound := by
        intro packet sent
        rw [List.mem_singleton] at sent
        exact sent ▸ sound }

theorem Disk.fullWrite_eq {disk : Disk} {bytes : List UInt8}
    (whole : (disk.fullWrite bytes).length = bytes.length) : disk.fullWrite bytes = bytes := by
  cases disk with
  | fills room => exact List.take_of_length_le (by simpa [fullWrite] using whole)
  | _ => rfl

/-- What acknowledging a block leaves a receiver with. -/
structure BuildsAck (session : Session) (turn : Turn) : Prop where
  started : 1 ≤ turn.1.blockNr
  called : turn.1.status ≠ .idle
  receives : turn.1.status = .polling → Receives session turn.1
  written : turn.1.status = .returned .success → turn.1.output = some session.content
  whole : session.content.length < (turn.1.blockNr - 1) * session.blksize →
    turn.1.status = .returned .success
  sound : ∀ packet ∈ turn.2, ∀ built ≤ turn.1.blockNr, Sound session built (turn.1.blockNr - 1)
    ⟨session.sender, packet, built⟩

/-- Building ACK `count` once `count` blocks are written: the last of them is
short exactly when the file is finished. -/
theorem buildsAck {count : Nat} (get : transfer.get = true)
    (blksize : transfer.blksize = session.blksize) (numbered : transfer.blockNr = count)
    (output : transfer.output.getD [] = session.content.take (count * session.blksize))
    (opened : transfer.finished = true → transfer.output.isSome = true)
    (finished : transfer.finished = true ↔ session.content.length < count * session.blksize)
    (plain : count = 0 → session.get = false → session.blksize = blksizeDefault) (disk : Disk) :
    BuildsAck session (transfer.build disk) := by
  have sound : ∀ built ≤ count + 1, Sound session built count
      ⟨session.sender, .ack transfer.number, built⟩ := by
    intro built bounded
    rw [Transfer.number, numbered]
    exact .ack count built (Nat.le_refl _) bounded plain
  rw [Transfer.build_get get, numbered]
  exact {
    started := Nat.succ_pos _
    called := by cases transfer.finished <;> simp
    receives := fun polling => {
      get := get
      blksize := blksize
      unfinished := by simpa using polling
      output := output
      within := by
        refine Nat.not_lt.mp fun beyond => ?_
        simp [finished.mpr beyond] at polling
      xbuf := sound }
    written := by
      intro success
      have isFinished : transfer.finished = true := by
        by_contra unfinished
        simp [unfinished] at success
      obtain ⟨bytes, isOutput⟩ := Option.isSome_iff_exists.mp (opened isFinished)
      rw [isOutput, Option.getD_some,
        List.take_of_length_le (Nat.le_of_lt (finished.mp isFinished))] at output
      exact output ▸ isOutput
    whole := fun beyond => by simp [finished.mpr beyond]
    sound := by
      intro packet sent
      rw [List.mem_singleton] at sent
      exact sent ▸ sound }

/-- The party gives up with an ERROR packet, or without a word. -/
structure Stops (transfer : Transfer) (turn : Turn) : Prop where
  status : turn.1.status = .returned .failure
  blockNr : turn.1.blockNr = transfer.blockNr
  expects : turn.1.expectOack = transfer.expectOack
  errors : ∀ packet ∈ turn.2, packet.opcode = .error

theorem stops_sendErrPkt (reason : Nat) (text : String) :
    Stops transfer (transfer.sendErrPkt reason text) where
  status := rfl
  blockNr := rfl
  expects := rfl
  errors packet sent := by
    rw [Transfer.sendErrPkt, List.mem_singleton] at sent
    exact sent ▸ rfl

/-- Giving up keeps the invariant. -/
theorem Inv.after_stop (inv : Inv session world) (side : Side) {turn : Turn}
    (running : (world.party side).status ≠ .returned .success)
    (stops : Stops (world.party side) turn) (unasked : turn.1.expectOack = false) :
    Inv session (world.after session side turn) := by
  have started : 1 ≤ turn.1.blockNr := stops.blockNr ▸ inv.started side
  have called : turn.1.status ≠ .idle := by simp [stops.status]
  have expects : Expects session world side turn := {
    before := by simp [unasked]
    blockNr := fun _ => stops.blockNr
    unacked := by simp [unasked] }
  rcases session.side_cases side with rfl | rfl
  · have same : turn.1.blockNr - 1 = world.blocks session := by rw [stops.blockNr, World.blocks]
    refine inv.after_sender started called (Nat.le_of_eq same.symm) (same ▸ inv.built_le_taken)
      ?_ ?_ expects
    · simp [stops.status]
    · exact fun packet sent => .of_error (stops.errors packet sent)
  · have same : turn.1.blockNr - 1 = world.taken session := by rw [stops.blockNr, World.taken]
    refine inv.after_receiver started called (Nat.le_of_eq same.symm) (same ▸ inv.taken_le_built)
      ?_ ?_ ?_ ?_ expects
    · simp [stops.status]
    · simp [stops.status]
    · intro beyond
      rw [same] at beyond
      exact absurd (inv.whole beyond) running
    · exact fun packet sent => .of_error (stops.errors packet sent)

/-- A receiver that finds the block it waits for writes and acknowledges it,
unless the disk fails. -/
theorem Receives.write (receives : Receives session transfer) {count : Nat}
    (numbered : transfer.blockNr = count + 1) (disk : Disk) :
    Stops transfer (transfer.write disk (block session.blksize count session.content)) ∨
      ∃ next : Transfer, next.blockNr = count + 1 ∧ next.expectOack = transfer.expectOack ∧
        next.get = true ∧
        transfer.write disk (block session.blksize count session.content) = next.build disk ∧
        BuildsAck session (next.build disk) := by
  rw [Transfer.write]
  split
  · exact .inl ⟨rfl, rfl, rfl, by simp⟩
  · dsimp only
    split
    · refine .inl ?_
      have stops : Stops { transfer with
        output := some (transfer.output.getD [] ++
          disk.fullWrite (block session.blksize count session.content)) } _ :=
        stops_sendErrPkt errWrite "write error"
      exact ⟨stops.status, stops.blockNr, stops.expects, stops.errors⟩
    · next whole =>
      have written := Disk.fullWrite_eq (Decidable.not_not.mp whole)
      refine .inr ⟨{ transfer with
        output := some (transfer.output.getD [] ++
          disk.fullWrite (block session.blksize count session.content))
        finished := transfer.finished ||
          (disk.fullWrite (block session.blksize count session.content)).length
            != transfer.blksize }, numbered, rfl, receives.get, rfl, ?_⟩
      have within := receives.within
      rw [numbered, Nat.add_sub_cancel] at within
      apply buildsAck
      case get => exact receives.get
      case blksize => exact receives.blksize
      case numbered => exact numbered
      case output =>
        rw [Option.getD_some, written, receives.output, numbered, Nat.add_sub_cancel]
        exact take_append_block session.blksize count session.content
      case opened => exact fun _ => rfl
      case finished =>
        rw [written, receives.unfinished, receives.blksize, Bool.false_or, bne_iff_ne]
        exact block_length_ne_iff within
      case plain => exact fun none => absurd none (Nat.succ_ne_zero count)

/-- The client has its answer: it is the party that makes the turn, or it had it
before. -/
theorem expects_of_answered {side : Side} {turn : Turn} (unasked : turn.1.expectOack = false)
    (answered : side = .client ∨ world.client.expectOack = false) :
    Expects session world side turn where
  before := by simp [unasked]
  blockNr := by
    intro expecting
    cases side with
    | client => exact absurd expecting (by simpa [World.after, World.setParty] using unasked)
    | server =>
      have client : world.client.expectOack = false := answered.resolve_left (by rintro ⟨⟩)
      exact absurd expecting (by simpa [World.after, World.setParty] using client)
  unacked := by simp [unasked]

/-- A sender that builds a block keeps the invariant: the last block has been
taken. -/
theorem Inv.after_buildsData (inv : Inv session world) {turn : Turn}
    (builds : BuildsData session transfer turn)
    (blockNr : transfer.blockNr = (world.party session.sender).blockNr)
    (acknowledged : world.blocks session = world.taken session)
    (unasked : turn.1.expectOack = false)
    (answered : session.sender = .client ∨ world.client.expectOack = false) :
    Inv session (world.after session session.sender turn) := by
  have started := inv.started session.sender
  have numbered : transfer.blockNr = world.blocks session + 1 := by
    rw [blockNr, World.blocks]
    omega
  have next : turn.1.blockNr - 1 = world.blocks session + 1 := by
    rw [builds.blockNr, numbered, Nat.add_sub_cancel]
  refine inv.after_sender ?_ builds.called ?_ ?_ builds.sends ?_
    (expects_of_answered unasked answered)
  · rw [builds.blockNr]
    exact Nat.succ_pos _
  · rw [next]
    exact Nat.le_succ _
  · rw [next, acknowledged]
  · intro packet sent
    have sound := builds.sound packet sent (world.taken session)
    rwa [numbered, ← next] at sound

/-- A receiver that acknowledges the block in flight, or the start of the
transfer, keeps the invariant. -/
theorem Inv.after_buildsAck (inv : Inv session world) {turn : Turn}
    (builds : BuildsAck session turn)
    (takes : world.taken session ≤ turn.1.blockNr - 1)
    (bounded : turn.1.blockNr - 1 ≤ world.blocks session)
    (expects : Expects session world session.receiver turn) :
    Inv session (world.after session session.receiver turn) := by
  refine inv.after_receiver builds.started builds.called takes bounded builds.receives
    builds.written builds.whole ?_ expects
  intro packet sent
  refine builds.sound packet sent _ ?_
  have ahead := inv.built_le_taken
  have started := builds.started
  omega

end Busybox.Tftp
