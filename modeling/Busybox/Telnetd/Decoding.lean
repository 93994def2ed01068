import Busybox.Telnetd.Stream

/-!
# What the pty gets

However the client's bytes are split into reads, lie in the buffer and are taken by the pty, what
is written to the pty is what they decode to.
-/

namespace Busybox.Telnetd

open CircularBuffer Fallible

/-- The first byte of a read is marked. -/
def mark : List UInt8 → List (UInt8 × Bool)
  | [] => []
  | d :: read => (d, true) :: read.map (·, false)

/-- The reads from the socket. -/
def received (io : List Io) : List (List UInt8) :=
  io.filterMap fun
    | .fromSocket data => some data
    | _ => none

/-- What was written to the pty. -/
def written (io : List Io) : List UInt8 :=
  io.flatMap fun
    | .toPty data rc => data.take rc.taken
    | _ => []

/-- The bytes that are kept of the reads. -/
def arrived (reads : List (List UInt8)) : List (UInt8 × Bool) :=
  reads.flatMap fun read => mark (kept read)

theorem mark_map (read : List UInt8) : (mark read).map Prod.fst = read := by
  cases read with
  | nil => rfl
  | cons d read =>
    unfold mark
    rw [List.map_cons, List.map_map]
    exact congrArg _ (List.map_id read)

theorem arrived_cons (read : List UInt8) (reads : List (List UInt8)) :
    arrived (read :: reads) = mark (kept read) ++ arrived reads := List.flatMap_cons

/-- What arrives later begins with a marked byte. -/
theorem arrived_head (reads : List (List UInt8)) : ∀ d ∈ (arrived reads).head?, d.2 = true := by
  induction reads with
  | nil => exact fun d first => nomatch first
  | cons read reads ih =>
    intro d first
    rw [arrived_cons] at first
    cases keeps : kept read with
    | nil =>
      rw [keeps] at first
      exact ih d first
    | cons c rest =>
      rw [keeps] at first
      rw [← Option.some.inj first]

theorem received_append (io more : List Io) :
    received (io ++ more) = received io ++ received more :=
  List.filterMap_append

theorem written_append (io more : List Io) : written (io ++ more) = written io ++ written more :=
  List.flatMap_append

theorem received_other {io : List Io} (elsewhere : ∀ e ∈ io, e.Sends ∨ e.Outputs) :
    received io = [] ∧ written io = [] := by
  constructor
  · refine List.filterMap_eq_nil_iff.mpr fun e mem => ?_
    rcases elsewhere e mem with ⟨data, rc, rfl⟩ | ⟨data, rfl⟩ <;> rfl
  · refine List.flatMap_eq_nil_iff.mpr fun e mem => ?_
    rcases elsewhere e mem with ⟨data, rc, rfl⟩ | ⟨data, rfl⟩ <;> rfl

/-! ## One turn -/

/-- Every 255 that was to be written, was written. -/
def Literals (io : List Io) : Prop := ∀ rc, .toPty [iac] rc ∈ io → rc.taken ≠ 0

theorem sequence_marks {pending : List (UInt8 × Bool)} {c d : UInt8} {rest : List UInt8}
    (bytes : pending.map Prod.fst = c :: d :: rest) :
    ∃ m m' later, pending = (c, m) :: (d, m') :: later := by
  obtain ⟨⟨c', m⟩, behind, rfl, rfl, bytes'⟩ := List.map_eq_cons_iff.mp bytes
  obtain ⟨⟨d', m'⟩, later, rfl, rfl, -⟩ := List.map_eq_cons_iff.mp bytes'
  exact ⟨m, m', later, rfl⟩

theorem Turn.received {front : ℕ} {queue queue' : List UInt8} {io : List Io}
    (turn : Turn front queue queue' io) : received io = [] := by
  cases turn with
  | option long single sizes =>
    refine List.filterMap_eq_nil_iff.mpr fun e mem => ?_
    obtain ⟨col, row, rfl⟩ := sizes e mem
    rfl
  | _ => rfl

/-- A turn takes the first bytes of a well-formed stream, and writes what they decode to. -/
theorem Turn.decodes {front : ℕ} {queue queue' : List UInt8} {io : List Io}
    (turn : Turn front queue queue' io) {pending future : List (UInt8 × Bool)}
    (bytes : pending.map Prod.fst = queue) (marked : ∀ d ∈ future.head?, d.2 = true)
    (cut : queue.head? ≠ some iac → ∀ d ∈ pending[front]?, d.2 = true)
    (formed : WellFormed (queue ++ future.map Prod.fst)) (literals : Literals io) :
    ∃ k, queue.drop k = queue' ∧ WellFormed (queue' ++ future.map Prod.fst) ∧
      ∀ text, Decodes (pending.drop k ++ future) text →
        Decodes (pending ++ future) (written io ++ text) := by
  have single (data : List UInt8) (rc : Written) :
      written [.toPty data rc] = data.take rc.taken := List.append_nil _
  have split (k : ℕ) (text : List UInt8)
      (decodes : Decodes (pending.take k ++ (pending.drop k ++ future)) text) :
      Decodes (pending ++ future) text := by
    rwa [← List.append_assoc, List.take_append_drop] at decodes
  have taken {sent after : List UInt8} (isQueue : pending.map Prod.fst = sent ++ after) :
      (pending.take sent.length).map Prod.fst = sent ∧
        (pending.drop sent.length).map Prod.fst = after := by
    rw [List.map_take, List.map_drop, isQueue, List.take_left, List.drop_left]
    exact ⟨rfl, rfl⟩
  cases turn with
  | waits => exact ⟨0, rfl, formed, fun text decodes => decodes⟩
  | refused _ data nothing =>
    refine ⟨0, rfl, formed, fun text decodes => ?_⟩
    rw [single, nothing]
    exact decodes
  | @text sent _ data nonempty plain line ends first =>
    obtain ⟨before, behind⟩ := taken bytes
    rw [List.append_assoc] at formed
    refine ⟨sent.length, List.drop_left, formed.behind plain, fun text decodes => ?_⟩
    have wrote : written [.toPty data (.count sent.length)] =
        (pending.take sent.length).map Prod.fst := by
      rw [single, before]
      exact first
    rw [wrote]
    refine split _ _ (Decodes.text (by rwa [before]) (by rwa [before]) ?_ decodes)
    rw [before]
    intro ended d next eaten
    cases later : pending.drop sent.length with
    | nil =>
      rw [later] at next
      exact marked d next
    | cons d' rest =>
      rw [later, List.cons_append, List.head?_cons] at next
      obtain rfl := Option.some.inj next
      rcases ends ended with whole | apart
      · refine cut ?_ d' ?_
        · obtain ⟨c, text', rfl⟩ := List.exists_cons_of_ne_nil nonempty
          exact fun same => plain (Option.some.inj same ▸ List.mem_cons_self)
        · rw [← whole, ← List.head?_drop, later]
          rfl
      · rw [← behind, later] at apart
        exact absurd eaten (apart d'.1 rfl)
  | @pair sent _ data d plain line eaten first =>
    obtain ⟨before, behind⟩ := taken bytes
    have next : pending.drop (sent.length + 2) = (pending.drop sent.length).drop 2 :=
      List.drop_drop.symm
    rw [List.append_assoc] at formed
    have rest := formed.behind plain
    refine ⟨sent.length + 2, ?_, ?_, fun text decodes => ?_⟩
    · rw [← List.drop_drop, List.drop_left]
      rfl
    · exact (rest.tail (by decide)).tail (by rintro rfl; exact absurd eaten (by decide))
    · have wrote : written [.toPty data (.count (sent.length + 1))] ++ text =
          (pending.take sent.length).map Prod.fst ++ cr :: text := by
        rw [single, before, List.append_cons]
        exact congrArg (· ++ text) first
      rw [wrote]
      rw [next] at decodes
      refine split _ _ (Decodes.text (by rwa [before]) ?_ ?_ ?_)
      · rw [before]
        exact fun mem => line (List.dropLast_subset _ mem)
      · rw [before]
        exact fun ended => absurd (List.mem_of_getLast? ended) line
      · obtain ⟨m, m', later, same⟩ := sequence_marks behind
        rw [same]
        rw [same] at decodes
        exact .pair eaten decodes
  | literal after rc =>
    obtain ⟨m, m', later, rfl⟩ := sequence_marks bytes
    have all : [iac].take rc.taken = [iac] :=
      List.take_of_length_le (Nat.one_le_iff_ne_zero.mpr (literals rc List.mem_cons_self))
    refine ⟨2, rfl, (WellFormed.sequence formed).2, fun text decodes => ?_⟩
    rw [single, all]
    exact .literal decodes
  | command after least most =>
    obtain ⟨m, m', later, rfl⟩ := sequence_marks bytes
    exact ⟨2, rfl, (WellFormed.sequence formed).2, fun text decodes =>
      .command least most decodes⟩
  | option long other sizes =>
    exact absurd ((WellFormed.sequence formed).1.resolve_left other) long

/-! ## Runs -/

/-- Whether there is an IAC that was removed from the buffer. -/
def Tsession.dangling (ts : Tsession) : ℕ := if ts.bufferedIacForPty then 1 else 0

theorem queue_length (ts : Tsession) (items : List UInt8) :
    (ts.queue items).length = items.length + ts.dangling := by
  unfold Tsession.queue Tsession.dangling
  split <;> rfl

theorem queue_append (ts : Tsession) (items more : List UInt8) :
    ts.queue (items ++ more) = ts.queue items ++ more := by
  unfold Tsession.queue
  split <;> rfl

/-- What is still to be decoded, with the marks that its bytes arrived with. -/
structure Waiting (ts : Tsession) (items : List UInt8) (pending : List (UInt8 × Bool)) : Prop where
  bytes : pending.map Prod.fst = ts.queue items
  /-- Where the queue goes round the end, a new read begins. -/
  cut : ts.front < items.length → ∀ d ∈ pending[ts.front + ts.dangling]?, d.2 = true

namespace Waiting

variable {ts ts' : Tsession} {items : List UInt8} {pending future : List (UInt8 × Bool)}

theorem length (waiting : Waiting ts items pending) :
    pending.length = items.length + ts.dangling := by
  rw [← queue_length, ← waiting.bytes, List.length_map]

theorem decoded (waiting : Waiting ts items pending) (least : ts.front ≤ items.length)
    {consumed : ℕ} {io : List Io} (decoded : Decoded ts ts' items consumed io)
    (marked : ∀ d ∈ future.head?, d.2 = true)
    (formed : WellFormed (pending.map Prod.fst ++ future.map Prod.fst)) (literals : Literals io) :
    ∃ pending', Waiting ts' (items.drop consumed) pending' ∧
      WellFormed (pending'.map Prod.fst ++ future.map Prod.fst) ∧
      ∀ text, Decodes (pending' ++ future) text →
        Decodes (pending ++ future) (written io ++ text) := by
  have bytes := waiting.bytes
  have total := waiting.length
  have cut : (ts.queue items).head? ≠ some iac → ∀ d ∈ pending[ts.front]?, d.2 = true := by
    intro other d there
    by_cases flag : ts.bufferedIacForPty = true
    · unfold Tsession.queue at other
      rw [if_pos flag] at other
      exact absurd rfl other
    · have none : ts.dangling = 0 := if_neg flag
      have within := (List.getElem?_eq_some_iff.mp there).1
      refine waiting.cut (by omega) d ?_
      rwa [none]
  rw [bytes] at formed
  obtain ⟨k, rest, formed', decodes⟩ :=
    decoded.turn.decodes bytes marked cut formed literals
  have bytes' : (pending.drop k).map Prod.fst = ts'.queue (items.drop consumed) := by
    rw [List.map_drop, bytes, rest]
  refine ⟨pending.drop k, ⟨bytes', fun less d there => ?_⟩, by rwa [bytes'], decodes⟩
  have front := decoded.front less
  have lengths := congrArg List.length rest
  rw [List.length_drop, queue_length, queue_length] at lengths
  have fewer : (items.drop consumed).length = items.length - consumed := List.length_drop
  have place : k + (ts'.front + ts'.dangling) = ts.front + ts.dangling := by omega
  rw [List.getElem?_drop, place] at there
  exact waiting.cut (by omega) d there

theorem got (waiting : Waiting ts items pending)
    (ring : Ring ts.buf1 ts.rdidx1 ts.wridx1 ts.size1 items) {data : List UInt8}
    (got : Got ts ts' items data) :
    Waiting ts' (items ++ kept data) (pending ++ mark (kept data)) := by
  have total := waiting.length
  have dangling : ts'.dangling = ts.dangling := by
    unfold Tsession.dangling
    rw [got.flag]
  have queue : ts'.queue (items ++ kept data) = ts.queue items ++ kept data := by
    rw [← queue_append]
    unfold Tsession.queue
    rw [got.flag]
  refine ⟨by rw [List.map_append, mark_map, waiting.bytes, queue], fun less d there => ?_⟩
  have front := ring.front_eq
  have front' := got.ring.front_eq
  have room := got.room
  have head := ring.queue.head
  have inside := ring.queue.inside
  have fits := ring.queue.fits
  have nonneg := ring.rdidx
  have fewer : (kept data).length ≤ data.length := by
    unfold kept
    split
    · exact List.length_dropLast.trans_le (Nat.sub_le ..)
    · exact le_rfl
  have both : (items ++ kept data).length = items.length + (kept data).length :=
    List.length_append
  rw [got.wridx1, both] at front'
  rw [both] at less
  unfold CircularBuffer.run at front front'
  rw [dangling] at there
  by_cases wrapped : ts.wridx1.toNat + items.length < bufsize
  · -- the read ends at the last cell
    rw [Nat.mod_eq_of_lt wrapped] at head
    omega
  by_cases before : ts'.front < items.length
  · have same : ts'.front = ts.front := by omega
    rw [same, List.getElem?_append_left (by omega)] at there
    exact waiting.cut (by omega) d there
  · have first : ts'.front + ts.dangling = pending.length := by omega
    rw [first, List.getElem?_append_right le_rfl, Nat.sub_self] at there
    cases keeps : kept data with
    | nil =>
      rw [keeps] at there
      cases there
    | cons c rest =>
      rw [keeps] at there
      rw [← Option.some.inj there]

theorem other (waiting : Waiting ts items pending) (same : Same1 ts ts') :
    Waiting ts' items pending := by
  have queue : ts'.queue items = ts.queue items := by
    unfold Tsession.queue
    rw [same.flag]
  have front : ts'.front = ts.front := by
    unfold Tsession.front
    rw [same.wridx1, same.size1]
  have dangling : ts'.dangling = ts.dangling := by
    unfold Tsession.dangling
    rw [same.flag]
  refine ⟨by rw [queue]; exact waiting.bytes, ?_⟩
  rw [front, dangling]
  exact waiting.cut

/-- Nothing is left, where buffer 1 is empty and no sequence is incomplete. -/
theorem drained (waiting : Waiting ts items pending) (empty : items = [])
    (formed : WellFormed (pending.map Prod.fst)) : pending = [] := by
  have bytes := waiting.bytes
  rw [empty] at bytes
  rw [bytes] at formed
  unfold Tsession.queue at bytes formed
  split at bytes
  · next flag =>
    rw [if_pos flag] at formed
    exact absurd rfl formed
  · exact List.map_eq_nil_iff.mp bytes

end Waiting

/-- What is waiting and what still arrives decodes to what is written until nothing is left. -/
theorem run_decodes {s s' : State} {items : List UInt8} {pending : List (UInt8 × Bool)}
    (inv : Inv s items) (waiting : Waiting s.ts items pending) {answers : List Answers}
    {io : List Io} (runs : run s answers = .ok (io, some s'))
    (formed : WellFormed (pending.map Prod.fst ++ (arrived (received io)).map Prod.fst))
    (literals : Literals io) (empty : s'.ts.size1 = 0) :
    Decodes (pending ++ arrived (received io)) (written io) := by
  induction answers generalizing s items pending io with
  | nil =>
    cases runs
    have size := inv.ring1.size
    have none : items = [] := List.length_eq_zero_iff.mp (by omega)
    have formed' : WellFormed (pending.map Prod.fst) := by
      have same : pending.map Prod.fst ++ [] = pending.map Prod.fst := List.append_nil _
      exact same ▸ formed
    rw [waiting.drained none formed']
    exact .nil
  | cons first rest ih =>
    obtain ⟨io₁, next, steps, alive⟩ := step_spec inv first
    unfold run at runs
    rw [steps, ok_bind] at runs
    cases next with
    | none => cases runs
    | some s₁ =>
      obtain ⟨items₁, effect, inv₁⟩ := alive s₁ rfl
      obtain ⟨⟨more, last⟩, runs₁, ends⟩ := bind_eq_ok.mp runs
      cases ends
      have literals₁ : Literals more := fun rc mem => literals rc (List.mem_append_right _ mem)
      rw [received_append] at formed ⊢
      rw [written_append]
      cases effect with
      | other same elsewhere =>
        obtain ⟨noReads, noWrites⟩ := received_other elsewhere
        rw [noReads] at formed ⊢
        rw [noWrites]
        exact ih inv₁ (waiting.other same) runs₁ formed literals₁
      | decoded decoded =>
        have least : s.ts.front ≤ items.length := inv.ring1.front_eq ▸ run_le ..
        have noReads : received io₁ = [] := decoded.turn.received
        rw [noReads] at formed ⊢
        obtain ⟨pending', waiting', formed', decodes⟩ := waiting.decoded least decoded
          (arrived_head _) formed fun rc mem => literals rc (List.mem_append_left _ mem)
        exact decodes _ (ih inv₁ waiting' runs₁ formed' literals₁)
      | @got data nonempty got =>
        have reads : received ([.fromSocket data] : List Io) = [data] := rfl
        have noWrites : written ([.fromSocket data] : List Io) = [] := rfl
        rw [reads, List.singleton_append, arrived_cons] at formed ⊢
        rw [noWrites, List.nil_append, ← List.append_assoc]
        rw [List.map_append, ← List.append_assoc, ← List.map_append] at formed
        exact ih inv₁ (waiting.got inv.ring1 got) runs₁ formed literals₁

/-! ## Whole streams -/

theorem arrived_map (reads : List (List UInt8)) :
    (arrived reads).map Prod.fst = reads.flatMap kept := by
  induction reads with
  | nil => rfl
  | cons read reads ih => rw [arrived_cons, List.map_append, mark_map, ih, List.flatMap_cons]

theorem kept_cases (read : List UInt8) :
    kept read = read ∨ read = kept read ++ [0] := by
  unfold kept
  split
  · next ends =>
    obtain ⟨low, rfl⟩ := List.getLast?_eq_some_iff.mp ends
    exact .inr (by rw [List.dropLast_concat])
  · exact .inl rfl

/-- The NULs that end a read are not missed. -/
theorem WellFormed.kept {before : List UInt8} {reads : List (List UInt8)}
    (formed : WellFormed (before ++ reads.flatten)) :
    WellFormed (before ++ reads.flatMap Telnetd.kept) := by
  induction reads generalizing before with
  | nil => exact formed
  | cons read reads ih =>
    rw [List.flatten_cons, ← List.append_assoc] at formed
    rw [List.flatMap_cons, ← List.append_assoc]
    refine ih ?_
    rcases kept_cases read with same | ends
    · rwa [same]
    · rw [ends, ← List.append_assoc, List.append_assoc _ [0]] at formed
      exact WellFormed.without_nul formed

/-- No read begins with a byte that can be eaten, and a NUL ends a read only behind its CR. -/
def Unsplit (reads : List (List UInt8)) : Prop :=
  ∀ read ∈ reads, (∀ d ∈ read.head?, ¬Eaten d) ∧
    (read.getLast? = some 0 → ∃ before, read = before ++ [cr, 0])

theorem Unsplit.head {reads : List (List UInt8)} (unsplit : Unsplit reads) :
    ∀ d ∈ reads.flatten.head?, ¬Eaten d := by
  induction reads with
  | nil => exact fun d first => nomatch first
  | cons read reads ih =>
    intro d first
    cases read with
    | nil => exact ih (fun read mem => unsplit read (List.mem_cons_of_mem _ mem)) d first
    | cons c rest => exact (unsplit _ List.mem_cons_self).1 d first

theorem Unsplit.typed {before : List UInt8} {reads : List (List UInt8)} (unsplit : Unsplit reads)
    (formed : WellFormed (before ++ reads.flatten)) :
    typed (before ++ reads.flatMap kept) = typed (before ++ reads.flatten) := by
  induction reads generalizing before with
  | nil => rfl
  | cons read reads ih =>
    have later : Unsplit reads := fun read mem => unsplit read (List.mem_cons_of_mem _ mem)
    rw [List.flatten_cons, ← List.append_assoc] at formed ⊢
    rw [List.flatMap_cons, ← List.append_assoc]
    rcases kept_cases read with same | ends
    · rw [same]
      exact ih later formed
    · have isLast : read.getLast? = some 0 := by rw [ends, List.getLast?_concat]
      obtain ⟨text, isRead⟩ := (unsplit read List.mem_cons_self).2 isLast
      have keeps : kept read = text ++ [cr] := by
        have same : text ++ [cr] ++ [0] = kept read ++ [0] := by
          rw [← ends, isRead, List.append_assoc]
          rfl
        exact (List.append_inj' same rfl).1.symm
      have whole : before ++ read ++ reads.flatten =
          before ++ text ++ cr :: 0 :: reads.flatten := by
        rw [isRead]
        simp only [List.append_assoc, List.cons_append, List.nil_append]
      have without : before ++ kept read ++ reads.flatten =
          before ++ text ++ cr :: reads.flatten := by
        rw [keeps]
        simp only [List.append_assoc, List.cons_append, List.nil_append]
      rw [whole] at formed ⊢
      rw [typed_without_nul formed later.head, ← without]
      refine ih later ?_
      rw [without]
      rw [← List.singleton_append, ← List.append_assoc] at formed ⊢
      exact WellFormed.without_nul formed

theorem Unsplit.marks {reads : List (List UInt8)} (unsplit : Unsplit reads) :
    ∀ d ∈ arrived reads, d.2 = true → ¬Eaten d.1 := by
  intro d mem marked
  obtain ⟨read, isRead, within⟩ := List.mem_flatMap.mp mem
  cases keeps : kept read with
  | nil =>
    rw [keeps] at within
    cases within
  | cons c rest =>
    have first : read.head? = some c := by
      rcases kept_cases read with same | ends
      · rw [← same, keeps]
        rfl
      · rw [ends, keeps]
        rfl
    rw [keeps] at within
    rcases List.mem_cons.mp within with rfl | later
    · exact (unsplit read isRead).1 c first
    · obtain ⟨b, -, rfl⟩ := List.mem_map.mp later
      cases marked

theorem makeNewSession_waiting : Waiting makeNewSession.ts [] [] :=
  ⟨rfl, fun less => absurd less (Nat.not_lt_zero _)⟩

/-- Once around, with everything set. -/
def around (toPty : Written) (fromSocket : Arrived) : List Answers :=
  List.replicate 5 ⟨false, some ⟨true, true, true, true⟩, toPty, [], fromSocket, []⟩

/-- What is seen of a session that is still alive. -/
def observed (answers : List Answers) : Option (List Io × ℤ) :=
  match run makeNewSession answers with
  | .ok (io, some s) => some (io, s.ts.size1)
  | _ => none

theorem run_of_observed {answers : List Answers} {io : List Io} {size1 : ℤ}
    (seen : observed answers = some (io, size1)) :
    ∃ s, run makeNewSession answers = .ok (io, some s) ∧ s.ts.size1 = size1 := by
  unfold observed at seen
  split at seen
  · next s runs =>
    cases seen
    exact ⟨s, runs, rfl⟩
  · cases seen

end Busybox.Telnetd
