import Busybox.Telnetd.Turns

/-!
# The buffers stay in order

Whatever the system answers, the indices of both buffers stay inside of them and in step with the
sizes, and every access is to a byte that is there.
-/

namespace Busybox.Telnetd

open CircularBuffer Fallible

/-- The indices and the size of a buffer. -/
structure Indices (rdidx wridx size : ℤ) : Prop where
  size_nonneg : 0 ≤ size
  size_le : size ≤ bufsize
  wridx_nonneg : 0 ≤ wridx
  wridx_lt : wridx < bufsize
  rdidx_nonneg : 0 ≤ rdidx
  rdidx_lt : rdidx < bufsize
  rdidx_eq : rdidx = (wridx + size) % bufsize

theorem Ring.indices {buf : Buffer} {rdidx wridx size : ℤ} {items : List UInt8}
    (ring : Ring buf rdidx wridx size items) : Indices rdidx wridx size := by
  have fits := ring.queue.fits
  have inside := ring.queue.inside
  have less := ring.queue.head_lt
  have head := ring.queue.head
  have total := ring.size
  have rdidx_nonneg := ring.rdidx
  have wridx_nonneg := ring.wridx
  refine ⟨by omega, by omega, wridx_nonneg, by omega, rdidx_nonneg, by omega, ?_⟩
  have cast : ((rdidx.toNat : ℕ) : ℤ) = ((wridx.toNat + items.length : ℕ) : ℤ) % bufsize := by
    rw [head]
    push_cast
    rfl
  rw [Nat.cast_add, Int.toNat_of_nonneg rdidx_nonneg, Int.toNat_of_nonneg wridx_nonneg,
    ← total] at cast
  exact cast

/-- Both buffers of a session are in order. -/
structure Rings (ts : Tsession) (items1 items2 : List UInt8) : Prop where
  ring1 : Ring ts.buf1 ts.rdidx1 ts.wridx1 ts.size1 items1
  ring2 : Ring ts.buf2 ts.rdidx2 ts.wridx2 ts.size2 items2

/-- Nothing but buffer 2 was changed. -/
structure Same1 (ts ts' : Tsession) : Prop where
  flag : ts'.bufferedIacForPty = ts.bufferedIacForPty
  buf1 : ts'.buf1 = ts.buf1
  rdidx1 : ts'.rdidx1 = ts.rdidx1
  wridx1 : ts'.wridx1 = ts.wridx1
  size1 : ts'.size1 = ts.size1

theorem Same1.refl (ts : Tsession) : Same1 ts ts := ⟨rfl, rfl, rfl, rfl, rfl⟩

theorem Same1.ring {ts ts' : Tsession} (same : Same1 ts ts') {items : List UInt8}
    (ring : Ring ts.buf1 ts.rdidx1 ts.wridx1 ts.size1 items) :
    Ring ts'.buf1 ts'.rdidx1 ts'.wridx1 ts'.size1 items := by
  rw [same.buf1, same.rdidx1, same.wridx1, same.size1]
  exact ring

/-- A ring of which the first items are taken. -/
theorem Ring.leave {buf : Buffer} {rdidx wridx size : ℤ} {items : List UInt8}
    (ring : Ring buf rdidx wridx size items) {count : ℕ}
    (inFront : count ≤ CircularBuffer.run bufsize wridx.toNat items.length) :
    Ring buf rdidx (if bufsize ≤ wridx + count then 0 else wridx + count) (size - count)
      (items.drop count) := by
  have nonneg := ring.wridx
  have total := ring.size
  have fewer := Nat.le_trans inFront (run_le ..)
  have next : (if bufsize ≤ wridx.toNat + count then 0 else wridx.toNat + count) =
      (if (bufsize : ℤ) ≤ wridx + count then 0 else wridx + count).toNat := by
    split <;> split <;> omega
  have queue := ring.queue.advance inFront
  rw [next] at queue
  refine ⟨queue, ring.rdidx, by split <;> omega, ?_⟩
  rw [List.length_drop]
  omega

/-! ## Buffer 2 to the socket -/

theorem shortWrite_le {total room : ℕ} {rc : Written} (fits : rc.taken ≤ room) :
    (shortWrite total rc).taken ≤ total + room := by
  cases rc with
  | error errno =>
    unfold shortWrite
    dsimp only
    split
    · exact Nat.zero_le _
    · exact Nat.le_add_right _ _
  | count n => exact Nat.add_le_add_left fits total

theorem safeWrite_le (answer : Written) (data : List UInt8) :
    (safeWrite answer data).taken ≤ data.length := by
  cases answer with
  | error errno => exact Nat.zero_le _
  | count n => exact Nat.min_le_right ..

/-- Something that is written to the socket. -/
def Io.Sends (io : Io) : Prop := ∃ data rc, io = .toSocket data rc

/-- Bytes behind the first ones. -/
theorem load_behind {buf : Buffer} {head tail : ℕ} {items : List UInt8}
    (queue : Holds bufsize buf.bytes head tail items) {total count : ℕ}
    (inFront : total + count ≤ CircularBuffer.run bufsize tail items.length) :
    buf.load (tail + total : ℕ) count = .ok ((items.drop total).take count) := by
  have within := add_run_le queue inFront
  have piece := congrArg (List.drop total) (queue.piece inFront)
  rw [List.drop_take, List.drop_take, List.drop_drop, Nat.add_sub_cancel_left] at piece
  unfold Buffer.load
  rw [if_pos (by omega), Int.toNat_natCast, Int.toNat_natCast, piece]

/-- The loop looks at bytes of the front only, and takes no more than these. -/
theorem doubleIacLoop_spec {buf2 : Buffer} {head tail : ℕ} {items : List UInt8}
    (queue : Holds bufsize buf2.bytes head tail items) (answers : List Written) {count total : ℕ}
    (inFront : total + count ≤ CircularBuffer.run bufsize tail items.length) {io : List Io}
    (sends : ∀ e ∈ io, e.Sends) :
    ∃ rc io', doubleIacLoop buf2 answers (tail + total : ℕ) count total io = .ok (rc, io') ∧
      rc.taken ≤ total + count ∧ ∀ e ∈ io', e.Sends := by
  induction answers generalizing count total io with
  | nil =>
    refine ⟨_, io, rfl, ?_, sends⟩
    split
    · exact Nat.le_add_right ..
    · exact shortWrite_le (Nat.zero_le _)
  | cons answer answers ih =>
    unfold doubleIacLoop
    by_cases done : count = 0
    · rw [if_pos done]
      exact ⟨_, io, rfl, Nat.le_add_right .., sends⟩
    have also (data : List UInt8) (rc : Written) : ∀ e ∈ io ++ [.toSocket data rc], e.Sends := by
      intro e mem
      rcases List.mem_append.mp mem with old | new
      · exact sends e old
      · exact ⟨data, rc, List.mem_singleton.mp new⟩
    -- `n` bytes were written, and the loop goes on behind them
    have next {n : ℕ} (some : n ≤ count) (data : List UInt8) (rc : Written) :
        ∃ rc' io', doubleIacLoop buf2 answers ((tail + total : ℕ) + n) (count - n) (total + n)
          (io ++ [.toSocket data rc]) = .ok (rc', io') ∧ rc'.taken ≤ total + count ∧
            ∀ e ∈ io', e.Sends := by
      obtain ⟨rc', io', loops, bound, sends'⟩ := ih (by omega : total + n + (count - n) ≤ _)
        (also data rc)
      rw [← Nat.add_assoc, Nat.cast_add (tail + total)] at loops
      exact ⟨rc', io', loops, by omega, sends'⟩
    rw [if_neg done, byte_queue queue (by omega : total < _) (by push_cast; rfl), ok_bind]
    by_cases doubled : items.getD total 0 = iac
    · rw [if_pos doubled]
      dsimp only
      by_cases short : safeWrite answer [iac, iac] ≠ .count 2
      · have most : (safeWrite answer [iac, iac]).taken ≤ 1 := by
          have two : (safeWrite answer [iac, iac]).taken ≤ 2 := safeWrite_le ..
          by_contra more
          cases written : safeWrite answer [iac, iac] with
          | error errno =>
            rw [written] at more
            exact more (Nat.zero_le 1)
          | count n =>
            rw [written] at more two short
            have same : n = 2 := Nat.le_antisymm two (Nat.lt_of_not_le more)
            exact short (congrArg Written.count same)
        rw [if_pos short]
        exact ⟨_, _, rfl, shortWrite_le (by omega), also _ _⟩
      · rw [if_neg short]
        exact next (Nat.one_le_iff_ne_zero.mpr done) _ _
    · rw [if_neg doubled, load_behind queue inFront, ok_bind]
      dsimp only
      generalize found : (((items.drop total).take count).idxOf? iac).getD count = wr
      have most : wr ≤ count := by
        rw [← found]
        rcases memchr_cases ((items.drop total).take count) iac with
          ⟨missing, -⟩ | ⟨before, after, split, -, there⟩
        · rw [missing]
          exact le_rfl
        · have length : ((items.drop total).take count).length ≤ count := List.length_take_le ..
          rw [split, List.length_append] at length
          rw [there]
          exact (Nat.le_add_right ..).trans length
      rw [load_behind queue (by omega : total + wr ≤ _), ok_bind]
      have shorter : (safeWrite answer (((items.drop total).take wr))).taken ≤ wr :=
        (safeWrite_le ..).trans (List.length_take_le ..)
      by_cases short : safeWrite answer ((items.drop total).take wr) ≠ .count wr
      · rw [if_pos short]
        exact ⟨_, _, rfl, shortWrite_le (shorter.trans most), also _ _⟩
      · rw [if_neg short]
        exact next most _ _

/-- Write to socket from buffer 2. -/
theorem writeSocket_spec {ts : Tsession} {items1 items2 : List UInt8}
    (rings : Rings ts items1 items2) (answers : List Written) :
    ∃ io next, writeSocket ts answers = .ok (io, next) ∧ (∀ e ∈ io, e.Sends) ∧
      ∀ ts' ∈ next, Same1 ts ts' ∧ ts'.size2 ≤ ts.size2 ∧
        ∃ items, Ring ts'.buf2 ts'.rdidx2 ts'.wridx2 ts'.size2 items := by
  have ring := rings.ring2
  have wridx := ring.wridx
  have inside := ring.queue.inside
  have fits := ring.queue.fits
  have size := ring.size
  have small : bufsize < 2 ^ 31 := by decide
  have count : (min (bufsize - ts.wridx2) ts.size2 % 2 ^ 64).toNat =
      CircularBuffer.run bufsize ts.wridx2.toNat items2.length := by
    unfold CircularBuffer.run
    rw [Int.emod_eq_of_lt (by omega) (by omega)]
    omega
  obtain ⟨rc, io, loops, most, sends⟩ := doubleIacLoop_spec ring.queue answers
    (by rw [Nat.zero_add] : 0 + CircularBuffer.run bufsize ts.wridx2.toNat items2.length ≤ _)
    fun e (mem : e ∈ []) => absurd mem List.not_mem_nil
  rw [Nat.add_zero, Int.toNat_of_nonneg wridx] at loops
  rw [Nat.zero_add] at most
  unfold writeSocket safeWriteDoubleIac
  dsimp only
  rw [count, loops, ok_bind]
  cases rc with
  | error errno =>
    refine ⟨io, _, rfl, sends, fun ts' alive => ?_⟩
    by_cases again : errno = .eagain
    · rw [if_pos again] at alive
      rw [← Option.some.inj alive]
      exact ⟨.refl ts, le_rfl, items2, ring⟩
    · rw [if_neg again] at alive
      cases alive
  | count n =>
    refine ⟨io, _, rfl, sends, fun ts' alive => ?_⟩
    have left := ring.leave most
    have fewer : ts.size2 - n ≤ ts.size2 := by omega
    rw [← Option.some.inj alive]
    by_cases drained : ts.size2 - n = 0
    · rw [if_pos drained]
      refine ⟨⟨rfl, rfl, rfl, rfl, rfl⟩, fewer, [], ?_⟩
      rw [drained]
      exact ⟨Holds.empty ts.buf2.full bufsize_pos, le_rfl, le_rfl, rfl⟩
    · rw [if_neg drained]
      exact ⟨⟨rfl, rfl, rfl, rfl, rfl⟩, fewer, _, left⟩

/-! ## Reading -/

/-- A read is within its buffer, and fits in. -/
theorem safeRead_spec {buf : Buffer} {rdidx wridx size : ℤ} {items : List UInt8}
    (ring : Ring buf rdidx wridx size items) (room : size < bufsize) (answer : Arrived) :
    (∃ errno, answer = .error errno ∧
      safeRead buf rdidx (min (bufsize - rdidx) (bufsize - size)) answer = .ok (.error errno)) ∨
    ∃ buf' data, safeRead buf rdidx (min (bufsize - rdidx) (bufsize - size)) answer =
        .ok (.ok (buf', data)) ∧ rdidx + data.length ≤ bufsize ∧
      buf'.bytes = overwrite buf.bytes rdidx.toNat data ∧ ∀ kept ≤ data.length,
        Ring buf' (if bufsize ≤ rdidx + kept then 0 else rdidx + kept) wridx (size + kept)
          (items ++ data.take kept) := by
  have indices := ring.indices
  have nonneg := indices.rdidx_nonneg
  have inside := indices.rdidx_lt
  unfold safeRead
  rw [if_pos (by omega)]
  cases answer with
  | error errno => exact .inl ⟨errno, rfl, rfl⟩
  | bytes data =>
    have most := List.length_take_le (min (bufsize - rdidx) (bufsize - size)).toNat data
    obtain ⟨buf', stores, bytes, rings⟩ := ring.arrive
      (data.take (min (bufsize - rdidx) (bufsize - size)).toNat) (by omega) (by omega)
    refine .inr ⟨buf', _, ?_, by omega, bytes, rings⟩
    dsimp only
    rw [stores]
    rfl

/-- What is kept of the bytes that were read from the socket: a trailing NUL is ignored. -/
def kept (data : List UInt8) : List UInt8 := if data.getLast? = some 0 then data.dropLast else data

/-- Buffer 1 has got some more bytes, and nothing else was changed. -/
structure Got (ts ts' : Tsession) (items data : List UInt8) : Prop where
  ring : Ring ts'.buf1 ts'.rdidx1 ts'.wridx1 ts'.size1 (items ++ kept data)
  room : ts.rdidx1 + data.length ≤ bufsize
  wridx1 : ts'.wridx1 = ts.wridx1
  flag : ts'.bufferedIacForPty = ts.bufferedIacForPty
  buf2 : ts'.buf2 = ts.buf2
  rdidx2 : ts'.rdidx2 = ts.rdidx2
  wridx2 : ts'.wridx2 = ts.wridx2
  size2 : ts'.size2 = ts.size2

/-- Read from socket to buffer 1. -/
theorem readSocket_spec {ts : Tsession} {items : List UInt8}
    (ring : Ring ts.buf1 ts.rdidx1 ts.wridx1 ts.size1 items) (room : ts.size1 < bufsize)
    (answer : Arrived) :
    ∃ io next, readSocket ts answer = .ok (io, next) ∧ ∀ ts' ∈ next,
      io = [] ∧ ts' = ts ∨ ∃ data, data ≠ [] ∧ io = [.fromSocket data] ∧ Got ts ts' items data := by
  have indices := ring.indices
  have nonneg := indices.rdidx_nonneg
  unfold readSocket
  dsimp only
  rcases safeRead_spec ring room answer with
    ⟨errno, -, reads⟩ | ⟨buf', data, reads, within, bytes, rings⟩
  · rw [reads, ok_bind]
    refine ⟨[], _, rfl, fun ts' alive => .inl ⟨rfl, ?_⟩⟩
    by_cases again : errno = .eagain
    · rw [if_pos again] at alive
      exact (Option.some.inj alive).symm
    · rw [if_neg again] at alive
      cases alive
  · rw [reads, ok_bind]
    dsimp only
    by_cases ended : data.length = 0
    · rw [if_pos ended]
      exact ⟨[], none, rfl, fun ts' alive => nomatch alive⟩
    have last : buf'.byte (ts.rdidx1 + data.length - 1) = .ok (data.getD (data.length - 1) 0) := by
      have position : (ts.rdidx1 + data.length - 1).toNat = ts.rdidx1.toNat + (data.length - 1) := by
        omega
      unfold Buffer.byte
      rw [if_pos (by omega), position, List.getD_eq_getElem?_getD, bytes,
        overwrite_getElem? (by rw [ts.buf1.full]; omega) (by omega), List.getD_eq_getElem?_getD]
    have isLast : data.getLast? = some (data.getD (data.length - 1) 0) := by
      rw [List.getLast?_eq_getElem?, List.getD_eq_getElem?_getD,
        List.getElem?_eq_getElem (by omega)]
      rfl
    rw [if_neg ended, last, ok_bind]
    have some : data ≠ [] := fun none => ended (by rw [none]; rfl)
    refine ⟨_, _, rfl, fun ts' alive => .inr ⟨data, some, rfl, ?_⟩⟩
    rw [← Option.some.inj alive]
    have keeps : (items ++ kept data) = items ++
        data.take (if data.getD (data.length - 1) 0 = 0 then data.length - 1 else data.length) := by
      unfold kept
      rw [isLast]
      by_cases zero : data.getD (data.length - 1) 0 = 0
      · rw [zero, if_pos rfl, if_pos rfl, List.dropLast_eq_take]
      · rw [if_neg zero, if_neg fun same => zero (Option.some.inj same), List.take_length]
    have ring' := rings
      (if data.getD (data.length - 1) 0 = 0 then data.length - 1 else data.length)
      (by split <;> omega)
    rw [← keeps] at ring'
    exact ⟨ring', within, rfl, rfl, rfl, rfl, rfl, rfl⟩

/-- Something that is read from the pty. -/
def Io.Outputs (io : Io) : Prop := ∃ data, io = .fromPty data

/-- Read from pty to buffer 2. -/
theorem readPty_spec {ts : Tsession} {items : List UInt8}
    (ring : Ring ts.buf2 ts.rdidx2 ts.wridx2 ts.size2 items) (room : ts.size2 < bufsize)
    (answers : List Arrived) (eio : ℕ) :
    ∃ io next, readPty ts answers eio = .ok (io, next) ∧ (∀ e ∈ io, e.Outputs) ∧
      ∀ ts' ∈ next, Same1 ts ts' ∧
        ∃ items', Ring ts'.buf2 ts'.rdidx2 ts'.wridx2 ts'.size2 items' := by
  induction answers generalizing eio with
  | nil =>
    refine ⟨[], some ts, rfl, fun e mem => absurd mem List.not_mem_nil, fun ts' alive => ?_⟩
    rw [← Option.some.inj alive]
    exact ⟨.refl ts, items, ring⟩
  | cons answer answers ih =>
    have nothing : ∀ e ∈ ([] : List Io), e.Outputs := fun e mem => absurd mem List.not_mem_nil
    unfold readPty
    dsimp only
    rcases safeRead_spec ring room answer with
      ⟨errno, -, reads⟩ | ⟨buf', data, reads, within, bytes, rings⟩
    · rw [reads, ok_bind]
      cases errno with
      | eagain =>
        refine ⟨[], some ts, rfl, nothing, fun ts' alive => ?_⟩
        rw [← Option.some.inj alive]
        exact ⟨.refl ts, items, ring⟩
      | eio =>
        dsimp only
        split
        · exact ih (eio + 1)
        · exact ⟨[], none, rfl, nothing, fun ts' alive => nomatch alive⟩
      | other => exact ⟨[], none, rfl, nothing, fun ts' alive => nomatch alive⟩
    · rw [reads, ok_bind]
      dsimp only
      by_cases ended : data.length = 0
      · rw [if_pos ended]
        exact ⟨[], none, rfl, nothing, fun ts' alive => nomatch alive⟩
      · rw [if_neg ended]
        refine ⟨_, _, rfl, fun e mem => ⟨data, List.mem_singleton.mp mem⟩, fun ts' alive => ?_⟩
        rw [← Option.some.inj alive]
        exact ⟨⟨rfl, rfl, rfl, rfl, rfl⟩, _, rings data.length le_rfl⟩

/-! ## Steps -/

/-- A session is in order, and only asked for what can be done. -/
structure Inv (s : State) (items : List UInt8) : Prop where
  ring1 : Ring s.ts.buf1 s.ts.rdidx1 s.ts.wridx1 s.ts.size1 items
  ring2 : ∃ items2, Ring s.ts.buf2 s.ts.rdidx2 s.ts.wridx2 s.ts.size2 items2
  ptyWritable : s.point = .writePty → s.ready.ptyWritable = true → 0 < s.ts.size1
  sockReadable : s.point ≠ .again → s.point ≠ .skip3 → s.ready.sockReadable = true →
    s.ts.size1 < bufsize
  ptyReadable : s.point ≠ .again → s.ready.ptyReadable = true → s.ts.size2 < bufsize

/-- What a step does to buffer 1. -/
inductive Effect (ts ts' : Tsession) (items : List UInt8) : List UInt8 → List Io → Prop
  | other {io : List Io} (same : Same1 ts ts') (elsewhere : ∀ e ∈ io, e.Sends ∨ e.Outputs) :
    Effect ts ts' items items io
  | decoded {consumed : ℕ} {io : List Io} (decoded : Decoded ts ts' items consumed io) :
    Effect ts ts' items (items.drop consumed) io
  | got {data : List UInt8} (nonempty : data ≠ []) (got : Got ts ts' items data) :
    Effect ts ts' items (items ++ kept data) [.fromSocket data]

theorem Effect.same {ts : Tsession} {items : List UInt8} : Effect ts ts items items [] :=
  .other (.refl ts) fun _ mem => absurd mem List.not_mem_nil

/-- Work that may be left out. -/
theorem guarded_spec {set : Bool} {ready : Ready} {point : Point} {ts : Tsession}
    {items : List UInt8} {work : Except Fault (List Io × Option Tsession)}
    (leaves : Inv ⟨ts, point, ready⟩ items)
    (works : set = true → ∃ io next, work = .ok (io, next) ∧ ∀ ts' ∈ next,
      ∃ items', Effect ts ts' items items' io ∧ Inv ⟨ts', point, ready⟩ items') :
    ∃ io next, guarded set ready point ts work = .ok (io, next) ∧ ∀ s' ∈ next,
      ∃ items', Effect ts s'.ts items items' io ∧ Inv s' items' := by
  unfold guarded
  cases set with
  | true =>
    obtain ⟨io, next, ends, alive⟩ := works rfl
    rw [if_pos rfl, ends]
    refine ⟨io, _, rfl, fun s' mem => ?_⟩
    obtain ⟨ts', isNext, rfl⟩ := Option.map_eq_some_iff.mp mem
    exact alive ts' isNext
  | false =>
    rw [if_neg Bool.false_ne_true]
    refine ⟨[], _, rfl, fun s' mem => ?_⟩
    rw [← Option.some.inj mem]
    exact ⟨items, .same, leaves⟩

/-- Write to pty from buffer 1. -/
theorem writePty_spec {ts : Tsession} {items items2 : List UInt8}
    (ring1 : Ring ts.buf1 ts.rdidx1 ts.wridx1 ts.size1 items)
    (ring2 : Ring ts.buf2 ts.rdidx2 ts.wridx2 ts.size2 items2) (nonempty : 0 < ts.size1)
    (answer : Written) :
    ∃ io next, writePty ts answer = .ok (io, next) ∧ ∀ ts' ∈ next,
      ∃ consumed, Decoded ts ts' items consumed io := by
  have some : items ≠ [] := by
    rintro rfl
    rw [ring1.size] at nonempty
    exact absurd nonempty (lt_irrefl 0)
  obtain ⟨ts', rc, io, consumed, returns, decoded⟩ := decode_spec ring1 ring2 some answer
  unfold writePty
  rw [returns, ok_bind]
  refine ⟨io, _, rfl, fun ts'' alive => ?_⟩
  split at alive
  · cases alive
  · rw [← Option.some.inj alive]
    exact ⟨consumed, decoded⟩

theorem step_spec {s : State} {items : List UInt8} (inv : Inv s items) (answers : Answers) :
    ∃ io next, step s answers = .ok (io, next) ∧ ∀ s' ∈ next,
      ∃ items', Effect s.ts s'.ts items items' io ∧ Inv s' items' := by
  obtain ⟨ring1, ⟨items2, ring2⟩, ptyWritable, sockReadable, ptyReadable⟩ := inv
  obtain ⟨ts, point, ready⟩ := s
  unfold step
  cases point with
  | again =>
    dsimp only
    by_cases died : answers.died = true
    · rw [if_pos died]
      exact ⟨[], none, rfl, fun s' alive => nomatch alive⟩
    rw [if_neg died]
    cases answers.select with
    | none =>
      refine ⟨[], _, rfl, fun s' alive => ?_⟩
      rw [← Option.some.inj alive]
      exact ⟨items, .same, ring1, ⟨items2, ring2⟩, ptyWritable, sockReadable, ptyReadable⟩
    | some found =>
      refine ⟨[], _, rfl, fun s' alive => ?_⟩
      rw [← Option.some.inj alive]
      refine ⟨items, .same, ring1, ⟨items2, ring2⟩, fun _ set => ?_, fun _ _ set => ?_,
        fun _ set => ?_⟩
      · exact decide_eq_true_eq.mp (Bool.and_eq_true_iff.mp set).2
      · exact decide_eq_true_eq.mp (Bool.and_eq_true_iff.mp set).2
      · exact decide_eq_true_eq.mp (Bool.and_eq_true_iff.mp set).2
  | writePty =>
    have readable := sockReadable nofun nofun
    have output := ptyReadable nofun
    refine guarded_spec ⟨ring1, ⟨items2, ring2⟩, nofun, fun _ _ => readable, fun _ => output⟩
      fun set => ?_
    obtain ⟨io, next, ends, alive⟩ := writePty_spec ring1 ring2 (ptyWritable rfl set) answers.toPty
    refine ⟨io, next, ends, fun ts' mem => ?_⟩
    obtain ⟨consumed, decoded⟩ := alive ts' mem
    refine ⟨_, .decoded decoded, decoded.ring1, decoded.ring2, nofun, fun _ _ set => ?_,
      fun _ set => ?_⟩
    · have less := readable set
      have before := ring1.size
      have after := decoded.ring1.size
      rw [List.length_drop] at after
      dsimp only at *
      omega
    · rcases decoded.size2 with same | ⟨-, two⟩
      · exact lt_of_eq_of_lt same (output set)
      · exact lt_of_eq_of_lt two (by decide)
  | skip1 =>
    have readable := sockReadable nofun nofun
    have output := ptyReadable nofun
    refine guarded_spec ⟨ring1, ⟨items2, ring2⟩, nofun, fun _ _ => readable, fun _ => output⟩
      fun set => ?_
    obtain ⟨io, next, ends, sends, alive⟩ := writeSocket_spec ⟨ring1, ring2⟩ answers.toSocket
    refine ⟨io, next, ends, fun ts' mem => ?_⟩
    obtain ⟨same, fewer, ring2'⟩ := alive ts' mem
    exact ⟨items, .other same fun e mem => .inl (sends e mem), same.ring ring1, ring2', nofun,
      fun _ _ set => lt_of_eq_of_lt same.size1 (readable set),
      fun _ set => lt_of_le_of_lt fewer (output set)⟩
  | skip2 =>
    have readable := sockReadable nofun nofun
    have output := ptyReadable nofun
    refine guarded_spec ⟨ring1, ⟨items2, ring2⟩, nofun, fun _ other => absurd rfl other,
      fun _ => output⟩ fun set => ?_
    obtain ⟨io, next, ends, alive⟩ := readSocket_spec ring1 (readable set) answers.fromSocket
    refine ⟨io, next, ends, fun ts' mem => ?_⟩
    rcases alive ts' mem with ⟨rfl, rfl⟩ | ⟨data, nonempty, rfl, got⟩
    · exact ⟨items, .same, ring1, ⟨items2, ring2⟩, nofun, fun _ other => absurd rfl other,
        fun _ => output⟩
    · refine ⟨_, .got nonempty got, got.ring, ⟨items2, ?_⟩, nofun, fun _ other => absurd rfl other,
        fun _ set => lt_of_eq_of_lt got.size2 (output set)⟩
      rw [got.buf2, got.rdidx2, got.wridx2, got.size2]
      exact ring2
  | skip3 =>
    have output := ptyReadable nofun
    refine guarded_spec ⟨ring1, ⟨items2, ring2⟩, nofun, fun other => absurd rfl other,
      fun other => absurd rfl other⟩ fun set => ?_
    obtain ⟨io, next, ends, outputs, alive⟩ := readPty_spec ring2 (output set) answers.fromPty 0
    refine ⟨io, next, ends, fun ts' mem => ?_⟩
    obtain ⟨same, ring2'⟩ := alive ts' mem
    exact ⟨items, .other same fun e mem => .inr (outputs e mem), same.ring ring1, ring2', nofun,
      fun other => absurd rfl other, fun other => absurd rfl other⟩

theorem run_spec {s : State} {items : List UInt8} (inv : Inv s items) (answers : List Answers) :
    ∃ io next, run s answers = .ok (io, next) ∧ ∀ s' ∈ next, ∃ items', Inv s' items' := by
  induction answers generalizing s items with
  | nil =>
    refine ⟨[], some s, rfl, fun s' mem => ?_⟩
    rw [← Option.some.inj mem]
    exact ⟨items, inv⟩
  | cons first rest ih =>
    obtain ⟨io, next, steps, alive⟩ := step_spec inv first
    unfold run
    rw [steps, ok_bind]
    cases next with
    | none => exact ⟨io, none, rfl, fun s' mem => nomatch mem⟩
    | some s' =>
      obtain ⟨items', -, inv'⟩ := alive s' rfl
      obtain ⟨more, last, runs, alive'⟩ := ih inv'
      dsimp only
      rw [runs, ok_bind]
      exact ⟨io ++ more, last, rfl, alive'⟩

theorem makeNewSession_inv : Inv makeNewSession [] := by
  have empty : Ring Buffer.zeros 0 0 0 [] :=
    ⟨Holds.empty Buffer.zeros.full bufsize_pos, le_rfl, le_rfl, rfl⟩
  exact ⟨empty, ⟨[], empty⟩, nofun, fun other => absurd rfl other, fun other => absurd rfl other⟩

/-- However a session goes on, no access is outside of the buffers, and the indices of both are in
order in every state that is reached. -/
theorem telnetd_indices (answers : List Answers) :
    ∃ io next, run makeNewSession answers = .ok (io, next) ∧ ∀ s ∈ next,
      Indices s.ts.rdidx1 s.ts.wridx1 s.ts.size1 ∧ Indices s.ts.rdidx2 s.ts.wridx2 s.ts.size2 := by
  obtain ⟨io, next, runs, alive⟩ := run_spec makeNewSession_inv answers
  refine ⟨io, next, runs, fun s mem => ?_⟩
  obtain ⟨items, inv⟩ := alive s mem
  obtain ⟨items2, ring2⟩ := inv.ring2
  exact ⟨inv.ring1.indices, ring2.indices⟩

end Busybox.Telnetd
