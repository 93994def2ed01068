import Mathlib.Tactic.Ring
import Busybox.Telnetd.Main

/-!
# What a turn of the decoder takes

With the dangling IAC put back in front of buffer 1, a call of `safe_write_to_pty_decode_iac` takes
some of the first bytes out, and the rest stays as it is.
-/

namespace Busybox.Telnetd

open CircularBuffer Fallible

theorem bufsize_pos : 0 < bufsize := by decide

/-- The bytes that a buffer holds, with the indices and the size that go with it. -/
structure Ring (buf : Buffer) (rdidx wridx size : ℤ) (items : List UInt8) : Prop where
  queue : Holds bufsize buf.bytes rdidx.toNat wridx.toNat items
  rdidx : 0 ≤ rdidx
  wridx : 0 ≤ wridx
  size : size = items.length

/-- The bytes of buffer 1 in one piece. -/
def Tsession.front (ts : Tsession) : ℕ := CircularBuffer.run bufsize ts.wridx1.toNat ts.size1.toNat

section Access

variable {buf : Buffer} {head tail : ℕ} {items : List UInt8}

theorem run_le (size tail count : ℕ) : CircularBuffer.run size tail count ≤ count :=
  Nat.min_le_right ..

theorem add_run_le (queue : Holds bufsize buf.bytes head tail items) {count : ℕ}
    (inFront : count ≤ CircularBuffer.run bufsize tail items.length) : tail + count ≤ bufsize := by
  have inside := queue.inside
  unfold CircularBuffer.run at inFront
  omega

theorem load_queue (queue : Holds bufsize buf.bytes head tail items) {count : ℕ}
    (inFront : count ≤ CircularBuffer.run bufsize tail items.length) :
    buf.load tail count = .ok (items.take count) := by
  have within := add_run_le queue inFront
  unfold Buffer.load
  rw [if_pos (by omega), Int.toNat_natCast, Int.toNat_natCast, queue.piece inFront]

theorem byte_queue (queue : Holds bufsize buf.bytes head tail items) {i : ℕ}
    (inFront : i < CircularBuffer.run bufsize tail items.length) {index : ℤ}
    (there : index = tail + i) : buf.byte index = .ok (items.getD i 0) := by
  have within := add_run_le queue inFront
  have cell : (buf.bytes.drop tail)[i]? = items[i]? := by
    have same : ((buf.bytes.drop tail).take (i + 1))[i]? = (items.take (i + 1))[i]? :=
      congrArg (·[i]?) (queue.piece inFront)
    rwa [List.getElem?_take_of_lt (Nat.lt_succ_self i),
      List.getElem?_take_of_lt (Nat.lt_succ_self i)] at same
  have position : index.toNat = tail + i := by omega
  unfold Buffer.byte
  rw [if_pos (by omega), position, List.getD_eq_getElem?_getD, List.getD_eq_getElem?_getD, ← cell,
    List.getElem?_drop]

end Access

/-- Bytes are stored where the next ones come, and any number of the first ones are kept. -/
theorem Ring.arrive {buf : Buffer} {rdidx wridx size : ℤ} {items : List UInt8} (data : List UInt8)
    (ring : Ring buf rdidx wridx size items) (room : rdidx + data.length ≤ bufsize)
    (free : size + data.length ≤ bufsize) :
    ∃ buf', buf.store rdidx data = .ok buf' ∧
      buf'.bytes = overwrite buf.bytes rdidx.toNat data ∧ ∀ kept ≤ data.length,
        Ring buf' (if bufsize ≤ rdidx + kept then 0 else rdidx + kept) wridx (size + kept)
          (items ++ data.take kept) := by
  have nonneg := ring.rdidx
  have total := ring.size
  have room' : rdidx.toNat + data.length ≤ bufsize := by omega
  unfold Buffer.store
  rw [dif_pos ⟨nonneg, room⟩]
  refine ⟨_, rfl, rfl, fun kept within => ?_⟩
  have next : (if bufsize ≤ rdidx.toNat + kept then 0 else rdidx.toNat + kept) =
      (if (bufsize : ℤ) ≤ rdidx + kept then 0 else rdidx + kept).toNat := by
    split <;> split <;> omega
  have queue := ring.queue.append_take room' (by omega) within
  rw [next] at queue
  refine ⟨queue, by split <;> omega, ring.wridx, ?_⟩
  rw [List.length_append, List.length_take_of_le within, total]
  push_cast
  rfl

/-! ## The end of a turn -/

/-- So many bytes were taken out of buffer 1, and nothing else was changed. -/
structure Taken (ts ts' : Tsession) (tail : ℕ) (items : List UInt8) (consumed : ℕ) : Prop where
  ring : Ring ts'.buf1 ts'.rdidx1 ts'.wridx1 ts'.size1 (items.drop consumed)
  /-- Where the queue still goes round the end, it does so where it did. -/
  front : ts'.front < (items.drop consumed).length →
    ts'.front + consumed = CircularBuffer.run bufsize tail items.length
  flag : ts'.bufferedIacForPty = ts.bufferedIacForPty
  buf2 : ts'.buf2 = ts.buf2
  rdidx2 : ts'.rdidx2 = ts.rdidx2
  wridx2 : ts'.wridx2 = ts.wridx2
  size2 : ts'.size2 = ts.size2

theorem updateAndReturn_spec {ts : Tsession} {tail : ℕ} {items : List UInt8}
    (queue : Holds bufsize ts.buf1.bytes ts.rdidx1.toNat tail items) (rdidx : 0 ≤ ts.rdidx1)
    {rc consumed : ℕ} (index : ts.wridx1 + rc = tail + consumed)
    (size : ts.size1 - rc = items.length - consumed)
    (inFront : consumed ≤ CircularBuffer.run bufsize tail items.length) (io : List Io) :
    ∃ ts', updateAndReturn ts rc io = .ok (ts', .count rc, io) ∧
      Taken ts ts' tail items consumed := by
  have within := add_run_le queue inFront
  have fewer := Nat.le_trans inFront (run_le ..)
  have length : (items.drop consumed).length = items.length - consumed := List.length_drop
  have rest := queue.advance inFront
  obtain ⟨head, headEq⟩ := Int.eq_ofNat_of_zero_le rdidx
  rw [headEq, Int.toNat_natCast] at rest
  have wridx : (if (bufsize : ℤ) ≤ tail + consumed then (0 : ℤ) else tail + consumed) =
      ((if bufsize ≤ tail + consumed then 0 else tail + consumed : ℕ) : ℤ) := by
    split <;> split <;> omega
  have remaining : ts.size1 - rc = ((items.drop consumed).length : ℤ) := by omega
  unfold updateAndReturn
  rw [index, wridx, remaining]
  generalize next : (if bufsize ≤ tail + consumed then 0 else tail + consumed) = tail' at *
  dsimp only
  by_cases empty : (items.drop consumed).length = 0
  · have none : items.drop consumed = [] := List.length_eq_zero_iff.mp empty
    rw [if_pos (by omega)]
    refine ⟨_, rfl, ⟨⟨?_, le_rfl, le_rfl, rfl⟩, fun less => ?_, rfl, rfl, rfl, rfl, rfl⟩⟩
    · rw [none]
      exact Holds.empty ts.buf1.full bufsize_pos
    · omega
  rw [if_neg (by omega)]
  by_cases straight : tail' ≠ 0 ∧ tail' < head
  · have ends := rest.head
    have inside := rest.inside
    have fits := rest.fits
    have straightens : tail' + (items.drop consumed).length < bufsize := by
      by_contra long
      rw [Nat.mod_eq_sub_mod (not_lt.mp long), Nat.mod_eq_of_lt (by omega)] at ends
      omega
    rw [Nat.mod_eq_of_lt straightens] at ends
    have loads : ts.buf1.load tail' (items.drop consumed).length = .ok (items.drop consumed) := by
      rw [load_queue rest (by unfold CircularBuffer.run; omega), List.take_length]
    have stores : ts.buf1.store 0 (items.drop consumed) =
        .ok ⟨overwrite ts.buf1.bytes 0 (items.drop consumed), by
          rw [overwrite_length (by rw [ts.buf1.full]; omega), ts.buf1.full]⟩ := by
      unfold Buffer.store
      rw [dif_pos (by omega)]
      rfl
    have moved : ts.rdidx1 - tail' = (items.drop consumed).length := by omega
    rw [if_pos (by omega), loads, ok_bind, stores, ok_bind, moved]
    refine ⟨_, rfl, ⟨⟨?_, Int.natCast_nonneg _, le_rfl, rfl⟩, fun less => ?_, rfl, rfl, rfl, rfl,
      rfl⟩⟩
    · rw [Int.toNat_natCast]
      exact rest.move (by omega) straight.1
    · unfold Tsession.front CircularBuffer.run at less
      dsimp only at less
      omega
  · rw [if_neg (by omega)]
    refine ⟨_, rfl, ⟨⟨?_, rdidx, Int.natCast_nonneg _, rfl⟩, fun less => ?_, rfl, rfl, rfl, rfl,
      rfl⟩⟩
    · rw [headEq, Int.toNat_natCast, Int.toNat_natCast]
      exact rest
    · unfold Tsession.front CircularBuffer.run at *
      dsimp only at *
      rw [Int.toNat_natCast, Int.toNat_natCast] at *
      have inside := rest.inside
      have fits := rest.fits
      split at next <;> omega

/-! ## Turns -/

/-- What is still to be decoded, with the IAC that was removed from the buffer. -/
def Tsession.queue (ts : Tsession) (items : List UInt8) : List UInt8 :=
  if ts.bufferedIacForPty then iac :: items else items

/-- How many bytes a write has taken. -/
def Written.taken : Written → ℕ
  | .error _ => 0
  | .count n => n

/-- How many bytes are written at all: a LF or NUL is no more than a CR. -/
def Eaten (d : UInt8) : Prop := d = lf ∨ d = 0

/-- What one call takes from the queue, of which `front` bytes are in one piece. -/
inductive Turn (front : ℕ) : List UInt8 → List UInt8 → List Io → Prop
  | waits (queue : List UInt8) : Turn front queue queue []
  | refused (queue data : List UInt8) {rc : Written} (nothing : rc.taken = 0) :
    Turn front queue queue [.toPty data rc]
  | text {sent after data : List UInt8} (nonempty : sent ≠ []) (plain : iac ∉ sent)
    (line : cr ∉ sent.dropLast)
    (ends : sent.getLast? = some cr → sent.length = front ∨ ∀ d ∈ after.head?, ¬Eaten d)
    (first : data.take sent.length = sent) :
    Turn front (sent ++ after) after [.toPty data (.count sent.length)]
  | pair {sent after data : List UInt8} {d : UInt8} (plain : iac ∉ sent) (line : cr ∉ sent)
    (eaten : Eaten d) (first : data.take (sent.length + 1) = sent ++ [cr]) :
    Turn front (sent ++ cr :: d :: after) after [.toPty data (.count (sent.length + 1))]
  | literal (after : List UInt8) (rc : Written) :
    Turn front (iac :: iac :: after) after [.toPty [iac] rc]
  | command {code : UInt8} (after : List UInt8) (least : 240 ≤ code) (most : code ≤ 249) :
    Turn front (iac :: code :: after) after []
  | option {code : UInt8} {rest after : List UInt8} {io : List Io}
    (long : ¬(240 ≤ code ∧ code ≤ 249)) (single : code ≠ iac)
    (sizes : ∀ e ∈ io, ∃ col row, e = .winsize col row) : Turn front (iac :: code :: rest) after io

/-- What a call of `safe_write_to_pty_decode_iac` does to the session. -/
structure Decoded (ts ts' : Tsession) (items : List UInt8) (consumed : ℕ) (io : List Io) :
    Prop where
  ring1 : Ring ts'.buf1 ts'.rdidx1 ts'.wridx1 ts'.size1 (items.drop consumed)
  ring2 : ∃ items2, Ring ts'.buf2 ts'.rdidx2 ts'.wridx2 ts'.size2 items2
  size2 : ts'.size2 = ts.size2 ∨ ts.size2 = 0 ∧ ts'.size2 = 2
  front : ts'.front < (items.drop consumed).length → ts'.front + consumed = ts.front
  turn : Turn ts.front (ts.queue items) (ts'.queue (items.drop consumed)) io

/-- The session with so many bytes put back in front of buffer 1. -/
def Tsession.putBack (ts : Tsession) (off : ℕ) : Tsession :=
  { ts with bufferedIacForPty := false, size1 := ts.size1 + off, wridx1 := ts.wridx1 - off }

section Sequences

variable {ts t : Tsession} {items items2 seq : List UInt8} {off : ℕ}

theorem Ring.front_eq (ring : Ring ts.buf1 ts.rdidx1 ts.wridx1 ts.size1 items) :
    ts.front = CircularBuffer.run bufsize ts.wridx1.toNat items.length := by
  unfold Tsession.front
  rw [ring.size, Int.toNat_natCast]

/-- The end of a turn that takes `rc` bytes of a sequence. -/
theorem takes_sequence (ring1 : Ring ts.buf1 ts.rdidx1 ts.wridx1 ts.size1 items)
    (same : items = seq.drop off) {rc : ℕ} (least : off ≤ rc) (most : rc ≤ ts.front + off)
    (flag : t.bufferedIacForPty = false) (buf1 : t.buf1 = ts.buf1) (rdidx1 : t.rdidx1 = ts.rdidx1)
    (wridx1 : t.wridx1 = ts.wridx1 - off) (size1 : t.size1 = ts.size1 + off)
    (ring2 : Ring t.buf2 t.rdidx2 t.wridx2 t.size2 items2)
    (size2 : t.size2 = ts.size2 ∨ ts.size2 = 0 ∧ t.size2 = 2) {io : List Io}
    (turn : Turn ts.front (ts.queue items) (seq.drop rc) io) :
    ∃ ts' rc' consumed, updateAndReturn t rc io = .ok (ts', rc', io) ∧
      Decoded ts ts' items consumed io := by
  have queue := ring1.queue
  have wridx := ring1.wridx
  have size := ring1.size
  rw [← buf1, ← rdidx1] at queue
  have index : t.wridx1 + rc = ts.wridx1.toNat + (rc - off : ℕ) := by omega
  have left : t.size1 - rc = items.length - (rc - off : ℕ) := by omega
  obtain ⟨ts', returns, taken⟩ := updateAndReturn_spec queue (rdidx1 ▸ ring1.rdidx) index left
    (by rw [← ring1.front_eq]; omega) io
  refine ⟨ts', .count rc, rc - off, returns, taken.ring, ⟨items2, ?_⟩, ?_, ?_, ?_⟩
  · rw [taken.buf2, taken.rdidx2, taken.wridx2, taken.size2]
    exact ring2
  · rw [taken.size2]
    exact size2
  · rw [ring1.front_eq]
    exact taken.front
  · have rest : items.drop (rc - off) = seq.drop rc := by
      rw [same, List.drop_drop, Nat.add_sub_cancel' least]
    have plain : ts'.queue (items.drop (rc - off)) = items.drop (rc - off) := by
      unfold Tsession.queue
      rw [taken.flag, flag]
      rfl
    rw [plain, rest]
    exact turn

/-- The bytes behind the first one of a sequence. -/
theorem byte_sequence (ring1 : Ring ts.buf1 ts.rdidx1 ts.wridx1 ts.size1 items)
    (same : items = seq.drop off) {i : ℕ} (least : off ≤ i) (most : i < ts.front + off) {index : ℤ}
    (there : index + off = ts.wridx1 + i) : ts.buf1.byte index = .ok (seq.getD i 0) := by
  have wridx := ring1.wridx
  have byte : ts.buf1.byte index = .ok (items.getD (i - off) 0) :=
    byte_queue ring1.queue (by rw [← ring1.front_eq]; omega) (by omega)
  rw [byte, same, List.getD_eq_getElem?_getD, List.getElem?_drop, Nat.add_sub_cancel' least,
    List.getD_eq_getElem?_getD]

/-- Evidence that AYT was seen is all that buffer 2 holds. -/
theorem answers_ayt (buf2 : Buffer) :
    ∃ buf2', buf2.store 0 [iac] = .ok buf2' ∧ ∃ buf2'', buf2'.store 1 [nop] = .ok buf2'' ∧
      Ring buf2'' 2 0 2 [iac, nop] := by
  have large : 2 < bufsize := by decide
  have cleared : Ring buf2 0 0 0 [] := ⟨Holds.empty buf2.full bufsize_pos, le_rfl, le_rfl, rfl⟩
  obtain ⟨buf2', stores, -, rings⟩ := cleared.arrive [iac] (by decide) (by decide)
  have ring := rings 1 le_rfl
  rw [if_neg (by decide)] at ring
  obtain ⟨buf2'', stores', -, rings'⟩ := ring.arrive [nop] (by decide) (by decide)
  have ring' := rings' 1 le_rfl
  rw [if_neg (by decide)] at ring'
  exact ⟨buf2', stores, buf2'', stores', ring'⟩

theorem handleIac_spec (ring1 : Ring ts.buf1 ts.rdidx1 ts.wridx1 ts.size1 items)
    (ring2 : Ring ts.buf2 ts.rdidx2 ts.wridx2 ts.size2 items2) (small : off ≤ 1) {code : UInt8}
    {rest : List UInt8} (same : items = (iac :: code :: rest).drop off)
    (queue : ts.queue items = iac :: code :: rest) {buf wr : ℤ} (index : buf + off = ts.wridx1)
    (available : wr = ts.front + off) (two : 2 ≤ wr) (answer : Written) :
    ∃ ts' rc io consumed, handleIac (ts.putBack off) buf wr answer = .ok (ts', rc, io) ∧
      Decoded ts ts' items consumed io := by
  have byte {i : ℕ} (least : off ≤ i) (most : i < ts.front + off) {place : ℤ}
      (there : place + off = ts.wridx1 + i) :
      (ts.putBack off).buf1.byte place = .ok ((iac :: code :: rest).getD i 0) :=
    byte_sequence ring1 same least most there
  have takes {rc : ℕ} (least : 2 ≤ rc) (most : rc ≤ ts.front + off) {io : List Io}
      (turn : Turn ts.front (iac :: code :: rest) ((iac :: code :: rest).drop rc) io) :
      ∃ ts' rc' consumed, updateAndReturn (ts.putBack off) rc io = .ok (ts', rc', io) ∧
        Decoded ts ts' items consumed io :=
    takes_sequence (t := ts.putBack off) ring1 same (by omega) most rfl rfl rfl rfl rfl ring2
      (.inl rfl) (by rw [queue]; exact turn)
  have returns {rc : ℕ} {io : List Io} (ends : ∃ ts' rc' consumed,
      updateAndReturn (ts.putBack off) rc io = .ok (ts', rc', io) ∧
        Decoded ts ts' items consumed io) :
      ∃ ts' rc' io' consumed, updateAndReturn (ts.putBack off) rc io = .ok (ts', rc', io') ∧
        Decoded ts ts' items consumed io' := by
    obtain ⟨ts', rc', consumed, ends⟩ := ends
    exact ⟨ts', rc', io, consumed, ends⟩
  unfold handleIac
  have second : (ts.putBack off).buf1.byte (buf + 1) = .ok code :=
    byte (i := 1) small (by omega) (by omega)
  rw [second, ok_bind]
  by_cases doubled : code = iac
  · rw [if_pos doubled]
    refine returns (takes le_rfl (by omega) ?_)
    rw [doubled]
    exact .literal rest _
  rw [if_neg doubled]
  by_cases there : code = ayt
  · have command : Turn ts.front (iac :: code :: rest) rest [] :=
      .command rest (by rw [there]; decide) (by rw [there]; decide)
    rw [if_pos there]
    by_cases nothing : (ts.putBack off).size2 = 0
    · obtain ⟨buf2, stores, buf2', stores', ring⟩ := answers_ayt ts.buf2
      rw [if_pos nothing]
      have first : (ts.putBack off).buf2.store 0 [iac] = .ok buf2 := stores
      rw [first, ok_bind, stores', ok_bind]
      have ends := takes_sequence
        (t := { ts.putBack off with buf2 := buf2', wridx2 := 0, rdidx2 := 2, size2 := 2 })
        ring1 same (by omega) (by omega : 2 ≤ ts.front + off) rfl rfl rfl rfl rfl ring
        (.inr ⟨nothing, rfl⟩) (by rw [queue]; exact command)
      obtain ⟨ts', rc', consumed, ends⟩ := ends
      exact ⟨ts', rc', [], consumed, ends⟩
    · rw [if_neg nothing]
      exact returns (takes le_rfl (by omega) command)
  rw [if_neg there]
  by_cases short : 240 ≤ code ∧ code ≤ 249
  · rw [if_pos short]
    exact returns (takes le_rfl (by omega) (.command rest short.1 short.2))
  rw [if_neg short]
  have option {after : List UInt8} : Turn ts.front (iac :: code :: rest) after [] :=
    .option short doubled fun _ mem => absurd mem List.not_mem_nil
  by_cases incomplete : wr ≤ 2
  · rw [if_pos incomplete]
    exact returns (takes le_rfl (by omega) option)
  rw [if_neg incomplete]
  by_cases sub : code = sb
  · rw [if_pos sub, byte (i := 2) (by omega) (by omega) (by omega), ok_bind]
    by_cases naws : (iac :: code :: rest).getD 2 0 = teloptNaws
    · rw [if_pos naws]
      by_cases cut : wr ≤ 6
      · rw [if_pos cut]
        exact returns (takes (by omega) (by omega) option)
      · rw [if_neg cut, byte (i := 3) (by omega) (by omega) (by omega), ok_bind,
          byte (i := 4) (by omega) (by omega) (by omega), ok_bind,
          byte (i := 5) (by omega) (by omega) (by omega), ok_bind,
          byte (i := 6) (by omega) (by omega) (by omega), ok_bind]
        refine returns (takes (by omega) (by omega) (.option short doubled fun e mem => ?_))
        exact ⟨_, _, List.mem_singleton.mp mem⟩
    · rw [if_neg naws]
      exact returns (takes (by omega) (by omega) option)
  · rw [if_neg sub]
    exact returns (takes (by omega) (by omega) option)

/-- Where `memchr` finds a byte, and that it is not before. -/
theorem memchr_cases (bytes : List UInt8) (c : UInt8) :
    bytes.idxOf? c = none ∧ c ∉ bytes ∨
      ∃ before after, bytes = before ++ c :: after ∧ c ∉ before ∧
        bytes.idxOf? c = some before.length := by
  induction bytes with
  | nil => exact .inl ⟨rfl, List.not_mem_nil⟩
  | cons b bytes ih =>
    by_cases found : b = c
    · exact .inr ⟨[], bytes, by rw [found]; rfl, List.not_mem_nil, by
        rw [List.idxOf?_cons, if_pos (beq_iff_eq.mpr found)]; rfl⟩
    have next : (b :: bytes).idxOf? c = (bytes.idxOf? c).map (· + 1) := by
      rw [List.idxOf?_cons, if_neg (by rwa [beq_iff_eq])]
    rcases ih with ⟨missing, absent⟩ | ⟨before, after, split, absent, there⟩
    · refine .inl ⟨by rw [next, missing]; rfl, ?_⟩
      rw [List.mem_cons, not_or]
      exact ⟨Ne.symm found, absent⟩
    · refine .inr ⟨b :: before, after, by rw [split]; rfl, ?_, by rw [next, there]; rfl⟩
      rw [List.mem_cons, not_or]
      exact ⟨Ne.symm found, absent⟩

/-- The front of the queue up to the first IAC. -/
theorem prefix_cases {items : List UInt8} {front : ℕ} (positive : front ≠ 0)
    (least : front ≤ items.length) (other : (items.take front).idxOf? iac ≠ some 0) :
    ∃ n : ℕ, (((items.take front).idxOf? iac).elim (front : ℤ) fun found => (found : ℤ)) = n ∧
      n ≠ 0 ∧ n ≤ front ∧ iac ∉ items.take n ∧ (n = front ∨ items[n]? = some iac) := by
  have length : (items.take front).length = front := List.length_take_of_le least
  rcases memchr_cases (items.take front) iac with
    ⟨missing, absent⟩ | ⟨before, after, split, absent, there⟩
  · exact ⟨front, by rw [missing]; rfl, positive, le_rfl, absent, .inl rfl⟩
  · have shorter : before.length < front := by
      rw [← length, split, List.length_append, List.length_cons]
      omega
    have whole : items = before ++ iac :: (after ++ items.drop front) := by
      rw [← List.cons_append, ← List.append_assoc, ← split, List.take_append_drop]
    refine ⟨before.length, by rw [there]; rfl, fun zero => other ?_, by omega, ?_, .inr ?_⟩
    · rw [there, zero]
    · rw [whole, List.take_left]
      exact absent
    · rw [whole, List.getElem?_append_right le_rfl, Nat.sub_self]
      rfl

/-- A prefix up to and with the first CR. -/
theorem line_cases {text : List UInt8} (nonempty : text ≠ []) :
    ∃ n : ℕ, ((text.idxOf? cr).elim (text.length : ℤ) fun found => (found : ℤ) + 1) = n ∧
      n ≠ 0 ∧ n ≤ text.length ∧ cr ∉ (text.take n).dropLast := by
  rcases memchr_cases text cr with ⟨missing, absent⟩ | ⟨before, after, split, absent, there⟩
  · refine ⟨text.length, by rw [missing]; rfl, ?_, le_rfl, fun mem => ?_⟩
    · exact fun zero => nonempty (List.length_eq_zero_iff.mp zero)
    · rw [List.take_length] at mem
      exact absent (List.dropLast_subset _ mem)
  · have upTo : text.take (before.length + 1) = before ++ [cr] := by
      rw [split, List.take_length_add_append]
      rfl
    refine ⟨before.length + 1, by rw [there]; rfl, by omega, ?_, ?_⟩
    · rw [split, List.length_append, List.length_cons]
      omega
    · rw [upTo, List.dropLast_concat]
      exact absent

/-- The byte behind the last one written is eaten if that is a CR, and it is available. -/
theorem eatsNext_spec (ring1 : Ring ts.buf1 ts.rdidx1 ts.wridx1 ts.size1 items) {rc wr : ℕ}
    (sent : rc ≠ 0) (available : wr ≤ ts.front) :
    ∃ eats, eatsNext ts ts.wridx1 rc wr = .ok eats ∧
      (eats = true ↔ rc < wr ∧ items[rc - 1]? = some cr ∧ ∃ d, items[rc]? = some d ∧ Eaten d) := by
  have wridx := ring1.wridx
  have frontEq := ring1.front_eq
  have fewer := run_le bufsize ts.wridx1.toNat items.length
  have there {i : ℕ} (less : i < wr) : items[i]? = some (items.getD i 0) := by
    rw [List.getD_eq_getElem?_getD, List.getElem?_eq_getElem (by omega)]
    rfl
  unfold eatsNext
  by_cases more : rc < wr
  · rw [if_pos (by omega), there more, there (by omega : rc - 1 < wr),
      byte_queue ring1.queue (i := rc - 1) (by omega) (by omega), ok_bind]
    by_cases last : items.getD (rc - 1) 0 = cr
    · rw [if_pos last, byte_queue ring1.queue (i := rc) (by omega) (by omega), ok_bind]
      refine ⟨_, rfl, ?_⟩
      rw [Bool.or_eq_true, decide_eq_true_eq, decide_eq_true_eq]
      constructor
      · exact fun eaten => ⟨more, congrArg some last, _, rfl, eaten⟩
      · rintro ⟨-, -, d, same, eaten⟩
        rw [Option.some.inj same]
        exact eaten
    · rw [if_neg last]
      refine ⟨false, rfl, iff_of_false Bool.false_ne_true ?_⟩
      exact fun ⟨_, same, _⟩ => last (Option.some.inj same)
  · rw [if_neg (by omega)]
    exact ⟨false, rfl, iff_of_false Bool.false_ne_true fun ⟨less, _⟩ => more less⟩

/-- A text without IACs is written, or a part of it, up to a CR at most. -/
theorem text_spec (ring1 : Ring ts.buf1 ts.rdidx1 ts.wridx1 ts.size1 items)
    (ring2 : Ring ts.buf2 ts.rdidx2 ts.wridx2 ts.size2 items2)
    (flag : ts.bufferedIacForPty = false) {wr rc k : ℕ} (available : wr ≤ ts.front)
    (plain : iac ∉ items.take wr) (ends : wr = ts.front ∨ items[wr]? = some iac)
    (within : rc ≤ wr) (line : cr ∉ (items.take rc).dropLast) (sent : k ≠ 0) (fewer : k ≤ rc) :
    ∃ ts' rc' io consumed, (do
        let eats ← eatsNext ts ts.wridx1 k wr
        updateAndReturn ts (if eats then k + 1 else k) [.toPty (items.take rc) (.count k)]) =
        .ok (ts', rc', io) ∧ Decoded ts ts' items consumed io := by
  have least : ts.front ≤ items.length := ring1.front_eq ▸ run_le ..
  have queue : ts.queue items = items := by
    unfold Tsession.queue
    rw [flag]
    rfl
  have takes {n : ℕ} (most : n ≤ ts.front)
      (turn : Turn ts.front items (items.drop n) [.toPty (items.take rc) (.count k)]) :
      ∃ ts' rc' io consumed,
        updateAndReturn ts n [.toPty (items.take rc) (.count k)] = .ok (ts', rc', io) ∧
          Decoded ts ts' items consumed io := by
    obtain ⟨ts', rc', consumed, taken⟩ := takes_sequence (t := ts) ring1 rfl
      (Nat.zero_le n) most flag rfl rfl (sub_zero _).symm (add_zero _).symm ring2 (.inl rfl)
      (by rw [queue]; exact turn)
    exact ⟨ts', rc', _, consumed, taken⟩
  have length : (items.take k).length = k := List.length_take_of_le (by omega)
  have part : (items.take rc).take k = items.take k := by
    rw [List.take_take, min_eq_left fewer]
  have plain' : iac ∉ items.take k := fun mem =>
    plain (List.take_subset_take_left _ (by omega) mem)
  have before {n : ℕ} (most : n ≤ items.length) : (items.take n).dropLast = items.take (n - 1) := by
    rw [List.dropLast_eq_take, List.length_take_of_le most, List.take_take,
      min_eq_left (Nat.sub_le ..)]
  have line' : cr ∉ items.take (k - 1) := by
    intro mem
    rw [before (by omega)] at line
    exact line (List.take_subset_take_left _ (by omega) mem)
  have last : (items.take k).getLast? = items[k - 1]? := by
    rw [List.getLast?_eq_getElem?, length, List.getElem?_take_of_lt (by omega)]
  obtain ⟨eats, reads, iff⟩ := eatsNext_spec ring1 sent available
  rw [reads, ok_bind]
  cases eats with
  | true =>
    obtain ⟨more, ended, d, next, eaten⟩ := iff.mp rfl
    have behind : items.drop k = d :: items.drop (k + 1) := by
      obtain ⟨within, rfl⟩ := List.getElem?_eq_some_iff.mp next
      exact List.drop_eq_getElem_cons within
    have upTo : items.take k = items.take (k - 1) ++ [cr] := by
      rw [← last, List.getLast?_eq_some_iff] at ended
      obtain ⟨low, same⟩ := ended
      have low' := before (by omega : k ≤ items.length)
      rw [same, List.dropLast_concat] at low'
      rw [← low', same]
    have shorter : (items.take (k - 1)).length + 1 = k := by
      rw [List.length_take_of_le (by omega)]
      omega
    have turn := @Turn.pair ts.front (items.take (k - 1)) (items.drop (k + 1)) (items.take rc) d
      (fun mem => plain' (List.take_subset_take_left _ (Nat.sub_le ..) mem)) line' eaten
      (by rw [shorter, part, upTo])
    have whole : items = items.take (k - 1) ++ cr :: d :: items.drop (k + 1) := by
      rw [← behind, List.append_cons, ← upTo, List.take_append_drop]
    rw [if_pos rfl]
    refine takes (by omega) ?_
    rw [shorter, ← whole] at turn
    exact turn
  | false =>
    rw [if_neg Bool.false_ne_true]
    refine takes (by omega) ?_
    have turn := @Turn.text ts.front (items.take k) (items.drop k) (items.take rc)
      (fun none => sent (by rw [← length, none]; rfl)) plain' (by rwa [before (by omega)]) ?_
      (by rw [length]; exact part)
    · rw [List.take_append_drop, length] at turn
      exact turn
    · intro ended
      rw [last] at ended
      rw [length, List.head?_drop]
      by_cases more : k < wr
      · refine .inr fun d next eaten => Bool.false_ne_true (iff.mpr ⟨more, ended, d, next, eaten⟩)
      · rcases ends with whole | other
        · exact .inl (by omega)
        · refine .inr fun d next eaten => ?_
          have same : k = wr := by omega
          rw [same, other] at next
          rw [← Option.some.inj next] at eaten
          rcases eaten with eaten | eaten <;> exact absurd eaten (by decide)

/-- Only the single IAC is there. -/
theorem dangles_spec {rest : List UInt8}
    (ring1 : Ring ts.buf1 ts.rdidx1 ts.wridx1 ts.size1 (iac :: rest))
    (ring2 : Ring ts.buf2 ts.rdidx2 ts.wridx2 ts.size2 items2)
    (flag : ts.bufferedIacForPty = false) (available : 1 ≤ ts.front) :
    ∃ ts' rc io consumed,
      updateAndReturn { ts with bufferedIacForPty := true } 1 [] = .ok (ts', rc, io) ∧
        Decoded ts ts' (iac :: rest) consumed io := by
  have wridx := ring1.wridx
  have index : ts.wridx1 + (1 : ℕ) = ts.wridx1.toNat + (1 : ℕ) := by omega
  have left : ts.size1 - (1 : ℕ) = (iac :: rest).length - (1 : ℕ) := by rw [ring1.size]
  obtain ⟨ts', returns, taken⟩ := @updateAndReturn_spec { ts with bufferedIacForPty := true } _ _
    ring1.queue ring1.rdidx _ _ index left (by rw [← ring1.front_eq]; exact available) []
  refine ⟨ts', _, [], 1, returns, taken.ring, ⟨items2, ?_⟩, .inl taken.size2, ?_, ?_⟩
  · rw [taken.buf2, taken.rdidx2, taken.wridx2, taken.size2]
    exact ring2
  · rw [ring1.front_eq]
    exact taken.front
  · have before : ts.queue (iac :: rest) = iac :: rest := by
      unfold Tsession.queue
      rw [flag]
      rfl
    have after : ts'.queue rest = iac :: rest := if_pos taken.flag
    rw [before, List.drop_one, List.tail_cons, after]
    exact .waits _

theorem decode_spec (ring1 : Ring ts.buf1 ts.rdidx1 ts.wridx1 ts.size1 items)
    (ring2 : Ring ts.buf2 ts.rdidx2 ts.wridx2 ts.size2 items2) (nonempty : items ≠ [])
    (answer : Written) :
    ∃ ts' rc io consumed, safeWriteToPtyDecodeIac ts answer = .ok (ts', rc, io) ∧
      Decoded ts ts' items consumed io := by
  have wridx := ring1.wridx
  have inside := ring1.queue.inside
  have fits := ring1.queue.fits
  have size := ring1.size
  have frontEq := ring1.front_eq
  have small : bufsize < 2 ^ 31 := by decide
  have positive : items.length ≠ 0 := fun zero => nonempty (List.length_eq_zero_iff.mp zero)
  unfold CircularBuffer.run at frontEq
  have least : ts.front ≤ items.length := by omega
  have wr : min (bufsize - ts.wridx1) ts.size1 % 2 ^ 32 = ts.front := by
    rw [Int.emod_eq_of_lt (by omega) (by omega)]
    omega
  have loads {n : ℕ} (most : n ≤ ts.front) :
      ts.buf1.load ts.wridx1 n = .ok (items.take n) := by
    rw [ring1.front_eq] at most
    have loaded := load_queue ring1.queue most
    rwa [Int.toNat_of_nonneg wridx] at loaded
  unfold safeWriteToPtyDecodeIac
  rw [wr]
  dsimp only
  cases flag : ts.bufferedIacForPty with
  | true =>
    obtain ⟨d, rest, rfl⟩ := List.exists_cons_of_ne_nil nonempty
    rw [if_pos rfl, Int.emod_eq_of_lt (by omega) (by omega)]
    have queue : ts.queue (d :: rest) = iac :: d :: rest := if_pos flag
    exact handleIac_spec ring1 ring2 (le_refl 1) rfl queue (by omega) (by omega) (by omega)
      answer
  | false =>
    have queue : ts.queue items = items := by
      unfold Tsession.queue
      rw [flag]
      rfl
    rw [if_neg Bool.false_ne_true, loads le_rfl, ok_bind]
    by_cases text : (items.take ts.front).idxOf? iac ≠ some 0
    · obtain ⟨n, found, some, most, plain, ends⟩ := prefix_cases (by omega) least text
      have length : (items.take n).length = n := List.length_take_of_le (by omega)
      obtain ⟨m, foundCr, some', most', line⟩ :=
        line_cases fun none => some (length.symm.trans (congrArg List.length none))
      rw [length] at foundCr most'
      rw [List.take_take, min_eq_left most'] at line
      have stays {data : List UInt8} {rc : Written} (nothing : rc.taken = 0) :
          Decoded ts ts items 0 [.toPty data rc] :=
        ⟨ring1, ⟨items2, ring2⟩, .inl rfl, fun _ => rfl, .refused _ data nothing⟩
      rw [if_pos text, found, loads most, ok_bind, foundCr, loads (by omega), ok_bind]
      cases answer with
      | error errno => exact ⟨ts, _, _, 0, rfl, stays rfl⟩
      | count k =>
        have length' : (items.take m).length = m := List.length_take_of_le (by omega)
        unfold safeWrite
        dsimp only
        rw [length']
        cases sent : min k m with
        | zero => exact ⟨ts, _, _, 0, rfl, stays rfl⟩
        | succ k' =>
          exact text_spec ring1 ring2 flag most plain ends most' line (Nat.succ_ne_zero k')
            (by omega)
    · rw [if_neg text]
      rw [not_not] at text
      obtain ⟨d, rest, rfl⟩ := List.exists_cons_of_ne_nil nonempty
      have first : d = iac := by
        rcases memchr_cases ((d :: rest).take ts.front) iac with
          ⟨missing, -⟩ | ⟨before, after, split, -, there⟩
        · rw [missing] at text
          cases text
        · have none : before = [] :=
            List.length_eq_zero_iff.mp (Option.some.inj (there.symm.trans text))
          obtain ⟨front, isSucc⟩ := Nat.exists_eq_succ_of_ne_zero (by omega : ts.front ≠ 0)
          rw [none, isSucc, List.take_succ_cons] at split
          exact (List.cons.inj split).1
      subst first
      by_cases single : (ts.front : ℤ) ≤ 1
      · rw [if_pos single]
        exact dangles_spec ring1 ring2 flag (by omega)
      · rw [if_neg single]
        cases rest with
        | nil =>
          rw [List.length_singleton] at least
          omega
        | cons code rest =>
          have same : ts.putBack 0 = ts := by
            unfold Tsession.putBack
            rw [← flag, Nat.cast_zero, add_zero, sub_zero]
          have handled := handleIac_spec ring1 ring2 (Nat.zero_le 1) rfl queue
            (add_zero _) (add_zero _).symm (by omega : (2 : ℤ) ≤ ts.front) answer
          rw [same] at handled
          exact handled

end Sequences

end Busybox.Telnetd
