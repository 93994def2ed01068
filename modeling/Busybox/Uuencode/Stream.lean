import Busybox.Uuencode.Groups
import Mathlib.Data.List.Count

/-!
# Base 64 from a stream

Wherever the stream is cut, by a line end or by a full buffer, what `read_base64`
has written and what it carries over decode to what the text decodes to at once.
-/

namespace Busybox.Uuencode

/-- A text of characters of the table, the termination character among them. -/
def Base64Text (text : List UInt8) : Prop := ∀ ch ∈ text, ch ∈ uuencTblBase64

/-- A text without its line ends. -/
def unwrapped (text : List UInt8) : List UInt8 := text.filter (· ≠ 10)

theorem tablePtr_isSome : ∀ ch ∈ uuencTblBase64, (tablePtr ch).isSome := by decide +kernel

theorem uuencTblBase64_printable : ∀ ch ∈ uuencTblBase64, ¬ ch ≤ 32 := by decide +kernel

theorem Base64Text.suffix {text rest : List UInt8} (valid : Base64Text text)
    (suffix : rest <:+ text) : Base64Text rest :=
  fun ch member => valid ch (suffix.subset member)

/-- Text that runs out has been fetched value by value. -/
theorem fetch_nul_length {sixBit six : List Nat} {text : List UInt8} (valid : Base64Text text)
    (fetched : fetch sixBit text = .nul six) :
    six.length = sixBit.length + text.length ∧ six.length < 4 := by
  induction text generalizing sixBit with
  | nil =>
    rw [fetch] at fetched
    split at fetched
    · cases fetched
      exact ⟨rfl, ‹_›⟩
    · cases fetched
  | cons ch text ih =>
    obtain ⟨index, found⟩ := Option.isSome_iff_exists.1 (tablePtr_isSome ch (valid ch (List.mem_cons_self ..)))
    rw [fetch, found] at fetched
    split at fetched
    · by_cases terminator : index = 64
      · simp [terminator] at fetched
      · have next := ih (valid.suffix (List.suffix_cons ch text))
          (by simpa [terminator] using fetched)
        simp only [List.length_append, List.length_cons, List.length_nil] at next ⊢
        omega
    · cases fetched

theorem fetch_values_append {sixBit six : List Nat} {text rest : List UInt8}
    (fetched : fetch sixBit text = .values six rest) (src : List UInt8) :
    fetch sixBit (text ++ src) = .values six (rest ++ src) ∧ rest <:+ text := by
  induction text generalizing sixBit with
  | nil =>
    rw [fetch] at fetched
    split at fetched
    · cases fetched
    · rename_i full
      cases fetched
      exact ⟨fetch_full (Nat.not_lt.1 full) src, List.suffix_refl _⟩
  | cons ch text ih =>
    rw [List.cons_append, fetch]
    rw [fetch] at fetched
    split at fetched
    · rename_i room
      rw [if_pos room]
      cases found : tablePtr ch with
      | none =>
        obtain ⟨next, suffix⟩ := ih (by simpa [found] using fetched)
        exact ⟨next, suffix.trans (List.suffix_cons ch text)⟩
      | some index =>
        by_cases terminator : index = 64
        · simp only [found, terminator, if_true, Fetched.values.injEq] at fetched
          simp [terminator, fetched]
        · obtain ⟨next, suffix⟩ := ih (by simpa [found, terminator] using fetched)
          exact ⟨by simpa [terminator] using next, suffix.trans (List.suffix_cons ch text)⟩
    · rename_i full
      cases fetched
      rw [if_neg full]
      exact ⟨rfl, List.suffix_refl _⟩

/-- What is left undecoded is less than a group, and with more text behind it
it decodes to the rest. -/
theorem decodeBase64_carry {text : List UInt8} (valid : Base64Text text) :
    (decodeBase64 text).2 <:+ text ∧ (decodeBase64 text).2.length < 4 ∧
      ∀ src, decodeBase64 (text ++ src) =
        ((decodeBase64 text).1 ++ (decodeBase64 ((decodeBase64 text).2 ++ src)).1,
          (decodeBase64 ((decodeBase64 text).2 ++ src)).2) := by
  induction text using decodeBase64.induct with
  | case1 text six fetched =>
    have size := fetch_nul_length valid fetched
    rw [decodeBase64_nul fetched]
    by_cases none : six = []
    · have empty : text = [] := by
        rw [none] at size
        exact List.length_eq_zero_iff.1 (by simpa using size.1.symm)
      simp [none, empty]
    · rw [if_neg none]
      refine ⟨List.suffix_refl _, ?_, fun src => rfl⟩
      change text.length < 4
      simp only [List.length_nil, Nat.zero_add] at size
      omega
  | case2 text six rest fetched shorter ih =>
    have suffix := (fetch_values_append fetched []).2
    obtain ⟨carried, short, decoded⟩ := ih (valid.suffix suffix)
    rw [decodeBase64_values fetched]
    refine ⟨carried.trans suffix, short, fun src => ?_⟩
    rw [decodeBase64_values (fetch_values_append fetched src).1, decoded src, List.append_assoc]

/-- The loop around a buffer that has been filled. -/
theorem readBase64_eq (flags : BitVec 32) (inBuf stream : List UInt8) :
    readBase64 flags inBuf stream =
      match fillBuffer (exitChar flags) inBuf stream with
      | .exit => ⟨[], .finished⟩
      | .terminated inBuf =>
        if uuStyleEnd flags ∧ inBuf = ascii "====" then ⟨[], .finished⟩
        else if (decodeBase64 inBuf).2 = [] then ⟨(decodeBase64 inBuf).1, .finished⟩
        else ⟨(decodeBase64 inBuf).1, .died "truncated base64 input"⟩
      | .partly inBuf stream =>
        if uuStyleEnd flags ∧ inBuf = ascii "====" then ⟨[], .finished⟩
        else if (decodeBase64 inBuf).2.length < bufferSize then
          (readBase64 flags (decodeBase64 inBuf).2 stream).behind (decodeBase64 inBuf).1
        else ⟨(decodeBase64 inBuf).1, .hangs⟩ := by
  rw [readBase64]
  split <;> (rename_i filled; simp only [filled])
  rfl

@[simp] theorem Decoding.behind_nil (decoding : Decoding) : decoding.behind [] = decoding := rfl

@[simp] theorem Decoding.behind_behind (first second : List UInt8) (decoding : Decoding) :
    (decoding.behind second).behind first = decoding.behind (first ++ second) :=
  Decoding.ext (List.append_assoc ..).symm rfl

/-- Text in the buffer that is no "====" line. -/
structure Buffered (inBuf : List UInt8) : Prop where
  valid : Base64Text inBuf
  few : inBuf.count 61 ≤ 3

theorem Buffered.suffix {inBuf rest : List UInt8} (buffered : Buffered inBuf)
    (suffix : rest <:+ inBuf) : Buffered rest :=
  ⟨buffered.valid.suffix suffix, Nat.le_trans (suffix.sublist.count_le 61) buffered.few⟩

theorem Buffered.front {inBuf rest : List UInt8} (buffered : Buffered (inBuf ++ rest)) :
    Buffered inBuf :=
  ⟨fun ch member => buffered.valid ch (List.mem_append_left _ member),
    Nat.le_trans ((List.sublist_append_left inBuf rest).count_le 61) buffered.few⟩

theorem Buffered.ne_end {inBuf : List UInt8} (buffered : Buffered inBuf) :
    inBuf ≠ ascii "====" := by
  rintro rfl
  exact absurd buffered.few (by decide)

/-- A piece is written as far as it is decoded, and the rest is carried over. -/
theorem readBase64_partly {flags : BitVec 32} {inBuf inBuf' stream stream' : List UInt8}
    (filled : fillBuffer (exitChar flags) inBuf stream = .partly inBuf' stream')
    (buffered : Buffered inBuf') :
    readBase64 flags inBuf stream =
      (readBase64 flags (decodeBase64 inBuf').2 stream').behind (decodeBase64 inBuf').1 := by
  have short : (decodeBase64 inBuf').2.length < bufferSize :=
    Nat.lt_trans (decodeBase64_carry buffered.valid).2.1 (by decide)
  rw [readBase64_eq, filled]
  simp only [buffered.ne_end, and_false, if_false, short, if_true]

/-- A line end: what stands before it is decoded. -/
theorem readBase64_newline {flags : BitVec 32} (noExit : exitChar flags < 0)
    {inBuf : List UInt8} (room : inBuf.length < bufferSize) (buffered : Buffered inBuf)
    (stream : List UInt8) :
    readBase64 flags inBuf (10 :: stream) =
      (readBase64 flags (decodeBase64 inBuf).2 stream).behind (decodeBase64 inBuf).1 := by
  apply readBase64_partly _ buffered
  have other : ((10 : UInt8).toNat : Int) ≠ exitChar flags := by
    change (10 : Int) ≠ _
    omega
  rw [fillBuffer, if_pos room, if_neg other, if_pos (by decide)]

/-- A character of the text goes into the buffer. -/
theorem readBase64_char {flags : BitVec 32} (noExit : exitChar flags < 0)
    {inBuf : List UInt8} (room : inBuf.length < bufferSize) {ch : UInt8}
    (valid : ch ∈ uuencTblBase64) (stream : List UInt8) :
    readBase64 flags inBuf (ch :: stream) = readBase64 flags (inBuf ++ [ch]) stream := by
  have other : (ch.toNat : Int) ≠ exitChar flags := by omega
  rw [readBase64_eq, fillBuffer, if_pos room, if_neg other,
    if_neg (uuencTblBase64_printable ch valid), ← readBase64_eq]

theorem fillBuffer_full {exitChar : Int} {inBuf : List UInt8} (full : bufferSize ≤ inBuf.length)
    (stream : List UInt8) : fillBuffer exitChar inBuf stream = .partly inBuf stream := by
  cases stream <;> simp [fillBuffer, Nat.not_lt.2 full]

/-- What is read of a text, with `stream` behind it: the bytes that are written and the
carried characters decode to what the text decodes to, whatever comes next. -/
def Reads (flags : BitVec 32) (inBuf text stream : List UInt8) : Prop :=
  ∃ written carried, carried.length < bufferSize ∧ Buffered carried ∧
    readBase64 flags inBuf (text ++ stream) = (readBase64 flags carried stream).behind written ∧
    ∀ src, decodeBase64 (inBuf ++ unwrapped text ++ src) =
      (written ++ (decodeBase64 (carried ++ src)).1, (decodeBase64 (carried ++ src)).2)

/-- After a cut the text is read with the carried characters in front. -/
theorem Reads.cut {flags : BitVec 32} {inBuf piece text stream : List UInt8} {ch : UInt8}
    (whole : Buffered (piece ++ unwrapped text))
    (same : inBuf ++ unwrapped (ch :: text) = piece ++ unwrapped text)
    (flushed : readBase64 flags inBuf (ch :: (text ++ stream)) =
      (readBase64 flags (decodeBase64 piece).2 (text ++ stream)).behind (decodeBase64 piece).1)
    (next : ∀ {carried}, carried.length < bufferSize → Buffered (carried ++ unwrapped text) →
      Reads flags carried text stream) :
    Reads flags inBuf (ch :: text) stream := by
  obtain ⟨suffix, short, decoded⟩ := decodeBase64_carry whole.front.valid
  obtain ⟨front, split⟩ := suffix
  have later : Buffered ((decodeBase64 piece).2 ++ unwrapped text) := by
    refine whole.suffix ⟨front, ?_⟩
    rw [← List.append_assoc, split]
  obtain ⟨written, carried, room, buffered, reads, decodes⟩ :=
    next (Nat.lt_trans short (by decide)) later
  refine ⟨(decodeBase64 piece).1 ++ written, carried, room, buffered, ?_, ?_⟩
  · rw [List.cons_append, flushed, reads, Decoding.behind_behind]
  · intro src
    rw [same, List.append_assoc, decoded, ← List.append_assoc, decodes, List.append_assoc]

/-- A text is read so however it is wrapped. -/
theorem readBase64_run {flags : BitVec 32} (noExit : exitChar flags < 0)
    {inBuf text : List UInt8} (room : inBuf.length < bufferSize)
    (buffered : Buffered (inBuf ++ unwrapped text)) (stream : List UInt8) :
    Reads flags inBuf text stream := by
  induction text generalizing inBuf with
  | nil =>
    rw [unwrapped, List.filter_nil, List.append_nil] at buffered
    exact ⟨[], inBuf, room, buffered, rfl, fun src => by simp [unwrapped]⟩
  | cons ch text ih =>
    by_cases newline : ch = 10
    · have same : unwrapped (ch :: text) = unwrapped text := by simp [unwrapped, newline]
      rw [same] at buffered
      refine Reads.cut buffered (by rw [same]) ?_ ih
      rw [newline]
      exact readBase64_newline noExit room buffered.front _
    · have same : inBuf ++ unwrapped (ch :: text) = inBuf ++ [ch] ++ unwrapped text := by
        simp [unwrapped, newline]
      rw [same] at buffered
      have next := readBase64_char noExit room (buffered.valid ch (by simp)) (text ++ stream)
      by_cases more : (inBuf ++ [ch]).length < bufferSize
      · obtain ⟨written, carried, short, rest, reads, decodes⟩ := ih more buffered
        rw [← same] at decodes
        exact ⟨written, carried, short, rest, next.trans reads, decodes⟩
      · refine Reads.cut buffered same ?_ ih
        rw [next]
        exact readBase64_partly (fillBuffer_full (Nat.not_lt.1 more) _) buffered.front

/-- A text that ends with a line is decoded up to there. -/
theorem readBase64_line {flags : BitVec 32} (noExit : exitChar flags < 0) {text : List UInt8}
    (buffered : Buffered (unwrapped text)) (stream : List UInt8) :
    readBase64 flags [] (text ++ 10 :: stream) =
      (readBase64 flags (decodeBase64 (unwrapped text)).2 stream).behind
        (decodeBase64 (unwrapped text)).1 := by
  obtain ⟨written, carried, room, rest, reads, decodes⟩ :=
    readBase64_run noExit (show ([] : List UInt8).length < bufferSize by decide) buffered
      (10 :: stream)
  have decoded := decodes []
  rw [List.nil_append, List.append_nil, List.append_nil] at decoded
  rw [reads, readBase64_newline noExit room rest, Decoding.behind_behind, decoded]

/-- A stream that stops where its text is decoded is decoded to its end. -/
theorem readBase64_stop {flags : BitVec 32} (noExit : exitChar flags < 0) {text : List UInt8}
    (buffered : Buffered (unwrapped text)) (complete : (decodeBase64 (unwrapped text)).2 = []) :
    readBase64 flags [] text = ⟨(decodeBase64 (unwrapped text)).1, .finished⟩ := by
  obtain ⟨written, carried, room, rest, reads, decodes⟩ :=
    readBase64_run noExit (show ([] : List UInt8).length < bufferSize by decide) buffered []
  have decoded := decodes []
  rw [List.nil_append, List.append_nil, List.append_nil] at decoded
  rw [decoded] at complete
  change (decodeBase64 carried).2 = [] at complete
  rw [List.append_nil] at reads
  rw [reads, decoded, readBase64_eq, fillBuffer, if_pos room]
  by_cases nothing : -1 = exitChar flags ∧ carried = []
  · simp [nothing, Decoding.behind]
  · simp only [if_neg nothing, rest.ne_end, and_false, if_false, complete, if_true]
    rfl

end Busybox.Uuencode
