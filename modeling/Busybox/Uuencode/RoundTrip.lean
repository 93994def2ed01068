import Busybox.Uuencode.Stream
import Mathlib.Data.List.TakeWhile

/-!
# Round trips

`base64 -d` decodes every wrapping of what `base64` writes, and `uudecode` what
`uuencode` writes in either table, as long as the header holds a name that
`uudecode` can read back.
-/

namespace Busybox.Uuencode

theorem bbUuencode_append (tbl : List UInt8) {front : List UInt8} (whole : front.length % 3 = 0)
    (src : List UInt8) :
    bbUuencode tbl (front ++ src) = bbUuencode tbl front ++ bbUuencode tbl src := by
  induction front using encodeGroups.induct with
  | case1 => rfl
  | case2 => simp at whole
  | case3 => simp at whole
  | case4 s0 s1 s2 rest ih =>
    have later : rest.length % 3 = 0 := by
      simp only [List.length_cons] at whole
      omega
    simp only [List.cons_append, bbUuencode_cons, ih later, List.append_assoc]

/-- Buffers of whole groups are encoded to what the source is encoded to. -/
theorem flatMap_bbUuencode (tbl : List UInt8) {size : Nat} (positive : size ≠ 0)
    (whole : size % 3 = 0) (src : List UInt8) :
    (buffers size src).flatMap (bbUuencode tbl) = bbUuencode tbl src := by
  induction src using buffers.induct size with
  | case1 src done =>
    rw [buffers, if_pos done, done.resolve_right positive]
    rfl
  | case2 src more ih =>
    rw [buffers, if_neg more, List.flatMap_cons, ih]
    by_cases last : src.length ≤ size
    · rw [List.take_of_length_le last, List.drop_of_length_le last, bbUuencode_nil, List.append_nil]
    · rw [← bbUuencode_append, List.take_append_drop]
      rw [List.length_take, Nat.min_eq_left (Nat.le_of_not_le last), whole]

theorem encodeGroups_mem {tbl src : List UInt8} {ch : UInt8} (member : ch ∈ encodeGroups tbl src) :
    ∃ bits < 64, ch = tbl.getD bits 0 := by
  have inGroup : ∀ {s0 s1 s2}, ch ∈ group tbl s0 s1 s2 → ∃ bits < 64, ch = tbl.getD bits 0 := by
    intro s0 s1 s2 inGroup
    obtain ⟨bits, inBits, rfl⟩ := List.mem_map.1 inGroup
    exact ⟨bits, sixBits_lt s0 s1 s2 bits inBits, rfl⟩
  induction src using encodeGroups.induct with
  | case1 => cases member
  | case2 => exact inGroup member
  | case3 => exact inGroup member
  | case4 s0 s1 s2 rest ih =>
    rcases List.mem_append.1 member with first | later
    · exact inGroup first
    · exact ih later

/-- Every character of an encoded text is one of the 65 of the table. -/
theorem bbUuencode_mem {tbl src : List UInt8} {ch : UInt8} (member : ch ∈ bbUuencode tbl src) :
    ∃ bits < 65, ch = tbl.getD bits 0 := by
  rcases List.mem_append.1 member with inGroups | padding
  · obtain ⟨bits, small, rfl⟩ := encodeGroups_mem (List.mem_of_mem_take inGroups)
    exact ⟨bits, Nat.lt_succ_of_lt small, rfl⟩
  · exact ⟨64, by decide, (List.mem_replicate.1 padding).2⟩

set_option maxRecDepth 4000 in
theorem bbUuencode_buffered (src : List UInt8) : Buffered (bbUuencode uuencTblBase64 src) := by
  constructor
  · intro ch member
    obtain ⟨bits, small, rfl⟩ := bbUuencode_mem member
    have every : ∀ bits < 65, uuencTblBase64.getD bits 0 ∈ uuencTblBase64 := by decide
    exact every bits small
  · have none : 61 ∉ (encodeGroups uuencTblBase64 src).take
        ((encodeGroups uuencTblBase64 src).length - missing src.length) := by
      intro member
      obtain ⟨bits, small, same⟩ := encodeGroups_mem (List.mem_of_mem_take member)
      have other : ∀ bits < 64, (61 : UInt8) ≠ uuencTblBase64.getD bits 0 := by decide
      exact other bits small same
    have padding : missing src.length ≤ 3 := by
      rw [missing]
      omega
    rw [bbUuencode, List.count_append, List.count_eq_zero.2 none, Nat.zero_add]
    exact Nat.le_trans List.count_le_length (by rw [List.length_replicate]; exact padding)

theorem decodeBase64_whole (src : List UInt8) :
    decodeBase64 (bbUuencode uuencTblBase64 src) = (src, []) := by
  have decoded := decodeBase64_bbUuencode src []
  rwa [decodeBase64_nil, List.append_nil, List.append_nil] at decoded

theorem unwrapped_bbUuencode (src : List UInt8) :
    unwrapped (bbUuencode uuencTblBase64 src) = bbUuencode uuencTblBase64 src := by
  have other : 10 ∉ uuencTblBase64 := by decide
  exact List.filter_eq_self.2 fun ch member =>
    decide_eq_true (ne_of_mem_of_not_mem ((bbUuencode_buffered src).valid ch member) other)

theorem unwrapped_append (front back : List UInt8) :
    unwrapped (front ++ back) = unwrapped front ++ unwrapped back := List.filter_append ..

theorem unwrapped_flatMap (lines : List (List UInt8)) (line : List UInt8 → List UInt8) :
    unwrapped (lines.flatMap line) = lines.flatMap fun buffer => unwrapped (line buffer) := by
  induction lines with
  | nil => rfl
  | cons buffer lines ih => rw [List.flatMap_cons, unwrapped_append, ih, List.flatMap_cons]

/-- What `base64` writes is the text of `bb_uuencode`, wrapped. -/
theorem unwrapped_base64Encode (src : List UInt8) :
    unwrapped (base64Encode src) = bbUuencode uuencTblBase64 src := by
  have newline : unwrapped (ascii "\n") = [] := by decide
  simp only [base64Encode, unwrapped_flatMap, unwrapped_append, unwrapped_bbUuencode, newline,
    List.append_nil]
  exact flatMap_bbUuencode _ (by decide) (by decide) src

theorem base64Decode_wrapped {src text : List UInt8}
    (same : unwrapped text = unwrapped (base64Encode src)) :
    base64Decode text = ⟨src, .finished⟩ := by
  rw [unwrapped_base64Encode] at same
  rw [base64Decode, readBase64_stop (by decide) (by rw [same]; exact bbUuencode_buffered src)
    (by rw [same, decodeBase64_whole]), same, decodeBase64_whole]

/-- Line ends before the lines are line ends behind them. -/
theorem flatMap_newline (lines : List (List UInt8)) (line : List UInt8 → List UInt8)
    (stream : List UInt8) :
    (lines.flatMap fun buffer => 10 :: line buffer) ++ 10 :: stream =
      10 :: ((lines.flatMap fun buffer => line buffer ++ [10]) ++ stream) := by
  induction lines with
  | nil => rfl
  | cons buffer lines ih =>
    simp only [List.flatMap_cons, List.append_assoc, List.cons_append, ih, List.nil_append]

theorem fgetline_append {line : List UInt8} (clean : ∀ ch ∈ line, ch ≠ 0 ∧ ch ≠ 10)
    (stream : List UInt8) : fgetline (line ++ 10 :: stream) = (line, stream) := by
  induction line with
  | nil => simp [fgetline]
  | cons ch line ih =>
    have here := clean ch (List.mem_cons_self ..)
    rw [List.cons_append, fgetline, if_neg (by simp [here]),
      ih fun c member => clean c (List.mem_cons_of_mem _ member)]

theorem octal_mem {mode : Nat} {ch : UInt8} (member : ch ∈ octal mode) :
    ch ≠ 0 ∧ ch ≠ 10 ∧ ch ≠ 32 := by
  have digit : ∀ value < 8, (48 + value).toUInt8 ≠ 0 ∧ (48 + value).toUInt8 ≠ 10 ∧
      (48 + value).toUInt8 ≠ 32 := by decide
  induction mode using octal.induct with
  | case1 mode small =>
    rw [octal, if_pos small] at member
    rw [List.mem_singleton.1 member]
    exact digit mode small
  | case2 mode large ih =>
    rw [octal, if_neg large] at member
    rcases List.mem_append.1 member with front | last
    · exact ih front
    · rw [List.mem_singleton.1 last]
      exact digit _ (Nat.mod_lt _ (by decide))

/-- The name of the header is found behind the mode. -/
theorem nameIn_octal (mode : Nat) (name : List UInt8) :
    nameIn (octal mode ++ 32 :: name) = if trim name = [] then none else some (trim name) := by
  have skipped : (octal mode ++ 32 :: name).dropWhile (· ≠ 32) = 32 :: name := by
    rw [List.dropWhile_append_of_pos fun ch member => decide_eq_true (octal_mem member).2.2]
    rfl
  rw [nameIn, skipped]

set_option maxRecDepth 4000 in
theorem sixBitChar_getD : ∀ bits < 64, (sixBitChar (uuencTblStd.getD bits 0)).toNat = bits := by
  decide

/-- A group as characters of a table, and what `merge` makes of the values that the
traditional table gives back for them. -/
theorem group_std (s0 s1 s2 : UInt8) :
    ∃ c0 c1 c2 c3, group uuencTblStd s0 s1 s2 = [c0, c1, c2, c3] ∧
      merge [(sixBitChar c0).toNat, (sixBitChar c1).toNat] = [s0] ∧
      merge [(sixBitChar c0).toNat, (sixBitChar c1).toNat, (sixBitChar c2).toNat] = [s0, s1] ∧
      merge [(sixBitChar c0).toNat, (sixBitChar c1).toNat, (sixBitChar c2).toNat,
        (sixBitChar c3).toNat] = [s0, s1, s2] := by
  have small := sixBits_lt s0 s1 s2
  have values : (group uuencTblStd s0 s1 s2).map (fun ch => (sixBitChar ch).toNat) =
      sixBits s0.toNat s1.toNat s2.toNat := by
    rw [group, List.map_map]
    exact (List.map_congr_left fun bits member => sixBitChar_getD bits (small bits member)).trans
      (List.map_id _)
  have merged := merge_sixBits s0 s1 s2
  rw [← values] at merged
  exact ⟨_, _, _, _, rfl, merged 1, merged 2, merged 3⟩

theorem decodeGroups_four (encodedLen : Nat) (c0 c1 c2 c3 : UInt8) (rest : List UInt8) :
    decodeGroups (encodedLen + 4) (c0 :: c1 :: c2 :: c3 :: rest) =
      merge [c0.toNat, c1.toNat, c2.toNat, c3.toNat] ++ decodeGroups encodedLen rest := rfl

/-- A line's bytes from its characters, when the number of bytes is in front of it. -/
theorem decodeGroups_bbUuencode (src : List UInt8) :
    decodeGroups (src.length * 4 / 3) ((bbUuencode uuencTblStd src).map sixBitChar) = src := by
  induction src using encodeGroups.induct with
  | case1 => rfl
  | case2 s0 =>
    obtain ⟨c0, c1, c2, c3, grouped, merged, -⟩ := group_std s0 0 0
    have size : [s0].length * 4 / 3 = 1 := by simp
    rw [bbUuencode_one, grouped, size]
    exact merged
  | case3 s0 s1 =>
    obtain ⟨c0, c1, c2, c3, grouped, -, merged, -⟩ := group_std s0 s1 0
    have size : [s0, s1].length * 4 / 3 = 2 := by simp
    rw [bbUuencode_two, grouped, size]
    exact merged
  | case4 s0 s1 s2 rest ih =>
    obtain ⟨c0, c1, c2, c3, grouped, -, -, merged⟩ := group_std s0 s1 s2
    have size : (s0 :: s1 :: s2 :: rest).length * 4 / 3 = rest.length * 4 / 3 + 4 := by
      simp only [List.length_cons]
      omega
    rw [bbUuencode_cons, grouped, size, List.map_append]
    simp only [List.map_cons, List.map_nil, List.cons_append, List.nil_append]
    rw [decodeGroups_four, merged, ih]
    rfl

theorem fgetsInternal_append {maxsz idx linebufsz : Nat} {line : List UInt8}
    (short : idx + line.length < maxsz) (clean : ∀ ch ∈ line, ch ≠ 10) (stream : List UInt8) :
    fgetsInternal maxsz idx linebufsz (line ++ 10 :: stream) = (line ++ [10], stream) := by
  induction line generalizing idx linebufsz with
  | nil =>
    rw [List.length_nil] at short
    rw [List.nil_append, fgetsInternal, if_neg (by omega), if_pos rfl]
    rfl
  | cons ch line ih =>
    rw [List.length_cons] at short
    have later := fun linebufsz => @ih (idx + 1) linebufsz (by omega)
      fun c member => clean c (List.mem_cons_of_mem _ member)
    rw [List.cons_append, fgetsInternal, if_neg (by omega), if_neg (clean ch (List.mem_cons_self ..))]
    simp only [later]
    rfl

theorem lineText_append {line : List UInt8} (clean : ∀ ch ∈ line, ch ≠ 10 ∧ ch ≠ 13 ∧ ch ≠ 0) :
    lineText (line ++ [10]) = line := by
  have stripped : (line ++ [10]).reverse.dropWhile (fun ch => ch = 10 ∨ ch = 13) = line.reverse := by
    rw [List.reverse_append]
    cases back : line.reverse with
    | nil => rfl
    | cons ch rest =>
      have inLine : ch ∈ line := by
        rw [← List.mem_reverse, back]
        exact List.mem_cons_self ..
      have kept := clean ch inLine
      simp [kept]
  rw [lineText, stripped, List.reverse_reverse]
  exact List.takeWhile_eq_self_iff.2 fun ch member => by simpa using (clean ch member).2.2

set_option maxRecDepth 4000 in
/-- One line of `uuencode` is read as the bytes it holds. -/
theorem readStduu_line {buffer : List UInt8} (nonempty : buffer ≠ []) (short : buffer.length ≤ 45)
    (stream : List UInt8) :
    readStduu (uuencTblStd.getD buffer.length 0 :: bbUuencode uuencTblStd buffer ++ 10 :: stream) =
      (readStduu stream).behind buffer := by
  have positive := List.length_pos_iff.2 nonempty
  have printed : ∀ bits < 65, uuencTblStd.getD bits 0 ≠ 10 ∧ uuencTblStd.getD bits 0 ≠ 13 ∧
      uuencTblStd.getD bits 0 ≠ 0 := by decide
  have notEnd : ∀ bits < 65, uuencTblStd.getD bits 0 ≠ 101 := by decide
  have clean : ∀ ch ∈ uuencTblStd.getD buffer.length 0 :: bbUuencode uuencTblStd buffer,
      ch ≠ 10 ∧ ch ≠ 13 ∧ ch ≠ 0 := by
    intro ch member
    rcases List.mem_cons.1 member with rfl | member
    · exact printed _ (by omega)
    · obtain ⟨bits, small, rfl⟩ := bbUuencode_mem member
      exact printed bits small
  have line : fgetsInternal (64 * 1024) 0 0
      (uuencTblStd.getD buffer.length 0 :: (bbUuencode uuencTblStd buffer ++ 10 :: stream)) =
        (uuencTblStd.getD buffer.length 0 :: bbUuencode uuencTblStd buffer ++ [10], stream) :=
    fgetsInternal_append (by rw [List.length_cons, bbUuencode_length]; omega)
      (fun ch member => (clean ch member).1) stream
  have first : (sixBitChar (uuencTblStd.getD buffer.length 0)).toNat = buffer.length :=
    sixBitChar_getD _ (by omega)
  have other : uuencTblStd.getD buffer.length 0 :: bbUuencode uuencTblStd buffer ≠ ascii "end" :=
    fun same => notEnd _ (by omega) (List.cons.inj same).1
  rw [List.cons_append, readStduu]
  simp only [line, lineText_append clean, if_neg other, List.map_cons, List.getD_cons_zero, first,
    List.length_cons, List.length_map, bbUuencode_length, List.drop_succ_cons, List.drop_zero,
    decodeGroups_bbUuencode]
  rw [if_neg (by omega), if_neg (by omega), if_neg (by omega)]

/-- The lines of `uuencode` up to the "end" line. -/
theorem readStduu_lines (src : List UInt8) :
    readStduu (((buffers 45 src).flatMap fun buffer =>
      uuencTblStd.getD buffer.length 0 :: bbUuencode uuencTblStd buffer ++ [10]) ++
        ascii "`\nend\n") = ⟨src, .finished⟩ := by
  induction src using buffers.induct 45 with
  | case1 src done =>
    rw [buffers, if_pos done, done.resolve_right (by decide)]
    decide +kernel
  | case2 src more ih =>
    have nonempty : src.take 45 ≠ [] := by
      simpa using (not_or.1 more).1
    rw [buffers, if_neg more, List.flatMap_cons, List.append_assoc, List.append_assoc,
      List.singleton_append, readStduu_line nonempty (List.length_take_le ..), ih]
    exact Decoding.ext (List.take_append_drop 45 src) rfl

theorem uudecodeMain_line {line : List UInt8} (clean : ∀ ch ∈ line, ch ≠ 0 ∧ ch ≠ 10)
    (outname : Option (List UInt8)) (stream : List UInt8) :
    uudecodeMain outname (line ++ 10 :: stream) =
      if (ascii "begin-base64 ").isPrefixOf line then
        match outname.orElse fun _ => nameIn (line.drop 13) with
        | none => .error "no 'begin' line"
        | some name => .ok (name, readBase64 0x180 [] stream)
      else if (ascii "begin ").isPrefixOf line then
        match outname.orElse fun _ => nameIn (line.drop 6) with
        | none => .error "no 'begin' line"
        | some name => .ok (name, readStduu stream)
      else uudecodeMain outname stream := by
  have next := fgetline_append clean stream
  cases whole : line ++ 10 :: stream with
  | nil => cases line <;> cases whole
  | cons ch rest =>
    rw [whole] at next
    rw [uudecodeMain]
    simp only [next] <;> rfl

/-- A name that a header line can carry, and that `uudecode` finds there unless `-o`
gives another one. -/
structure HeaderName (outname : Option (List UInt8)) (name : List UInt8) : Prop where
  oneLine : ∀ ch ∈ name, ch ≠ 0 ∧ ch ≠ 10
  named : outname = none → trim name ≠ []

theorem HeaderName.found {outname : Option (List UInt8)} {name : List UInt8}
    (header : HeaderName outname name) (mode : Nat) :
    (outname.orElse fun _ => nameIn (octal mode ++ 32 :: name)) =
      some (outname.getD (trim name)) := by
  cases outname with
  | none =>
    rw [nameIn_octal, if_neg (header.named rfl)]
    rfl
  | some _ => rfl

theorem clean_of_not_mem {text : List UInt8} (clean : 0 ∉ text ∧ 10 ∉ text) :
    ∀ ch ∈ text, ch ≠ 0 ∧ ch ≠ 10 := fun _ member =>
  ⟨ne_of_mem_of_not_mem member clean.1, ne_of_mem_of_not_mem member clean.2⟩

theorem header_clean {name : List UInt8} (oneLine : ∀ ch ∈ name, ch ≠ 0 ∧ ch ≠ 10)
    (base64 : Bool) (mode : Nat) : ∀ ch ∈ header base64 mode name, ch ≠ 0 ∧ ch ≠ 10 := by
  have front : ∀ ch ∈ ascii "begin" ++ (if base64 then ascii "-base64" else []) ++ ascii " ",
      ch ≠ 0 ∧ ch ≠ 10 := by
    apply clean_of_not_mem
    cases base64 <;> decide
  have space : ∀ ch ∈ ascii " ", ch ≠ 0 ∧ ch ≠ 10 := clean_of_not_mem (by decide)
  intro ch member
  rcases List.mem_append.1 member with member | inName
  · rcases List.mem_append.1 member with member | inSpace
    · rcases List.mem_append.1 member with inFront | inMode
      · exact front ch inFront
      · exact ⟨(octal_mem inMode).1, (octal_mem inMode).2.1⟩
    · exact space ch inSpace
  · exact oneLine ch inName

/-- The header is recognized and the rest of the stream decoded. -/
theorem uudecodeMain_header {outname : Option (List UInt8)} {name : List UInt8}
    (fit : HeaderName outname name) (base64 : Bool) (mode : Nat) (stream : List UInt8) :
    uudecodeMain outname (header base64 mode name ++ 10 :: stream) =
      .ok (outname.getD (trim name),
        if base64 then readBase64 0x180 [] stream else readStduu stream) := by
  rw [uudecodeMain_line (header_clean fit.oneLine base64 mode)]
  cases base64 with
  | true =>
    have shape : header true mode name = ascii "begin-base64 " ++ (octal mode ++ 32 :: name) := by
      have front : ascii "begin" ++ ascii "-base64" ++ ascii " " = ascii "begin-base64 " := by decide
      simp only [header, if_true, front, List.append_assoc]
      rfl
    have isFirst : (ascii "begin-base64 ").isPrefixOf (header true mode name) := by
      rw [shape, List.isPrefixOf_iff_prefix]
      exact List.prefix_append ..
    have linePtr : (header true mode name).drop 13 = octal mode ++ 32 :: name := by
      rw [shape]
      rfl
    rw [if_pos isFirst, linePtr, fit.found]
    rfl
  | false =>
    have shape : header false mode name = ascii "begin " ++ (octal mode ++ 32 :: name) := by
      have front : ascii "begin" ++ [] ++ ascii " " = ascii "begin " := by decide
      simp only [header, Bool.false_eq_true, if_false, front, List.append_assoc]
      rfl
    have other : ¬ (ascii "begin-base64 ").isPrefixOf (header false mode name) := by
      rw [shape]
      exact Bool.false_ne_true
    have isFirst : (ascii "begin ").isPrefixOf (header false mode name) := by
      rw [shape, List.isPrefixOf_iff_prefix]
      exact List.prefix_append ..
    have linePtr : (header false mode name).drop 6 = octal mode ++ 32 :: name := by
      rw [shape]
      rfl
    rw [if_neg other, if_pos isFirst, linePtr, fit.found]
    rfl

/-- The base 64 body between the header and the end of the "====" line. -/
theorem readBase64_lines (src stream : List UInt8)
    (body : (buffers 45 src).flatMap (encodedLine true) ++ ascii "\n====\n" = 10 :: stream) :
    readBase64 0x180 [] stream = ⟨src, .finished⟩ := by
  have noExit : exitChar 0x180 < 0 := by decide
  have newline : unwrapped (ascii "\n") = [] := by decide
  have same : unwrapped ((buffers 45 src).flatMap (encodedLine true)) =
      bbUuencode uuencTblBase64 src := by
    simp only [encodedLine, if_true, unwrapped_flatMap, unwrapped_append, unwrapped_bbUuencode,
      newline, List.nil_append]
    exact flatMap_bbUuencode _ (by decide) (by decide) src
  have whole := readBase64_newline noExit (show ([] : List UInt8).length < bufferSize by decide)
    ⟨fun ch member => (List.not_mem_nil member).elim, Nat.zero_le _⟩ stream
  have lines := readBase64_line noExit
    (by rw [same]; exact bbUuencode_buffered src) (ascii "====\n")
  have last : readBase64 0x180 [] (ascii "====\n") = ⟨[], .finished⟩ := by decide +kernel
  rw [decodeBase64_nil] at whole
  rw [same, decodeBase64_whole, last] at lines
  calc readBase64 0x180 [] stream = readBase64 0x180 [] (10 :: stream) := whole.symm
    _ = readBase64 0x180 [] ((buffers 45 src).flatMap (encodedLine true) ++ 10 :: ascii "====\n") :=
      congrArg _ body.symm
    _ = ⟨src, .finished⟩ := lines.trans (Decoding.ext (List.append_nil src) rfl)

theorem uudecodeMain_uuencodeMain {outname : Option (List UInt8)} {name : List UInt8}
    (fit : HeaderName outname name) (base64 : Bool) (mode : Nat) (src : List UInt8) :
    uudecodeMain outname (uuencodeMain base64 mode name src) =
      .ok (outname.getD (trim name), ⟨src, .finished⟩) := by
  cases base64 with
  | true =>
    obtain ⟨stream, body⟩ : ∃ stream,
        (buffers 45 src).flatMap (encodedLine true) ++ ascii "\n====\n" = 10 :: stream :=
      ⟨_, flatMap_newline (buffers 45 src) (bbUuencode uuencTblBase64) (ascii "====\n")⟩
    change uudecodeMain outname (header true mode name ++
      ((buffers 45 src).flatMap (encodedLine true) ++ ascii "\n====\n")) = _
    rw [body, uudecodeMain_header fit, if_pos rfl, readBase64_lines src stream body]
  | false =>
    have body := flatMap_newline (buffers 45 src)
      (fun buffer => uuencTblStd.getD buffer.length 0 :: bbUuencode uuencTblStd buffer)
      (ascii "`\nend\n")
    change uudecodeMain outname (header false mode name ++
      (((buffers 45 src).flatMap fun buffer =>
        10 :: uuencTblStd.getD buffer.length 0 :: bbUuencode uuencTblStd buffer) ++
          10 :: ascii "`\nend\n")) = _
    rw [body, uudecodeMain_header fit, if_neg Bool.false_ne_true, readStduu_lines]

/-- Every byte sequence comes back: from `uuencode` in either table, whatever mode is in
the header, and from `base64` however its text is wrapped. -/
theorem decode_encode (src : List UInt8) :
    (∀ outname name, HeaderName outname name → ∀ base64 mode,
      uudecodeMain outname (uuencodeMain base64 mode name src) =
        .ok (outname.getD (trim name), ⟨src, .finished⟩)) ∧
    base64Decode (base64Encode src) = ⟨src, .finished⟩ ∧
    ∀ text, unwrapped text = unwrapped (base64Encode src) →
      base64Decode text = ⟨src, .finished⟩ :=
  ⟨fun _ _ fit base64 mode => uudecodeMain_uuencodeMain fit base64 mode src,
    base64Decode_wrapped rfl, fun _ same => base64Decode_wrapped same⟩

/-- A file of one byte under a name of two words, and its base 64 text in four lines. -/
theorem decode_encode_byte :
    uudecodeMain none (uuencodeMain false 0o644 (ascii "a file") [65]) =
      .ok (ascii "a file", ⟨[65], .finished⟩) ∧
    base64Decode (ascii "Q\nQ=\n\n=") = ⟨[65], .finished⟩ :=
  ⟨(decode_encode [65]).1 none (ascii "a file") ⟨clean_of_not_mem (by decide), by decide⟩ false 0o644,
    (decode_encode [65]).2.2 _ (by decide +kernel)⟩

/-- A blank name is not found in the header, and a name of two lines leaves its
second one in front of the body. -/
theorem uuencode_name_fails :
    uudecodeMain none (uuencodeMain false 0o644 (ascii " ") [65]) = .error "no 'begin' line" ∧
    uudecodeMain none (uuencodeMain false 0o644 (ascii "a\nb") [65]) =
      .ok (ascii "a", ⟨[], .died "short file"⟩) := by
  decide +kernel

end Busybox.Uuencode
