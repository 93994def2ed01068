import Busybox.Lib.Records
import Busybox.Udhcp.Names

/-!
# Encoded names

`dname_enc` accepts a name of labels, and what it returns is their wire form. `dname_dec`
reads the wire forms of names, one behind another, as the names with spaces between them.
-/

namespace Busybox.Udhcp.Names

open Memory

/-! ## Encoding -/

/-- uppercase? convert to lower -/
def lower (c : UInt8) : UInt8 := if 65 ≤ c ∧ c ≤ 90 then c + 32 else c

/-- The length of a label, written in front of it when its end is found. -/
def endLabel (res : Block UInt8) (lenptr dst : Nat) (twoDots : Bool) :
    Except Stop (Block UInt8) :=
  let len := dst - lenptr - 1
  -- label too long, too short, or two '.'s in a row? abort
  if nsMaxlabel < len ∨ len = 0 ∨ twoDots then .error .null
  else checked (store res lenptr [UInt8.ofNat len])

/-- The loop of `convert_dname`. -/
def convertLoop (res : Block UInt8) (lenptr dst : Nat) :
    List UInt8 → Except Stop (Block UInt8 × Nat)
  | [] => do
    let res ← endLabel res lenptr dst false
    .ok (res, dst)
  | c :: src =>
    if c = dot then do
      let res ← endLabel res lenptr dst (src.head? = some dot)
      -- "" or ".": end of src
      if src = [] then .ok (res, dst) else convertLoop res dst (dst + 1) src
    else do
      let res ← checked (store res dst [lower c])
      convertLoop res lenptr (dst + 1) src

/-- `convert_dname`: the buffer and `*retlen`. -/
def convertDname (src : List UInt8) : Except Stop (Block UInt8 × Nat) := do
  let converted ← convertLoop (alloc (src.length + 2)) 0 1 src
  if nsMaxcdname ≤ converted.2 then .error .null
  else do
    let res ← checked (store converted.1 converted.2 [0])
    .ok (res, converted.2 + 1)

/-- `dname_enc`. -/
def dnameEnc (src : List UInt8) : Except Stop (Block UInt8 × Nat) := convertDname src

/-- The bytes that `dname_enc` returns for a name. -/
def Encodes (src bytes : List UInt8) : Prop :=
  ∃ result, dnameEnc src = .ok result ∧ result.1.take result.2 = bytes.map some

/-! ## The wire form -/

/-- The name, lower-cased and without its optional trailing dot. -/
def spelled (src : List UInt8) : List UInt8 :=
  (if src.getLast? = some dot then src.dropLast else src).map lower

/-- A label that can be encoded. -/
def Label (label : List UInt8) : Prop := label ≠ [] ∧ label.length ≤ nsMaxlabel

/-- Each label with its length in front. -/
def wire (labels : List (List UInt8)) : List UInt8 :=
  labels.flatMap fun label => UInt8.ofNat label.length :: label

@[simp] theorem wire_nil : wire [] = [] := rfl

@[simp] theorem wire_cons (label : List UInt8) (labels : List (List UInt8)) :
    wire (label :: labels) = UInt8.ofNat label.length :: (label ++ wire labels) := rfl

theorem wire_append (front back : List (List UInt8)) :
    wire (front ++ back) = wire front ++ wire back :=
  List.flatMap_append

@[simp] theorem spelled_nil : spelled [] = [] := rfl

theorem spelled_cons {c : UInt8} {src : List UInt8} (inner : c ≠ dot ∨ src ≠ []) :
    spelled (c :: src) = lower c :: spelled src := by
  cases src with
  | nil =>
    have other : c ≠ dot := inner.resolve_right (not_not_intro rfl)
    simp [spelled, other]
  | cons next src =>
    simp only [spelled, List.getLast?_cons_cons]
    split <;> simp

/-- The names that the labels of a name spell. -/
structure Spells (labels : List (List UInt8)) (text : List UInt8) : Prop where
  nonempty : labels ≠ []
  each : ∀ label ∈ labels, Label label
  dotted : Records.encode dot labels = text ++ [dot]

/-- What has been written of a name: the labels that are done, a cell for the next
length, the label that is begun, and so many cells that are not written yet. -/
def partly (done : List (List UInt8)) (label : List UInt8) (room : Nat) : Block UInt8 :=
  (wire done).map some ++ none :: (label.map some ++ alloc room)

theorem endLabel_partly (done : List (List UInt8)) (label : List UInt8) (room : Nat)
    (twoDots : Bool) :
    Fallible.Ends
      (endLabel (partly done label room) (wire done).length ((wire done).length + 1 + label.length)
        twoDots)
      (fun res => Label label ∧ res = (wire (done ++ [label])).map some ++ alloc room)
      (· = .null) := by
  have len : (wire done).length + 1 + label.length - (wire done).length - 1 = label.length := by
    omega
  simp only [endLabel, len]
  split
  case isTrue => rfl
  case isFalse accepted =>
    rw [partly, store_cell _ _ _ _ (List.length_map ..).symm]
    refine ⟨⟨fun empty => accepted (.inr (.inl (by rw [empty]; rfl))), ?_⟩, ?_⟩
    · exact Nat.le_of_not_lt fun long => accepted (.inl long)
    · simp [wire_append]

/-- A label that ends a name, behind those that are done. -/
theorem Spells.single {label : List UInt8} (accepted : Label label) : Spells [label] label :=
  ⟨List.cons_ne_nil _ _, fun _ member => List.mem_singleton.mp member ▸ accepted, by simp⟩

theorem Spells.cons {label : List UInt8} {labels : List (List UInt8)} {text : List UInt8}
    (accepted : Label label) (spells : Spells labels text) :
    Spells (label :: labels) (label ++ dot :: text) :=
  ⟨List.cons_ne_nil _ _, List.forall_mem_cons.mpr ⟨accepted, spells.each⟩,
    by simp [spells.dotted]⟩

theorem length_partly (done : List (List UInt8)) (label : List UInt8) :
    (wire (done ++ [label])).length = (wire done).length + 1 + label.length := by
  simp [wire_append]
  omega

/-- From a name that is partly written, `convert_dname` writes the wire form of its labels,
or it rejects the name. -/
theorem convertLoop_partly (done : List (List UInt8)) (label src : List UInt8) :
    Fallible.Ends
      (convertLoop (partly done label (src.length + 1)) (wire done).length
        ((wire done).length + 1 + label.length) src)
      (fun result => ∃ labels room, Spells labels (label ++ spelled src) ∧
        result = ((wire (done ++ labels)).map some ++ alloc (room + 1), (wire (done ++ labels)).length))
      (· = .null) := by
  induction src generalizing done label with
  | nil =>
    apply (endLabel_partly done label 1 false).bind
    rintro res ⟨accepted, rfl⟩
    exact ⟨[label], 0, by simpa using Spells.single accepted, by rw [length_partly]⟩
  | cons c src ih =>
    rw [convertLoop]
    by_cases ends : c = dot
    · subst ends
      rw [if_pos rfl]
      apply (endLabel_partly done label _ _).bind
      rintro res ⟨accepted, rfl⟩
      by_cases last : src = []
      · subst last
        rw [if_pos rfl]
        exact ⟨[label], 1, by simpa [spelled] using Spells.single accepted,
          by rw [length_partly]; rfl⟩
      · rw [if_neg last, ← length_partly]
        refine (ih (done ++ [label]) []).imp ?_ fun _ rejected => rejected
        rintro result ⟨labels, room, spells, rfl⟩
        refine ⟨label :: labels, room, ?_, by simp⟩
        have joined := spells.cons accepted
        rwa [spelled_cons (.inr last)]
    · rw [if_neg ends]
      have stored : store (partly done label ((c :: src).length + 1))
          ((wire done).length + 1 + label.length) [lower c] =
          some (partly done (label ++ [lower c]) (src.length + 1)) := by
        have place : (wire done).length + 1 + label.length =
            ((wire done).map some ++ none :: label.map some).length := by
          simp
          omega
        have cell := store_cell _ (alloc (src.length + 1)) none (lower c) place
        simpa [partly, alloc, List.replicate_succ] using cell
      have further := ih done (label ++ [lower c])
      rw [List.length_append, List.length_singleton, ← Nat.add_assoc] at further
      rw [stored, checked, Fallible.ok_bind]
      refine further.imp ?_ fun _ rejected => rejected
      rintro result ⟨labels, room, spells, rfl⟩
      refine ⟨labels, room, ?_, rfl⟩
      rw [spelled_cons (.inl ends)]
      simpa using spells

/-- `dname_enc` writes the wire form of a name's labels and a NUL, or it rejects the name. -/
theorem dnameEnc_ends (src : List UInt8) :
    Fallible.Ends (dnameEnc src)
      (fun result => ∃ labels, Spells labels (spelled src) ∧
        result.1.take result.2 = (wire labels ++ [0]).map some)
      (· = .null) := by
  have begun : (alloc (src.length + 2) : Block UInt8) = partly [] [] (src.length + 1) := rfl
  unfold dnameEnc convertDname
  rw [begun]
  apply (convertLoop_partly [] [] src).bind
  rintro result ⟨labels, room, spells, rfl⟩
  by_cases long : nsMaxcdname ≤ (wire ([] ++ labels)).length
  · rw [if_pos long]
    rfl
  · have cell := store_cell ((wire labels).map some) (alloc room) none (0 : UInt8)
      (List.length_map ..).symm
    rw [if_neg long]
    simp only [List.nil_append] at spells ⊢
    rw [alloc, List.replicate_succ, ← alloc, cell]
    refine ⟨labels, spells, ?_⟩
    simp [List.take_append, List.take_of_length_le]

/-- What `dname_enc` returns for a name that it accepts. -/
theorem Encodes.wire_eq {src bytes : List UInt8} (encodes : Encodes src bytes) :
    ∃ labels, Spells labels (spelled src) ∧ bytes = wire labels ++ [0] := by
  obtain ⟨result, encoded, written⟩ := encodes
  have ends := dnameEnc_ends src
  rw [encoded] at ends
  obtain ⟨labels, spells, same⟩ := ends
  exact ⟨labels, spells, List.map_injective_iff.mpr (fun _ _ => Option.some.inj) (written.symm.trans same)⟩

/-! ## Reading wire forms -/

theorem not_pointer : ∀ len ≤ nsMaxlabel, UInt8.ofNat len &&& nsCmprsflgs ≠ nsCmprsflgs := by
  decide

theorem Label.toNat {label : List UInt8} (accepted : Label label) :
    (UInt8.ofNat label.length).toNat = label.length := by
  have short : label.length ≤ 63 := accepted.2
  exact UInt8.toNat_ofNat_of_lt (Nat.lt_of_le_of_lt short (by decide))

/-- The cursor at toplevel. -/
def atTop (crtpos len : Nat) : Cursor := ⟨crtpos, 0, 0, len⟩

theorem tooMuch_atTop (crtpos : Nat) {len : Nat} (short : len ≤ nsMaxdname * nsMaxdnsrch) :
    tooMuch (atTop crtpos len) = false := by
  rw [tooMuch, Bool.or_eq_false_iff, decide_eq_false_iff_not, decide_eq_false_iff_not]
  exact ⟨Nat.not_lt_zero _, Nat.not_lt.mpr short⟩

variable {cstr : List UInt8} {front : Block UInt8} {total : Nat} {writing : Bool}
  {dst : Option Dest} {text : List UInt8}

/-- A label at toplevel is copied, with a dot behind it. -/
theorem turn_label {before label after : List UInt8} (accepted : Label label)
    (bytes : cstr = before ++ UInt8.ofNat label.length :: (label ++ after))
    (holds : Holds front total writing dst text)
    (room : (text ++ (label ++ [dot])).length ≤ total) (short : total ≤ nsMaxdname * nsMaxdnsrch) :
    ∃ dst', turn cstr (atTop before.length text.length) dst =
        .ok (atTop (before.length + (label.length + 1)) (text ++ (label ++ [dot])).length, dst') ∧
      Holds front total writing dst' (text ++ (label ++ [dot])) := by
  obtain ⟨dst', wrote, held⟩ := holds.append room
  have read : cstr[before.length]? = some (UInt8.ofNat label.length) := by simp [bytes]
  have flags := not_pointer label.length accepted.2
  have nonzero : UInt8.ofNat label.length ≠ 0 := by
    rw [Ne, ← UInt8.toNat_inj, accepted.toNat, UInt8.toNat_zero, List.length_eq_zero_iff]
    exact accepted.1
  have inside : ¬ cstr.length < before.length + label.length + 1 := by
    rw [bytes, List.length_append, List.length_cons, List.length_append]
    omega
  have copied : copyLabel cstr (atTop before.length text.length) label.length dst = .ok dst' := by
    cases dst with
    | none => cases wrote; rfl
    | some dest =>
      have source : readLabel cstr (before.length + 1) label.length = .ok label := by
        rw [readLabel_eq (by omega)]
        simp [bytes, List.drop_append, List.drop_of_length_le]
      simp only [copyLabel, atTop, source, Fallible.ok_bind, wrote]
  refine ⟨dst', ?_, held⟩
  have stepped : step cstr (atTop before.length text.length) dst =
      .ok (atTop (before.length + (label.length + 1)) (text.length + (label.length + 1)), dst') := by
    simp only [step, atTop, read, checked, Fallible.ok_bind, if_neg flags, if_pos nonzero,
      accepted.toNat, if_neg inside] at copied ⊢
    rw [copied, Fallible.ok_bind]
  have len : (text ++ (label ++ [dot])).length = text.length + (label.length + 1) := by simp
  rw [len] at room ⊢
  rw [turn, stepped, Fallible.ok_bind, tooMuch_atTop _ (Nat.le_trans room short)]
  rfl

/-- A NUL at toplevel changes the dot before it. -/
theorem turn_nul {before after : List UInt8} (bytes : cstr = before ++ 0 :: after)
    (holds : Holds front total writing dst text)
    (short : text.length ≤ nsMaxdname * nsMaxdnsrch) :
    ∃ dst', turn cstr (atTop before.length text.length) dst =
        .ok (atTop (before.length + 1) (closed text).length, dst') ∧
      Holds front total writing dst' (closed text) := by
  have measured : text.length = (atTop before.length text.length).len := rfl
  obtain ⟨dst', wrote, held⟩ := holds.endName measured
  have read : cstr[before.length]? = some 0 := by simp [bytes]
  refine ⟨dst', ?_, held⟩
  have stepped : step cstr (atTop before.length text.length) dst =
      .ok (atTop (before.length + 1) text.length, dst') := by
    have flags : ¬ (0 : UInt8) &&& nsCmprsflgs = nsCmprsflgs := by decide
    simp only [step, atTop, read, checked, Fallible.ok_bind, if_neg flags, ne_eq,
      not_true, if_false] at wrote ⊢
    rw [wrote]
    rfl
  rw [length_closed, turn, stepped, Fallible.ok_bind, tooMuch_atTop _ short]
  rfl

theorem pass_labels {labels : List (List UInt8)} (accepted : ∀ label ∈ labels, Label label)
    {before after : List UInt8} (bytes : cstr = before ++ (wire labels ++ after))
    (holds : Holds front total writing dst text)
    (room : (text ++ Records.encode dot labels).length ≤ total)
    (short : total ≤ nsMaxdname * nsMaxdnsrch) :
    ∃ dst', pass cstr (atTop before.length text.length) dst =
        pass cstr (atTop (before ++ wire labels).length (text ++ Records.encode dot labels).length)
          dst' ∧
      Holds front total writing dst' (text ++ Records.encode dot labels) := by
  induction labels generalizing before dst text with
  | nil => exact ⟨dst, by simp, by simpa using holds⟩
  | cons label labels ih =>
    have split : text ++ Records.encode dot (label :: labels) =
        (text ++ (label ++ [dot])) ++ Records.encode dot labels := by simp
    have wired : cstr = before ++ UInt8.ofNat label.length :: (label ++ (wire labels ++ after)) := by
      simpa using bytes
    rw [split] at room ⊢
    obtain ⟨dst', taken, held⟩ := turn_label (accepted label List.mem_cons_self) wired holds
      (Nat.le_trans (by simp) room) short
    have inside : (atTop before.length text.length).crtpos < cstr.length := by
      simp [atTop, wired]
    have place : before.length + (label.length + 1) =
        (before ++ UInt8.ofNat label.length :: label).length := by simp
    rw [place] at taken
    have further : cstr = (before ++ UInt8.ofNat label.length :: label) ++ (wire labels ++ after) := by
      simpa using wired
    obtain ⟨dst'', rest, held'⟩ :=
      ih (fun other member => accepted other (List.mem_cons_of_mem _ member)) further held room
    refine ⟨dst'', ?_, held'⟩
    rw [pass_next inside taken, rest]
    simp [wire_cons]

/-- An encoded name is read as the name and a space. -/
theorem pass_name {labels : List (List UInt8)} {name before : List UInt8} (after : List UInt8)
    (spells : Spells labels name) (bytes : cstr = before ++ (wire labels ++ 0 :: after))
    (holds : Holds front total writing dst text)
    (room : (text ++ (name ++ [space])).length ≤ total)
    (short : total ≤ nsMaxdname * nsMaxdnsrch) :
    ∃ dst', pass cstr (atTop before.length text.length) dst =
        pass cstr (atTop (before ++ (wire labels ++ [0])).length (text ++ (name ++ [space])).length)
          dst' ∧
      Holds front total writing dst' (text ++ (name ++ [space])) := by
  have same : (text ++ (name ++ [dot])).length = (text ++ (name ++ [space])).length := by simp
  obtain ⟨dst', rest, held⟩ := pass_labels spells.each bytes holds
    (by rw [spells.dotted, same]; exact room) short
  rw [spells.dotted] at rest held
  have closing : closed (text ++ (name ++ [dot])) = text ++ (name ++ [space]) := by
    rw [closed, if_neg (by simp), ← List.append_assoc, List.dropLast_concat, List.append_assoc]
  have nul : cstr = (before ++ wire labels) ++ 0 :: after := by simpa using bytes
  obtain ⟨dst'', taken, held'⟩ := turn_nul nul held (same ▸ Nat.le_trans room short)
  rw [closing] at taken held'
  have inside : (atTop (before ++ wire labels).length (text ++ (name ++ [dot])).length).crtpos <
      cstr.length := by
    simp [atTop, nul]
  refine ⟨dst'', ?_, held'⟩
  rw [rest, pass_next inside taken]
  simp [Nat.add_assoc]

/-- Encoded names are read as the names, a space behind each. -/
theorem pass_names {names encodings : List (List UInt8)}
    (encoded : List.Forall₂ Encodes names encodings) {before : List UInt8}
    (bytes : cstr = before ++ encodings.flatten) (holds : Holds front total writing dst text)
    (room : (text ++ Records.encode space (names.map spelled)).length ≤ total)
    (short : total ≤ nsMaxdname * nsMaxdnsrch) :
    ∃ dst', pass cstr (atTop before.length text.length) dst =
        .ok ((text ++ Records.encode space (names.map spelled)).length, dst') ∧
      Holds front total writing dst' (text ++ Records.encode space (names.map spelled)) := by
  induction encoded generalizing before dst text with
  | nil =>
    refine ⟨dst, ?_, by simpa using holds⟩
    rw [pass_done (by simp [atTop, bytes])]
    simp [atTop]
  | @cons name encoding names encodings first _ ih =>
    obtain ⟨labels, spells, rfl⟩ := first.wire_eq
    have split : text ++ Records.encode space ((name :: names).map spelled) =
        (text ++ (spelled name ++ [space])) ++ Records.encode space (names.map spelled) := by simp
    rw [split] at room ⊢
    obtain ⟨dst', went, held⟩ := pass_name encodings.flatten spells
      (by simpa using bytes) holds (Nat.le_trans (by simp) room) short
    have further : cstr = (before ++ (wire labels ++ [0])) ++ encodings.flatten := by
      simpa using bytes
    obtain ⟨dst'', rest, held'⟩ := ih further held room
    exact ⟨dst'', went.trans rest, held'⟩

/-- The length of the text that names are decoded to, with a byte behind each. -/
def decodedLength (names : List (List UInt8)) : Nat :=
  (names.map fun name => (spelled name).length + 1).sum

theorem length_encode_spelled (names : List (List UInt8)) :
    (Records.encode space (names.map spelled)).length = decodedLength names := by
  induction names with
  | nil => rfl
  | cons name names ih => simp [decodedLength, ih]; omega

/-- `dname_enc` stays inside the buffer that it allocates, and `dname_dec` reads what it
returns for names, one behind another, as the names with single spaces between them. -/
theorem dnameDec_dnameEnc (pre name : List UInt8) (names encodings : List (List UInt8))
    (accepted : List.Forall₂ Encodes (name :: names) encodings)
    (limit : decodedLength (name :: names) ≤ nsMaxdname * nsMaxdnsrch) :
    (∀ src, dnameEnc src ≠ .error .outside) ∧
      dnameDec encodings.flatten pre =
        .ok ((pre ++ List.intercalate [space] ((name :: names).map spelled) ++ [0]).map some) := by
  constructor
  · intro src failed
    have ends := dnameEnc_ends src
    rw [failed] at ends
    cases ends
  · let text := Records.encode space ((name :: names).map spelled)
    have size : text.length = decodedLength (name :: names) := length_encode_spelled _
    have flat : encodings.flatten = [] ++ encodings.flatten := rfl
    obtain ⟨unset, measures, _⟩ := pass_names accepted flat
      (.measuring [] : Holds [] text.length false none []) (Nat.le_refl _) (size ▸ limit)
    have spelling : text =
        [space].intercalate ((name :: names).map spelled) ++ [space] :=
      Records.encode_eq_intercalate _ _
    have nonempty : text ≠ [] := by
      rw [spelling]
      exact List.append_ne_nil_of_right_ne_nil _ (List.cons_ne_nil _ _)
    have written := dnameDec_eq pre measures rfl nonempty fun front rest room => by
      obtain ⟨dst, wrote, held⟩ := pass_names accepted flat (Holds.begun room) (Nat.le_refl _)
        (size ▸ limit)
      rw [held.filled rfl] at wrote
      exact wrote
    rw [written]
    change Except.ok ((pre ++ text.dropLast ++ [0]).map some) = _
    rw [spelling, List.dropLast_concat]

/-- `AB.C` and `D.`, behind an `=`. -/
theorem dnameDec_dnameEnc_two :
    (∀ src, dnameEnc src ≠ .error .outside) ∧
      dnameDec [2, 97, 98, 1, 99, 0, 1, 100, 0] [61] =
        .ok ([61, 97, 98, 46, 99, 32, 100, 0].map some) :=
  dnameDec_dnameEnc [61] [65, 66, 46, 67] [[68, 46]] [[2, 97, 98, 1, 99, 0], [1, 100, 0]]
    (.cons ⟨_, rfl, rfl⟩ (.cons ⟨_, rfl, rfl⟩ .nil)) (by decide)

end Busybox.Udhcp.Names
