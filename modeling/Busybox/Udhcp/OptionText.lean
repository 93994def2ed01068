import Busybox.Udhcp.Optset
import Busybox.Udhcp.OptvalBounds

/-!
# Values of options

A value in canonical form, the text that `udhcp_str2optset` reads it from, the bytes of
the option and the text that `xmalloc_optname_optval` prints.
-/

namespace Busybox.Udhcp

open Optval (unsignedText nipText slash)
open Optset (Nip Call strtok bbStrtou bbStrtoi bytes16 bytes32)
open Names (dot space)
open Libbb.Xatonum (isDigit digitVal valueOf plainRadix hexPrefixed strtou foldl_eq_valueOf)

abbrev Text := List UInt8

/-! ## Decimal numbers -/

theorem digitByte {digit : Nat} (small : digit < 10) :
    digit.digitChar.toNat.toUInt8 = (48 + digit).toUInt8 := by
  rw [Nat.toNat_digitChar_of_lt_ten small]

/-- The last digit comes off the end. -/
theorem unsignedText_eq (n : Nat) :
    unsignedText n = (if n < 10 then [] else unsignedText (n / 10)) ++ [(48 + n % 10).toUInt8] := by
  unfold unsignedText
  rw [Nat.toDigits_eq_if (by decide)]
  split
  case isTrue small => simp [digitByte small, Nat.mod_eq_of_lt small]
  case isFalse => simp [digitByte (Nat.mod_lt n (by decide : 0 < 10))]

theorem unsignedText_ne_nil (n : Nat) : unsignedText n ≠ [] := by
  rw [unsignedText_eq]
  exact List.append_ne_nil_of_right_ne_nil _ (List.cons_ne_nil _ _)

theorem digit_toNat (n : Nat) : ((48 + n % 10).toUInt8).toNat = 48 + n % 10 := by
  rw [Nat.toUInt8, UInt8.toNat_ofNat']
  omega

/-- The characters are decimal digits. -/
theorem unsignedText_digits (n : Nat) : ∀ c ∈ unsignedText n, 48 ≤ c.toNat ∧ c.toNat ≤ 57 := by
  induction n using Nat.strong_induction_on with
  | _ n ih =>
    intro c mem
    rw [unsignedText_eq] at mem
    rcases List.mem_append.mp mem with front | last
    · split at front
      · cases front
      · exact ih (n / 10) (by omega) c front
    · rw [List.mem_singleton.mp last, digit_toNat]
      omega

theorem digitVal_digit {c : UInt8} (digit : 48 ≤ c.toNat ∧ c.toNat ≤ 57) :
    digitVal c = c.toNat - 48 :=
  if_pos ⟨UInt8.le_iff_toNat_le.mpr digit.1, UInt8.le_iff_toNat_le.mpr digit.2⟩

/-- No leading zero. -/
theorem unsignedText_head {n : Nat} (nonzero : n ≠ 0) : (unsignedText n).head? ≠ some 48 := by
  induction n using Nat.strong_induction_on with
  | _ n ih =>
    rw [unsignedText_eq]
    split
    case isTrue small =>
      intro zero
      have value := congrArg UInt8.toNat (Option.some.inj zero)
      rw [digit_toNat] at value
      have : (48 : UInt8).toNat = 48 := rfl
      omega
    case isFalse =>
      obtain ⟨c, rest, digits⟩ := List.exists_cons_of_ne_nil (unsignedText_ne_nil (n / 10))
      have front := ih (n / 10) (by omega) (by omega)
      rw [digits] at front ⊢
      exact front

theorem valueOf_unsignedText (n : Nat) : valueOf 10 (unsignedText n) = n := by
  induction n using Nat.strong_induction_on with
  | _ n ih =>
    have last : digitVal (48 + n % 10).toUInt8 = n % 10 := by
      rw [digitVal_digit (by rw [digit_toNat]; omega), digit_toNat]
      omega
    rw [unsignedText_eq, ← foldl_eq_valueOf, List.foldl_append, foldl_eq_valueOf]
    split
    case isTrue small =>
      simp only [List.foldl_cons, List.foldl_nil, last]
      rw [valueOf]
      simp
      omega
    case isFalse large =>
      rw [ih (n / 10) (by omega)]
      simp only [List.foldl_cons, List.foldl_nil, last]
      omega

/-- `strtoul` reads a decimal number back, also where the base is left open. -/
theorem strtou_unsignedText {base : Nat} (open_ : base = 0 ∨ base = 10) (n : Nat) :
    strtou base (unsignedText n) = some (n, []) := by
  have noPrefix : hexPrefixed base (unsignedText n) = false := by
    refine Bool.eq_false_iff.mpr fun is => ?_
    obtain ⟨_, x, c, text, digits, letter, _⟩ := Libbb.Xatonum.hexPrefixed_iff.mp is
    have digit := unsignedText_digits n x (by rw [digits]; simp)
    rcases letter with rfl | rfl
    · exact absurd digit.2 (by decide)
    · exact absurd digit.2 (by decide)
  have valid : ¬(base = 1 ∨ 36 < base) := by omega
  unfold strtou
  simp only [valid, if_false, noPrefix, Bool.false_eq_true]
  rcases Nat.eq_zero_or_pos n with rfl | positive
  · rcases open_ with rfl | rfl <;> decide
  · have radix : plainRadix base (unsignedText n) = 10 := by
      unfold plainRadix
      rw [if_neg (unsignedText_head (by omega))]
      rcases open_ with rfl | rfl <;> rfl
    have digits : ∀ c ∈ unsignedText n, isDigit 10 c = true := by
      intro c mem
      have digit := unsignedText_digits n c mem
      rw [isDigit, digitVal_digit digit]
      exact decide_eq_true (by omega)
    rw [radix, List.takeWhile_eq_self_iff.mpr digits, List.dropWhile_eq_nil_iff.mpr digits,
      if_neg (unsignedText_ne_nil n), foldl_eq_valueOf, valueOf_unsignedText]

theorem unsignedText_isalnum (n : Nat) : (unsignedText n).head?.any Optset.isalnum = true := by
  obtain ⟨c, rest, digits⟩ := List.exists_cons_of_ne_nil (unsignedText_ne_nil n)
  have digit := unsignedText_digits n c (by rw [digits]; exact List.mem_cons_self ..)
  rw [digits, List.head?_cons, Option.any_some, Optset.isalnum, isDigit, digitVal_digit digit]
  exact decide_eq_true (by omega)

theorem bbStrtou_unsignedText {base n : Nat} (open_ : base = 0 ∨ base = 10) (word : n < 2 ^ 32) :
    bbStrtou base (unsignedText n) = some n := by
  rw [bbStrtou, if_pos (unsignedText_isalnum n), strtou_unsignedText open_]
  exact if_pos word

/-- A number with its sign. -/
def intText (number : Int) : Text :=
  if number < 0 then 45 :: unsignedText number.natAbs else unsignedText number.natAbs

theorem bbStrtoi_intText {number : Int} (low : -2 ^ 31 ≤ number) (high : number < 2 ^ 31) :
    bbStrtoi 0 (intText number) = some number := by
  have read := strtou_unsignedText (.inl rfl : (0 : Nat) = 0 ∨ 0 = 10) number.natAbs
  unfold bbStrtoi intText
  by_cases negative : number < 0
  · have value : -(number.natAbs : Int) = number := by omega
    simp only [if_pos negative, List.head?_cons, if_true, List.drop_one, List.tail_cons,
      unsignedText_isalnum, read, value]
    exact if_pos ⟨low, high⟩
  · have value : (number.natAbs : Int) = number := by omega
    have unsigned : (unsignedText number.natAbs).head? ≠ some 45 := by
      obtain ⟨c, rest, digits⟩ := List.exists_cons_of_ne_nil (unsignedText_ne_nil number.natAbs)
      have digit := unsignedText_digits number.natAbs c (by rw [digits]; exact List.mem_cons_self ..)
      rw [digits]
      rintro ⟨⟩
      exact absurd digit.1 (by decide)
    simp only [if_neg negative, unsigned, if_false, unsignedText_isalnum, if_true, read, value]
    exact if_pos ⟨low, high⟩

/-! ## Values -/

/-- A value in canonical form. -/
inductive Value : OptionType → Type
  | ip (address : Nip) : Value .ip
  | ipPair (first second : Nip) : Value .ipPair
  | u8 (number : Nat) (fits : number < 2 ^ 8) : Value .u8
  | u16 (number : Nat) (fits : number < 2 ^ 16) : Value .u16
  | u32 (number : Nat) (fits : number < 2 ^ 32) : Value .u32
  | s32 (number : Int) (low : -2 ^ 31 ≤ number) (high : number < 2 ^ 31) : Value .s32
  /-- The host bits behind the bytes that are encoded are zero. -/
  | route (net : Nip) (mask : Nat) (valid : mask ≤ 32)
      (host : ∀ byte ∈ net.1.drop ((mask + 7) / 8), byte = 0) (gateway : Nip) : Value .staticRoutes

variable {type : OptionType}

/-- The text of a value; the parts of a pair and of a route are separated. -/
def Value.text (sep : Text) : Value type → Text
  | .ip address => nipText [] address.1
  | .ipPair first second => nipText [] first.1 ++ sep ++ nipText [] second.1
  | .u8 number _ | .u16 number _ | .u32 number _ => unsignedText number
  | .s32 number _ _ => intText number
  | .route net mask _ _ gateway =>
    nipText [] net.1 ++ slash :: unsignedText mask ++ sep ++ nipText [] gateway.1

/-- The bytes of a value in an option. -/
def Value.bytes : Value type → Text
  | .ip address => address.1
  | .ipPair first second => first.1 ++ second.1
  | .u8 number _ => [number.toUInt8]
  | .u16 number _ => bytes16 number
  | .u32 number _ => bytes32 number
  | .s32 number _ _ => bytes32 (number % 2 ^ 32).toNat
  | .route net mask _ _ gateway => mask.toUInt8 :: (net.1.take ((mask + 7) / 8) ++ gateway.1)

/-- The text of a value for a script. -/
def Value.printed : Value type → Text
  | .ip address => nipText [] address.1
  | .ipPair first second => nipText [] first.1 ++ nipText [slash] second.1
  | .u8 number _ | .u16 number _ | .u32 number _ => unsignedText number
  | .s32 number _ _ => intText number
  | .route net mask _ _ gateway =>
    nipText [] net.1 ++ ([slash] ++ unsignedText mask ++ [space]) ++ nipText [] gateway.1

/-- Nonempty text of delimiters. -/
abbrev Sep := {sep : Text // sep ≠ [] ∧ ∀ c ∈ sep, c ∈ Optset.valueDelims}

theorem nipText_chars (ip : Text) :
    ∀ c ∈ nipText [] ip, c = dot ∨ 48 ≤ c.toNat ∧ c.toNat ≤ 57 := by
  have joined (texts : List Text) (digits : ∀ text ∈ texts, ∀ c ∈ text, 48 ≤ c.toNat ∧ c.toNat ≤ 57) :
      ∀ c ∈ List.intercalate [dot] texts, c = dot ∨ 48 ≤ c.toNat ∧ c.toNat ≤ 57 := by
    induction texts with
    | nil => exact nofun
    | cons text texts ih =>
      obtain ⟨here, later⟩ := List.forall_mem_cons.mp digits
      cases texts with
      | nil =>
        rw [List.intercalate_singleton]
        exact fun c mem => .inr (here c mem)
      | cons next texts =>
        intro c mem
        rw [List.intercalate_cons_cons] at mem
        rcases List.mem_append.mp mem with front | behind
        · rcases List.mem_append.mp front with front | separator
          · exact .inr (here c front)
          · exact .inl (List.mem_singleton.mp separator)
        · exact ih later c behind
  refine joined _ fun text mem => ?_
  obtain ⟨byte, _, rfl⟩ := List.mem_map.mp mem
  exact unsignedText_digits byte.toNat

theorem nipText_ne_nil {ip : Text} (nonempty : ip ≠ []) : nipText [] ip ≠ [] := by
  obtain ⟨byte, rest, rfl⟩ := List.exists_cons_of_ne_nil nonempty
  rw [nipText, List.nil_append, List.map_cons]
  cases rest with
  | nil =>
    rw [List.map_nil, List.intercalate_singleton]
    exact unsignedText_ne_nil _
  | cons next rest =>
    rw [List.map_cons, List.intercalate_cons_cons]
    exact List.append_ne_nil_of_left_ne_nil
      (List.append_ne_nil_of_left_ne_nil (unsignedText_ne_nil _) _) _

theorem Nip.ne_nil (nip : Nip) : nip.1 ≠ [] := by
  intro empty
  have length := nip.2
  rw [empty] at length
  cases length

/-! ## Reading a value -/

/-- The first token of a text. -/
theorem strtok_token {delims lead token rest : Text} (isLead : ∀ c ∈ lead, c ∈ delims)
    (nonempty : token ≠ []) (clean : ∀ c ∈ token, c ∉ delims)
    (ends : ∀ c ∈ rest.head?, c ∈ delims) :
    strtok delims (lead ++ token ++ rest) = some (token, rest.drop 1) := by
  obtain ⟨first, token, rfl⟩ := List.exists_cons_of_ne_nil nonempty
  have skipped : (lead ++ first :: token ++ rest).dropWhile (· ∈ delims) = first :: token ++ rest := by
    rw [List.append_assoc, List.dropWhile_append_of_pos (by simpa using isLead), List.cons_append,
      List.dropWhile_cons_of_neg (by simpa using clean first (List.mem_cons_self ..))]
  have stops : rest.takeWhile (· ∉ delims) = [] ∧ rest.dropWhile (· ∉ delims) = rest := by
    cases rest with
    | nil => exact ⟨rfl, rfl⟩
    | cons c rest =>
      have isDelim := ends c rfl
      exact ⟨List.takeWhile_cons_of_neg (by simpa using isDelim),
        List.dropWhile_cons_of_neg (by simpa using isDelim)⟩
  have inside : ∀ c ∈ first :: token, decide (c ∉ delims) = true := fun c mem =>
    decide_eq_true (clean c mem)
  unfold strtok
  simp only [skipped]
  rw [if_neg (by simp), List.takeWhile_append_of_pos inside, List.dropWhile_append_of_pos inside,
    stops.1, stops.2, List.append_nil]

theorem digit_not_mem {c : UInt8} (digit : 48 ≤ c.toNat ∧ c.toNat ≤ 57) {delims : Text}
    (none : ∀ d ∈ delims, d.toNat < 48 ∨ 57 < d.toNat) : c ∉ delims := by
  intro mem
  have := none c mem
  omega

theorem noDigits {delims : Text}
    (all : delims.all (fun d => d.toNat < 48 || 57 < d.toNat) = true) :
    ∀ d ∈ delims, d.toNat < 48 ∨ 57 < d.toNat := by
  simpa only [List.all_eq_true, Bool.or_eq_true, decide_eq_true_eq] using all

/-- Dots and digits are no delimiters. -/
theorem nipText_clean (ip : Text) {delims : Text}
    (none : dot ∉ delims ∧ ∀ d ∈ delims, d.toNat < 48 ∨ 57 < d.toNat) :
    ∀ c ∈ nipText [] ip, c ∉ delims := by
  intro c mem
  rcases nipText_chars ip c mem with rfl | digit
  · exact none.1
  · exact digit_not_mem digit none.2

theorem unsignedText_clean (n : Nat) {delims : Text}
    (none : ∀ d ∈ delims, d.toNat < 48 ∨ 57 < d.toNat) : ∀ c ∈ unsignedText n, c ∉ delims :=
  fun c mem => digit_not_mem (unsignedText_digits n c mem) none

theorem intText_clean (number : Int) : ∀ c ∈ intText number, c ∉ Optset.valueDelims := by
  intro c mem
  unfold intText at mem
  split at mem
  · rcases List.mem_cons.mp mem with rfl | digit
    · decide
    · exact unsignedText_clean _ (noDigits rfl) c digit
  · exact unsignedText_clean _ (noDigits rfl) c mem

theorem intText_ne_nil (number : Int) : intText number ≠ [] := by
  unfold intText
  split
  · exact List.cons_ne_nil _ _
  · exact unsignedText_ne_nil _

/-- A separator, of which `strtok` has taken the first delimiter. -/
theorem Sep.parts (sep : Sep) : ∃ first lead, sep.1 = first :: lead ∧ first ∈ Optset.valueDelims ∧
    ∀ c ∈ lead, c ∈ Optset.valueDelims := by
  obtain ⟨first, lead, parts⟩ := List.exists_cons_of_ne_nil sep.2.1
  have all := sep.2.2
  rw [parts] at all
  exact ⟨first, lead, parts, (List.forall_mem_cons.mp all).1, (List.forall_mem_cons.mp all).2⟩

theorem mem_pairDelims {c : UInt8} (mem : c ∈ Optset.valueDelims) : c ∈ Optset.pairDelims := by
  simp only [Optset.valueDelims, List.mem_cons, List.not_mem_nil, or_false] at mem
  rcases mem with rfl | rfl | rfl <;> decide

section Reading

variable {str2nip : Text → Option Nip} {optflag : DhcpOptflag} {lead rest : Text}

theorem nextValue_token (known : optflag.type ≠ .bin) {token : Text}
    (isLead : ∀ c ∈ lead, c ∈ Optset.valueDelims) (nonempty : token ≠ [])
    (clean : ∀ c ∈ token, c ∉ Optset.valueDelims) (ends : ∀ c ∈ rest.head?, c ∈ Optset.valueDelims) :
    Optset.nextValue optflag (lead ++ token ++ rest) = some (token, rest.drop 1) := by
  rw [Optset.nextValue, if_neg fun raw => known raw.1]
  exact strtok_token isLead nonempty clean ends

/-- What is attached for a value. -/
def callOf (optflag : DhcpOptflag) (value : Value optflag.type) : Call :=
  ⟨optflag, value.bytes, value.bytes.length⟩

/-- A route in two tokens. -/
theorem routeValue_text (resolves : ∀ nip : Nip, str2nip (nipText [] nip.1) = some nip)
    (net : Nip) {mask : Nat} (valid : mask ≤ 32) (gateway : Nip) {behind : Text}
    (second : strtok Optset.pairDelims behind = some (nipText [] gateway.1, rest)) :
    Optset.routeValue str2nip optflag (nipText [] net.1 ++ slash :: unsignedText mask) behind =
      (some ⟨optflag, mask.toUInt8 :: (net.1.take ((mask + 7) / 8) ++ gateway.1),
        (mask + 7) / 8 + 5⟩, rest) := by
  have noSlashIn : ∀ c ∈ nipText [] net.1, c ∉ [slash] := nipText_clean net.1 ⟨by decide, noDigits rfl⟩
  have noSlash : ∀ c ∈ nipText [] net.1, decide (c ≠ 47) = true := fun c mem =>
    decide_eq_true fun same => noSlashIn c mem (by rw [same]; exact List.mem_singleton_self _)
  have behindNet : (nipText [] net.1 ++ slash :: unsignedText mask).dropWhile (· ≠ 47) =
      slash :: unsignedText mask := by
    rw [List.dropWhile_append_of_pos noSlash]
    exact List.dropWhile_cons_of_neg (by decide)
  have beforeNet : (nipText [] net.1 ++ slash :: unsignedText mask).takeWhile (· ≠ 47) =
      nipText [] net.1 := by
    rw [List.takeWhile_append_of_pos noSlash, List.takeWhile_cons_of_neg (by decide),
      List.append_nil]
  unfold Optset.routeValue
  simp only [behindNet, beforeNet, second, resolves,
    bbStrtou_unsignedText (.inr rfl) (by omega : mask < 2 ^ 32), if_neg (Nat.not_lt.mpr valid),
    Nat.add_sub_cancel]

/-- The value in front of a text is read, with the delimiter behind it. -/
theorem readValue_text (resolves : ∀ nip : Nip, str2nip (nipText [] nip.1) = some nip)
    (value : Value optflag.type) (sep : Sep) (isLead : ∀ c ∈ lead, c ∈ Optset.valueDelims)
    (ends : ∀ c ∈ rest.head?, c ∈ Optset.valueDelims) :
    ∃ token behind, Optset.nextValue optflag (lead ++ value.text sep.1 ++ rest) =
        some (token, behind) ∧
      Optset.readValue str2nip optflag token behind =
        (some (callOf optflag value), rest.drop 1) := by
  obtain ⟨type, req, list, code⟩ := optflag
  obtain ⟨delim, inner, parts, isDelim, isInner⟩ := Sep.parts sep
  have clean (nip : Nip) : ∀ c ∈ nipText [] nip.1, c ∉ Optset.valueDelims :=
    nipText_clean nip.1 ⟨by decide, noDigits rfl⟩
  have second (nip : Nip) : strtok Optset.pairDelims (inner ++ nipText [] nip.1 ++ rest) =
      some (nipText [] nip.1, rest.drop 1) :=
    strtok_token (fun c mem => mem_pairDelims (isInner c mem)) (nipText_ne_nil (Nip.ne_nil nip))
      (nipText_clean nip.1 ⟨by decide, noDigits rfl⟩) fun c mem => mem_pairDelims (ends c mem)
  have behind (nip : Nip) : ∀ c ∈ (delim :: (inner ++ nipText [] nip.1 ++ rest)).head?,
      c ∈ Optset.valueDelims := by
    rintro c ⟨⟩
    exact isDelim
  cases value with
  | ip address =>
    refine ⟨nipText [] address.1, rest.drop 1,
      nextValue_token (by simp) isLead (nipText_ne_nil (Nip.ne_nil address)) (clean address) ends, ?_⟩
    simp only [Optset.readValue, resolves, Option.map_some, callOf, Value.bytes, address.2]
    rfl
  | ipPair one two =>
    have text : lead ++ (Value.ipPair one two).text sep.1 ++ rest =
        lead ++ nipText [] one.1 ++ delim :: (inner ++ nipText [] two.1 ++ rest) := by
      simp only [Value.text, parts, List.append_assoc, List.cons_append]
    rw [text]
    refine ⟨nipText [] one.1, inner ++ nipText [] two.1 ++ rest,
      nextValue_token (by simp) isLead (nipText_ne_nil (Nip.ne_nil one)) (clean one) (behind two), ?_⟩
    simp only [Optset.readValue, second, resolves, Option.map_some, Option.bind_some, callOf,
      Value.bytes, List.length_append, one.2, two.2]
    rfl
  | u8 number fits =>
    refine ⟨unsignedText number, rest.drop 1, nextValue_token (by simp) isLead
      (unsignedText_ne_nil number) (unsignedText_clean number (noDigits rfl)) ends, ?_⟩
    simp only [Optset.readValue, bbStrtou_unsignedText (.inl rfl) (by omega : number < 2 ^ 32)]
    rfl
  | u16 number fits =>
    refine ⟨unsignedText number, rest.drop 1, nextValue_token (by simp) isLead
      (unsignedText_ne_nil number) (unsignedText_clean number (noDigits rfl)) ends, ?_⟩
    simp only [Optset.readValue, bbStrtou_unsignedText (.inl rfl) (by omega : number < 2 ^ 32)]
    rfl
  | u32 number fits =>
    refine ⟨unsignedText number, rest.drop 1, nextValue_token (by simp) isLead
      (unsignedText_ne_nil number) (unsignedText_clean number (noDigits rfl)) ends, ?_⟩
    simp only [Optset.readValue, bbStrtou_unsignedText (.inl rfl) fits]
    rfl
  | s32 number low high =>
    refine ⟨intText number, rest.drop 1, nextValue_token (by simp) isLead
      (intText_ne_nil number) (intText_clean number) ends, ?_⟩
    simp only [Optset.readValue, bbStrtoi_intText low high]
    rfl
  | route net mask valid host gateway =>
    have text : lead ++ (Value.route net mask valid host gateway).text sep.1 ++ rest =
        lead ++ (nipText [] net.1 ++ slash :: unsignedText mask) ++
          delim :: (inner ++ nipText [] gateway.1 ++ rest) := by
      simp only [Value.text, parts, List.append_assoc, List.cons_append]
    have cleanRoute : ∀ c ∈ nipText [] net.1 ++ slash :: unsignedText mask,
        c ∉ Optset.valueDelims := by
      intro c mem
      rcases List.mem_append.mp mem with front | back
      · exact clean net c front
      · rcases List.mem_cons.mp back with rfl | digit
        · decide
        · exact unsignedText_clean mask (noDigits rfl) c digit
    rw [text]
    refine ⟨_, _, nextValue_token (by simp) isLead
      (List.append_ne_nil_of_right_ne_nil _ (List.cons_ne_nil _ _)) cleanRoute (behind gateway), ?_⟩
    have size : (net.1.take ((mask + 7) / 8)).length = (mask + 7) / 8 :=
      List.length_take_of_le (by rw [net.2]; omega)
    simp only [Optset.readValue, List.drop_succ_cons, List.drop_zero]
    rw [routeValue_text resolves net valid gateway (second gateway)]
    simp only [callOf, Value.bytes, List.length_cons, List.length_append, size, gateway.2]

/-- A value behind a separator. -/
structure Entry (type : OptionType) where
  sep : Sep
  within : Sep
  value : Value type

def Entry.text (entry : Entry type) : Text := entry.sep.1 ++ entry.value.text entry.within.1

/-- The values of a text with its first one behind `lead`, and delimiters at its end. -/
structure Written (type : OptionType) where
  lead : {lead : Text // ∀ c ∈ lead, c ∈ Optset.valueDelims}
  within : Sep
  first : Value type
  more : List (Entry type)
  trail : {trail : Text // ∀ c ∈ trail, c ∈ Optset.valueDelims}

def Written.text (written : Written type) : Text :=
  written.lead.1 ++ written.first.text written.within.1 ++
    (written.more.flatMap Entry.text ++ written.trail.1)

def Written.values (written : Written type) : List (Value type) :=
  written.first :: written.more.map Entry.value

theorem nextValue_trail (known : optflag.type ≠ .bin) {trail : Text}
    (isTrail : ∀ c ∈ trail, c ∈ Optset.valueDelims) : Optset.nextValue optflag trail = none := by
  rw [Optset.nextValue, if_neg fun raw => known raw.1, strtok]
  exact if_pos (List.dropWhile_eq_nil_iff.mpr (by simpa using isTrail))

theorem Value.not_bin (value : Value type) : type ≠ .bin := by
  rintro rfl
  cases value

/-- The loop attaches the values of a text, each once and in their order. -/
theorem valuesLoop_written {σ : Type} {attach : σ → Call → Option σ}
    (resolves : ∀ nip : Nip, str2nip (nipText [] nip.1) = some nip)
    (written : Written optflag.type) (single : optflag.list = false → written.more = [])
    (retval : Bool) (state : σ) :
    Optset.valuesLoop str2nip attach optflag retval written.text state =
      ((written.values.map (callOf optflag)).foldlM attach state).map (true, ·) := by
  obtain ⟨⟨lead, isLead⟩, within, first, more, trail, isTrail⟩ := written
  simp only [Written.text, Written.values] at single ⊢
  induction more generalizing lead within first retval state with
  | nil =>
    have ends : ∀ c ∈ trail.head?, c ∈ Optset.valueDelims := fun c mem =>
      isTrail c (List.mem_of_mem_head? mem)
    obtain ⟨token, behind, taken, read⟩ := readValue_text resolves first within isLead ends
    have ended : Optset.nextValue optflag (trail.drop 1) = none :=
      nextValue_trail first.not_bin fun c mem => isTrail c (List.mem_of_mem_drop mem)
    rw [List.flatMap_nil, List.nil_append, Optset.valuesLoop_value taken read]
    simp only [Optset.valuesLoop_over ended, ite_self, List.map_nil, List.map_cons,
      List.foldlM_cons, List.foldlM_nil]
    cases attach state (callOf optflag first) <;> rfl
  | cons entry more ih =>
    have list : optflag.list = true := by
      by_contra notList
      cases single (Bool.eq_false_iff.mpr notList)
    obtain ⟨delim, lead', parts, isDelim, isLead'⟩ := Sep.parts entry.sep
    have behind : (entry :: more).flatMap Entry.text ++ trail =
        delim :: (lead' ++ entry.value.text entry.within.1 ++ (more.flatMap Entry.text ++ trail)) := by
      simp only [List.flatMap_cons, Entry.text, parts, List.cons_append, List.append_assoc]
    have ends : ∀ c ∈ ((entry :: more).flatMap Entry.text ++ trail).head?,
        c ∈ Optset.valueDelims := by
      rw [behind]
      rintro c ⟨⟩
      exact isDelim
    obtain ⟨token, rest, taken, read⟩ := readValue_text resolves first within isLead ends
    rw [Optset.valuesLoop_value taken read, behind, List.drop_succ_cons, List.drop_zero]
    simp only [list, if_true]
    rw [List.map_cons, List.map_cons, List.foldlM_cons]
    cases attach state (callOf optflag first) with
    | none => rfl
    | some next =>
      rw [Option.bind_some, ih true next entry.within entry.value lead' isLead']
      · rfl
      · intro notList
        rw [list] at notList
        cases notList

end Reading

end Busybox.Udhcp
