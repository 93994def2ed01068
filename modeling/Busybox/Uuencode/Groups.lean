import Busybox.Uuencode.Codec
import Mathlib.Data.Nat.Basic

/-!
# Groups of three bytes

A group of the encoder read back by `merge`, and the text of `bb_uuencode` read back
by `decode_base64` with any text behind it.
-/

namespace Busybox.Uuencode

/-- The 6-bit values of a group are values that the tables have characters for. -/
theorem sixBits_lt (s0 s1 s2 : UInt8) :
    ∀ bits ∈ sixBits s0.toNat s1.toNat s2.toNat, bits < 64 := by
  have h0 := s0.toNat_lt
  have h1 := s1.toNat_lt
  have h2 := s2.toNat_lt
  have low (n : Nat) : n &&& 3 = n % 4 := Nat.and_two_pow_sub_one_eq_mod n 2
  have low4 (n : Nat) : n &&& 0xf = n % 16 := Nat.and_two_pow_sub_one_eq_mod n 4
  have low6 (n : Nat) : n &&& 0x3f = n % 64 := Nat.and_two_pow_sub_one_eq_mod n 6
  intro bits member
  simp only [sixBits, low, low4, low6, Nat.shiftLeft_eq, Nat.shiftRight_eq_div_pow, List.mem_cons,
    List.not_mem_nil, or_false] at member
  omega

theorem char_toNat (value : UInt8) (n : Nat) (same : n % 256 = value.toNat) : char n = value := by
  apply UInt8.toNat_inj.1
  rw [← same]
  exact UInt8.toNat_ofNat'

/-- The first byte needs the first two values of its group. -/
theorem merge_first (s0 s1 : UInt8) :
    char ((s0.toNat >>> 2) <<< 2 ||| (((s0.toNat &&& 3) <<< 4) + (s1.toNat >>> 4)) >>> 4) = s0 := by
  have h0 := s0.toNat_lt
  have h1 := s1.toNat_lt
  have low : s0.toNat &&& 3 = s0.toNat % 4 := Nat.and_two_pow_sub_one_eq_mod _ 2
  have high : (((s0.toNat &&& 3) <<< 4) + (s1.toNat >>> 4)) >>> 4 = s0.toNat % 4 := by
    simp only [low, Nat.shiftLeft_eq, Nat.shiftRight_eq_div_pow]
    omega
  apply char_toNat
  rw [high, ← Nat.shiftLeft_add_eq_or_of_lt (by omega), Nat.shiftLeft_eq, Nat.shiftRight_eq_div_pow]
  omega

/-- The second byte: what its first value has too much is cut off by the byte. -/
theorem merge_second (s0 s1 s2 : UInt8) :
    char ((((s0.toNat &&& 3) <<< 4) + (s1.toNat >>> 4)) <<< 4 |||
      (((s1.toNat &&& 0xf) <<< 2) + (s2.toNat >>> 6)) >>> 2) = s1 := by
  have h1 := s1.toNat_lt
  have h2 := s2.toNat_lt
  have low : s1.toNat &&& 0xf = s1.toNat % 16 := Nat.and_two_pow_sub_one_eq_mod _ 4
  have high : (((s1.toNat &&& 0xf) <<< 2) + (s2.toNat >>> 6)) >>> 2 = s1.toNat % 16 := by
    simp only [low, Nat.shiftLeft_eq, Nat.shiftRight_eq_div_pow]
    omega
  apply char_toNat
  rw [high, ← Nat.shiftLeft_add_eq_or_of_lt (by omega)]
  simp only [Nat.shiftLeft_eq, Nat.shiftRight_eq_div_pow]
  omega

theorem merge_third (s1 s2 : UInt8) :
    char ((((s1.toNat &&& 0xf) <<< 2) + (s2.toNat >>> 6)) <<< 6 ||| (s2.toNat &&& 0x3f)) = s2 := by
  have h2 := s2.toNat_lt
  have low : s2.toNat &&& 0x3f = s2.toNat % 64 := Nat.and_two_pow_sub_one_eq_mod _ 6
  apply char_toNat
  rw [low, ← Nat.shiftLeft_add_eq_or_of_lt (Nat.mod_lt _ (by decide))]
  simp only [Nat.shiftLeft_eq, Nat.shiftRight_eq_div_pow]
  omega

/-- `merge` gives back as many bytes of a group as it gets values, less one. -/
theorem merge_sixBits (s0 s1 s2 : UInt8) (count : Nat) :
    merge ((sixBits s0.toNat s1.toNat s2.toNat).take (count + 1)) = [s0, s1, s2].take count := by
  match count with
  | 0 => rfl
  | 1 => simp [sixBits, merge, merge_first]
  | 2 => simp [sixBits, merge, merge_first, merge_second]
  | count + 3 =>
    simp [sixBits, merge, merge_first, merge_second, merge_third]

theorem encodeGroups_length (tbl src : List UInt8) :
    (encodeGroups tbl src).length = 4 * ((src.length + 2) / 3) := by
  induction src using encodeGroups.induct with
  | case1 => rfl
  | case2 => simp [encodeGroups, group, sixBits]
  | case3 => simp [encodeGroups, group, sixBits]
  | case4 s0 s1 s2 rest ih =>
    simp only [encodeGroups, group, sixBits, List.length_append, List.length_map, List.length_cons,
      List.length_nil, ih]
    omega

@[simp] theorem bbUuencode_nil (tbl : List UInt8) : bbUuencode tbl [] = [] := rfl

theorem bbUuencode_one (tbl : List UInt8) (s0 : UInt8) :
    bbUuencode tbl [s0] = (group tbl s0 0 0).take 2 ++ [tbl.getD 64 0, tbl.getD 64 0] := rfl

theorem bbUuencode_two (tbl : List UInt8) (s0 s1 : UInt8) :
    bbUuencode tbl [s0, s1] = (group tbl s0 s1 0).take 3 ++ [tbl.getD 64 0] := rfl

theorem bbUuencode_cons (tbl : List UInt8) (s0 s1 s2 : UInt8) (rest : List UInt8) :
    bbUuencode tbl (s0 :: s1 :: s2 :: rest) = group tbl s0 s1 s2 ++ bbUuencode tbl rest := by
  have same : missing (s0 :: s1 :: s2 :: rest).length = missing rest.length := by
    simp only [missing, List.length_cons]
    omega
  have enough : missing rest.length ≤ (encodeGroups tbl rest).length := by
    rw [encodeGroups_length, missing]
    omega
  simp only [bbUuencode, same, encodeGroups, List.length_append, Nat.add_sub_assoc enough,
    List.take_length_add_append, List.append_assoc]

/-- Four characters for three bytes that have begun. -/
theorem bbUuencode_length (tbl src : List UInt8) :
    (bbUuencode tbl src).length = 4 * ((src.length + 2) / 3) := by
  have enough : missing src.length ≤ (encodeGroups tbl src).length := by
    rw [encodeGroups_length, missing]
    omega
  rw [bbUuencode, List.length_append, List.length_take, List.length_replicate, ← encodeGroups_length tbl]
  omega

theorem tablePtr_getD : ∀ bits < 64, tablePtr (uuencTblBase64.getD bits 0) = some bits := by
  decide +kernel

theorem tablePtr_termination : tablePtr (uuencTblBase64.getD 64 0) = some 64 := by decide

/-- Characters of the table are fetched as the values they stand for. -/
theorem fetch_map (sixBit values src : List _) (room : sixBit.length + values.length ≤ 4)
    (small : ∀ bits ∈ values, bits < 64) :
    fetch sixBit ((values.map fun bits => uuencTblBase64.getD bits 0) ++ src) =
      fetch (sixBit ++ values) src := by
  induction values generalizing sixBit with
  | nil => simp
  | cons bits values ih =>
    have size := small bits (List.mem_cons_self ..)
    rw [List.length_cons] at room
    have fetched := ih (sixBit ++ [bits]) (by simp; omega)
      fun later member => small later (List.mem_cons_of_mem _ member)
    rw [List.append_assoc, List.singleton_append] at fetched
    rw [List.map_cons, List.cons_append, fetch, if_pos (by omega), tablePtr_getD bits size]
    simpa [Nat.ne_of_lt size] using fetched

theorem fetch_full {sixBit : List Nat} (full : 4 ≤ sixBit.length) (src : List UInt8) :
    fetch sixBit src = .values sixBit src := by
  cases src <;> simp [fetch, Nat.not_lt.2 full]

theorem fetch_termination {sixBit : List Nat} (room : sixBit.length < 4) (src : List UInt8) :
    fetch sixBit (uuencTblBase64.getD 64 0 :: src) = .values sixBit src := by
  rw [fetch, if_pos room, tablePtr_termination]
  rfl

theorem decodeBase64_values {sixBit : List Nat} {src rest : List UInt8}
    (fetched : fetch [] src = .values sixBit rest) :
    decodeBase64 src = (merge sixBit ++ (decodeBase64 rest).1, (decodeBase64 rest).2) := by
  rw [decodeBase64]
  split
  · rename_i other
    rw [fetched] at other
    cases other
  · rename_i other
    rw [fetched] at other
    cases other
    rfl

theorem decodeBase64_nul {sixBit : List Nat} {src : List UInt8}
    (fetched : fetch [] src = .nul sixBit) :
    decodeBase64 src = ([], if sixBit = [] then [] else src) := by
  rw [decodeBase64]
  split
  · rename_i other
    rw [fetched] at other
    cases other
    rfl
  · rename_i other
    rw [fetched] at other
    cases other

@[simp] theorem decodeBase64_nil : decodeBase64 [] = ([], []) :=
  decodeBase64_nul (show fetch [] [] = .nul [] from rfl)

/-- Part of a group and the termination character behind it. -/
theorem decodeBase64_short (s0 s1 s2 : UInt8) (count : Nat) (short : count < 3)
    (src : List UInt8) :
    decodeBase64 ((group uuencTblBase64 s0 s1 s2).take (count + 1) ++
        uuencTblBase64.getD 64 0 :: src) =
      ([s0, s1, s2].take count ++ (decodeBase64 src).1, (decodeBase64 src).2) := by
  have size : ((sixBits s0.toNat s1.toNat s2.toNat).take (count + 1)).length < 4 := by
    rw [List.length_take]
    omega
  rw [group, ← List.map_take, ← merge_sixBits]
  apply decodeBase64_values
  rw [fetch_map _ _ _ (by simpa using Nat.le_of_lt size) fun bits member =>
    sixBits_lt s0 s1 s2 bits (List.mem_of_mem_take member)]
  exact fetch_termination size src

theorem decodeBase64_group (s0 s1 s2 : UInt8) (src : List UInt8) :
    decodeBase64 (group uuencTblBase64 s0 s1 s2 ++ src) =
      (s0 :: s1 :: s2 :: (decodeBase64 src).1, (decodeBase64 src).2) := by
  have fetched : fetch [] (group uuencTblBase64 s0 s1 s2 ++ src) =
      .values (sixBits s0.toNat s1.toNat s2.toNat) src := by
    rw [group, fetch_map _ _ _ (by simp [sixBits]) (sixBits_lt s0 s1 s2)]
    exact fetch_full (by simp [sixBits]) src
  rw [decodeBase64_values fetched]
  exact congrArg (·, (decodeBase64 src).2)
    (congrArg (· ++ (decodeBase64 src).1) (merge_sixBits s0 s1 s2 3))

/-- A termination character alone is decoded to nothing. -/
theorem decodeBase64_termination (src : List UInt8) :
    decodeBase64 (uuencTblBase64.getD 64 0 :: src) = decodeBase64 src := by
  rw [decodeBase64_values (fetch_termination (by decide) src)]
  rfl

/-- The text of `bb_uuencode` is decoded whatever comes behind it. -/
theorem decodeBase64_bbUuencode (bytes src : List UInt8) :
    decodeBase64 (bbUuencode uuencTblBase64 bytes ++ src) =
      (bytes ++ (decodeBase64 src).1, (decodeBase64 src).2) := by
  induction bytes using encodeGroups.induct with
  | case1 => rfl
  | case2 s0 =>
    rw [bbUuencode_one, List.append_assoc, List.cons_append,
      decodeBase64_short s0 0 0 1 (by decide), List.singleton_append, decodeBase64_termination]
    rfl
  | case3 s0 s1 =>
    rw [bbUuencode_two, List.append_assoc, List.singleton_append,
      decodeBase64_short s0 s1 0 2 (by decide)]
    rfl
  | case4 s0 s1 s2 rest ih =>
    rw [bbUuencode_cons, List.append_assoc, decodeBase64_group, ih]
    rfl

end Busybox.Uuencode
