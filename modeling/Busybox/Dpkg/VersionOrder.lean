import Busybox.Dpkg.VersionParts

/-!
# The order of versions

`version_compare` is a total preorder on all strings. On versions it is the order of the policy as
long as `atoi` can tell their epochs apart as the numbers that they are.
-/

namespace Busybox.Dpkg

open Libbb.Xatonum (Text)
open Libbb.Strtol

/-! ## A total preorder -/

def upstreamOf (ver : Text) : Text := (chop (epochOf ver).2).1
def revisionOf (ver : Text) : Text := (chop (epochOf ver).2).2

def compareVersions (ver1 ver2 : Text) : Ordering :=
  (compare (epochOf ver1).1 (epochOf ver2).1).then
    ((compareParts (upstreamOf ver1) (upstreamOf ver2)).then
      (compareParts (revisionOf ver1) (revisionOf ver2)))

instance : Std.TransCmp compareVersions :=
  have : Std.TransCmp fun a b => compare (epochOf a).1 (epochOf b).1 :=
    PaddedOrder.transCmp_on fun a => (epochOf a).1
  have : Std.TransCmp fun a b => compareParts (upstreamOf a) (upstreamOf b) :=
    PaddedOrder.transCmp_on upstreamOf
  have : Std.TransCmp fun a b => compareParts (revisionOf a) (revisionOf b) :=
    PaddedOrder.transCmp_on revisionOf
  (inferInstance : Std.TransCmp (compareLex (fun a b => compare (epochOf a).1 (epochOf b).1)
    (compareLex (fun a b => compareParts (upstreamOf a) (upstreamOf b))
      fun a b => compareParts (revisionOf a) (revisionOf b))))

theorem strchr_subset {c d : UInt8} {text rest : Text} (found : strchr c text = some rest)
    (mem : d ∈ rest) : d ∈ text := by
  unfold strchr at found
  split at found
  · cases found
  · rename_i split_
    cases found
    exact (List.dropWhile_sublist _).subset (split_ ▸ List.mem_cons_of_mem _ mem)

theorem strrchr_subset {c d : UInt8} {text front rest : Text}
    (found : strrchr c text = some (front, rest)) (mem : d ∈ front ∨ d ∈ rest) : d ∈ text := by
  unfold strrchr at found
  split at found
  · cases found
  · rename_i split_
    cases found
    rw [List.mem_reverse, List.mem_reverse] at mem
    rcases mem with mem | mem
    · exact List.mem_reverse.mp
        ((List.dropWhile_sublist _).subset (split_ ▸ List.mem_cons_of_mem _ mem))
    · exact List.mem_reverse.mp ((List.takeWhile_sublist _).subset mem)

/-- What a version is taken apart into has no NUL either. -/
theorem not_mem_chop (ver : CString) : 0 ∉ upstreamOf ver.1 ∧ 0 ∉ revisionOf ver.1 := by
  have behind : 0 ∉ (epochOf ver.1).2 := by
    unfold epochOf
    cases found : strchr 58 ver.1 with
    | none => exact ver.2
    | some rest => exact fun mem => ver.2 (strchr_subset found mem)
  unfold upstreamOf revisionOf chop
  cases found : strrchr 45 (epochOf ver.1).2 with
  | none => exact ⟨behind, List.not_mem_nil⟩
  | some parts =>
    exact ⟨fun mem => behind (strrchr_subset found (.inl mem)),
      fun mem => behind (strrchr_subset found (.inr mem))⟩

theorem versionCompare_spec (ver1 ver2 : CString) :
    compare (versionCompare ver1.1 ver2.1) 0 = compareVersions ver1.1 ver2.1 := by
  obtain ⟨upstream1, revision1⟩ := not_mem_chop ver1
  obtain ⟨upstream2, revision2⟩ := not_mem_chop ver2
  have upstream := versionComparePart_spec upstream1 upstream2
  have revision := versionComparePart_spec revision1 revision2
  unfold compareVersions versionCompare
  simp only
  rw [← upstream, ← revision]
  rcases Nat.lt_trichotomy (epochOf ver1.1).1 (epochOf ver2.1).1 with less | same | more
  · rw [if_pos less, Nat.compare_eq_lt.mpr less]
    rfl
  · rw [if_neg (Nat.not_lt_of_le same.ge), if_neg (Nat.not_lt_of_le same.le),
      Nat.compare_eq_eq.mpr same, Ordering.eq_then]
    by_cases zero : versionComparePart (upstreamOf ver1.1) (upstreamOf ver2.1) = 0
    · rw [zero, Int.compare_eq_eq.mpr rfl, Ordering.eq_then]
      exact congrArg (compare · 0) (if_pos zero)
    · rw [then_of_ne fun equal => zero (Int.compare_eq_eq.mp equal)]
      exact congrArg (compare · 0) (if_neg zero)
  · rw [if_neg (Nat.lt_asymm more), if_pos more, Nat.compare_eq_gt.mpr more]
    rfl

theorem versionCompare_le (ver1 ver2 : CString) :
    versionCompare ver1.1 ver2.1 ≤ 0 ↔ (compareVersions ver1.1 ver2.1).isLE := by
  rw [← versionCompare_spec, Int.isLE_compare]

theorem le_versionCompare (ver1 ver2 : CString) :
    0 ≤ versionCompare ver1.1 ver2.1 ↔ (compareVersions ver2.1 ver1.1).isLE := by
  have swapped : compareVersions ver2.1 ver1.1 = (compareVersions ver1.1 ver2.1).swap :=
    Std.OrientedCmp.eq_swap
  rw [swapped, Ordering.isLE_swap, ← versionCompare_spec, Int.isGE_compare]

/-- What a comparison of strings keeps, for every choice of them. -/
structure Preordered (cmp : CString → CString → Int) : Prop where
  refl : ∀ a, cmp a a = 0
  swap : ∀ a b, cmp a b ≤ 0 ↔ 0 ≤ cmp b a
  trans : ∀ a b c, cmp a b ≤ 0 → cmp b c ≤ 0 → cmp a c ≤ 0

theorem versionCompare_preordered :
    Preordered fun ver1 ver2 => versionCompare ver1.1 ver2.1 where
  refl := by
    intro ver
    have same : compareVersions ver.1 ver.1 = .eq := Std.ReflCmp.compare_self
    exact Int.compare_eq_eq.mp ((versionCompare_spec ver ver).trans same)
  swap := by
    intro ver1 ver2
    rw [versionCompare_le, le_versionCompare]
  trans := by
    intro ver1 ver2 ver3 first second
    rw [versionCompare_le] at first second ⊢
    exact Std.TransCmp.isLE_trans first second

/-! ## The order of the policy -/

/-- A version: a colon in it is behind an epoch, and the last hyphen is before the revision. -/
structure Version where
  epoch : Option Digits
  upstream : Text
  revision : Option Text
  clean : 0 ∉ upstream ∧ ∀ r ∈ revision, 0 ∉ r
  colon : epoch = none → 58 ∉ upstream ∧ ∀ r ∈ revision, 58 ∉ r
  hyphen : (revision = none → 45 ∉ upstream) ∧ ∀ r ∈ revision, 45 ∉ r

namespace Version

def behindEpoch (v : Version) : Text :=
  match v.revision with
  | some revision => v.upstream ++ 45 :: revision
  | none => v.upstream

def text (v : Version) : Text :=
  match v.epoch with
  | some epoch => epoch.1 ++ 58 :: v.behindEpoch
  | none => v.behindEpoch

/-- No epoch is the epoch 0. -/
def epochValue (v : Version) : Nat := (v.epoch.map Digits.value).getD 0

/-- The order of two versions of the same epoch. -/
def compareRest (v w : Version) : Ordering :=
  (compareParts v.upstream w.upstream).then
    (compareParts (v.revision.getD []) (w.revision.getD []))

def policyCompare (v w : Version) : Ordering :=
  (compare v.epochValue w.epochValue).then (compareRest v w)

theorem behindEpoch_subset (v : Version) {c : UInt8} (mem : c ∈ v.behindEpoch) :
    c ∈ v.upstream ∨ c = 45 ∨ ∃ revision ∈ v.revision, c ∈ revision := by
  unfold behindEpoch at mem
  split at mem
  · rename_i revision some_
    rcases List.mem_append.mp mem with mem | mem
    · exact .inl mem
    · rcases List.mem_cons.mp mem with same | mem
      · exact .inr (.inl same)
      · exact .inr (.inr ⟨revision, some_, mem⟩)
  · exact .inl mem

theorem text_clean (v : Version) : 0 ∉ v.text := by
  have behind : 0 ∉ v.behindEpoch := by
    intro mem
    rcases v.behindEpoch_subset mem with mem | same | ⟨revision, some_, mem⟩
    · exact v.clean.1 mem
    · cases same
    · exact v.clean.2 revision some_ mem
  unfold text
  split
  · rename_i epoch some_
    intro mem
    rcases List.mem_append.mp mem with mem | mem
    · exact absurd (epoch.2.2 0 mem) (by decide)
    · rcases List.mem_cons.mp mem with same | mem
      · cases same
      · exact behind mem
  · exact behind

def cstring (v : Version) : CString := ⟨v.text, v.text_clean⟩

end Version

/-- What `atoi` leaves of an epoch: a `long` cut to 32 bits. -/
def atoiEpoch (n : Nat) : Nat := min n (2 ^ 63 - 1) % 2 ^ 32

theorem unsigned_atoi (epoch : Digits) (rest : Text) :
    unsigned (atoi (epoch.1 ++ 58 :: rest)) = atoiEpoch epoch.value := by
  have wrapped : (min (epoch.value : Int) LONG_MAX).bmod (2 ^ 32) % ((2 ^ 32 : Nat) : Int) =
      min (epoch.value : Int) LONG_MAX % ((2 ^ 32 : Nat) : Int) := Int.bmod_emod
  rw [unsigned, atoi, strtol_digits epoch rfl]
  refine (congrArg Int.toNat wrapped).trans ?_
  rw [atoiEpoch, LONG_MAX]
  omega

theorem strchr_append {c : UInt8} {front : Text} (absent : c ∉ front) (rest : Text) :
    strchr c (front ++ c :: rest) = some rest := by
  have passed : (front ++ c :: rest).dropWhile (· ≠ c) = c :: rest := by
    have all : ∀ d ∈ front, decide (d ≠ c) = true := fun d mem =>
      decide_eq_true fun same => absent (same ▸ mem)
    rw [List.dropWhile_append_of_pos all, List.dropWhile_cons_of_neg (by simp)]
  rw [strchr, passed]

theorem strchr_eq_none {c : UInt8} {text : Text} (absent : c ∉ text) : strchr c text = none := by
  have passed : text.dropWhile (· ≠ c) = [] :=
    List.dropWhile_eq_nil_iff.mpr fun d mem => decide_eq_true fun same => absent (same ▸ mem)
  rw [strchr, passed]

theorem strrchr_append {c : UInt8} (front : Text) {rest : Text} (absent : c ∉ rest) :
    strrchr c (front ++ c :: rest) = some (front, rest) := by
  have all : ∀ d ∈ rest.reverse, decide (d ≠ c) = true := fun d mem =>
    decide_eq_true fun same => absent (same ▸ List.mem_reverse.mp mem)
  have reversed : (front ++ c :: rest).reverse = rest.reverse ++ c :: front.reverse := by simp
  have passed : (front ++ c :: rest).reverse.dropWhile (· ≠ c) = c :: front.reverse := by
    rw [reversed, List.dropWhile_append_of_pos all, List.dropWhile_cons_of_neg (by simp)]
  have taken : (front ++ c :: rest).reverse.takeWhile (· ≠ c) = rest.reverse := by
    rw [reversed, List.takeWhile_append_of_pos all, List.takeWhile_cons_of_neg (by simp),
      List.append_nil]
  rw [strrchr, passed, taken]
  simp only [List.reverse_reverse]

theorem strrchr_eq_none {c : UInt8} {text : Text} (absent : c ∉ text) :
    strrchr c text = none := by
  have passed : text.reverse.dropWhile (· ≠ c) = [] :=
    List.dropWhile_eq_nil_iff.mpr fun d mem =>
      decide_eq_true fun same => absent (same ▸ List.mem_reverse.mp mem)
  rw [strrchr, passed]

namespace Version

theorem epochOf_text (v : Version) : epochOf v.text = (atoiEpoch v.epochValue, v.behindEpoch) := by
  unfold text epochValue
  cases epoch_ : v.epoch with
  | some epoch =>
    have absent : 58 ∉ epoch.1 := fun mem => absurd (epoch.2.2 58 mem) (by decide)
    rw [epochOf, strchr_append absent]
    exact congrArg (·, v.behindEpoch) (unsigned_atoi epoch _)
  | none =>
    have absent : 58 ∉ v.behindEpoch := by
      intro mem
      rcases v.behindEpoch_subset mem with mem | same | ⟨revision, some_, mem⟩
      · exact (v.colon epoch_).1 mem
      · cases same
      · exact (v.colon epoch_).2 revision some_ mem
    rw [epochOf, strchr_eq_none absent]
    rfl

theorem chop_behindEpoch (v : Version) :
    chop v.behindEpoch = (v.upstream, v.revision.getD []) := by
  unfold behindEpoch chop
  cases revision_ : v.revision with
  | some revision =>
    rw [strrchr_append v.upstream (v.hyphen.2 revision revision_)]
    rfl
  | none =>
    rw [strrchr_eq_none (v.hyphen.1 revision_)]
    rfl

theorem compareVersions_text (v w : Version) :
    compareVersions v.text w.text =
      (compare (atoiEpoch v.epochValue) (atoiEpoch w.epochValue)).then (compareRest v w) := by
  rw [compareVersions, upstreamOf, upstreamOf, revisionOf, revisionOf, v.epochOf_text,
    w.epochOf_text, v.chop_behindEpoch, w.chop_behindEpoch]
  rfl

end Version

/-- Two comparisons that go on with the same one agree if they do already, or if only the first of
them says nothing and what follows says the same as the second. -/
theorem then_eq_then_iff {first second rest : Ordering} (reflects : second = .eq → first = .eq) :
    first.then rest = second.then rest ↔ first = second ∨ (first = .eq ∧ rest = second) := by
  cases first <;> cases second <;> cases rest <;> simp_all

/-- The strings are always preordered. On versions the order is that of the policy as long as the
epochs that `atoi` reads are ordered as they should be, or are equal where what is behind them is
ordered that way. -/
theorem versionCompare_exact_iff (v w : Version) :
    (Preordered fun ver1 ver2 => versionCompare ver1.1 ver2.1) ∧
      (compare (versionCompare v.text w.text) 0 = v.policyCompare w ↔
        compare (atoiEpoch v.epochValue) (atoiEpoch w.epochValue) =
            compare v.epochValue w.epochValue ∨
          (atoiEpoch v.epochValue = atoiEpoch w.epochValue ∧
            v.compareRest w = compare v.epochValue w.epochValue)) := by
  refine ⟨versionCompare_preordered, ?_⟩
  have same (equal : compare v.epochValue w.epochValue = .eq) :
      compare (atoiEpoch v.epochValue) (atoiEpoch w.epochValue) = .eq := by
    rw [Nat.compare_eq_eq.mp equal]
    exact Nat.compare_eq_eq.mpr rfl
  have spec : compare (versionCompare v.text w.text) 0 = compareVersions v.text w.text :=
    versionCompare_spec v.cstring w.cstring
  rw [spec, v.compareVersions_text, Version.policyCompare, then_eq_then_iff same,
    Nat.compare_eq_eq]

/-- `4294967296:1` -/
def wideEpoch : Version where
  epoch := some ⟨ascii "4294967296", List.cons_ne_nil _ _, List.all_eq_true.mp (by decide)⟩
  upstream := ascii "1"
  revision := none
  clean := by decide
  colon := by decide
  hyphen := by decide

/-- `1` -/
def noEpoch : Version where
  epoch := none
  upstream := ascii "1"
  revision := none
  clean := by decide
  colon := by decide
  hyphen := by decide

/-- An epoch of 2^32 is read as none. -/
theorem versionCompare_wideEpoch :
    ¬((Preordered fun ver1 ver2 => versionCompare ver1.1 ver2.1) ∧
      ∀ v w : Version, compare (versionCompare v.text w.text) 0 = v.policyCompare w) := by
  rintro ⟨-, agrees⟩
  have spec := versionCompare_spec wideEpoch.cstring noEpoch.cstring
  have same : wideEpoch.compareRest noEpoch = .eq := by
    have parts_ : compareParts (ascii "1") (ascii "1") = .eq := Std.ReflCmp.compare_self
    have empty : compareParts [] [] = .eq := Std.ReflCmp.compare_self
    exact (congrArg₂ Ordering.then parts_ empty)
  have epochs : atoiEpoch wideEpoch.epochValue = atoiEpoch noEpoch.epochValue := by decide
  have larger : compare wideEpoch.epochValue noEpoch.epochValue = .gt :=
    Nat.compare_eq_gt.mpr (by decide)
  have agree := spec.symm.trans (agrees wideEpoch noEpoch)
  rw [Version.policyCompare, larger] at agree
  have equal := (wideEpoch.compareVersions_text noEpoch).symm.trans agree
  rw [Nat.compare_eq_eq.mpr epochs, same] at equal
  cases equal

end Busybox.Dpkg
