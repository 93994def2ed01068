import Busybox.Libbb.Strings
import Busybox.Lib.Directories

/-!
# Unsafe prefixes of member names

`strip_unsafe_prefix` takes away everything up to and including the last ".." component
that something follows. One at the very end of the name it leaves, so a name is safe
behind it exactly when its last component is another.
-/

namespace Busybox.Archival

open Components

def slash : UInt8 := 47

/-- The component that refers to the parent directory. -/
def parentDir : List UInt8 := ascii ".."

/-- `strstr`: the string from the first place on at which the needle is found. -/
def strstr (needle : List UInt8) : List UInt8 → Option (List UInt8)
  | [] => if needle.isPrefixOf [] then some [] else none
  | c :: cp => if needle.isPrefixOf (c :: cp) then some (c :: cp) else strstr needle cp

theorem strstr_some {needle cp cp2 : List UInt8} (found : strstr needle cp = some cp2) :
    ∃ front rest, cp = front ++ cp2 ∧ cp2 = needle ++ rest := by
  induction cp with
  | nil =>
    rw [strstr] at found
    split at found
    case isTrue isPrefix =>
      obtain ⟨rest, split⟩ := List.isPrefixOf_iff_prefix.mp isPrefix
      cases found
      exact ⟨[], rest, rfl, split.symm⟩
    case isFalse => cases found
  | cons c cp ih =>
    rw [strstr] at found
    split at found
    case isTrue isPrefix =>
      obtain ⟨rest, split⟩ := List.isPrefixOf_iff_prefix.mp isPrefix
      cases found
      exact ⟨[], rest, rfl, split.symm⟩
    case isFalse =>
      obtain ⟨front, rest, rfl, split⟩ := ih found
      exact ⟨c :: front, rest, rfl, split⟩

theorem strstr_none {needle cp : List UInt8} (missing : strstr needle cp = none) :
    ¬ needle <:+: cp := by
  induction cp with
  | nil =>
    rw [strstr] at missing
    split at missing
    case isTrue => cases missing
    case isFalse notPrefix =>
      rw [List.infix_nil]
      rintro rfl
      exact notPrefix rfl
  | cons c cp ih =>
    rw [strstr] at missing
    split at missing
    case isTrue => cases missing
    case isFalse notPrefix =>
      rw [List.infix_cons_iff]
      rintro (isPrefix | later)
      · exact notPrefix (List.isPrefixOf_iff_prefix.mpr isPrefix)
      · exact ih missing later

/-- The loop of `strip_unsafe_prefix`. -/
def stripLoop (cp : List UInt8) : List UInt8 :=
  if cp.head? = some slash then stripLoop cp.tail
  else if (ascii "../").isPrefixOf cp then stripLoop (cp.drop 3)
  else
    match _found : strstr (ascii "/../") cp with
    | none => cp
    | some cp2 => stripLoop (cp2.drop 4)
termination_by cp.length
decreasing_by
  · cases cp with
    | nil => contradiction
    | cons c cp => exact Nat.lt_succ_self _
  · obtain ⟨rest, rfl⟩ := List.isPrefixOf_iff_prefix.mp ‹_›
    simp [ascii]
    omega
  · obtain ⟨front, rest, rfl, rfl⟩ := strstr_some _found
    simp [ascii]
    omega

/-- What `strip_unsafe_prefix` does: the pointer it returns, the text after "removing
leading" in its message, and the static `warned`. -/
structure Stripped where
  cp : List UInt8
  removing : Option (List UInt8)
  warned : Bool
deriving DecidableEq, Repr

/-- `strip_unsafe_prefix`. -/
def stripUnsafePrefix (warned : Bool) (str : List UInt8) : Stripped :=
  let cp := stripLoop str
  if cp ≠ str ∧ ¬ warned then
    { cp, removing := some (str.take (str.length - cp.length)), warned := true }
  else { cp, removing := none, warned }

theorem stripUnsafePrefix_cp (warned : Bool) (str : List UInt8) :
    (stripUnsafePrefix warned str).cp = stripLoop str := by
  simp only [stripUnsafePrefix]
  split <;> rfl

/-- The loop cuts whole components. -/
theorem stripLoop_cut (cp : List UInt8) : Cut slash cp (stripLoop cp) := by
  fun_induction stripLoop cp with
  | case1 cp leading ih =>
    obtain ⟨rest, rfl⟩ := List.head?_eq_some_iff.mp leading
    exact (Cut.of_front [] rest).trans ih
  | case2 cp _ leading ih =>
    obtain ⟨rest, rfl⟩ := List.isPrefixOf_iff_prefix.mp leading
    exact (Cut.of_front parentDir rest).trans ih
  | case3 cp => exact Cut.refl cp
  | case4 cp _ _ cp2 found ih =>
    obtain ⟨front, rest, rfl, rfl⟩ := strstr_some found
    have cut : Cut slash (front ++ (ascii "/../" ++ rest)) rest := by
      simpa [ascii, slash] using Cut.of_front (front ++ ascii "/..") rest
    exact cut.trans ih

/-- What a name is like in which the loop finds nothing to take away. -/
structure Settled (cp : List UInt8) : Prop where
  relative : cp.head? ≠ some slash
  noLeading : ¬ ascii "../" <+: cp
  noInner : ¬ ascii "/../" <:+: cp

theorem stripLoop_settled (cp : List UInt8) : Settled (stripLoop cp) := by
  fun_induction stripLoop cp with
  | case1 cp leading ih => exact ih
  | case2 cp relative leading ih => exact ih
  | case3 cp relative leading missing =>
    exact ⟨relative, fun isPrefix => leading (List.isPrefixOf_iff_prefix.mpr isPrefix),
      strstr_none missing⟩
  | case4 cp relative leading cp2 found ih => exact ih

theorem Settled.stripLoop_eq {cp : List UInt8} (settled : Settled cp) : stripLoop cp = cp := by
  rw [stripLoop, if_neg settled.relative,
    if_neg fun isPrefix => settled.noLeading (List.isPrefixOf_iff_prefix.mp isPrefix)]
  split
  case h_1 => rfl
  case h_2 cp2 found =>
    obtain ⟨front, rest, rfl, rfl⟩ := strstr_some found
    exact absurd ⟨front, rest, by simp⟩ settled.noInner

/-- Where nothing is left to take away, ".." can only be the last component. -/
theorem Settled.last {cp : List UInt8} (settled : Settled cp)
    (parent : Component slash parentDir cp) : Cut slash cp parentDir := by
  rcases parent.cases with whole | leading | ⟨front, rfl⟩ | inner
  · exact whole ▸ Cut.refl cp
  · exact absurd leading settled.noLeading
  · exact Cut.of_front front parentDir
  · exact absurd inner settled.noInner

/-- A name that is relative and has no ".." component. -/
structure SafeName (name : List UInt8) : Prop where
  relative : name.head? ≠ some slash
  noParent : ¬ Component slash parentDir name

theorem SafeName.settled {name : List UInt8} (safe : SafeName name) : Settled name where
  relative := safe.relative
  noLeading := by
    rintro ⟨rest, rfl⟩
    exact safe.noParent ⟨slash :: rest, by simpa [parentDir, ascii, slash] using Cut.refl _, .inr rfl⟩
  noInner := by
    rintro ⟨front, rest, rfl⟩
    refine safe.noParent ⟨slash :: rest, ?_, .inr rfl⟩
    simpa [parentDir, ascii, slash] using Cut.of_front front (parentDir ++ slash :: rest)

/-- The name that is left is safe exactly when ".." is not the last component. -/
theorem stripLoop_safe_iff (str : List UInt8) :
    SafeName (stripLoop str) ↔ ¬ Cut slash str parentDir := by
  have whole : slash ∉ parentDir := by decide
  rw [(stripLoop_cut str).last_iff whole]
  constructor
  · intro safe last
    exact safe.noParent last.last_component
  · intro other
    exact ⟨(stripLoop_settled str).relative, fun parent => other ((stripLoop_settled str).last parent)⟩

/-- What the name behind `strip_unsafe_prefix` is to be. -/
structure Sanitized (str cp : List UInt8) : Prop where
  suffix : cp <:+ str
  safe : SafeName cp
  unchanged : SafeName str → cp = str

/-- `strip_unsafe_prefix` leaves a safe suffix, and a safe name as it is, exactly when the
name does not end with a ".." component. -/
theorem stripUnsafePrefix_sanitized_iff (warned : Bool) (str : List UInt8) :
    Sanitized str (stripUnsafePrefix warned str).cp ↔ ¬ Cut slash str parentDir := by
  rw [stripUnsafePrefix_cp, ← stripLoop_safe_iff]
  constructor
  · exact fun sanitized => sanitized.safe
  · intro safe
    exact ⟨(stripLoop_cut str).suffix, safe, fun clean => clean.settled.stripLoop_eq⟩

/-- `a/..` is left as it is. -/
theorem stripUnsafePrefix_trailing :
    ¬ ∀ warned str, Sanitized str (stripUnsafePrefix warned str).cp := by
  intro sanitized
  have last : Cut slash (ascii "a/..") parentDir := ⟨ascii "a/", rfl, .inr rfl⟩
  have unsafe_ := (sanitized false (ascii "a/..")).safe
  rw [stripUnsafePrefix_cp] at unsafe_
  exact (stripLoop_safe_iff (ascii "a/..")).mp unsafe_ last

end Busybox.Archival
