import Mathlib.Data.List.Basic

/-!
# Text in bytes
-/

namespace Busybox

/-- The bytes of an ASCII text. -/
def ascii (text : String) : List UInt8 := text.toList.map fun ch => ch.toNat.toUInt8

end Busybox

/-!
## Strings in a buffer

The string functions of `libbb` that the parsers edit their lines with. A string is what stands in
a buffer from a pointer to the next NUL. Nothing stands outside the buffer.
-/

namespace Busybox.Libbb.Strings

/-- `isblank` -/
def isblank (c : UInt8) : Bool := c == 32 || c == 9

/-- `isspace` -/
def isspace (c : UInt8) : Bool := c == 32 || (9 ≤ c && c ≤ 13)

/-- Where the first character is that is no white space. -/
def skipWhitespace (buffer : List UInt8) (s : Nat) : Option Nat :=
  match _read : buffer[s]? with
  | none => none
  | some c => if isspace c then skipWhitespace buffer (s + 1) else some s
termination_by buffer.length - s
decreasing_by
  have inside := (List.getElem?_eq_some_iff.mp _read).1
  omega

/-- `while ((*dst = *src) != '\0') { dst++; src++; }` -/
def copyLoop (buffer : List UInt8) (dst src : Nat) : Option (List UInt8) :=
  match _read : buffer[src]? with
  | none => none
  | some c =>
    if dst < buffer.length then
      if c = 0 then some (buffer.set dst c) else copyLoop (buffer.set dst c) (dst + 1) (src + 1)
    else none
termination_by buffer.length - src
decreasing_by
  have inside := (List.getElem?_eq_some_iff.mp _read).1
  rw [List.length_set]
  omega

/-- `overlapping_strcpy` -/
def overlappingStrcpy (buffer : List UInt8) (dst src : Nat) : Option (List UInt8) :=
  if dst ≠ src then copyLoop buffer dst src else some buffer

theorem isspace_of_isblank {c : UInt8} (blank : isblank c = true) : isspace c = true := by
  rcases (Bool.or_eq_true _ _).mp blank with space | tab
  · rw [isspace, space, Bool.true_or]
  · rw [beq_iff_eq.mp tab]
    rfl

theorem isspace_zero : isspace 0 = false := rfl

variable {front gap text behind : List UInt8}

/-- White space is skipped up to the end of the string. -/
theorem skipWhitespace_string (front text behind : List UInt8) {s : Nat}
    (place : s = front.length) :
    skipWhitespace (front ++ (text ++ 0 :: behind)) s =
      some (s + (text.takeWhile isspace).length) := by
  subst place
  induction text generalizing front with
  | nil =>
    have here : (front ++ ([] ++ 0 :: behind))[front.length]? = some 0 := by simp
    rw [skipWhitespace]
    split
    case h_1 nothing => cases here.symm.trans nothing
    case h_2 c read =>
      obtain rfl : 0 = c := Option.some.inj (here.symm.trans read)
      rfl
  | cons d text ih =>
    have here : (front ++ (d :: text ++ 0 :: behind))[front.length]? = some d := by simp
    rw [skipWhitespace]
    split
    case h_1 nothing => cases here.symm.trans nothing
    case h_2 c read =>
      obtain rfl : d = c := Option.some.inj (here.symm.trans read)
      by_cases space : isspace d = true
      · have later := ih (front ++ [d])
        rw [List.length_append, List.append_assoc, List.singleton_append] at later
        rw [if_pos space, List.takeWhile_cons_of_pos space]
        exact later.trans (by simp; omega)
      · rw [if_neg space, List.takeWhile_cons_of_neg space]
        rfl

theorem copyLoop_read {buffer : List UInt8} {dst src : Nat} {c : UInt8}
    (read : buffer[src]? = some c) (inside : dst < buffer.length) :
    copyLoop buffer dst src =
      if c = 0 then some (buffer.set dst c)
      else copyLoop (buffer.set dst c) (dst + 1) (src + 1) := by
  rw [copyLoop]
  split
  case h_1 nothing => cases read.symm.trans nothing
  case h_2 c' read' =>
    obtain rfl : c = c' := Option.some.inj (read.symm.trans read')
    exact if_pos inside

/-- A cell is written in front of a string that it is to be moved to. -/
theorem set_gap (front gap : List UInt8) (d : UInt8) (rest : List UInt8) :
    (front ++ (gap ++ d :: rest)).set front.length d =
      front ++ d :: ((gap ++ [d]).drop 1 ++ rest) := by
  rw [List.set_append_right _ _ (Nat.le_refl _), Nat.sub_self]
  cases gap <;> simp

/-- The string is moved over the gap in front of it. Behind its new end the buffer is as before. -/
theorem copyLoop_string (front gap text behind : List UInt8) (clean : 0 ∉ text)
    {dst src : Nat} (start : dst = front.length) (place : src = front.length + gap.length) :
    copyLoop (front ++ (gap ++ (text ++ 0 :: behind))) dst src =
      some (front ++ (text ++ 0 :: ((gap ++ (text ++ [0])).drop (text.length + 1) ++ behind))) := by
  subst start place
  induction text generalizing front gap with
  | nil =>
    have here : (front ++ (gap ++ ([] ++ 0 :: behind)))[front.length + gap.length]? = some 0 := by
      rw [← List.append_assoc, List.nil_append, List.getElem?_append_right (by simp)]
      simp
    rw [copyLoop_read here (by grind), if_pos rfl, List.nil_append, set_gap]
    rfl
  | cons d text ih =>
    obtain ⟨first, later⟩ := not_or.mp (mt List.mem_cons.mpr clean)
    have here : (front ++ (gap ++ (d :: text ++ 0 :: behind)))[front.length + gap.length]? =
        some d := by
      rw [← List.append_assoc, List.cons_append, List.getElem?_append_right (by simp)]
      simp
    rw [copyLoop_read here (by grind), if_neg (Ne.symm first), List.cons_append, set_gap]
    have moved := ih (front ++ [d]) ((gap ++ [d]).drop 1) later
    have further : (front ++ [d]).length + ((gap ++ [d]).drop 1).length =
        front.length + gap.length + 1 := by
      simp
      omega
    rw [further, List.length_append, List.length_singleton, List.append_assoc,
      List.singleton_append] at moved
    rw [moved]
    cases gap <;> simp

theorem overlappingStrcpy_string (front gap text behind : List UInt8) (clean : 0 ∉ text)
    {dst src : Nat} (start : dst = front.length) (place : src = front.length + gap.length) :
    overlappingStrcpy (front ++ (gap ++ (text ++ 0 :: behind))) dst src =
      some (front ++ (text ++ 0 :: ((gap ++ (text ++ [0])).drop (text.length + 1) ++ behind))) := by
  unfold overlappingStrcpy
  split
  · exact copyLoop_string front gap text behind clean start place
  case isFalse same =>
    obtain rfl : gap = [] := List.length_eq_zero_iff.mp (by omega)
    simp

/-! ### Strings one behind the other -/

/-- The string at a pointer. -/
def stringAt (buffer : List UInt8) (p : Nat) : Option (List UInt8) :=
  if 0 ∈ buffer.drop p then some ((buffer.drop p).takeWhile (· ≠ 0)) else none

/-- `nth_string`, from a pointer on. -/
def nthString (buffer : List UInt8) : Nat → Nat → Option Nat
  | strings, 0 => some strings
  | strings, n + 1 => do
    let text ← stringAt buffer strings
    nthString buffer (strings + text.length + 1) n

/-- Strings with their NULs. -/
def stored (texts : List (List UInt8)) : List UInt8 := texts.flatMap (· ++ [0])

@[simp] theorem stored_nil : stored [] = [] := rfl

theorem stored_cons (text : List UInt8) (texts : List (List UInt8)) :
    stored (text :: texts) = text ++ 0 :: stored texts := by
  simp [stored]

theorem stored_append (front back : List (List UInt8)) :
    stored (front ++ back) = stored front ++ stored back := by
  simp [stored]

theorem stringAt_string (front text behind : List UInt8) (clean : 0 ∉ text) {p : Nat}
    (place : p = front.length) : stringAt (front ++ (text ++ 0 :: behind)) p = some text := by
  subst place
  have plain : ∀ c ∈ text, decide (c ≠ 0) = true := by
    intro c mem
    refine decide_eq_true ?_
    rintro rfl
    exact clean mem
  rw [stringAt, List.drop_left, if_pos (by simp), List.takeWhile_append_of_pos plain]
  simp

theorem nthString_stored (front : List UInt8) (texts : List (List UInt8)) (behind : List UInt8)
    (clean : ∀ text ∈ texts, 0 ∉ text) {n : Nat} (inside : n ≤ texts.length) {p : Nat}
    (place : p = front.length) :
    nthString (front ++ (stored texts ++ behind)) p n =
      some (p + (stored (texts.take n)).length) := by
  subst place
  induction n generalizing front texts with
  | zero => rfl
  | succ n ih =>
    cases texts with
    | nil => cases inside
    | cons text texts =>
      obtain ⟨here, later⟩ := List.forall_mem_cons.mp clean
      have first := stringAt_string front text (stored texts ++ behind) here rfl
      have further := ih (front ++ (text ++ [0])) texts later (Nat.le_of_succ_le_succ inside)
      have place : front.length + text.length + 1 = (front ++ (text ++ [0])).length := by
        simp
        omega
      rw [← List.cons_append] at first
      rw [nthString, stored_cons, List.append_assoc, first]
      simp only [Option.bind_eq_bind, Option.bind_some, place]
      simp only [List.append_assoc, List.cons_append, List.nil_append] at further ⊢
      rw [further, List.take_succ_cons, stored_cons]
      simp
      omega

end Busybox.Libbb.Strings
