import Busybox.Libbb.ParseMode
import Busybox.Lib.Runs

/-!
# Symbolic modes

A symbolic mode is a list of clauses, and a clause applies its actions one after
another. `Action.apply` is an action as POSIX has it: what `X` and a permcopy
stand for is read off the mode before the action. `bb_parse_mode` reads it after
`=` has cleared bits, and takes the directory bit alone for a directory.
-/

namespace Busybox.Libbb.ParseMode

/-! ## The grammar -/

inductive Class
  | user
  | group
  | other
deriving DecidableEq, Repr

inductive Who
  | all
  | of (part : Class)
deriving DecidableEq, Repr

inductive Letter
  | read
  | write
  | execute
  | search
  | setId
  | sticky
deriving DecidableEq, Repr

inductive Op
  | add
  | remove
  | assign
deriving DecidableEq, Repr

inductive Perm
  | list (letters : List Letter)
  | copy (part : Class)
deriving DecidableEq, Repr

structure Action where
  op : Op
  perm : Perm
deriving DecidableEq, Repr

/-- A clause has at least one action. -/
structure Clause where
  who : List Who
  first : Action
  others : List Action
deriving DecidableEq, Repr

def Class.char : Class → UInt8
  | .user => 117
  | .group => 103
  | .other => 111

def Who.char : Who → UInt8
  | .all => 97
  | .of part => part.char

def Letter.char : Letter → UInt8
  | .read => 114
  | .write => 119
  | .execute => 120
  | .search => 88
  | .setId => 115
  | .sticky => 116

def Op.char : Op → UInt8
  | .add => 43
  | .remove => 45
  | .assign => 61

def Perm.text : Perm → Text
  | .list letters => letters.map Letter.char
  | .copy part => [part.char]

def Action.text (a : Action) : Text := a.op.char :: a.perm.text

def Clause.actions (clause : Clause) : List Action := clause.first :: clause.others

def Clause.text (clause : Clause) : Text :=
  clause.who.map Who.char ++ clause.actions.flatMap Action.text

/-- Clauses between commas; one may be empty. -/
def modeText : List (Option Clause) → Text
  | [] => []
  | [clause] => (clause.map Clause.text).getD []
  | clause :: rest => (clause.map Clause.text).getD [] ++ 44 :: modeText rest

/-! ## What a mode does -/

/-- The permissions of a class. -/
def Class.bits : Class → Mode
  | .user => sIrwxu
  | .group => sIrwxg
  | .other => sIrwxo

def Who.mask : Who → Mode
  | .all => fileModeBits
  | .of .user => sIsuid ||| sIrwxu
  | .of .group => sIsgid ||| sIrwxg
  | .of .other => sIrwxo

def whoBits (who : List Who) : Mode := who.foldl (fun bits part => bits ||| part.mask) 0

/-- The bits that `=` clears. -/
def cleared (who : List Who) : Mode := if who = [] then fileModeBits else whoBits who

/-- The bits that an action may touch. -/
def scope (umask : Mode) (who : List Who) : Mode := if who = [] then ~~~umask else whoBits who

/-- The letters, with `X` counted as `x` or not at all. -/
def lettersBits (anyX : Bool) (letters : List Letter) : Mode :=
  letters.foldl (fun bits letter => bits ||| match letter with
    | .read => 0o444
    | .write => 0o222
    | .execute => sIxugo
    | .search => if anyX then sIxugo else 0
    | .setId => sIsuid ||| sIsgid
    | .sticky => sIsvtx) 0

/-- The file is a directory, or somebody may execute it. -/
def searchable (mode : Mode) : Bool := mode &&& sIfmt = sIfdir ∨ mode &&& sIxugo ≠ 0

/-- The permissions of a class, for everybody. -/
def spread (part mode : Mode) : Mode :=
  (if part &&& mode &&& 0o444 ≠ 0 then 0o444 else 0) |||
    (if part &&& mode &&& 0o222 ≠ 0 then 0o222 else 0) |||
    (if part &&& mode &&& 0o111 ≠ 0 then 0o111 else 0)

def Perm.bits (mode : Mode) : Perm → Mode
  | .list letters => lettersBits (searchable mode) letters
  | .copy part => spread part.bits mode

/-- An action of a clause on the mode. -/
def apply (umask mode : Mode) : List Who × Action → Mode
  | (who, a) =>
    let bits := a.perm.bits mode &&& scope umask who
    match a.op with
    | .add => mode ||| bits
    | .remove => mode &&& ~~~bits
    | .assign => mode &&& ~~~cleared who ||| bits

/-- The actions of a mode, each with its wholist. -/
def steps (mode : List (Option Clause)) : List (List Who × Action) :=
  mode.flatMap fun clause => (clause.map fun clause =>
    clause.actions.map fun a => (clause.who, a)).getD []

/-! ## What the code does with an action -/

/-- `new_mode & (S_IFDIR | S_IXUSR | S_IXGRP | S_IXOTH)`. -/
def testsX (mode : Mode) : Bool := mode &&& (sIfdir ||| sIxugo) ≠ 0

/-- The permissions as the code reads them. -/
def Perm.read (mode : Mode) : Perm → Mode
  | .list letters => lettersBits (testsX mode) letters
  | .copy part => completed (part.bits &&& mode)

/-- The mode when the code reads the permissions. -/
def seen (mode : Mode) (who : List Who) (op : Op) : Mode :=
  if op = .assign then mode &&& ~~~cleared who else mode

/-- An action of a clause, as the code makes it. -/
def code (umask mode : Mode) : List Who × Action → Mode
  | (who, a) =>
    let mode := seen mode who a.op
    let bits := a.perm.read mode &&& scope umask who
    if a.op = .remove then mode &&& ~~~bits else mode ||| bits

/-- The action reads the same permissions on the mode before it and as the code does, as
far as it may touch them: `=` clears nothing of the class that is copied, and `X` means
the same, or their bits are beyond its reach. -/
def Agrees (umask mode : Mode) : List Who × Action → Prop
  | (who, ⟨.assign, .copy part⟩) =>
    cleared who &&& (part.bits &&& mode) = 0 ∨ spread part.bits mode &&& scope umask who = 0
  | (who, ⟨op, .list letters⟩) =>
    op = .remove ∨ .search ∉ letters ∨ .execute ∈ letters ∨ sIxugo &&& scope umask who = 0 ∨
      testsX (seen mode who op) = searchable mode
  | _ => True

instance (umask mode : Mode) : (a : List Who × Action) → Decidable (Agrees umask mode a)
  | (_, ⟨.assign, .copy _⟩) => inferInstanceAs (Decidable (_ ∨ _))
  | (_, ⟨.add, .copy _⟩) => inferInstanceAs (Decidable True)
  | (_, ⟨.remove, .copy _⟩) => inferInstanceAs (Decidable True)
  | (_, ⟨.assign, .list _⟩) => inferInstanceAs (Decidable (_ ∨ _))
  | (_, ⟨.add, .list _⟩) => inferInstanceAs (Decidable (_ ∨ _))
  | (_, ⟨.remove, .list _⟩) => inferInstanceAs (Decidable (_ ∨ _))

/-! ## Masks -/

section Masks

variable {a b c m : Mode}

theorem zero_or (bits : Mode) : 0 ||| bits = bits := BitVec.zero_or

theorem or_zero (bits : Mode) : bits ||| 0 = bits := BitVec.or_zero

theorem zero_and (bits : Mode) : 0 &&& bits = 0 := BitVec.zero_and

/-- Clearing bits that are not set changes nothing. -/
theorem and_not_of_disjoint (disjoint : a &&& b = 0) : a &&& ~~~b = a := by
  ext i
  have bit := congrArg (fun bits => bits.getLsbD i) disjoint
  simp at bit ⊢
  grind

/-- Clearing bits that contain the mask leaves none of it. -/
theorem and_not_of_subset (subset : a &&& b = a) : a &&& ~~~b = 0 := by
  ext i
  have bit := congrArg (fun bits => bits.getLsbD i) subset
  simp at bit ⊢
  grind

/-- Within bits that were cleared nothing is hidden. -/
theorem or_inj_of_cleared (left : a &&& c = a) (right : b &&& c = b) :
    m &&& ~~~c ||| a = m &&& ~~~c ||| b ↔ a = b := by
  constructor
  · intro equal
    ext i
    have bitLeft := congrArg (fun bits => bits.getLsbD i) left
    have bitRight := congrArg (fun bits => bits.getLsbD i) right
    have bit := congrArg (fun bits => bits.getLsbD i) equal
    simp at bitLeft bitRight bit ⊢
    grind
  · rintro rfl
    rfl

theorem and_and_subset (subset : a &&& c = a) (b : Mode) : a &&& b &&& c = a &&& b := by
  ext i
  have bit := congrArg (fun bits => bits.getLsbD i) subset
  simp at bit ⊢
  grind

theorem or_subset (left : a &&& c = a) (right : b &&& c = b) : (a ||| b) &&& c = a ||| b := by
  rw [BitVec.and_or_distrib_right, left, right]

end Masks

/-! ## The bits of lists -/

theorem Who.mask_cases (part : Class) (w : Who) :
    part.bits &&& w.mask = part.bits ∨ part.bits &&& w.mask = 0 := by
  rcases w with _ | whose
  · cases part <;> decide
  · cases part <;> cases whose <;> decide

theorem Who.mask_subset (w : Who) : w.mask &&& fileModeBits = w.mask := by
  rcases w with _ | whose
  · decide
  · cases whose <;> decide

theorem foldl_or (f : α → Mode) (items : List α) (start : Mode) :
    items.foldl (fun bits item => bits ||| f item) start =
      start ||| items.foldl (fun bits item => bits ||| f item) 0 := by
  induction items generalizing start with
  | nil => simp
  | cons item items ih =>
    rw [List.foldl_cons, ih, List.foldl_cons, ih (0 ||| f item), zero_or, BitVec.or_assoc]

theorem whoBits_cons (w : Who) (who : List Who) : whoBits (w :: who) = w.mask ||| whoBits who := by
  rw [whoBits, List.foldl_cons, foldl_or, zero_or]
  rfl

theorem whoBits_subset (who : List Who) : whoBits who &&& fileModeBits = whoBits who := by
  induction who with
  | nil => decide
  | cons w who ih =>
    rw [whoBits_cons]
    exact or_subset w.mask_subset ih

theorem whoBits_eq_zero {who : List Who} : whoBits who = 0 ↔ who = [] := by
  constructor
  · intro zero
    cases who with
    | nil => rfl
    | cons w who =>
      rw [whoBits_cons] at zero
      have none := (BitVec.or_eq_zero_iff.mp zero).1
      rcases w with _ | part
      · exact absurd none (by decide)
      · cases part <;> exact absurd none (by decide)
  · rintro rfl
    rfl

theorem whoBits_cases (part : Class) (who : List Who) :
    part.bits &&& whoBits who = part.bits ∨ part.bits &&& whoBits who = 0 := by
  induction who with
  | nil => exact .inr (BitVec.and_zero)
  | cons w who ih =>
    rw [whoBits_cons, BitVec.and_or_distrib_left]
    rcases Who.mask_cases part w with inside | outside
    · rcases ih with inside' | outside'
      · exact .inl (by rw [inside, inside', BitVec.or_self])
      · exact .inl (by rw [inside, outside', or_zero])
    · rw [outside, zero_or]
      exact ih

/-- `=` clears a class whole, or nothing of it. -/
theorem cleared_cases (part : Class) (who : List Who) :
    part.bits &&& cleared who = part.bits ∨ part.bits &&& cleared who = 0 := by
  unfold cleared
  split
  · exact .inl (by cases part <;> decide)
  · exact whoBits_cases part who

/-- What an action may touch of the file mode bits, `=` clears. -/
theorem scope_cleared (umask : Mode) (who : List Who) {bits : Mode}
    (mode : bits &&& fileModeBits = bits) :
    bits &&& scope umask who &&& cleared who = bits &&& scope umask who := by
  unfold scope cleared
  split
  · exact and_and_subset mode _
  · rw [BitVec.and_assoc, BitVec.and_self]

/-- One letter more. -/
theorem lettersBits_cons (anyX : Bool) (letter : Letter) (letters : List Letter) :
    lettersBits anyX (letter :: letters) =
      lettersBits anyX [letter] ||| lettersBits anyX letters := by
  rw [lettersBits, List.foldl_cons, foldl_or, lettersBits, lettersBits, List.foldl_cons,
    List.foldl_nil]

theorem lettersBits_subset (anyX : Bool) (letters : List Letter) :
    lettersBits anyX letters &&& fileModeBits = lettersBits anyX letters := by
  induction letters with
  | nil => exact zero_and _
  | cons letter letters ih =>
    rw [lettersBits_cons]
    refine or_subset ?_ ih
    cases anyX <;> cases letter <;> decide

/-- `X` adds the bits of `x` where it counts. -/
theorem lettersBits_true (letters : List Letter) :
    lettersBits true letters =
      lettersBits false letters ||| if .search ∈ letters then sIxugo else 0 := by
  induction letters with
  | nil => rfl
  | cons letter letters ih =>
    rw [lettersBits_cons true, lettersBits_cons false, ih, ← BitVec.or_assoc]
    cases letter with
    | search =>
      have alone : lettersBits true [.search] = sIxugo ∧ lettersBits false [.search] = 0 := by
        decide
      rw [if_pos (List.mem_cons_self ..), alone.1, alone.2, zero_or,
        BitVec.or_comm sIxugo, BitVec.or_assoc]
      congr 1
      split
      · exact BitVec.or_self
      · exact or_zero _
    | _ => simp [lettersBits]

/-- The bits of `x` stand in a list only for the letter. -/
theorem lettersBits_false (letters : List Letter) :
    lettersBits false letters &&& sIxugo = if .execute ∈ letters then sIxugo else 0 := by
  induction letters with
  | nil => rfl
  | cons letter letters ih =>
    rw [lettersBits_cons, BitVec.and_or_distrib_right, ih]
    cases letter <;> by_cases later : .execute ∈ letters <;> simp [later] <;> decide

theorem spread_subset (part mode : Mode) : spread part mode &&& fileModeBits = spread part mode := by
  unfold spread
  refine or_subset (or_subset ?_ ?_) ?_ <;> split <;> decide

/-- One pass of the loop that completes a permcopy. -/
theorem completed_step (p mask : Mode) :
    (if p &&& mask ≠ 0 then p ||| mask else p) = p ||| if p &&& mask ≠ 0 then mask else 0 := by
  split
  · rfl
  · rw [or_zero]

/-- The bits of a mask are among those that stand for it. -/
theorem and_or_ite (p mask : Mode) :
    p &&& mask ||| (if p &&& mask ≠ 0 then mask else 0) = if p &&& mask ≠ 0 then mask else 0 := by
  split
  · ext i
    simp
  case isFalse none => rw [not_not.mp none, zero_or]

theorem ite_and_of_disjoint {mask other : Mode} (disjoint : mask &&& other = 0) (p : Prop)
    [Decidable p] : (if p then mask else 0) &&& other = 0 := by
  split
  · exact disjoint
  · exact zero_and _

theorem completed_eq_spread (part : Class) (mode : Mode) :
    completed (part.bits &&& mode) = spread part.bits mode := by
  set p := part.bits &&& mode with pEq
  have whole : p &&& 0o444 ||| p &&& 0o222 ||| p &&& 0o111 = p := by
    rw [← BitVec.and_or_distrib_left, ← BitVec.and_or_distrib_left]
    have subset : part.bits &&& (0o444 ||| 0o222 ||| 0o111) = part.bits := by
      cases part <;> decide
    exact and_and_subset subset mode
  -- the passes see the bits of `p` only, as their masks are disjoint
  have passes : completed p = p ||| spread part.bits mode := by
    have second : (p ||| if p &&& 0o444 ≠ 0 then 0o444 else 0) &&& 0o222 = p &&& 0o222 := by
      rw [BitVec.and_or_distrib_right, ite_and_of_disjoint (by decide), or_zero]
    have third : (p ||| (if p &&& 0o444 ≠ 0 then 0o444 else 0) |||
        if p &&& 0o222 ≠ 0 then 0o222 else 0) &&& 0o111 = p &&& 0o111 := by
      rw [BitVec.and_or_distrib_right, BitVec.and_or_distrib_right,
        ite_and_of_disjoint (by decide), ite_and_of_disjoint (by decide), or_zero, or_zero]
    simp only [completed, List.foldl_cons, List.foldl_nil, completed_step]
    rw [second, third, spread, ← pEq]
    simp only [BitVec.or_assoc]
  have covered {x y z c d e : Mode} (first : x ||| c = c) (second : y ||| d = d)
      (third : z ||| e = e) : x ||| y ||| z ||| (c ||| d ||| e) = c ||| d ||| e := by
    rw [← first, ← second, ← third]
    ext i
    simp
    grind
  rw [passes]
  calc p ||| spread part.bits mode
      = p &&& 0o444 ||| p &&& 0o222 ||| p &&& 0o111 ||| spread part.bits mode := by rw [whole]
    _ = spread part.bits mode :=
      covered (and_or_ite p 0o444) (and_or_ite p 0o222) (and_or_ite p 0o111)

/-! ## When the code agrees -/

/-- A directory has the directory bit. -/
theorem testsX_of_searchable {mode : Mode} (is : searchable mode = true) : testsX mode = true := by
  have split : mode &&& (sIfdir ||| sIxugo) = mode &&& sIfdir ||| mode &&& sIxugo :=
    BitVec.and_or_distrib_left
  rw [testsX, split]
  rcases of_decide_eq_true is with directory | somebody
  · have bit : mode &&& sIfdir = sIfdir := by
      have inside : sIfmt &&& sIfdir = sIfdir := by decide
      calc mode &&& sIfdir = mode &&& sIfmt &&& sIfdir := by rw [BitVec.and_assoc, inside]
        _ = sIfdir := by rw [directory, BitVec.and_self]
    rw [bit]
    refine decide_eq_true fun none => ?_
    exact absurd (BitVec.or_eq_zero_iff.mp none).1 (by decide)
  · exact decide_eq_true fun none => somebody (BitVec.or_eq_zero_iff.mp none).2

/-- Reading `X` one way or the other makes no difference exactly where it is not
listed, is listed beside `x`, or is out of reach. -/
theorem lettersBits_and_eq {letters : List Letter} {reach : Mode} :
    lettersBits true letters &&& reach = lettersBits false letters &&& reach ↔
      .search ∉ letters ∨ .execute ∈ letters ∨ sIxugo &&& reach = 0 := by
  have execute := lettersBits_false letters
  rw [lettersBits_true, BitVec.and_or_distrib_right]
  constructor
  · intro equal
    by_contra differs
    simp only [not_or, not_not] at differs
    obtain ⟨listed, alone, reached⟩ := differs
    rw [if_pos listed] at equal
    rw [if_neg alone] at execute
    refine reached ?_
    ext i
    have bit := congrArg (fun bits => bits.getLsbD i) equal
    have bitX := congrArg (fun bits => bits.getLsbD i) execute
    simp at bit bitX ⊢
    grind
  · rintro (unlisted | beside | beyond)
    · rw [if_neg unlisted, zero_and, or_zero]
    · rw [if_pos beside] at execute
      ext i
      have bitX := congrArg (fun bits => bits.getLsbD i) execute
      split
      · simp at bitX ⊢
        grind
      · simp
    · rw [ite_and_of_disjoint beyond, or_zero]

theorem lettersBits_and_congr {letters : List Letter} {reach : Mode} (one two : Bool) :
    lettersBits one letters &&& reach = lettersBits two letters &&& reach ↔
      .search ∉ letters ∨ .execute ∈ letters ∨ sIxugo &&& reach = 0 ∨ one = two := by
  cases one <;> cases two
  · simp
  · rw [eq_comm, lettersBits_and_eq]
    simp
  · rw [lettersBits_and_eq]
    simp
  · simp

theorem spread_congr {part mode mode' : Mode} (same : part &&& mode = part &&& mode') :
    spread part mode = spread part mode' := by
  rw [spread, same]
  rfl

theorem spread_of_disjoint {part mode : Mode} (disjoint : part &&& mode = 0) :
    spread part mode = 0 := by
  rw [spread, disjoint]
  rfl

/-- An assigned permcopy agrees exactly where the class is not cleared or nothing is
granted. -/
theorem spread_cleared_iff (umask mode : Mode) (who : List Who) (part : Class) :
    spread part.bits (mode &&& ~~~cleared who) &&& scope umask who =
        spread part.bits mode &&& scope umask who ↔
      cleared who &&& (part.bits &&& mode) = 0 ∨
        spread part.bits mode &&& scope umask who = 0 := by
  have reassoc : part.bits &&& (mode &&& ~~~cleared who) =
      part.bits &&& ~~~cleared who &&& mode := by
    rw [BitVec.and_comm mode, BitVec.and_assoc]
  rcases cleared_cases part who with inside | outside
  · have none : spread part.bits (mode &&& ~~~cleared who) = 0 :=
      spread_of_disjoint (by rw [reassoc, and_not_of_subset inside, zero_and])
    have same : cleared who &&& (part.bits &&& mode) = part.bits &&& mode := by
      rw [← BitVec.and_assoc, BitVec.and_comm (cleared who), inside]
    rw [none, zero_and, same]
    constructor
    · exact fun nothing => .inr nothing.symm
    · rintro (empty | nothing)
      · rw [spread_of_disjoint empty, zero_and]
      · exact nothing.symm
  · have same : spread part.bits (mode &&& ~~~cleared who) = spread part.bits mode :=
      spread_congr (by rw [reassoc, and_not_of_disjoint outside])
    have apart : cleared who &&& (part.bits &&& mode) = 0 := by
      rw [← BitVec.and_assoc, BitVec.and_comm (cleared who), outside, zero_and]
    simp [same, apart]

/-- Where the file is not searchable, the bits of `x` are not set. -/
theorem and_sIxugo_of_not_searchable {mode : Mode} (none : searchable mode = false) :
    mode &&& sIxugo = 0 := by
  have both := of_decide_eq_false none
  rw [not_or, not_not] at both
  exact both.2

/-- The code reads `X` as POSIX does, or it takes for a directory what is none: then no bit
of `x` is set. -/
theorem testsX_cases (mode : Mode) :
    testsX mode = searchable mode ∨
      testsX mode = true ∧ searchable mode = false ∧ mode &&& sIxugo = 0 := by
  cases is : searchable mode with
  | true => exact .inl (testsX_of_searchable is)
  | false =>
    cases tests : testsX mode with
    | false => exact .inl rfl
    | true => exact .inr ⟨rfl, rfl, and_sIxugo_of_not_searchable is⟩

/-- The bits that `X` adds do not show where they are removed from a mode without them. -/
theorem and_not_or_of_disjoint {mode bits more reach : Mode} (disjoint : mode &&& more = 0) :
    mode &&& ~~~((bits ||| more) &&& reach) = mode &&& ~~~(bits &&& reach) := by
  ext i
  have bit := congrArg (fun bits => bits.getLsbD i) disjoint
  simp at bit ⊢
  grind

/-- Where they are added to such a mode they show. -/
theorem or_or_inj_of_disjoint {mode bits more reach : Mode} (disjoint : mode &&& more = 0) :
    mode ||| (bits ||| more) &&& reach = mode ||| bits &&& reach ↔
      (bits ||| more) &&& reach = bits &&& reach := by
  constructor
  · intro equal
    ext i
    have bit := congrArg (fun bits => bits.getLsbD i) disjoint
    have bitEqual := congrArg (fun bits => bits.getLsbD i) equal
    simp at bit bitEqual ⊢
    grind
  · intro equal
    rw [equal]

theorem and_ite_of_disjoint {mode mask : Mode} (disjoint : mode &&& mask = 0) (p : Prop)
    [Decidable p] : mode &&& (if p then mask else 0) = 0 := by
  rw [BitVec.and_comm]
  exact ite_and_of_disjoint (by rwa [BitVec.and_comm]) p

/-- The code makes of a mode what POSIX does exactly where the action agrees. -/
theorem code_eq_apply_iff (umask mode : Mode) (a : List Who × Action) :
    code umask mode a = apply umask mode a ↔ Agrees umask mode a := by
  obtain ⟨who, op, perm⟩ := a
  cases perm with
  | copy part =>
    cases op with
    | add => exact iff_of_true (by simp [code, apply, seen, Perm.read, Perm.bits,
        completed_eq_spread]) trivial
    | remove => exact iff_of_true (by simp [code, apply, seen, Perm.read, Perm.bits,
        completed_eq_spread]) trivial
    | assign =>
      have subset (mode : Mode) := scope_cleared umask who (spread_subset part.bits mode)
      simp only [code, apply, seen, Perm.read, Perm.bits, completed_eq_spread, Agrees, if_true,
        reduceCtorEq, if_false]
      rw [or_inj_of_cleared (subset _) (subset _)]
      exact spread_cleared_iff umask mode who part
  | list letters =>
    cases op with
    | assign =>
      have subset (anyX : Bool) := scope_cleared umask who (lettersBits_subset anyX letters)
      simp only [code, apply, seen, Perm.read, Perm.bits, Agrees, if_true, reduceCtorEq, if_false,
        false_or]
      rw [or_inj_of_cleared (subset _) (subset _), lettersBits_and_congr]
    | add =>
      simp only [code, apply, seen, Perm.read, Perm.bits, Agrees, reduceCtorEq, if_false,
        false_or]
      rw [← lettersBits_and_congr]
      rcases testsX_cases mode with same | ⟨tests, is, none⟩
      · rw [same]
        exact iff_of_true rfl rfl
      · rw [tests, is, lettersBits_true]
        exact or_or_inj_of_disjoint (and_ite_of_disjoint none _)
    | remove =>
      simp only [code, apply, seen, Perm.read, Perm.bits, Agrees, if_true, reduceCtorEq, if_false,
        true_or, iff_true]
      rcases testsX_cases mode with same | ⟨tests, is, none⟩
      · rw [same]
      · rw [tests, is, lettersBits_true]
        exact and_not_or_of_disjoint (and_ite_of_disjoint none _)

end Busybox.Libbb.ParseMode
