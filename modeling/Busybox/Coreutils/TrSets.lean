import Busybox.Coreutils.Tr
import Mathlib.Data.List.Find
import Mathlib.Data.List.Range

/-!
# The sets of tr

A string is a row of items. Each of them is put into the buffer behind what is there already, and
none has more characters than the buffer is given room for.
-/

namespace Busybox.Coreutils.Tr

open Fallible (ok_bind)
open Libbb.Xatonum (Text)
open Libbb.EscapeSequence (processEscapeSequence)

/-! ## What is put into the buffer -/

/-- These are the characters in the buffer. -/
structure Buffer.Holds (b : Buffer) (content : List UInt8) : Prop where
  pos : b.pos = content.length
  mem : ∀ index < content.length, b.mem index = content.getD index 0

theorem Buffer.Holds.content {b : Buffer} {content : List UInt8} (holds : b.Holds content) :
    b.content = content := by
  refine List.ext_getElem (by simp [Buffer.content, holds.pos]) fun index _ inContent => ?_
  simp [Buffer.content, holds.mem index inContent, inContent]

/-- Where there is room, the characters are put behind those in the buffer. -/
def Fills (put : Buffer → Except Failure Buffer) (chars : List UInt8) : Prop :=
  ∀ (b : Buffer) (content : List UInt8), b.Holds content →
    content.length + chars.length ≤ b.size →
    ∃ b', put b = .ok b' ∧ b'.Holds (content ++ chars) ∧ b'.size = b.size

theorem fills_nil : Fills .ok [] :=
  fun b content holds _ => ⟨b, rfl, (List.append_nil content).symm ▸ holds, rfl⟩

theorem Fills.bind {put next : Buffer → Except Failure Buffer} {chars more : List UInt8}
    (first : Fills put chars) (second : Fills next more) :
    Fills (fun b => put b >>= next) (chars ++ more) := by
  intro b content holds room
  rw [List.length_append] at room
  obtain ⟨b₁, ran, holds₁, size₁⟩ := first b content holds (by omega)
  obtain ⟨b₂, ran₂, holds₂, size₂⟩ := second b₁ _ holds₁ (by rw [size₁, List.length_append]; omega)
  refine ⟨b₂, ?_, by rwa [← List.append_assoc], size₂.trans size₁⟩
  simp only [ran, ok_bind, ran₂]

theorem Fills.ite {put : Buffer → Except Failure Buffer} {chars : List UInt8} (p : Prop)
    [Decidable p] (fills : Fills put chars) :
    Fills (fun b => if p then put b else .ok b) (if p then chars else []) := by
  by_cases holds : p
  · simpa only [if_pos holds] using fills
  · simpa only [if_neg holds] using fills_nil

theorem Buffer.Holds.extend {b : Buffer} {content : List UInt8} (holds : b.Holds content)
    (more : List UInt8) (mem : Nat → UInt8)
    (kept : ∀ index < content.length, mem index = b.mem index)
    (behind : ∀ k < more.length, mem (content.length + k) = more.getD k 0) :
    Buffer.Holds { b with mem, pos := b.pos + more.length } (content ++ more) := by
  refine ⟨by rw [holds.pos, List.length_append], fun index inside => ?_⟩
  rw [List.length_append] at inside
  rw [List.getD_eq_getElem?_getD]
  by_cases before : index < content.length
  · have same := holds.mem index before
    rw [List.getElem?_append_left before, ← List.getD_eq_getElem?_getD, ← same]
    exact kept index before
  · obtain ⟨k, rfl⟩ := Nat.exists_eq_add_of_le (Nat.le_of_not_lt before)
    rw [List.getElem?_append_right (Nat.le_of_not_lt before), Nat.add_sub_cancel_left,
      ← List.getD_eq_getElem?_getD]
    exact behind k (by omega)

theorem fills_put (c : UInt8) : Fills (Buffer.put c) [c] := by
  intro b content holds room
  have inside : b.pos < b.size := by
    rw [holds.pos]
    exact room
  refine ⟨_, by rw [Buffer.put, Buffer.store, if_pos inside]; rfl,
    holds.extend [c] _ (fun index before => ?_) (fun k isFirst => ?_), rfl⟩
  · exact Function.update_of_ne (by rw [holds.pos]; omega) _ _
  · obtain rfl : k = 0 := Nat.lt_one_iff.mp isFirst
    rw [Nat.add_zero, ← holds.pos]
    exact Function.update_self b.pos c b.mem

/-! ## Loops over characters -/

/-- The characters from one number to another. -/
def range (first last : Nat) : List UInt8 :=
  (List.range' first (last + 1 - first)).map UInt8.ofNat

theorem range_cons {i last : Nat} (more : i ≤ last) :
    range i last = UInt8.ofNat i :: range (i + 1) last := by
  have count : last + 1 - i = last + 1 - (i + 1) + 1 := by omega
  rw [range, count, List.range'_succ, List.map_cons, range]

theorem range_nil {i last : Nat} (none : ¬i ≤ last) : range i last = [] := by
  have count : last + 1 - i = 0 := by omega
  rw [range, count]
  rfl

theorem fills_range (i last : Nat) : Fills (putRange i last) (range i last) := by
  by_cases more : i ≤ last
  · have round : putRange i last = fun b => b.put (UInt8.ofNat i) >>= putRange (i + 1) last := by
      funext b
      rw [putRange, if_pos more]
    rw [round, range_cons more]
    exact (fills_put _).bind (fills_range (i + 1) last)
  · have done : putRange i last = .ok := by
      funext b
      rw [putRange, if_neg more]
    rw [done, range_nil more]
    exact fills_nil
termination_by last + 1 - i

theorem fills_some (p : UInt8 → Bool) (i : Nat) :
    Fills (putSome p i) ((range i 255).filter p) := by
  by_cases more : i ≤ 255
  · have round : putSome p i = fun b =>
        (if p (UInt8.ofNat i) = true then b.put (UInt8.ofNat i) else .ok b) >>=
          putSome p (i + 1) := by
      funext b
      exact (putSome.eq_1 p i b).trans (if_pos (Nat.lt_succ_of_le more))
    have chars : (range i 255).filter p =
        (if p (UInt8.ofNat i) = true then [UInt8.ofNat i] else []) ++
          (range (i + 1) 255).filter p := by
      rw [range_cons more, List.filter_cons]
      split <;> rfl
    rw [round, chars]
    exact ((fills_put _).ite _).bind (fills_some p (i + 1))
  · have done : putSome p i = .ok := by
      funext b
      exact (putSome.eq_1 p i b).trans (if_neg fun less => more (Nat.le_of_lt_succ less))
    rw [done, range_nil more]
    exact fills_nil
termination_by 256 - i

/-- The small letters so far are ahead of the buffer's end. -/
theorem putHex_ahead (i : Nat) (inside : i ≤ 71) {b : Buffer} {content ahead : List UInt8}
    (holds : b.Holds content) (count : ahead.length + (71 - i) = 6)
    (stored : ∀ k < ahead.length, b.mem (content.length + (71 - i) + k) = ahead.getD k 0)
    (room : content.length + (71 - i) + 6 ≤ b.size) :
    ∃ b', putHex i b = .ok b' ∧ b'.Holds (content ++ range i 70) ∧ b'.size = b.size ∧
      ∀ k < 6, b'.mem (content.length + (71 - i) + k) =
        (ahead ++ (range i 70).map (· ||| 0x20)).getD k 0 := by
  by_cases more : i ≤ 70
  · have pos := holds.pos
    have left : 71 - i = 71 - (i + 1) + 1 := by omega
    let mem := Function.update (Function.update b.mem (b.pos + 6) (UInt8.ofNat i ||| 0x20)) b.pos
      (UInt8.ofNat i)
    have kept (index : Nat) (notPos : index ≠ b.pos) (notAhead : index ≠ b.pos + 6) :
        mem index = b.mem index :=
      (Function.update_of_ne notPos _ _).trans (Function.update_of_ne notAhead _ _)
    have holds' : Buffer.Holds { b with mem, pos := b.pos + 1 } (content ++ [UInt8.ofNat i]) := by
      refine holds.extend [UInt8.ofNat i] mem (fun index before => ?_) fun k isFirst => ?_
      · exact kept index (by omega) (by omega)
      · obtain rfl : k = 0 := Nat.lt_one_iff.mp isFirst
        rw [Nat.add_zero, ← pos]
        exact Function.update_self _ _ _
    have round : putHex i b = putHex (i + 1) { b with mem, pos := b.pos + 1 } := by
      rw [putHex, if_pos more, Buffer.store, if_pos (by omega), ok_bind, Buffer.put, Buffer.store,
        if_pos (by simp only; omega)]
      rfl
    have stored' : ∀ k < (ahead ++ [UInt8.ofNat i ||| 0x20]).length,
        mem ((content ++ [UInt8.ofNat i]).length + (71 - (i + 1)) + k) =
          (ahead ++ [UInt8.ofNat i ||| 0x20]).getD k 0 := by
      intro k less
      rw [List.length_append, List.length_singleton] at less ⊢
      rw [List.getD_eq_getElem?_getD]
      by_cases before : k < ahead.length
      · have same := stored k before
        rw [kept _ (by omega) (by omega), List.getElem?_append_left before,
          ← List.getD_eq_getElem?_getD, ← same]
        congr 1
        omega
      · obtain rfl : k = ahead.length := by omega
        have place : content.length + 1 + (71 - (i + 1)) + ahead.length = b.pos + 6 := by omega
        rw [place, List.getElem?_concat_length]
        exact (Function.update_of_ne (by omega) _ _).trans (Function.update_self _ _ _)
    obtain ⟨b', ran, filled, size, ahead'⟩ := putHex_ahead (i + 1) (by omega) holds'
      (by rw [List.length_append, List.length_singleton]; omega) stored'
      (by rw [List.length_append, List.length_singleton]; simp only; omega)
    refine ⟨b', round.trans ran, ?_, size, fun k less => ?_⟩
    · rw [range_cons more]
      simpa using filled
    · have same := ahead' k less
      rw [List.length_append, List.length_singleton] at same
      rw [range_cons more]
      have place : content.length + 1 + (71 - (i + 1)) + k = content.length + (71 - i) + k := by
        omega
      rw [← place, same]
      simp
  · have all : 71 - i = 0 := by omega
    refine ⟨b, by rw [putHex, if_neg more], ?_, rfl, ?_⟩
    · rw [range_nil more, List.append_nil]
      exact holds
    · rw [range_nil more, List.map_nil, List.append_nil]
      exact fun k less => stored k (by omega)
termination_by 71 - i

/-- Room for six capital letters and six small ones. -/
theorem fills_xdigit : Fills putXdigit (range 65 70 ++ range 97 102) := by
  intro b content holds room
  have empty : ∀ k < ([] : List UInt8).length,
      b.mem (content.length + (71 - 65) + k) = ([] : List UInt8).getD k 0 :=
    fun k less => absurd less (Nat.not_lt_zero k)
  obtain ⟨b', ran, holds', size, stored⟩ :=
    putHex_ahead 65 (by decide) holds rfl empty room
  have capitals : (range 65 70).length = 6 := by decide
  have small : (range 65 70).map (· ||| 0x20) = range 97 102 := by decide
  rw [List.nil_append, small] at stored
  have last := holds'.extend (range 97 102) b'.mem (fun _ _ => rfl) fun k less => by
    rw [List.length_append, capitals]
    exact stored k less
  refine ⟨{ b' with pos := b'.pos + 6 }, by rw [putXdigit, ran]; rfl, ?_, size⟩
  rw [← List.append_assoc]
  exact last

/-! ## Classes -/

def between (first last c : UInt8) : Bool := first ≤ c && c ≤ last

def letter (c : UInt8) : Bool := between 65 90 c || between 97 122 c

def Class.has : Class → UInt8 → Bool
  | .alpha, c => letter c
  | .alnum, c => letter c || between 48 57 c
  | .digit, c => between 48 57 c
  | .lower, c => between 97 122 c
  | .upper, c => between 65 90 c
  | .space, c => c == 32 || between 9 13 c
  | .blank, c => c == 32 || c == 9
  | .punct, c => between 33 126 c && !(letter c || between 48 57 c)
  | .cntrl, c => c < 32 || c == 127
  | .xdigit, c => between 48 57 c || between 65 70 c || between 97 102 c

def Class.chars (j : Class) : List UInt8 := (range 0 255).filter j.has

theorem fills_spaces (j : Class) :
    Fills (putSpaces j) ([9] ++ ((if j = .space then [10, 11, 12, 13] else []) ++ [32])) :=
  (fills_put 9).bind <| Fills.bind
    (Fills.ite _ ((fills_put 10).bind ((fills_put 11).bind ((fills_put 12).bind (fills_put 13)))))
    (fills_put 32)

/-- A class puts exactly its members, in their order. -/
theorem fills_class (j : Class) : Fills (putClass j) j.chars := by
  have put := (Fills.ite (j = .alnum ∨ j = .digit ∨ j = .xdigit) (fills_range 48 57)).bind <|
    (Fills.ite (j = .alpha ∨ j = .alnum ∨ j = .upper) (fills_range 65 90)).bind <|
    (Fills.ite (j = .alpha ∨ j = .alnum ∨ j = .lower) (fills_range 97 122)).bind <|
    (Fills.ite (j = .space ∨ j = .blank) (fills_spaces j)).bind <|
    (Fills.ite (j = .punct ∨ j = .cntrl) (fills_some
      (fun i => (decide (j = .punct) && isprintAsciionly i && !isalnum i && !isspace i) ||
        (decide (j = .cntrl) && iscntrl i)) 0)).bind <|
    Fills.ite (j = .xdigit) fills_xdigit
  refine Eq.mp (congrArg (Fills (putClass j)) ?_) put
  cases j <;> decide

/-! ## Items -/

inductive Item
  | char (c : UInt8)
  | range (first last : UInt8)
  | members (j : Class)
  | equivalence (c : UInt8)

def Item.chars : Item → List UInt8
  | .char c => [c]
  | .range first last => Tr.range first.toNat last.toNat
  | .members j => j.chars
  | .equivalence c => [c]

theorem range_length (first last : Nat) : (range first last).length = last + 1 - first := by
  rw [range, List.length_map, List.length_range']

theorem Item.chars_length (item : Item) : item.chars.length ≤ ASCII := by
  cases item with
  | char c => exact Nat.succ_le_of_lt (by decide)
  | range first last =>
    have := last.toNat_lt
    rw [chars, range_length, ASCII]
    omega
  | members j => exact (List.length_filter_le _ _).trans (range_length 0 255).le
  | equivalence c => exact Nat.succ_le_of_lt (by decide)

/-- A class by its name, with what is behind it. -/
def className (arg : Text) : Option (Class × Text) :=
  (classes.find? fun (string, _) => string.isPrefixOf arg).map fun (string, j) =>
    (j, arg.drop string.length)

def bracketItem : Text → Option (Item × Text)
  | 58 :: arg =>
    match className arg with
    | some (j, rest) => some (.members j, rest)
    | none => some (.char 91, 58 :: arg)
  | 61 :: c :: 61 :: 93 :: arg => some (.equivalence c, arg)
  | 61 :: _ => none
  | arg => some (.char 91, arg)

/-- The item at a character; none if an equivalence class does not end. -/
def nextItem (c : UInt8) : Text → Option (Item × Text)
  | [45] => some (.char c, [45])
  | 45 :: last :: arg => some (.range c (unescaped last arg).1, (unescaped last arg).2)
  | arg => if c = 91 then bracketItem arg else some (.char c, arg)

theorem bracketItem_length {arg rest : Text} {item : Item}
    (next : bracketItem arg = some (item, rest)) : rest.length ≤ arg.length := by
  unfold bracketItem at next
  split at next
  case h_1 arg =>
    split at next
    case h_1 j rest' named =>
      obtain ⟨found, -, isRest⟩ := Option.map_eq_some_iff.mp named
      cases next
      cases isRest
      rw [List.length_drop, List.length_cons]
      omega
    case h_2 =>
      cases next
      exact Nat.le_refl _
  case h_2 =>
    cases next
    simp only [List.length_cons]
    omega
  case h_3 => cases next
  case h_4 =>
    cases next
    exact Nat.le_refl _

theorem nextItem_length {c : UInt8} {arg rest : Text} {item : Item}
    (next : nextItem c arg = some (item, rest)) : rest.length ≤ arg.length := by
  unfold nextItem at next
  split at next
  case h_1 =>
    cases next
    exact Nat.le_refl _
  case h_2 last arg =>
    cases next
    exact (unescaped_length last arg).trans (by simp only [List.length_cons]; omega)
  case h_3 =>
    split at next
    · exact bracketItem_length next
    · cases next
      exact Nat.le_refl _

/-- The items of a string. -/
def items : Text → Option (List Item)
  | [] => some []
  | c :: arg =>
    match _next : nextItem (unescaped c arg).1 (unescaped c arg).2 with
    | none => none
    | some (item, rest) => (items rest).map (item :: ·)
termination_by arg => arg.length
decreasing_by
  exact Nat.lt_succ_of_le ((nextItem_length _next).trans (unescaped_length c arg))

theorem items_next {c : UInt8} {arg rest : Text} {item : Item}
    (next : nextItem (unescaped c arg).1 (unescaped c arg).2 = some (item, rest)) :
    items (c :: arg) = (items rest).map (item :: ·) := by
  rw [items]
  split
  case h_1 none => cases none.symm.trans next
  case h_2 other rest isNext =>
    cases isNext.symm.trans next
    rfl

/-- The characters of a string. -/
def expansion (string : Text) : Option (List UInt8) :=
  (items string).map fun items => items.flatMap Item.chars

/-! ## A string is expanded -/

/-- Where there is room for a round, it puts the item and goes on behind it. -/
def Turns (turn : Buffer → Except Failure (Text × Buffer)) (next : Option (Item × Text)) : Prop :=
  ∀ (b : Buffer) (content : List UInt8), b.Holds content → content.length + ASCII ≤ b.size →
    match next with
    | none => turn b = .error .usage
    | some (item, rest) => ∃ b', turn b = .ok (rest, b') ∧ b'.Holds (content ++ item.chars) ∧
        b'.size = b.size

theorem Fills.turns {put : Buffer → Except Failure Buffer} {item : Item}
    (fills : Fills put item.chars) (rest : Text) :
    Turns (fun b => put b >>= fun b => .ok (rest, b)) (some (item, rest)) := by
  intro b content holds room
  have few := item.chars_length
  obtain ⟨b', ran, holds', size⟩ := fills b content holds (by omega)
  refine ⟨b', ?_, holds', size⟩
  simp only [ran, ok_bind]

/-- As many characters are compared as the name in question has. -/
theorem class_take {entry : Text × Class} (mem : entry ∈ classes) (arg : Text) :
    (entry.1 == arg.take (7 + if arg.head? = some 120 then 1 else 0)) = entry.1.isPrefixOf arg ∧
      (entry.1.isPrefixOf arg = true →
        entry.1.length = 7 + if arg.head? = some 120 then 1 else 0) := by
  have lengths : ∀ entry ∈ classes, entry.1.head? ≠ none ∧
      entry.1.length = 7 + if entry.1.head? = some 120 then 1 else 0 := by decide
  obtain ⟨nonempty, length⟩ := lengths entry mem
  have long (isPrefix : entry.1 <+: arg) :
      entry.1.length = 7 + if arg.head? = some 120 then 1 else 0 := by
    obtain ⟨rest, rfl⟩ := isPrefix
    rw [List.head?_append, Option.or_of_isSome (Option.isSome_iff_ne_none.mpr nonempty)]
    exact length
  refine ⟨Bool.eq_iff_iff.mpr ?_, fun isPrefix => long (List.isPrefixOf_iff_prefix.mp isPrefix)⟩
  rw [beq_iff_eq, List.isPrefixOf_iff_prefix]
  constructor
  · intro same
    rw [same]
    exact List.take_prefix _ _
  · intro isPrefix
    rw [← long isPrefix]
    exact List.prefix_iff_eq_take.mp isPrefix

theorem indexInStrings_take (arg : Text) :
    (indexInStrings (arg.take (7 + if arg.head? = some 120 then 1 else 0))).map
        (fun j => (j, arg.drop (7 + if arg.head? = some 120 then 1 else 0))) =
      className arg := by
  have found : (classes.find? fun (string, _) =>
      string == arg.take (7 + if arg.head? = some 120 then 1 else 0)) =
        classes.find? fun (string, _) => string.isPrefixOf arg :=
    List.find?_congr fun entry mem => (class_take mem arg).1
  rw [indexInStrings, found, className, Option.map_map]
  refine Option.map_congr fun entry isEntry => ?_
  have length := (class_take (List.mem_of_find?_eq_some isEntry) arg).2
    (List.find?_some (p := fun entry : Text × Class => entry.1.isPrefixOf arg) isEntry)
  simp only [Function.comp_apply, length]

theorem Turns.congr {turn turn' : Buffer → Except Failure (Text × Buffer)}
    {next : Option (Item × Text)} (turns : Turns turn' next) (same : ∀ b, turn b = turn' b) :
    Turns turn next := by
  rwa [funext same]

theorem turns_char (c : UInt8) (arg : Text) :
    Turns (fun b => b.put c >>= fun b => .ok (arg, b)) (some (.char c, arg)) :=
  (fills_put c : Fills _ (Item.char c).chars).turns arg

theorem bracket_turns (arg : Text) : Turns (bracket arg) (bracketItem arg) := by
  fun_cases bracketItem arg with
  | case1 arg j rest named =>
    rw [← indexInStrings_take, Option.map_eq_some_iff] at named
    obtain ⟨_, isClass, behind⟩ := named
    cases behind
    refine ((fills_class j : Fills _ (Item.members j).chars).turns _).congr fun b => ?_
    rw [bracket, isClass]
    rfl
  | case2 arg unnamed =>
    rw [← indexInStrings_take, Option.map_eq_none_iff] at unnamed
    refine (turns_char 91 (58 :: arg)).congr fun b => ?_
    rw [bracket, unnamed]
    rfl
  | case3 c arg =>
    exact (fills_put c : Fills _ (Item.equivalence c).chars).turns arg
  | case4 arg unfinished =>
    intro b content holds room
    have inside : content.length + [arg.headD 0].length ≤ b.size :=
      Nat.le_trans (Nat.add_le_add_left (Nat.succ_le_succ (Nat.zero_le 255)) _) room
    obtain ⟨b', ran, -⟩ := fills_put (arg.headD 0) b content holds inside
    simp only [bracket, ran, ok_bind]
  | case5 arg notColon notEnded notEquals =>
    refine (turns_char 91 arg).congr fun b => ?_
    exact bracket.eq_3 arg b notColon notEquals

theorem expandItem_turns (c : UInt8) (arg : Text) : Turns (expandItem c arg) (nextItem c arg) := by
  fun_cases nextItem c arg with
  | case1 => exact turns_char c [45]
  | case2 last arg =>
    exact (fills_range c.toNat _ : Fills _ (Item.range c (unescaped last arg).1).chars).turns _
  | case3 arg notEnd notRange isBracket =>
    refine (bracket_turns arg).congr fun b => ?_
    rw [expandItem.eq_3 c arg b notEnd notRange, if_pos isBracket]
  | case4 arg notEnd notRange notBracket =>
    refine (turns_char c arg).congr fun b => ?_
    rw [expandItem.eq_3 c arg b notEnd notRange, if_neg notBracket]
    rfl

theorem Buffer.Holds.grow {b : Buffer} {content : List UInt8} (holds : b.Holds content)
    (room : content.length ≤ b.size) :
    b.grow.Holds content ∧ content.length + ASCII ≤ b.grow.size := by
  unfold Buffer.grow
  split
  case isTrue => exact ⟨⟨holds.pos, holds.mem⟩, Nat.add_le_add_right room ASCII⟩
  case isFalse enough =>
    rw [holds.pos] at enough
    exact ⟨holds, Nat.le_of_not_lt enough⟩

theorem expandLoop_refused {c : UInt8} {arg : Text} {b : Buffer} {failure : Failure}
    (turn : expandItem (unescaped c arg).1 (unescaped c arg).2 b.grow = .error failure) :
    expandLoop (c :: arg) b = .error failure := by
  rw [expandLoop]
  split
  case h_1 other ended =>
    cases ended.symm.trans turn
    rfl
  case h_2 rest b' went => cases went.symm.trans turn

theorem expandLoop_next {c : UInt8} {arg rest : Text} {b b' : Buffer}
    (turn : expandItem (unescaped c arg).1 (unescaped c arg).2 b.grow = .ok (rest, b')) :
    expandLoop (c :: arg) b = expandLoop rest b' := by
  rw [expandLoop]
  split
  case h_1 failure ended => cases ended.symm.trans turn
  case h_2 rest b' went =>
    cases went.symm.trans turn
    rfl

theorem expandLoop_items (arg : Text) {b : Buffer} {content : List UInt8} (holds : b.Holds content)
    (room : content.length ≤ b.size) :
    (expandLoop arg b).map Buffer.content =
      match items arg with
      | none => .error .usage
      | some items => .ok (content ++ items.flatMap Item.chars) := by
  induction arg using items.induct generalizing b content with
  | case1 =>
    rw [expandLoop, items, Except.map, holds.content]
    simp
  | case2 c arg next =>
    obtain ⟨grown, more⟩ := holds.grow room
    have turn := expandItem_turns (unescaped c arg).1 (unescaped c arg).2 b.grow content grown more
    rw [next] at turn
    rw [expandLoop_refused turn, items, next]
    rfl
  | case3 c arg item rest next ih =>
    obtain ⟨grown, more⟩ := holds.grow room
    have turn := expandItem_turns (unescaped c arg).1 (unescaped c arg).2 b.grow content grown more
    rw [next] at turn
    obtain ⟨b', ran, holds', size⟩ := turn
    have few := item.chars_length
    rw [expandLoop_next ran, items_next next, ih holds' (by rw [List.length_append]; omega)]
    cases items rest with
    | none => rfl
    | some items => simp only [Option.map_some, List.flatMap_cons, List.append_assoc]

/-- A string is expanded to its characters within the buffer, or it is refused. -/
theorem expand_eq (string : Text) :
    expand string =
      match expansion string with
      | none => .error .usage
      | some set => .ok set := by
  have empty : Buffer.Holds {} [] := ⟨rfl, fun _ less => absurd less (Nat.not_lt_zero _)⟩
  have ran := expandLoop_items string empty (Nat.zero_le _)
  rw [expand, expansion]
  cases read : items string <;> rw [read] at ran <;> exact ran

end Busybox.Coreutils.Tr
