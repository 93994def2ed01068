import Busybox.Lib.Fallible
import Busybox.Lib.Loops
import Busybox.Lib.LinkedHeap

/-!
# Domain names in options

`dname_dec` goes over the encoded names twice: the first pass measures the text, the
second one writes it. `dname_enc` writes the length of a label when its end is found.
Every access is checked here, so that one outside its buffer is an outcome.
-/

namespace Busybox.Udhcp.Names

open Memory Loops

def nsMaxdname : Nat := 1025
def nsMaxcdname : Nat := 255
def nsMaxlabel : Nat := 63
def nsMaxdnsrch : Nat := 6
def nsCmprsflgs : UInt8 := 0xc0

def dot : UInt8 := 46
def space : UInt8 := 32

/-- Why there is no result: the code returns NULL, or it reads or writes outside a buffer. -/
inductive Stop
  | null
  | outside
deriving DecidableEq, Repr

/-- An access that is checked. -/
def checked {α : Type} : Option α → Except Stop α
  | none => .error .outside
  | some value => .ok value

/-! ## Decoding -/

/-- The variables of a pass of `dname_dec`. -/
structure Cursor where
  crtpos : Nat
  retpos : Nat
  depth : Nat
  len : Nat
deriving DecidableEq, Repr

/-- The allocated buffer, and where `dst` points into it. -/
structure Dest where
  ret : Block UInt8
  plen : Nat

/-- A write through `dst`, if it is set. -/
def writeDst (dst : Option Dest) (offset : Nat) (bytes : List UInt8) : Except Stop (Option Dest) :=
  match dst with
  | none => .ok none
  | some dest =>
    checked ((store dest.ret (dest.plen + offset) bytes).map fun ret => some { dest with ret })

/-- The bytes of a label that are read from the buffer. -/
def readLabel (cstr : List UInt8) (start count : Nat) : Except Stop (List UInt8) :=
  if start + count ≤ cstr.length then .ok ((cstr.drop start).take count) else .error .outside

/-- `((char*)mempcpy(dst + len, c + 1, *c))[0] = '.'`, if `dst` is set. -/
def copyLabel (cstr : List UInt8) (cursor : Cursor) (count : Nat) (dst : Option Dest) :
    Except Stop (Option Dest) :=
  match dst with
  | none => .ok none
  | some dest => do
    let label ← readLabel cstr (cursor.crtpos + 1) count
    writeDst (some dest) cursor.len (label ++ [dot])

/-- The dot before a NUL is changed to a space, if `dst` is set and there is one. -/
def endName (cursor : Cursor) (dst : Option Dest) : Except Stop (Option Dest) :=
  if cursor.len ≠ 0 then writeDst dst (cursor.len - 1) [space] else .ok dst

/-- Too many jumps, or too long a result. -/
def tooMuch (cursor : Cursor) : Bool :=
  nsMaxdnsrch < cursor.depth || nsMaxdname * nsMaxdnsrch < cursor.len

/-- The body of the loop of a pass, up to the check for too many jumps. -/
def step (cstr : List UInt8) (cursor : Cursor) (dst : Option Dest) :
    Except Stop (Cursor × Option Dest) := do
  let c ← checked cstr[cursor.crtpos]?
  if c &&& nsCmprsflgs = nsCmprsflgs then
    -- pointer
    if cstr.length < cursor.crtpos + 2 then .error .null
    else do
      let low ← checked cstr[cursor.crtpos + 1]?
      .ok ({ cursor with
        retpos := if cursor.retpos = 0 then cursor.crtpos + 2 else cursor.retpos
        depth := cursor.depth + 1
        crtpos := (c &&& 0x3f).toNat <<< 8 ||| low.toNat }, dst)
  else if c ≠ 0 then
    -- label
    if cstr.length < cursor.crtpos + c.toNat + 1 then .error .null
    else do
      let dst ← copyLabel cstr cursor c.toNat dst
      .ok ({ cursor with
        len := cursor.len + (c.toNat + 1)
        crtpos := cursor.crtpos + (c.toNat + 1) }, dst)
  else do
    -- NUL: end of current domain name
    let dst ← endName cursor dst
    .ok (if cursor.retpos = 0 then { cursor with crtpos := cursor.crtpos + 1 }
      else { cursor with crtpos := cursor.retpos, retpos := 0, depth := 0 }, dst)

/-- One turn of the loop of a pass. -/
def turn (cstr : List UInt8) (cursor : Cursor) (dst : Option Dest) :
    Except Stop (Cursor × Option Dest) := do
  let next ← step cstr cursor dst
  if tooMuch next.1 then .error .null else .ok next

/-- Where the reader goes on at toplevel. -/
def Cursor.toplevel (cursor : Cursor) : Nat :=
  if cursor.retpos = 0 then cursor.crtpos else cursor.retpos

/-- What goes down with every turn: what is left of the buffer at toplevel, whether the
reader is away from there, the jumps it may still make, and what is left in front of it. -/
def measure (clen : Nat) (cursor : Cursor) : Nat × Nat × Nat × Nat :=
  (clen - cursor.toplevel, if cursor.retpos = 0 then 0 else 1, nsMaxdnsrch + 1 - cursor.depth,
    clen - cursor.crtpos)

/-- The measure is lower. -/
def Below (clen : Nat) (next cursor : Cursor) : Prop :=
  (inferInstance : WellFoundedRelation (Nat × Nat × Nat × Nat)).rel (measure clen next)
    (measure clen cursor)

theorem below_of_lex {clen : Nat} {next cursor : Cursor}
    (lower : let a := measure clen next; let b := measure clen cursor
      a.1 < b.1 ∨ a.1 = b.1 ∧ (a.2.1 < b.2.1 ∨ a.2.1 = b.2.1 ∧
        (a.2.2.1 < b.2.2.1 ∨ a.2.2.1 = b.2.2.1 ∧ a.2.2.2 < b.2.2.2))) :
    Below clen next cursor :=
  Prod.lex_def.mpr (lower.imp_right (And.imp_right fun lower =>
    Prod.lex_def.mpr (lower.imp_right (And.imp_right fun lower =>
      Prod.lex_def.mpr lower))))

theorem below_wellFounded (clen : Nat) : WellFounded (Below clen) :=
  InvImage.wf (measure clen) (inferInstance : WellFoundedRelation (Nat × Nat × Nat × Nat)).wf

theorem toNat_pos {c : UInt8} (nonzero : c ≠ 0) : 0 < c.toNat := by
  have different := UInt8.toNat_inj.not.mpr nonzero
  rw [UInt8.toNat_zero] at different
  omega

/-- What a turn that goes on has met, and where it leaves the cursor. -/
inductive Move (cstr : List UInt8) (cursor : Cursor) : Cursor → Prop
  | pointer (c low : UInt8) (flags : c &&& nsCmprsflgs = nsCmprsflgs) :
      Move cstr cursor { cursor with
        retpos := if cursor.retpos = 0 then cursor.crtpos + 2 else cursor.retpos
        depth := cursor.depth + 1
        crtpos := (c &&& 0x3f).toNat <<< 8 ||| low.toNat }
  | label (c : UInt8) (nonzero : c ≠ 0) (inside : cursor.crtpos + c.toNat + 1 ≤ cstr.length) :
      Move cstr cursor { cursor with
        len := cursor.len + (c.toNat + 1), crtpos := cursor.crtpos + (c.toNat + 1) }
  | endName (toplevel : cursor.retpos = 0) :
      Move cstr cursor { cursor with crtpos := cursor.crtpos + 1 }
  | comeBack (away : cursor.retpos ≠ 0) :
      Move cstr cursor { cursor with crtpos := cursor.retpos, retpos := 0, depth := 0 }

variable {cstr : List UInt8} {cursor : Cursor} {dst : Option Dest}

theorem step_move {next : Cursor × Option Dest} (went : step cstr cursor dst = .ok next) :
    Move cstr cursor next.1 := by
  simp only [step, Fallible.bind_eq_ok] at went
  obtain ⟨c, _, went⟩ := went
  split at went
  case isTrue flags =>
    split at went
    · cases went
    · obtain ⟨low, _, went⟩ := Fallible.bind_eq_ok.mp went
      cases went
      exact .pointer c low flags
  case isFalse =>
    split at went
    case isTrue nonzero =>
      split at went
      · cases went
      · obtain ⟨dst', _, went⟩ := Fallible.bind_eq_ok.mp went
        cases went
        exact .label c nonzero (by omega)
    case isFalse =>
      obtain ⟨dst', _, went⟩ := Fallible.bind_eq_ok.mp went
      cases went
      split
      case isTrue toplevel => exact .endName toplevel
      case isFalse away => exact .comeBack away

theorem turn_move {next : Cursor × Option Dest} (went : turn cstr cursor dst = .ok next) :
    Move cstr cursor next.1 ∧ tooMuch next.1 = false := by
  obtain ⟨stepped, taken, went⟩ := Fallible.bind_eq_ok.mp went
  split at went
  case isTrue => cases went
  case isFalse few =>
    cases went
    exact ⟨step_move taken, Bool.eq_false_iff.mpr few⟩

/-- Every turn that goes on lowers the measure. -/
theorem Move.below {next : Cursor} (move : Move cstr cursor next)
    (inside : cursor.crtpos < cstr.length) (few : tooMuch next = false) :
    Below cstr.length next cursor := by
  have jumps : next.depth ≤ nsMaxdnsrch := by
    simp only [tooMuch, Bool.or_eq_false_iff, decide_eq_false_iff_not] at few
    exact Nat.le_of_not_lt few.1
  apply below_of_lex
  cases move with
  | pointer c low flags =>
    by_cases toplevel : cursor.retpos = 0
    · simp [measure, Cursor.toplevel, toplevel]
      omega
    · simp [measure, Cursor.toplevel, toplevel] at jumps ⊢
      omega
  | label c nonzero _ =>
    have positive := toNat_pos nonzero
    by_cases toplevel : cursor.retpos = 0
    · simp [measure, Cursor.toplevel, toplevel]
      omega
    · simp [measure, Cursor.toplevel, toplevel]
      omega
  | endName toplevel =>
    simp [measure, Cursor.toplevel, toplevel]
    omega
  | comeBack away => simp [measure, Cursor.toplevel, away]

/-- The loop of a pass: the length of the text, and the buffer that `dst` points into. -/
def pass (cstr : List UInt8) (cursor : Cursor) (dst : Option Dest) :
    Except Stop (Nat × Option Dest) :=
  if _inside : cursor.crtpos < cstr.length then
    match _taken : turn cstr cursor dst with
    | .error stop => .error stop
    | .ok next => pass cstr next.1 next.2
  else .ok (cursor.len, dst)
termination_by measure cstr.length cursor
decreasing_by
  obtain ⟨move, few⟩ := turn_move _taken
  exact move.below _inside few

theorem pass_done (done : ¬ cursor.crtpos < cstr.length) :
    pass cstr cursor dst = .ok (cursor.len, dst) := by
  rw [pass, dif_neg done]

theorem pass_next {next : Cursor × Option Dest} (inside : cursor.crtpos < cstr.length)
    (taken : turn cstr cursor dst = .ok next) : pass cstr cursor dst = pass cstr next.1 next.2 := by
  rw [pass, dif_pos inside]
  split
  case h_1 failed => rw [taken] at failed; cases failed
  case h_2 again =>
    obtain rfl := Except.ok.inj (again.symm.trans taken)
    rfl

theorem pass_error {stop : Stop} (inside : cursor.crtpos < cstr.length)
    (taken : turn cstr cursor dst = .error stop) : pass cstr cursor dst = .error stop := by
  rw [pass, dif_pos inside]
  split
  case h_1 failed =>
    obtain rfl := Except.error.inj (failed.symm.trans taken)
    rfl
  case h_2 again => rw [taken] at again; cases again

/-- A pass begins at the front of the buffer, at toplevel, with no text. -/
def start : Cursor := ⟨0, 0, 0, 0⟩

/-- `dname_dec`, and the buffer that it returns. -/
def dnameDec (cstr pre : List UInt8) : Except Stop (Block UInt8) := do
  let first ← pass cstr start none
  if first.1 = 0 then .error .null
  else do
    -- allocate dst buffer and copy pre
    let ret ← checked (store (alloc (pre.length + first.1)) 0 (pre ++ [0]))
    let second ← pass cstr start (some ⟨ret, pre.length⟩)
    if second.1 = 0 then .error .null
    else do
      let dst ← writeDst second.2 (second.1 - 1) [0]
      .ok (dst.elim ret Dest.ret)

/-! ## The two passes in step -/

/-- `dst` is not set, or it points behind the front of a buffer whose part behind that
begins with the text and has so many cells in all. -/
inductive Holds (front : Block UInt8) (total : Nat) : Bool → Option Dest → List UInt8 → Prop
  | measuring (text : List UInt8) : Holds front total false none text
  | filling (text : List UInt8) (rest : Block UInt8) (size : text.length + rest.length = total) :
      Holds front total true (some ⟨front ++ (text.map some ++ rest), front.length⟩) text

variable {front : Block UInt8} {total : Nat} {writing : Bool} {text : List UInt8}

/-- Before anything is written, the rest of the buffer may hold anything. -/
theorem Holds.begun {front rest : Block UInt8} (room : rest.length = total) :
    Holds front total true (some ⟨front ++ rest, front.length⟩) [] :=
  .filling [] rest (by rw [List.length_nil, Nat.zero_add, room])

/-- A text of the measured length fills the buffer. -/
theorem Holds.filled (held : Holds front total true dst text) (size : text.length = total) :
    dst = some ⟨front ++ text.map some, front.length⟩ := by
  cases held with
  | filling _ rest room =>
    obtain rfl : rest = [] := List.length_eq_zero_iff.mp (by omega)
    rw [List.append_nil]

/-- A write behind the text. -/
theorem Holds.append (holds : Holds front total writing dst text) {bytes : List UInt8}
    (room : (text ++ bytes).length ≤ total) :
    ∃ dst', writeDst dst text.length bytes = .ok dst' ∧ Holds front total writing dst' (text ++ bytes) := by
  cases holds with
  | measuring => exact ⟨none, rfl, .measuring _⟩
  | filling _ rest size =>
    rw [List.length_append] at room
    have stored : store (front ++ (text.map some ++ rest)) (front.length + text.length) bytes =
        some (front ++ ((text ++ bytes).map some ++ rest.drop bytes.length)) := by
      have split := store_append (front ++ text.map some) (rest.take bytes.length)
        (rest.drop bytes.length) bytes (by rw [List.length_take]; omega) rfl
      simpa using split
    exact ⟨_, by simp only [writeDst, stored]; rfl,
      .filling (text ++ bytes) _ (by rw [List.length_append, List.length_drop]; omega)⟩

/-- A write over the last byte of the text. -/
theorem Holds.last (holds : Holds front total writing dst text) (byte : UInt8) (nonempty : text ≠ []) :
    ∃ dst', writeDst dst (text.length - 1) [byte] = .ok dst' ∧
      Holds front total writing dst' (text.dropLast ++ [byte]) := by
  cases holds with
  | measuring => exact ⟨none, rfl, .measuring _⟩
  | filling _ rest size =>
    obtain ⟨init, old, rfl⟩ := (List.eq_nil_or_concat text).resolve_left nonempty
    rw [List.concat_eq_append] at *
    have stored : store (front ++ ((init ++ [old]).map some ++ rest))
        (front.length + ((init ++ [old]).length - 1)) [byte] =
        some (front ++ ((init ++ [byte]).map some ++ rest)) := by
      have cell := store_cell (front ++ init.map some) rest (some old) byte rfl
      simpa using cell
    rw [List.dropLast_concat]
    exact ⟨_, by simp only [writeDst, stored]; rfl, .filling (init ++ [byte]) rest (by simpa using size)⟩

/-- The text behind a NUL. -/
def closed (text : List UInt8) : List UInt8 := if text = [] then [] else text.dropLast ++ [space]

theorem length_closed (text : List UInt8) : (closed text).length = text.length := by
  unfold closed
  split
  case isTrue empty => rw [empty]
  case isFalse nonempty =>
    have positive := List.length_pos_of_ne_nil nonempty
    rw [List.length_append, List.length_dropLast, List.length_singleton]
    omega

theorem Holds.endName (holds : Holds front total writing dst text) (measured : text.length = cursor.len) :
    ∃ dst', endName cursor dst = .ok dst' ∧ Holds front total writing dst' (closed text) := by
  unfold Names.endName closed
  by_cases empty : text = []
  · have zero : cursor.len = 0 := by rw [← measured, empty, List.length_nil]
    rw [if_neg (not_not_intro zero), if_pos empty]
    exact ⟨dst, rfl, empty ▸ holds⟩
  · have positive := List.length_pos_of_ne_nil empty
    rw [if_pos (by omega), if_neg empty, ← measured]
    exact holds.last space empty

/-- The bytes that are copied for a label, when all of it is there. -/
theorem readLabel_eq {start count : Nat} (inside : start + count ≤ cstr.length) :
    readLabel cstr start count = .ok ((cstr.drop start).take count) :=
  if_pos inside

/-- A step of the first pass says what the text is behind it, and that a step with a
buffer that has room for that text writes it. -/
theorem step_text {next : Cursor × Option Dest} (went : step cstr cursor none = .ok next)
    (measured : text.length = cursor.len) :
    next.2 = none ∧ ∃ text', text'.length = next.1.len ∧ text.length ≤ text'.length ∧
      ∀ {front total writing dst}, Holds front total writing dst text → text'.length ≤ total →
        ∃ dst', step cstr cursor dst = .ok (next.1, dst') ∧ Holds front total writing dst' text' := by
  simp only [step, Fallible.bind_eq_ok] at went
  obtain ⟨c, read, went⟩ := went
  by_cases pointer : c &&& nsCmprsflgs = nsCmprsflgs
  · rw [if_pos pointer] at went
    by_cases short : cstr.length < cursor.crtpos + 2
    · rw [if_pos short] at went
      cases went
    · rw [if_neg short] at went
      obtain ⟨low, readLow, went⟩ := Fallible.bind_eq_ok.mp went
      cases went
      refine ⟨rfl, text, measured, Nat.le_refl _, fun {_ _ _ dst} holds _ => ⟨dst, ?_, holds⟩⟩
      simp only [step, read, Fallible.ok_bind, if_pos pointer, if_neg short, readLow]
  rw [if_neg pointer] at went
  by_cases label : c ≠ 0
  · rw [if_pos label] at went
    by_cases long : cstr.length < cursor.crtpos + c.toNat + 1
    · rw [if_pos long] at went
      cases went
    · rw [if_neg long] at went
      cases went
      have inside : cursor.crtpos + 1 + c.toNat ≤ cstr.length := by omega
      have copied := readLabel_eq inside
      have size : ((cstr.drop (cursor.crtpos + 1)).take c.toNat).length = c.toNat := by
        rw [List.length_take, List.length_drop]
        omega
      refine ⟨rfl, text ++ ((cstr.drop (cursor.crtpos + 1)).take c.toNat ++ [dot]), ?_, ?_, ?_⟩
      · simp [size, measured]
      · simp
      · intro front total writing dst holds room
        obtain ⟨dst', wrote, held⟩ := holds.append room
        refine ⟨dst', ?_, held⟩
        rw [measured] at wrote
        simp only [step, read, Fallible.ok_bind, if_neg pointer, if_pos label, if_neg long]
        cases dst with
        | none =>
          cases wrote
          rfl
        | some dest => simp only [copyLabel, copied, Fallible.ok_bind, wrote]
  · rw [if_neg label] at went
    obtain ⟨dst', closing, went⟩ := Fallible.bind_eq_ok.mp went
    have unset : dst' = none := by
      unfold endName at closing
      split at closing <;> cases closing <;> rfl
    cases went
    have same : (if cursor.retpos = 0 then { cursor with crtpos := cursor.crtpos + 1 }
        else { cursor with crtpos := cursor.retpos, retpos := 0, depth := 0 }).len = cursor.len := by
      split <;> rfl
    refine ⟨unset, closed text, ?_, Nat.le_of_eq (length_closed text).symm, fun {_ _ _ dst} holds _ => ?_⟩
    · rw [length_closed, measured, same]
    · obtain ⟨dst'', wrote, held⟩ := holds.endName measured
      refine ⟨dst'', ?_, held⟩
      simp only [step, read, Fallible.ok_bind, if_neg pointer, if_neg label, wrote]

theorem turn_text {next : Cursor × Option Dest} (went : turn cstr cursor none = .ok next)
    (measured : text.length = cursor.len) :
    next.2 = none ∧ ∃ text', text'.length = next.1.len ∧ text.length ≤ text'.length ∧
      ∀ {front total writing dst}, Holds front total writing dst text → text'.length ≤ total →
        ∃ dst', turn cstr cursor dst = .ok (next.1, dst') ∧ Holds front total writing dst' text' := by
  obtain ⟨stepped, taken, went⟩ := Fallible.bind_eq_ok.mp went
  split at went
  case isTrue => cases went
  case isFalse few =>
    cases went
    obtain ⟨unset, text', measured', grows, follows⟩ := step_text taken measured
    refine ⟨unset, text', measured', grows, fun holds room => ?_⟩
    obtain ⟨dst', taken', held⟩ := follows holds room
    exact ⟨dst', by simp only [turn, taken', Fallible.ok_bind, if_neg few], held⟩

/-- What the first pass measures is the length of a text, and the second pass, over any
buffer with so many cells behind its front, writes that text to all of them. -/
theorem pass_text {first : Nat × Option Dest} (measures : pass cstr cursor none = .ok first)
    (measured : text.length = cursor.len) :
    first.2 = none ∧ ∃ text', text'.length = first.1 ∧ text.length ≤ text'.length ∧
      ∀ {front writing dst}, Holds front first.1 writing dst text →
        ∃ dst', pass cstr cursor dst = .ok (first.1, dst') ∧ Holds front first.1 writing dst' text' := by
  induction cursor using (below_wellFounded cstr.length).induction generalizing text with
  | _ cursor ih =>
    by_cases inside : cursor.crtpos < cstr.length
    · cases taken : turn cstr cursor none with
      | error stop =>
        rw [pass_error inside taken] at measures
        cases measures
      | ok next =>
        obtain ⟨move, few⟩ := turn_move taken
        obtain ⟨unset, later, measured', grows, follows⟩ := turn_text taken measured
        rw [pass_next inside taken, unset] at measures
        obtain ⟨unset', text', size, more, rest⟩ :=
          ih next.1 (move.below inside few) measures measured'
        refine ⟨unset', text', size, Nat.le_trans grows more, fun holds => ?_⟩
        obtain ⟨dst', taken', held⟩ := follows holds (size ▸ more)
        rw [pass_next inside taken']
        exact rest held
    · rw [pass_done inside] at measures
      cases measures
      exact ⟨rfl, text, measured, Nat.le_refl _, fun {_ _ dst} holds => ⟨dst, pass_done inside, holds⟩⟩

/-- The first pass reads inside the buffer. -/
theorem step_inside (inside : cursor.crtpos < cstr.length) :
    step cstr cursor none ≠ .error .outside := by
  intro failed
  have read : cstr[cursor.crtpos]? = some cstr[cursor.crtpos] := List.getElem?_eq_getElem inside
  simp only [step, read, checked, Fallible.ok_bind] at failed
  split at failed
  · split at failed
    · cases failed
    · have lowInside : cursor.crtpos + 1 < cstr.length := by omega
      rw [List.getElem?_eq_getElem lowInside] at failed
      cases failed
  · split at failed
    · split at failed <;> cases failed
    · unfold endName at failed
      split at failed <;> cases failed

theorem pass_inside (cstr : List UInt8) (cursor : Cursor) :
    pass cstr cursor none ≠ .error .outside := by
  induction cursor using (below_wellFounded cstr.length).induction with
  | _ cursor ih =>
    by_cases inside : cursor.crtpos < cstr.length
    · cases taken : turn cstr cursor none with
      | error stop =>
        rw [pass_error inside taken]
        rintro ⟨⟩
        rcases Fallible.bind_eq_error.mp taken with failed | ⟨next, _, failed⟩
        · exact step_inside inside failed
        · split at failed <;> cases failed
      | ok next =>
        obtain ⟨move, few⟩ := turn_move taken
        have measured : (List.replicate cursor.len dot).length = cursor.len := List.length_replicate
        rw [pass_next inside taken, (turn_text taken measured).1]
        exact ih next.1 (move.below inside few)
    · rw [pass_done inside]
      exact nofun

/-- The second pass writes the text of the first, whatever the buffer held before. -/
theorem pass_second {first : Nat × Option Dest} (measures : pass cstr start none = .ok first) :
    ∃ text : List UInt8, text.length = first.1 ∧
      ∀ front rest : Block UInt8, rest.length = first.1 →
        pass cstr start (some ⟨front ++ rest, front.length⟩) =
          .ok (first.1, some ⟨front ++ text.map some, front.length⟩) := by
  obtain ⟨_, text, size, _, follows⟩ := pass_text measures List.length_nil
  refine ⟨text, size, fun front rest room => ?_⟩
  obtain ⟨dst', wrote, held⟩ := follows (Holds.begun room)
  rw [wrote, held.filled size]

/-- `dname_dec` returns the prefix and the text of the first pass, its last byte changed to
the NUL, in a buffer that they fill. -/
theorem dnameDec_eq (pre : List UInt8) {first : Nat × Option Dest} {text : List UInt8}
    (measures : pass cstr start none = .ok first) (size : text.length = first.1)
    (nonempty : text ≠ [])
    (writes : ∀ front rest : Block UInt8, rest.length = first.1 →
      pass cstr start (some ⟨front ++ rest, front.length⟩) =
        .ok (first.1, some ⟨front ++ text.map some, front.length⟩)) :
    dnameDec cstr pre = .ok ((pre ++ text.dropLast ++ [0]).map some) := by
  have positive : first.1 ≠ 0 := by
    rw [← size]
    exact fun zero => nonempty (List.length_eq_zero_iff.mp zero)
  have copied : store (alloc (pre.length + first.1)) 0 (pre ++ [0]) =
      some (pre.map some ++ (some 0 :: alloc (first.1 - 1))) := by
    have split : (alloc (pre.length + first.1) : Block UInt8) =
        alloc (pre.length + 1) ++ alloc (first.1 - 1) := by
      rw [alloc, alloc, alloc, List.replicate_append_replicate]
      congr 1
      omega
    rw [split]
    have stored := store_append [] (alloc (pre.length + 1)) (alloc (first.1 - 1)) (pre ++ [0])
      (by simp [alloc]) rfl
    simpa using stored
  have second := writes (pre.map some) (some 0 :: alloc (first.1 - 1)) (by simp [alloc]; omega)
  rw [List.length_map] at second
  have filled : Holds (pre.map some) first.1 true
      (some ⟨pre.map some ++ (text.map some ++ []), (pre.map some).length⟩) text :=
    .filling text [] (by rw [List.length_nil, Nat.add_zero, size])
  rw [List.length_map, List.append_nil] at filled
  obtain ⟨dst', wrote, held⟩ := filled.last 0 nonempty
  rw [size] at wrote
  unfold dnameDec
  rw [measures, Fallible.ok_bind, if_neg positive, copied, checked, Fallible.ok_bind, second,
    Fallible.ok_bind, if_neg positive, wrote, Fallible.ok_bind]
  have full : (text.dropLast ++ [0]).length = first.1 := by
    rw [List.length_append, List.length_dropLast, List.length_singleton]
    omega
  rw [held.filled full]
  simp

/-- The loop of a pass: nothing where it is left or the function returns. -/
def nextTurn (cstr : List UInt8) (state : Cursor × Option Dest) : Option (Cursor × Option Dest) :=
  if state.1.crtpos < cstr.length then (turn cstr state.1 state.2).toOption else none

theorem dnameDec_ne_outside (cstr pre : List UInt8) : dnameDec cstr pre ≠ .error .outside := by
  cases measures : pass cstr start none with
  | error stop =>
    rintro failed
    rw [dnameDec, measures, Fallible.error_bind] at failed
    cases failed
    exact pass_inside cstr start measures
  | ok first =>
    obtain ⟨text, size, writes⟩ := pass_second measures
    by_cases nonempty : text = []
    · have zero : first.1 = 0 := by rw [← size, nonempty, List.length_nil]
      rw [dnameDec, measures, Fallible.ok_bind, if_pos zero]
      exact nofun
    · rw [dnameDec_eq pre measures size nonempty writes]
      exact nofun

/-- Both passes of `dname_dec` end, no byte is read or written outside its buffer, and the
second pass writes just the bytes that the first one measured. -/
theorem dnameDec_inside (cstr pre : List UInt8) :
    (∀ dst, Halts (nextTurn cstr) (start, dst)) ∧ dnameDec cstr pre ≠ .error .outside ∧
      ∀ first, pass cstr start none = .ok first →
        ∃ text : List UInt8, text.length = first.1 ∧
          ∀ front rest : Block UInt8, rest.length = first.1 →
            pass cstr start (some ⟨front ++ rest, front.length⟩) =
              .ok (first.1, some ⟨front ++ text.map some, front.length⟩) := by
  refine ⟨fun dst => ?_, ?_, fun first measures => pass_second measures⟩
  · have founded := InvImage.wf (fun state : Cursor × Option Dest => state.1) (below_wellFounded cstr.length)
    refine halts_of_wellFounded founded (fun state state' next => ?_) (start, dst)
    unfold nextTurn at next
    split at next
    case isFalse => cases next
    case isTrue inside =>
      cases taken : turn cstr state.1 state.2 with
      | error stop => rw [taken] at next; cases next
      | ok stepped =>
        rw [taken] at next
        cases next
        obtain ⟨move, few⟩ := turn_move taken
        exact move.below inside few
  · exact dnameDec_ne_outside cstr pre

end Busybox.Udhcp.Names
