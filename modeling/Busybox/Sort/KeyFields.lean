import Busybox.Sort.Keys

/-!
# Fields of a line

The fields are what stands between separators, or words with the blanks in front of them. The loop
of `get_key` finds where a field starts and where it ends.
-/

namespace Busybox.Sort

/-- The room of the first fields, each with what separates it from the next one. -/
def pitch (gap : Nat) (fields : List (List UInt8)) (count : Nat) : Nat :=
  ((fields.take count).map fun field => field.length + gap).sum

/-- What separates two fields. -/
def gapOf : Option UInt8 → Nat
  | some _ => 1
  | none => 0

/-- A field ends where a blank follows a character that is none. -/
def inWord (a b : UInt8) : Bool := isspace a || !isspace b

/-- The fields of a line. -/
def fieldsOf (keySeparator : Option UInt8) (str : List UInt8) : List (List UInt8) :=
  match keySeparator with
  | some separator => str.splitOn separator
  | none => str.splitBy inWord

/-- The fields as the loop sees them, for which some separators are none. -/
def seenFields (keySeparator : Option UInt8) (str : List UInt8) : List (List UInt8) :=
  match keySeparator with
  | some separator => str.splitOnP (isSeparator separator)
  | none => str.splitBy inWord

/-- Where a field starts: behind the line if there are fewer. -/
def startIn (gap : Nat) (fields : List (List UInt8)) (length word : Nat) : Nat :=
  min (pitch gap fields (word - 1)) length

/-- Where a field ends. -/
def stopIn (gap : Nat) (fields : List (List UInt8)) (word : Nat) : Nat :=
  pitch gap fields word - gap

theorem pitch_zero (gap : Nat) (fields : List (List UInt8)) : pitch gap fields 0 = 0 := rfl

theorem pitch_cons (gap : Nat) (field : List UInt8) (fields : List (List UInt8)) (count : Nat) :
    pitch gap (field :: fields) (count + 1) = field.length + gap + pitch gap fields count := by
  rw [pitch, List.take_succ_cons, List.map_cons, List.sum_cons, pitch]

theorem pitch_nil (gap count : Nat) : pitch gap [] count = 0 := by
  rw [pitch, List.take_nil]
  rfl

/-! ## Separators -/

variable {separator : UInt8} {str : List UInt8}

/-- The body of the first field is skipped, and the separator behind it if it is not the last. -/
theorem skipToSeparator_splitOnP {first : List UInt8} {fields : List (List UInt8)}
    (split : str.splitOnP (isSeparator separator) = first :: fields) :
    (fields = [] ∧ skipToSeparator separator str = (str.length, 0) ∧ first = str) ∨
      (fields ≠ [] ∧ skipToSeparator separator str = (first.length + 1, separator) ∧
        first.length + 1 ≤ str.length ∧
        (str.drop (first.length + 1)).splitOnP (isSeparator separator) = fields) := by
  induction str generalizing first fields with
  | nil =>
    rw [List.splitOnP_nil] at split
    cases split
    exact .inl ⟨rfl, rfl, rfl⟩
  | cons ch rest ih =>
    rw [List.splitOnP_cons_eq_if_modifyHead] at split
    rw [skipToSeparator]
    by_cases ends : isSeparator separator ch
    · rw [if_pos ends] at split ⊢
      obtain ⟨rfl, rfl⟩ := List.cons.inj split
      have same : ch = separator := by
        simp only [isSeparator, Bool.and_eq_true, beq_iff_eq] at ends
        exact ends.1
      have inside : ([] : List UInt8).length + 1 ≤ (ch :: rest).length :=
        Nat.succ_le_succ (Nat.zero_le _)
      exact .inr ⟨List.splitOnP_ne_nil _ _, by rw [same]; rfl, inside, rfl⟩
    · rw [if_neg ends] at split ⊢
      obtain ⟨body, more, pieces⟩ :=
        List.exists_cons_of_ne_nil (List.splitOnP_ne_nil (isSeparator separator) rest)
      rw [pieces, List.modifyHead_cons] at split
      obtain ⟨rfl, rfl⟩ := List.cons.inj split
      rcases ih pieces with ⟨last, skipped, whole⟩ | ⟨notLast, skipped, inside, later⟩
      · exact .inl ⟨last, by rw [skipped]; rfl, by rw [whole]⟩
      · exact .inr ⟨notLast, by rw [skipped]; rfl, Nat.succ_le_succ inside, later⟩

/-- All fields and their separators take the line, and one separator that is not there. -/
theorem pitch_splitOnP (p : UInt8 → Bool) (str : List UInt8) {count : Nat}
    (all : (str.splitOnP p).length ≤ count) : pitch 1 (str.splitOnP p) count = str.length + 1 := by
  induction str generalizing count with
  | nil =>
    rw [List.splitOnP_nil] at all ⊢
    obtain ⟨count, rfl⟩ := Nat.exists_eq_succ_of_ne_zero (by simp at all; omega : count ≠ 0)
    rw [pitch_cons, pitch_nil]
  | cons ch rest ih =>
    rw [List.splitOnP_cons_eq_if_modifyHead] at all ⊢
    split at all
    case isTrue ends =>
      rw [if_pos ends]
      obtain ⟨count, rfl⟩ := Nat.exists_eq_succ_of_ne_zero (by simp at all; omega : count ≠ 0)
      rw [pitch_cons, ih (Nat.le_of_succ_le_succ all)]
      simp
      omega
    case isFalse goesOn =>
      rw [if_neg goesOn]
      obtain ⟨body, more, pieces⟩ := List.exists_cons_of_ne_nil (List.splitOnP_ne_nil p rest)
      have later := @ih count
      rw [pieces] at all later ⊢
      obtain ⟨count, rfl⟩ := Nat.exists_eq_succ_of_ne_zero (by simp at all; omega : count ≠ 0)
      rw [List.modifyHead_cons, pitch_cons, List.length_cons]
      have whole := later all
      rw [pitch_cons] at whole
      simp
      omega

theorem pitch_lt {gap : Nat} (positive : 0 < gap) {fields : List (List UInt8)} {count : Nat}
    (more : count < fields.length) : pitch gap fields count < pitch gap fields fields.length := by
  induction fields generalizing count with
  | nil => cases more
  | cons field fields ih =>
    rw [List.length_cons, pitch_cons]
    cases count with
    | zero =>
      rw [pitch_zero]
      omega
    | succ count =>
      rw [pitch_cons]
      exact Nat.add_lt_add_left (ih (Nat.lt_of_succ_lt_succ more)) _

/-- The loop over the fields between separators: where it ends, and on what. -/
theorem skipFields_separator (rounds : Nat) (str : List UInt8) (ch : UInt8) :
    skipFields (some separator) rounds str ch =
      (min (pitch 1 (str.splitOnP (isSeparator separator)) rounds) str.length,
        if rounds = 0 then ch
        else if rounds < (str.splitOnP (isSeparator separator)).length then separator else 0) := by
  induction rounds generalizing str ch with
  | zero => simp [skipFields, pitch_zero]
  | succ rounds ih =>
    obtain ⟨first, fields, split⟩ :=
      List.exists_cons_of_ne_nil (List.splitOnP_ne_nil (isSeparator separator) str)
    rw [skipFields, skipField, split, pitch_cons]
    rcases skipToSeparator_splitOnP split with
      ⟨rfl, skipped, rfl⟩ | ⟨notLast, skipped, inside, later⟩
    · have behind := ih [] 0
      rw [List.splitOnP_nil] at behind
      rw [skipped]
      simp only
      rw [List.drop_length, behind, pitch_nil]
      have ended : (if rounds = 0 then (0 : UInt8)
          else if rounds < [([] : List UInt8)].length then separator else 0) = 0 := by
        split
        · rfl
        case isFalse more => exact if_neg (by simpa using more)
      rw [ended]
      simp
    · have more := List.length_pos_iff.mpr notLast
      rw [skipped]
      simp only
      rw [ih, later, List.length_drop, List.length_cons]
      refine Prod.ext ?_ ?_
      · simp only
        omega
      · simp only [Nat.succ_ne_zero, if_false, Nat.succ_lt_succ_iff]
        by_cases first : rounds = 0
        · rw [if_pos first, if_pos (by omega)]
        · rw [if_neg first]

/-! ## Words -/

theorem head_dropWhile {p : UInt8 → Bool} {ch : UInt8} (first : ch ∈ (str.dropWhile p).head?) :
    p ch = false := by
  have head := List.head?_dropWhile_not p str
  rw [Option.mem_def.mp first] at head
  exact head

/-- A word with the blanks in front of it is skipped. -/
theorem splitBy_skipWord (nonempty : str ≠ []) :
    str.splitBy inWord = str.take (skipWord str) :: (str.drop (skipWord str)).splitBy inWord := by
  let blanks := str.takeWhile isspace
  let body := str.dropWhile isspace
  let word := body.takeWhile fun ch => !isspace ch
  let rest := body.dropWhile fun ch => !isspace ch
  have whole : str = (blanks ++ word) ++ rest := by
    rw [List.append_assoc, List.takeWhile_append_dropWhile, List.takeWhile_append_dropWhile]
  have length : skipWord str = (blanks ++ word).length := (List.length_append ..).symm
  have isBlank : ∀ a ∈ blanks, isspace a = true := fun a mem => List.mem_takeWhile_imp mem
  have inBody : ∀ b ∈ word, (!isspace b) = true := fun b mem =>
    @List.mem_takeWhile_imp _ (fun ch => !isspace ch) _ _ mem
  -- where there is no body, nothing follows the blanks
  have noBody : word = [] → rest = [] := by
    intro empty
    have same : body = rest := by
      rw [← @List.takeWhile_append_dropWhile _ (fun ch => !isspace ch) body]
      exact congrArg (· ++ rest) empty
    cases isRest : rest with
    | nil => rfl
    | cons b more =>
      have atRest : b ∈ rest.head? := by rw [isRest]; rfl
      have atBody : b ∈ body.head? := same ▸ atRest
      have blank := head_dropWhile atRest
      rw [head_dropWhile atBody] at blank
      cases blank
  have first : blanks ++ word ≠ [] := by
    intro empty
    rw [empty, noBody (List.append_eq_nil_iff.mp empty).2] at whole
    exact nonempty whole
  have chain : (blanks ++ word).IsChain fun a b => inWord a b = true := by
    refine List.IsChain.append (List.Pairwise.isChain ?_) (List.Pairwise.isChain ?_) ?_
    · refine List.pairwise_of_forall_mem_list fun a mem _ _ => ?_
      rw [inWord, isBlank a mem, Bool.true_or]
    · refine List.pairwise_of_forall_mem_list fun _ _ b mem => ?_
      rw [inWord, inBody b mem, Bool.or_true]
    · intro a last _ _
      rw [inWord, isBlank a (List.mem_of_getLast? last), Bool.true_or]
  have ends : ∀ a ∈ (blanks ++ word).getLast?, ∀ b ∈ rest.head?, inWord a b = false := by
    intro a last b next
    have inLast : a ∈ word.getLast? := by
      cases isWord : word with
      | nil =>
        rw [noBody isWord] at next
        cases next
      | cons c more => rwa [isWord, List.getLast?_append_of_ne_nil _ (by simp)] at last
    have body := inBody a (List.mem_of_getLast? inLast)
    have blank := head_dropWhile next
    simp only [inWord, Bool.or_eq_false_iff]
    simp only [Bool.not_eq_true', Bool.not_eq_false'] at body blank
    simp [body, blank]
  have front : str.take (skipWord str) = blanks ++ word := by
    rw [length]
    conv => lhs; rw [whole]
    exact List.take_left
  have back : str.drop (skipWord str) = rest := by
    rw [length]
    conv => lhs; rw [whole]
    exact List.drop_left
  rw [front, back]
  conv => lhs; rw [whole]
  rw [List.splitBy_append ends, List.splitBy_of_isChain first chain, List.singleton_append]

theorem skipFields_words (rounds : Nat) (str : List UInt8) (ch : UInt8) :
    skipFields none rounds str ch = (pitch 0 (str.splitBy inWord) rounds, ch) := by
  induction rounds generalizing str with
  | zero => rfl
  | succ rounds ih =>
    rw [skipFields, skipField]
    simp only
    rw [ih]
    by_cases empty : str = []
    · rw [empty]
      simp [skipWord, List.splitBy_nil, pitch_nil]
    · rw [splitBy_skipWord empty, pitch_cons, List.length_take, Nat.min_eq_left (skipWord_le str)]
      rfl

theorem pitch_splitBy_le (count : Nat) : pitch 0 (str.splitBy inWord) count ≤ str.length := by
  have inside := skipFields_le none count str 0
  rwa [skipFields_words] at inside

/-! ## Positions -/

/-- The first pass of the loop finds the start of a field. -/
theorem keyPosition_start (keySeparator : Option UInt8) (str : List UInt8) {word : Nat}
    (counted : 0 < word) : keyPosition keySeparator str word 0 =
      startIn (gapOf keySeparator) (seenFields keySeparator str) str.length word := by
  rw [keyPosition, if_neg (by omega), startIn]
  cases keySeparator with
  | some separator =>
    simp only [skipFields_separator, ne_eq, not_true_eq_false, false_and, if_false, Nat.add_zero]
    rfl
  | none =>
    simp only [skipFields_words, ne_eq, not_true_eq_false, false_and, if_false, Nat.add_zero]
    exact (Nat.min_eq_left (pitch_splitBy_le (word - 1))).symm

/-- The second pass finds the end of a field, in front of its separator. -/
theorem keyPosition_stop {keySeparator : Option UInt8} (noNul : keySeparator ≠ some 0)
    (str : List UInt8) {word : Nat} (counted : 0 < word) : keyPosition keySeparator str word 1 =
      stopIn (gapOf keySeparator) (seenFields keySeparator str) word := by
  have rounds : word - 1 + 1 = word := by omega
  rw [keyPosition, if_neg (by omega), rounds, stopIn]
  cases keySeparator with
  | some separator =>
    have nonzero : separator ≠ 0 := fun zero => noNul (congrArg some zero)
    have all := pitch_splitOnP (isSeparator separator) str (Nat.le_refl _)
    simp only [skipFields_separator, gapOf, seenFields]
    rw [if_neg (by omega : word ≠ 0)]
    by_cases more : word < (str.splitOnP (isSeparator separator)).length
    · have inside := pitch_lt Nat.one_pos more
      rw [if_pos more, if_pos ⟨by decide, nonzero⟩]
      omega
    · rw [if_neg more, if_neg (by simp), pitch_splitOnP _ _ (not_lt.mp more)]
      omega
  | none => simp [skipFields_words, gapOf, seenFields]

/-- Separators from 128 on are none for the loop. -/
def Unseen (keySeparator : Option UInt8) (str : List UInt8) : Prop :=
  ∃ separator ∈ keySeparator, 128 ≤ separator ∧ separator ∈ str

instance (keySeparator : Option UInt8) (str : List UInt8) : Decidable (Unseen keySeparator str) :=
  decidable_of_iff (keySeparator.any (fun separator => 128 ≤ separator ∧ separator ∈ str) = true)
    (by cases keySeparator <;> simp [Unseen])

theorem seenFields_eq {keySeparator : Option UInt8} (seen : ¬Unseen keySeparator str) :
    seenFields keySeparator str = fieldsOf keySeparator str := by
  cases keySeparator with
  | none => rfl
  | some separator =>
    rw [seenFields, fieldsOf, List.splitOn_eq_splitOnP]
    by_cases low : separator < 128
    · refine congrArg (List.splitOnP · str) (funext fun ch => ?_)
      rw [isSeparator]
      by_cases same : ch = separator
      · rw [same, decide_eq_true low, Bool.and_true]
      · rw [beq_eq_false_iff_ne.mpr same, Bool.false_and]
    · have absent : separator ∉ str := fun inStr =>
        seen ⟨separator, rfl, UInt8.not_lt.mp low, inStr⟩
      have noMatch : ∀ ch ∈ str, (ch == separator) = false := fun ch inStr =>
        beq_eq_false_iff_ne.mpr (ne_of_mem_of_not_mem inStr absent)
      rw [List.splitOnP_eq_singleton noMatch, List.splitOnP_eq_singleton]
      intro ch inStr
      rw [isSeparator, noMatch ch inStr, Bool.false_and]

theorem seenFields_unseen {keySeparator : Option UInt8} (unseen : Unseen keySeparator str) :
    seenFields keySeparator str = [str] ∧ gapOf keySeparator = 1 := by
  obtain ⟨separator, isSeparator', high, -⟩ := unseen
  obtain rfl := Option.mem_def.mp isSeparator'
  refine ⟨List.splitOnP_eq_singleton fun ch _ => ?_, rfl⟩
  rw [isSeparator]
  by_cases same : ch = separator
  · rw [same, decide_eq_false (UInt8.not_lt.mpr high), Bool.and_false]
  · rw [beq_eq_false_iff_ne.mpr same, Bool.false_and]

end Busybox.Sort
