import Busybox.Lib.PaddedOrder
import Busybox.Libbb.Xatonum

/-!
# Versions of packages

Two pointers walk along two versions, over other characters and over digits in turn.
-/

namespace Busybox.Dpkg

open Libbb.Xatonum (Text)
open Libbb.Strtol (isdigit strtol)

/-- A C string. -/
abbrev CString := {text : Text // 0 ∉ text}

def isalpha (x : UInt8) : Bool := (x ||| 0x20) - 97 ≤ 25

/-- The weight of a character; 0 is the NUL. -/
def order (x : UInt8) : Int :=
  if x = 126 then -1
  else if x = 0 then 0
  else if isdigit x then 0
  else if isalpha x then x.toNat
  else x.toNat + 256

/-- A pointer is at a character that is no digit. -/
def atOther (p : Text) : Bool := p.head?.any (!isdigit ·)

def atDigit (p : Text) : Bool := p.head?.any isdigit

/-- The loop over other characters: the difference it returns, or where the pointers are. -/
def skipOther (val ref : Text) : Except Int (Text × Text) :=
  if atOther val ∨ atOther ref then
    let vc := order (val.headD 0)
    let rc := order (ref.headD 0)
    if vc ≠ rc then .error (vc - rc) else skipOther val.tail ref.tail
  else .ok (val, ref)
termination_by val.length + ref.length
decreasing_by
  rename_i other _
  have some_ : 0 < val.length ∨ 0 < ref.length := by
    rcases other with other | other
    · cases val with
      | nil => cases other
      | cons => exact .inl (Nat.succ_pos _)
    · cases ref with
      | nil => cases other
      | cons => exact .inr (Nat.succ_pos _)
  rw [List.length_tail, List.length_tail]
  omega

/-- The loop over digits, with `first_diff`. -/
def skipDigits (firstDiff : Int) : Text → Text → Int × Text × Text
  | v :: val, r :: ref =>
    if isdigit v ∧ isdigit r then
      skipDigits (if firstDiff = 0 then (v.toNat : Int) - r.toNat else firstDiff) val ref
    else (firstDiff, v :: val, r :: ref)
  | val, ref => (firstDiff, val, ref)

theorem skipOther_length {val ref val' ref' : Text} (walk : skipOther val ref = .ok (val', ref')) :
    val'.length ≤ val.length ∧ ref'.length ≤ ref.length ∧
      (atOther val' = false ∧ atOther ref' = false) := by
  fun_induction skipOther val ref with
  | case1 => cases walk
  | case2 val ref other vc rc same ih =>
    obtain ⟨first, second, done⟩ := ih walk
    exact ⟨first.trans (List.length_tail ▸ Nat.sub_le _ _),
      second.trans (List.length_tail ▸ Nat.sub_le _ _), done⟩
  | case3 val ref done =>
    cases walk
    rw [not_or, Bool.not_eq_true, Bool.not_eq_true] at done
    exact ⟨Nat.le_refl _, Nat.le_refl _, done⟩

theorem skipDigits_suffix (firstDiff : Int) (val ref : Text) :
    (skipDigits firstDiff val ref).2.1 <:+ val ∧ (skipDigits firstDiff val ref).2.2 <:+ ref := by
  fun_induction skipDigits firstDiff val ref with
  | case1 firstDiff v val r ref digits ih =>
    exact ⟨ih.1.trans (List.suffix_cons _ _), ih.2.trans (List.suffix_cons _ _)⟩
  | case2 => exact ⟨List.suffix_rfl, List.suffix_rfl⟩
  | case3 => exact ⟨List.suffix_rfl, List.suffix_rfl⟩

def skipZeros (p : Text) : Text := p.dropWhile (· = 48)

/-- At a digit a walk that ends at none is shorter. -/
theorem shorter_of_atDigit {p rest : Text} (suffix : rest <:+ p) (nonempty : p ≠ [])
    (notOther : atOther p = false) (notDigit : ¬atDigit rest = true) : rest.length < p.length := by
  refine lt_of_le_of_ne suffix.length_le fun same => notDigit ?_
  rw [suffix.eq_of_length same]
  cases p with
  | nil => exact absurd rfl nonempty
  | cons c p => simpa [atOther, atDigit] using notOther

theorem versionComparePart_shorter {val ref val' ref' : Text} {walked : Int × Text × Text}
    (some_ : ¬(val = [] ∧ ref = [])) (walk : skipOther val ref = .ok (val', ref'))
    (digits : walked = skipDigits 0 (skipZeros val') (skipZeros ref'))
    (first : ¬atDigit walked.2.1 = true) (second : ¬atDigit walked.2.2 = true) :
    walked.2.1.length + walked.2.2.length < val.length + ref.length := by
  obtain ⟨valLe, refLe, valOther, refOther⟩ := skipOther_length walk
  have suffixes := skipDigits_suffix 0 (skipZeros val') (skipZeros ref')
  rw [← digits] at suffixes
  have valSuffix := suffixes.1.trans (List.dropWhile_suffix _)
  have refSuffix := suffixes.2.trans (List.dropWhile_suffix _)
  have valShort := valSuffix.length_le
  have refShort := refSuffix.length_le
  by_cases noVal : val' = []
  · by_cases noRef : ref' = []
    · have nonempty : val.length + ref.length ≠ 0 := fun none =>
        some_ ⟨List.eq_nil_of_length_eq_zero (by omega), List.eq_nil_of_length_eq_zero (by omega)⟩
      rw [noVal, List.length_nil] at valShort
      rw [noRef, List.length_nil] at refShort
      omega
    · have := shorter_of_atDigit refSuffix noRef refOther second
      omega
  · have := shorter_of_atDigit valSuffix noVal valOther first
    omega

def versionComparePart (val ref : Text) : Int :=
  if val = [] ∧ ref = [] then 0
  else
    match _walk : skipOther val ref with
    | .error difference => difference
    | .ok (val', ref') =>
      let walked := skipDigits 0 (skipZeros val') (skipZeros ref')
      if atDigit walked.2.1 then 1
      else if atDigit walked.2.2 then -1
      else if walked.1 ≠ 0 then walked.1
      else versionComparePart walked.2.1 walked.2.2
termination_by val.length + ref.length
decreasing_by
  exact versionComparePart_shorter ‹_› _walk rfl ‹_› ‹_›

/-! ## Whole versions -/

/-- `atoi` -/
def atoi (text : Text) : Int := (strtol text).1.bmod (2 ^ 32)

/-- An `int` as an `unsigned`. -/
def unsigned (n : Int) : Nat := (n % 2 ^ 32).toNat

/-- The text behind the first character `c`. -/
def strchr (c : UInt8) (text : Text) : Option Text :=
  match text.dropWhile (· ≠ c) with
  | [] => none
  | _ :: rest => some rest

/-- The texts before and behind the last character `c`. -/
def strrchr (c : UInt8) (text : Text) : Option (Text × Text) :=
  match text.reverse.dropWhile (· ≠ c) with
  | [] => none
  | _ :: front => some (front.reverse, (text.reverse.takeWhile (· ≠ c)).reverse)

/-- The epoch, and the version behind its colon. -/
def epochOf (ch_ver : Text) : Nat × Text :=
  match strchr 58 ch_ver with
  | some rest => (unsigned (atoi ch_ver), rest)
  | none => (0, ch_ver)

/-- "Chop off debian version" -/
def chop (ch_ver : Text) : Text × Text := (strrchr 45 ch_ver).getD (ch_ver, [])

def versionCompare (ver1 ver2 : Text) : Int :=
  let epoch1 := epochOf ver1
  let epoch2 := epochOf ver2
  if epoch1.1 < epoch2.1 then -1
  else if epoch2.1 < epoch1.1 then 1
  else
    let result := versionComparePart (chop epoch1.2).1 (chop epoch2.2).1
    if result = 0 then versionComparePart (chop epoch1.2).2 (chop epoch2.2).2 else result

/-!
## The parts of a version

A version is other characters and a number in turn, from its beginning to its end. Part by part the
walk of two pointers compares the characters by weight and then the numbers by value.
-/

open Libbb.Strtol
open PaddedOrder (comparePadded comparePadded_step)

/-! ## The order that is asked for -/

def isLetter (c : UInt8) : Bool := (65 ≤ c && c ≤ 90) || (97 ≤ c && c ≤ 122)

/-- A tilde is before the end of a part, which is 0, letters are behind it, and then all others. -/
def weight (c : UInt8) : Int :=
  if c = 126 then -1 else if isLetter c then c.toNat else c.toNat + 256

def others (p : Text) : Text := p.takeWhile (!isdigit ·)
def afterOthers (p : Text) : Text := p.dropWhile (!isdigit ·)

/-- The value of the number behind the first other characters. -/
def number (p : Text) : Nat := digitsValue ((afterOthers p).takeWhile isdigit)
def afterNumber (p : Text) : Text := (afterOthers p).dropWhile isdigit

theorem afterNumber_length (c : UInt8) (p : Text) :
    (afterNumber (c :: p)).length < (c :: p).length := by
  unfold afterNumber afterOthers
  by_cases digit : isdigit c = true
  · rw [List.dropWhile_cons_of_neg (by simp [digit]), List.dropWhile_cons_of_pos digit]
    exact Nat.lt_succ_of_le (List.length_dropWhile_le _ _)
  · rw [List.dropWhile_cons_of_pos (by simpa using digit)]
    exact Nat.lt_succ_of_le ((List.length_dropWhile_le _ _).trans (List.length_dropWhile_le _ _))

def parts : Text → List (Text × Nat)
  | [] => []
  | c :: p => (others (c :: p), number (c :: p)) :: parts (afterNumber (c :: p))
termination_by p => p.length
decreasing_by exact afterNumber_length c p

def compareOthers (a b : Text) : Ordering := comparePadded compare 0 (a.map weight) (b.map weight)

def comparePart (a b : Text × Nat) : Ordering :=
  (compareOthers a.1 b.1).then (compare a.2 b.2)

/-- A version that has ended goes on with empty parts. -/
def compareParts (a b : Text) : Ordering := comparePadded comparePart ([], 0) (parts a) (parts b)

/-! ## Other characters -/

theorem isalpha_eq (c : UInt8) : isalpha c = isLetter c := by
  have all : ∀ n : Fin 256, isalpha (UInt8.ofFin n) = isLetter (UInt8.ofFin n) := by
    decide +kernel
  exact all c.toFin

theorem order_eq_weight {c : UInt8} (nonzero : c ≠ 0) (other : isdigit c = false) :
    order c = weight c := by
  rw [order, weight, if_neg nonzero, other, isalpha_eq]
  rfl

theorem order_digit {c : UInt8} (digit : isdigit c = true) : order c = 0 := by
  have tilde : c ≠ 126 := by
    rintro rfl
    cases digit
  rw [order, if_neg tilde, digit]
  exact ite_self _

theorem weight_ne_zero {c : UInt8} (nonzero : c ≠ 0) : weight c ≠ 0 := by
  have positive : c.toNat ≠ 0 := fun zero => nonzero (UInt8.toNat_inj.mp zero)
  unfold weight
  split
  · decide
  · split
    · exact Int.natCast_ne_zero.mpr positive
    · omega

/-- The difference of weights tells their order. -/
theorem compare_sub (a b : Int) : compare (a - b) 0 = compare a b := by
  rcases Int.lt_trichotomy a b with less | rfl | more
  · rw [Int.compare_eq_lt.mpr less, Int.compare_eq_lt.mpr (Int.sub_neg_of_lt less)]
  · rw [Int.sub_self]
    exact Int.compare_eq_eq.mpr rfl |>.trans (Int.compare_eq_eq.mpr rfl).symm
  · rw [Int.compare_eq_gt.mpr more, Int.compare_eq_gt.mpr (Int.sub_pos_of_lt more)]

@[simp] theorem others_cons_other {c : UInt8} {p : Text} (other : isdigit c = false) :
    others (c :: p) = c :: others p :=
  List.takeWhile_cons_of_pos (by rw [other]; rfl)

@[simp] theorem afterOthers_cons_other {c : UInt8} {p : Text} (other : isdigit c = false) :
    afterOthers (c :: p) = afterOthers p :=
  List.dropWhile_cons_of_pos (by rw [other]; rfl)

theorem others_eq_nil {p : Text} (notOther : atOther p = false) :
    others p = [] ∧ afterOthers p = p := by
  cases p with
  | nil => exact ⟨rfl, rfl⟩
  | cons c p =>
    have digit : ¬(!isdigit c) = true := by simpa [atOther] using notOther
    exact ⟨List.takeWhile_cons_of_neg digit, List.dropWhile_cons_of_neg digit⟩

/-- What a pointer weighs is the first of the other characters, or 0 where there are none. -/
theorem order_headD {p : Text} (clean : 0 ∉ p) :
    order (p.headD 0) = ((others p).map weight).headD 0 := by
  cases p with
  | nil => rfl
  | cons c p =>
    rw [List.headD_cons]
    by_cases digit : isdigit c = true
    · rw [order_digit digit, (others_eq_nil (by simp [atOther, digit])).1]
      rfl
    · rw [Bool.not_eq_true] at digit
      rw [others_cons_other digit]
      exact order_eq_weight (fun zero => clean (zero ▸ List.mem_cons_self)) digit

/-- Where there is another character a pointer does not weigh 0. -/
theorem order_headD_ne_zero {p : Text} (clean : 0 ∉ p) (other : atOther p = true) :
    order (p.headD 0) ≠ 0 := by
  cases p with
  | nil => cases other
  | cons c p =>
    have nonzero : c ≠ 0 := fun zero => clean (zero ▸ List.mem_cons_self)
    have notDigit : isdigit c = false := by simpa [atOther] using other
    rw [List.headD_cons, order_eq_weight nonzero notDigit]
    exact weight_ne_zero nonzero

theorem order_headD_eq_zero {p : Text} (notOther : atOther p = false) :
    order (p.headD 0) = 0 := by
  cases p with
  | nil => rfl
  | cons c p => exact order_digit (by simpa [atOther] using notOther)

theorem afterOthers_tail {p : Text} (other : atOther p = true) :
    (others p).tail = others p.tail ∧ afterOthers p = afterOthers p.tail := by
  cases p with
  | nil => cases other
  | cons c p =>
    have notDigit : isdigit c = false := by simpa [atOther] using other
    exact ⟨by rw [others_cons_other notDigit]; rfl, afterOthers_cons_other notDigit⟩

theorem not_mem_tail {p : Text} (clean : 0 ∉ p) : 0 ∉ p.tail :=
  fun mem => clean (List.mem_of_mem_tail mem)

theorem then_of_ne {first second : Ordering} (decided : first ≠ .eq) :
    first.then second = first := by
  cases first with
  | lt => rfl
  | eq => exact absurd rfl decided
  | gt => rfl

/-- The walk over other characters finds their order, or ends behind all of them. -/
theorem skipOther_spec {val ref : Text} (clean : 0 ∉ val) (clean' : 0 ∉ ref) :
    (∃ difference, skipOther val ref = .error difference ∧ difference ≠ 0 ∧
      compare difference 0 = compareOthers (others val) (others ref)) ∨
    (skipOther val ref = .ok (afterOthers val, afterOthers ref) ∧
      compareOthers (others val) (others ref) = .eq) := by
  induction val, ref using skipOther.induct with
  | case1 val ref other vc rc differ =>
    refine .inl ⟨vc - rc, ?_, fun equal => differ (Int.sub_eq_zero.mp equal), ?_⟩
    · rw [skipOther, if_pos other]
      exact if_pos differ
    · have decided : compare vc rc ≠ .eq := fun same => differ (Int.compare_eq_eq.mp same)
      rw [compare_sub, compareOthers, comparePadded_step, ← order_headD clean,
        ← order_headD clean', then_of_ne decided]
  | case2 val ref other vc rc same ih =>
    rw [not_not] at same
    -- one pointer is at another character, so both weigh something
    have both : atOther val = true ∧ atOther ref = true := by
      rcases other with other | other
      · refine ⟨other, Bool.not_eq_false _ ▸ fun notOther => ?_⟩
        exact order_headD_ne_zero clean other (same.trans (order_headD_eq_zero notOther))
      · refine ⟨Bool.not_eq_false _ ▸ fun notOther => ?_, other⟩
        exact order_headD_ne_zero clean' other (same.symm.trans (order_headD_eq_zero notOther))
    obtain ⟨valTail, valAfter⟩ := afterOthers_tail both.1
    obtain ⟨refTail, refAfter⟩ := afterOthers_tail both.2
    have walk : skipOther val ref = skipOther val.tail ref.tail := by
      rw [skipOther, if_pos other]
      exact if_neg (not_not.mpr same)
    have compared : compareOthers (others val) (others ref) =
        compareOthers (others val.tail) (others ref.tail) := by
      rw [compareOthers, comparePadded_step, ← order_headD clean, ← order_headD clean',
        Int.compare_eq_eq.mpr same, ← List.map_tail, ← List.map_tail, valTail, refTail]
      rfl
    rw [walk, compared, valAfter, refAfter]
    exact ih (not_mem_tail clean) (not_mem_tail clean')
  | case3 val ref done =>
    rw [not_or, Bool.not_eq_true, Bool.not_eq_true] at done
    obtain ⟨noVal, valAfter⟩ := others_eq_nil done.1
    obtain ⟨noRef, refAfter⟩ := others_eq_nil done.2
    refine .inr ⟨?_, ?_⟩
    · rw [skipOther, done.1, done.2, valAfter, refAfter]
      rfl
    · rw [noVal, noRef, compareOthers, List.map_nil, comparePadded]

/-! ## Numbers -/

def digitsOf (p : Text) : Text := p.takeWhile isdigit

theorem digitsOf_digits (p : Text) : ∀ c ∈ digitsOf p, isdigit c = true :=
  fun _ mem => List.mem_takeWhile_imp mem

@[simp] theorem digitsOf_cons_digit {c : UInt8} {p : Text} (digit : isdigit c = true) :
    digitsOf (c :: p) = c :: digitsOf p :=
  List.takeWhile_cons_of_pos digit

theorem digitsOf_eq_nil {p : Text} (notDigit : atDigit p = false) :
    digitsOf p = [] ∧ p.dropWhile isdigit = p := by
  cases p with
  | nil => exact ⟨rfl, rfl⟩
  | cons c p =>
    have other : ¬isdigit c = true := by simpa [atDigit] using notDigit
    exact ⟨List.takeWhile_cons_of_neg other, List.dropWhile_cons_of_neg other⟩

theorem digitsOf_pos {p : Text} (atFirst : atDigit p = true) : 0 < (digitsOf p).length := by
  cases p with
  | nil => cases atFirst
  | cons c p =>
    rw [digitsOf_cons_digit (by simpa [atDigit] using atFirst)]
    exact Nat.succ_pos _

/-- Leading zeros add nothing to a number. -/
theorem skipZeros_spec (p : Text) :
    digitsValue (digitsOf (skipZeros p)) = digitsValue (digitsOf p) ∧
      (skipZeros p).dropWhile isdigit = p.dropWhile isdigit := by
  induction p with
  | nil => exact ⟨rfl, rfl⟩
  | cons c p ih =>
    by_cases zero : c = 48
    · subst zero
      have skipped : skipZeros (48 :: p) = skipZeros p := rfl
      have value : digitsValue (digitsOf (48 :: p)) = digitsValue (digitsOf p) := by
        rw [digitsOf_cons_digit rfl, digitsValue_cons]
        exact (congrArg (· + _) (Nat.zero_mul _)).trans (Nat.zero_add _)
      rw [skipped, value]
      exact ih
    · have kept : skipZeros (c :: p) = c :: p :=
        List.dropWhile_cons_of_neg (by simpa using zero)
      rw [kept]
      exact ⟨rfl, rfl⟩

theorem skipZeros_head {c : UInt8} {p rest : Text} (head : skipZeros p = c :: rest) :
    c ≠ 48 := by
  rintro rfl
  have kept := List.head?_dropWhile_not (· = 48) p
  rw [← skipZeros, head] at kept
  cases kept

/-- A number is larger than one with fewer digits. -/
theorem digitsValue_longer {p q : Text}
    (longer : (digitsOf q).length < (digitsOf (skipZeros p)).length) :
    digitsValue (digitsOf q) < digitsValue (digitsOf (skipZeros p)) := by
  cases shape : skipZeros p with
  | nil =>
    rw [shape] at longer
    exact absurd longer (Nat.not_lt_zero _)
  | cons c rest =>
    rw [shape] at longer
    by_cases digit : isdigit c = true
    · rw [digitsOf_cons_digit digit] at longer ⊢
      calc digitsValue (digitsOf q)
          < 10 ^ (digitsOf q).length := digitsValue_lt (digitsOf_digits q)
        _ ≤ 10 ^ (digitsOf rest).length :=
            Nat.pow_le_pow_right (by decide) (Nat.le_of_lt_succ longer)
        _ ≤ digitsValue (c :: digitsOf rest) := le_digitsValue digit (skipZeros_head shape)
    · have none_ : digitsOf (c :: rest) = [] := List.takeWhile_cons_of_neg digit
      rw [none_] at longer
      exact absurd longer (Nat.not_lt_zero _)

/-- Of numbers with as many digits the first difference decides. -/
theorem compare_digitsValue_cons {v r : UInt8} {val ref : Text} (digit : isdigit v = true)
    (digit' : isdigit r = true) (digits : ∀ c ∈ val, isdigit c = true)
    (digits' : ∀ c ∈ ref, isdigit c = true) (lengths : val.length = ref.length) :
    compare (digitsValue (v :: val)) (digitsValue (r :: ref)) =
      (compare (v.toNat : Int) r.toNat).then (compare (digitsValue val) (digitsValue ref)) := by
  have first := isdigit_iff.mp digit
  have second := isdigit_iff.mp digit'
  have below := digitsValue_lt digits
  have below' := digitsValue_lt digits'
  rw [digitsValue_cons, digitsValue_cons, lengths]
  rw [lengths] at below
  rcases Nat.lt_trichotomy v.toNat r.toNat with less | same | more
  · have high : (v.toNat - 48 + 1) * 10 ^ ref.length ≤ (r.toNat - 48) * 10 ^ ref.length :=
      Nat.mul_le_mul_right _ (by omega)
    rw [Nat.add_mul, Nat.one_mul] at high
    rw [Int.compare_eq_lt.mpr (Int.ofNat_lt.mpr less), Nat.compare_eq_lt.mpr (by omega)]
    rfl
  · rw [same, Int.compare_eq_eq.mpr rfl, Ordering.eq_then]
    rcases Nat.lt_trichotomy (digitsValue val) (digitsValue ref) with less | same | more
    · rw [Nat.compare_eq_lt.mpr less, Nat.compare_eq_lt.mpr (by omega)]
    · rw [same]
      exact (Nat.compare_eq_eq.mpr rfl).trans (Nat.compare_eq_eq.mpr rfl).symm
    · rw [Nat.compare_eq_gt.mpr more, Nat.compare_eq_gt.mpr (by omega)]
  · have high : (r.toNat - 48 + 1) * 10 ^ ref.length ≤ (v.toNat - 48) * 10 ^ ref.length :=
      Nat.mul_le_mul_right _ (by omega)
    rw [Nat.add_mul, Nat.one_mul] at high
    rw [Int.compare_eq_gt.mpr (Int.ofNat_lt.mpr more), Nat.compare_eq_gt.mpr (by omega)]
    rfl

/-- Where two pointers are behind the digits they have both passed. -/
inductive DigitsWalked (firstDiff : Int) (val ref : Text) : Int × Text × Text → Prop
  | longer {walked : Int × Text × Text} (left : atDigit walked.2.1 = true)
      (more : (digitsOf ref).length < (digitsOf val).length) : DigitsWalked firstDiff val ref walked
  | shorter {walked : Int × Text × Text} (none_ : atDigit walked.2.1 = false)
      (left : atDigit walked.2.2 = true) (less : (digitsOf val).length < (digitsOf ref).length) :
      DigitsWalked firstDiff val ref walked
  | same {difference : Int} (lengths : (digitsOf val).length = (digitsOf ref).length)
      (decided : compare difference 0 = (compare firstDiff 0).then
        (compare (digitsValue (digitsOf val)) (digitsValue (digitsOf ref)))) :
      DigitsWalked firstDiff val ref (difference, val.dropWhile isdigit, ref.dropWhile isdigit)

/-- The first difference that is kept is the one that decides. -/
theorem compare_firstDiff (firstDiff first second : Int) (rest : Ordering) :
    (compare (if firstDiff = 0 then first - second else firstDiff) 0).then rest =
      (compare firstDiff 0).then ((compare first second).then rest) := by
  by_cases zero : firstDiff = 0
  · rw [if_pos zero, zero, compare_sub, Int.compare_eq_eq.mpr rfl, Ordering.eq_then]
  · have decided : compare firstDiff 0 ≠ .eq := fun same => zero (Int.compare_eq_eq.mp same)
    rw [if_neg zero, then_of_ne decided, then_of_ne decided]

theorem atDigit_dropWhile (p : Text) : atDigit (p.dropWhile isdigit) = false := by
  cases rest : p.dropWhile isdigit with
  | nil => rfl
  | cons c q =>
    have kept := List.head?_dropWhile_not isdigit p
    rw [rest] at kept
    simpa [atDigit] using kept

/-- One version has no digit where the walk begins. -/
theorem DigitsWalked.stop {firstDiff : Int} {val ref : Text}
    (ended : atDigit val = false ∨ atDigit ref = false) :
    DigitsWalked firstDiff val ref (firstDiff, val, ref) := by
  cases first : atDigit val with
  | true =>
    have second : atDigit ref = false := ended.resolve_left (by rw [first]; exact Bool.noConfusion)
    refine .longer first ?_
    rw [(digitsOf_eq_nil second).1]
    exact digitsOf_pos first
  | false =>
    cases second : atDigit ref with
    | true =>
      refine .shorter first second ?_
      rw [(digitsOf_eq_nil first).1]
      exact digitsOf_pos second
    | false =>
      obtain ⟨noVal, valRest⟩ := digitsOf_eq_nil first
      obtain ⟨noRef, refRest⟩ := digitsOf_eq_nil second
      have walked : DigitsWalked firstDiff val ref
          (firstDiff, val.dropWhile isdigit, ref.dropWhile isdigit) := by
        refine .same (by rw [noVal, noRef]) ?_
        rw [noVal, noRef, Nat.compare_eq_eq.mpr rfl, Ordering.then_eq]
      rwa [valRest, refRest] at walked

/-- Both versions have passed a digit. -/
theorem DigitsWalked.pass {firstDiff : Int} {v r : UInt8} {val ref : Text}
    {walked : Int × Text × Text} (digit : isdigit v = true) (digit' : isdigit r = true)
    (rest : DigitsWalked (if firstDiff = 0 then (v.toNat : Int) - r.toNat else firstDiff) val ref
      walked) : DigitsWalked firstDiff (v :: val) (r :: ref) walked := by
  have lengths (c : UInt8) {p : Text} (digit : isdigit c = true) :
      (digitsOf (c :: p)).length = (digitsOf p).length + 1 := by
    rw [digitsOf_cons_digit digit, List.length_cons]
  cases rest with
  | longer left more =>
    exact .longer left (by rw [lengths _ digit, lengths _ digit']; exact Nat.succ_lt_succ more)
  | shorter none_ left less =>
    refine .shorter none_ left ?_
    rw [lengths _ digit, lengths _ digit']
    exact Nat.succ_lt_succ less
  | @same difference same decided =>
    have walked : DigitsWalked firstDiff (v :: val) (r :: ref)
        (difference, (v :: val).dropWhile isdigit, (r :: ref).dropWhile isdigit) := by
      refine .same ?_ ?_
      · rw [lengths _ digit, lengths _ digit', same]
      · rw [digitsOf_cons_digit digit, digitsOf_cons_digit digit',
          compare_digitsValue_cons digit digit' (digitsOf_digits _) (digitsOf_digits _) same,
          ← compare_firstDiff]
        exact decided
    rwa [List.dropWhile_cons_of_pos digit, List.dropWhile_cons_of_pos digit'] at walked

theorem skipDigits_walked (firstDiff : Int) (val ref : Text) :
    DigitsWalked firstDiff val ref (skipDigits firstDiff val ref) := by
  fun_induction skipDigits firstDiff val ref with
  | case1 firstDiff v val r ref digits ih => exact ih.pass digits.1 digits.2
  | case2 firstDiff v val r ref notBoth =>
    refine .stop ?_
    rw [not_and_or, Bool.not_eq_true, Bool.not_eq_true] at notBoth
    simpa [atDigit] using notBoth
  | case3 firstDiff val ref ended =>
    refine .stop ?_
    cases val with
    | nil => exact .inl rfl
    | cons v val =>
      cases ref with
      | nil => exact .inr rfl
      | cons r ref => exact absurd rfl (ended v val r ref rfl)

/-! ## Part by part -/

instance : Std.TransCmp compareOthers := PaddedOrder.transCmp_on (List.map weight)

instance : Std.TransCmp comparePart :=
  have : Std.TransCmp fun a b : Text × Nat => compareOthers a.1 b.1 :=
    PaddedOrder.transCmp_on Prod.fst
  have : Std.TransCmp fun a b : Text × Nat => compare a.2 b.2 := PaddedOrder.transCmp_on Prod.snd
  (inferInstance : Std.TransCmp (compareLex (fun a b : Text × Nat => compareOthers a.1 b.1)
    fun a b : Text × Nat => compare a.2 b.2))

instance : Std.TransCmp compareParts := PaddedOrder.transCmp_on parts

theorem parts_step (p : Text) :
    (parts p).headD ([], 0) = (others p, number p) ∧ (parts p).tail = parts (afterNumber p) := by
  cases p with
  | nil =>
    rw [parts]
    exact ⟨rfl, by rw [show afterNumber [] = [] from rfl, parts]; rfl⟩
  | cons c p =>
    rw [parts]
    exact ⟨rfl, rfl⟩

theorem compareParts_step (a b : Text) :
    compareParts a b = ((compareOthers (others a) (others b)).then
      (compare (number a) (number b))).then (compareParts (afterNumber a) (afterNumber b)) := by
  rw [compareParts, comparePadded_step, (parts_step a).1, (parts_step a).2, (parts_step b).1,
    (parts_step b).2]
  rfl

theorem not_mem_afterOthers {p : Text} (clean : 0 ∉ p) : 0 ∉ afterOthers p :=
  fun mem => clean ((List.dropWhile_sublist _).subset mem)

theorem not_mem_afterNumber {p : Text} (clean : 0 ∉ p) : 0 ∉ afterNumber p :=
  fun mem => not_mem_afterOthers clean ((List.dropWhile_sublist _).subset mem)

/-- A round of the walk compares the first parts. -/
theorem versionComparePart_pass {val ref : Text} (some_ : ¬(val = [] ∧ ref = [])) (clean : 0 ∉ val)
    (clean' : 0 ∉ ref) :
    compare (versionComparePart val ref) 0 =
      ((compareOthers (others val) (others ref)).then (compare (number val) (number ref))).then
        (compare (versionComparePart (afterNumber val) (afterNumber ref)) 0) := by
  rw [versionComparePart, if_neg some_]
  rcases skipOther_spec clean clean' with ⟨difference, error, nonzero, decided⟩ | ⟨done, equal⟩
  · have differ : compare difference 0 ≠ .eq := fun same => nonzero (Int.compare_eq_eq.mp same)
    rw [← decided, then_of_ne differ, then_of_ne differ]
    split
    · rename_i walk
      cases error.symm.trans walk
      rfl
    · rename_i walk
      cases error.symm.trans walk
  · obtain ⟨value, rest⟩ := skipZeros_spec (afterOthers val)
    obtain ⟨value', rest'⟩ := skipZeros_spec (afterOthers ref)
    have walked := skipDigits_walked 0 (skipZeros (afterOthers val)) (skipZeros (afterOthers ref))
    rw [equal, Ordering.eq_then]
    split
    · rename_i walk
      cases done.symm.trans walk
    · rename_i walk
      cases done.symm.trans walk
      simp only
      generalize skipDigits 0 (skipZeros (afterOthers val)) (skipZeros (afterOthers ref)) = w
        at walked
      cases walked with
      | longer left more =>
        have larger : number ref < number val := by
          have := digitsValue_longer more
          rwa [value, value'] at this
        rw [if_pos left, Nat.compare_eq_gt.mpr larger]
        rfl
      | shorter none_ left less =>
        have smaller : number val < number ref := by
          have := digitsValue_longer less
          rwa [value, value'] at this
        rw [none_, if_neg Bool.false_ne_true, if_pos left, Nat.compare_eq_lt.mpr smaller]
        rfl
      | @same difference lengths decided =>
        rw [value, value', Int.compare_eq_eq.mpr rfl, Ordering.eq_then] at decided
        have order_ : compare difference 0 = compare (number val) (number ref) := decided
        rw [rest, rest', atDigit_dropWhile, atDigit_dropWhile, if_neg Bool.false_ne_true,
          if_neg Bool.false_ne_true, ← order_]
        by_cases zero : difference = 0
        · rw [if_neg (not_not.mpr zero), Int.compare_eq_eq.mpr zero]
          rfl
        · rw [if_pos zero, then_of_ne fun same => zero (Int.compare_eq_eq.mp same)]

theorem afterNumber_shorter {a b : Text} (some_ : ¬(a = [] ∧ b = [])) :
    (afterNumber a).length + (afterNumber b).length < a.length + b.length := by
  have le (p : Text) : (afterNumber p).length ≤ p.length :=
    (List.length_dropWhile_le _ _).trans (List.length_dropWhile_le _ _)
  cases a with
  | cons c a => exact Nat.add_lt_add_of_lt_of_le (afterNumber_length c a) (le b)
  | nil =>
    cases b with
    | cons c b => exact Nat.add_lt_add_of_le_of_lt (le []) (afterNumber_length c b)
    | nil => exact absurd ⟨rfl, rfl⟩ some_

/-- The sign that the walk returns is the order of the parts. -/
theorem versionComparePart_spec {val ref : Text} (clean : 0 ∉ val) (clean' : 0 ∉ ref) :
    compare (versionComparePart val ref) 0 = compareParts val ref := by
  obtain ⟨n, length⟩ : ∃ n, val.length + ref.length ≤ n := ⟨_, Nat.le_refl _⟩
  induction n generalizing val ref with
  | zero =>
    have none_ : val = [] ∧ ref = [] :=
      ⟨List.eq_nil_of_length_eq_zero (by omega), List.eq_nil_of_length_eq_zero (by omega)⟩
    rw [none_.1, none_.2, versionComparePart, if_pos ⟨rfl, rfl⟩, Int.compare_eq_eq.mpr rfl]
    exact Std.ReflCmp.compare_self.symm
  | succ n ih =>
    by_cases none_ : val = [] ∧ ref = []
    · exact ih clean clean' (by rw [none_.1, none_.2]; exact Nat.zero_le _)
    · have shorter := afterNumber_shorter none_
      rw [versionComparePart_pass none_ clean clean', compareParts_step,
        ih (not_mem_afterNumber clean) (not_mem_afterNumber clean') (by omega)]

end Busybox.Dpkg
