import Busybox.Coreutils.Head
import Busybox.Coreutils.TailFile

/-!
# Bounds of the arrays of `head` and `tail`

Which counts keep every index below the number of the elements. Where `++count` wraps around, where
a count is negative as an `int` and where a length does not fit into an `int` any more, they leave
the array.
-/

namespace Busybox.Coreutils.Tail

variable {state : State} {text kept chunk front : List UInt8} {bufsiz count : Nat}
  {options : Options} {seekable : Bool} {fresh : Nat → UInt8} {chunks : List (List UInt8)}

/-- No read of a whole run would exceed an `int` together with what is kept. -/
def ReadsFit (count : Nat) (chunks : List (List UInt8)) : Prop :=
  ∀ front chunk, front ++ [chunk] <+: delivered chunks →
    min count front.flatten.length + chunk.length < 2 ^ 31

/-- Where every access of `tail_main` lies in the buffer. -/
def InBounds (options : Options) (seekable : Bool) (chunks : List (List UInt8)) : Prop :=
  delivered chunks = [] ∨
    if options.fromTop then
      options.countBytes = true →
        ∀ first ∈ (delivered chunks).head?, options.count.toNat ≤ 2 ^ 31 + 1 + first.length
    else
      optimized options seekable = true ∨ options.count = 0 ∨
        options.count.toNat < 2 ^ 31 ∧
          (options.countBytes = true → ReadsFit options.count.toNat chunks)

/-! ## Bytes -/

/-- The lengths stay in an `int` exactly if they do at each read. -/
theorem bytesRun_isSome (few : kept.length ≤ count) :
    (bytesRun count chunks kept).isSome ↔
      ∀ front chunk, front ++ [chunk] <+: delivered chunks →
        min count (kept.length + front.flatten.length) + chunk.length < 2 ^ 31 := by
  induction chunks generalizing kept with
  | nil =>
    refine iff_of_true rfl fun front chunk here => ?_
    exact absurd (List.prefix_nil.mp here) (List.append_ne_nil_of_right_ne_nil _ (List.cons_ne_nil _ _))
  | cons first chunks ih =>
    rw [bytesRun]
    by_cases done : toInt first.length ≤ 0
    · have nothing : delivered (first :: chunks) = [] :=
        List.takeWhile_cons_of_neg (by simpa using done)
      rw [if_pos done, nothing]
      refine iff_of_true rfl fun front chunk here => ?_
      exact absurd (List.prefix_nil.mp here) (List.append_ne_nil_of_right_ne_nil _ (List.cons_ne_nil _ _))
    · have more : delivered (first :: chunks) = first :: delivered chunks :=
        List.takeWhile_cons_of_pos (by simpa using done)
      have length : (lastBytes count (kept ++ first)).length =
          min count (kept.length + first.length) := by
        rw [length_lastBytes, List.length_append]
      rw [if_neg done, more]
      constructor
      · intro some front chunk here
        split at some
        case isFalse => cases some
        case isTrue fits =>
          have later := (ih (length ▸ Nat.min_le_left _ _)).mp some
          cases front with
          | nil =>
            obtain ⟨rfl, -⟩ := List.cons_prefix_cons.mp here
            simp only [List.flatten_nil, List.length_nil]
            omega
          | cons second front =>
            obtain ⟨rfl, there⟩ := List.cons_prefix_cons.mp here
            have bound := later front chunk there
            rw [length] at bound
            rw [List.flatten_cons, List.length_append]
            omega
      · intro fits
        have now := fits [] first (List.prefix_append [first] _)
        simp only [List.flatten_nil, List.length_nil] at now
        rw [if_pos (by omega), ih (length ▸ Nat.min_le_left _ _)]
        intro front chunk there
        have bound := fits (first :: front) chunk (List.cons_prefix_cons.mpr ⟨rfl, there⟩)
        rw [List.flatten_cons, List.length_append] at bound
        rw [length]
        omega

/-! ## Where the buffer is left -/

/-- The loop goes on to the end of the buffer, if it never gets to zero there. -/
theorem skip_outside {k : Int} (holds : Holds state (front ++ text))
    (all : (front ++ text).length = state.tailbufsize)
    (never : ∀ j ≤ text.count 10, toInt (k - j) ≠ 0) :
    state.skip k front.length = .error .outOfBounds := by
  have notZero : k ≠ 0 := by
    rintro rfl
    exact never 0 (Nat.zero_le _) rfl
  induction text generalizing front k with
  | nil =>
    rw [List.append_nil] at all
    rw [State.skip, if_neg notZero, if_neg (by omega)]
  | cons c text ih =>
    have cell := holds.cells front.length (by simp)
    have isC : state.tailbuf front.length = c := by simpa using cell.symm
    have within : front.length < state.tailbufsize := by
      rw [List.length_append, List.length_cons] at all
      omega
    have length : (front ++ [c]).length = front.length + 1 := by simp
    rw [List.append_cons] at holds all
    rw [State.skip, if_neg notZero, if_pos within, isC, ← length]
    split
    case isTrue line =>
      subst line
      have one := never 1 (by rw [List.count_cons_self]; omega)
      refine ih holds all (fun j few => ?_) one
      have later := never (j + 1) (by rw [List.count_cons_self]; omega)
      have same : toInt (toInt (k - 1) - j) = toInt (k - (j + 1 : Nat)) := by
        rw [toInt, toInt, toInt, Int.bmod_sub_bmod]
        congr 1
        omega
      rw [same]
      exact later
    case isFalse other =>
      rw [List.count_cons_of_ne (by simpa using other)] at never
      exact ih holds all never notZero

/-- From the top, too large a number is taken as one that writes before the buffer. -/
theorem fromTop_outside (small' : bufsiz < 2 ^ 29) (byBytes : options.countBytes = true)
    (fits : chunk.length ≤ bufsiz) (nonempty : chunk ≠ [])
    (large : 2 ^ 31 + 1 + chunk.length < options.count.toNat) :
    fromTop options (started bufsiz options fresh) chunk = .error .outOfBounds := by
  have below := UInt32.toNat_lt options.count
  have length := List.length_pos_iff.mpr nonempty
  have short : chunk.length < 2 ^ 31 := by omega
  have skip : 1 < options.count.toNat := by omega
  have difference : toUnsigned ((options.count.toNat : Int) - (1 : Nat)) =
      options.count.toNat - 1 := by
    rw [← Int.natCast_sub skip.le]
    exact toUnsigned_natCast (by omega)
  obtain ⟨n, isN⟩ : ∃ n : Nat, n = 2 ^ 32 + chunk.length - (options.count.toNat - 1) := ⟨_, rfl⟩
  have positive : (0 : Int) < n := by omega
  have wraps : toInt ((chunk.length : Int) - (options.count.toNat - 1 : Nat)) = n := by
    have same : Int.bmod (((chunk.length : Int) - (options.count.toNat - 1 : Nat)) + 2 ^ 32)
        (2 ^ 32) = Int.bmod ((chunk.length : Int) - (options.count.toNat - 1 : Nat)) (2 ^ 32) :=
      Int.add_bmod_right ..
    have sum : ((chunk.length : Int) - (options.count.toNat - 1 : Nat)) + 2 ^ 32 = n := by omega
    rw [toInt, ← same, sum]
    exact toInt_natCast (by omega)
  have number : (nwrite options 1 chunk).1 = n := by
    simp only [nwrite, if_pos skip, if_pos byBytes, toInt_natCast short, difference, wraps]
  have outside : ¬State.inside
      { started bufsiz options fresh with seen := (nwrite options 1 chunk).2 }
      ((chunk.length : Int) - n) n = true := by
    simp [State.inside]
    omega
  have start : (started bufsiz options fresh).buf + toInt chunk.length - n =
      (chunk.length : Int) - n := by
    rw [toInt_natCast short, started, Int.zero_add]
  have isSeen : (started bufsiz options fresh).seen = 1 := rfl
  rw [fromTop]
  simp only [isSeen, number, start, if_pos positive, Int.toNat_natCast]
  exact if_neg outside

/-- A number of bytes that is negative as an `int` is never reached from below. -/
theorem keepBytes_outside (more : 0 < toInt chunk.length) (below : chunk.length < 2 ^ 32)
    (large : 2 ^ 31 ≤ options.count.toNat) :
    keepBytes options (started bufsiz options fresh) chunk = .error .outOfBounds := by
  have below' := UInt32.toNat_lt options.count
  have short := nread_of_pos more below
  rw [toInt_natCast short] at more
  have taillen : toInt ((started bufsiz options fresh).taillen + toInt chunk.length) =
      chunk.length := by
    rw [toInt_natCast short, started, Int.zero_add, toInt_natCast short]
  have negative : toInt options.count.toNat = (options.count.toNat : Int) - 2 ^ 32 :=
    toInt_of_large (by omega) (by omega)
  have less : (options.count.toNat : Int) - 2 ^ 32 < chunk.length := by omega
  have outside : (started bufsiz options fresh).memmove
      ((chunk.length : Int) - options.count.toNat) options.count.toNat = .error .outOfBounds := by
    refine if_neg ?_
    simp [State.inside]
    omega
  rw [keepBytes]
  simp only [taillen, negative, if_pos less, outside, Fallible.error_bind]

/-- A number of lines that is negative as an `int` skips to the end of a buffer that holds no more
lines. -/
theorem trim_outside (fits : chunk.length ≤ bufsiz) (small' : bufsiz < 2 ^ 29)
    (byLines : options.countBytes = false) (large : 2 ^ 31 ≤ options.count.toNat) :
    trim options (started bufsiz options fun i => (chunk[i]?).getD 0) chunk =
      .error .outOfBounds := by
  have below := UInt32.toNat_lt options.count
  have few := count_le_length chunk
  have short : chunk.length < 2 ^ 31 := by omega
  have lines : chunk.count 10 < 2 ^ 31 := by omega
  have size : tailbufsize bufsiz options = bufsiz := by simp [tailbufsize, byLines]
  obtain ⟨text, isText⟩ :
      ∃ text, text = chunk ++ List.replicate (bufsiz - chunk.length) 0 := ⟨_, rfl⟩
  have length : text.length = bufsiz := by
    rw [isText, List.length_append, List.length_replicate]
    omega
  have number : text.count 10 = chunk.count 10 := by
    rw [isText, List.count_append, List.count_replicate]
    rfl
  have holds : Holds (started bufsiz options fun i => (chunk[i]?).getD 0) ([] ++ text) := by
    refine ⟨by rw [List.nil_append, length]; exact size.ge, fun i within => ?_⟩
    rw [List.nil_append] at within ⊢
    rw [length] at within
    simp only [started, isText]
    by_cases newer : i < chunk.length
    · rw [List.getElem?_append_left newer, List.getElem?_eq_getElem newer, Option.getD_some]
    · have nothing : chunk[i]? = none := List.getElem?_eq_none (Nat.not_lt.mp newer)
      rw [List.getElem?_append_right (Nat.not_lt.mp newer), nothing,
        List.getElem?_replicate_of_lt (by omega), Option.getD_none]
  obtain ⟨extra, isExtra⟩ :
      ∃ extra : Int, extra = if chunk.getLast? = some 10 then 0 else 1 := ⟨_, rfl⟩
  have bit : 0 ≤ extra ∧ extra ≤ 1 := by
    rw [isExtra]
    split <;> omega
  obtain ⟨k, isK⟩ : ∃ k : Int, k = (0 + chunk.count 10 + extra - options.count.toNat) := ⟨_, rfl⟩
  have notLess : ¬(chunk.count 10 : Int) < options.count.toNat - 2 ^ 32 := by omega
  have never : ∀ j ≤ text.count 10, toInt (toInt k - j) ≠ 0 := by
    intro j least zero
    rw [toInt, toInt, Int.bmod_sub_bmod] at zero
    have divides := Int.dvd_of_bmod_eq_zero zero
    omega
  have out := skip_outside holds (by rw [List.nil_append, length]; exact size.symm) never
  have negative : toInt options.count.toNat = (options.count.toNat : Int) - 2 ^ 32 :=
    toInt_of_large (by omega) (by omega)
  have sum : toInt (0 + chunk.count 10) = chunk.count 10 := by
    rw [Int.zero_add, toInt_natCast lines]
  have seen : (started bufsiz options fun i => (chunk[i]?).getD 0).newlinesSeen = 0 := rfl
  rw [trim]
  simp only [seen, sum, negative, if_neg notLess, ← isExtra, ← isK]
  exact congrArg (· >>= _) out

/-- Where the first read leads out of the buffer, so does the whole run. -/
theorem tailFile_first (small' : bufsiz < 2 ^ 29) (plain : optimized options seekable = false)
    (more : 0 < toInt chunk.length)
    (outside : chunk.length ≤ tailbufsize bufsiz options →
      body bufsiz options (started bufsiz options fun i => (chunk[i]?).getD (fresh i)) chunk =
        .error .outOfBounds) :
    tailFile bufsiz options seekable fresh (chunk :: chunks) = .error .tooMuchRead ∨
      tailFile bufsiz options seekable fresh (chunk :: chunks) = .error .outOfBounds := by
  rw [tailFile_loop plain, tailLoop]
  rcases tailRead_started small' fresh chunk with much | ⟨read, fits⟩
  · rw [much, Fallible.error_bind]
    exact .inl rfl
  · rw [read, Fallible.ok_bind, if_neg (by omega), outside fits]
    exact .inr rfl

/-- Where nothing is delivered, nothing is written. -/
theorem tailFile_nothing (small' : bufsiz < 2 ^ 29) (plain : optimized options seekable = false)
    (nothing : delivered chunks = []) (fresh : Nat → UInt8) :
    tailFile bufsiz options seekable fresh chunks = .error .tooMuchRead ∨
      tailFile bufsiz options seekable fresh chunks = .ok [] := by
  have ends : ∀ fresh, (if options.fromTop then pure (started bufsiz options fresh).stdout
      else (started bufsiz options fresh).xwrite 0 (toSize (started bufsiz options fresh).taillen)
        >>= fun state => pure state.stdout : Except Stop (List UInt8)) = .ok [] := by
    intro fresh
    split <;> rfl
  rw [tailFile_loop plain]
  cases chunks with
  | nil => exact .inr (ends fresh)
  | cons chunk chunks =>
    rcases tailRead_started small' fresh chunk with much | ⟨read, -⟩
    · exact .inl (by rw [tailLoop, much, Fallible.error_bind, Fallible.error_bind])
    · right
      have done : toInt chunk.length ≤ 0 := by
        by_contra more
        rw [delivered_cons (Int.not_le.mp more)] at nothing
        cases nothing
      rw [tailLoop, read, Fallible.ok_bind, if_pos done]
      exact ends _

/-! ## The bounds -/

/-- A run with another end does not leave the buffer. -/
theorem ne_outside {result : Except Stop (List UInt8)}
    (ends : result = .error .tooMuchRead ∨ ∃ written, result = .ok written) :
    result ≠ .error .outOfBounds := by
  rintro rfl
  rcases ends with other | ⟨written, other⟩ <;> exact nomatch other

theorem exists_delivered (some : delivered chunks ≠ []) :
    ∃ first rest, chunks = first :: rest ∧ 0 < toInt first.length := by
  cases chunks with
  | nil => exact absurd rfl some
  | cons first rest =>
    refine ⟨first, rest, rfl, ?_⟩
    by_contra done
    exact some (delivered_done (Int.not_lt.mp done) rest)

theorem readsFit_iff : ReadsFit count chunks ↔ (bytesRun count chunks []).isSome := by
  rw [bytesRun_isSome (Nat.zero_le _), List.length_nil]
  simp only [Nat.zero_add]
  rfl

/-- From the top, within the bounds, the run does not leave the buffer. -/
theorem tailFile_top_inside (small' : bufsiz < 2 ^ 29) (isTop : options.fromTop = true)
    (some : delivered chunks ≠ [])
    (bound : options.countBytes = true →
      ∀ first ∈ (delivered chunks).head?, options.count.toNat ≤ 2 ^ 31 + 1 + first.length) :
    tailFile bufsiz options seekable fresh chunks ≠ .error .outOfBounds := by
  have plain : optimized options seekable = false := by simp [optimized, isTop]
  obtain ⟨first, rest, rfl, more⟩ := exists_delivered some
  rcases tailRead_started small' fresh first with much | ⟨-, fits⟩
  · refine ne_outside (.inl ?_)
    rw [tailFile_loop plain, tailLoop, much]
    rfl
  · rw [delivered_cons more] at bound
    have size : tailbufsize bufsiz options = bufsiz := by simp [tailbufsize, isTop]
    have counted : options.countBytes = true → options.count.toNat ≤ 2 ^ 31 + 1 + bufsiz ∧
        ∀ chunk ∈ (first :: rest).head?, 0 < toInt chunk.length →
          options.count.toNat ≤ 2 ^ 31 + 1 + chunk.length := by
      intro byBytes
      have least := bound byBytes first rfl
      refine ⟨by omega, ?_⟩
      rintro chunk ⟨⟩ -
      exact least
    exact ne_outside ((tailFile_top small' isTop counted seekable fresh).imp_right
      fun ran => ⟨_, ran⟩)

/-- Within the bounds the run does not leave the buffer. -/
theorem tailFile_inside (small' : bufsiz < 2 ^ 29) (within : InBounds options seekable chunks)
    (fresh : Nat → UInt8) :
    tailFile bufsiz options seekable fresh chunks ≠ .error .outOfBounds := by
  by_cases optimal : optimized options seekable = true
  · refine ne_outside (.inr ⟨chunks.flatten.take options.count.toNat, ?_⟩)
    rw [tailFile, if_pos optimal]
  have plain : optimized options seekable = false := by simpa using optimal
  by_cases nothing : delivered chunks = []
  · exact ne_outside ((tailFile_nothing small' plain nothing fresh).imp_right fun ran => ⟨_, ran⟩)
  have bounds := within.resolve_left nothing
  cases isTop : options.fromTop with
  | true =>
    rw [if_pos isTop] at bounds
    exact tailFile_top_inside small' isTop nothing bounds
  | false =>
    rw [isTop, if_neg Bool.false_ne_true] at bounds
    rcases bounds.resolve_left optimal with zero | ⟨small, fits⟩
    · exact ne_outside ((tailFile_zero small' isTop zero seekable fresh chunks).imp_right
        fun ran => ⟨_, ran⟩)
    rcases Nat.eq_zero_or_pos options.count.toNat with zero | positive
    · have isZero : options.count = 0 := UInt32.toNat_inj.mp zero
      exact ne_outside ((tailFile_zero small' isTop isZero seekable fresh chunks).imp_right
        fun ran => ⟨_, ran⟩)
    cases byBytes : options.countBytes with
    | true =>
      have notSeekable : seekable = false := by simpa [optimized, isTop, byBytes] using plain
      obtain ⟨text, run⟩ := Option.isSome_iff_exists.mp (readsFit_iff.mp (fits byBytes))
      subst notSeekable
      refine ne_outside ((tailFile_bytes rfl positive small small' isTop byBytes fresh
        chunks).imp_right fun ran => ⟨text, ?_⟩)
      rw [ran, run]
      rfl
    | false =>
      rcases @tailFile_lines bufsiz _ options seekable rfl positive small small' isTop byBytes fresh
        chunks with ⟨-, much⟩ | ran
      · exact ne_outside (.inl much)
      · rw [ran]
        cases linesRun bufsiz options.count.toNat chunks [] <;> rintro ⟨⟩

/-- Outside of the bounds there are contents of a fresh buffer with which the run leaves it. -/
theorem tailFile_outside (small' : bufsiz < 2 ^ 29)
    (without : ¬InBounds options seekable chunks) :
    ∃ fresh, tailFile bufsiz options seekable fresh chunks = .error .tooMuchRead ∨
      tailFile bufsiz options seekable fresh chunks = .error .outOfBounds := by
  refine ⟨fun _ => 0, ?_⟩
  have some : delivered chunks ≠ [] := fun nothing => without (.inl nothing)
  obtain ⟨first, rest, rfl, more⟩ := exists_delivered some
  have below := tailbufsize_lt small' options
  cases isTop : options.fromTop with
  | true =>
    have plain : optimized options seekable = false := by simp [optimized, isTop]
    have size : tailbufsize bufsiz options = bufsiz := by simp [tailbufsize, isTop]
    obtain ⟨byBytes, large⟩ : options.countBytes = true ∧
        2 ^ 31 + 1 + first.length < options.count.toNat := by
      by_contra other
      refine without (.inr ?_)
      rw [if_pos isTop, delivered_cons more]
      rintro byBytes _ ⟨⟩
      exact Nat.not_lt.mp fun large => other ⟨byBytes, large⟩
    refine tailFile_first small' plain more fun fits => ?_
    have nonempty := nonempty_of_nread (Int.not_le.mpr more)
    rw [body, if_pos isTop]
    exact fromTop_outside small' byBytes (size ▸ fits) nonempty large
  | false =>
    have bounds : ¬(optimized options seekable = true ∨ options.count = 0 ∨
        options.count.toNat < 2 ^ 31 ∧
          (options.countBytes = true → ReadsFit options.count.toNat (first :: rest))) := by
      intro bounds
      refine without (.inr ?_)
      rw [isTop, if_neg Bool.false_ne_true]
      exact bounds
    obtain ⟨plain, bounds⟩ := not_or.mp bounds
    obtain ⟨notZero, bounds⟩ := not_or.mp bounds
    have plain : optimized options seekable = false := by simpa using plain
    have notTop : ¬options.fromTop = true := by simp [isTop]
    have positive : 0 < options.count.toNat :=
      Nat.pos_of_ne_zero fun zero => notZero (UInt32.toNat_inj.mp zero)
    by_cases large : 2 ^ 31 ≤ options.count.toNat
    · refine tailFile_first small' plain more fun fits => ?_
      rw [body, if_neg notTop, if_pos notZero]
      cases byBytes : options.countBytes with
      | true =>
        rw [if_pos rfl]
        exact keepBytes_outside more (by omega) large
      | false =>
        have size : tailbufsize bufsiz options = bufsiz := by simp [tailbufsize, byBytes]
        rw [if_neg Bool.false_ne_true, keepLines]
        have outside := trim_outside (fits.trans size.le) small' byBytes large
        exact congrArg (· >>= _) outside
    · have small := Nat.not_le.mp large
      obtain ⟨byBytes, unfit⟩ := Classical.not_imp.mp fun fits => bounds ⟨small, fits⟩
      have notSeekable : seekable = false := by simpa [optimized, isTop, byBytes] using plain
      have none : bytesRun options.count.toNat (first :: rest) [] = none :=
        Option.not_isSome_iff_eq_none.mp fun fits => unfit (readsFit_iff.mpr fits)
      subst notSeekable
      refine (tailFile_bytes rfl positive small small' isTop byBytes _ _).imp_right fun ran => ?_
      rw [ran, none]
      rfl

/-- `head` stays inside of its array unless the count wraps around, and `tail` inside of its buffer
exactly within the bounds, whatever is in a fresh block. -/
theorem head_tail_inside_iff (countBytes : Bool) (count : UInt64) (input : List UInt8)
    (small' : bufsiz < 2 ^ 29)
    (reads : ∀ fresh, tailFile bufsiz options seekable fresh chunks ≠ .error .tooMuchRead) :
    ((Head.printFile true countBytes count input).isSome ↔
        count.toUInt32 + 1 ≠ 0 ∨ (countBytes = true ∧ input = [])) ∧
      ((∀ fresh, tailFile bufsiz options seekable fresh chunks ≠ .error .outOfBounds) ↔
        InBounds options seekable chunks) := by
  refine ⟨Head.printFile_isSome countBytes count input, ?_, tailFile_inside small'⟩
  intro inside
  by_contra without
  obtain ⟨fresh, much | outside⟩ := tailFile_outside small' without
  · exact reads fresh much
  · exact inside fresh outside

/-- All but the last byte of two, and the last byte of two reads. -/
theorem head_tail_inside_two :
    ((Head.printFile true true 1 [97, 98]).isSome ↔
        (1 : UInt64).toUInt32 + 1 ≠ 0 ∨ (true = true ∧ [97, 98] = ([] : List UInt8))) ∧
      ((∀ fresh, tailFile 1024 ⟨false, true, 1⟩ false fresh [[97], [98]] ≠ .error .outOfBounds) ↔
        InBounds ⟨false, true, 1⟩ false [[97], [98]]) :=
  head_tail_inside_iff true 1 [97, 98] (by decide) fun _ => by
    simp [tailFile, optimized, tailLoop, State.tailRead, toSize, toInt, tailbufsize, toUnsigned,
      State.inside, body, keepBytes, State.memmove, State.xwrite, Fallible.ok_bind]

/-- "count is too big" is printed, but the first byte is put outside of an array without elements.
The last 3000000000 bytes of a pipe are looked for before the buffer once there is one byte. -/
theorem head_tail_outside :
    Head.printFile true true 4294967295 [97] = none ∧
      tailFile 1024 ⟨false, true, 3000000000⟩ false (fun _ => 0) [[97]] = .error .outOfBounds :=
  ⟨rfl, by decide +kernel⟩

end Busybox.Coreutils.Tail
