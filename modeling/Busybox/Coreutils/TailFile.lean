import Mathlib
import Busybox.Coreutils.TailRuns

/-!
# The output of `tail`

What is written for one file, mode by mode.
-/

namespace Busybox.Coreutils.Tail

variable {state : State} {text kept chunk front : List UInt8} {bufsiz count : Nat}
  {options : Options} {seekable : Bool} {fresh : Nat → UInt8} {chunks : List (List UInt8)}

/-- What the reads deliver until there is nothing more. -/
def delivered (chunks : List (List UInt8)) : List (List UInt8) :=
  chunks.takeWhile fun chunk => 0 < toInt chunk.length

/-- The state before the first read. -/
def started (bufsiz : Nat) (options : Options) (fresh : Nat → UInt8) : State :=
  ⟨fresh, tailbufsize bufsiz options, 0, 0, 0, 1, []⟩

theorem started_bytes (counted : options.count.toNat = count) (positive : 0 < count)
    (small : count < 2 ^ 31) (small' : bufsiz < 2 ^ 29) (fromEnd : options.fromTop = false)
    (byBytes : options.countBytes = true) :
    Bytes bufsiz count (started bufsiz options fresh) [] := by
  have wanted : toUnsigned ((options.count.toNat : Int) + bufsiz) = count + bufsiz := by
    rw [counted, ← Int.natCast_add]
    exact toUnsigned_natCast (by omega)
  have size : tailbufsize bufsiz options = count + bufsiz := by
    simp [tailbufsize, fromEnd, byBytes, wanted, positive]
  exact ⟨⟨Nat.zero_le _, nofun⟩, rfl, rfl, Nat.zero_le _, size⟩

theorem started_lines (small' : bufsiz < 2 ^ 29) (byLines : options.countBytes = false) :
    Lines bufsiz (started bufsiz options fresh) [] := by
  have size : tailbufsize bufsiz options = bufsiz := by
    simp [tailbufsize, byLines]
  refine ⟨⟨Nat.zero_le _, nofun⟩, rfl, rfl, rfl, ?_, ?_⟩
  · rw [List.length_nil, Nat.zero_add]
    exact size.ge
  · exact size.trans_lt (by omega)

/-- What is kept at the end is written. -/
theorem Ended.written {final : State} (ended : Ended state final text)
    (fits : text.length < 2 ^ 64) :
    final.xwrite 0 (toSize final.taillen) =
      .ok { final with stdout := state.stdout ++ text } := by
  have written := @xwrite_holds final text [] ended.holds
  have length : toSize final.taillen = text.length := by rw [ended.taillen, toSize_natCast fits]
  rw [length, ← ended.stdout]
  exact written

theorem linesRun_fits (fits : kept.length < 2 ^ 31)
    (run : linesRun bufsiz count chunks kept = some text) : text.length < 2 ^ 31 := by
  induction chunks generalizing kept with
  | nil => exact Option.some.inj run ▸ fits
  | cons chunk chunks ih =>
    rw [linesRun] at run
    split at run
    · exact Option.some.inj run ▸ fits
    · split at run
      case isTrue room => exact ih (by omega) run
      case isFalse => cases run

theorem bytesRun_few (few : kept.length ≤ count) (run : bytesRun count chunks kept = some text) :
    text.length ≤ count := by
  induction chunks generalizing kept with
  | nil => exact Option.some.inj run ▸ few
  | cons chunk chunks ih =>
    rw [bytesRun] at run
    split at run
    · exact Option.some.inj run ▸ few
    · split at run
      · refine ih ?_ run
        rw [length_lastBytes]
        exact Nat.min_le_left _ _
      · cases run

theorem tailbufsize_lt (small' : bufsiz < 2 ^ 29) (options : Options) :
    tailbufsize bufsiz options < 2 ^ 32 := by
  unfold tailbufsize toUnsigned
  dsimp only
  split
  · omega
  · omega

/-- The first read. -/
theorem tailRead_started (small' : bufsiz < 2 ^ 29) (fresh : Nat → UInt8) (chunk : List UInt8) :
    (started bufsiz options fresh).tailRead chunk = .error .tooMuchRead ∨
      (started bufsiz options fresh).tailRead chunk =
        .ok (started bufsiz options fun i => (chunk[i]?).getD (fresh i)) ∧
      chunk.length ≤ tailbufsize bufsiz options := by
  have below := tailbufsize_lt small' options
  have request : toSize (((started bufsiz options fresh).tailbufsize : Int) -
      (started bufsiz options fresh).taillen) = tailbufsize bufsiz options := by
    rw [started, Int.sub_zero]
    exact toSize_natCast (below.trans (by decide))
  rw [State.tailRead, request]
  by_cases much : tailbufsize bufsiz options < chunk.length
  · exact .inl (if_pos much)
  · have inside : (started bufsiz options fresh).inside (started bufsiz options fresh).buf
        chunk.length = true := by
      simp [State.inside, started]
      omega
    rw [if_neg much, if_pos inside]
    refine .inr ⟨?_, Nat.not_lt.mp much⟩
    simp [started]

/-- A number of bytes that goes on as an `int`. -/
theorem nread_of_pos (more : 0 < toInt chunk.length) (below : chunk.length < 2 ^ 32) :
    chunk.length < 2 ^ 31 := by
  by_contra large
  have wraps : toInt chunk.length = (chunk.length : Int) - 2 ^ 32 :=
    toInt_of_large (by omega) (by omega)
  omega

theorem delivered_cons (more : 0 < toInt chunk.length) (chunks : List (List UInt8)) :
    delivered (chunk :: chunks) = chunk :: delivered chunks :=
  List.takeWhile_cons_of_pos (by simpa using more)

theorem delivered_done (done : toInt chunk.length ≤ 0) (chunks : List (List UInt8)) :
    delivered (chunk :: chunks) = [] :=
  List.takeWhile_cons_of_neg (by simpa using done)

/-! ## The modes -/

/-- The loop and the last write. -/
theorem tailFile_loop (plain : optimized options seekable = false) :
    tailFile bufsiz options seekable fresh chunks =
      (tailLoop bufsiz options chunks (started bufsiz options fresh) >>= fun final =>
        if options.fromTop then pure final.stdout
        else final.xwrite 0 (toSize final.taillen) >>= fun state => pure state.stdout) := by
  unfold tailFile
  rw [if_neg (by simp [plain])]
  rfl

/-- Where the loop ends with a text, it is written. -/
theorem tailFile_ended (plain : optimized options seekable = false)
    (fromEnd : options.fromTop = false) {final : State}
    (loop : tailLoop bufsiz options chunks (started bufsiz options fresh) = .ok final)
    (ended : Ended (started bufsiz options fresh) final text) (fits : text.length < 2 ^ 64) :
    tailFile bufsiz options seekable fresh chunks = .ok text := by
  have notTop : ¬options.fromTop = true := by simp [fromEnd]
  rw [tailFile_loop plain, loop, Fallible.ok_bind, if_neg notTop, ended.written fits]
  rfl

/-- The last bytes. -/
theorem tailFile_bytes (counted : options.count.toNat = count) (positive : 0 < count)
    (small : count < 2 ^ 31) (small' : bufsiz < 2 ^ 29) (fromEnd : options.fromTop = false)
    (byBytes : options.countBytes = true) (fresh : Nat → UInt8) (chunks : List (List UInt8)) :
    tailFile bufsiz options false fresh chunks = .error .tooMuchRead ∨
      tailFile bufsiz options false fresh chunks =
        (bytesRun count chunks []).elim (.error .outOfBounds) .ok := by
  have plain : optimized options false = false := by simp [optimized]
  have notTop : ¬options.fromTop = true := by simp [fromEnd]
  rcases tailLoop_bytes counted positive small (by omega) fromEnd byBytes
      (@started_bytes bufsiz count options fresh counted positive small small' fromEnd byBytes)
    with much | ends
  · exact .inl (by rw [tailFile_loop plain, much, Fallible.error_bind])
  · right
    cases run : bytesRun count chunks [] with
    | none =>
      rw [run] at ends
      have both := congrArg (· >>= fun state : State => pure state.stdout) ends
      rw [tailFile_loop plain]
      simp only [if_neg notTop]
      simp only [bind_assoc] at both
      exact both
    | some text =>
      rw [run] at ends
      obtain ⟨final, loop, ended⟩ := ends
      have few := bytesRun_few (Nat.zero_le _) run
      exact tailFile_ended plain fromEnd loop ended (by omega)

/-- The last lines. -/
theorem tailFile_lines (counted : options.count.toNat = count) (positive : 0 < count)
    (small : count < 2 ^ 31) (small' : bufsiz < 2 ^ 29) (fromEnd : options.fromTop = false)
    (byLines : options.countBytes = false) (fresh : Nat → UInt8) (chunks : List (List UInt8)) :
    (∃ chunk ∈ chunks, bufsiz < chunk.length) ∧
        tailFile bufsiz options seekable fresh chunks = .error .tooMuchRead ∨
      tailFile bufsiz options seekable fresh chunks =
        (linesRun bufsiz count chunks []).elim (.error .memoryExhausted) .ok := by
  have plain : optimized options seekable = false := by simp [optimized, byLines]
  rcases tailLoop_lines counted positive small (by omega) fromEnd byLines
      (@started_lines bufsiz options fresh small' byLines) with
    ⟨long, much⟩ | ends
  · exact .inl ⟨long, by rw [tailFile_loop plain, much, Fallible.error_bind]⟩
  · right
    cases run : linesRun bufsiz count chunks [] with
    | none =>
      rw [run] at ends
      rw [tailFile_loop plain, ends, Fallible.error_bind]
      rfl
    | some text =>
      rw [run] at ends
      obtain ⟨final, loop, ended⟩ := ends
      have few := linesRun_fits (by decide) run
      exact tailFile_ended plain fromEnd loop ended (by omega)

/-- From the top. -/
theorem tailFile_top (small' : bufsiz < 2 ^ 29) (isTop : options.fromTop = true)
    (fits : options.countBytes = true → options.count.toNat ≤ 2 ^ 31 + 1 + bufsiz ∧
      ∀ chunk ∈ chunks.head?, 0 < toInt chunk.length →
        options.count.toNat ≤ 2 ^ 31 + 1 + chunk.length) (seekable : Bool) (fresh : Nat → UInt8) :
    tailFile bufsiz options seekable fresh chunks = .error .tooMuchRead ∨
      tailFile bufsiz options seekable fresh chunks = .ok (topRun options chunks 1) := by
  have plain : optimized options seekable = false := by simp [optimized, isTop]
  have top : Top bufsiz options (started bufsiz options fresh) chunks := by
    exact ⟨rfl, rfl, by simp [started, tailbufsize, isTop], fun _ => Nat.le_add_left _ _,
      fun byBytes => (fits byBytes).1, fun byBytes => (fits byBytes).2⟩
  rcases tailLoop_top small' isTop top with much | ⟨final, loop, written⟩
  · exact .inl (by rw [tailFile_loop plain, much, Fallible.error_bind])
  · right
    rw [tailFile_loop plain, loop, Fallible.ok_bind, if_pos isTop, written]
    rfl

/-- Nothing at all. -/
theorem tailFile_zero (small' : bufsiz < 2 ^ 29) (fromEnd : options.fromTop = false)
    (zero : options.count = 0) (seekable : Bool) (fresh : Nat → UInt8)
    (chunks : List (List UInt8)) :
    tailFile bufsiz options seekable fresh chunks = .error .tooMuchRead ∨
      tailFile bufsiz options seekable fresh chunks = .ok [] := by
  cases plain : optimized options seekable with
  | true =>
    right
    rw [tailFile, if_pos plain, zero]
    rfl
  | false =>
    have below := tailbufsize_lt small' options
    have size : (started bufsiz options fresh).tailbufsize < 2 ^ 64 := below.trans (by decide)
    rcases @tailLoop_zero (started bufsiz options fresh) bufsiz options fromEnd zero chunks rfl rfl
        size with much | ⟨final, loop, ended⟩
    · exact .inl (by rw [tailFile_loop plain, much, Fallible.error_bind])
    · exact .inr (tailFile_ended plain fromEnd loop ended (by decide))

end Busybox.Coreutils.Tail
