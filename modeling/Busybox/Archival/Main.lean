import Busybox.Archival.Gzip

/-!
# What becomes of the source files

`Safe` is what a turn of `bbunpack` owes to its source file, and `Fair` when it
keeps it: the transformation does not die or report success without it, and
closing and deleting the output works where it has to.
-/

namespace Busybox.Archival

variable {E : Type} {options : Options} {unpacker : Transformer E} {naming : Naming}

/-! ## Names -/

theorem strrchr_eq {c : UInt8} {s before after : Name} (found : strrchr c s = some (before, after)) :
    s = before ++ c :: after := by
  induction s generalizing before after with
  | nil => cases found
  | cons b rest ih =>
    unfold strrchr at found
    split at found
    · next front back later =>
      cases found
      rw [List.cons_append, ← ih later]
    · split at found
      · next same =>
        cases found
        rw [same, List.nil_append]
      · cases found

/-- The output file is another file, and the source's name comes back. -/
theorem makeNewName_facts {filename : Name} {new : NewName}
    (makes : naming.makeNewName filename = some new) :
    new.name ≠ filename ∧ new.source filename = filename := by
  have longer : ∀ (front : Name) (c : UInt8) (rest : Name), front ≠ front ++ c :: rest := by
    intro front c rest same
    have lengths := congrArg List.length same
    rw [List.length_append, List.length_cons] at lengths
    omega
  cases naming with
  | appendExt expectedExt =>
    cases makes
    exact ⟨fun same => longer filename 46 expectedExt same.symm, rfl⟩
  | generic expectedExt =>
    dsimp only [Naming.makeNewName] at makes
    split at makes
    · cases makes
    · next before extension found =>
      have whole := strrchr_eq found
      split at makes
      · cases makes
        exact ⟨fun same => longer before 46 extension (same.trans whole), whole.symm⟩
      · cases makes
  | gunzip =>
    dsimp only [Naming.makeNewName] at makes
    split at makes
    · cases makes
    · next before extension found =>
      have whole := strrchr_eq found
      split at makes
      · cases makes
        exact ⟨fun same => longer before 46 extension (same.trans whole), whole.symm⟩
      · split at makes
        · next tgz =>
          cases makes
          refine ⟨fun same => ?_, rfl⟩
          rw [whole, tgz] at same
          exact absurd (List.append_cancel_left same) (by decide)
        · cases makes

theorem Fs.put_same (fs : Fs) (name : Name) (content : Option (List UInt8)) :
    fs.put name content name = content := if_pos rfl

theorem Fs.put_other (fs : Fs) {name other : Name} (different : other ≠ name)
    (content : Option (List UInt8)) : fs.put name content other = fs other := if_neg different

/-! ## One turn -/

/-- The source file is deleted only if it has been consumed without error, and its
complete transformation written and closed. Otherwise it stays, the output file that
was created is deleted, and the turn is one with an error. -/
structure Safe (before : Fs) (filename : Option Name) (ended : Ended) : Prop where
  deletes : ∀ name, filename = some name → before name ≠ none → ended.fs name = none →
    ended.transformed = true
  keeps : ended.transformed = false → ∀ name, filename = some name → ended.fs name = before name
  cleans : ended.transformed = false → ∀ new, ended.created = some new → ended.fs new = none
  reports : ended.transformed = false → ended.failed = true ∨ ended.died = true

/-- The transformation reports success only if it has done its work. -/
def Report.Truthful (report : Report) : Prop :=
  ∀ status, report.status = some status → 0 ≤ status → (report.whole && report.complete) = true

/-- Once the source has been opened and the output file created: nothing ends the
program before the output is closed, a reported success is one, and an output that is
not complete can be deleted. Where there is no output file of its own, only a
success that is reported at the end must be one. -/
def FairTransform (options : Options) (unpacker : Transformer E) (source : List UInt8)
    (dst : Option (Name × NewName)) (answers : Answers E) : Prop :=
  let report := unpacker source answers.io
  let checked : Prop := options.force ∨ ¬ answers.isatty
  match dst with
  | none => checked → (options.stdout ∨ answers.close) → report.Truthful
  | some _ =>
    checked ∧ answers.close ∧ report.Truthful ∧
      ∃ status, report.status = some status ∧
        (status < 0 → (report.whole && report.complete) = false → answers.unlink)

/-- A turn in which the transformation is not reached, or is fair. -/
def Fair (options : Options) (unpacker : Transformer E) (naming : Naming) (fs : Fs)
    (filename : Option Name) (answers : Answers E) : Prop :=
  match prepare options naming fs filename answers with
  | .ready _ source dst => FairTransform options unpacker source dst answers
  | _ => True

/-- Deleting an old output file leaves the source as it is. -/
theorem overwrite_other (fs : Fs) (c : Prop) [Decidable c] {name : Name} {new : NewName}
    (different : new.name ≠ name) :
    (if c then fs.put new.name none else fs) name = fs name := by
  split
  · exact Fs.put_other _ different.symm _
  · rfl

/-- Where the transformation is reached, the source is there, and the output file is a
new one. -/
theorem prepare_ready {fs fs' : Fs} {filename : Option Name} {answers : Answers E}
    {source : List UInt8} {dst : Option (Name × NewName)}
    (ready : prepare options naming fs filename answers = .ready fs' source dst) :
    (dst = none ∧ fs' = fs) ∨ ∃ name new, dst = some (name, new) ∧ filename = some name ∧
      options.stdout = false ∧ new.name ≠ name ∧ new.source name = name ∧
      fs' name = fs name ∧ fs name ≠ none ∧ fs' new.name ≠ none := by
  unfold prepare at ready
  split at ready
  · cases ready
    exact .inl ⟨rfl, rfl⟩
  · next name =>
    split at ready
    · cases ready
      exact .inl ⟨rfl, rfl⟩
    · split at ready
      · cases ready
      · next content there =>
        split at ready
        · cases ready
        · split at ready
          · split at ready
            · cases ready
            · cases ready
              exact .inl ⟨rfl, rfl⟩
          · next inPlace =>
            split at ready
            · cases ready
            · next new makes =>
              obtain ⟨different, back⟩ := makeNewName_facts makes
              have kept := overwrite_other fs (options.force = true ∧ answers.unlinkOld = true)
                different
              dsimp only at ready
              generalize (if options.force = true ∧ answers.unlinkOld = true
                then fs.put new.name none else fs) = old at ready kept
              split at ready
              · cases ready
              · cases ready
                refine .inr ⟨name, new, rfl, rfl, by simpa using (not_or.mp inPlace).1, different,
                  back, ?_, by rw [there]; exact Option.some_ne_none source, ?_⟩
                · rw [Fs.put_other _ different.symm, kept]
                · rw [Fs.put_same]
                  exact Option.some_ne_none []

/-- A turn that does not reach the transformation leaves the source as it is. -/
theorem prepare_err {fs fs' : Fs} {filename : Option Name} {answers : Answers E}
    (err : prepare options naming fs filename answers = .err fs') {name : Name}
    (named : filename = some name) : fs' name = fs name := by
  unfold prepare at err
  split at err
  · cases err
  · next path =>
    cases named
    split at err
    · cases err
    · split at err
      · cases err
        rfl
      · split at err
        · cases err
          rfl
        · split at err
          · split at err <;> cases err
          · split at err
            · cases err
              rfl
            · next new makes =>
              have kept := overwrite_other fs (options.force = true ∧ answers.unlinkOld = true)
                (makeNewName_facts makes).1
              dsimp only at err
              generalize (if options.force = true ∧ answers.unlinkOld = true
                then fs.put new.name none else fs) = old at err kept
              split at err
              · cases err
                exact kept
              · cases err

/-- A turn that creates no output file and leaves the files as they are owes a report
only. -/
theorem Safe.of_same (fs : Fs) (filename : Option Name) (failed died transformed : Bool) :
    Safe fs filename ⟨fs, failed, died, transformed, none⟩ ↔
      (transformed = false → failed = true ∨ died = true) := by
  refine ⟨Safe.reports, fun reports => ?_⟩
  constructor
  · intro name _ there gone
    exact absurd gone there
  · intro _ _ _
    rfl
  · intro _ new created
    cases created
  · exact reports

/-- Without an output file of its own a transformation deletes nothing. -/
theorem transform_stream (fs : Fs) (filename : Option Name) (source : List UInt8)
    (answers : Answers E) :
    Safe fs filename (transform options unpacker fs source none answers) ↔
      FairTransform options unpacker source none answers := by
  unfold transform FairTransform Report.Truthful
  dsimp only [Option.map_none]
  split
  · next dies =>
    rw [Safe.of_same]
    refine ⟨fun _ checked => absurd checked ?_, fun _ _ => .inr rfl⟩
    rintro (force | noTty)
    · exact dies.1 force
    · exact noTty dies.2
  · next checked =>
    have fine : options.force = true ∨ ¬ answers.isatty = true := by
      by_contra dies
      obtain ⟨noForce, tty⟩ := not_or.mp dies
      exact checked ⟨noForce, not_not.mp tty⟩
    split
    · next dies =>
      rw [Safe.of_same, dies]
      refine ⟨?_, fun _ _ => .inr rfl⟩
      intro _ _ _ status returns
      cases returns
    · next status returns =>
      rw [returns]
      split
      · next open_ =>
        rw [Safe.of_same]
        refine ⟨fun _ _ closed => absurd closed ?_, fun _ _ => .inr rfl⟩
        rintro (stdout | close)
        · exact open_.1 stdout
        · exact open_.2 close
      · next closed =>
        have fineToo : options.stdout = true ∨ answers.close = true := by
          by_contra dies
          exact closed (not_or.mp dies)
        rw [Safe.of_same]
        constructor
        · rintro reports - - status' returns' positive
          cases returns'
          by_contra partly
          rcases reports (by simpa using partly) with negative | dies
          · exact absurd positive (by simpa using negative)
          · cases dies
        · intro truthful partly
          by_cases positive : 0 ≤ status
          · rw [truthful fine fineToo status rfl positive] at partly
            cases partly
          · exact .inl (by simpa using positive)

/-- What a turn with an output file of its own owes, unless it has transformed the
source. -/
theorem Safe.of_created {fs : Fs} {name : Name} (there : fs name ≠ none) (fs' : Fs) (new : Name)
    (failed died transformed : Bool) :
    Safe fs (some name) ⟨fs', failed, died, transformed, some new⟩ ↔
      (transformed = false → fs' name = fs name ∧ fs' new = none ∧
        (failed = true ∨ died = true)) := by
  constructor
  · intro safe partly
    exact ⟨safe.keeps partly name rfl, safe.cleans partly new rfl, safe.reports partly⟩
  · intro owes
    constructor
    · intro _ named _ gone
      cases named
      by_contra partly
      exact there ((owes (by simpa using partly)).1.symm.trans gone)
    · intro partly _ named
      cases named
      exact (owes partly).1
    · intro partly _ created
      cases created
      exact (owes partly).2.1
    · intro partly
      exact (owes partly).2.2

/-- With an output file of its own a transformation keeps the source if it is fair. -/
theorem transform_created {fs fs' : Fs} {name : Name} {new : NewName} {source : List UInt8}
    {answers : Answers E} (different : new.name ≠ name) (back : new.source name = name)
    (toFile : options.stdout = false) (kept : fs' name = fs name) (there : fs name ≠ none)
    (created : fs' new.name ≠ none) :
    Safe fs (some name) (transform options unpacker fs' source (some (name, new)) answers) ↔
      FairTransform options unpacker source (some (name, new)) answers := by
  unfold transform FairTransform Report.Truthful
  dsimp only [Option.map_some]
  -- the source while the output is there
  have keptToo (output : List UInt8) : fs'.put new.name (some output) name = fs name := by
    rw [Fs.put_other _ different.symm, kept]
  have leaves (output : List UInt8) : fs'.put new.name (some output) new.name ≠ none := by
    rw [Fs.put_same]
    exact Option.some_ne_none output
  split
  · next dies =>
    rw [Safe.of_created there]
    constructor
    · intro owes
      exact absurd (owes rfl).2.1 created
    · rintro ⟨force | noTty, -⟩
      · exact absurd force dies.1
      · exact absurd dies.2 noTty
  · next checked =>
    have fine : options.force = true ∨ ¬ answers.isatty = true := by
      by_contra dies
      obtain ⟨noForce, tty⟩ := not_or.mp dies
      exact checked ⟨noForce, not_not.mp tty⟩
    split
    · next dies =>
      rw [Safe.of_created there, dies]
      constructor
      · intro owes
        exact absurd (owes rfl).2.1 (leaves _)
      · rintro ⟨-, -, -, status, returns, -⟩
        cases returns
    · next status returns =>
      rw [returns]
      generalize ((unpacker source answers.io).whole && (unpacker source answers.io).complete)
        = transformed
      split
      · next open_ =>
        rw [Safe.of_created there]
        constructor
        · intro owes
          exact absurd (owes rfl).2.1 (leaves _)
        · rintro ⟨-, closes, -⟩
          exact absurd closes open_.2
      · next closed =>
        have closes : answers.close = true := by
          by_contra open_
          exact closed ⟨by simp [toFile], open_⟩
        by_cases positive : 0 ≤ status
        · -- success: the turn is safe if the source is transformed
          have fair : (transformed = true) ↔
              ((options.force = true ∨ ¬ answers.isatty = true) ∧ answers.close = true ∧
                (∀ status', some status = some status' → 0 ≤ status' → transformed = true) ∧
                ∃ status', some status = some status' ∧
                  (status' < 0 → transformed = false → answers.unlink = true)) := by
            constructor
            · intro whole
              refine ⟨fine, closes, fun _ _ _ => whole, status, rfl, fun negative => ?_⟩
              omega
            · rintro ⟨-, -, truthful, -⟩
              exact truthful status rfl positive
          have negative : ¬ status < 0 := by omega
          rw [if_pos positive, ← fair, back, decide_eq_false negative]
          cases transformed with
          | true =>
            refine iff_of_true ?_ rfl
            split
            · exact (Safe.of_created there ..).mpr fun partly => nomatch partly
            · split <;> exact (Safe.of_created there ..).mpr fun partly => nomatch partly
          | false =>
            refine iff_of_false ?_ Bool.false_ne_true
            intro safe
            split at safe
            · exact absurd (((Safe.of_created there ..).mp safe rfl).2.2) (by simp)
            · split at safe
              · exact absurd (((Safe.of_created there ..).mp safe rfl).2.2) (by simp)
              · exact absurd (((Safe.of_created there ..).mp safe rfl).2.1) (leaves _)
        · -- an error: the output has to be deleted
          rw [if_neg positive]
          have negative : status < 0 := by omega
          have fair : (transformed = false → answers.unlink = true) ↔
              ((options.force = true ∨ ¬ answers.isatty = true) ∧ answers.close = true ∧
                (∀ status', some status = some status' → 0 ≤ status' → transformed = true) ∧
                ∃ status', some status = some status' ∧
                  (status' < 0 → transformed = false → answers.unlink = true)) := by
            constructor
            · intro unlinks
              refine ⟨fine, closes, ?_, status, rfl, fun _ => unlinks⟩
              intro _ same nonneg
              cases same
              exact absurd nonneg positive
            · rintro ⟨-, -, -, _, same, unlinks⟩
              cases same
              exact unlinks negative
          rw [← fair, decide_eq_true negative]
          dsimp only
          split
          · next unlinks =>
            rw [Safe.of_created there]
            refine iff_of_true (fun _ => ⟨?_, Fs.put_same .., .inl rfl⟩) fun _ => unlinks
            rw [Fs.put_other _ different.symm, keptToo]
          · next stuck =>
            rw [Safe.of_created there]
            refine forall_congr' fun partly => iff_of_false ?_ stuck
            rintro ⟨-, cleaned, -⟩
            exact leaves _ cleaned

/-- A turn keeps its source file if it is fair, and only then. -/
theorem turn_safe_iff (fs : Fs) (filename : Option Name) (answers : Answers E) :
    Safe fs filename (turn options unpacker naming fs filename answers) ↔
      Fair options unpacker naming fs filename answers := by
  unfold turn Fair
  cases prepared : prepare options naming fs filename answers with
  | err fs' =>
    refine iff_of_true ?_ trivial
    constructor
    · intro name named there gone
      exact absurd ((prepare_err prepared named).symm.trans gone) there
    · intro _ name named
      exact prepare_err prepared named
    · intro _ _ created
      cases created
    · intro _
      exact .inl rfl
  | died => exact iff_of_true ((Safe.of_same ..).mpr fun _ => .inr rfl) trivial
  | ready fs' source dst =>
    rcases prepare_ready prepared with ⟨rfl, rfl⟩ |
      ⟨name, new, rfl, rfl, toFile, different, back, kept, there, created⟩
    · exact transform_stream fs' filename source answers
    · exact transform_created different back toFile kept there created

/-! ## Runs -/

/-- The turns are safe, and the exit code tells if one has not transformed its source. -/
structure Run.Keeps (options : Options) (unpacker : Transformer E) (naming : Naming)
    (run : Run E) : Prop where
  safe : ∀ turn ∈ run.turns, Safe turn.fs turn.filename (turn.ended options unpacker naming)
  exits : ∀ turn ∈ run.turns, (turn.ended options unpacker naming).transformed = false →
    run.exitcode ≠ 0

theorem loop_exitcode (fs : Fs) {exitcode : Nat} (set : exitcode ≠ 0)
    (files : List (Option Name × Answers E)) :
    (loop options unpacker naming fs exitcode files).exitcode ≠ 0 := by
  induction files generalizing fs exitcode with
  | nil => exact set
  | cons file rest ih =>
    unfold loop
    dsimp only
    split
    · exact Nat.one_ne_zero
    · apply ih
      split
      · exact Nat.one_ne_zero
      · exact set

/-- The exit code remembers a turn that failed. -/
theorem loop_fails (fs : Fs) (exitcode : Nat) (files : List (Option Name × Answers E))
    {made : Turn E} (mem : made ∈ (loop options unpacker naming fs exitcode files).turns)
    (fails : (made.ended options unpacker naming).failed = true ∨
      (made.ended options unpacker naming).died = true) :
    (loop options unpacker naming fs exitcode files).exitcode ≠ 0 := by
  induction files generalizing fs exitcode with
  | nil => cases mem
  | cons file rest ih =>
    unfold loop at mem ⊢
    dsimp only at mem ⊢
    split at mem
    · next dies =>
      rw [if_pos dies]
      exact Nat.one_ne_zero
    · next lives =>
      rw [if_neg lives]
      rcases List.mem_cons.mp mem with rfl | later
      · rw [if_pos (fails.resolve_right lives)]
        exact loop_exitcode _ Nat.one_ne_zero rest
      · exact ih _ _ later

theorem bbunpack_fails (fs : Fs) (argv : List Name) (answers : Nat → Answers E)
    (closeAtEnd : Bool) {made : Turn E}
    (mem : made ∈ (bbunpack options unpacker naming fs argv answers closeAtEnd).turns)
    (fails : (made.ended options unpacker naming).failed = true ∨
      (made.ended options unpacker naming).died = true) :
    (bbunpack options unpacker naming fs argv answers closeAtEnd).exitcode ≠ 0 := by
  unfold bbunpack at mem ⊢
  dsimp only at mem ⊢
  split
  · exact Nat.one_ne_zero
  · exact loop_fails _ _ _ mem fails

/-- A run keeps its source files if its turns are fair, and only then. -/
theorem keeps_iff (fs : Fs) (argv : List Name) (answers : Nat → Answers E) (closeAtEnd : Bool) :
    (bbunpack options unpacker naming fs argv answers closeAtEnd).Keeps options unpacker naming ↔
      ∀ turn ∈ (bbunpack options unpacker naming fs argv answers closeAtEnd).turns,
        Fair options unpacker naming turn.fs turn.filename turn.answers := by
  constructor
  · intro keeps turn mem
    exact (turn_safe_iff ..).mp (keeps.safe turn mem)
  · intro fair
    have safe (made : Turn E) mem := (turn_safe_iff ..).mpr (fair made mem)
    exact ⟨safe, fun made mem partly =>
      bbunpack_fails fs argv answers closeAtEnd mem ((safe made mem).reports partly)⟩

/-! ## gzip -/

/-- A turn of gzip in which the transformation is not reached, or every read works until
the source has ended and, if an output file was created, every write and its
closing; the input is not a terminal then, but with -f. -/
def GzipFair (options : Options) (deflate : List (List UInt8) → List UInt8) (naming : Naming)
    (fs : Fs) (filename : Option Name) (answers : Answers GzipIo) : Prop :=
  let checked : Prop := options.force ∨ ¬ answers.isatty
  match prepare options naming fs filename answers with
  | .ready _ source dst =>
    match dst with
    | none =>
      checked → (options.stdout ∨ answers.close) → ¬ writeFails deflate source answers.io →
        ¬ readFails answers.io.reads source
    | some _ =>
      checked ∧ answers.close ∧ ¬ writeFails deflate source answers.io ∧
        ¬ readFails answers.io.reads source
  | _ => True

theorem packGzip_truthful (deflate : List (List UInt8) → List UInt8) (source : List UInt8)
    (io : GzipIo) :
    (packGzip deflate source io).Truthful ↔
      (¬ writeFails deflate source io → ¬ readFails io.reads source) := by
  unfold Report.Truthful
  rw [packGzip_status]
  cases written : writeFails deflate source io with
  | true =>
    refine iff_of_true ?_ fun fine => absurd rfl fine
    intro status returns
    cases returns
  | false =>
    rw [packGzip_whole deflate source io written]
    constructor
    · intro truthful _
      simpa using truthful 0 rfl (Int.le_refl 0)
    · intro reads status _ _
      simpa using reads Bool.false_ne_true

theorem fair_packGzip (deflate : List (List UInt8) → List UInt8) (fs : Fs)
    (filename : Option Name) (answers : Answers GzipIo) :
    Fair options (packGzip deflate) naming fs filename answers ↔
      GzipFair options deflate naming fs filename answers := by
  unfold Fair GzipFair
  cases prepare options naming fs filename answers with
  | err => rfl
  | died => rfl
  | ready _ source dst =>
    unfold FairTransform
    dsimp only
    cases dst with
    | none =>
      dsimp only
      rw [packGzip_truthful]
    | some created =>
      dsimp only
      rw [packGzip_truthful, packGzip_status]
      cases written : writeFails deflate source answers.io with
      | true =>
        constructor
        · rintro ⟨-, -, -, status, returns, -⟩
          cases returns
        · rintro ⟨-, -, fine, -⟩
          exact absurd rfl fine
      | false =>
        constructor
        · rintro ⟨checked, closes, reads, -⟩
          exact ⟨checked, closes, Bool.false_ne_true, reads Bool.false_ne_true⟩
        · rintro ⟨checked, closes, fine, reads⟩
          exact ⟨checked, closes, fun _ => reads, 0, rfl, fun negative => absurd negative (by omega)⟩

/-- What the system answers when the read after the first two bytes fails. -/
def badSector : Answers GzipIo where
  stdin := []
  stat := true
  openSource := true
  devNull := true
  unlinkOld := true
  create := true
  isatty := false
  io := ⟨[.upTo 1, .fails], none⟩
  close := true
  unlink := true

end Busybox.Archival
