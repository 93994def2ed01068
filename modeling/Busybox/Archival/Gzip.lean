import Mathlib.Tactic.Common

/-!
# Files replaced by their transformation

`bbunpack` is the loop of gzip, gunzip, bunzip2 and the like over their files. What
it does with one file is a turn; the transformation is a parameter, and `Answers` is
what the system answers during a turn.
-/

namespace Busybox.Archival

abbrev Name := List UInt8

/-- The files there are. -/
abbrev Fs := Name → Option (List UInt8)

def Fs.put (fs : Fs) (name : Name) (content : Option (List UInt8)) : Fs :=
  fun other => if other = name then content else fs other

/-! ## Names -/

/-- `strrchr`: what is before and after the last such character. -/
def strrchr (c : UInt8) : Name → Option (Name × Name)
  | [] => none
  | b :: rest =>
    match strrchr c rest with
    | some (before, after) => some (b :: before, after)
    | none => if b = c then some ([], rest) else none

/-- `new_name`. A name that is cut in place of the dot hides the extension behind a NUL. -/
structure NewName where
  name : Name
  hidden : Option Name
deriving DecidableEq, Repr

/-- The `make_new_name` functions. -/
inductive Naming
  | appendExt (expectedExt : Name)
  | generic (expectedExt : Name)
  | gunzip

def Naming.makeNewName : Naming → Name → Option NewName
  | .appendExt expectedExt, filename => some ⟨filename ++ 46 :: expectedExt, none⟩
  | .generic expectedExt, filename =>
    match strrchr 46 filename with
    | none => none
    | some (before, extension) =>
      if extension = expectedExt then some ⟨before, some extension⟩ else none
  | .gunzip, filename =>
    match strrchr 46 filename with
    | none => none
    | some (before, extension) =>
      -- "gz"
      if extension = [103, 122] then some ⟨before, some extension⟩
      -- "tgz" becomes "tar"
      else if extension = [116, 103, 122] then some ⟨before ++ [46, 116, 97, 114], none⟩
      else none

/-- The source file's name, with the dot put back. -/
def NewName.source (new : NewName) (filename : Name) : Name :=
  match new.hidden with
  | some extension => new.name ++ 46 :: extension
  | none => filename

/-! ## Turns -/

/-- The options of `BBUNPK_OPTSTR` and -t. -/
structure Options where
  stdout : Bool
  force : Bool
  keep : Bool
  test : Bool
deriving DecidableEq, Repr

/-- What a transformation comes to: the status it returns, if it does not die, what it
has written, and whether it has consumed the whole source without an error and has
written the complete result. -/
structure Report where
  status : Option Int
  output : List UInt8
  whole : Bool
  complete : Bool

/-- A transformation of a source, with errors as the system pleases. -/
abbrev Transformer (E : Type) := List UInt8 → E → Report

/-- What the system answers during a turn; `true` where it does what it is asked. -/
structure Answers (E : Type) where
  stdin : List UInt8
  stat : Bool
  openSource : Bool
  devNull : Bool
  unlinkOld : Bool
  create : Bool
  isatty : Bool
  io : E
  close : Bool
  unlink : Bool

/-- How a turn ends. `failed` sets the exit code to 1 and `died` ends the program with
it. `transformed` says that the source was consumed without error and the complete
result written and closed, `created` is the output file. -/
structure Ended where
  fs : Fs
  failed : Bool
  died : Bool
  transformed : Bool
  created : Option Name

/-- What precedes the transformation. -/
inductive Prepared
  | err (fs : Fs)
  | died
  | ready (fs : Fs) (source : List UInt8) (dst : Option (Name × NewName))

variable {E : Type}

/-- The source is opened, and the output file created if it is to be one. -/
def prepare (options : Options) (naming : Naming) (fs : Fs) (filename : Option Name)
    (answers : Answers E) : Prepared :=
  match filename with
  | none => .ready fs answers.stdin none
  | some filename =>
    if filename = [45] then .ready fs answers.stdin none
    else
      match fs filename with
      | none => .err fs
      | some source =>
        if ¬ answers.stat ∨ ¬ answers.openSource then .err fs
        else if options.stdout ∨ options.test then
          if options.test ∧ ¬ answers.devNull then .died else .ready fs source none
        else
          match naming.makeNewName filename with
          | none => .err fs
          | some new =>
            -- -f: overwrite existing output files
            let fs := if options.force ∧ answers.unlinkOld then fs.put new.name none else fs
            if (fs new.name).isSome ∨ ¬ answers.create then .err fs
            else .ready (fs.put new.name (some [])) source (some (filename, new))

/-- The transformation, and the removal of the source or of the incomplete output. -/
def transform (options : Options) (unpacker : Transformer E) (fs : Fs) (source : List UInt8)
    (dst : Option (Name × NewName)) (answers : Answers E) : Ended :=
  let created := dst.map fun dst => dst.2.name
  -- check that the input is sane
  if ¬ options.force ∧ answers.isatty then ⟨fs, false, true, false, created⟩
  else
    let report := unpacker source answers.io
    let fs := match dst with
      | none => fs
      | some (_, new) => fs.put new.name (some report.output)
    match report.status with
    | none => ⟨fs, false, true, false, created⟩
    | some status =>
      if ¬ options.stdout ∧ ¬ answers.close then ⟨fs, status < 0, true, false, created⟩
      else
        let transformed := report.whole && report.complete
        match dst with
        | none => ⟨fs, status < 0, false, transformed, created⟩
        | some (filename, new) =>
          let del :=
            if 0 ≤ status then (if options.keep then none else some (new.source filename))
            else some new.name
          match del with
          | none => ⟨fs, status < 0, false, transformed, created⟩
          | some del =>
            if answers.unlink then ⟨fs.put del none, status < 0, false, transformed, created⟩
            else ⟨fs, status < 0, true, transformed, created⟩

/-- One turn of the loop of `bbunpack`. -/
def turn (options : Options) (unpacker : Transformer E) (naming : Naming) (fs : Fs)
    (filename : Option Name) (answers : Answers E) : Ended :=
  match prepare options naming fs filename answers with
  | .err fs => ⟨fs, true, false, false, none⟩
  | .died => ⟨fs, false, true, false, none⟩
  | .ready fs source dst => transform options unpacker fs source dst answers

/-! ## The loop -/

/-- A turn that has been made: the files before it, and what it was given. -/
structure Turn (E : Type) where
  fs : Fs
  filename : Option Name
  answers : Answers E

def Turn.ended (options : Options) (unpacker : Transformer E) (naming : Naming) (turn : Turn E) :
    Ended :=
  Archival.turn options unpacker naming turn.fs turn.filename turn.answers

/-- A run of `bbunpack`: the turns it makes, and its exit code. -/
structure Run (E : Type) where
  turns : List (Turn E)
  fs : Fs
  exitcode : Nat

/-- The loop over the files, with the exit code so far. -/
def loop (options : Options) (unpacker : Transformer E) (naming : Naming) (fs : Fs)
    (exitcode : Nat) : List (Option Name × Answers E) → Run E
  | [] => ⟨[], fs, exitcode⟩
  | (filename, answers) :: rest =>
    let made : Turn E := ⟨fs, filename, answers⟩
    let ended := made.ended options unpacker naming
    if ended.died then ⟨[made], ended.fs, 1⟩
    else
      let run := loop options unpacker naming ended.fs (if ended.failed then 1 else exitcode) rest
      { run with turns := made :: run.turns }

/-- `bbunpack` on the files of `argv`, the system answering in every turn; without a file
it makes one turn for the standard input. With -c standard output is closed at the
end, with error check. -/
def bbunpack (options : Options) (unpacker : Transformer E) (naming : Naming) (fs : Fs)
    (argv : List Name) (answers : Nat → Answers E) (closeAtEnd : Bool) : Run E :=
  let files := if argv = [] then [none] else argv.map some
  let run := loop options unpacker naming fs 0 (files.zipIdx.map fun (file, i) => (file, answers i))
  { run with exitcode := if options.stdout ∧ ¬ closeAtEnd then 1 else run.exitcode }

end Busybox.Archival

/-!
## What gzip reads and writes

`pack_gzip` reads until a read gives nothing, or an error: `fill_window` sets
`eofile` in both cases. The compression itself is a parameter, the output for the
pieces that have been read.
-/

namespace Busybox.Archival

/-- What a read of the source gives: so many bytes and one more, if there are as many,
or an error. -/
inductive Read
  | upTo (count : Nat)
  | fails
deriving DecidableEq, Repr

/-- The system's answers to gzip's reads, and how many bytes of output can be written
before a write fails. -/
structure GzipIo where
  reads : List Read
  room : Option Nat

/-- The reads of `fill_window` until `eofile` is set: what was read, and whether the last
read was an error. Reads that nothing is said about do what they are asked. -/
def fillWindow : List Read → List UInt8 → List (List UInt8) × Bool
  | [], source => (if source = [] then [] else [source], false)
  | .fails :: _, _ => ([], true)
  | .upTo count :: reads, source =>
    if source = [] then ([], false)
    else
      let (pieces, failed) := fillWindow reads (source.drop (count + 1))
      (source.take (count + 1) :: pieces, failed)

/-- `pack_gzip`. A write that fails ends the program; `pack_gzip` returns 0 otherwise. -/
def packGzip (deflate : List (List UInt8) → List UInt8) : Transformer GzipIo := fun source io =>
  let read := fillWindow io.reads source
  let output := deflate read.1
  let whole := !read.2 && read.1.flatten == source
  match io.room with
  | none => ⟨some 0, output, whole, whole⟩
  | some room =>
    if output.length ≤ room then ⟨some 0, output, whole, whole⟩
    else ⟨none, output.take room, whole, false⟩

theorem fillWindow_flatten (reads : List Read) (source : List UInt8)
    (works : (fillWindow reads source).2 = false) : (fillWindow reads source).1.flatten = source := by
  induction reads generalizing source with
  | nil =>
    unfold fillWindow
    split
    · next empty => rw [empty, List.flatten_nil]
    · exact List.flatten_singleton ..
  | cons read reads ih =>
    cases read with
    | fails => cases works
    | upTo count =>
      unfold fillWindow at works ⊢
      split at works
      · next empty => rw [if_pos empty, empty, List.flatten_nil]
      · next some =>
        rw [if_neg some]
        dsimp only at works ⊢
        rw [List.flatten_cons, ih _ works, List.take_append_drop]

/-- A read fails before the source has ended. -/
def readFails (reads : List Read) (source : List UInt8) : Bool := (fillWindow reads source).2

/-- A write of the output fails. -/
def writeFails (deflate : List (List UInt8) → List UInt8) (source : List UInt8) (io : GzipIo) :
    Bool :=
  match io.room with
  | none => false
  | some room => room < (deflate (fillWindow io.reads source).1).length

theorem whole_eq (reads : List Read) (source : List UInt8) :
    (!(fillWindow reads source).2 && (fillWindow reads source).1.flatten == source)
      = !readFails reads source := by
  unfold readFails
  cases failed : (fillWindow reads source).2 with
  | true => rfl
  | false =>
    rw [fillWindow_flatten reads source failed]
    simp

theorem packGzip_status (deflate : List (List UInt8) → List UInt8) (source : List UInt8)
    (io : GzipIo) :
    (packGzip deflate source io).status = if writeFails deflate source io then none else some 0 := by
  obtain ⟨reads, room⟩ := io
  cases room with
  | none => rfl
  | some room =>
    unfold packGzip writeFails
    dsimp only
    split
    · next fits => rw [if_neg (by simpa using fits)]
    · next exceeds => rw [if_pos (by simpa using exceeds)]

/-- What gzip reports as written is the whole, unless a read has failed. -/
theorem packGzip_whole (deflate : List (List UInt8) → List UInt8) (source : List UInt8)
    (io : GzipIo) (written : writeFails deflate source io = false) :
    ((packGzip deflate source io).whole && (packGzip deflate source io).complete)
      = !readFails io.reads source := by
  obtain ⟨reads, room⟩ := io
  cases room with
  | none =>
    rw [← whole_eq]
    exact Bool.and_self _
  | some room =>
    have fits : (deflate (fillWindow reads source).1).length ≤ room := by
      simpa [writeFails] using written
    unfold packGzip
    dsimp only
    rw [if_pos fits, whole_eq, Bool.and_self]

end Busybox.Archival
