import Mathlib

/-!
# `dd`

The copying in `coreutils/dd.c`, once the options are parsed and the files are open. What the system
answers is given beforehand. Blocks of the input are gathered in a second buffer where `ibs` and
`obs` differ.
-/

namespace Busybox.Coreutils.Dd

/-- The options. Sizes "must fit into positive ssize_t". -/
structure Options where
  ibs : Nat
  obs : Nat
  ibs_range : 0 < ibs ∧ ibs < 2 ^ 63
  obs_range : 0 < obs ∧ obs < 2 ^ 63
  count : Option Nat := none
  seek : UInt64 := 0
  skip : Nat := 0
  sync : Bool := false
  noerror : Bool := false
  notrunc : Bool := false
  fsync : Bool := false
  swab : Bool := false
  skipBytes : Bool := false
  fullblock : Bool := false
  seekBytes : Bool := false
  outfile : Bool := true

/-- What `safe_read` returns: not more than was asked for, or an error, and then whether the bad
block can be skipped. -/
inductive Read
  | data (bytes : List UInt8)
  | error (lseek : Bool)

/-- What the system answers. `old` is what the output holds before, and `start` where standard
output stands; a number is what `full_write` wants to return. -/
structure Answers where
  reads : List Read
  old : List UInt8 := []
  start : Nat := 0
  lseekIn : Bool := true
  lseekOut : Bool := true
  writes : Nat → Int := fun _ => 2 ^ 63
  fsync : Bool := true
  closeIn : Bool := true
  closeOut : Bool := true

/-! ## Reading and writing -/

/-- `safe_read`, and the answers that are left. -/
def safeRead (len : Nat) : List Read → Except Bool (List UInt8) × List Read
  | [] => (.ok [], [])
  | .data bytes :: reads => (.ok (bytes.take len), reads)
  | .error lseek :: reads => (.error lseek, reads)

/-- `full_read` -/
def fullRead (len : Nat) (total : List UInt8) (reads : List Read) :
    Except Bool (List UInt8) × List Read :=
  if len = 0 then (.ok total, reads)
  else
    match reads with
    | [] => (.ok total, [])
    | .error lseek :: reads => if total ≠ [] then (.ok total, reads) else (.error lseek, reads)
    | .data bytes :: reads =>
      let cc := bytes.take len
      if cc = [] then (.ok total, reads) else fullRead (len - cc.length) (total ++ cc) reads

/-- What `full_write` returns. -/
def fullWrite (answer : Int) (len : Nat) : Int := min answer len

/-- `write_and_stats`, unless it complains. -/
def writeAndStats (answer : Int) (buf : List UInt8) (obs : Nat) : Option (List UInt8) :=
  let n := fullWrite answer buf.length
  if n = obs ∨ n = buf.length then some (buf.take n.toNat) else none

variable (options : Options)

/-- One read of a block. -/
def readBlock (len : Nat) (reads : List Read) : Except Bool (List UInt8) × List Read :=
  if options.fullblock then fullRead len [] reads else safeRead len reads

theorem fullRead_le {len : Nat} {total : List UInt8} {reads rest : List Read}
    {result : Except Bool (List UInt8)} (read : fullRead len total reads = (result, rest)) :
    rest.length ≤ reads.length := by
  induction reads generalizing len total with
  | nil =>
    rw [fullRead.eq_def] at read
    split at read
    · exact (Prod.mk.inj read).2 ▸ Nat.le_refl _
    · exact (Prod.mk.inj read).2 ▸ Nat.le_refl _
  | cons answer reads ih =>
    rw [fullRead.eq_def] at read
    split at read
    · exact (Prod.mk.inj read).2 ▸ Nat.le_refl _
    · cases answer with
      | error lseek =>
        simp only at read
        split at read
        · exact (Prod.mk.inj read).2 ▸ Nat.le_succ _
        · exact (Prod.mk.inj read).2 ▸ Nat.le_succ _
      | data bytes =>
        simp only at read
        split at read
        · exact (Prod.mk.inj read).2 ▸ Nat.le_succ _
        · exact Nat.le_succ_of_le (ih read)

/-- A read takes an answer, unless there is nothing to read. -/
theorem readBlock_lt {options : Options} {len : Nat} {reads rest : List Read}
    {result : Except Bool (List UInt8)} (read : readBlock options len reads = (result, rest)) :
    result = .ok [] ∨ rest.length < reads.length := by
  unfold readBlock at read
  split at read
  · rw [fullRead.eq_def] at read
    split at read
    · exact .inl (Prod.mk.inj read).1.symm
    · cases reads with
      | nil => exact .inl (Prod.mk.inj read).1.symm
      | cons answer reads =>
        right
        cases answer with
        | error lseek =>
          simp only at read
          split at read
          · exact (Prod.mk.inj read).2 ▸ Nat.lt_succ_self _
          · exact (Prod.mk.inj read).2 ▸ Nat.lt_succ_self _
        | data bytes =>
          simp only at read
          split at read
          · exact (Prod.mk.inj read).2 ▸ Nat.lt_succ_self _
          · exact Nat.lt_succ_of_le (fullRead_le read)
  · cases reads with
    | nil => exact .inl (Prod.mk.inj read).1.symm
    | cons answer reads =>
      right
      cases answer with
      | error lseek => exact (Prod.mk.inj read).2 ▸ Nat.lt_succ_self _
      | data bytes => exact (Prod.mk.inj read).2 ▸ Nat.lt_succ_self _

theorem readBlock_error {options : Options} {len : Nat} {reads rest : List Read} {lseek : Bool}
    (read : readBlock options len reads = (.error lseek, rest)) : rest.length < reads.length :=
  (readBlock_lt read).resolve_left nofun

theorem readBlock_data {options : Options} {len : Nat} {reads rest : List Read}
    {block : List UInt8} (read : readBlock options len reads = (.ok block, rest))
    (some : block ≠ []) : rest.length < reads.length :=
  (readBlock_lt read).resolve_left fun none => some (Except.ok.inj none)

theorem fullRead_length {len : Nat} {total block : List UInt8} {reads rest : List Read}
    (read : fullRead len total reads = (.ok block, rest)) : block.length ≤ total.length + len := by
  induction reads generalizing len total with
  | nil =>
    rw [fullRead.eq_def] at read
    split at read
    · exact Except.ok.inj (Prod.mk.inj read).1 ▸ Nat.le_add_right _ _
    · exact Except.ok.inj (Prod.mk.inj read).1 ▸ Nat.le_add_right _ _
  | cons answer reads ih =>
    rw [fullRead.eq_def] at read
    split at read
    · exact Except.ok.inj (Prod.mk.inj read).1 ▸ Nat.le_add_right _ _
    · cases answer with
      | error lseek =>
        simp only at read
        split at read
        · exact Except.ok.inj (Prod.mk.inj read).1 ▸ Nat.le_add_right _ _
        · exact nomatch (Prod.mk.inj read).1
      | data bytes =>
        simp only at read
        split at read
        · exact Except.ok.inj (Prod.mk.inj read).1 ▸ Nat.le_add_right _ _
        · have bound := ih read
          have taken := List.length_take_le len bytes
          rw [List.length_append] at bound
          omega

theorem readBlock_le {options : Options} {len : Nat} {reads rest : List Read}
    {block : List UInt8} (read : readBlock options len reads = (.ok block, rest)) :
    block.length ≤ len := by
  unfold readBlock at read
  split at read
  · have bound := fullRead_length read
    rwa [List.length_nil, Nat.zero_add] at bound
  · cases reads with
    | nil => exact Except.ok.inj (Prod.mk.inj read).1 ▸ Nat.zero_le _
    | cons answer reads =>
      cases answer with
      | error lseek => exact nomatch (Prod.mk.inj read).1
      | data bytes => exact Except.ok.inj (Prod.mk.inj read).1 ▸ List.length_take_le _ _

/-- What is skipped is read where the input cannot be sought in. -/
def skipLoop (blocksz : Nat) : Nat → List Read → Option (List Read)
  | 0, reads => some reads
  | skip + 1, reads =>
    match readBlock options blocksz reads with
    | (.error _, _) => none
    | (.ok [], reads) => some reads
    | (.ok _, reads) => if skip = 0 then some reads else skipLoop blocksz skip reads

/-! ## Conversions -/

/-- `bswap_16` of every pair of bytes. -/
def bswap : List UInt8 → List UInt8
  | a :: b :: rest => b :: a :: bswap rest
  | odd => odd

/-- A block as it is written. -/
def converted (block : List UInt8) : List UInt8 :=
  let block := if options.swab then bswap block else block
  if options.sync && block.length ≠ options.ibs then
    block ++ List.replicate (options.ibs - block.length) 0
  else block

@[simp] theorem length_bswap (block : List UInt8) : (bswap block).length = block.length := by
  fun_induction bswap block with
  | case1 a b rest ih => rw [List.length_cons, List.length_cons, ih]; rfl
  | case2 odd => rfl

theorem converted_le {options : Options} {block : List UInt8} (short : block.length ≤ options.ibs) :
    (converted options block).length ≤ options.ibs := by
  have padded : ∀ block : List UInt8, block.length ≤ options.ibs →
      (if options.sync && block.length ≠ options.ibs then
        block ++ List.replicate (options.ibs - block.length) 0
      else block).length ≤ options.ibs := by
    intro block short
    split
    · rw [List.length_append, List.length_replicate]
      omega
    · exact short
  refine padded _ ?_
  split
  · exact length_bswap block ▸ short
  · exact short

/-! ## The loop -/

/-- The first `ocount` bytes of `obuf`. -/
abbrev Obuf (obs : Nat) := {bytes : List UInt8 // bytes.length < obs}

/-- The second buffer, and what was written. -/
structure Output (obs : Nat) where
  obuf : Obuf obs
  written : List (List UInt8)

/-- `while (n)`: the block is put behind what the buffer holds, which is written when it is full. -/
def gather (writes : Nat → Int) (n : List UInt8) (output : Output options.obs) :
    Option (Output options.obs) :=
  if nonempty : n ≠ [] then
    let d := min (options.obs - output.obuf.1.length) n.length
    let obuf := output.obuf.1 ++ n.take d
    if full : obuf.length = options.obs then do
      let piece ← writeAndStats (writes output.written.length) obuf options.obs
      gather writes (n.drop d) ⟨⟨[], options.obs_range.1⟩, output.written ++ [piece]⟩
    else
      have short : obuf.length < options.obs := by
        have below := output.obuf.2
        simp only [obuf, List.length_append, List.length_take, d] at full ⊢
        omega
      gather writes (n.drop d) ⟨⟨obuf, short⟩, output.written⟩
  else some output
termination_by n.length
decreasing_by
  all_goals
    have below := output.obuf.2
    have positive := List.length_pos_iff.mpr nonempty
    rw [List.length_drop]
    omega

/-- One block: `FLAG_TWOBUFS`, or the buffer that was read. -/
def putBlock (writes : Nat → Int) (block : List UInt8) (output : Output options.obs) :
    Option (Output options.obs) :=
  if options.ibs ≠ options.obs then gather options writes block output
  else do
    let piece ← writeAndStats (writes output.written.length) block options.obs
    return { output with written := output.written ++ [piece] }

/-- `G.in_full + G.in_part != count` -/
def more (done : Nat) : Bool := options.count ≠ some done

/-- The copying loop. `prev_read_size` is checked before it is set. -/
def copyLoop (writes : Nat → Int) (reads : List Read) (done prevReadSize : Nat)
    (output : Output options.obs) : Option (Output options.obs) :=
  if more options done then
    match _read : readBlock options options.ibs reads with
    | (.error lseek, reads') =>
      if !options.noerror || !lseek then none
      else if options.swab && prevReadSize % 2 = 1 then none
      else do
        let output ← putBlock options writes (converted options []) output
        copyLoop writes reads' (done + 1) 0 output
    | (.ok block, reads') =>
      if _nothing : block = [] then some output
      else if options.swab && prevReadSize % 2 = 1 then none
      else do
        let output ← putBlock options writes (converted options block) output
        copyLoop writes reads' (done + 1) block.length output
  else some output
termination_by reads.length
decreasing_by
  · exact readBlock_error _read
  · exact readBlock_data _read _nothing

/-- The answers that are left when what is skipped was read. -/
def skipped (answers : Answers) : Option (List Read) :=
  if options.skip ≠ 0 && !answers.lseekIn then
    skipLoop options (if options.skipBytes then 1 else options.ibs) options.skip answers.reads
  else some answers.reads

/-! ## The output -/

/-- What is sought by is counted in blocks or in bytes. -/
def blocksz : Nat := if options.seekBytes then 1 else options.obs

/-- `seek * blocksz`, as an `off_t`. -/
def offset : Int := Int.bmod (options.seek.toNat * blocksz options) (2 ^ 64)

/-- `ftruncate` -/
def ftruncate (file : List UInt8) (length : Nat) : List UInt8 :=
  file.take length ++ List.replicate (length - file.length) 0

/-- What the opened output holds; a length below zero is refused. -/
def opened (answers : Answers) : Option (List UInt8) :=
  if options.outfile && !options.notrunc then
    if 0 ≤ offset options then some (ftruncate answers.old (offset options).toNat) else none
  else some answers.old

/-- Where the output is written; `lseek` does not go to before the file. -/
def position (answers : Answers) : Option Nat :=
  let start := if options.outfile then 0 else answers.start
  if options.seek ≠ 0 then
    if answers.lseekOut && 0 ≤ start + offset options then some (start + offset options).toNat
    else none
  else some start

/-- Pieces that follow each other in a file. -/
def writeAt (file : List UInt8) (position : Nat) (bytes : List UInt8) : List UInt8 :=
  ftruncate file position ++ bytes ++ file.drop (position + bytes.length)

/-- Where `dd` exits with 0: what it wrote from which position on, in which pieces, what the output
holds then, and how many bytes of it were synced. -/
structure Result where
  position : Nat
  written : List (List UInt8)
  file : List UInt8
  synced : Nat
  deriving DecidableEq

/-- `if (ocount != 0)`: what the second buffer still holds. -/
def flush (writes : Nat → Int) (output : Output options.obs) : Option (List (List UInt8)) :=
  if output.obuf.1.length ≠ 0 then do
    let piece ← writeAndStats (writes output.written.length) output.obuf.1 options.obs
    return output.written ++ [piece]
  else some output.written

/-- `dd_main` behind its options; `none` where it does not exit with 0. -/
def ddMain (answers : Answers) : Option Result := do
  let file ← opened options answers
  let reads ← skipped options answers
  let position ← position options answers
  let output ← copyLoop options answers.writes reads 0 0 ⟨⟨[], options.obs_range.1⟩, []⟩
  if options.fsync && !answers.fsync then none
  else do
    let synced := if options.fsync then output.written.flatten.length else 0
    let written ← flush options answers.writes output
    if !answers.closeIn || !answers.closeOut then none
    else some ⟨position, written, writeAt file position written.flatten, synced⟩

/-! ## What is copied -/

/-- The blocks of the input, as they are read. -/
def blocks (reads : List Read) (done : Nat) : List (List UInt8) :=
  if more options done then
    match _read : readBlock options options.ibs reads with
    | (.error _, reads') => [] :: blocks reads' (done + 1)
    | (.ok block, reads') => if _nothing : block = [] then [] else block :: blocks reads' (done + 1)
  else []
termination_by reads.length
decreasing_by
  · exact readBlock_error _read
  · exact readBlock_data _read _nothing

/-- What is to be written. -/
def input (answers : Answers) : List UInt8 :=
  ((skipped options answers).elim [] (blocks options · 0)).flatMap (converted options)

variable {options : Options} {writes : Nat → Int} {text n block piece buf : List UInt8}
  {output output' : Output options.obs} {answer : Int} {obs : Nat}

theorem writeAndStats_eq (short : buf.length ≤ obs)
    (written : writeAndStats answer buf obs = some piece) : piece = buf := by
  by_cases full : fullWrite answer buf.length = obs ∨ fullWrite answer buf.length = buf.length
  · rw [writeAndStats, if_pos full] at written
    rw [← Option.some.inj written]
    exact List.take_of_length_le (by omega)
  · rw [writeAndStats, if_neg full] at written
    exact nomatch written

/-- What was written and what the buffer holds are the text, in pieces of one size. -/
structure Gathered (options : Options) (text : List UInt8) (output : Output options.obs) :
    Prop where
  whole : output.written.flatten ++ output.obuf.1 = text
  pieces : options.ibs ≠ options.obs → ∀ piece ∈ output.written, piece.length = options.obs
  plain : options.ibs = options.obs → output.obuf.1 = []

/-- A block is put behind what was gathered. -/
theorem gather_gathered (differ : options.ibs ≠ options.obs)
    (gathered : Gathered options text output)
    (ran : gather options writes n output = some output') :
    Gathered options (text ++ n) output' := by
  obtain ⟨left, isLeft⟩ : ∃ left, n.length = left := ⟨_, rfl⟩
  induction left using Nat.strongRecOn generalizing n text output with
  | ind left ih =>
    rw [gather] at ran
    by_cases nonempty : n ≠ []
    · rw [dif_pos nonempty] at ran
      have below := output.obuf.2
      have positive := List.length_pos_iff.mpr nonempty
      obtain ⟨d, isD⟩ : ∃ d, d = min (options.obs - output.obuf.1.length) n.length := ⟨_, rfl⟩
      have split : text ++ n = text ++ n.take d ++ n.drop d := by
        rw [List.append_assoc, List.take_append_drop]
      have shorter : (n.drop d).length < left := by
        rw [List.length_drop]
        omega
      simp only [← isD] at ran
      rw [split]
      split at ran
      case isTrue full =>
        obtain ⟨piece, written, ran⟩ := Option.bind_eq_some_iff.mp ran
        obtain rfl := writeAndStats_eq (Nat.le_of_eq full) written
        refine ih _ shorter ⟨?_, fun differ piece mem => ?_, fun same => absurd same differ⟩ ran rfl
        · simp only [List.flatten_append, List.flatten_singleton, List.append_nil]
          rw [← List.append_assoc, gathered.whole]
        · rcases List.mem_append.mp mem with old | new
          · exact gathered.pieces differ piece old
          · rw [List.mem_singleton.mp new]
            exact full
      case isFalse short =>
        have further : Gathered options (text ++ n.take d)
            ⟨⟨output.obuf.1 ++ n.take d, by
              simp only [List.length_append, List.length_take] at short ⊢
              omega⟩, output.written⟩ := by
          refine ⟨?_, gathered.pieces, fun same => absurd same differ⟩
          rw [← gathered.whole, List.append_assoc]
        exact ih _ shorter further ran rfl
    · obtain rfl := not_not.mp nonempty
      rw [dif_neg nonempty] at ran
      rw [List.append_nil, ← Option.some.inj ran]
      exact gathered

theorem putBlock_gathered (short : block.length ≤ options.ibs)
    (gathered : Gathered options text output)
    (ran : putBlock options writes block output = some output') :
    Gathered options (text ++ block) output' := by
  rw [putBlock] at ran
  split at ran
  case isTrue differ => exact gather_gathered differ gathered ran
  case isFalse same =>
    have same := not_not.mp same
    obtain ⟨piece, written, wrote⟩ := Option.bind_eq_some_iff.mp ran
    have whole := gathered.whole
    rw [gathered.plain same, List.append_nil] at whole
    rw [← Option.some.inj wrote, writeAndStats_eq (same ▸ short) written]
    refine ⟨?_, fun differ => absurd same differ, fun _ => gathered.plain same⟩
    simp only [List.flatten_append, List.flatten_singleton, whole, gathered.plain same,
      List.append_nil]

section blocks
variable {reads reads' : List Read} {done : Nat} (goes : more options done = true)
include goes

theorem blocks_error {lseek : Bool}
    (read : readBlock options options.ibs reads = (.error lseek, reads')) :
    blocks options reads done = [] :: blocks options reads' (done + 1) := by
  rw [blocks, if_pos goes]
  split
  case h_1 read' => rw [(Prod.mk.inj (read.symm.trans read')).2]
  case h_2 read' => exact nomatch (Prod.mk.inj (read.symm.trans read')).1

theorem blocks_end (read : readBlock options options.ibs reads = (.ok [], reads')) :
    blocks options reads done = [] := by
  rw [blocks, if_pos goes]
  split
  case h_1 read' => exact nomatch (Prod.mk.inj (read.symm.trans read')).1
  case h_2 read' => exact dif_pos (Except.ok.inj (Prod.mk.inj (read.symm.trans read')).1).symm

theorem blocks_data (read : readBlock options options.ibs reads = (.ok block, reads'))
    (nonempty : block ≠ []) :
    blocks options reads done = block :: blocks options reads' (done + 1) := by
  rw [blocks, if_pos goes]
  split
  case h_1 read' => exact nomatch (Prod.mk.inj (read.symm.trans read')).1
  case h_2 read' =>
    obtain ⟨same, rest⟩ := Prod.mk.inj (read.symm.trans read')
    obtain rfl := Except.ok.inj same
    rw [dif_neg nonempty, rest]

end blocks

/-- The loop writes or keeps what it reads. -/
theorem copyLoop_gathered {reads : List Read} {done prevReadSize : Nat}
    (gathered : Gathered options text output)
    (ran : copyLoop options writes reads done prevReadSize output = some output') :
    Gathered options (text ++ (blocks options reads done).flatMap (converted options)) output' := by
  obtain ⟨left, isLeft⟩ : ∃ left, reads.length = left := ⟨_, rfl⟩
  induction left using Nat.strongRecOn generalizing reads done prevReadSize text output with
  | ind left ih =>
    rw [copyLoop] at ran
    split at ran
    case isTrue goes =>
      split at ran
      case h_1 lseek reads' read =>
        split at ran
        · exact nomatch ran
        · split at ran
          · exact nomatch ran
          · obtain ⟨output₁, put, ran⟩ := Option.bind_eq_some_iff.mp ran
            have further := putBlock_gathered (converted_le (Nat.zero_le _)) gathered put
            have rest := ih _ (isLeft ▸ readBlock_error read) further ran rfl
            rw [blocks_error goes read, List.flatMap_cons, ← List.append_assoc]
            exact rest
      case h_2 block reads' read =>
        split at ran
        case isTrue nothing =>
          rw [blocks_end goes (nothing ▸ read), List.flatMap_nil, List.append_nil,
            ← Option.some.inj ran]
          exact gathered
        case isFalse nonempty =>
          split at ran
          · exact nomatch ran
          · obtain ⟨output₁, put, ran⟩ := Option.bind_eq_some_iff.mp ran
            have further := putBlock_gathered (converted_le (readBlock_le read)) gathered put
            have rest := ih _ (isLeft ▸ readBlock_data read nonempty) further ran rfl
            rw [blocks_data goes read nonempty, List.flatMap_cons, ← List.append_assoc]
            exact rest
    case isFalse stops =>
      rw [blocks, if_neg stops, List.flatMap_nil, List.append_nil, ← Option.some.inj ran]
      exact gathered

/-! ## A whole run -/

variable {answers : Answers} {result : Result}

theorem flush_eq {written : List (List UInt8)} (ran : flush options writes output = some written) :
    written = output.written ++ (if output.obuf.1 = [] then [] else [output.obuf.1]) := by
  rw [flush] at ran
  split at ran
  case isTrue held =>
    obtain ⟨piece, took, ran⟩ := Option.bind_eq_some_iff.mp ran
    rw [if_neg (List.length_pos_iff.mp (Nat.pos_of_ne_zero held)), ← Option.some.inj ran,
      writeAndStats_eq (Nat.le_of_lt output.obuf.2) took]
  case isFalse nothing =>
    rw [if_pos (List.length_eq_zero_iff.mp (not_not.mp nothing)), List.append_nil]
    exact (Option.some.inj ran).symm

/-- What a run that succeeds did; the flush comes after the sync. -/
theorem ddMain_eq (ran : ddMain options answers = some result) :
    ∃ file output, opened options answers = some file ∧
      position options answers = some result.position ∧
      Gathered options (input options answers) output ∧
      result.written = output.written ++ (if output.obuf.1 = [] then [] else [output.obuf.1]) ∧
      result.file = writeAt file result.position result.written.flatten ∧
      result.synced = if options.fsync then output.written.flatten.length else 0 := by
  obtain ⟨file, isOpened, ran⟩ := Option.bind_eq_some_iff.mp ran
  obtain ⟨reads, skips, ran⟩ := Option.bind_eq_some_iff.mp ran
  obtain ⟨position, seeks, ran⟩ := Option.bind_eq_some_iff.mp ran
  obtain ⟨output, copied, ran⟩ := Option.bind_eq_some_iff.mp ran
  have whole : input options answers =
      [] ++ (blocks options reads 0).flatMap (converted options) := by
    rw [input, skips]
    rfl
  have gathered :=
    copyLoop_gathered ⟨rfl, fun _ _ mem => absurd mem List.not_mem_nil, fun _ => rfl⟩ copied
  split at ran
  · exact nomatch ran
  · obtain ⟨written, flushed, ran⟩ := Option.bind_eq_some_iff.mp ran
    split at ran
    · exact nomatch ran
    · obtain rfl := Option.some.inj ran
      exact ⟨file, output, isOpened, seeks, whole ▸ gathered, flush_eq flushed, rfl, rfl⟩

/-- What a run is to do: what `seek` says is left as it was, and from there on the output is the
blocks of the input. -/
structure Copied (options : Options) (answers : Answers) (result : Result) : Prop where
  seeked : result.position =
    (if options.outfile then 0 else answers.start) + options.seek.toNat * blocksz options
  copied : (result.file.drop result.position).take (input options answers).length =
    input options answers
  truncated : options.outfile → ¬options.notrunc →
    result.file.drop result.position = input options answers
  written : result.written.flatten = input options answers
  pieces : options.ibs ≠ options.obs → ∀ piece ∈ result.written.dropLast,
    piece.length = options.obs
  last : options.ibs ≠ options.obs → ∀ piece ∈ result.written, piece.length ≤ options.obs
  synced : options.fsync → result.synced = result.written.flatten.length

/-! ## Where the output goes -/

theorem length_ftruncate (file : List UInt8) (length : Nat) :
    (ftruncate file length).length = length := by
  rw [ftruncate, List.length_append, List.length_take, List.length_replicate]
  omega

theorem drop_writeAt (file : List UInt8) (position : Nat) (bytes : List UInt8) :
    (writeAt file position bytes).drop position =
      bytes ++ file.drop (position + bytes.length) := by
  rw [writeAt, List.append_assoc]
  exact List.drop_left' (length_ftruncate file position)

/-- A product that fits into an `off_t` is what is sought by, and no other. -/
theorem offset_eq_iff :
    offset options = options.seek.toNat * blocksz options ↔
      options.seek.toNat * blocksz options < 2 ^ 63 := by
  unfold offset
  rw [← Int.natCast_mul]
  generalize options.seek.toNat * blocksz options = product
  constructor
  · intro same
    have bound := @Int.bmod_lt product (2 ^ 64) (by omega)
    omega
  · intro fits
    exact Int.bmod_eq_of_le (by omega) (by omega)

theorem position_eq {place : Nat} (sought : position options answers = some place) :
    (place : Int) = (if options.outfile then 0 else answers.start : Nat) + offset options := by
  simp only [position] at sought
  generalize (if options.outfile then 0 else answers.start) = start at sought ⊢
  by_cases moves : options.seek ≠ 0
  · rw [if_pos moves] at sought
    split at sought
    case isTrue allowed =>
      have sign := of_decide_eq_true (Bool.and_eq_true_iff.mp allowed).2
      have place := Option.some.inj sought
      omega
    case isFalse => exact nomatch sought
  · have still : offset options = 0 := by
      unfold offset
      simp only [not_not.mp moves, UInt64.toNat_zero, Int.cast_ofNat_Int, Int.zero_mul,
        Int.zero_bmod]
    rw [if_neg moves] at sought
    rw [still, ← Option.some.inj sought, Int.add_zero]

/-- A truncated file ends where the output is written. -/
theorem opened_length {file : List UInt8} {place : Nat}
    (isOpened : opened options answers = some file) (sought : position options answers = some place)
    (outfile : options.outfile = true) (trunc : ¬options.notrunc) : file.length = place := by
  have place := position_eq sought
  rw [if_pos outfile] at place
  rw [opened, outfile, Bool.eq_false_iff.mpr trunc, if_pos (by rfl)] at isOpened
  split at isOpened
  · rw [← Option.some.inj isOpened, length_ftruncate]
    omega
  · exact nomatch isOpened

/-! ## The sync -/

theorem flatten_dvd {pieces : List (List UInt8)} (same : ∀ piece ∈ pieces, piece.length = obs) :
    obs ∣ pieces.flatten.length := by
  induction pieces with
  | nil => exact Nat.dvd_zero obs
  | cons piece pieces ih =>
    rw [List.flatten_cons, List.length_append, same piece List.mem_cons_self]
    have rest := ih fun piece mem => same piece (List.mem_cons_of_mem _ mem)
    exact Nat.dvd_add (Nat.dvd_refl obs) rest

/-- Nothing is left for the flush where the blocks fill whole pieces. -/
theorem Gathered.empty_iff (gathered : Gathered options text output) :
    output.obuf.1 = [] ↔ options.ibs = options.obs ∨ text.length % options.obs = 0 := by
  have below := output.obuf.2
  by_cases same : options.ibs = options.obs
  · exact iff_of_true (gathered.plain same) (.inl same)
  · have whole := congrArg List.length gathered.whole
    rw [List.length_append] at whole
    obtain ⟨count, full⟩ := flatten_dvd (gathered.pieces same)
    rw [← List.length_eq_zero_iff, or_iff_right same, ← whole, full, Nat.mul_add_mod,
      Nat.mod_eq_of_lt below]

/-- A run that succeeds copies the blocks, but it syncs before it writes the last piece, and what it
seeks by is an `off_t`. -/
theorem ddMain_copied_iff (ran : ddMain options answers = some result) :
    Copied options answers result ↔
      options.seek.toNat * blocksz options < 2 ^ 63 ∧
        (options.fsync → options.ibs = options.obs ∨
          (input options answers).length % options.obs = 0) := by
  obtain ⟨file, output, isOpened, sought, gathered, written, isFile, synced⟩ := ddMain_eq ran
  have place := position_eq sought
  have flat : result.written.flatten = input options answers := by
    rw [written, ← gathered.whole, List.flatten_append]
    split
    case isTrue empty => rw [empty]; rfl
    case isFalse => rw [List.flatten_singleton]
  have tail : result.file.drop result.position = input options answers ++
      file.drop (result.position + (input options answers).length) := by
    rw [isFile, drop_writeAt, flat]
  rw [← gathered.empty_iff, ← offset_eq_iff]
  constructor
  · intro copied
    constructor
    · have seeked := copied.seeked
      omega
    · intro flag
      have all := copied.synced flag
      rw [synced, if_pos flag, flat, ← gathered.whole, List.length_append] at all
      exact List.length_eq_zero_iff.mp (by omega)
  · rintro ⟨fits, early⟩
    refine ⟨?_, ?_, ?_, flat, ?_, ?_, ?_⟩
    · omega
    · rw [tail, List.take_left]
    · intro outfile trunc
      rw [tail, List.drop_eq_nil_of_le (by
        rw [opened_length isOpened sought outfile trunc]
        exact Nat.le_add_right _ _), List.append_nil]
    · intro differ piece mem
      rw [written] at mem
      split at mem
      case isTrue empty =>
        rw [List.append_nil] at mem
        exact gathered.pieces differ piece (List.dropLast_subset _ mem)
      case isFalse =>
        rw [List.dropLast_concat] at mem
        exact gathered.pieces differ piece mem
    · intro differ piece mem
      rw [written] at mem
      rcases List.mem_append.mp mem with old | new
      · exact Nat.le_of_eq (gathered.pieces differ piece old)
      · split at new
        case isTrue => exact nomatch new
        case isFalse =>
          rw [List.mem_singleton.mp new]
          exact Nat.le_of_lt output.obuf.2
    · intro flag
      rw [synced, if_pos flag, flat, ← gathered.whole, early flag, List.append_nil]

/-- `ibs=2 obs=4 conv=swab,fsync`, and four bytes. -/
theorem ddMain_copied_four :
    Copied
      { ibs := 2, obs := 4, ibs_range := by decide, obs_range := by decide
        fsync := true, swab := true }
      { reads := [.data [1, 2], .data [3, 4]], old := [9] } ⟨0, [[2, 1, 4, 3]], [2, 1, 4, 3], 4⟩ :=
  (ddMain_copied_iff (by decide +kernel)).mpr ⟨by decide, fun _ => .inr (by decide +kernel)⟩

/-- `ibs=1 obs=2 conv=fsync`, and one byte: nothing is written when the output is synced. -/
theorem ddMain_unsynced : ∃ options answers result,
    ddMain options answers = some result ∧ ¬Copied options answers result := by
  refine ⟨{ ibs := 1, obs := 2, ibs_range := by decide, obs_range := by decide, fsync := true },
    { reads := [.data [65]] }, ⟨0, [[65]], [65], 0⟩, by decide +kernel, fun copied => ?_⟩
  exact absurd (copied.synced rfl) (by decide)

end Busybox.Coreutils.Dd
