import Busybox.Archival.HuftLists
import Busybox.Archival.InflateFrames

/-!
# What `abort_unzip` frees

Between the functions of the inflater the two tables are lists of their own. A table is
stored before it is checked, so an abort for a bad code set is one that frees a pointer with
its lowest bit set.
-/

namespace Busybox.Archival.Gunzip

open CodeLengths LinkedHeap Triples

variable {tables : Tables} {b : List Nat}

/-- NULL, or a live table that `huft_build` has returned, without the error bit. -/
def Freeable (tables : Tables) (p : Pointer) : Prop :=
  p = .null ∨ p.badHuft = false ∧
    ∃ id, p.table = some id ∧ id ∈ tables.built ∧ (get tables.heap id).isSome

/-- Both pointers can be freed, the second one after the first. -/
def Frees (tables : Tables) : Prop :=
  Freeable tables tables.tl ∧ Freeable tables tables.td ∧ (huftFreeAll tables).isSome

/-- The dynamic blocks have described no bad code set. -/
def Described (tables : Tables) : Prop := ∀ set ∈ tables.codeSets, ¬ BadSet set

/-- The tables can be freed exactly if no bad code set has been described. -/
def Verdict (tables : Tables) : Prop := Frees tables ↔ Described tables

/-! ## Lists of tables -/

/-- The tables of a list that `huft_build` has returned. -/
structure Owns (tables : Tables) (p : Pointer) (ids : List Nat) : Prop where
  chain : Chain Table.link tables.heap p.table ids
  built : ∀ id, p.table = some id → id ∈ tables.built

/-- Both lists, which share no table. -/
def Owned (tables : Tables) : Prop :=
  ∃ ls ds, Owns tables tables.tl ls ∧ Owns tables tables.td ds ∧ ∀ id ∈ ls, id ∉ ds

/-- The tables between the functions of the inflater. -/
structure Good (tables : Tables) : Prop where
  owned : Owned tables
  tl : tables.tl.badHuft = false
  td : tables.td.badHuft = false
  described : Described tables

/-- The same without `inflate_codes_tl`, which may have been freed. -/
structure Half (tables : Tables) : Prop where
  owned : ∃ ds, Owns tables tables.td ds
  td : tables.td.badHuft = false
  described : Described tables

theorem Good.half (good : Good tables) : Half tables := by
  obtain ⟨_, ds, _, owns, _⟩ := good.owned
  exact ⟨⟨ds, owns⟩, good.td, good.described⟩

theorem Owns.freeable {p : Pointer} {ids : List Nat} (owns : Owns tables p ids)
    (untagged : p.badHuft = false) : Freeable tables p := by
  obtain ⟨table, badHuft⟩ := p
  cases untagged
  cases table with
  | none => exact .inl rfl
  | some id =>
    refine .inr ⟨rfl, id, rfl, owns.built id rfl, ?_⟩
    cases owns.chain with
    | cons found _ _ => exact Option.isSome_of_eq_some found

/-- A list stays where the links of its tables do. -/
theorem Owns.later {tables' : Tables} {p : Pointer} {ids : List Nat} (owns : Owns tables p ids)
    (links : ∀ id ∈ ids, linkOf tables'.heap id = linkOf tables.heap id)
    (built : ∀ id ∈ tables.built, id ∈ tables'.built) : Owns tables' p ids :=
  ⟨owns.chain.congr _ links, fun id first => built id (owns.built id first)⟩

/-- Both lists can be freed. -/
theorem Good.freed (good : Good tables) :
    ∃ heap, huftFreeAll tables = some { tables with heap, tl := .null, td := .null } := by
  obtain ⟨ls, ds, tl, td, apart⟩ := good.owned
  obtain ⟨heap, freed, -, others⟩ := tl.chain.freed
  have td' := td.chain.congr heap fun id inside => by
    rw [others id fun first => apart id first inside]
  obtain ⟨heap', freed', -, -⟩ := td'.freed
  refine ⟨heap', ?_⟩
  unfold huftFreeAll huftFree
  simp only [good.tl, good.td, Bool.false_eq_true, if_false, freed, Option.bind_eq_bind,
    Option.bind_some, freed']

theorem Good.verdict (good : Good tables) : Verdict tables := by
  obtain ⟨ls, ds, tl, td, -⟩ := good.owned
  obtain ⟨heap, freed⟩ := good.freed
  exact iff_of_true ⟨tl.freeable good.tl, td.freeable good.td, by rw [freed]; rfl⟩ good.described

theorem not_freeable {p : Pointer} (tagged : p.badHuft = true) : ¬ Freeable tables p := by
  rintro (rfl | ⟨untagged, -⟩)
  · cases tagged
  · rw [tagged] at untagged
    cases untagged

/-! ## Tables that have not been checked -/

/-- The last code set that has been described is this one, and the others were not bad. -/
def Pending (b : List Nat) (tables : Tables) : Prop :=
  ∃ sets, tables.codeSets = b :: sets ∧ ∀ set ∈ sets, ¬ BadSet set

theorem Pending.described (pending : Pending b tables) (good : ¬ BadSet b) : Described tables := by
  obtain ⟨sets, same, others⟩ := pending
  intro set inside
  rw [same] at inside
  rcases List.mem_cons.mp inside with rfl | inside
  · exact good
  · exact others set inside

/-- For a bad code set both are false. -/
theorem Pending.verdict (pending : Pending b tables) (bad : BadSet b) (kept : ¬ Frees tables) :
    Verdict tables := by
  obtain ⟨sets, same, -⟩ := pending
  refine iff_of_false kept fun described => described b ?_ bad
  rw [same]
  exact List.mem_cons_self

/-- A new first list is apart from the second one. -/
theorem Half.withTl (owned : ∃ ds, Owns tables tables.td ds) {made : Built}
    (fresh : Made tables.heap made) : Owned (tables.withTl made) := by
  obtain ⟨ds, td⟩ := owned
  obtain ⟨ids, chain, new⟩ := fresh.chain
  refine ⟨ids, ds, ⟨chain, fun id first => ?_⟩, td.later (fun id inside => ?_) fun id inside => ?_,
    fun id first inside => ?_⟩
  · exact List.mem_append_left _ (by rw [show made.result.table = some id from first]; simp)
  · exact fresh.older id (td.chain.lt inside)
  · exact List.mem_append_right _ inside
  · have := td.chain.lt inside
    have := new id first
    omega

/-- A new second list is apart from the first one. -/
theorem Owned.withTd (owned : Owned tables) {made : Built} (fresh : Made tables.heap made) :
    Owned (tables.withTd made) := by
  obtain ⟨ls, -, tl, -, -⟩ := owned
  obtain ⟨ids, chain, new⟩ := fresh.chain
  refine ⟨ls, ids, tl.later (fun id inside => ?_) fun id inside => ?_,
    ⟨chain, fun id first => ?_⟩, fun id inside second => ?_⟩
  · exact fresh.older id (tl.chain.lt inside)
  · exact List.mem_append_right _ inside
  · exact List.mem_append_left _ (by rw [show made.result.table = some id from first]; simp)
  · have := tl.chain.lt inside
    have := new id second
    omega

/-- Clearing the error bit changes no list. -/
theorem Owned.cleared (owned : Owned tables) :
    Owned { tables with td := { tables.td with badHuft := false } } := by
  obtain ⟨ls, ds, tl, td, apart⟩ := owned
  exact ⟨ls, ds, ⟨tl.chain, tl.built⟩, ⟨td.chain, td.built⟩, apart⟩

/-! ## Runs -/

/-- An abort leaves the tables so that they can be freed exactly if no bad code set has been
described. -/
def Aborts (e : Leave) (s : State) : Prop := e = .abort → Verdict s.tables

abbrev Runs {α : Type} (before : Tables → Prop) (x : M α) (value : α → Prop)
    (after : Tables → Prop) : Prop :=
  Triple (fun s => before s.tables) x (fun a s => value a ∧ after s.tables) Aborts

section Runs

variable {α β : Type} {before between after : Tables → Prop} {x : M α} {f : α → M β}
  {value : α → Prop} {result : β → Prop}

theorem Runs.bind (first : Runs before x value between)
    (second : ∀ a, value a → Runs between (f a) result after) :
    Runs before (x >>= f) result after := by
  apply Triple.bind first
  rintro a s ⟨holds, tables⟩
  exact second a holds s tables

theorem Runs.pure {a : α} (holds : value a) : Runs before (Pure.pure a : M α) value before :=
  fun _ tables => ⟨holds, tables⟩

theorem Runs.get_bind {f : State → M β} (rest : ∀ s, Runs before (f s) result after) :
    Runs before (get >>= f) result after :=
  fun s tables => rest s s tables

/-- What leaves the tables alone can be aborted where they are good. -/
theorem Runs.of_keeps (keeps : ∀ tables, Keeps tables x value) : Runs Good x value Good :=
  Frames.triple keeps fun _ _ good _ => good.verdict

theorem Runs.modify_bind {g : State → State} {f : PUnit → M β}
    (same : ∀ s, (g s).tables = s.tables) (rest : Runs before (f ⟨⟩) result after) :
    Runs before (modify g >>= f) result after :=
  fun s tables => rest (g s) (show before (g s).tables from (same s).symm ▸ tables)

theorem Runs.of_modify {g : State → State}
    (holds : ∀ s, before s.tables → after (g s).tables) :
    Runs before (modify g) (fun _ => True) after :=
  fun s tables => ⟨trivial, holds s tables⟩

end Runs

/-! ## Code sets -/

/-- The second list, and a code set that is yet to be made into the first one. -/
structure BeforeTl (b : List Nat) (tables : Tables) : Prop where
  owned : ∃ ds, Owns tables tables.td ds
  td : tables.td.badHuft = false
  pending : Pending b tables

/-- Both lists, the first one made of a code set and not checked. -/
structure UncheckedTl (b : List Nat) (tables : Tables) : Prop where
  owned : Owned tables
  td : tables.td.badHuft = false
  pending : Pending b tables
  tag : tables.tl.badHuft = true ↔ BadSet b

/-- The first list, and a code set that is yet to be made into the second one. -/
structure BeforeTd (b : List Nat) (tables : Tables) : Prop where
  owned : Owned tables
  tl : tables.tl.badHuft = false
  pending : Pending b tables

/-- Both lists, the second one made of a code set and not checked. -/
structure UncheckedTd (b : List Nat) (tables : Tables) : Prop where
  owned : Owned tables
  tl : tables.tl.badHuft = false
  pending : Pending b tables
  tag : tables.td.badHuft = true ↔ BadSet b

theorem describeTl_runs (b : List Nat) : Runs Half (describe b) (fun _ => True) (BeforeTl b) := by
  rintro s ⟨⟨ds, owns⟩, td, described⟩
  exact ⟨trivial, ⟨ds, owns.chain, owns.built⟩, td, _, rfl, described⟩

theorem buildTl_runs (short : Short b) (s : Nat) (cpExt : CpExt) (m : Nat) :
    Runs (BeforeTl b) (buildTl b s cpExt m) (fun _ => True) (UncheckedTl b) := by
  rintro state ⟨owned, td, pending⟩
  exact ⟨trivial, Half.withTl owned (huftBuild_made _ _ _ _ _), td, pending,
    huftBuild_bad _ _ _ _ short⟩

/-- A bad code set is refused with the first pointer tagged. -/
theorem checkTl_runs : Runs (UncheckedTl b) checkTl (fun _ => True) Good := by
  apply Triple.get_bind
  rintro s ⟨owned, td, pending, tag⟩
  split
  case isTrue tagged =>
    apply Triple.throw
    rintro _ rfl _
    exact pending.verdict (tag.mp tagged) fun frees => not_freeable tagged frees.1
  case isFalse untagged =>
    apply Triple.pure
    rintro _ rfl
    have good : ¬ BadSet b := fun bad => untagged (tag.mpr bad)
    exact ⟨trivial, owned, Bool.eq_false_iff.mpr untagged, td, pending.described good⟩

theorem describeTd_runs (b : List Nat) : Runs Good (describe b) (fun _ => True) (BeforeTd b) := by
  rintro s ⟨⟨ls, ds, tl, td, apart⟩, untagged, -, described⟩
  exact ⟨trivial, ⟨ls, ds, ⟨tl.chain, tl.built⟩, ⟨td.chain, td.built⟩, apart⟩, untagged, _, rfl,
    described⟩

theorem buildTd_runs (short : Short b) (s : Nat) (cpExt : CpExt) (m : Nat) :
    Runs (BeforeTd b) (buildTd b s cpExt m) (fun _ => True) (UncheckedTd b) := by
  rintro state ⟨owned, tl, pending⟩
  exact ⟨trivial, owned.withTd (huftBuild_made _ _ _ _ _), tl, pending,
    huftBuild_bad _ _ _ _ short⟩

/-- A bad code set is refused with the second pointer tagged. -/
theorem checkTd_runs : Runs (UncheckedTd b) checkTd (fun _ => True) Good := by
  apply Triple.get_bind
  rintro s ⟨owned, tl, pending, tag⟩
  split
  case isTrue tagged =>
    apply Triple.throw
    rintro _ rfl _
    exact pending.verdict (tag.mp tagged) fun frees => not_freeable tagged frees.2.1
  case isFalse untagged =>
    apply Triple.pure
    rintro _ rfl
    have good : ¬ BadSet b := fun bad => untagged (tag.mpr bad)
    exact ⟨trivial, owned, tl, Bool.eq_false_iff.mpr untagged, pending.described good⟩

theorem inflateCodesSetup_runs (bl bd : Nat) :
    Runs Good (inflateCodesSetup bl bd) (fun _ => True) Good :=
  Runs.of_keeps fun _ => inflateCodesSetup_keeps bl bd

theorem buildLengthTable_runs (short : Short b) :
    Runs Half (buildLengthTable b) (fun _ => True) Good := by
  apply (describeTl_runs b).bind
  intro _ _
  apply (buildTl_runs short _ _ _).bind
  intro bl _
  apply checkTl_runs.bind
  intro _ _
  exact Runs.pure trivial

theorem buildCodeTables_runs {ll : List Nat} (short : Short ll) (nl nd : Nat) :
    Runs Half (buildCodeTables ll nl nd) (fun _ => True) Good := by
  apply (describeTl_runs _).bind
  intro _ _
  apply (buildTl_runs (short.take nl) _ _ _).bind
  intro bl _
  apply checkTl_runs.bind
  intro _ _
  apply (describeTd_runs _).bind
  intro _ _
  apply (buildTd_runs ((short.drop nl).take nd) _ _ _).bind
  intro bd _
  apply checkTd_runs.bind
  intro _ _
  exact inflateCodesSetup_runs bl bd

/-! ## Blocks -/

/-- The table of the code lengths is freed, and the second list is not touched. -/
theorem freeTl_runs : Runs Good freeTl (fun _ => True) Half := by
  apply Triple.get_bind
  rintro s ⟨⟨ls, ds, tl, td, apart⟩, untagged, td_untagged, described⟩
  obtain ⟨heap, freed, -, others⟩ := tl.chain.freed
  have free : huftFree s.tables.heap s.tables.tl = some heap := by
    rw [huftFree, untagged]
    exact freed
  have links : ∀ id ∈ ds, linkOf heap id = linkOf s.tables.heap id := by
    intro id inside
    rw [linkOf, others id fun first => apart id first inside]
    rfl
  rw [free]
  exact Triple.set _ ⟨trivial, ⟨ds, td.chain.congr _ links, td.built⟩, td_untagged, described⟩

/-- All tables are freed at the end of a block. -/
theorem freeTables_runs : Runs Good freeTables (fun _ => True) Good := by
  apply Triple.get_bind
  intro s good
  obtain ⟨heap, freed⟩ := good.freed
  rw [freed]
  exact Triple.set _
    ⟨trivial, ⟨[], [], ⟨.nil, nofun⟩, ⟨.nil, nofun⟩, nofun⟩, rfl, rfl, good.described⟩

theorem fixedLengths_short : Short fixedLengths :=
  (((Short.replicate 144 (by decide)).append (Short.replicate 112 (by decide))).append
    (Short.replicate 24 (by decide))).append (Short.replicate 8 (by decide))

/-- The literal/length codes of a fixed block are a complete set. -/
theorem fixedLengths_good : ¬ BadSet fixedLengths := by
  have complete : occupied fixedLengths bmax = 2 ^ bmax := by
    rw [fixedLengths, occupied_append, occupied_append, occupied_append,
      occupied_replicate 144 (by decide) (by decide),
      occupied_replicate 112 (by decide) (by decide), occupied_replicate 24 (by decide) (by decide),
      occupied_replicate 8 (by decide) (by decide)]
    decide
  rw [BadSet, Oversubscribed, Incomplete, complete]
  simp only [Nat.lt_irrefl, false_and, or_self, not_false_eq_true]

theorem clearTd_runs : Runs
    (fun tables => Owned tables ∧ tables.tl.badHuft = false ∧ Described tables) clearTd
    (fun _ => True) Good := by
  rintro s ⟨owned, tl, described⟩
  exact ⟨trivial, owned.cleared, tl, rfl, described⟩

/-- A code set that is not bad needs no check. -/
theorem buildTl_good (short : Short b) (good : ¬ BadSet b) (s : Nat) (cpExt : CpExt) (m : Nat) :
    Runs Good (buildTl b s cpExt m) (fun _ => True) Good := by
  intro state tables
  refine ⟨trivial, Half.withTl tables.half.owned (huftBuild_made _ _ _ _ _), ?_, tables.td,
    tables.described⟩
  exact Bool.eq_false_iff.mpr fun tagged => good ((huftBuild_bad _ _ _ _ short).mp tagged)

theorem buildTd_unchecked (b : List Nat) (s : Nat) (cpExt : CpExt) (m : Nat) :
    Runs Good (buildTd b s cpExt m) (fun _ => True) fun tables =>
      Owned tables ∧ tables.tl.badHuft = false ∧ Described tables := by
  intro state good
  exact ⟨trivial, good.owned.withTd (huftBuild_made _ _ _ _ _), good.tl, good.described⟩

/-- A fixed block has code sets of its own: the first one is not bad, and the error bit of the
second one is cleared. -/
theorem fixedBlock_runs : Runs Good fixedBlock (fun _ => True) Good := by
  apply (buildTl_good fixedLengths_short fixedLengths_good _ _ _).bind
  intro bl _
  apply (buildTd_unchecked _ _ _ _).bind
  intro bd _
  apply clearTd_runs.bind
  intro _ _
  apply (inflateCodesSetup_runs bl bd).bind
  intro _ _
  exact Runs.pure trivial

theorem dynamicBlock_runs : Runs Good dynamicBlock (fun _ => True) Good := by
  apply Runs.get_bind
  intro s
  apply (Runs.of_keeps fun _ => takeBits_keeps 5 s.bits).bind
  rintro ⟨nl, bits⟩ _
  apply (Runs.of_keeps fun _ => takeBits_keeps 5 bits).bind
  rintro ⟨nd, bits⟩ _
  apply (Runs.of_keeps fun _ => takeBits_keeps 4 bits).bind
  rintro ⟨nb, bits⟩ _
  dsimp only
  split
  case isTrue => exact Runs.of_keeps fun _ => abortUnzip_keeps
  case isFalse =>
    have zeros : Short (List.replicate (286 + 30) 0) := Short.replicate _ (Nat.zero_le _)
    apply (Runs.of_keeps fun _ => readBitLengths_keeps border (4 + nb) bits zeros).bind
    rintro ⟨ll, bits⟩ short
    have nineteen : Runs Good (buildLengthTable (ll.take 19)) (fun _ => True) Good :=
      (buildLengthTable_runs (short.take 19)).imp (fun _ => Good.half) fun _ _ => id
    apply nineteen.bind
    intro bl _
    apply (Runs.of_keeps fun _ => readLengths_keeps bl _ _ 0 bits (Nat.zero_le _) short).bind
    rintro ⟨lengths, bits⟩ short
    apply freeTl_runs.bind
    intro _ _
    refine Runs.modify_bind (fun _ => rfl) ?_
    apply (buildCodeTables_runs short _ _).bind
    intro _ _
    exact Runs.pure trivial

theorem inflateBlock_runs : Runs Good inflateBlock (fun _ => True) Good := by
  apply Runs.get_bind
  intro s
  apply (Runs.of_keeps fun _ => takeBits_keeps 1 s.bits).bind
  rintro ⟨last, bits⟩ _
  refine Runs.modify_bind (fun _ => rfl) ?_
  apply (Runs.of_keeps fun _ => takeBits_keeps 2 bits).bind
  rintro ⟨t, bits⟩ _
  refine Runs.modify_bind (fun _ => rfl) ?_
  split
  · exact Runs.of_keeps fun _ => storedBlock_keeps
  · exact fixedBlock_runs
  · exact dynamicBlock_runs
  · exact Runs.of_keeps fun _ => abortUnzip_keeps

/-! ## Data -/

theorem endBlock_runs (bits : Bits) : Runs Good (endBlock bits) (fun _ => True) Good := by
  apply Triple.get_bind
  intro s good
  refine Triple.bind (Triple.set (fun s => Good s.tables) good) fun _ => ?_
  exact freeTables_runs

theorem codesLoop_runs (turns : Nat) : Runs Good (codesLoop turns) (fun _ => True) Good := by
  induction turns with
  | zero => exact fun _ _ => nofun
  | succ turns ih =>
    apply Runs.get_bind
    intro s
    apply (Runs.of_keeps fun _ => decode_keeps _ _ _ _ turns).bind
    rintro ⟨t, bits⟩ _
    dsimp only
    split
    · apply (Runs.of_keeps fun _ => number_keeps t).bind
      intro value _
      apply (Runs.of_keeps fun _ => putLiteral_keeps value bits).bind
      intro full _
      split
      · exact Runs.pure trivial
      · exact ih
    · split
      · apply (endBlock_runs bits).bind
        intro _ _
        exact Runs.pure trivial
      · apply (Runs.of_keeps fun _ => copyString_keeps t bits turns).bind
        intro full _
        split
        · exact Runs.pure trivial
        · exact ih

theorem inflateCodes_runs (turns : Nat) : Runs Good (inflateCodes turns) (fun _ => True) Good := by
  apply Runs.get_bind
  intro s
  split
  · apply (Runs.of_keeps fun _ => doCopy_keeps turns).bind
    intro full _
    split
    · exact Runs.pure trivial
    · exact codesLoop_runs turns
  · exact codesLoop_runs turns

theorem nextBlock_runs : Runs Good nextBlock (fun _ => True) Good := by
  apply Runs.get_bind
  intro s
  split
  · apply inflateBlock_runs.bind
    intro method _
    exact Runs.of_modify fun _ good => good
  · exact Runs.pure trivial

theorem inflateData_runs (turns : Nat) : Runs Good (inflateData turns) (fun _ => True) Good := by
  apply Runs.get_bind
  intro s
  split
  · exact Runs.of_keeps fun _ => inflateStored_keeps _
  · exact inflateCodes_runs turns

theorem windowLoop_runs (turns : Nat) : Runs Good (windowLoop turns) (fun _ => True) Good := by
  induction turns with
  | zero => exact fun _ _ => nofun
  | succ turns ih =>
    apply Triple.get_bind
    intro s good
    split
    · exact Triple.bind (Triple.set (fun s => Good s.tables) good) fun _ =>
        Triple.pure fun _ good => ⟨trivial, good⟩
    · refine Triple.imp (Runs.bind nextBlock_runs fun _ _ => ?_) (fun _ same => same ▸ good)
        fun _ _ => id
      apply (inflateData_runs turns).bind
      intro full _
      split
      · exact Runs.pure trivial
      · exact Runs.modify_bind (fun _ => rfl) ih

theorem inflateGetNextWindow_runs (turns : Nat) :
    Runs Good (inflateGetNextWindow turns) (fun _ => True) Good :=
  Runs.modify_bind (fun _ => rfl) (windowLoop_runs turns)

theorem undoLookahead_tables (s : State) : (undoLookahead s).tables = s.tables := by
  unfold undoLookahead
  split <;> rfl

theorem unzipLoop_runs (accepts : List UInt8 → Bool) (turns : Nat) :
    Runs Good (unzipLoop accepts turns) (fun _ => True) Good := by
  induction turns with
  | zero => exact fun _ _ => nofun
  | succ turns ih =>
    apply (inflateGetNextWindow_runs turns).bind
    intro more _
    apply Triple.get_bind
    intro s good
    refine Triple.bind (Triple.set (fun s => Good s.tables) good) fun _ => ?_
    split
    · exact Runs.pure trivial
    · split
      · exact ih
      · exact Runs.modify_bind undoLookahead_tables (Runs.pure trivial)

theorem inflateUnzipInternal_runs (accepts : List UInt8 → Bool) (turns : Nat) :
    Runs Good (inflateUnzipInternal accepts turns) (fun _ => True) Good :=
  Runs.modify_bind (fun _ => rfl) (unzipLoop_runs accepts turns)

/-! ## Every run -/

/-- No table has been made. -/
def Tables.empty : Tables := ⟨[], .null, .null, [], []⟩

/-- The states in which `inflate_unzip_internal` is called: a new one, or after another member of
the same file, of whatever input. -/
inductive Reached (accepts : List UInt8 → Bool) : State → Prop
  | new {s : State} (fresh : s.tables = .empty) : Reached accepts s
  | next {s s' s'' : State} {turns : Nat} (reached : Reached accepts s)
      (unzipped : inflateUnzipInternal accepts turns s = .ok true s')
      (same : s''.tables = s'.tables) : Reached accepts s''

theorem empty_good : Good .empty :=
  ⟨⟨[], [], ⟨.nil, nofun⟩, ⟨.nil, nofun⟩, nofun⟩, rfl, rfl, nofun⟩

theorem Reached.good {accepts : List UInt8 → Bool} {s : State} (reached : Reached accepts s) :
    Good s.tables := by
  induction reached with
  | new fresh => exact fresh ▸ empty_good
  | @next s s' s'' turns _ unzipped same ih =>
    have runs := inflateUnzipInternal_runs accepts turns s ih
    rw [unzipped] at runs
    exact same ▸ runs.2

/-- Where `abort_unzip` is called, both pointers can be freed exactly if no dynamic block has
described a bad code set. -/
theorem abort_frees_iff (accepts : List UInt8 → Bool) (turns : Nat) {s s' : State}
    (reached : Reached accepts s)
    (aborts : inflateUnzipInternal accepts turns s = .error .abort s') :
    Frees s'.tables ↔ ∀ set ∈ s'.tables.codeSets, ¬ BadSet set := by
  have runs := inflateUnzipInternal_runs accepts turns s reached.good
  rw [aborts] at runs
  exact runs rfl

/-- A new state, with some bytes of input in the buffer. -/
def State.new (bytes : List UInt8) : State where
  input := ⟨bytes ++ List.replicate (bytebufferMax - bytes.length) 0, 0, bytes.length, []⟩
  toRead := none
  errorMsg := ""
  window := []
  outbufCount := 0
  bits := ⟨0, 0⟩
  tables := .empty
  ml := 0
  md := 0
  bl := 0
  bd := 0
  codes := ⟨0, 0⟩
  w := 0
  nn := 0
  dd := 0
  resumeCopy := false
  method := .stored
  needAnotherBlock := true
  endReached := false
  storedN := 0
  stored := ⟨0, 0⟩
  storedW := 0
  written := []

/-- The state in which a run calls `abort_unzip`. -/
def abortedIn : EStateM.Result Leave State Bool → Option State
  | .error .abort s => some s
  | _ => none

theorem abortedIn_some {result : EStateM.Result Leave State Bool} {s : State}
    (aborted : abortedIn result = some s) : result = .error .abort s := by
  unfold abortedIn at aborted
  split at aborted
  · rw [Option.some.inj aborted]
  · cases aborted

/-- A dynamic block with three code length codes of one bit. -/
def threeCodes : List UInt8 := [5, 0, 146, 0]

theorem threeCodes_aborts : ∃ s,
    inflateUnzipInternal (fun _ => true) 2 (.new threeCodes) = .error .abort s ∧
      s.tables.tl = .errRet := by
  have checked : (abortedIn (inflateUnzipInternal (fun _ => true) 2 (.new threeCodes))).map
      (·.tables.tl) = some .errRet := by
    decide +kernel
  obtain ⟨s, aborted, tagged⟩ := Option.map_eq_some_iff.mp checked
  exact ⟨s, abortedIn_some aborted, tagged⟩

theorem abort_frees_iff_threeCodes : ∃ s,
    inflateUnzipInternal (fun _ => true) 2 (.new threeCodes) = .error .abort s ∧
      (Frees s.tables ↔ ∀ set ∈ s.tables.codeSets, ¬ BadSet set) := by
  obtain ⟨s, aborts, -⟩ := threeCodes_aborts
  exact ⟨s, aborts, abort_frees_iff _ 2 (.new rfl) aborts⟩

/-- Three codes of one bit are more than there can be, and `ERR_RET` is freed. -/
theorem abort_frees_errRet : ¬ ∀ accepts turns s s', Reached accepts s →
    inflateUnzipInternal accepts turns s = .error .abort s' → Frees s'.tables := by
  intro frees
  obtain ⟨s, aborts, tagged⟩ := threeCodes_aborts
  have freeable := (frees _ 2 _ s (.new rfl) aborts).1
  rw [tagged] at freeable
  exact not_freeable rfl freeable

end Busybox.Archival.Gunzip
