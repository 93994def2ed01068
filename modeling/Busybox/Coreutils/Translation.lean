import Busybox.Coreutils.TrSets
import Busybox.Lib.Runs

/-!
# What tr writes

The loop remembers the last character it has written across reads. That is always the last one
that the input has been mapped to, squeezed or not.
-/

namespace Busybox.Coreutils.Tr

open Fallible (ok_bind error_bind)
open Libbb.Xatonum (Text)
open Runs (squeeze squeezeFrom squeezeFrom_append squeezeFrom_false squeezeFrom_none)

/-! ## What is asked for -/

/-- `SET2` with its last character repeated behind it. -/
def padded (count : Nat) (set2 : List UInt8) : List UInt8 :=
  set2 ++ set2.getLast?.elim [] fun last => List.replicate (count - set2.length) last

/-- The partner of a character in `SET1`, of the last one if it is there more than once. -/
def partner (set1 set2 : List UInt8) (c : UInt8) : UInt8 :=
  ((set1.zip (padded set1.length set2)).reverse.lookup c).getD c

def translate (set1 : List UInt8) : Option (List UInt8) → UInt8 → UInt8
  | none, c => c
  | some set2, c => partner set1 set2 c

/-- Characters are deleted, then mapped, then squeezed. -/
def documented (opts : Options) (set1 : List UInt8) (set2 : Option (List UInt8))
    (input : List UInt8) : List UInt8 :=
  let kept := if opts.delete then input.filter fun c => !set1.contains c else input
  let mapped := kept.map (translate set1 set2)
  if opts.squeezeReps then squeeze (set2.getD set1).contains mapped else mapped

/-! ## The pairs -/

theorem lookup_concat (pairs : List (UInt8 × UInt8)) (v : UInt8 → UInt8) (a b c : UInt8) :
    ((pairs ++ [(a, b)]).lookup c).getD (v c) =
      (pairs.lookup c).getD (Function.update v a b c) := by
  rw [List.lookup_append]
  cases pairs.lookup c with
  | some d => rfl
  | none =>
    by_cases same : c = a
    · subst same
      simp
    · have other : (c == a) = false := beq_eq_false_iff_ne.mpr same
      rw [List.lookup_cons, other, Function.update_of_ne same]
      rfl

theorem mapFrom_eq (last : UInt8) (v : UInt8 → UInt8) (set1 set2 : List UInt8) (c : UInt8) :
    mapFrom last v set1 set2 c =
      ((set1.zip (set2 ++ List.replicate (set1.length - set2.length)
        (set2.getLastD last))).reverse.lookup c).getD (v c) := by
  induction set1 generalizing last v set2 with
  | nil => rfl
  | cons a set1 ih =>
    cases set2 with
    | nil =>
      rw [mapFrom, ih, List.nil_append, List.nil_append]
      simp only [List.length_nil, Nat.sub_zero, List.length_cons, List.replicate_succ,
        List.zip_cons_cons, List.reverse_cons, List.getLastD_nil]
      exact (lookup_concat _ v a last c).symm
    | cons b set2 =>
      rw [mapFrom, ih]
      simp only [List.length_cons, Nat.add_sub_add_right, List.cons_append, List.zip_cons_cons,
        List.reverse_cons, List.getLastD_cons]
      exact (lookup_concat _ v a b c).symm

/-- A set of some characters is paired as it is meant. -/
theorem map_eq (set1 : List UInt8) {set2 : List UInt8} (nonempty : set2 ≠ []) :
    map id set1 set2 = partner set1 set2 := by
  funext c
  rw [map, mapFrom_eq, partner, padded, List.getLast?_eq_getLast_of_ne_nil nonempty,
    List.getLastD_eq_getLast?, List.getLast?_eq_getLast_of_ne_nil nonempty]
  rfl

theorem padded_mem {count : Nat} {set2 : List UInt8} {d : UInt8} (mem : d ∈ padded count set2) :
    d ∈ set2 := by
  rcases List.mem_append.mp mem with mem | mem
  · exact mem
  · cases isLast : set2.getLast? with
    | none =>
      rw [isLast] at mem
      cases mem
    | some last =>
      rw [isLast] at mem
      rw [List.eq_of_mem_replicate mem]
      exact List.mem_of_getLast? isLast

theorem padded_length (count : Nat) {set2 : List UInt8} (nonempty : set2 ≠ []) :
    count ≤ (padded count set2).length := by
  rw [padded, List.getLast?_eq_getLast_of_ne_nil nonempty, List.length_append]
  simp only [Option.elim_some, List.length_replicate]
  omega

/-- What a character of `SET1` is mapped to is in `SET2`. -/
theorem partner_mem {set1 set2 : List UInt8} (nonempty : set2 ≠ []) {c : UInt8} (mem : c ∈ set1) :
    partner set1 set2 c ∈ set2 := by
  have firsts : (set1.zip (padded set1.length set2)).map Prod.fst = set1 :=
    List.map_fst_zip (padded_length _ nonempty)
  rw [← firsts, List.mem_map] at mem
  obtain ⟨pair, isPair, isFirst⟩ := mem
  cases found : (set1.zip (padded set1.length set2)).reverse.lookup c with
  | none =>
    have other := List.lookup_eq_none_iff.mp found pair (List.mem_reverse.mpr isPair)
    rw [isFirst, bne_self_eq_false] at other
    cases other
  | some d =>
    obtain ⟨before, behind, whole, -⟩ := List.lookup_eq_some_iff.mp found
    have isPair : (c, d) ∈ set1.zip (padded set1.length set2) := by
      rw [← List.mem_reverse, whole]
      exact List.mem_append_right _ List.mem_cons_self
    rw [partner, found]
    exact padded_mem (List.of_mem_zip isPair).2

/-! ## The loop -/

/-- `last` is no character before the first one is written. -/
def lastOf (last : Option UInt8) : Nat := last.elim 256 UInt8.toNat

theorem lastOf_eq_toNat {last : Option UInt8} {coded : UInt8} :
    lastOf last = coded.toNat ↔ last = some coded := by
  cases last with
  | none => simpa [lastOf] using Nat.ne_of_gt coded.toNat_lt
  | some last => simp [lastOf, UInt8.toNat_inj]

/-- What the input is mapped to. -/
def mapped (opts : Options) (t : Tables) (input : List UInt8) : List UInt8 :=
  (input.filter fun c => !(opts.delete && t.invec c)).map t.vector

/-- The characters that are squeezed can be told from what is written alone. -/
def Agrees (opts : Options) (t : Tables) (set : UInt8 → Bool) : Prop :=
  ∀ c, (opts.delete && t.invec c) = false →
    (set (t.vector c) = true ↔
      opts.squeezeReps = true ∧ (t.invec c = true ∨ t.outvec (t.vector c) = true))

theorem chunkLoop_eq {opts : Options} {t : Tables} {set : UInt8 → Bool} (agrees : Agrees opts t set)
    (input : List UInt8) {last : Option UInt8} {out : List UInt8}
    (room : out.length + input.length ≤ TR_BUFSIZ) :
    chunkLoop opts t (lastOf last) out input =
      .ok (lastOf ((mapped opts t input).getLast?.or last),
        out ++ squeezeFrom set last (mapped opts t input)) := by
  induction input generalizing last out with
  | nil => simp [chunkLoop, mapped, squeezeFrom]
  | cons c input ih =>
    rw [List.length_cons] at room
    rw [chunkLoop]
    by_cases deleted : opts.delete = true ∧ t.invec c = true
    · have none : mapped opts t (c :: input) = mapped opts t input := by
        rw [mapped, List.filter_cons_of_neg (by simp [deleted]), mapped]
      rw [if_pos deleted, none]
      exact ih (by omega)
    · have kept : (opts.delete && t.invec c) = false := by
        rw [Bool.and_eq_false_iff]
        grind
      have one : mapped opts t (c :: input) = t.vector c :: mapped opts t input := by
        rw [mapped, List.filter_cons_of_pos (by simp [kept]), List.map_cons, mapped]
      have left : (t.vector c :: mapped opts t input).getLast?.or last =
          (mapped opts t input).getLast?.or (some (t.vector c)) := by
        rw [List.getLast?_cons]
        cases (mapped opts t input).getLast? <;> rfl
      rw [if_neg deleted, one, left, squeezeFrom]
      by_cases again : last = some (t.vector c) ∧ set (t.vector c) = true
      · obtain ⟨squeezed, inSet⟩ := (agrees c kept).mp again.2
        rw [if_pos again, if_pos ⟨squeezed, lastOf_eq_toNat.mpr again.1, inSet⟩, ← again.1]
        exact ih (by omega)
      · have fresh : ¬(opts.squeezeReps = true ∧ lastOf last = (t.vector c).toNat ∧
            (t.invec c = true ∨ t.outvec (t.vector c) = true)) := fun both =>
          again ⟨lastOf_eq_toNat.mp both.2.1, (agrees c kept).mpr ⟨both.1, both.2.2⟩⟩
        have next : chunkLoop opts t (lastOf (some (t.vector c))) (out ++ [t.vector c]) input = _ :=
          ih (by
            rw [List.length_append, List.length_singleton]
            omega)
        rw [if_neg again, if_neg fresh, if_pos (by omega)]
        rw [List.append_assoc] at next
        exact next

theorem readLoop_eq {opts : Options} {t : Tables} {set : UInt8 → Bool} (agrees : Agrees opts t set)
    (chunks : List Chunk) (last : Option UInt8) (written : List UInt8) :
    readLoop opts t (lastOf last) written (chunks.map some) =
      .ok (written ++ squeezeFrom set last (mapped opts t (chunks.map Subtype.val).flatten)) := by
  induction chunks generalizing last written with
  | nil => simp [readLoop, mapped, squeezeFrom]
  | cons chunk chunks ih =>
    have whole : mapped opts t ((chunk :: chunks).map Subtype.val).flatten =
        mapped opts t chunk.1 ++ mapped opts t (chunks.map Subtype.val).flatten := by
      rw [List.map_cons, List.flatten_cons, mapped, List.filter_append, List.map_append]
      rfl
    rw [List.map_cons, readLoop, chunkLoop_eq agrees chunk.1 (by simpa using chunk.2.2), ok_bind,
      whole, squeezeFrom_append, ← List.append_assoc]
    exact ih _ _

/-! ## The command -/

/-- Strings that are accepted, and the sets they are expanded to. -/
structure Command where
  opts : Options
  string1 : Text
  string2 : Option Text
  set1 : List UInt8
  set2 : Option (List UInt8)
  expanded1 : expansion string1 = some set1
  expanded2 : string2.map expansion = set2.map some
  nonempty : set2 ≠ some []

/-- `SET1`, or the other characters. -/
def Command.coded (command : Command) : List UInt8 :=
  if command.opts.complement then complement command.set1 else command.set1

/-- The tables for the sets. -/
def Command.tables (command : Command) : Tables where
  vector := translate command.coded command.set2
  invec := command.coded.contains
  outvec := (command.set2.getD []).contains

def Command.squeezed (command : Command) (c : UInt8) : Bool :=
  command.opts.squeezeReps && (command.set2.getD command.coded).contains c

/-- A character that is coded is mapped into `SET2`, or to itself without one. -/
theorem Command.agrees (command : Command) :
    Agrees command.opts command.tables command.squeezed := by
  intro c _
  rw [squeezed, Bool.and_eq_true]
  refine and_congr_right fun _ => ?_
  simp only [tables]
  cases isSet : command.set2 with
  | none => simp [translate]
  | some set2 =>
    have nonempty : set2 ≠ [] := fun empty => command.nonempty (by rw [isSet, empty])
    simp only [Option.getD_some, translate]
    constructor
    · exact .inr
    · rintro (isCoded | isOut)
      · exact List.contains_iff_mem.mpr
          (partner_mem nonempty (List.contains_iff_mem.mp isCoded))
      · exact isOut

theorem Command.pairing_eq (command : Command) :
    pairing command.coded command.string2 =
      .ok (translate command.coded command.set2, command.set2.getD []) := by
  have expanded := command.expanded2
  have nonempty := command.nonempty
  cases isString : command.string2 with
  | none =>
    rw [isString] at expanded
    rw [Option.map_eq_none_iff.mp expanded.symm]
    rfl
  | some string2 =>
    rw [isString] at expanded
    cases isSet : command.set2 with
    | none =>
      rw [isSet] at expanded
      cases expanded
    | some set2 =>
      rw [isSet] at expanded nonempty
      have read : expansion string2 = some set2 := Option.some.inj expanded
      have someChar : set2 ≠ [] := fun empty => nonempty (congrArg some empty)
      cases string2 with
      | nil =>
        rw [expansion, items] at read
        exact absurd (Option.some.inj read).symm someChar
      | cons c string2 =>
        rw [pairing, expand_eq, read, ok_bind, map_eq _ someChar]
        · rfl
        · simp

theorem Command.mapped_eq (command : Command) (input : List UInt8) :
    mapped command.opts command.tables input =
      (if command.opts.delete then input.filter fun c => !command.coded.contains c
        else input).map (translate command.coded command.set2) := by
  cases isDelete : command.opts.delete with
  | false => simp [mapped, tables, isDelete]
  | true => simp [mapped, tables, isDelete]

/-- What is written depends neither on the reads nor on the buffers. -/
theorem trMain_documented :
    (∀ string, expand string =
      match expansion string with
      | none => .error .usage
      | some set => .ok set) ∧
    ∀ (command : Command) (chunks : List Chunk),
      trMain command.opts command.string1 command.string2 (chunks.map some) =
        .ok (documented command.opts command.coded command.set2
          (chunks.map Subtype.val).flatten) := by
  refine ⟨expand_eq, fun command chunks => ?_⟩
  have read := readLoop_eq command.agrees chunks none []
  have written : documented command.opts command.coded command.set2
      (chunks.map Subtype.val).flatten =
        squeezeFrom command.squeezed none
          (mapped command.opts command.tables (chunks.map Subtype.val).flatten) := by
    rw [documented, command.mapped_eq]
    cases isSqueeze : command.opts.squeezeReps with
    | false =>
      have none : command.squeezed = fun _ => false := by
        funext c
        rw [Command.squeezed, isSqueeze, Bool.false_and]
      rw [none, squeezeFrom_false]
      rfl
    | true =>
      have all : command.squeezed = (command.set2.getD command.coded).contains := by
        funext c
        rw [Command.squeezed, isSqueeze, Bool.true_and]
      rw [all, squeezeFrom_none]
      rfl
  rw [trMain, expand_eq, command.expanded1, ok_bind]
  simp only
  rw [← Command.coded, command.pairing_eq, ok_bind, written]
  exact read

/-! ## Strings that are refused -/

/-- An empty second string is refused, though it stands for a set. -/
theorem trMain_empty :
    ¬∀ (opts : Options) (string1 string2 : Text) (set1 set2 : List UInt8) (chunks : List Chunk),
      expansion string1 = some set1 → expansion string2 = some set2 →
      trMain opts string1 (some string2) (chunks.map some) =
        .ok (documented opts (if opts.complement then complement set1 else set1) (some set2)
          (chunks.map Subtype.val).flatten) := by
  intro all
  have empty : expansion [] = some [] := by rw [expansion, items]; rfl
  have written := all ⟨false, false, false⟩ [] [] [] [] [] empty empty
  rw [trMain, expand_eq, empty] at written
  cases written

end Busybox.Coreutils.Tr
