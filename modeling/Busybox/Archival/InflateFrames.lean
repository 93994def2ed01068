import Busybox.Archival.Inflate
import Busybox.Lib.Triples

/-!
# Parts of the inflater that leave the tables alone
-/

namespace Busybox.Archival.Gunzip

open Reading Triples

variable {tables : Tables} {bits : Bits}

/-- The tables are as they were, also where the computation is left. -/
abbrev Keeps {α : Type} (tables : Tables) (x : M α) (value : α → Prop) : Prop :=
  Frames State.tables tables x value

theorem abortUnzip_keeps {α : Type} {value : α → Prop} :
    Keeps tables (abortUnzip : M α) value :=
  Frames.throw

theorem refill_keeps : Keeps tables refill fun _ => True := by
  unfold refill
  apply Frames.get_bind
  intro s same
  split
  · split
    · exact Frames.set same
    · exact Frames.set_bind same abortUnzip_keeps
  · exact Frames.pure trivial

theorem nextByte_keeps : Keeps tables nextByte fun _ => True := by
  apply refill_keeps.bind
  intro _ _
  apply Frames.get_bind
  intro s same
  exact Frames.set_bind same (Frames.pure trivial)

theorem fillBitbuffer_keeps (required : Nat) (bits : Bits) :
    Keeps tables (fillBitbuffer required bits) fun _ => True := by
  induction bits using fillBitbuffer.induct required with
  | case1 bits more ih =>
    rw [fillBitbuffer, if_pos more]
    apply nextByte_keeps.bind
    intro byte _
    exact ih byte
  | case2 bits enough =>
    rw [fillBitbuffer, if_neg enough]
    exact Frames.pure trivial

/-- A number of `n` bits. -/
theorem takeBits_keeps (n : Nat) (bits : Bits) :
    Keeps tables (takeBits n bits) fun taken => taken.1 < 2 ^ n := by
  apply (fillBitbuffer_keeps n bits).bind
  intro filled _
  apply Frames.pure
  have := Nat.and_le_right (n := filled.b.toNat) (m := maskBits n)
  have := Nat.two_pow_pos n
  unfold Bits.mask maskBits at *
  omega

theorem entryAt_keeps (table : Option Nat) (index : Nat) :
    Keeps tables (entryAt table index) fun _ => True := by
  apply Frames.get_bind
  intro s same
  split
  · exact Frames.throw
  · exact Frames.pure trivial

theorem number_keeps (t : Huft) : Keeps tables t.number fun _ => True := by
  unfold Huft.number
  split
  · exact Frames.pure trivial
  · exact Frames.throw

theorem followTables_keeps (t : Huft) (bits : Bits) (turns : Nat) :
    Keeps tables (followTables t bits turns) fun _ => True := by
  induction turns generalizing t bits with
  | zero => exact Frames.throw
  | succ turns ih =>
    rw [followTables]
    split
    · exact abortUnzip_keeps
    · apply (fillBitbuffer_keeps _ _).bind
      intro bits _
      apply (entryAt_keeps _ _).bind
      intro next _
      split
      · exact ih next bits
      · exact Frames.pure trivial

theorem entryBehind_keeps (p : Pointer) (index : Nat) :
    Keeps tables (entryBehind p index) fun _ => True := by
  unfold entryBehind
  split
  · exact Frames.throw
  · exact entryAt_keeps _ _

theorem decode_keeps (p : Pointer) (width m : Nat) (bits : Bits) (turns : Nat) :
    Keeps tables (decode p width m bits turns) fun _ => True := by
  apply (fillBitbuffer_keeps _ _).bind
  intro bits _
  apply (entryBehind_keeps _ _).bind
  intro t _
  split
  · exact followTables_keeps t bits turns
  · exact Frames.pure trivial

theorem putLiteral_keeps (value : Nat) (bits : Bits) :
    Keeps tables (putLiteral value bits) fun _ => True := by
  apply Frames.get_bind
  intro s same
  dsimp only
  split
  · exact Frames.set_bind same (Frames.pure trivial)
  · exact Frames.set_bind same (Frames.pure trivial)

theorem doCopy_keeps (turns : Nat) : Keeps tables (doCopy turns) fun _ => True := by
  induction turns with
  | zero => exact Frames.throw
  | succ turns ih =>
    apply Frames.get_bind
    intro s same
    dsimp only
    split
    · exact Frames.set_bind same (Frames.pure trivial)
    · split
      · exact Frames.set_bind same ih
      · exact Frames.set_bind same (Frames.pure trivial)

theorem copyString_keeps (t : Huft) (bits : Bits) (turns : Nat) :
    Keeps tables (copyString t bits turns) fun _ => True := by
  apply (number_keeps t).bind
  intro length _
  apply (takeBits_keeps _ _).bind
  intro extra _
  apply Frames.get_bind
  intro s _
  apply (decode_keeps _ _ _ _ _).bind
  intro far _
  apply (number_keeps _).bind
  intro distance _
  apply (takeBits_keeps _ _).bind
  intro more _
  apply Frames.get_bind
  intro s same
  exact Frames.set_bind same (doCopy_keeps turns)

theorem inflateStored_keeps (n : Nat) : Keeps tables (inflateStored n) fun _ => True := by
  induction n with
  | zero =>
    exact Frames.modified_bind (fun _ => rfl) (Frames.pure trivial)
  | succ n ih =>
    apply Frames.get_bind
    intro _ _
    apply (fillBitbuffer_keeps _ _).bind
    intro bits _
    apply Frames.get_bind
    intro s same
    dsimp only
    split
    · exact Frames.set_bind same (Frames.pure trivial)
    · exact Frames.set_bind same ih

theorem inflateCodesSetup_keeps (bl bd : Nat) :
    Keeps tables (inflateCodesSetup bl bd) fun _ => True :=
  Frames.modified fun _ => rfl

theorem storedBlock_keeps : Keeps tables storedBlock fun _ => True := by
  apply Frames.get_bind
  intro s _
  apply (takeBits_keeps _ _).bind
  intro n _
  apply (takeBits_keeps _ _).bind
  rintro ⟨complement, bits⟩ _
  dsimp only
  split
  · exact abortUnzip_keeps
  · exact Frames.modified_bind (fun _ => rfl) (Frames.pure trivial)

/-! ## Code lengths -/

/-- Every length is one that `huft_build` counts. -/
def Short (ll : List Nat) : Prop := ∀ length ∈ ll, length ≤ bmax

theorem Short.set {ll : List Nat} (short : Short ll) (i : Nat) {length : Nat}
    (small : length ≤ bmax) : Short (ll.set i length) := by
  intro other inside
  rcases List.mem_or_eq_of_mem_set inside with inside | rfl
  · exact short other inside
  · exact small

theorem Short.take {ll : List Nat} (short : Short ll) (n : Nat) : Short (ll.take n) :=
  fun length inside => short length (List.mem_of_mem_take inside)

theorem Short.drop {ll : List Nat} (short : Short ll) (n : Nat) : Short (ll.drop n) :=
  fun length inside => short length (List.mem_of_mem_drop inside)

theorem Short.append {front back : List Nat} (first : Short front) (second : Short back) :
    Short (front ++ back) := by
  intro length inside
  rcases List.mem_append.mp inside with inside | inside
  · exact first length inside
  · exact second length inside

theorem Short.replicate (n : Nat) {length : Nat} (small : length ≤ bmax) :
    Short (List.replicate n length) :=
  fun _ inside => (List.eq_of_mem_replicate inside) ▸ small

theorem Short.repeatLength {ll : List Nat} (short : Short ll) (i j : Nat) {l : Nat}
    (small : l ≤ bmax) : Short (repeatLength ll i j l) :=
  ((short.take i).append (Short.replicate j small)).append (short.drop (i + j))

theorem readBitLengths_keeps (border : List Nat) (nb : Nat) {ll : List Nat} (bits : Bits)
    (short : Short ll) :
    Keeps tables (readBitLengths border nb ll bits) fun read => Short read.1 := by
  induction border generalizing nb ll bits with
  | nil => exact Frames.pure short
  | cons place border ih =>
    cases nb with
    | zero => exact ih 0 bits (short.set place (Nat.zero_le _))
    | succ nb =>
      apply (takeBits_keeps _ _).bind
      intro length small
      apply ih nb _ (short.set place ?_)
      exact Nat.le_of_lt (Nat.lt_of_lt_of_le small (by decide))

theorem readLengths_keeps (bl m n i : Nat) {l : Nat} {ll : List Nat} (bits : Bits)
    (small : l ≤ bmax) (short : Short ll) :
    Keeps tables (readLengths bl m n i l ll bits) fun read => Short read.1 := by
  induction left : n - i using Nat.strongRecOn generalizing i l ll bits with
  | _ left ih =>
    rw [readLengths]
    split
    case isFalse => exact Frames.pure short
    case isTrue inside =>
      have none_left : 0 ≤ bmax := Nat.zero_le _
      apply (fillBitbuffer_keeps _ _).bind
      intro bits _
      apply Frames.get_bind
      intro s _
      apply (entryBehind_keeps _ _).bind
      intro td _
      apply (number_keeps _).bind
      intro code _
      split
      · exact ih _ (by omega) _ _ (by unfold bmax; omega) (short.set i (by unfold bmax; omega)) rfl
      · split
        · apply (takeBits_keeps _ _).bind
          rintro ⟨more, bits⟩ _
          dsimp only
          split
          · exact abortUnzip_keeps
          · exact ih _ (by omega) _ _ small (short.repeatLength _ _ small) rfl
        · split
          · apply (takeBits_keeps _ _).bind
            rintro ⟨more, bits⟩ _
            dsimp only
            split
            · exact abortUnzip_keeps
            · exact ih _ (by omega) _ _ none_left (short.repeatLength _ _ none_left) rfl
          · apply (takeBits_keeps _ _).bind
            rintro ⟨more, bits⟩ _
            dsimp only
            split
            · exact abortUnzip_keeps
            · exact ih _ (by omega) _ _ none_left (short.repeatLength _ _ none_left) rfl

end Busybox.Archival.Gunzip
