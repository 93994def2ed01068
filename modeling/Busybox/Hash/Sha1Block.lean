import Busybox.Hash.Main

/-!
# A block of SHA-1

The schedule of eighty words is kept in a window of sixteen that is stored twice. Round by round
the window holds the sixteen words that were scheduled last, and the working variables are those
of the standard.
-/

namespace Busybox.Hash.Sha1

/-- The working variables. -/
structure Working where
  a : UInt32
  b : UInt32
  c : UInt32
  d : UInt32
  e : UInt32
  deriving DecidableEq

/-- `W[16+16]` -/
abbrev Window := Vector UInt32 32

def rconsts : Vector UInt32 4 := #v[0x5A827999, 0x6ED9EBA1, 0x8F1BBCDC, 0xCA62C1D6]

/-- `ge16`: a new word is written to both places. -/
def ge16 (w : Window) (cnt : Fin 16) : Window :=
  let scheduled := rotl32 (w[cnt.val + 13] ^^^ w[cnt.val + 8] ^^^ w[cnt.val + 2] ^^^ w[cnt.val]) 1
  (w.set (cnt.val + 16) scheduled).set cnt.val scheduled

structure Loop where
  w : Window
  /-- `cnt & 15` -/
  cnt : Fin 16
  words : Working

/-- One operation; `j` counts down. -/
def operation (i : Fin 4) (j : Nat) (state : Loop) : Loop :=
  let w := state.w
  let cnt := state.cnt
  let ⟨a, b, c, d, e⟩ := state.words
  let work := c ^^^ d
  let (work, w) :=
    if i = 0 then
      let work := (work &&& b) ^^^ d
      if j ≤ 3 then
        let w := ge16 w cnt
        (work + w[cnt.val], w)
      else (work + w[cnt.val], w)
    else
      let work := if i = 2 then ((b ||| c) &&& d) ||| (b &&& c) else work ^^^ b
      let w := ge16 w cnt
      (work + w[cnt.val], w)
  let work := work + (e + rotl32 a 5 + rconsts[i])
  { w, cnt := cnt + 1, words := ⟨work, a, rotl32 b 30, c, d⟩ }

/-- 4 rounds of 20 operations each -/
def rounds (state : Loop) : Loop :=
  (List.finRange 4).foldl
    (fun state i => (List.range 20).reverse.foldl (fun state j => operation i j state) state) state

/-- The words of the buffer, each stored twice. -/
def load (wbuffer : Vector UInt8 64) : Window :=
  .ofFn fun i => UInt32.ofNat (wordBE 4 wbuffer.toList (i.val % 16))

def working (hash : Vector UInt32 5) : Working := ⟨hash[0], hash[1], hash[2], hash[3], hash[4]⟩

def addTo (hash : Vector UInt32 5) (words : Working) : Vector UInt32 5 :=
  #v[hash[0] + words.a, hash[1] + words.b, hash[2] + words.c, hash[3] + words.d,
    hash[4] + words.e]

def sha1ProcessBlock64 (hash : Vector UInt32 5) (wbuffer : Vector UInt8 64) : Vector UInt32 5 :=
  addTo hash (rounds { w := load wbuffer, cnt := 0, words := working hash }).words

/-! ## The standard -/

/-- The message schedule of a block. -/
def schedule (block : Vector UInt8 64) (t : Nat) : UInt32 :=
  if t < 16 then UInt32.ofNat (wordBE 4 block.toList t)
  else rotl32 (schedule block (t - 3) ^^^ schedule block (t - 8) ^^^ schedule block (t - 14) ^^^
    schedule block (t - 16)) 1

def ch (x y z : UInt32) : UInt32 := (x &&& y) ^^^ (~~~x &&& z)
def parity (x y z : UInt32) : UInt32 := x ^^^ y ^^^ z
def maj (x y z : UInt32) : UInt32 := (x &&& y) ^^^ (x &&& z) ^^^ (y &&& z)

/-- The function of a round. -/
def f (t : Nat) (x y z : UInt32) : UInt32 :=
  if t ≤ 19 then ch x y z
  else if t ≤ 39 then parity x y z
  else if t ≤ 59 then maj x y z
  else parity x y z

def k (t : Nat) : UInt32 :=
  if t ≤ 19 then 0x5a827999
  else if t ≤ 39 then 0x6ed9eba1
  else if t ≤ 59 then 0x8f1bbcdc
  else 0xca62c1d6

def round (block : Vector UInt8 64) (words : Working) (t : Nat) : Working :=
  let ⟨a, b, c, d, e⟩ := words
  ⟨rotl32 a 5 + f t b c d + e + k t + schedule block t, a, rotl32 b 30, c, d⟩

/-- The compression function: eighty rounds, added to what the hash was. -/
def compress (hash : Vector UInt32 5) (block : Vector UInt8 64) : Vector UInt32 5 :=
  let words := (List.range 80).foldl (round block) (working hash)
  #v[words.a + hash[0], words.b + hash[1], words.c + hash[2], words.d + hash[3],
    words.e + hash[4]]

/-! ## The functions of the rounds -/

theorem ch_eq (b c d : UInt32) : ((c ^^^ d) &&& b) ^^^ d = ch b c d := by
  rw [ch, ← UInt32.toBitVec_inj]
  ext n
  simp only [UInt32.toBitVec_xor, UInt32.toBitVec_and, UInt32.toBitVec_not, BitVec.getElem_xor,
    BitVec.getElem_and, BitVec.getElem_not]
  cases b.toBitVec[n] <;> cases c.toBitVec[n] <;> cases d.toBitVec[n] <;> rfl

theorem maj_eq (b c d : UInt32) : ((b ||| c) &&& d) ||| (b &&& c) = maj b c d := by
  rw [maj, ← UInt32.toBitVec_inj]
  ext n
  simp only [UInt32.toBitVec_xor, UInt32.toBitVec_and, UInt32.toBitVec_or, BitVec.getElem_xor,
    BitVec.getElem_and, BitVec.getElem_or]
  cases b.toBitVec[n] <;> cases c.toBitVec[n] <;> cases d.toBitVec[n] <;> rfl

theorem parity_eq (b c d : UInt32) : (c ^^^ d) ^^^ b = parity b c d := by
  rw [parity, UInt32.xor_comm, UInt32.xor_assoc]

/-! ## The window -/

/-- The window holds the last sixteen of the words below `n`, each in both places. -/
def Holds (block : Vector UInt8 64) (n : Nat) (w : Window) : Prop :=
  ∀ t x, (within : x < 32) → x % 16 = t % 16 → t < max n 16 → n ≤ t + 16 →
    w[x] = schedule block t

theorem load_holds (block : Vector UInt8 64) : Holds block 0 (load block) := by
  intro t x within same below _
  have first : t < 16 := by omega
  rw [load, Vector.getElem_ofFn, schedule, if_pos first, same, Nat.mod_eq_of_lt first]

theorem getElem_ge16 (w : Window) (cnt : Fin 16) {x : Nat} (within : x < 32) :
    (ge16 w cnt)[x] = if x % 16 = cnt.val then
      rotl32 (w[cnt.val + 13] ^^^ w[cnt.val + 8] ^^^ w[cnt.val + 2] ^^^ w[cnt.val]) 1
    else w[x] := by
  rw [ge16, Vector.getElem_set, Vector.getElem_set]
  split
  · rw [if_pos (by omega)]
  · split
    · rw [if_pos (by omega)]
    · rw [if_neg (by omega)]

variable {block : Vector UInt8 64} {n : Nat} {w : Window} {cnt : Fin 16}

/-- No word is new among the first sixteen. -/
theorem Holds.keep (holds : Holds block n w) (first : n < 16) : Holds block (n + 1) w :=
  fun t x within same below late => holds t x within same (by omega) (by omega)

theorem Holds.ge16 (holds : Holds block n w) (late : 16 ≤ n) (here : cnt.val = n % 16) :
    Holds block (n + 1) (ge16 w cnt) := by
  intro t x within same below recent
  rw [getElem_ge16 w cnt within]
  by_cases new : t = n
  · subst new
    rw [if_pos (same.trans here.symm), schedule, if_neg (Nat.not_lt_of_le late),
      holds (t - 3) _ _ (by omega) (by omega) (by omega),
      holds (t - 8) _ _ (by omega) (by omega) (by omega),
      holds (t - 14) _ _ (by omega) (by omega) (by omega),
      holds (t - 16) _ _ (by omega) (by omega) (by omega)]
  · rw [if_neg (by omega)]
    exact holds t x within same (by omega) (by omega)

/-! ## The operations in turn -/

/-- The operation with the number `n`. -/
def turn (n : Nat) : Loop → Loop := operation (Fin.ofNat 4 (n / 20)) (19 - n % 20)

theorem rounds_eq (state : Loop) :
    rounds state = (List.range 80).foldl (fun state n => turn n state) state := by
  have numbers : (List.finRange 4).flatMap (fun i => (List.range 20).reverse.map (i, ·)) =
      (List.range 80).map fun n => (Fin.ofNat 4 (n / 20), 19 - n % 20) := by decide
  calc rounds state
      = ((List.finRange 4).flatMap (fun i => (List.range 20).reverse.map (i, ·))).foldl
          (fun state ij => operation ij.1 ij.2 state) state := by
        rw [List.foldl_flatMap]
        simp only [List.foldl_map]
        rfl
    _ = (List.range 80).foldl (fun state n => turn n state) state := by
        rw [numbers, List.foldl_map]
        rfl

/-- The function of the `i`th twenty operations. -/
def mix (i : Fin 4) : UInt32 → UInt32 → UInt32 → UInt32 :=
  if i = 0 then ch else if i = 2 then maj else parity

/-- How the working variables move on. -/
def advance (i : Fin 4) (words : Working) (scheduled : UInt32) : Working :=
  ⟨mix i words.b words.c words.d + scheduled + (words.e + rotl32 words.a 5 + rconsts[i]), words.a,
    rotl32 words.b 30, words.c, words.d⟩

theorem operation_first {j : Nat} (first : 3 < j) (state : Loop) :
    operation 0 j state =
      { w := state.w, cnt := state.cnt + 1,
        words := advance 0 state.words state.w[state.cnt.val] } := by
  simp only [operation, advance, mix, if_true, if_neg (Nat.not_le_of_lt first), ch_eq]

theorem operation_ge16 {i : Fin 4} {j : Nat} (new : i = 0 → j ≤ 3) (state : Loop) :
    operation i j state =
      { w := ge16 state.w state.cnt, cnt := state.cnt + 1,
        words := advance i state.words (ge16 state.w state.cnt)[state.cnt.val] } := by
  by_cases round0 : i = 0
  · simp only [operation, advance, mix, if_pos round0, if_pos (new round0), ch_eq]
  · by_cases round2 : i = 2
    · simp only [operation, advance, mix, if_neg round0, if_pos round2, maj_eq]
    · simp only [operation, advance, mix, if_neg round0, if_neg round2, parity_eq]

/-- The function and the constant of a round are those of the standard. -/
theorem mix_eq {n : Nat} (below : n < 80) : mix (Fin.ofNat 4 (n / 20)) = f n := by
  obtain i | i | i | i : n / 20 = 0 ∨ n / 20 = 1 ∨ n / 20 = 2 ∨ n / 20 = 3 := by omega
  · funext x y z
    rw [i, f, if_pos (by omega)]
    rfl
  · funext x y z
    rw [i, f, if_neg (by omega), if_pos (by omega)]
    rfl
  · funext x y z
    rw [i, f, if_neg (by omega), if_neg (by omega), if_pos (by omega)]
    rfl
  · funext x y z
    rw [i, f, if_neg (by omega), if_neg (by omega), if_neg (by omega)]
    rfl

theorem rconsts_eq : ∀ n < 80, rconsts[Fin.ofNat 4 (n / 20)] = k n := by decide

theorem advance_eq (block : Vector UInt8 64) (words : Working) {n : Nat} (below : n < 80) :
    advance (Fin.ofNat 4 (n / 20)) words (schedule block n) = round block words n := by
  rw [advance, mix_eq below, rconsts_eq n below, round]
  congr 1
  ac_rfl

/-- After `n` operations. -/
structure At (block : Vector UInt8 64) (start : Working) (n : Nat) (state : Loop) : Prop where
  cnt : state.cnt.val = n % 16
  holds : Holds block n state.w
  words : state.words = (List.range n).foldl (round block) start

theorem At.turn {start : Working} {state : Loop} (state_ : At block start n state)
    (below : n < 80) : At block start (n + 1) (Sha1.turn n state) := by
  have here := state_.cnt
  have next : (state.cnt + 1).val = (n + 1) % 16 := by
    rw [Fin.val_add, here]
    omega
  have run : (List.range (n + 1)).foldl (round block) start = round block state.words n := by
    rw [List.range_succ, List.foldl_append, ← state_.words]
    rfl
  by_cases first : n < 16
  · have round0 : Fin.ofNat 4 (n / 20) = 0 := by
      rw [Nat.div_eq_of_lt (by omega)]
      rfl
    have word : state.w[state.cnt.val] = schedule block n :=
      state_.holds n _ _ (by omega) (by omega) (by omega)
    have turned : Sha1.turn n state = operation 0 (19 - n % 20) state := by
      rw [Sha1.turn, round0]
    rw [turned, operation_first (by omega), word, ← round0, advance_eq block _ below, ← run]
    exact ⟨next, state_.holds.keep first, rfl⟩
  · have kept := state_.holds.ge16 (Nat.le_of_not_lt first) here
    have word : (ge16 state.w state.cnt)[state.cnt.val] = schedule block n :=
      kept n _ _ (by omega) (by omega) (by omega)
    have new : Fin.ofNat 4 (n / 20) = 0 → 19 - n % 20 ≤ 3 := by
      intro round0
      have : n / 20 % 4 = 0 := congrArg Fin.val round0
      omega
    have turned : Sha1.turn n state = _ := operation_ge16 new state
    rw [turned, word, advance_eq block _ below, ← run]
    exact ⟨next, kept, rfl⟩

theorem At.turns {start : Working} {state : Loop} (state_ : At block start 0 state)
    (below : n ≤ 80) :
    At block start n ((List.range n).foldl (fun state n => Sha1.turn n state) state) := by
  induction n with
  | zero => exact state_
  | succ n ih =>
    rw [List.range_succ, List.foldl_append]
    exact (ih (by omega)).turn (by omega)

theorem add_words (hash : Vector UInt32 5) (words : Working) :
    addTo hash words = #v[words.a + hash[0], words.b + hash[1], words.c + hash[2],
      words.d + hash[3], words.e + hash[4]] := by
  simp only [addTo, UInt32.add_comm]

theorem rounds_words (hash : Vector UInt32 5) (wbuffer : Vector UInt8 64) :
    (rounds { w := load wbuffer, cnt := 0, words := working hash }).words =
      (List.range 80).foldl (round wbuffer) (working hash) := by
  have loaded : At wbuffer (working hash) 0
      { w := load wbuffer, cnt := 0, words := working hash } := ⟨rfl, load_holds wbuffer, rfl⟩
  rw [rounds_eq]
  exact (loaded.turns (Nat.le_refl 80)).words

/-- For every chaining state and every block the window computes the compression function with
its schedule of eighty words. -/
theorem sha1ProcessBlock64_eq_compress (hash : Vector UInt32 5) (wbuffer : Vector UInt8 64) :
    sha1ProcessBlock64 hash wbuffer = compress hash wbuffer := by
  rw [sha1ProcessBlock64, rounds_words]
  exact add_words hash _

/-! ## The window that moves -/

def Working.toList (words : Working) : List UInt32 := [words.a, words.b, words.c, words.d, words.e]

/-- A window that moves on with every operation begins with the word that is used next. -/
structure Moved (block : Vector UInt8 64) (start : Working) (n : Nat)
    (state : List UInt32 × List UInt32) : Prop where
  length : state.1.length = 16
  holds : ∀ j < 16, state.1.getD j 0 = schedule block (if n + j < 16 then n + j else n + j - 16)
  words : state.2 = ((List.range n).foldl (round block) start).toList

/-- The word that an operation uses. -/
def nextWord (w : List UInt32) (n : Nat) : UInt32 :=
  if n < 16 then w.getD 0 0
  else rotl32 (w.getD 13 0 ^^^ w.getD 8 0 ^^^ w.getD 2 0 ^^^ w.getD 0 0) 1

theorem constants_eq : ∀ n < 80, sha1Constants.getD (n / 20) 0 = k n := by decide

theorem add_rotated (mixed word e rotated constant : UInt32) :
    mixed + word + e + rotated + constant = rotated + mixed + e + constant + word := by
  ac_rfl

theorem sha1Operation_eq (w : List UInt32) (now : Working) {n : Nat} (below : n < 80) :
    sha1Operation (w, now.toList) n =
      (w.tail ++ [nextWord w n],
        [rotl32 now.a 5 + f n now.b now.c now.d + now.e + k n + nextWord w n, now.a,
          rotl32 now.b 30, now.c, now.d]) := by
  rw [← constants_eq n below, ← add_rotated]
  obtain i | i | i | i : n / 20 = 0 ∨ n / 20 = 1 ∨ n / 20 = 2 ∨ n / 20 = 3 := by omega
  · rw [f, if_pos (by omega), ← ch_eq, sha1Operation, i]
    rfl
  · rw [f, if_neg (by omega), if_pos (by omega), ← parity_eq, sha1Operation, i]
    rfl
  · rw [f, if_neg (by omega), if_neg (by omega), if_pos (by omega), ← maj_eq, sha1Operation, i]
    rfl
  · rw [f, if_neg (by omega), if_neg (by omega), if_neg (by omega), ← parity_eq, sha1Operation, i]
    rfl

theorem Moved.nextWord {start : Working} {state : List UInt32 × List UInt32}
    (moved : Moved block start n state) : nextWord state.1 n = schedule block n := by
  have holds := moved.holds
  unfold Sha1.nextWord
  split
  · rename_i first
    rw [holds 0 (by omega), if_pos (by omega), Nat.add_zero]
  · rename_i late
    rw [schedule, if_neg late, holds 13 (by omega), holds 8 (by omega), holds 2 (by omega),
      holds 0 (by omega), if_neg (by omega), if_neg (by omega), if_neg (by omega),
      if_neg (by omega), Nat.sub_eq_of_eq_add (show n + 13 = n - 3 + 16 by omega),
      Nat.sub_eq_of_eq_add (show n + 8 = n - 8 + 16 by omega),
      Nat.sub_eq_of_eq_add (show n + 2 = n - 14 + 16 by omega), Nat.add_zero]

theorem Moved.operation {start : Working} {state : List UInt32 × List UInt32}
    (moved : Moved block start n state) (below : n < 80) :
    Moved block start (n + 1) (sha1Operation state n) := by
  have next := moved.nextWord
  obtain ⟨w, words⟩ := state
  obtain ⟨length, holds, words_⟩ := moved
  simp only at length holds words_ next
  have run : (List.range (n + 1)).foldl (round block) start =
      round block ((List.range n).foldl (round block) start) n := by
    rw [List.range_succ, List.foldl_append]
    rfl
  rw [words_, sha1Operation_eq _ _ below, next]
  have tail : w.tail.length = 15 := by rw [List.length_tail, length]
  refine ⟨?_, fun j below => ?_, ?_⟩
  · rw [List.length_append, tail]
    rfl
  · by_cases last : j = 15
    · subst last
      rw [List.getD_append_right _ _ _ _ (Nat.le_of_eq tail), tail, if_neg (by omega)]
      rfl
    · rw [List.getD_append _ _ _ _ (by omega), List.getD_eq_getElem?_getD,
        List.getElem?_tail, ← List.getD_eq_getElem?_getD, holds (j + 1) (by omega),
        Nat.add_assoc n 1 j, Nat.add_comm 1 j]
  · rw [run]
    rfl

theorem Moved.operations {start : Working} {state : List UInt32 × List UInt32}
    (moved : Moved block start 0 state) (below : n ≤ 80) :
    Moved block start n ((List.range n).foldl sha1Operation state) := by
  induction n with
  | zero => exact moved
  | succ n ih =>
    rw [List.range_succ, List.foldl_append]
    exact (ih (by omega)).operation (by omega)

theorem toList_eq_working : (hash : Vector UInt32 5) → hash.toList = (working hash).toList
  | ⟨⟨[_, _, _, _, _]⟩, _⟩ => rfl

/-- A doubled window and one that moves on compute the same. -/
theorem sha1ProcessBlock64_toList (hash : Vector UInt32 5) (wbuffer : Vector UInt8 64) :
    Hash.sha1ProcessBlock64 hash.toList wbuffer.toList =
      (sha1ProcessBlock64 hash wbuffer).toList := by
  have loaded : Moved wbuffer (working hash) 0
      ((List.range 16).map fun index => UInt32.ofNat (wordBE 4 wbuffer.toList index),
        hash.toList.take 5) := by
    refine ⟨by rw [List.length_map, List.length_range], fun j below => ?_, ?_⟩
    · rw [List.getD_eq_getElem _ _ (by simpa using below), List.getElem_map, List.getElem_range,
        Nat.zero_add, if_pos below, schedule, if_pos below]
    · rw [toList_eq_working, List.take_of_length_le (Nat.le_refl 5)]
      rfl
  have ended := (loaded.operations (Nat.le_refl 80)).words
  rw [Hash.sha1ProcessBlock64, ended, sha1ProcessBlock64, rounds_words, toList_eq_working]
  rfl

/-! ## A message -/

open Blocks

/-- The digest of the standard: the padded message in blocks, each one compressed. -/
def digest (message : List UInt8) : List UInt8 :=
  (absorb 64 (fun hash block => compress hash (.ofFn fun i => block.getD i 0))
    #v[0x67452301, 0xefcdab89, 0x98badcfe, 0x10325476, 0xc3d2e1f0]
    (strengthen 64 8 bigEndian message)).toList.flatMap fun word => bigEndian 4 word.toNat

theorem processBlock_compress (hash : Vector UInt32 5) {block : List UInt8}
    (whole : block.length = 64) :
    Hash.sha1ProcessBlock64 hash.toList block =
      (compress hash (.ofFn fun i => block.getD i 0)).toList := by
  have bytes : (Vector.ofFn fun i : Fin 64 => block.getD i 0).toList = block := by
    refine List.ext_getElem (by simp [whole]) fun i inside within => ?_
    simp [within]
  have code := sha1ProcessBlock64_toList hash (.ofFn fun i => block.getD i 0)
  rw [bytes] at code
  rw [code, sha1ProcessBlock64, rounds_words, add_words, compress]

/-- For every message and every way to cut it into pieces. -/
theorem sha1End_digest (pieces : List Piece) :
    sha1End (pieces.foldl md5Hash sha1Begin) = digest (pieces.flatMap Piece.bytes) := by
  have stands := common64_pieces sha1Begin rfl rfl pieces
  have blocks := absorb_map Vector.toList (fun hash block => processBlock_compress hash)
    #v[0x67452301, 0xefcdab89, 0x98badcfe, 0x10325476, 0xc3d2e1f0]
    (strengthen 64 8 bigEndian (pieces.flatMap Piece.bytes))
  rw [sha1End, stands.kind, digest, stands.end true, ← blocks]
  refine congrArg (List.flatMap _) (List.take_of_length_le (Nat.le_of_eq ?_))
  exact (congrArg List.length blocks).trans Vector.length_toList

end Busybox.Hash.Sha1
