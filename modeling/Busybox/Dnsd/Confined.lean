import Busybox.Dnsd.ProcessPacket
import Mathlib.Data.List.GetD

/-!
# What a reply of `dnsd` depends on

The question ends where its name ends and two numbers more; the packet may end before that.
-/

namespace Busybox.Dnsd

open Accesses Prog

variable {m : Memory} {s n : Nat}

/-- A string in the memory. -/
structure IsString (m : Memory) (s n : Nat) : Prop where
  chars : ∀ k < n, m (s + k) ≠ 0
  nul : m (s + n) = 0

theorem IsString.tail (string : IsString m s (n + 1)) : IsString m (s + 1) n where
  chars k below := by
    rw [Nat.add_right_comm]
    exact string.chars (k + 1) (Nat.succ_lt_succ below)
  nul := by
    rw [Nat.add_right_comm]
    exact string.nul

theorem strlen_run {fuel : Nat} (string : IsString m s n) (enough : n < fuel) :
    (strlen fuel s).run m = ⟨n, m, List.range' s (n + 1), []⟩ := by
  induction fuel generalizing s n with
  | zero => exact absurd enough (Nat.not_lt_zero n)
  | succ fuel ih =>
    cases n with
    | zero =>
      have nul : m s = 0 := string.nul
      simp only [strlen, run_bind, run_load, nul, if_true, run_pure]
      rfl
    | succ n =>
      have char : m s ≠ 0 := string.chars 0 (Nat.succ_pos n)
      simp only [strlen, run_bind, run_load, char, if_false, run_pure,
        ih string.tail (Nat.lt_of_succ_lt_succ enough), List.append_nil, List.nil_append,
        @List.range'_succ s (n + 1) 1, List.cons_append]

theorem tolower_eq_zero {c : UInt8} (zero : tolower c = tolower 0) : c = 0 := by
  have none : tolower 0 = 0 := by decide
  rw [none, tolower] at zero
  split at zero
  case isTrue upper =>
    have low := UInt8.le_iff_toNat_le.mp upper.1
    have high := UInt8.le_iff_toNat_le.mp upper.2
    have sum := congrArg UInt8.toNat zero
    simp only [UInt8.toNat_add, UInt8.reduceToNat] at low high sum
    omega
  case isFalse => exact zero

/-- A comparison with the query does not go past its end. -/
theorem strcasecmp_loads {name : List UInt8} (string : IsString m s n) (nul : 0 ∉ name) :
    OnlyLoads (· ≤ s + n) (strcasecmp name s) m := by
  induction name generalizing s n with
  | nil => exact .bind (.load (Nat.le_add_right s n)) (.pure _)
  | cons c name ih =>
    refine .bind (.load (Nat.le_add_right s n)) ?_
    split
    case isTrue same =>
      cases n with
      | zero =>
        have same := same.trans (congrArg tolower string.nul)
        exact absurd (List.mem_cons.mpr (.inl (tolower_eq_zero same).symm)) nul
      | succ n =>
        have rest := ih string.tail fun mem => nul (List.mem_cons_of_mem c mem)
        rwa [Nat.add_right_comm] at rest
    case isFalse => exact .pure _

theorem isPrefixedWith_loads {key : List UInt8} (string : IsString m s n) (nul : 0 ∉ key) :
    OnlyLoads (· ≤ s + n) (isPrefixedWith s key) m := by
  induction key generalizing s n with
  | nil => exact .pure true
  | cons c key ih =>
    refine .bind (.load (Nat.le_add_right s n)) ?_
    split
    case isTrue same =>
      cases n with
      | zero => exact absurd (List.mem_cons.mpr (.inl (same.trans string.nul).symm)) nul
      | succ n =>
        have rest := ih string.tail fun mem => nul (List.mem_cons_of_mem c mem)
        rwa [Nat.add_right_comm] at rest
    case isFalse => exact .pure _

theorem tableLookup_loads {type : UInt16} {entries : List DnsEntry} (string : IsString m s n) :
    OnlyLoads (· ≤ s + n) (tableLookup type s entries) m := by
  induction entries with
  | nil => exact .pure none
  | cons d entries ih =>
    simp only [tableLookup]
    split
    · split
      · exact .pure _
      · refine .bind (strcasecmp_loads string d.name_nul) ?_
        split
        · exact .pure _
        · exact ih
    · split
      · exact ih
      · refine .bind (isPrefixedWith_loads string d.rip_nul) ?_
        split
        · exact .pure _
        · exact ih

/-- What is found for a name is an address. -/
theorem tableLookup_ip {entries : List DnsEntry} {answstr : List UInt8}
    (found : ((tableLookup REQ_A s entries).run m).value = some answstr) : answstr.length = 4 := by
  induction entries generalizing m with
  | nil => exact nomatch found
  | cons d entries ih =>
    simp only [tableLookup, if_true] at found
    split at found
    · exact Option.some.inj found ▸ d.ip_length
    · rw [run_bind] at found
      simp only at found
      split at found
      · exact Option.some.inj found ▸ d.ip_length
      · exact ih found

theorem put_run (dest : Nat) (bytes : List UInt8) :
    ((put dest bytes).run m).loads = [] ∧
      ((put dest bytes).run m).stores = List.range' dest bytes.length := by
  induction bytes generalizing dest m with
  | nil => exact ⟨rfl, rfl⟩
  | cons byte bytes ih =>
    have rest := @ih (stored m dest byte) (dest + 1)
    simp only [put, run_bind, run_store, rest.1, rest.2]
    exact ⟨rfl, rfl⟩

theorem copy_run (dest src n : Nat) :
    ((copy dest src n).run m).loads = List.range' src n ∧
      ((copy dest src n).run m).stores = List.range' dest n := by
  induction n generalizing dest src m with
  | zero => exact ⟨rfl, rfl⟩
  | succ n ih =>
    have rest := @ih (stored m dest (m src)) (dest + 1) (src + 1)
    simp only [copy, run_bind, run_store, run_load, rest.1, rest.2]
    exact ⟨rfl, rfl⟩

/-- A reply that ends where the question does, none, or one whose rest was stored. -/
structure Replies (silent : Bool) (stop : Nat) (run : Run Nat) : Prop where
  loads : ∀ i ∈ run.loads, i < stop
  stores : ∀ i ∈ run.stores, i < MAX_PACK_LEN
  value : run.value = 0 ∨ run.value = stop ∧ silent = false ∨
    stop ≤ run.value ∧ run.value ≤ MAX_PACK_LEN ∧
      ∀ i, stop ≤ i → i < run.value → i ∈ run.stores

theorem emptyPacket_run (silent : Bool) (high low : UInt8) (answb : Nat) :
    (∀ i ∈ ((emptyPacket silent high low answb).run m).loads, i < 12) ∧
      (∀ i ∈ ((emptyPacket silent high low answb).run m).stores, i < 12) ∧
      ((emptyPacket silent high low answb).run m).value =
        if low &&& 0xf ≠ 0 ∧ silent then 0 else answb := by
  rw [emptyPacket]
  split
  · exact ⟨fun _ mem => absurd mem List.not_mem_nil, fun _ mem => absurd mem List.not_mem_nil, rfl⟩
  · simp only [run_bind, run_load, run_store, run_pure, put_run, List.mem_append,
      List.mem_singleton, List.mem_range'_1, List.not_mem_nil, List.length_cons, List.length_nil,
      or_false, false_or]
    refine ⟨fun i mem => ?_, fun i mem => ?_, trivial⟩
    · omega
    · omega

theorem emptyPacket_replies {silent : Bool} {high : UInt8} (low : UInt8) {stop : Nat}
    (error : low &&& 0xf ≠ 0) (behind : 12 ≤ stop) :
    Replies silent stop ((emptyPacket silent high low stop).run m) := by
  obtain ⟨loads, stores, value⟩ := emptyPacket_run (m := m) silent high low stop
  refine ⟨fun i mem => ?_, fun i mem => ?_, ?_⟩
  · exact Nat.lt_of_lt_of_le (loads i mem) behind
  · exact Nat.lt_of_lt_of_le (stores i mem) (by decide)
  · rw [value]
    cases silent with
    | true => exact .inl (if_pos (And.intro error rfl))
    | false => exact .inr (.inl ⟨if_neg (fun both => nomatch both.2), rfl⟩)

theorem Replies.bind {silent : Bool} {stop : Nat} {α : Type} {p : Prog α} {f : α → Prog Nat}
    (first : OnlyLoads (· < stop) p m)
    (second : Replies silent stop ((f (p.run m).value).run m)) :
    Replies silent stop ((p >>= f).run m) := by
  rw [run_bind, first.keeps, first.stores, List.nil_append]
  refine ⟨fun i mem => ?_, second.stores, second.value⟩
  exact (List.mem_append.mp mem).elim (first.loads i) (second.loads i)

/-- The record is put behind the question, without a gap. -/
theorem appendAnswer_run {conf : Config} {queryLen : Nat} {outrRlen : UInt16}
    {answstr : List UInt8} (enough : outrRlen.toNat ≤ answstr.length) :
    (∀ i ∈ ((appendAnswer conf queryLen outrRlen answstr).run m).loads, i < 12 + queryLen) ∧
      (∀ i, i ∈ ((appendAnswer conf queryLen outrRlen answstr).run m).stores →
        i < 12 + queryLen + queryLen + 6 + outrRlen.toNat) ∧
      (∀ i, 12 + queryLen ≤ i → i < 12 + queryLen + queryLen + 6 + outrRlen.toNat →
        i ∈ ((appendAnswer conf queryLen outrRlen answstr).run m).stores) ∧
      ((appendAnswer conf queryLen outrRlen answstr).run m).value =
        12 + queryLen + queryLen + 6 + outrRlen.toNat := by
  have taken : (answstr.take outrRlen.toNat).length = outrRlen.toNat :=
    List.length_take_of_le enough
  simp only [appendAnswer, run_bind, put_run, copy_run, taken, List.mem_append,
    List.mem_range'_1, List.not_mem_nil, false_or, bytes16, bytes32, List.length_cons,
    List.length_nil]
  -- the memory behind the record does not matter to the rest
  generalize Run.memory _ = m'
  obtain ⟨loads, stores, value⟩ :=
    @emptyPacket_run m' conf.silent 0x84 0 (12 + queryLen + queryLen + 6 + outrRlen.toNat)
  refine ⟨fun i mem => ?_, fun i mem => ?_, fun i above below => ?_, ?_⟩
  · rcases mem with question | rest
    · exact question.2
    · have head := loads i rest
      omega
  · rcases mem with question | number | length | data | count | rest
    · omega
    · omega
    · omega
    · omega
    · omega
    · have head := stores i rest
      omega
  · omega
  · rw [value]
    exact if_neg fun both => both.1 (by decide)

theorem appendAnswer_replies {conf : Config} {queryLen : Nat} {outrRlen : UInt16}
    {answstr : List UInt8} (enough : outrRlen.toNat ≤ answstr.length)
    (fits : 12 + queryLen + queryLen + 4 + 2 + outrRlen.toNat ≤ MAX_PACK_LEN) :
    Replies conf.silent (12 + queryLen)
      ((appendAnswer conf queryLen outrRlen answstr).run m) := by
  obtain ⟨loads, stores, stored, value⟩ :=
    @appendAnswer_run m conf queryLen outrRlen answstr enough
  refine ⟨loads, fun i mem => ?_, .inr (.inr ⟨?_, ?_, fun i above below => ?_⟩)⟩
  · have within := stores i mem
    omega
  · omega
  · omega
  · exact stored i above (value ▸ below)

theorem outrRlen_le {type : UInt16} {entries : List DnsEntry} {answstr : List UInt8}
    (found : ((tableLookup type s entries).run m).value = some answstr)
    (known : type = REQ_A ∨ type = REQ_PTR) : (outrRlen type answstr).toNat ≤ answstr.length := by
  rw [outrRlen]
  split
  case isTrue =>
    rw [UInt16.toNat_ofNat']
    exact Nat.mod_le _ _
  case isFalse other =>
    obtain rfl := known.resolve_right other
    exact Nat.le_of_eq (tableLookup_ip found).symm

/-- An answer is only put where it fits. -/
theorem answer_replies {conf : Config} {queryLen : Nat} {type : UInt16} (string : IsString m 12 n)
    (behind : n < queryLen) (known : type = REQ_A ∨ type = REQ_PTR) :
    Replies conf.silent (12 + queryLen) ((answer conf queryLen type).run m) := by
  have within : 12 ≤ 12 + queryLen := Nat.le_add_right _ _
  refine .bind ((tableLookup_loads string).mono fun i below => by omega) ?_
  cases found : ((tableLookup type 12 conf.entries).run m).value with
  | none => exact emptyPacket_replies _ (by decide) within
  | some answstr =>
    simp only
    split
    case isTrue => exact emptyPacket_replies _ (by decide) within
    case isFalse fits => exact appendAnswer_replies (outrRlen_le found known) (Nat.not_lt.mp fits)

/-! ## A packet -/

/-- `nquer` is 0, or it is a response. -/
def Ignored (m : Memory) : Prop := m 4 = 0 ∧ m 5 = 0 ∨ m 2 &&& 0x80 ≠ 0

@[simp] theorem moveFrom16_run (address : Nat) : (moveFrom16 address).run m =
    ⟨256 * (m address).toUInt16 + (m (address + 1)).toUInt16, m, [address, address + 1], []⟩ := rfl

variable {conf : Config}

/-- The class is loaded, and it is not INET where its last byte is 0. -/
theorem standardQuery_replies (string : IsString m 12 n) :
    Replies conf.silent (12 + n + 5) ((standardQuery conf (12 + (n + 1))).run m) ∧
      12 + n + 4 ∈ ((standardQuery conf (12 + (n + 1))).run m).loads ∧
      (m (12 + n + 4) = 0 → conf.silent = false →
        ((standardQuery conf (12 + (n + 1))).run m).value = 12 + n + 5) := by
  have inside : OnlyLoads (· < 12 + n + 5) (moveFrom16 (12 + (n + 1) + 2)) m := by
    refine ⟨fun i mem => ?_, rfl⟩
    simp only [moveFrom16_run, List.mem_cons, List.not_mem_nil, or_false] at mem
    omega
  have type : OnlyLoads (· < 12 + n + 5) (moveFrom16 (12 + (n + 1))) m := by
    refine ⟨fun i mem => ?_, rfl⟩
    simp only [moveFrom16_run, List.mem_cons, List.not_mem_nil, or_false] at mem
    omega
  refine ⟨.bind inside ?_, ?_, fun zero loud => ?_⟩
  · split
    · exact emptyPacket_replies _ (by decide) (by omega)
    · refine .bind type ?_
      split
      · exact emptyPacket_replies _ (by decide) (by omega)
      case isFalse known =>
        have sum : 12 + (n + 1) + 4 - 12 = n + 5 := by omega
        rw [sum, Nat.add_assoc 12 n 5]
        exact answer_replies string (by omega) (by simpa only [not_and_or, not_not] using known)
  · rw [standardQuery, run_bind]
    exact List.mem_append_left _ (List.mem_cons_of_mem _ List.mem_cons_self)
  · have other : 256 * (m (12 + (n + 1) + 2)).toUInt16 +
        (m (12 + (n + 1) + 2 + 1)).toUInt16 ≠ 1 := by
      have place : 12 + (n + 1) + 2 + 1 = 12 + n + 4 := by omega
      intro one
      rw [place, zero] at one
      have sum := congrArg UInt16.toNat one
      simp only [UInt16.toNat_add, UInt16.toNat_mul, UInt8.toNat_toUInt16] at sum
      simp only [UInt8.reduceToNat, UInt16.reduceToNat] at sum
      omega
    have class_ : ((moveFrom16 (12 + (n + 1) + 2)).run m).value ≠ 1 := other
    rw [standardQuery, run_bind]
    simp only [if_pos class_]
    rw [(emptyPacket_run _ _ _ _).2.2, loud]
    exact if_neg fun both => nomatch both.2

/-- What a packet that is not ignored is answered. -/
theorem processPacket_run (heeded : ¬Ignored m) (string : IsString m 12 n)
    (short : n ≤ MAX_PACK_LEN) :
    (processPacket conf).run m = 
      let rest := (if m 2 &&& 0x78 ≠ 0 then emptyPacket conf.silent 0x80 4 (12 + (n + 1) + 4)
        else standardQuery conf (12 + (n + 1))).run m
      { rest with loads := [4, 5, 2] ++ List.range' 12 (n + 1) ++ 2 :: rest.loads } := by
  obtain ⟨queries, query⟩ := not_or.mp heeded
  simp only [processPacket, run_bind, run_load, queries, query, if_false,
    strlen_run string (Nat.lt_succ_of_le short), List.nil_append, List.cons_append]
  rfl

theorem processPacket_replies (heeded : ¬Ignored m) (string : IsString m 12 n)
    (short : n ≤ MAX_PACK_LEN) :
    Replies conf.silent (12 + n + 5) ((processPacket conf).run m) := by
  have rest : Replies conf.silent (12 + n + 5)
      ((if m 2 &&& 0x78 ≠ 0 then emptyPacket conf.silent 0x80 4 (12 + (n + 1) + 4)
        else standardQuery conf (12 + (n + 1))).run m) := by
    split
    · exact emptyPacket_replies _ (by decide) (by omega)
    · exact (standardQuery_replies string).1
  rw [processPacket_run heeded string short]
  refine ⟨fun i mem => ?_, rest.stores, rest.value⟩
  simp only [List.mem_append, List.mem_cons, List.mem_range'_1, List.not_mem_nil, or_false] at mem
  rcases mem with (flags | name) | again | later
  · omega
  · omega
  · omega
  · exact rest.loads i later

/-- The error reply to a query that is not a standard one. -/
theorem processPacket_other (heeded : ¬Ignored m) (other : m 2 &&& 0x78 ≠ 0)
    (string : IsString m 12 n) (short : n ≤ MAX_PACK_LEN) :
    (∀ i ∈ ((processPacket conf).run m).loads, i ≤ 12 + n) ∧
      (∀ i ∈ ((processPacket conf).run m).stores, i < 12) ∧
      ((processPacket conf).run m).value = if conf.silent then 0 else 12 + n + 5 := by
  obtain ⟨loads, stores, value⟩ := @emptyPacket_run m conf.silent 0x80 4 (12 + (n + 1) + 4)
  rw [processPacket_run heeded string short, if_pos other]
  refine ⟨fun i mem => ?_, stores, ?_⟩
  · simp only [List.mem_append, List.mem_cons, List.mem_range'_1, List.not_mem_nil, or_false]
      at mem
    rcases mem with (flags | name) | again | later
    · omega
    · omega
    · omega
    · have head := loads i later
      omega
  · have error : (4 : UInt8) &&& 0xf ≠ 0 := by decide
    rw [value]
    simp only [error, ne_eq, not_false_eq_true, true_and]
    rfl

theorem processPacket_ignored (ignored : Ignored m) :
    OnlyLoads (· < 12) (processPacket conf) m ∧ ((processPacket conf).run m).value = 0 := by
  by_cases noQuery : ((Accesses.load 4).run m).value = 0 ∧ ((Accesses.load 5).run m).value = 0
  · constructor
    · refine .bind (.load (by decide)) (.bind (.load (by decide)) ?_)
      exact if_pos noQuery ▸ .pure 0
    · exact congrArg (fun p => (run p m).value) (if_pos noQuery)
  · have response : ((Accesses.load 2).run m).value &&& 0x80 ≠ 0 := ignored.resolve_left noQuery
    constructor
    · refine .bind (.load (by decide)) (.bind (.load (by decide)) ?_)
      refine if_neg noQuery ▸ .bind (.load (by decide)) ?_
      exact if_pos response ▸ .pure 0
    · refine (congrArg (fun p => (run p m).value) (if_neg noQuery)).trans ?_
      exact congrArg (fun p => (run p m).value) (if_pos response)

/-! ## What is sent -/

section received
variable {packet : List UInt8} {before before' : Memory} {i : Nat}

theorem received_le (inside : i ≤ packet.length) :
    received packet before i = packet.getD i 0 := by
  rcases Nat.lt_or_eq_of_le inside with below | rfl
  · exact if_pos below
  · rw [List.getD_eq_default _ _ (Nat.le_refl _)]
    exact (if_neg (Nat.lt_irrefl _)).trans (if_pos rfl)

theorem received_behind (behind : packet.length < i) : received packet before i = before i :=
  (if_neg (Nat.lt_asymm behind)).trans (if_neg (Nat.ne_of_gt behind))

/-- `strlen(query_string)` -/
def nameLength (packet : List UInt8) : Nat := ((packet.drop 12).takeWhile (· ≠ 0)).length

/-- Where the name, the type and the class of the question end. -/
def questionEnd (packet : List UInt8) : Nat := 12 + nameLength packet + 5

theorem nameLength_le (header : 12 ≤ packet.length) : 12 + nameLength packet ≤ packet.length := by
  have bound := (List.takeWhile_prefix (l := packet.drop 12) (· ≠ 0)).length_le
  rw [List.length_drop] at bound
  unfold nameLength
  omega

theorem getD_drop (text : List UInt8) (n k : Nat) :
    (text.drop n).getD k 0 = text.getD (n + k) 0 := by
  rw [List.getD_eq_getElem?_getD, List.getD_eq_getElem?_getD, List.getElem?_drop]

theorem nul_first (text : List UInt8) :
    (∀ k < (text.takeWhile (· ≠ 0)).length, text.getD k 0 ≠ 0) ∧
      text.getD (text.takeWhile (· ≠ 0)).length 0 = 0 := by
  induction text with
  | nil => exact ⟨fun k below => absurd below (Nat.not_lt_zero k), rfl⟩
  | cons c text ih =>
    by_cases nul : c = 0
    · have none : (c :: text).takeWhile (· ≠ 0) = [] :=
        List.takeWhile_cons_of_neg (by simpa using nul)
      rw [none]
      exact ⟨fun k below => absurd below (Nat.not_lt_zero k), nul⟩
    · have more : (c :: text).takeWhile (· ≠ 0) = c :: text.takeWhile (· ≠ 0) :=
        List.takeWhile_cons_of_pos (by simpa using nul)
      rw [more]
      refine ⟨fun k below => ?_, ih.2⟩
      cases k with
      | zero => exact nul
      | succ k => exact ih.1 k (Nat.lt_of_succ_lt_succ below)

theorem received_isString (header : 12 ≤ packet.length) :
    IsString (received packet before) 12 (nameLength packet) := by
  have bound := nameLength_le header
  have string := nul_first (packet.drop 12)
  constructor
  · intro k below
    rw [received_le (by omega), ← getD_drop]
    exact string.1 k below
  · rw [received_le bound, ← getD_drop]
    exact string.2

end received

/-- The reply depends on the packet and the configuration only. -/
structure Confined (conf : Config) (packet : List UInt8) : Prop where
  loads : ∀ before, ∀ i ∈ ((processPacket conf).run (received packet before)).loads,
    i ≤ packet.length
  stores : ∀ before, ∀ i ∈ ((processPacket conf).run (received packet before)).stores,
    i < MAX_PACK_LEN + 1
  returns : ∀ before, ((processPacket conf).run (received packet before)).value ≤ MAX_PACK_LEN
  reply : ∀ before before', reply conf packet before' = reply conf packet before

/-- A run that stays inside: what it sends is of the packet or was stored. -/
structure Inside (packet : List UInt8) (run : Run Nat) : Prop where
  loads : ∀ i ∈ run.loads, i ≤ packet.length
  stores : ∀ i ∈ run.stores, i < MAX_PACK_LEN + 1
  returns : run.value ≤ MAX_PACK_LEN
  sends : ∀ i < run.value, i ≤ packet.length ∨ i ∈ run.stores

variable {packet : List UInt8}

theorem confined_of_inside
    (inside : ∀ before, Inside packet ((processPacket conf).run (received packet before))) :
    Confined conf packet := by
  refine ⟨fun before => (inside before).loads, fun before => (inside before).stores,
    fun before => (inside before).returns, fun before before' => ?_⟩
  obtain ⟨value, memory⟩ := @run_agree _ (received packet before)
    (received packet before') (· ≤ packet.length) (processPacket conf)
    (fun i known => (received_le known).trans (received_le known).symm) (inside before).loads
  simp only [reply, value]
  split
  · rfl
  · refine congrArg some (List.map_congr_left fun i mem => ?_)
    exact memory i ((inside before).sends i (List.mem_range.mp mem))

theorem Replies.inside {run : Run Nat} {stop : Nat} (replies : Replies conf.silent stop run)
    (complete : stop ≤ packet.length + 1) (fits : stop ≤ MAX_PACK_LEN ∨ conf.silent) :
    Inside packet run := by
  refine ⟨fun i mem => ?_, fun i mem => Nat.lt_succ_of_lt (replies.stores i mem), ?_, ?_⟩
  · have below := replies.loads i mem
    omega
  · rcases replies.value with none | ⟨value, loud⟩ | ⟨-, bound, -⟩
    · exact none ▸ Nat.zero_le _
    · exact value ▸ fits.resolve_right (loud ▸ nofun)
    · exact bound
  · intro i below
    rcases replies.value with none | ⟨value, loud⟩ | ⟨-, -, stored⟩
    · omega
    · left
      omega
    · by_cases question : i < stop
      · left
        omega
      · exact .inr (stored i (Nat.not_lt.mp question) below)

/-! ## When a packet is confined -/

theorem ignored_received (header : 12 ≤ packet.length) (before : Memory) :
    Ignored (received packet before) ↔ Ignored (packet.getD · 0) := by
  unfold Ignored
  rw [received_le (by omega), received_le (by omega), received_le (by omega)]

/-- A packet that is answered has its whole question in it. -/
theorem Confined.question (confined : Confined conf packet) (header : 12 ≤ packet.length)
    (most : packet.length ≤ MAX_PACK_LEN) (heeded : ¬Ignored (packet.getD · 0))
    (standard : packet.getD 2 0 &&& 0x78 = 0) :
    questionEnd packet ≤ packet.length + 1 ∧
      (questionEnd packet ≤ MAX_PACK_LEN ∨ conf.silent) := by
  have bound := nameLength_le header
  have string := @received_isString packet (fun _ => 0) header
  have flags := @received_le packet (fun _ => 0) 2 (by omega)
  obtain ⟨-, loaded, zero⟩ := @standardQuery_replies _ _ conf string
  have ran := @processPacket_run _ _ conf (mt (ignored_received header _).mp heeded) string
    (by omega)
  rw [flags, standard, if_neg (not_not.mpr rfl)] at ran
  have complete := confined.loads (fun _ => 0) (12 + nameLength packet + 4) (by
    rw [ran]
    exact List.mem_append_right _ (List.mem_cons_of_mem _ loaded))
  refine ⟨Nat.succ_le_succ complete, ?_⟩
  by_contra neither
  obtain ⟨long, loud⟩ := not_or.mp neither
  unfold questionEnd at long
  -- the last byte of the class is the NUL behind the packet
  have last : 12 + nameLength packet + 4 = packet.length := by omega
  have returns := confined.returns fun _ => 0
  rw [ran] at returns
  simp only at returns
  rw [zero (by rw [last, received_le (Nat.le_refl _), List.getD_eq_default _ _ (Nat.le_refl _)])
    (Bool.eq_false_iff.mpr loud)] at returns
  omega

/-- What the error reply to a query that is not a standard one repeats is its whole question. -/
theorem Confined.repeated (confined : Confined conf packet) (header : 12 ≤ packet.length)
    (most : packet.length ≤ MAX_PACK_LEN) (heeded : ¬Ignored (packet.getD · 0))
    (other : packet.getD 2 0 &&& 0x78 ≠ 0) (loud : conf.silent = false) :
    questionEnd packet ≤ packet.length + 1 ∧ questionEnd packet ≤ MAX_PACK_LEN := by
  have bound := nameLength_le header
  have ended : ∀ before,
      (∀ i ∈ ((processPacket conf).run (received packet before)).stores, i < 12) ∧
        ((processPacket conf).run (received packet before)).value = questionEnd packet := by
    intro before
    obtain ⟨-, stores, value⟩ := @processPacket_other _ _ conf
      (mt (ignored_received header before).mp heeded) (by rwa [received_le (by omega)])
      (received_isString header) (by omega)
    rw [loud] at value
    exact ⟨stores, value⟩
  have fits := (ended fun _ => 0).2 ▸ confined.returns fun _ => 0
  refine ⟨?_, fits⟩
  by_contra short
  unfold questionEnd at short
  -- the last byte that is sent is what was there before
  have sent : ∀ before, Dnsd.reply conf packet before = some ((List.range (questionEnd packet)).map
      ((processPacket conf).run (received packet before)).memory) := by
    intro before
    simp only [Dnsd.reply, (ended before).2]
    exact if_neg (Nat.succ_ne_zero _)
  have last : ∀ before, ((processPacket conf).run (received packet before)).memory
      (12 + nameLength packet + 4) = before (12 + nameLength packet + 4) := by
    intro before
    rw [run_frame _ fun mem => absurd ((ended before).1 _ mem) (by omega)]
    exact received_behind (by omega)
  have same := confined.reply (fun _ => 0) (fun _ => 1)
  rw [sent, sent] at same
  have equal := List.map_inj_left.mp (Option.some.inj same) (12 + nameLength packet + 4)
    (List.mem_range.mpr (Nat.lt_succ_self _))
  rw [last, last] at equal
  exact absurd equal (by decide)

/-- A reply is of the packet alone where it is not sent, or where the packet holds its question, be
it with the NUL behind it, and the reply is no longer than a packet. -/
theorem confined_iff (header : 12 ≤ packet.length) (most : packet.length ≤ MAX_PACK_LEN) :
    Confined conf packet ↔ Ignored (packet.getD · 0) ∨
      (packet.getD 2 0 &&& 0x78 ≠ 0 ∧ conf.silent) ∨
      (questionEnd packet ≤ packet.length + 1 ∧
        (questionEnd packet ≤ MAX_PACK_LEN ∨ conf.silent)) := by
  have bound := nameLength_le header
  constructor
  · intro confined
    by_cases heeded : Ignored (packet.getD · 0)
    · exact .inl heeded
    · right
      by_cases standard : packet.getD 2 0 &&& 0x78 = 0
      · exact .inr (confined.question header most heeded standard)
      · cases loud : conf.silent with
        | true => exact .inl ⟨standard, rfl⟩
        | false =>
          have whole := confined.repeated header most heeded standard loud
          exact .inr ⟨whole.1, .inl whole.2⟩
  · intro holds
    refine confined_of_inside fun before => ?_
    have string := @received_isString packet before header
    by_cases heeded : Ignored (packet.getD · 0)
    · obtain ⟨only, value⟩ :=
        @processPacket_ignored _ conf ((ignored_received header before).mpr heeded)
      refine ⟨fun i mem => ?_, fun i mem => ?_, ?_, fun i below => ?_⟩
      · have head := only.loads i mem
        omega
      · exact absurd mem (only.stores ▸ List.not_mem_nil)
      · exact value ▸ Nat.zero_le _
      · exact absurd (value ▸ below) (Nat.not_lt_zero i)
    · have heeded' := mt (ignored_received header before).mp heeded
      rcases holds.resolve_left heeded with ⟨other, silent⟩ | ⟨complete, fits⟩
      · obtain ⟨loads, stores, value⟩ := @processPacket_other _ _ conf heeded'
          (by rwa [received_le (by omega)]) string (by omega)
        rw [if_pos silent] at value
        refine ⟨fun i mem => ?_, fun i mem => ?_, ?_, fun i below => ?_⟩
        · exact Nat.le_trans (loads i mem) bound
        · exact Nat.lt_trans (stores i mem) (by decide)
        · exact value ▸ Nat.zero_le _
        · exact absurd (value ▸ below) (Nat.not_lt_zero i)
      · exact (processPacket_replies heeded' string (by omega)).inside complete fits

/-- A query for the address of `a`. -/
def queryA : List UInt8 := [0, 1, 1, 0, 0, 1, 0, 0, 0, 0, 0, 0, 1, 97, 0, 0, 1, 0, 1]

theorem confined_queryA : Confined { entries := [] } queryA :=
  (confined_iff (by decide) (by decide)).mpr (.inr (.inr ⟨by decide, .inl (by decide)⟩))

/-- Without its type and class, the reply ends in four bytes that were there before. -/
theorem not_confined_truncated : ∃ conf packet,
    12 ≤ packet.length ∧ packet.length ≤ MAX_PACK_LEN ∧ ¬Confined conf packet := by
  refine ⟨{ entries := [] }, queryA.take 14, by decide, by decide, fun confined => ?_⟩
  exact absurd (confined.reply (fun _ => 7) (fun _ => 8)) (by decide +kernel)

end Busybox.Dnsd
