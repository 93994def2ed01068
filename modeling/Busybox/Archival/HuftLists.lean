import Busybox.Archival.HuftSets

/-!
# The tables that `huft_build` leaves

They are linked in the order of their allocation, and no older table is among them.
-/

namespace Busybox.Archival.Gunzip

open LinkedHeap CodeLengths

variable {heap heap₀ : Heap Table} {set : CodeSet} {builder : Builder} {id : Nat}

/-! ## Links -/

/-- The link of a live table. -/
def linkOf (heap : Heap Table) (id : Nat) : Option (Option Nat) := (get heap id).map Table.link

theorem linkOf_alloc (table : Table) :
    linkOf (alloc heap table) id = if id = heap.length then some table.link else linkOf heap id := by
  unfold linkOf
  rw [get_alloc]
  split <;> rfl

/-- Entries are stored without a change of the links. -/
theorem linkOf_store {f : Table → Table} (stores : ∀ table, (f table).link = table.link)
    (place : Nat) : linkOf (modify heap place f) id = linkOf heap id := by
  unfold linkOf
  rw [get_modify]
  split
  · cases get heap id with
    | none => rfl
    | some table => exact congrArg some (stores table)
  · rfl

theorem linkOf_link (last : Nat) (link : Option Nat) :
    linkOf (modify heap last fun table => { table with link }) id =
      if last = id then (linkOf heap id).map fun _ => link else linkOf heap id := by
  unfold linkOf
  rw [get_modify]
  split
  · cases get heap id <;> rfl
  · rfl

/-! ## Growth -/

/-- The tables that have been made on top of older ones. -/
structure Grown (heap₀ : Heap Table) (builder : Builder) : Prop where
  longer : heap₀.length ≤ builder.heap.length
  older : ∀ id < heap₀.length, linkOf builder.heap id = linkOf heap₀ id
  newer : ∀ id, heap₀.length ≤ id → id < builder.heap.length →
    linkOf builder.heap id = some (if id + 1 < builder.heap.length then some (id + 1) else none)
  before : builder.heap.length = heap₀.length → builder.result = .errRet ∧ builder.t = none
  after : heap₀.length < builder.heap.length →
    builder.result = ⟨some heap₀.length, false⟩ ∧ builder.t = some (builder.heap.length - 1)

/-- Only the heap, the result and the link to store count. -/
theorem Grown.congr {builder' : Builder} (grown : Grown heap₀ builder)
    (length : builder'.heap.length = builder.heap.length)
    (links : ∀ id, linkOf builder'.heap id = linkOf builder.heap id)
    (result : builder'.result = builder.result) (t : builder'.t = builder.t) :
    Grown heap₀ builder' where
  longer := length ▸ grown.longer
  older id old := (links id).trans (grown.older id old)
  newer id new inside := by
    rw [links, length]
    exact grown.newer id new (length ▸ inside)
  before same := by
    rw [result, t]
    exact grown.before (length.symm.trans same)
  after more := by
    rw [result, t, length]
    exact grown.after (length ▸ more)

theorem start_grown (heap : Heap Table) (x : List Nat) : Grown heap (.start heap x) where
  longer := Nat.le_refl _
  older _ _ := rfl
  newer _ new inside := absurd inside (Nat.not_lt_of_le new)
  before _ := ⟨rfl, rfl⟩
  after more := absurd more (Nat.lt_irrefl _)

/-- A new table before it is connected to the last one. -/
def linkTable (q bits : Nat) (builder : Builder) : Builder :=
  let heap := alloc builder.heap ⟨none, List.replicate (2 ^ bits) ⟨0, 0, .n 0⟩⟩
  { builder with
    heap := match builder.t with
      | none => heap
      | some last => modify heap last fun table => { table with link := some q }
    result := match builder.t with
      | none => ⟨some q, false⟩
      | some _ => builder.result
    t := some q }

theorem linkTable_grown (bits : Nat) (grown : Grown heap₀ builder) :
    Grown heap₀ (linkTable builder.heap.length bits builder) ∧
      (linkTable builder.heap.length bits builder).heap.length = builder.heap.length + 1 := by
  have longer := grown.longer
  rcases Nat.eq_or_lt_of_le longer with same | more
  · obtain ⟨result, t⟩ := grown.before same.symm
    unfold linkTable
    rw [t]
    refine ⟨⟨?_, ?_, ?_, ?_, ?_⟩, alloc_length _ _⟩
    all_goals dsimp only
    · rw [alloc_length]
      omega
    · intro id old
      rw [linkOf_alloc, if_neg (by omega)]
      exact grown.older id old
    · intro id new inside
      rw [alloc_length] at inside ⊢
      rw [linkOf_alloc, if_pos (by omega), if_neg (by omega)]
    · intro same'
      rw [alloc_length] at same'
      omega
    · intro _
      rw [alloc_length, same]
      exact ⟨rfl, rfl⟩
  · obtain ⟨result, t⟩ := grown.after more
    unfold linkTable
    rw [t]
    refine ⟨⟨?_, ?_, ?_, ?_, ?_⟩, (modify_length _ _ _).trans (alloc_length _ _)⟩
    all_goals dsimp only
    · rw [modify_length, alloc_length]
      omega
    · intro id old
      rw [linkOf_link, if_neg (by omega), linkOf_alloc, if_neg (by omega)]
      exact grown.older id old
    · intro id new inside
      rw [modify_length, alloc_length] at inside ⊢
      rw [linkOf_link, linkOf_alloc]
      rcases Nat.lt_trichotomy (id + 1) builder.heap.length with before | last | this
      · rw [if_neg (by omega), if_neg (by omega), grown.newer id new (by omega), if_pos before,
          if_pos (by omega)]
      · rw [if_pos (by omega), if_neg (by omega), grown.newer id new (by omega), Option.map_some,
          last, if_pos (by omega)]
      · rw [if_neg (by omega), if_pos (by omega), if_neg (by omega)]
    · intro same'
      rw [modify_length, alloc_length] at same'
      omega
    · intro _
      rw [modify_length, alloc_length, result]
      exact ⟨rfl, rfl⟩

theorem newTable_grown (set : CodeSet) (k a : Nat) (grown : Grown heap₀ builder) :
    Grown heap₀ (newTable set k a builder) ∧
      (newTable set k a builder).heap.length = builder.heap.length + 1 := by
  obtain ⟨linked, length⟩ := linkTable_grown
    (tableBits set k a (builder.ws.getD builder.levels 0)) grown
  unfold newTable
  dsimp only
  split
  · exact ⟨linked.congr rfl (fun _ => rfl) rfl rfl, length⟩
  · refine ⟨linked.congr ?_ ?_ rfl rfl, ?_⟩
    · exact modify_length _ _ _
    · intro id
      exact linkOf_store (by exact fun _ => rfl) _
    · exact (modify_length _ _ _).trans length

theorem makeTables_grown (set : CodeSet) (k a depth : Nat) (grown : Grown heap₀ builder) :
    Grown heap₀ (makeTables set k a depth builder) ∧
      builder.heap.length ≤ (makeTables set k a depth builder).heap.length := by
  induction depth generalizing builder with
  | zero => exact ⟨grown, Nat.le_refl _⟩
  | succ depth ih =>
    rw [makeTables]
    split
    · obtain ⟨more, length⟩ := newTable_grown set k a grown
      obtain ⟨grown', le⟩ := ih more
      exact ⟨grown', by omega⟩
    · exact ⟨grown, Nat.le_refl _⟩

theorem fillEntries_link (start step : Nat) (r : Huft) (table : Table) :
    (fillEntries start step r table).link = table.link :=
  rfl

theorem makeCode_grown (set : CodeSet) (code : Nat × Nat) (grown : Grown heap₀ builder) :
    Grown heap₀ (makeCode set builder code) ∧
      (makeTables set code.1 code.2 bmax builder).heap.length =
        (makeCode set builder code).heap.length := by
  obtain ⟨made, -⟩ := makeTables_grown set code.1 code.2 bmax grown
  unfold makeCode
  dsimp only
  refine ⟨made.congr (modify_length _ _ _) ?_ rfl rfl, (modify_length _ _ _).symm⟩
  intro id
  exact linkOf_store (fillEntries_link _ _ _) _

theorem makeCodes_grown (set : CodeSet) (codes : List (Nat × Nat)) (grown : Grown heap₀ builder) :
    Grown heap₀ (codes.foldl (makeCode set) builder) ∧
      builder.heap.length ≤ (codes.foldl (makeCode set) builder).heap.length := by
  induction codes generalizing builder with
  | nil => exact ⟨grown, Nat.le_refl _⟩
  | cons code codes ih =>
    obtain ⟨grown', length⟩ := makeCode_grown set code grown
    obtain ⟨ended, le⟩ := ih grown'
    have := (makeTables_grown set code.1 code.2 bmax grown).2
    exact ⟨ended, by rw [List.foldl_cons]; omega⟩

/-- The shortest codes come first, of which there are some. -/
theorem codesOf_head {c : List Nat} {j g y : Nat} (le : j ≤ g) (inside : j < c.length)
    (counted : 0 < c.getD j 0) :
    (codesOf (c.modify g (· + y)) j g).head? = some (j, (c.modify g (· + y)).getD j 0 - 1) := by
  have filled : 0 < (c.modify g (· + y)).getD j 0 := by
    rw [getD_modify c _ _ inside]
    split <;> omega
  obtain ⟨count, size⟩ := Nat.exists_eq_add_of_lt filled
  rw [codesOf, show g + 1 - j = g - j + 1 by omega, List.range'_succ, List.flatMap_cons, size,
    Nat.zero_add, List.range_succ, List.reverse_append]
  rfl

/-- The first code of a set has a table made for it. -/
theorem makeCodes_first {k a : Nat} (codes : List (Nat × Nat)) (x : List Nat) (positive : 0 < k)
    (inside : codes.head? = some (k, a)) :
    heap.length < (codes.foldl (makeCode set) (.start heap x)).heap.length := by
  cases codes with
  | nil => cases inside
  | cons code codes =>
    obtain rfl := Option.some.inj inside
    have start := start_grown heap x
    have level : (Builder.start heap x).ws.getD (Builder.start heap x).levels 0 < k := positive
    obtain ⟨one, length⟩ := newTable_grown set k a start
    have rest := (makeTables_grown set k a 15 one).2
    obtain ⟨made, same⟩ := makeCode_grown set (k, a) start
    have := (makeCodes_grown set codes made).2
    dsimp only at same
    rw [show bmax = 15 + 1 from rfl, makeTables, if_pos level] at same
    have base : (Builder.start heap x).heap.length = heap.length := rfl
    rw [List.foldl_cons]
    omega

/-- So the result is the first table that has been made. -/
theorem makeCodes_result {k a : Nat} (codes : List (Nat × Nat)) (x : List Nat) (positive : 0 < k)
    (inside : codes.head? = some (k, a)) :
    (codes.foldl (makeCode set) (.start heap x)).result = ⟨some heap.length, false⟩ :=
  ((makeCodes_grown set codes (start_grown heap x)).1.after (makeCodes_first codes x positive inside)).1

theorem Grown.chain (grown : Grown heap₀ builder) (more : heap₀.length < builder.heap.length) :
    Chain Table.link builder.heap (some heap₀.length)
      (List.range' heap₀.length (builder.heap.length - heap₀.length)) := by
  obtain ⟨count, size⟩ : ∃ count, builder.heap.length - heap₀.length = count + 1 :=
    ⟨builder.heap.length - heap₀.length - 1, by omega⟩
  rw [size]
  apply chain_range
  intro k inside
  obtain ⟨table, found, link⟩ := Option.map_eq_some_iff.mp
    (grown.newer (heap₀.length + k) (by omega) (by omega))
  refine ⟨table, found, link.trans ?_⟩
  split <;> split <;> first | rfl | omega

/-! ## What is returned -/

/-- The tables that `huft_build` returns are its own, and the older ones are as they were. -/
structure Made (heap : Heap Table) (built : Built) : Prop where
  longer : heap.length ≤ built.heap.length
  older : ∀ id < heap.length, linkOf built.heap id = linkOf heap id
  chain : ∃ ids, Chain Table.link built.heap built.result.table ids ∧ ∀ id ∈ ids, heap.length ≤ id

theorem Grown.made {built : Built} (grown : Grown heap builder) (same : built.heap = builder.heap)
    (result : built.result.table = builder.result.table) : Made heap built where
  longer := same ▸ grown.longer
  older := same ▸ grown.older
  chain := by
    rw [same, result]
    rcases Nat.eq_or_lt_of_le grown.longer with length | more
    · rw [(grown.before length.symm).1]
      exact ⟨[], .nil, nofun⟩
    · rw [(grown.after more).1]
      exact ⟨_, grown.chain more, fun id inside => (List.mem_range'_1.mp inside).1⟩

theorem huftBuild_made (heap : Heap Table) (b : List Nat) (s : Nat) (cpExt : CpExt) (m : Nat) :
    Made heap (huftBuild heap b s cpExt m) := by
  unfold huftBuild
  dsimp only
  split
  case isTrue =>
    refine ⟨by dsimp only; rw [alloc_length]; omega, fun id old => ?_, [heap.length], ?_, ?_⟩
    · dsimp only
      rw [linkOf_alloc, if_neg (by omega)]
    · have here : get (alloc heap ⟨none, [⟨99, 1, .n 0⟩, ⟨99, 1, .n 0⟩]⟩) heap.length =
          some ⟨none, [⟨99, 1, .n 0⟩, ⟨99, 1, .n 0⟩]⟩ := by
        rw [get_alloc, if_pos rfl]
      exact .cons here .nil List.not_mem_nil
    · intro id inside
      exact Nat.le_of_eq (List.mem_singleton.mp inside).symm
  case isFalse =>
    split
    case h_1 => exact ⟨Nat.le_refl _, fun _ _ => rfl, [], .nil, by rintro _ ⟨⟩⟩
    case h_2 y missing =>
      exact (makeCodes_grown _ _ (start_grown heap _)).1.made rfl (by dsimp only; split <;> rfl)

/-- The lowest bit is set for a code set that is bad. -/
theorem huftBuild_bad (heap : Heap Table) {b : List Nat} (s : Nat) (cpExt : CpExt) (m : Nat)
    (small : ∀ length ∈ b, length ≤ bmax) :
    (huftBuild heap b s cpExt m).result.badHuft = true ↔ BadSet b := by
  unfold huftBuild
  dsimp only
  split
  case isTrue zero =>
    rw [counts_zero] at zero
    have nothing : occupied b bmax = 0 := occupied_eq_zero fun length inside =>
      .inl (zero length inside)
    constructor
    · rintro ⟨⟩
    · rintro (many | ⟨-, length, inside, long⟩)
      · rw [Oversubscribed, nothing] at many
        exact absurd many (Nat.not_lt_zero _)
      · have := zero length inside
        omega
  case isFalse nonzero =>
    have some_code : ∃ length ∈ b, length ≠ 0 := by
      rw [counts_zero] at nonzero
      simpa using nonzero
    obtain ⟨positive, shortest, none_shorter⟩ := minLength_spec small some_code
    obtain ⟨-, longest, none_longer⟩ := maxLength_spec small some_code
    have inside := small _ longest
    rw [dummies_eq inside positive (none_longer _ shortest) none_shorter]
    unfold BadSet
    rw [oversubscribed_scale none_longer inside, incomplete_scale none_longer inside]
    by_cases many : Oversubscribed b (maxLength (lengthCounts b))
    · rw [if_pos many]
      simp only [many, true_or, iff_true]
      rfl
    · have room : occupied b (maxLength (lengthCounts b)) ≤ 2 ^ maxLength (lengthCounts b) :=
        Nat.le_of_not_lt many
      have counted : 0 < (lengthCounts b).getD (minLength (lengthCounts b)) 0 := by
        rw [lengthCounts_count b (small _ shortest)]
        exact List.count_pos_iff.mpr shortest
      have first := codesOf_head (y := 2 ^ maxLength (lengthCounts b) -
        occupied b (maxLength (lengthCounts b))) (none_longer _ shortest)
        (by rw [lengthCounts_length]; have := small _ shortest; omega) counted
      rw [if_neg many]
      dsimp only
      have missing : 2 ^ maxLength (lengthCounts b) - occupied b (maxLength (lengthCounts b)) ≠ 0 ↔
          Incomplete b (maxLength (lengthCounts b)) := by
        unfold Incomplete
        omega
      have more : maxLength (lengthCounts b) ≠ 1 ↔ ∃ length ∈ b, 1 < length := by
        constructor
        · intro long
          have := none_longer _ shortest
          exact ⟨_, longest, by omega⟩
        · rintro ⟨length, inside, long⟩ one
          have := none_longer length inside
          omega
      rw [or_iff_right many, ← missing, ← more]
      split
      case isTrue bad => exact iff_of_true rfl bad
      case isFalse good =>
        rw [makeCodes_result _ _ positive first]
        exact iff_of_false (by rintro ⟨⟩) good

end Busybox.Archival.Gunzip
