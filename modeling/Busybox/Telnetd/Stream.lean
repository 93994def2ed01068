import Busybox.Telnetd.Rings

/-!
# Client streams

What the client's bytes mean: a doubled IAC is a 255, a command of two bytes is nothing, and a CR
LF or CR NUL is a CR. `Decodes` leaves open what becomes of a LF or NUL behind a CR where a new
read begins with it; such bytes are marked.
-/

namespace Busybox.Telnetd

instance (d : UInt8) : Decidable (Eaten d) := inferInstanceAs (Decidable (d = lf ∨ d = 0))

/-- What the client has typed. -/
def typed : List UInt8 → List UInt8
  | [] => []
  | [d] => [d]
  | d :: c :: stream =>
    if d = iac then if c = iac then iac :: typed stream else typed stream
    else if d = cr ∧ Eaten c then cr :: typed stream
    else d :: typed (c :: stream)

/-- Every IAC is doubled or begins a command of two bytes. -/
def WellFormed : List UInt8 → Prop
  | [] => True
  | [d] => d ≠ iac
  | d :: c :: stream =>
    if d = iac then (c = iac ∨ 240 ≤ c ∧ c ≤ 249) ∧ WellFormed stream else WellFormed (c :: stream)

/-- Whether the bytes may become the text, if a marked byte behind a CR may be eaten or not. -/
inductive Decodes : List (UInt8 × Bool) → List UInt8 → Prop
  | nil : Decodes [] []
  | plain {d : UInt8} {m : Bool} {stream : List (UInt8 × Bool)} {text : List UInt8}
    (other : d ≠ iac) (single : d ≠ cr) (rest : Decodes stream text) : Decodes ((d, m) :: stream) (d :: text)
  | single {m : Bool} {stream : List (UInt8 × Bool)} {text : List UInt8}
    (apart : ∀ d ∈ stream.head?, Eaten d.1 → d.2 = true) (rest : Decodes stream text) :
    Decodes ((cr, m) :: stream) (cr :: text)
  | pair {d : UInt8} {m m' : Bool} {stream : List (UInt8 × Bool)} {text : List UInt8}
    (eaten : Eaten d) (rest : Decodes stream text) :
    Decodes ((cr, m) :: (d, m') :: stream) (cr :: text)
  | literal {m m' : Bool} {stream : List (UInt8 × Bool)} {text : List UInt8}
    (rest : Decodes stream text) : Decodes ((iac, m) :: (iac, m') :: stream) (iac :: text)
  | command {code : UInt8} {m m' : Bool} {stream : List (UInt8 × Bool)} {text : List UInt8}
    (least : 240 ≤ code) (most : code ≤ 249) (rest : Decodes stream text) :
    Decodes ((iac, m) :: (code, m') :: stream) text

/-! ## Well-formed streams -/

theorem WellFormed.tail {d : UInt8} {stream : List UInt8} (formed : WellFormed (d :: stream))
    (other : d ≠ iac) : WellFormed stream := by
  cases stream with
  | nil => trivial
  | cons c stream =>
    rw [WellFormed, if_neg other] at formed
    exact formed

theorem WellFormed.cons {d : UInt8} {stream : List UInt8} (formed : WellFormed stream)
    (other : d ≠ iac) : WellFormed (d :: stream) := by
  cases stream with
  | nil => exact other
  | cons c stream =>
    rw [WellFormed, if_neg other]
    exact formed

theorem WellFormed.sequence {c : UInt8} {stream : List UInt8}
    (formed : WellFormed (iac :: c :: stream)) :
    (c = iac ∨ 240 ≤ c ∧ c ≤ 249) ∧ WellFormed stream := by
  rw [WellFormed, if_pos rfl] at formed
  exact formed

theorem WellFormed.behind {text stream : List UInt8} (formed : WellFormed (text ++ stream))
    (plain : iac ∉ text) : WellFormed stream := by
  induction text with
  | nil => exact formed
  | cons d text ih =>
    rw [List.mem_cons, not_or] at plain
    exact ih (WellFormed.tail formed (Ne.symm plain.1)) plain.2

theorem WellFormed.escape {c : UInt8} {stream : List UInt8} (code : c = iac ∨ 240 ≤ c ∧ c ≤ 249)
    (formed : WellFormed stream) : WellFormed (iac :: c :: stream) := by
  rw [WellFormed, if_pos rfl]
  exact ⟨code, formed⟩

/-- Of a sequence, the second byte is neither a NUL nor a CR. -/
theorem WellFormed.code_ne {c d : UInt8} {stream : List UInt8}
    (formed : WellFormed (iac :: c :: stream)) (low : d < 240) : c ≠ d := by
  rintro rfl
  rcases (WellFormed.sequence formed).1 with rfl | ⟨least, -⟩
  · exact absurd low (by decide)
  · exact absurd low (UInt8.not_lt.mpr least)

/-- A NUL may be left out. -/
theorem WellFormed.without_nul {before after : List UInt8}
    (formed : WellFormed (before ++ 0 :: after)) : WellFormed (before ++ after) := by
  fun_induction WellFormed before with
  | case1 => exact WellFormed.tail formed (by decide)
  | case2 d =>
    by_cases escape : d = iac
    · subst escape
      exact absurd rfl (WellFormed.code_ne formed (by decide))
    · exact (WellFormed.tail (WellFormed.tail formed escape) (by decide)).cons escape
  | case3 c stream ih =>
    obtain ⟨code, rest⟩ := WellFormed.sequence formed
    exact WellFormed.escape code (ih rest)
  | case4 d c stream other ih => exact (ih (WellFormed.tail formed other)).cons other

/-! ## What is typed -/

theorem typed_cons {d : UInt8} (escape : d ≠ iac) (single : d ≠ cr) (stream : List UInt8) :
    typed (d :: stream) = d :: typed stream := by
  cases stream with
  | nil => rfl
  | cons c stream => rw [typed, if_neg escape, if_neg fun both => single both.1]

theorem typed_cr {stream : List UInt8} (apart : ∀ d ∈ stream.head?, ¬Eaten d) :
    typed (cr :: stream) = cr :: typed stream := by
  cases stream with
  | nil => rfl
  | cons c stream =>
    rw [typed, if_neg (by decide), if_neg fun both => apart c rfl both.2]

theorem typed_pair {d : UInt8} (eaten : Eaten d) (stream : List UInt8) :
    typed (cr :: d :: stream) = cr :: typed stream := by
  rw [typed, if_neg (by decide), if_pos ⟨rfl, eaten⟩]

theorem typed_literal (stream : List UInt8) :
    typed (iac :: iac :: stream) = iac :: typed stream := by
  rw [typed, if_pos rfl, if_pos rfl]

theorem typed_command {code : UInt8} (most : code ≤ 249) (stream : List UInt8) :
    typed (iac :: code :: stream) = typed stream := by
  rw [typed, if_pos rfl, if_neg fun same => absurd (same ▸ most) (by decide)]

/-- Where no marked byte can be eaten, the text is what was typed. -/
theorem Decodes.eq_typed {stream : List (UInt8 × Bool)} {text : List UInt8}
    (decodes : Decodes stream text) (unsplit : ∀ d ∈ stream, d.2 = true → ¬Eaten d.1) :
    text = typed (stream.map Prod.fst) := by
  induction decodes with
  | nil => rfl
  | plain other single rest ih =>
    rw [List.map_cons, typed_cons other single]
    exact congrArg _ (ih fun d mem => unsplit d (List.mem_cons_of_mem _ mem))
  | @single m stream text apart rest ih =>
    rw [List.map_cons, typed_cr, ← ih fun d mem => unsplit d (List.mem_cons_of_mem _ mem)]
    intro d first eaten
    rw [List.head?_map, Option.mem_map] at first
    obtain ⟨marked, isFirst, rfl⟩ := first
    exact unsplit marked (List.mem_cons_of_mem _ (List.mem_of_mem_head? isFirst))
      (apart marked isFirst eaten) eaten
  | pair eaten rest ih =>
    rw [List.map_cons, List.map_cons, typed_pair eaten]
    exact congrArg _ (ih fun d mem => unsplit d (by simp [mem]))
  | literal rest ih =>
    rw [List.map_cons, List.map_cons, typed_literal]
    exact congrArg _ (ih fun d mem => unsplit d (by simp [mem]))
  | command least most rest ih =>
    rw [List.map_cons, List.map_cons, typed_command most]
    exact ih fun d mem => unsplit d (by simp [mem])

/-- A NUL behind a CR may be left out, if nothing that can be eaten comes after it. -/
theorem typed_without_nul {before after : List UInt8}
    (formed : WellFormed (before ++ cr :: 0 :: after)) (apart : ∀ d ∈ after.head?, ¬Eaten d) :
    typed (before ++ cr :: 0 :: after) = typed (before ++ cr :: after) := by
  fun_induction typed before with
  | case1 => rw [List.nil_append, List.nil_append, typed_pair (.inr rfl), typed_cr apart]
  | case2 d =>
    by_cases escape : d = iac
    · subst escape
      exact absurd rfl (WellFormed.code_ne formed (by decide))
    · by_cases single : d = cr
      · subst single
        have next (rest : List UInt8) : typed (cr :: cr :: rest) = cr :: typed (cr :: rest) := by
          refine typed_cr fun d first eaten => ?_
          rw [← Option.some.inj first] at eaten
          exact absurd eaten (by decide)
        rw [List.singleton_append, List.singleton_append, next, next, typed_pair (.inr rfl),
          typed_cr apart]
      · rw [List.singleton_append, List.singleton_append, typed_cons escape single,
          typed_cons escape single, typed_pair (.inr rfl), typed_cr apart]
  | case3 stream ih =>
    have rest := (WellFormed.sequence formed).2
    calc typed (iac :: iac :: (stream ++ cr :: 0 :: after))
        = iac :: typed (stream ++ cr :: 0 :: after) := typed_literal _
      _ = iac :: typed (stream ++ cr :: after) := by rw [ih rest]
      _ = typed (iac :: iac :: (stream ++ cr :: after)) := (typed_literal _).symm
  | case4 c stream other ih =>
    obtain ⟨code, rest⟩ := WellFormed.sequence formed
    have most : c ≤ 249 := (code.resolve_left other).2
    calc typed (iac :: c :: (stream ++ cr :: 0 :: after))
        = typed (stream ++ cr :: 0 :: after) := typed_command most _
      _ = typed (stream ++ cr :: after) := ih rest
      _ = typed (iac :: c :: (stream ++ cr :: after)) := (typed_command most _).symm
  | case5 d c stream escape pair ih =>
    obtain ⟨rfl, eaten⟩ := pair
    have other : c ≠ iac := by
      rintro rfl
      exact absurd eaten (by decide)
    have rest := WellFormed.tail (WellFormed.tail formed escape) other
    calc typed (cr :: c :: (stream ++ cr :: 0 :: after))
        = cr :: typed (stream ++ cr :: 0 :: after) := typed_pair eaten _
      _ = cr :: typed (stream ++ cr :: after) := by rw [ih rest]
      _ = typed (cr :: c :: (stream ++ cr :: after)) := (typed_pair eaten _).symm
  | case6 d c stream escape single ih =>
    have next (rest : List UInt8) : typed (d :: c :: rest) = d :: typed (c :: rest) := by
      rw [typed, if_neg escape, if_neg single]
    calc typed (d :: c :: (stream ++ cr :: 0 :: after))
        = d :: typed (c :: stream ++ cr :: 0 :: after) := next _
      _ = d :: typed (c :: stream ++ cr :: after) := by rw [ih (WellFormed.tail formed escape)]
      _ = typed (d :: c :: (stream ++ cr :: after)) := (next _).symm

/-! ## Texts -/

/-- A text with a CR at its end only, and what comes after it. -/
theorem Decodes.text {sent rest : List (UInt8 × Bool)} {text : List UInt8}
    (plain : iac ∉ sent.map Prod.fst) (line : cr ∉ (sent.map Prod.fst).dropLast)
    (ends : (sent.map Prod.fst).getLast? = some cr → ∀ d ∈ rest.head?, Eaten d.1 → d.2 = true)
    (decodes : Decodes rest text) : Decodes (sent ++ rest) (sent.map Prod.fst ++ text) := by
  induction sent with
  | nil => exact decodes
  | cons d sent ih =>
    obtain ⟨d, m⟩ := d
    rw [List.map_cons, List.mem_cons, not_or] at plain
    cases sent with
    | nil =>
      by_cases single : d = cr
      · subst single
        exact .single (ends rfl) decodes
      · exact .plain (Ne.symm plain.1) single decodes
    | cons d' sent =>
      rw [List.map_cons, List.map_cons, List.dropLast_cons_cons, List.mem_cons, not_or] at line
      rw [List.map_cons, List.map_cons, List.getLast?_cons_cons] at ends
      exact .plain (Ne.symm plain.1) (Ne.symm line.1) (ih plain.2 line.2 ends)

end Busybox.Telnetd
