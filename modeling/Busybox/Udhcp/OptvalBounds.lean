import Busybox.Udhcp.Optval
import Busybox.Lib.Blocks
import Mathlib.Tactic.Ring
import Mathlib.Tactic.Linarith

/-!
# The buffer of an option text

The estimate of `xmalloc_optname_optval` is enough for every payload: what is printed for
a type is at most `room`, whatever the bytes are, and no byte behind the payload is read.
-/

namespace Busybox.Udhcp.Optval

open Memory
open Names (dot space)

variable {lp64 : Bool} {payload text : Text} {total : Nat} {out : Output}

/-! ## What the buffer holds -/

/-- The buffer starts with the text, and `dest` points behind it. -/
structure Holds (total : Nat) (out : Output) (text : Text) : Prop where
  dest : out.dest = text.length
  cells : ∃ back, out.ret = text.map some ++ back ∧ text.length + back.length = total

/-- The cells are a string. -/
def IsString (ret : Block UInt8) (text : Text) : Prop :=
  ∃ back, ret = text.map some ++ some 0 :: back

theorem store_behind (text : Text) (back : Block UInt8) (values : Text)
    (fits : values.length ≤ back.length) :
    store (text.map some ++ back) text.length values =
      some (text.map some ++ (values.map some ++ back.drop values.length)) := by
  have split : text.map some ++ back =
      text.map some ++ (back.take values.length ++ back.drop values.length) := by
    rw [List.take_append_drop]
  rw [split]
  exact store_append _ _ _ _ (by simp [fits]) (by simp)

theorem Holds.store (holds : Holds total out text) (values : Text)
    (fits : text.length + values.length ≤ total) :
    ∃ back, Memory.store out.ret out.dest values = some (text.map some ++ (values.map some ++ back)) ∧
      text.length + values.length + back.length = total := by
  obtain ⟨dest, back, cells, size⟩ := holds
  have stored := store_behind text back values (by omega)
  rw [← cells, ← dest] at stored
  refine ⟨_, stored, ?_⟩
  rw [List.length_drop]
  omega

theorem Holds.sprintf (holds : Holds total out text) (more : Text)
    (fits : text.length + more.length + 1 ≤ total) :
    ∃ next, out.sprintf more = .ok next ∧ Holds total next (text ++ more) ∧
      IsString next.ret (text ++ more) := by
  obtain ⟨back, stored, size⟩ := holds.store (more ++ [0]) (by simp; omega)
  have nul : text.map some ++ ((more ++ [0]).map some ++ back) =
      (text ++ more).map some ++ some 0 :: back := by simp
  rw [nul] at stored
  refine ⟨⟨_, out.dest + more.length⟩, by rw [Output.sprintf, stored]; rfl, ⟨?_, _, rfl, ?_⟩,
    _, rfl⟩
  · rw [List.length_append, holds.dest]
  · simp at size ⊢
    omega

theorem Holds.put (holds : Holds total out text) (c : UInt8) (fits : text.length + 1 ≤ total) :
    ∃ next, out.put c = .ok next ∧ Holds total next (text ++ [c]) := by
  obtain ⟨back, stored, size⟩ := holds.store [c] fits
  refine ⟨⟨_, out.dest + 1⟩, by rw [Output.put, stored]; rfl, ?_, back, by simp, ?_⟩
  · rw [List.length_append, holds.dest, List.length_singleton]
  · rw [List.length_append]
    exact size

theorem Holds.terminate (holds : Holds total out text) (fits : text.length + 1 ≤ total) :
    ∃ next, out.terminate = .ok next ∧ Holds total next text ∧ IsString next.ret text := by
  obtain ⟨back, stored, size⟩ := holds.store [0] fits
  refine ⟨⟨text.map some ++ some 0 :: back, out.dest⟩, by rw [Output.terminate, stored]; rfl,
    ⟨holds.dest, some 0 :: back, rfl, ?_⟩, back, rfl⟩
  rw [List.length_cons]
  rw [List.length_singleton] at size
  omega

theorem readBytes_eq {option count : Nat} (inside : option + count ≤ payload.length) :
    readBytes payload option count = .ok ((payload.drop option).take count) := if_pos inside

/-- A string can be read, up to the first NUL in it. -/
theorem IsString.read {ret : Block UInt8} (is : IsString ret text) :
    ∃ name, readString ret = .ok name ∧ (0 ∉ text → name = text) := by
  obtain ⟨back, rfl⟩ := is
  induction text with
  | nil => exact ⟨[], rfl, fun _ => rfl⟩
  | cons c text ih =>
    obtain ⟨name, read, whole⟩ := ih
    by_cases nul : c = 0
    · exact ⟨[], by simp [readString, nul], fun none => absurd nul.symm (by simp_all)⟩
    · refine ⟨c :: name, ?_, fun none => ?_⟩
      · simp only [List.map_cons, List.cons_append, readString, if_neg nul, read]
        rfl
      · rw [whole fun later => none (List.mem_cons_of_mem _ later)]

/-! ## Lengths of texts -/

theorem unsignedText_length {number digits : Nat} (below : number < 10 ^ digits)
    (positive : 0 < digits) : (unsignedText number).length ≤ digits := by
  rw [unsignedText, List.length_map]
  exact (Nat.length_toDigits_le_iff (by decide) positive).mpr below

theorem byteText_length (byte : UInt8) : (unsignedText byte.toNat).length ≤ 3 :=
  unsignedText_length (lt_trans byte.toNat_lt (by decide)) (by decide)

theorem length_intercalate_lt (sep : UInt8) {width : Nat} {first : Text} {rest : List Text}
    (short : ∀ text ∈ first :: rest, text.length ≤ width) :
    (List.intercalate [sep] (first :: rest)).length < (rest.length + 1) * (width + 1) := by
  induction rest generalizing first with
  | nil =>
    rw [List.intercalate_singleton]
    have := short first (List.mem_cons_self ..)
    simpa using Nat.lt_succ_of_le this
  | cons second rest ih =>
    have here := short first (List.mem_cons_self ..)
    have later := ih fun text mem => short text (List.mem_cons_of_mem _ mem)
    rw [List.intercalate_cons_cons, List.length_append, List.length_append,
      List.length_singleton, List.length_cons, add_mul (rest.length + 1), one_mul]
    omega

theorem nipText_length {ip : Text} (four : ip.length = 4) (pre : Text) :
    (nipText pre ip).length ≤ pre.length + 15 := by
  obtain ⟨a, b, c, d, rfl⟩ : ∃ a b c d, ip = [a, b, c, d] := by
    match ip, four with
    | [a, b, c, d], _ => exact ⟨a, b, c, d, rfl⟩
  have short : ∀ text ∈ [unsignedText a.toNat, unsignedText b.toNat, unsignedText c.toNat,
      unsignedText d.toNat], text.length ≤ 3 := by
    simp [byteText_length]
  have joined := length_intercalate_lt dot short
  rw [nipText, List.length_append]
  simpa using Nat.lt_succ_iff.mp joined

theorem bigEndian_lt (bytes : Text) : bigEndian bytes < 256 ^ bytes.length := by
  have folded (bytes : Text) (start : Nat) :
      bytes.foldl (fun value byte => value * 256 + byte.toNat) start <
        (start + 1) * 256 ^ bytes.length := by
    induction bytes generalizing start with
    | nil => simp
    | cons byte bytes ih =>
      have small := byte.toNat_lt
      calc bytes.foldl (fun value byte => value * 256 + byte.toNat) (start * 256 + byte.toNat)
          < (start * 256 + byte.toNat + 1) * 256 ^ bytes.length := ih _
        _ ≤ ((start + 1) * 256) * 256 ^ bytes.length := Nat.mul_le_mul_right _ (by omega)
        _ = (start + 1) * 256 ^ (byte :: bytes).length := by rw [List.length_cons]; ring
  simpa [bigEndian] using folded bytes 0

theorem longText_length {value : Nat} (word : value < 2 ^ 32) (lp64 : Bool) :
    (longText lp64 value).length ≤ 11 := by
  unfold longText
  split
  · have digits : (unsignedText (2 ^ 32 - value)).length ≤ 10 :=
      unsignedText_length (by omega) (by decide)
    rw [List.length_cons]
    omega
  · have digits : (unsignedText value).length ≤ 10 :=
      unsignedText_length (by omega) (by decide)
    omega

theorem nip6Text_length (ip : Text) : (nip6Text ip).length ≤ 39 := by
  have short : ∀ text ∈ (List.range 8).map fun group =>
      ((bin2hex ip).drop (group * 4)).take 4, text.length ≤ 4 := by
    intro text mem
    obtain ⟨group, _, rfl⟩ := List.mem_map.mp mem
    exact List.length_take_le _ _
  exact Nat.lt_succ_iff.mp (length_intercalate_lt colon short)

/-! ## Options element by element -/

/-- The types that are formatted element by element. -/
def Elementwise : OptionType → Prop
  | .ip | .ipPair | .u8 | .u16 | .u32 | .s32 => True
  | _ => False

instance : DecidablePred Elementwise := fun type => by
  cases type <;> unfold Elementwise <;> infer_instance

/-- The text of an element. -/
def elementText (lp64 : Bool) (type : OptionType) (bytes : Text) : Text :=
  match type with
  | .ip => nipText [] bytes
  | .ipPair => nipText [] (bytes.take 4) ++ nipText [slash] (bytes.drop 4)
  | .s32 => longText lp64 (bigEndian bytes)
  | _ => unsignedText (bigEndian bytes)

/-- What an element takes at most. -/
def width : OptionType → Nat
  | .ip => 15
  | .ipPair => 31
  | .u8 => 3
  | .u16 => 5
  | .u32 => 10
  | .s32 => 11
  | _ => 0

variable {type : OptionType}

theorem elementText_length (elementwise : Elementwise type) {bytes : Text}
    (size : bytes.length = dhcpOptionLengths type) :
    (elementText lp64 type bytes).length ≤ width type := by
  have below := bigEndian_lt bytes
  rw [size] at below
  cases type with
  | ip => exact nipText_length size []
  | ipPair =>
    have first : (nipText [] (bytes.take 4)).length ≤ 15 :=
      nipText_length (by simp [size, dhcpOptionLengths]) []
    have second : (nipText [slash] (bytes.drop 4)).length ≤ 16 :=
      nipText_length (by simp [size, dhcpOptionLengths]) [slash]
    rw [elementText, List.length_append]
    exact add_le_add first second
  | s32 => exact longText_length below lp64
  | u8 => exact unsignedText_length (lt_trans below (by decide)) (by decide)
  | u16 => exact unsignedText_length (lt_trans below (by decide)) (by decide)
  | u32 => exact unsignedText_length (lt_trans below (by decide)) (by decide)
  | _ => exact elementwise.elim

variable {state next : State}

/-- The bytes of the element that comes next. -/
def upcoming (payload : Text) (state : State) : Text :=
  (payload.drop state.option).take state.optlen

theorem element_holds (lp64 : Bool) (elementwise : Elementwise state.type)
    (inside : state.option + state.optlen ≤ payload.length) (holds : Holds total state.out text)
    (fits : text.length + (elementText lp64 state.type (upcoming payload state)).length < total) :
    ∃ out, element lp64 payload state = .ok out ∧
      Holds total out (text ++ elementText lp64 state.type (upcoming payload state)) ∧
      IsString out.ret (text ++ elementText lp64 state.type (upcoming payload state)) := by
  unfold element
  rw [readBytes_eq inside, Fallible.ok_bind]
  change (∃ out, (match state.type with
    | .ip => state.out.sprintf (nipText [] (upcoming payload state))
    | .ipPair => do
      let out ← state.out.sprintf (nipText [] ((upcoming payload state).take 4))
      out.sprintf (nipText [slash] ((upcoming payload state).drop 4))
    | .s32 => state.out.sprintf (longText lp64 (bigEndian (upcoming payload state)))
    | _ => state.out.sprintf (unsignedText (bigEndian (upcoming payload state)))) = .ok out ∧ _)
  generalize upcoming payload state = bytes at fits ⊢
  generalize state.type = type at elementwise fits ⊢
  cases type with
  | ipPair =>
    rw [elementText, List.length_append, ← add_assoc] at fits
    obtain ⟨out, printed, holds, _⟩ := holds.sprintf (nipText [] (bytes.take 4))
      (by omega)
    obtain ⟨out', printed', holds', is⟩ := holds.sprintf
      (nipText [slash] (bytes.drop 4)) (by rw [List.length_append]; omega)
    rw [List.append_assoc] at holds' is
    exact ⟨out', by simp only [printed, Fallible.ok_bind, printed'], holds', is⟩
  | ip | u8 | u16 | u32 | s32 => exact holds.sprintf _ fits
  | _ => exact elementwise.elim

theorem loop_done {positive : 0 < state.optlen} (done : state.len < state.optlen) :
    loop lp64 payload state positive = .ok state.out.ret := by
  rw [loop, dif_pos done]

theorem loop_leave {positive : 0 < state.optlen} {ret : Block UInt8}
    (more : ¬state.len < state.optlen) (passed : pass lp64 payload state = .ok (.leave ret)) :
    loop lp64 payload state positive = .ok ret := by
  rw [loop, dif_neg more]
  split
  case h_1 other => cases passed.symm.trans other
  case h_2 other => cases passed.symm.trans other; rfl
  case h_3 other => cases passed.symm.trans other

theorem loop_next {positive : 0 < state.optlen}
    (passed : pass lp64 payload state = .ok (.next next)) (more : ¬state.len < state.optlen)
    (positive' : 0 < next.optlen) :
    loop lp64 payload state positive = loop lp64 payload next positive' := by
  rw [loop, dif_neg more]
  split
  case h_1 other => cases passed.symm.trans other
  case h_2 other => cases passed.symm.trans other
  case h_3 other => cases passed.symm.trans other; rfl

theorem pass_elementwise (elementwise : Elementwise state.type) :
    pass lp64 payload state = element lp64 payload state >>= remaining state := by
  unfold pass
  cases kind : state.type with
  | ip | ipPair | u8 | u16 | u32 | s32 => rfl
  | _ => rw [kind] at elementwise; exact elementwise.elim

/-- The element that comes next is the first of those that are left. -/
theorem upcoming_eq {first behind : Text} (size : first.length = state.optlen)
    (drop : payload.drop state.option = first ++ behind) : upcoming payload state = first := by
  rw [upcoming, drop, ← size, List.take_left']
  rfl

theorem drop_length {first behind : Text} (size : first.length = state.optlen)
    (drop : payload.drop state.option = first ++ behind) :
    payload.length - state.option = state.optlen + behind.length := by
  rw [← List.length_drop, drop, List.length_append, size]

/-- The loop prints the elements that are left, with spaces between them. -/
theorem loop_elements (elementwise : Elementwise state.type) (positive : 0 < state.optlen)
    {first : Text} {rest : List Text} {tail : Text}
    (drop : payload.drop state.option = (first :: rest).flatten ++ tail)
    (sizes : ∀ bytes ∈ first :: rest, bytes.length = state.optlen)
    (short : tail.length < state.optlen) (left : state.option + state.len = payload.length)
    (holds : Holds total state.out text)
    (fits : text.length + (List.intercalate [space]
      ((first :: rest).map (elementText lp64 state.type))).length < total) :
    ∃ ret, loop lp64 payload state positive = .ok ret ∧
      IsString ret (text ++ List.intercalate [space]
        ((first :: rest).map (elementText lp64 state.type))) := by
  induction rest generalizing first state text with
  | nil =>
    rw [List.map_singleton, List.intercalate_singleton] at fits ⊢
    rw [List.flatten_singleton] at drop
    have size := sizes first (List.mem_singleton_self first)
    have lengths := drop_length size drop
    rw [← upcoming_eq size drop] at fits ⊢
    obtain ⟨out, printed, _, is⟩ := element_holds lp64 elementwise (by omega) holds fits
    refine ⟨out.ret, loop_leave (by omega) ?_, is⟩
    rw [pass_elementwise elementwise, printed, Fallible.ok_bind, remaining, if_pos (by omega)]
  | cons second rest ih =>
    rw [List.map_cons, List.map_cons, List.intercalate_cons_cons] at fits ⊢
    rw [List.flatten_cons, List.append_assoc] at drop
    have size := sizes first (List.mem_cons_self ..)
    have lengths := drop_length size drop
    have size' := sizes second (List.mem_cons_of_mem _ (List.mem_cons_self ..))
    simp only [List.length_append, List.length_singleton, List.flatten_cons] at fits lengths
    rw [← upcoming_eq size drop] at fits ⊢
    have inside : state.option + state.optlen ≤ payload.length := by omega
    obtain ⟨out, printed, holds, _⟩ := element_holds lp64 elementwise inside holds (by omega)
    obtain ⟨out', spaced, holds⟩ := holds.put space (by rw [List.length_append]; omega)
    obtain ⟨out'', ended, holds, _⟩ := holds.terminate (by
      simp only [List.length_append, List.length_singleton]; omega)
    have passed : pass lp64 payload state = .ok (.next (state.advance out'')) := by
      rw [pass_elementwise elementwise, printed, Fallible.ok_bind, remaining, if_neg (by omega),
        spaced, Fallible.ok_bind, ended, Fallible.ok_bind]
    rw [loop_next passed (by omega) positive]
    have goesOn : Elementwise (state.advance out'').type := elementwise
    have behind : payload.drop (state.advance out'').option = (second :: rest).flatten ++ tail := by
      rw [State.advance, ← List.drop_drop, drop, ← size, List.drop_left' rfl]
    have left' : (state.advance out'').option + (state.advance out'').len = payload.length := by
      simp only [State.advance]
      omega
    obtain ⟨ret, looped, is⟩ := ih goesOn positive behind
      (fun bytes mem => sizes bytes (List.mem_cons_of_mem _ mem)) short left' holds (by
        simp only [State.advance, List.length_append, List.length_singleton, List.map_cons]
        omega)
    refine ⟨ret, looped, ?_⟩
    rw [← List.append_assoc, ← List.append_assoc]
    exact is

/-- The elements fit where there is room for each at its width, with what is behind it. -/
theorem loop_elementwise (elementwise : Elementwise state.type)
    (known : state.optlen = dhcpOptionLengths state.type) (positive : 0 < state.optlen)
    (left : state.option + state.len = payload.length) (holds : Holds total state.out text)
    (fits : ∀ count : Nat, count * state.optlen ≤ state.len.toNat →
      text.length + count * (width state.type + 1) ≤ total) :
    ∃ ret, loop lp64 payload state positive = .ok ret := by
  by_cases nonneg : state.len < 0
  · exact ⟨_, loop_done (by omega)⟩
  · obtain ⟨elements, tail, drop, sizes, short, many⟩ :=
      Blocks.exists_blocks positive (payload.drop state.option)
    have length : (payload.drop state.option).length = state.len.toNat := by
      rw [List.length_drop]
      omega
    rw [length] at many
    cases elements with
    | nil =>
      rw [drop, List.flatten_nil, List.nil_append] at length
      exact ⟨_, loop_done (by omega)⟩
    | cons first rest =>
      have texts : ∀ printed ∈ (first :: rest).map (elementText lp64 state.type),
          printed.length ≤ width state.type := by
        intro printed mem
        obtain ⟨bytes, isElement, rfl⟩ := List.mem_map.mp mem
        exact elementText_length elementwise ((sizes bytes isElement).trans known)
      have joined := length_intercalate_lt space texts
      have room := fits _ many
      rw [List.length_map] at joined
      obtain ⟨ret, looped, _⟩ := loop_elements elementwise positive drop sizes short left holds
        (lt_of_lt_of_le (Nat.add_lt_add_left joined _) room)
      exact ⟨ret, looped⟩

/-! ## Static routes -/

/-- The text of a route. -/
def routeText (pfx : Text) (mask : UInt8) (nip router : Text) : Text :=
  nipText pfx (nip ++ List.replicate (4 - nip.length) 0) ++
    ([slash] ++ unsignedText mask.toNat ++ [space]) ++ nipText [] router

theorem routeText_length (pfx : Text) {mask : UInt8} {nip router : Text} (valid : mask.toNat ≤ 32)
    (short : nip.length ≤ 4) (four : router.length = 4) :
    (routeText pfx mask nip router).length ≤ pfx.length + 34 := by
  have whole : (nip ++ List.replicate (4 - nip.length) 0).length = 4 := by simp; omega
  have address := nipText_length whole pfx
  have digits : (unsignedText mask.toNat).length ≤ 2 := unsignedText_length (by omega) (by decide)
  have gateway := nipText_length four []
  simp only [routeText, List.length_append, List.length_singleton, List.length_nil] at gateway ⊢
  omega

variable {option : Nat} {len : Int}

/-- A turn of the loop over the routes prints the route that comes next. -/
theorem staticRoutes_route (pfx : Text) {mask : UInt8} {nip router behind : Text}
    (drop : payload.drop option = mask :: (nip ++ (router ++ behind))) (valid : mask.toNat ≤ 32)
    (significant : nip.length = (mask.toNat + 7) / 8) (four : router.length = 4)
    (left : option + len = payload.length) (holds : Holds total out text)
    (fits : text.length + (routeText pfx mask nip router).length < total) :
    ∃ out', staticRoutes payload pfx option len out =
        staticRoutes payload [space] (option + 1 + nip.length + 4) (len - 1 - nip.length - 4) out' ∧
      Holds total out' (text ++ routeText pfx mask nip router) ∧
      IsString out'.ret (text ++ routeText pfx mask nip router) := by
  have length : payload.length - option = nip.length + (router.length + behind.length) + 1 := by
    rw [← List.length_drop, drop, List.length_cons, List.length_append, List.length_append]
  have first : payload[option]? = some mask := by
    have head := congrArg List.head? drop
    rwa [List.head?_drop, List.head?_cons] at head
  have rest : payload.drop (option + 1) = nip ++ (router ++ behind) := by
    rw [← List.drop_drop, drop]
    rfl
  have address : readBytes payload (option + 1) nip.length = .ok nip := by
    rw [readBytes_eq (by omega), rest, List.take_left' rfl]
  have gateway : readBytes payload (option + 1 + nip.length) 4 = .ok router := by
    rw [readBytes_eq (by omega), ← List.drop_drop, rest, List.drop_left' rfl, List.take_left' four]
  simp only [routeText, List.length_append, List.length_singleton] at fits
  obtain ⟨out₁, printed, holds₁, _⟩ := holds.sprintf
    (nipText pfx (nip ++ List.replicate (4 - nip.length) 0)) (by omega)
  obtain ⟨out₂, printed₂, holds₂, _⟩ := holds₁.sprintf ([slash] ++ unsignedText mask.toNat ++ [space])
    (by simp only [List.length_append, List.length_singleton]; omega)
  obtain ⟨out₃, printed₃, holds₃, is⟩ := holds₂.sprintf (nipText [] router)
    (by simp only [List.length_append, List.length_singleton]; omega)
  refine ⟨out₃, ?_, ?_, ?_⟩
  · rw [staticRoutes, if_neg (by omega), first]
    simp only [access, Fallible.ok_bind, if_neg (Nat.not_lt.mpr valid)]
    rw [← significant, address, Fallible.ok_bind, if_neg (by omega), printed, Fallible.ok_bind,
      printed₂, Fallible.ok_bind, gateway, Fallible.ok_bind, printed₃, Fallible.ok_bind]
  · simpa only [routeText, List.append_assoc] using holds₃
  · simpa only [routeText, List.append_assoc] using is

theorem staticRoutes_fits (pfx : Text) (left : option + len = payload.length) (holds : Holds total out text)
    (single : pfx.length ≤ 1) (fits : text.length + len.toNat / 5 * 35 + 1 ≤ total) :
    ∃ out', staticRoutes payload pfx option len out = .ok out' := by
  induction size : len.toNat using Nat.strong_induction_on generalizing pfx option len out text with
  | _ bound ih =>
    by_cases short : len < 1 + 4
    · exact ⟨out, by rw [staticRoutes, if_pos short]⟩
    · obtain ⟨mask, behind, drop⟩ : ∃ mask behind, payload.drop option = mask :: behind := by
        refine List.exists_cons_of_length_pos ?_
        rw [List.length_drop]
        omega
      have length : payload.length - option = behind.length + 1 := by
        rw [← List.length_drop, drop, List.length_cons]
      have first : payload[option]? = some mask := by
        have head := congrArg List.head? drop
        rwa [List.head?_drop, List.head?_cons] at head
      by_cases invalid : 32 < mask.toNat
      · refine ⟨out, ?_⟩
        rw [staticRoutes, if_neg short, first]
        simp only [access, Fallible.ok_bind, if_pos invalid]
      have valid : mask.toNat ≤ 32 := Nat.not_lt.mp invalid
      by_cases cut : len - 1 - ((mask.toNat + 7) / 8 : Nat) < 4
      · refine ⟨out, ?_⟩
        rw [staticRoutes, if_neg short, first]
        simp only [access, Fallible.ok_bind, if_neg invalid]
        rw [readBytes_eq (by omega), Fallible.ok_bind, if_pos cut]
      · obtain ⟨nip, behind', rfl, sizes⟩ :
            ∃ nip behind' : Text, behind = nip ++ behind' ∧ nip.length = (mask.toNat + 7) / 8 :=
          ⟨_, _, (List.take_append_drop ((mask.toNat + 7) / 8) behind).symm,
            List.length_take_of_le (by omega)⟩
        rw [List.length_append] at length
        obtain ⟨router, behind, rfl, four⟩ :
            ∃ router behind : Text, behind' = router ++ behind ∧ router.length = 4 :=
          ⟨_, _, (List.take_append_drop 4 behind').symm, List.length_take_of_le (by omega)⟩
        have textual := routeText_length pfx valid (by omega : nip.length ≤ 4) four
        obtain ⟨out', turn, holds', _⟩ := staticRoutes_route pfx drop valid sizes four left holds
          (by omega)
        rw [turn]
        refine ih _ ?_ [space] (by omega) holds' le_rfl ?_ rfl
        · omega
        · rw [List.length_append]
          omega

/-! ## The other types -/

theorem store_inside (block : Block UInt8) (offset : Nat) (values : Text)
    (inside : offset + values.length ≤ block.length) :
    ∃ next, Memory.store block offset values = some next ∧ next.length = block.length := by
  refine ⟨_, if_pos inside, ?_⟩
  simp
  omega

/-- `safe_strncpy` stays within the size it is given. -/
theorem safeStrncpy_inside (ret : Block UInt8) (dst : Nat) (src : Text) (size : Nat)
    (inside : dst + size ≤ ret.length) : ∃ next, safeStrncpy ret dst src size = .ok next := by
  unfold safeStrncpy
  split
  case isTrue => exact ⟨_, rfl⟩
  case isFalse nonempty =>
    obtain ⟨ended, terminated, same⟩ := store_inside ret (dst + (size - 1)) [0]
      (by rw [List.length_singleton]; omega)
    have cut := List.length_take_le (size - 1) (src ++ List.replicate size 0)
    obtain ⟨next, copied, _⟩ := store_inside ended dst
      ((src ++ List.replicate size 0).take (size - 1)) (by omega)
    exact ⟨next, by simp only [access, terminated, Fallible.ok_bind, copied]⟩

theorem stringValue_fits (host : Bool) (nonneg : 0 ≤ state.len)
    (left : state.option + state.len = payload.length) (holds : Holds total state.out text)
    (fits : text.length + state.len.toNat + 1 ≤ total) :
    ∃ ret, stringValue host payload state = .ok ret := by
  obtain ⟨value, read, size⟩ : ∃ value,
      readBytes payload state.option state.len.toNat = .ok value ∧ value.length = state.len.toNat :=
    ⟨_, readBytes_eq (by omega), List.length_take_of_le (by rw [List.length_drop]; omega)⟩
  obtain ⟨back, stored, room⟩ := holds.store value (by omega)
  have copied : Holds total
      ⟨text.map some ++ (value.map some ++ back), state.out.dest + state.len.toNat⟩
      (text ++ value) := by
    refine ⟨by simp [holds.dest, size], back, by simp, ?_⟩
    rw [List.length_append]
    exact room
  obtain ⟨back', ended, room'⟩ := copied.store [0] (by simp; omega)
  unfold stringValue
  simp only [read, Fallible.ok_bind, stored, access, ended]
  cases host with
  | false => exact ⟨_, rfl⟩
  | true =>
    have is : IsString (((text ++ value).map some ++ ([0].map some ++ back')).drop state.out.dest)
        value := by
      refine ⟨back', ?_⟩
      rw [List.map_append, List.append_assoc, List.drop_left' (by rw [List.length_map, holds.dest])]
      rfl
    obtain ⟨name, named, _⟩ := is.read
    rw [if_pos rfl, named, Fallible.ok_bind]
    split
    · exact ⟨_, rfl⟩
    · refine safeStrncpy_inside _ _ _ _ ?_
      have dest := holds.dest
      simp at room' ⊢
      omega

theorem domains_fits (payload : Text) (option : Nat) (len : Int) (is : IsString out.ret text) :
    ∃ ret, domains payload option len out = .ok (.leave ret) := by
  obtain ⟨pre, read, _⟩ := is.read
  unfold domains
  rw [read, Fallible.ok_bind]
  have inside := Names.dnameDec_ne_outside ((payload.drop option).take len.toNat) pre
  split
  · exact ⟨_, rfl⟩
  · exact ⟨_, rfl⟩
  · contradiction

theorem access_inside {option : Nat} (inside : option < payload.length) :
    ∃ byte, access payload[option]? = .ok byte :=
  ⟨payload[option], by rw [List.getElem?_eq_getElem inside]; rfl⟩

/-- A 6RD option is left out, or its lengths and prefix are printed and addresses follow. -/
theorem sixRd_fits (left : state.option + state.len = payload.length)
    (holds : Holds total state.out text) (fits : text.length + 48 ≤ total) :
    (∃ ret, sixRd payload state = .ok (.leave ret)) ∨
      ∃ next printed, sixRd payload state = .ok (.next next) ∧ next.type = .ip ∧ next.optlen = 4 ∧
        next.option + next.len = payload.length ∧ next.len = state.len - 18 ∧
          Holds total next.out (text ++ printed) ∧ printed.length ≤ 47 := by
  unfold sixRd
  split
  case isTrue => exact .inl ⟨_, rfl⟩
  case isFalse long =>
    obtain ⟨ip4MaskLen, first⟩ := access_inside (by omega : state.option < payload.length)
    rw [first, Fallible.ok_bind]
    split
    case isTrue => exact .inl ⟨_, rfl⟩
    case isFalse valid =>
      obtain ⟨prefixLen, second⟩ := access_inside (by omega : state.option + 1 < payload.length)
      rw [second, Fallible.ok_bind]
      split
      case isTrue => exact .inl ⟨_, rfl⟩
      case isFalse =>
        rw [readBytes_eq (by omega)]
        generalize (payload.drop (state.option + 2)).take 16 = ip6
        have digits : (unsignedText ip4MaskLen.toNat).length ≤ 2 :=
          unsignedText_length (by omega) (by decide)
        have digits' := byteText_length prefixLen
        have groups := nip6Text_length ip6
        obtain ⟨out₁, printed₁, holds₁, _⟩ := holds.sprintf
          (unsignedText ip4MaskLen.toNat ++ [space])
          (by simp only [List.length_append, List.length_singleton]; omega)
        obtain ⟨out₂, printed₂, holds₂, _⟩ := holds₁.sprintf
          (unsignedText prefixLen.toNat ++ [space])
          (by simp only [List.length_append, List.length_singleton]; omega)
        obtain ⟨out₃, printed₃, holds₃, _⟩ := holds₂.sprintf (nip6Text ip6)
          (by simp only [List.length_append, List.length_singleton]; omega)
        obtain ⟨out₄, printed₄, holds₄⟩ := holds₃.put space
          (by simp only [List.length_append, List.length_singleton]; omega)
        simp only [printed₁, printed₂, printed₃, printed₄, Fallible.ok_bind]
        simp only [List.append_assoc] at holds₄
        refine .inr ⟨_, _, rfl, rfl, rfl, ?_, rfl, holds₄, ?_⟩
        · simp only
          omega
        · simp only [List.length_append, List.length_singleton]
          omega

/-! ## The estimate -/

theorem upperLength_eq (type : OptionType) (known : type ≠ .bin) (len : Nat) :
    upperLength type len = lenOfOptionAsString type * (len / dhcpOptionLengths type + 1) := by
  rw [upperLength, Nat.add_div_right _ (dhcpOptionLengths_pos known)]

/-- Addresses behind something else. -/
theorem loop_addresses (isIp : state.type = .ip) (optlen : state.optlen = 4)
    (positive : 0 < state.optlen) (left : state.option + state.len = payload.length)
    (holds : Holds total state.out text) (fits : text.length + state.len.toNat / 4 * 16 ≤ total) :
    ∃ ret, loop lp64 payload state positive = .ok ret := by
  refine loop_elementwise (by rw [isIp]; trivial) (by rw [isIp, optlen]; rfl) positive left holds
    fun count many => ?_
  rw [optlen] at many
  rw [isIp, width]
  omega

/-- The loop stays within the estimate for what is left of the payload. -/
theorem loop_fits (known : state.type ≠ .bin)
    (optlen : state.optlen = dhcpOptionLengths state.type) (positive : 0 < state.optlen)
    (left : state.option + state.len = payload.length)
    (holds : Holds total state.out text) (is : IsString state.out.ret text)
    (room : total = upperLength state.type state.len.toNat + text.length + 1) :
    ∃ ret, loop lp64 payload state positive = .ok ret := by
  rw [upperLength_eq _ known] at room
  by_cases more : state.len < state.optlen
  · exact ⟨_, loop_done more⟩
  cases kind : state.type with
  | bin => exact absurd kind known
  | ip | ipPair | u8 | u16 | u32 | s32 =>
    refine loop_elementwise (by rw [kind]; trivial) optlen positive left holds fun count many => ?_
    simp only [kind, width, dhcpOptionLengths, lenOfOptionAsString] at optlen room ⊢
    rw [optlen] at many
    omega
  | string =>
    simp only [kind, dhcpOptionLengths, lenOfOptionAsString] at room
    obtain ⟨ret, copied⟩ := stringValue_fits false (by omega) left holds (by omega)
    refine ⟨ret, loop_leave more ?_⟩
    simp only [pass, kind, copied]
    rfl
  | stringHost =>
    simp only [kind, dhcpOptionLengths, lenOfOptionAsString] at room
    obtain ⟨ret, copied⟩ := stringValue_fits true (by omega) left holds (by omega)
    refine ⟨ret, loop_leave more ?_⟩
    simp only [pass, kind, copied]
    rfl
  | staticRoutes =>
    simp only [kind, dhcpOptionLengths, lenOfOptionAsString] at room
    obtain ⟨out', printed⟩ := staticRoutes_fits [] left holds (Nat.zero_le 1) (by omega)
    refine ⟨out'.ret, loop_leave more ?_⟩
    simp only [pass, kind, printed]
    rfl
  | sixRd =>
    simp only [kind, dhcpOptionLengths, lenOfOptionAsString] at room
    have isSixRd : pass lp64 payload state = sixRd payload state := by simp only [pass, kind]
    rcases sixRd_fits left holds (by omega) with
      ⟨ret, leaves⟩ | ⟨next, printed, goes, isIp, optlen', left', len, holds', short⟩
    · exact ⟨ret, loop_leave more (isSixRd.trans leaves)⟩
    · rw [loop_next (isSixRd.trans goes) more (by omega)]
      refine loop_addresses isIp optlen' _ left' holds' ?_
      rw [List.length_append, len]
      omega
  | dnsString =>
    obtain ⟨ret, leaves⟩ := domains_fits payload state.option state.len is
    refine ⟨ret, loop_leave more ?_⟩
    simp only [pass, kind, leaves]
  | sipServers =>
    simp only [kind, dhcpOptionLengths, lenOfOptionAsString] at room optlen
    obtain ⟨servers, first⟩ := access_inside (by omega : state.option < payload.length)
    by_cases addresses : servers = 1
    · have goes : pass lp64 payload state = .ok (.next { state with
          type := .ip, optlen := 4, option := state.option + 1, len := state.len - 1 }) := by
        simp only [pass, kind, sipServers, first, Fallible.ok_bind, if_pos addresses]
      rw [loop_next goes more (Nat.zero_lt_succ 3)]
      refine loop_addresses rfl rfl _ ?_ holds ?_
      · simp only
        omega
      · simp only
        omega
    · obtain ⟨ret, leaves⟩ : ∃ ret, pass lp64 payload state = .ok (.leave ret) := by
        simp only [pass, kind, sipServers, first, Fallible.ok_bind, if_neg addresses]
        split
        · exact domains_fits _ _ _ is
        · exact ⟨_, rfl⟩
      exact ⟨ret, loop_leave more leaves⟩

/-- For every type in the table of options and every payload the text that is printed fits the
buffer, and no byte behind the payload is read. -/
theorem xmallocOptnameOptval_fits :
    (∀ optflag ∈ dhcpOptflags, optflag.type ≠ .bin) ∧
    ∀ (lp64 : Bool) (payload : Text) (optflag : DhcpOptflag) (optName : Text),
      optflag.type ≠ .bin → ∃ ret, xmallocOptnameOptval lp64 payload optflag optName = .ok ret := by
  refine ⟨dhcpOptflags_type, fun lp64 payload optflag optName known => ?_⟩
  have fresh (total : Nat) : Holds total ⟨alloc total, 0⟩ [] :=
    ⟨rfl, alloc total, rfl, by simp [alloc]⟩
  obtain ⟨out, named, holds, is⟩ :=
    (fresh (upperLength optflag.type payload.length + optName.length + 2)).sprintf
      (optName ++ [equals]) (by
        simp only [List.length_append, List.length_singleton, List.length_nil]
        omega)
  rw [xmallocOptnameOptval, dif_pos (dhcpOptionLengths_pos known)]
  simp only [named, Fallible.ok_bind]
  refine loop_fits known rfl _ (by simp) holds is ?_
  simp only [List.length_append, List.length_singleton, List.length_nil, Int.toNat_natCast]
  omega

/-- A 6RD option with two addresses behind its prefix. -/
theorem xmallocOptnameOptval_fits_sixRd :
    ∃ ret, xmallocOptnameOptval true
      ([8, 96] ++ List.replicate 16 0x20 ++ [192, 0, 2, 1] ++ [192, 0, 2, 2])
      ⟨.sixRd, false, false, 0xd4⟩ [105, 112, 54, 114, 100] = .ok ret :=
  xmallocOptnameOptval_fits.2 _ _ _ _ (by decide)

end Busybox.Udhcp.Optval
