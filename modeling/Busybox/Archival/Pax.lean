import Busybox.Libbb.Strings
import Busybox.Lib.Fallible
import Busybox.Lib.Loops

/-!
# Pax extended headers

`process_pax_hdr` puts a NUL behind the `sz` bytes of the block. No byte behind that one is
an access that the function may make, so the buffer here ends with it, and an access
outside the buffer is an outcome.
-/

namespace Busybox.Archival.Pax

open Loops

/-- An access outside the buffer, or an exit with a message. -/
inductive Stop
  | outside
  | died (message : String)
deriving DecidableEq, Repr

def read (buf : List UInt8) (i : Nat) : Except Stop UInt8 :=
  match buf[i]? with
  | none => .error .outside
  | some c => .ok c

def write (buf : List UInt8) (i : Nat) (c : UInt8) : Except Stop (List UInt8) :=
  if i < buf.length then .ok (buf.set i c) else .error .outside

/-! ## Numbers and strings in the buffer -/

def isdigit (c : UInt8) : Bool := c - 48 ≤ 9

def isalnum (c : UInt8) : Bool := isdigit c || (c ||| 0x20) - 97 ≤ 25

inductive Errno
  | zero
  | einval
  | erange
deriving DecidableEq, Repr

/-- What `bb_strtou` returns, stores in `*endp` and leaves in `errno`. -/
structure Number where
  value : BitVec 32
  endp : Nat
  errno : Errno

def uintMax : Nat := 2 ^ 32 - 1

/-- `strtoul` with base 10 on a string that does not begin with a blank or a sign, without
the bound of its result, and `*endp`. -/
def strtoul (buf : List UInt8) (i v : Nat) : Except Stop (Nat × Nat) :=
  if inside : i < buf.length then
    if isdigit buf[i] then strtoul buf (i + 1) (v * 10 + (buf[i].toNat - 48)) else .ok (v, i)
  else .error .outside
termination_by buf.length - i

/-- `ret_ERANGE`. -/
def retErange (endp : Nat) : Number := ⟨BitVec.allOnes 32, endp, .erange⟩

/-- `handle_errors`. A value out of range has been refused before. -/
def handleErrors (buf : List UInt8) (v endp : Nat) : Except Stop Number := do
  let nextCh ← read buf endp
  if nextCh ≠ 0 then
    if isalnum nextCh then .ok (retErange endp) else .ok ⟨BitVec.ofNat 32 v, endp, .einval⟩
  else .ok ⟨BitVec.ofNat 32 v, endp, .zero⟩

/-- `bb_strtou` with base 10. -/
def bbStrtou (buf : List UInt8) (arg : Nat) : Except Stop Number := do
  let c ← read buf arg
  if ¬ isalnum c then .ok (retErange arg)
  else do
    let scanned ← strtoul buf arg 0
    if uintMax < scanned.1 then .ok (retErange scanned.2)
    else handleErrors buf scanned.1 scanned.2

/-- `is_prefixed_with`: the place behind the key. -/
def isPrefixedWith (buf : List UInt8) (string : Nat) : List UInt8 → Except Stop (Option Nat)
  | [] => .ok (some string)
  | k :: key => do
    let c ← read buf string
    if k ≠ c then .ok none else isPrefixedWith buf (string + 1) key

/-- `xstrdup`. -/
def xstrdup (buf : List UInt8) (i : Nat) : Except Stop (List UInt8) :=
  if inside : i < buf.length then
    if buf[i] = 0 then .ok []
    else do
      let rest ← xstrdup buf (i + 1)
      .ok (buf[i] :: rest)
  else .error .outside
termination_by buf.length - i

/-! ## Records -/

/-- The names in the archive handle that pax headers set. -/
structure Handle where
  longname : Option (List UInt8)
  linkname : Option (List UInt8)

/-- The variables of `process_pax_hdr`. -/
structure State where
  handle : Handle
  buf : List UInt8
  p : Nat
  sz : BitVec 32

/-- The value of a keyword, if it is the one at this place. -/
def keyword (buf : List UInt8) (value : Nat) (key : String) :
    Except Stop (Option (List UInt8)) := do
  let behind ← isPrefixedWith buf value (ascii key)
  match behind with
  | none => .ok none
  | some value => do
    let text ← xstrdup buf value
    .ok (some text)

/-- The keywords of a record that is not malformed. -/
def setName (global : Bool) (handle : Handle) (buf : List UInt8) (value : Nat) :
    Except Stop Handle :=
  if global then .ok handle
  else do
    let path ← keyword buf value "path="
    match path with
    | some path => .ok { handle with longname := some path }
    | none => do
      let linkpath ← keyword buf value "linkpath="
      match linkpath with
      | some linkpath => .ok { handle with linkname := some linkpath }
      | none => .ok handle

/-- The body of the loop of `process_pax_hdr`: the next state, or nothing after
"malformed extended header, skipped". -/
def record (global : Bool) (state : State) : Except Stop (Option State) := do
  let number ← bbStrtou state.buf state.p
  let len := number.value
  let p := state.p + len.toNat
  let sz := state.sz - len
  if (sz ||| len).msb ∨ len = 0 ∨ number.errno ≠ .einval then .ok none
  else do
    let c ← read state.buf number.endp
    if c ≠ 32 then .ok none
    else do
      -- overwrite the terminating newline with NUL
      let buf ← write state.buf (p - 1) 0
      let handle ← setName global state.handle buf (number.endp + 1)
      .ok (some { handle, buf, p, sz })

/-- The sign check leaves only records that are not longer than what is left. -/
theorem len_le {sz len : BitVec 32} (sign : (sz - len ||| len).msb = false) :
    len.toNat ≤ sz.toNat ∧ (sz - len).toNat = sz.toNat - len.toNat := by
  rw [BitVec.msb_or, Bool.or_eq_false_iff, BitVec.msb_eq_false_iff_two_mul_lt,
    BitVec.msb_eq_false_iff_two_mul_lt] at sign
  have bound := sz.isLt
  have bound' := len.isLt
  rw [BitVec.toNat_sub] at sign ⊢
  omega

/-- What a record that is not malformed leaves. -/
theorem record_next {global : Bool} {state next : State}
    (went : record global state = .ok (some next)) :
    ∃ len : BitVec 32, len ≠ 0 ∧ len.toNat ≤ state.sz.toNat ∧
      next.sz.toNat = state.sz.toNat - len.toNat ∧ next.p = state.p + len.toNat := by
  obtain ⟨number, _, went⟩ := Fallible.bind_eq_ok.mp went
  dsimp only at went
  split at went
  · cases went
  case isFalse accepted =>
    obtain ⟨c, _, went⟩ := Fallible.bind_eq_ok.mp went
    split at went
    · cases went
    · obtain ⟨buf, _, went⟩ := Fallible.bind_eq_ok.mp went
      obtain ⟨handle, _, went⟩ := Fallible.bind_eq_ok.mp went
      cases went
      rw [not_or, not_or, Bool.not_eq_true] at accepted
      obtain ⟨inside, left⟩ := len_le accepted.1
      exact ⟨number.value, accepted.2.1, inside, left, rfl⟩

theorem record_shorter {global : Bool} {state next : State}
    (went : record global state = .ok (some next)) : next.sz.toNat < state.sz.toNat := by
  obtain ⟨len, nonzero, inside, left, _⟩ := record_next went
  have positive : len.toNat ≠ 0 := fun zero => nonzero (BitVec.eq_of_toNat_eq zero)
  omega

/-- The loop of `process_pax_hdr`, and whether it complains. -/
def paxLoop (global : Bool) (state : State) : Except Stop (Handle × Bool) :=
  if state.sz = 0 then .ok (state.handle, false)
  else
    match _went : record global state with
    | .error stop => .error stop
    | .ok none => .ok (state.handle, true)
    | .ok (some next) => paxLoop global next
termination_by state.sz.toNat
decreasing_by exact record_shorter _went

/-- `(sz + 511) & (~511)` -/
def blkSz (sz : BitVec 32) : Nat := (sz + 511).toNat / 512 * 512

/-- `process_pax_hdr`, with the bytes that are still to be read from the archive. -/
def processPaxHdr (global : Bool) (handle : Handle) (src : List UInt8) (sz : BitVec 32) :
    Except Stop (Handle × Bool) :=
  if src.length < blkSz sz then .error (.died "short read")
  else
    -- prevent bb_strtou from running off the buffer
    paxLoop global { handle, buf := src.take sz.toNat ++ [0], p := 0, sz }

/-! ## Inside the buffer -/

/-- The buffer ends with its NUL, and the reader has as much in front of it as is left. -/
structure Inside (total : Nat) (state : State) : Prop where
  size : state.buf.length = total + 1
  terminated : state.buf[total]? = some 0
  left : state.p + state.sz.toNat = total

/-- The computation makes no access outside the buffer, and returns a value of one kind. -/
abbrev Stays {α : Type} (x : Except Stop α) (returns : α → Prop) : Prop :=
  Fallible.Ends x returns fun _ => False

variable {buf : List UInt8} {total i : Nat}

theorem read_stays (size : buf.length = total + 1) (inside : i ≤ total) :
    Stays (read buf i) fun c => buf[i]? = some c := by
  have bound : i < buf.length := by omega
  unfold read
  rw [List.getElem?_eq_getElem bound]
  exact rfl

/-- A place before the terminating NUL, if what is there is not a NUL. -/
theorem lt_of_byte (terminated : buf[total]? = some 0) (inside : i ≤ total) {c : UInt8}
    (byte : buf[i]? = some c) (other : c ≠ 0) : i < total := by
  rcases Nat.lt_or_eq_of_le inside with less | rfl
  · exact less
  · exact absurd (Option.some.inj (byte.symm.trans terminated)) other

theorem isdigit_ne_zero {c : UInt8} (digit : isdigit c = true) : c ≠ 0 := by
  rintro rfl
  exact absurd digit (by decide)

theorem strtoul_stays (size : buf.length = total + 1) (terminated : buf[total]? = some 0)
    (inside : i ≤ total) (v : Nat) : Stays (strtoul buf i v) fun scanned => scanned.2 ≤ total := by
  fun_induction strtoul buf i v with
  | case1 i v bound digit ih =>
    exact ih (lt_of_byte terminated inside (List.getElem?_eq_getElem bound) (isdigit_ne_zero digit))
  | case2 i v bound other => exact inside
  | case3 i v outside => omega

theorem handleErrors_stays (size : buf.length = total + 1) (v : Nat) (inside : i ≤ total) :
    Stays (handleErrors buf v i) fun number => number.endp ≤ total := by
  apply (read_stays size inside).bind
  intro nextCh _
  split
  · split <;> exact inside
  · exact inside

theorem bbStrtou_stays (size : buf.length = total + 1) (terminated : buf[total]? = some 0)
    (inside : i ≤ total) : Stays (bbStrtou buf i) fun number => number.endp ≤ total := by
  apply (read_stays size inside).bind
  intro c _
  split
  · exact inside
  · apply (strtoul_stays size terminated inside 0).bind
    intro scanned bound
    split
    · exact bound
    · exact handleErrors_stays size _ bound

theorem isPrefixedWith_stays (size : buf.length = total + 1) (terminated : buf[total]? = some 0)
    {key : List UInt8} (noNul : ∀ k ∈ key, k ≠ 0) (inside : i ≤ total) :
    Stays (isPrefixedWith buf i key) fun behind => ∀ value, behind = some value → value ≤ total := by
  induction key generalizing i with
  | nil =>
    rintro value ⟨⟩
    exact inside
  | cons k key ih =>
    apply (read_stays size inside).bind
    intro c byte
    split
    · exact nofun
    · rename_i same
      obtain rfl := not_not.mp same
      have other := noNul k List.mem_cons_self
      exact ih (fun later member => noNul later (List.mem_cons_of_mem k member))
        (lt_of_byte terminated inside byte other)

theorem xstrdup_stays (size : buf.length = total + 1) (terminated : buf[total]? = some 0)
    (inside : i ≤ total) : Stays (xstrdup buf i) fun _ => True := by
  fun_induction xstrdup buf i with
  | case1 i bound nul => exact trivial
  | case2 i bound other ih =>
    apply (ih (lt_of_byte terminated inside (List.getElem?_eq_getElem bound) other)).bind
    exact fun _ _ => trivial
  | case3 i outside => omega

theorem keyword_stays (size : buf.length = total + 1) (terminated : buf[total]? = some 0)
    (key : String) (noNul : ∀ k ∈ ascii key, k ≠ 0) (inside : i ≤ total) :
    Stays (keyword buf i key) fun _ => True := by
  apply (isPrefixedWith_stays size terminated noNul inside).bind
  intro behind bound
  cases behind with
  | none => exact trivial
  | some value =>
    apply (xstrdup_stays size terminated (bound value rfl)).bind
    exact fun _ _ => trivial

theorem setName_stays (size : buf.length = total + 1) (terminated : buf[total]? = some 0)
    (global : Bool) (handle : Handle) (inside : i ≤ total) :
    Stays (setName global handle buf i) fun _ => True := by
  cases global with
  | true => exact trivial
  | false =>
    apply (keyword_stays size terminated "path=" (by simp [ascii]) inside).bind
    intro path _
    cases path with
    | some path => exact trivial
    | none =>
      apply (keyword_stays size terminated "linkpath=" (by simp [ascii]) inside).bind
      intro linkpath _
      cases linkpath <;> exact trivial

/-- A record keeps the NUL behind the buffer: what it overwrites is its own last byte. -/
theorem record_stays {state : State} (inside : Inside total state) (global : Bool) :
    Stays (record global state) fun next => ∀ state', next = some state' → Inside total state' := by
  have here : state.p ≤ total := by
    have left := inside.left
    omega
  apply (bbStrtou_stays inside.size inside.terminated here).bind
  intro number bound
  dsimp only
  split
  case isTrue => exact nofun
  case isFalse accepted =>
    rw [not_or, not_or, Bool.not_eq_true] at accepted
    obtain ⟨fits, left⟩ := len_le accepted.1
    have positive : number.value.toNat ≠ 0 := fun zero =>
      accepted.2.1 (BitVec.eq_of_toNat_eq zero)
    apply (read_stays inside.size bound).bind
    intro c byte
    split
    · exact nofun
    · rename_i blank
      obtain rfl := not_not.mp blank
      have endp := lt_of_byte inside.terminated bound byte (by decide)
      have before : state.p + number.value.toNat - 1 < total := by
        have sum := inside.left
        omega
      have written : write state.buf (state.p + number.value.toNat - 1) 0 =
          .ok (state.buf.set (state.p + number.value.toNat - 1) 0) := by
        rw [write, if_pos (by rw [inside.size]; omega)]
      have size : (state.buf.set (state.p + number.value.toNat - 1) 0).length = total + 1 := by
        rw [List.length_set, inside.size]
      have terminated : (state.buf.set (state.p + number.value.toNat - 1) 0)[total]? = some 0 := by
        rw [List.getElem?_set_ne (by omega), inside.terminated]
      rw [written, Fallible.ok_bind]
      apply (setName_stays size terminated global state.handle endp).bind
      rintro handle - state' ⟨⟩
      exact ⟨size, terminated, by
        have sum := inside.left
        dsimp only
        omega⟩

theorem paxLoop_stays {state : State} (inside : Inside total state) (global : Bool) :
    Stays (paxLoop global state) fun _ => True := by
  fun_induction paxLoop global state with
  | case1 state done => exact trivial
  | case2 state more stop went =>
    have stays := record_stays inside global
    rw [went] at stays
    exact stays
  | case3 state more went => exact trivial
  | case4 state more next went ih =>
    have stays := record_stays inside global
    rw [went] at stays
    exact ih (stays next rfl)

/-- The loop of `process_pax_hdr`: nothing where it is left. -/
def nextRecord (global : Bool) (state : State) : Option State :=
  if state.sz = 0 then none
  else
    match record global state with
    | .ok next => next
    | .error _ => none

/-- `process_pax_hdr` ends, and makes no access outside the bytes up to its NUL, for any
block of a size that is passed to it. -/
theorem processPaxHdr_inside (global : Bool) (handle : Handle) (src : List UInt8) (sz : BitVec 32)
    (small : sz.toNat ≤ 0xfffff) :
    (∀ state, Halts (nextRecord global) state) ∧
      processPaxHdr global handle src sz ≠ .error .outside := by
  constructor
  · have founded := InvImage.wf (fun state : State => state.sz.toNat) Nat.lt_wfRel.wf
    refine halts_of_wellFounded founded fun state state' went => ?_
    cases recorded : record global state with
    | error stop =>
      unfold nextRecord at went
      rw [recorded] at went
      split at went <;> cases went
    | ok after =>
      unfold nextRecord at went
      rw [recorded] at went
      split at went
      · cases went
      · obtain rfl : after = some state' := went
        exact record_shorter recorded
  · unfold processPaxHdr
    split
    case isTrue => exact nofun
    case isFalse long =>
      have whole : sz.toNat ≤ src.length := by
        have sum : (sz + 511).toNat = sz.toNat + 511 := by
          rw [BitVec.toNat_add]
          exact Nat.mod_eq_of_lt (by simp; omega)
        rw [blkSz, sum] at long
        omega
      have size : (src.take sz.toNat).length = sz.toNat := by
        rw [List.length_take]
        omega
      have inside : Inside sz.toNat { handle, buf := src.take sz.toNat ++ [0], p := 0, sz } :=
        ⟨by simp [size], by simp [size], Nat.zero_add _⟩
      have stays := paxLoop_stays inside global
      intro failed
      rw [failed] at stays
      exact stays

/-- A block whose second record is shorter than its own digits. -/
theorem processPaxHdr_inside_short :
    (∀ state, Halts (nextRecord false) state) ∧
      processPaxHdr false ⟨none, none⟩ (ascii "12 path=ab/\n1 path=c" ++ List.replicate 492 0) 20 ≠
        .error .outside :=
  processPaxHdr_inside _ _ _ _ (by decide)

end Busybox.Archival.Pax
