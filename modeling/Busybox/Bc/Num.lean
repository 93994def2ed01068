import Busybox.Lib.Digits
import Busybox.Lib.Fallible

/-!
# The numbers of bc

A `BcNum` has its digits in an array, the lowest first, of which `rdx` are decimals. The
capacity of the array is left out: it is made large enough before each write. A loop that
would leave the digits ends in `overrun`.
-/

namespace Busybox.Bc

open Lib.Digits (borrow carry compare strip)

abbrev BcDig := ℤ

/-- `BcNum`. The length is that of `num`. -/
structure BcNum where
  num : List BcDig
  rdx : ℕ
  neg : Bool
deriving DecidableEq, Repr

def BcNum.len (n : BcNum) : ℕ := n.num.length

inductive BcError
  | tooLong
  | divideByZero
  | notAnInteger
  | overflow
  | negativeNumber
  | overrun
deriving DecidableEq, Repr

/-- `BC_MAX_NUM`. -/
def bcMaxNum : ℕ := 4294967294

/-- `BC_NUM_KARATSUBA_LEN`. -/
def bcNumKaratsubaLen : ℕ := 32

/-- `BC_NUM_NEG`. -/
def bcNumNeg (n : ℤ) (neg : Bool) : ℤ := if neg then -n else n

/-- `BC_NUM_ONE`. -/
def BcNum.one (n : BcNum) : Bool := n.num == [1] && n.rdx == 0

/-- `BC_NUM_INT`. -/
def BcNum.int (n : BcNum) : ℕ := n.len - n.rdx

/-- `bc_num_setToZero`. -/
def bcNumSetToZero (scale : ℕ) : BcNum := ⟨[], scale, false⟩

/-- `bc_num_subArrays`: a difference that is negative borrows at once. -/
def bcNumSubArrays : List BcDig → List BcDig → Option (List BcDig)
  | a, [] => some a
  | [], _ :: _ => none
  | d :: a, e :: b =>
    match borrow 10 (d - e) a with
    | some (d' :: a') => (bcNumSubArrays a' b).map (d' :: ·)
    | _ => none

/-- `bc_num_cmp`. That a number is equal to itself is not looked at first. -/
def bcNumCmp (a b : BcNum) : ℤ :=
  if a.num = [] then bcNumNeg (if b.num = [] then 0 else 1) (!b.neg)
  else if b.num = [] then bcNumNeg 1 a.neg
  -- signs of a and b differ
  else if a.neg ≠ b.neg then (if b.neg then 1 else 0) - (if a.neg then 1 else 0)
  else if a.int ≠ b.int then bcNumNeg ((a.int : ℤ) - b.int) a.neg
  else
    let aMax := decide (b.rdx < a.rdx)
    let min := if aMax then b.rdx else a.rdx
    let diff := if aMax then a.rdx - b.rdx else b.rdx - a.rdx
    let maxNum := if aMax then a.num else b.num
    let minNum := if aMax then b.num else a.num
    let neg := if aMax then a.neg else !a.neg
    let cmp := compare (maxNum.drop diff) minNum (b.int + min)
    if cmp ≠ 0 then bcNumNeg cmp neg
    else if (maxNum.take diff).any (· ≠ 0) then bcNumNeg 1 neg
    else 0

/-- `bc_num_truncate`. -/
def bcNumTruncate (n : BcNum) (places : ℕ) : BcNum :=
  { n with num := n.num.drop places, rdx := n.rdx - places }

/-- `bc_num_extend`. -/
def bcNumExtend (n : BcNum) (places : ℕ) : BcNum :=
  { n with num := List.replicate places 0 ++ n.num, rdx := n.rdx + places }

/-- `bc_num_clean`. Where it makes the number longer again, the zeros it has taken away come
back. -/
def bcNumClean (n : BcNum) : BcNum :=
  let num := strip n.num
  if num = [] then { n with num := [], neg := false }
  else { n with num := n.num.take (max num.length n.rdx) }

/-- `bc_num_retireMul`. -/
def bcNumRetireMul (n : BcNum) (scale : ℕ) (neg1 neg2 : Bool) : BcNum :=
  let n := if n.rdx < scale then bcNumExtend n (scale - n.rdx) else bcNumTruncate n (n.rdx - scale)
  let n := bcNumClean n
  if n.num ≠ [] then { n with neg := neg1 != neg2 } else n

/-- `bc_num_split`: the low part and the high part. -/
def bcNumSplit (n : BcNum) (idx : ℕ) : BcNum × BcNum :=
  let (a, b) : BcNum × BcNum :=
    if idx < n.len then (⟨n.num.take idx, 0, false⟩, ⟨n.num.drop idx, 0, false⟩)
    else (n, bcNumSetToZero 0)
  (bcNumClean a, bcNumClean b)

/-- `zbc_num_shift`. -/
def zbcNumShift (n : BcNum) (places : ℕ) : Except BcError BcNum :=
  if places = 0 ∨ n.num = [] then .ok n
  else if bcMaxNum < places + n.len then .error .tooLong
  else
    let n := if places ≤ n.rdx then { n with rdx := n.rdx - places }
      else { bcNumExtend n (places - n.rdx) with rdx := 0 }
    .ok (bcNumClean n)

/-! ## Addition and subtraction -/

/-- `zbc_num_a`: the sum of the magnitudes. -/
def zbcNumA (a b : BcNum) (sub : Bool) : BcNum :=
  if a.num = [] then { b with neg := if sub ∧ b.num ≠ [] then !b.neg else b.neg }
  else if b.num = [] then a
  else
    let minRdx := min a.rdx b.rdx
    let aMax := decide (b.rdx < a.rdx)
    let diff := if aMax then a.rdx - b.rdx else b.rdx - a.rdx
    let ptr := if aMax then a.num else b.num
    let ptrA := if aMax then a.num.drop diff else a.num
    let ptrB := if aMax then b.num else b.num.drop diff
    let minInt := if b.int < a.int then b.int else a.int
    let max := if b.int < a.int then a.int else b.int
    let longer := if b.int < a.int then ptrA else ptrB
    -- the two loops, one after the other
    let sums := List.zipWith (· + ·) (ptrA.take (minRdx + minInt)) (ptrB.take (minRdx + minInt))
      ++ (longer.take (max + minRdx)).drop (minRdx + minInt)
    let (digits, out) := carry 10 0 sums
    ⟨ptr.take diff ++ digits ++ (if out ≠ 0 then [out] else []), Nat.max a.rdx b.rdx, a.neg⟩

/-- The end of `zbc_num_s`, for a minuend that is larger than the subtrahend. -/
def subtract (minuend subtrahend : BcNum) (neg : Bool) : Except BcError BcNum :=
  let c := { minuend with neg := neg }
  let start := if c.rdx < subtrahend.rdx then 0 else c.rdx - subtrahend.rdx
  let c := if c.rdx < subtrahend.rdx then bcNumExtend c (subtrahend.rdx - c.rdx) else c
  match bcNumSubArrays (c.num.drop start) subtrahend.num with
  | none => .error .overrun
  | some digits => .ok (bcNumClean { c with num := c.num.take start ++ digits })

/-- `zbc_num_s`: the difference of the magnitudes. -/
def zbcNumS (a b : BcNum) (sub : Bool) : Except BcError BcNum :=
  if a.num = [] then .ok { b with neg := if sub ∧ b.num ≠ [] then !b.neg else b.neg }
  else if b.num = [] then .ok a
  else
    let cmp := bcNumCmp { a with neg := false } { b with neg := false }
    if cmp = 0 then .ok (bcNumSetToZero (max a.rdx b.rdx))
    else if 0 < cmp then subtract a b a.neg
    else subtract b a (if sub then !b.neg else b.neg)

/-- An operation writes its result over `c`, which is none of its operands. -/
abbrev BcNumBinaryOp := BcNum → BcNum → BcNum → Except BcError BcNum

/-- `zbc_num_add` of values. -/
def numAdd (a b : BcNum) : Except BcError BcNum :=
  if a.neg = b.neg then .ok (zbcNumA a b false) else zbcNumS a b false

/-- `zbc_num_sub` of values. -/
def numSub (a b : BcNum) : Except BcError BcNum :=
  if a.neg = b.neg then zbcNumS a b true else .ok (zbcNumA a b true)

/-! ## Multiplication -/

/-- The loop over the digits of `b` from place `i` on: the array, and how much of it is
the product. -/
def longMultiply (a : List BcDig) : List BcDig → ℕ → List BcDig → ℕ → List BcDig × ℕ
  | [], _, c, len => (c, len)
  | e :: b, i, c, len =>
    let (row, out) := carry 10 0 (List.zipWith (fun x d => x + d * e) (c.drop i) a)
    let c := c.take i ++ row ++ (c.drop (i + a.length)).modifyHead (· + out)
    longMultiply a b (i + 1) c (max len (i + a.length + if out ≠ 0 then 1 else 0))

/-- `zbc_num_k`: the product of two integers without sign, over `c`. -/
def zbcNumK : ℕ → BcNumBinaryOp
  | 0, _, _, _ => .error .overrun
  | fuel + 1, a, b, c => do
    if a.num = [] ∨ b.num = [] then return bcNumSetToZero 0
    if a.one ∨ b.one then return (if a.one then b else a)
    if a.len + b.len < bcNumKaratsubaLen ∨ a.len < bcNumKaratsubaLen
        ∨ b.len < bcNumKaratsubaLen then
      let (digits, len) := longMultiply a.num b.num 0 (List.replicate (a.len + b.len + 1) 0) 0
      return { c with num := digits.take len }
    let max2 := (max a.len b.len + 1) / 2
    let (l1, h1) := bcNumSplit a max2
    let (l2, h2) := bcNumSplit b max2
    let m1 ← numAdd h1 l1
    let m2 ← numAdd h2 l2
    let z0 ← zbcNumK fuel h1 h2 (bcNumSetToZero 0)
    let z1 ← zbcNumK fuel m1 m2 (bcNumSetToZero 0)
    let z2 ← zbcNumK fuel l1 l2 (bcNumSetToZero 0)
    let temp ← numSub z1 z0
    let z1 ← numSub temp z2
    let z0 ← zbcNumShift z0 (max2 * 2)
    let z1 ← zbcNumShift z1 max2
    let temp ← numAdd z0 z1
    numAdd temp z2

/-- `zbc_num_m`. -/
def zbcNumM (scale : ℕ) : BcNumBinaryOp := fun a b c => do
  let scale := min (a.rdx + b.rdx) (max (max scale a.rdx) b.rdx)
  let maxrdx := max (max a.rdx b.rdx) scale
  let cpa ← zbcNumShift { a with neg := false } maxrdx
  let cpb ← zbcNumShift { b with neg := false } maxrdx
  let c ← zbcNumK (cpa.len + cpb.len + 1) cpa cpb c
  let maxrdx := maxrdx + scale
  let num := if c.len < maxrdx then c.num ++ List.replicate maxrdx 0 else c.num
  return bcNumRetireMul { c with num := num, rdx := maxrdx } scale a.neg b.neg

/-! ## Division -/

/-- The loop for one digit of the quotient: how often `b` can be subtracted from the
digits `n`, of which there is one more, and what is left. By zeros it would never end. -/
def divideDigit (b : List BcDig) : ℕ → List BcDig → BcDig → Except BcError (BcDig × List BcDig)
  | 0, _, _ => .error .overrun
  | fuel + 1, n, q =>
    if n.getD b.length 0 ≠ 0 ∨ 0 ≤ compare n b b.length then
      match bcNumSubArrays n b with
      | none => .error .overrun
      | some n => divideDigit b fuel n (q + 1)
    else .ok (q, n)

/-- The loop over the places of the quotient below `i`: the digits of `cp` and of the
quotient `c`. -/
def divideLoop (b : List BcDig) : ℕ → List BcDig → List BcDig → Except BcError (List BcDig)
  | 0, _, c => .ok c
  | i + 1, cp, c => do
    let (q, n) ← divideDigit b 11 (cp.drop i) 0
    divideLoop b i (cp.take i ++ n) (q :: c)

/-- What `zbc_num_d` divides: the operand with enough low digits, and enough decimals once
those of the divisor are taken off. -/
def dividend (a b : BcNum) (scale : ℕ) : BcNum :=
  let cp := a
  let cp := if cp.len < b.len then bcNumExtend cp (b.len - cp.len) else cp
  let cp := if cp.rdx < b.rdx then bcNumExtend cp (b.rdx - cp.rdx) else cp
  let cp := { cp with rdx := cp.rdx - b.rdx }
  if cp.rdx < scale then bcNumExtend cp (scale - cp.rdx) else cp

/-- The digits of the divisor without the zeros at the top. -/
def divisor (b : BcNum) : List BcDig :=
  if b.rdx = b.len then b.num.take (max (strip b.num).length 1) else b.num

/-- `zbc_num_d`. -/
def zbcNumD (scale : ℕ) : BcNumBinaryOp := fun a b _ =>
  if b.num = [] then .error .divideByZero
  else if a.num = [] then .ok (bcNumSetToZero scale)
  else if b.one then .ok (bcNumRetireMul a scale a.neg b.neg)
  else do
    let cp := dividend a b scale
    -- We want an extra zero in front to make things simpler.
    let num := cp.num ++ [0]
    let «end» := num.length - (divisor b).length
    let c ← divideLoop (divisor b) «end» num []
    return bcNumRetireMul ⟨c ++ List.replicate (num.length - «end») 0, cp.rdx, false⟩ scale
      a.neg b.neg

/-! ## Operands that are results -/

abbrev Ref := ℕ

/-- `zbc_num_binary`: an operand that is the result too is moved away, and the result gets a
new array. -/
def zbcNumBinary (a b c : Ref) (op : BcNumBinaryOp) (mem : Ref → BcNum) :
    Except BcError (Ref → BcNum) := do
  let num2 := mem c
  let ptrA := if c = a then num2 else mem a
  let ptrB := if c = b then num2 else mem b
  let init := c = a ∨ c = b
  let result ← op ptrA ptrB (if init then bcNumSetToZero 0 else mem c)
  return fun ref => if ref = c then result else mem ref

/-- `zbc_num_add`. -/
def zbcNumAdd (a b c : Ref) : (Ref → BcNum) → Except BcError (Ref → BcNum) :=
  zbcNumBinary a b c fun a b _ => numAdd a b

/-- `zbc_num_sub`. -/
def zbcNumSub (a b c : Ref) : (Ref → BcNum) → Except BcError (Ref → BcNum) :=
  zbcNumBinary a b c fun a b _ => numSub a b

/-- `zbc_num_mul`. -/
def zbcNumMul (a b c : Ref) (scale : ℕ) : (Ref → BcNum) → Except BcError (Ref → BcNum) :=
  zbcNumBinary a b c (zbcNumM scale)

/-- `zbc_num_div`. -/
def zbcNumDiv (a b c : Ref) (scale : ℕ) : (Ref → BcNum) → Except BcError (Ref → BcNum) :=
  zbcNumBinary a b c (zbcNumD scale)

end Busybox.Bc
