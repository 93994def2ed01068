import Mathlib.Data.List.Basic
import Mathlib.Tactic.Common

/-!
# Candidates of a longest common subsequence

`search` and `stone` of `editors/diff.c`. The lines of the old file come as the class of each, the
lines of the new one as a table with the members of each class, and what is matched is recorded in
`J`.
-/

namespace Busybox.Diff

/-- Line `x` of the old file and line `y` of the new one match; `pred` is the candidate before. -/
structure Cand where
  x : Nat
  y : Int
  pred : Nat
deriving Repr, DecidableEq, Inhabited

/-- All candidates, and for each length up to `k` the last candidate of a chain of that length. -/
structure Lists where
  clist : List Cand
  klist : List Nat
  k : Nat
deriving Repr, DecidableEq

namespace Lists

/-- `klist[l]` -/
def last (s : Lists) (l : Nat) : Nat := s.klist.getD l 0

/-- `clist[i].y` -/
def yOf (s : Lists) (i : Nat) : Int := (s.clist.getD i default).y

/-- `clist[klist[l]].y` -/
def threshold (s : Lists) (l : Nat) : Int := s.yOf (s.last l)

/-- `clist[clen] = cand; klist[l] = clen++` -/
def put (s : Lists) (l : Nat) (cand : Cand) : Lists :=
  { s with clist := s.clist ++ [cand], klist := s.klist.set l s.clist.length }

end Lists

def searchLoop (s : Lists) (y : Int) (i j : Nat) : Nat :=
  let l := (i + j) / 2
  if l > i then
    if s.threshold l > y then searchLoop s y i l
    else if s.threshold l < y then searchLoop s y l j
    else l
  else l + 1
termination_by j - i
decreasing_by all_goals omega

def search (s : Lists) (y : Int) : Nat :=
  if s.threshold s.k < y then s.k + 1  -- quick look for typical case
  else searchLoop s y 0 (s.k + 1)

/-- What the loop over the members of one class keeps. -/
structure Attempt where
  lists : Lists
  pred : Nat
  oldl : Nat
  numtries : Nat
deriving Repr, DecidableEq

/-- One pass of the loop over the members of a class; whether it goes on. -/
def tryMember (x : Nat) (y : Int) (a : Attempt) : Attempt × Bool :=
  if y ≤ a.lists.yOf a.pred then (a, true)
  else
    let l := search a.lists y
    let pred := if l ≠ a.oldl + 1 then a.lists.last (l - 1) else a.pred
    if l ≤ a.lists.k ∧ a.lists.threshold l ≤ y then ({ a with pred := pred }, true)
    else if l ≤ a.lists.k then
      ({ lists := a.lists.put l ⟨x, y, pred⟩, pred := a.lists.last l, oldl := l,
         numtries := a.numtries + 1 }, true)
    else ({ a with lists := { a.lists.put l ⟨x, y, pred⟩ with k := a.lists.k + 1 }, pred := pred },
      false)

/-- `do … while ((cand.y = b[++j]) > 0 && numtries < bound)`, with what is in `b` from there on. -/
def tryMembers (bound x : Nat) : Int → List Int → Attempt → Lists
  | y, rest, a =>
    match tryMember x y a with
    | (a, false) => a.lists
    | (a, true) =>
      match rest with
      | [] => a.lists
      | y' :: rest => if 0 < y' ∧ a.numtries < bound then tryMembers bound x y' rest a else a.lists

/-- A line of class `j`; the table `b` starts with `b[1]`. -/
def stoneLine (bound : Nat) (b : List Int) (x j : Nat) (s : Lists) : Lists :=
  if j = 0 then s
  else
    match b.drop (j - 1) with
    | [] => s
    | y :: rest => tryMembers bound x (-y) rest ⟨s, s.last 0, 0, 0⟩

def stoneLines (bound : Nat) (b : List Int) : Nat → List Nat → Lists → Lists
  | _, [], s => s
  | x, j :: a, s => stoneLines bound b (x + 1) a (stoneLine bound b x j s)

/-- The loop that records the chain of a candidate in `J`, for at most so many candidates. -/
def unravel (clist : List Cand) (pref : Nat) : Nat → Nat → List Int → List Int
  | 0, _, J => J
  | fuel + 1, i, J =>
    let q := clist.getD i default
    if q.y = 0 then J
    else unravel clist pref fuel q.pred (J.set (q.x + pref) (q.y + pref))

/-- One bit of the root. -/
def isqrtStep (N x shift : Nat) : Nat :=
  let x := x <<< 1 + 1
  if x * x > N >>> shift then x - 1 else x

/-- `isqrt` of `libbb/isqrt.c` -/
def isqrt (N : Nat) : Nat :=
  (List.range 32).foldl (fun x i => isqrtStep N x (62 - 2 * i)) 0

def UINT_MAX : Nat := 4294967295

/-- How many candidates a line may replace, with and without `-d`. -/
def boundOf (d : Bool) (n : Nat) : Nat := if d then UINT_MAX else max 256 (isqrt n)

/-- What `xzalloc` leaves: the candidate that no line belongs to, as the end of every chain. -/
def emptyLists (n : Nat) : Lists := ⟨[⟨0, 0, 0⟩], List.replicate (n + 2) 0, 0⟩

/-- `stone`; its `n` is the length of `a`. -/
def stone (d : Bool) (a : List Nat) (b : List Int) (J : List Int) (pref : Nat) : List Int :=
  let s := stoneLines (boundOf d a.length) b 1 a (emptyLists a.length)
  unravel s.clist pref s.clist.length (s.last s.k) J

end Busybox.Diff
