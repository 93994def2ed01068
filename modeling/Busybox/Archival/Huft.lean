import Mathlib
import Busybox.Lib.LinkedHeap

/-!
# Huffman tables of the inflater

`huft_build` makes a list of linked tables and returns the first one. Where the code set is
not a complete one, the pointer that it returns has its lowest bit set.
-/

namespace Busybox.Archival.Gunzip

open LinkedHeap

def bmax : Nat := 16

def nMax : Nat := 288

/-- The union `v`: a base, or a table of the next level. -/
inductive Value
  | n (value : Nat)
  | t (table : Nat)
deriving DecidableEq, Repr

/-- `huft_t`. -/
structure Huft where
  e : Nat
  b : Nat
  v : Value
deriving DecidableEq, Repr

/-- A table, with the link from the dummy entry before it. -/
structure Table where
  link : Option Nat
  entries : List Huft
deriving DecidableEq, Repr

/-- A `huft_t *`: the table that it points to, if any, and its lowest bit. -/
structure Pointer where
  table : Option Nat
  badHuft : Bool
deriving DecidableEq, Repr

namespace Pointer

/-- `NULL`. -/
def null : Pointer := ⟨none, false⟩

/-- `ERR_RET`. -/
def errRet : Pointer := ⟨none, true⟩

end Pointer

/-- `huft_free`. The bytes before a pointer with its lowest bit set are not a table's link. -/
def huftFree (heap : Heap Table) (p : Pointer) : Option (Heap Table) :=
  if p.badHuft then none else freeAll Table.link heap p.table

/-- `struct cp_ext`. -/
structure CpExt where
  cp : List Nat
  ext : List Nat

def lit : CpExt where
  cp := [3, 4, 5, 6, 7, 8, 9, 10, 11, 13, 15, 17, 19, 23, 27, 31, 35, 43, 51, 59, 67, 83, 99, 115,
    131, 163, 195, 227, 258, 0, 0]
  ext := [0, 0, 0, 0, 0, 0, 0, 0, 1, 1, 1, 1, 2, 2, 2, 2, 3, 3, 3, 3, 4, 4, 4, 4, 5, 5, 5, 5, 0, 99,
    99]

def dist : CpExt where
  cp := [1, 2, 3, 4, 5, 7, 9, 13, 17, 25, 33, 49, 65, 97, 129, 193, 257, 385, 513, 769, 1025, 1537,
    2049, 3073, 4097, 6145, 8193, 12289, 16385, 24577, 0]
  ext := [0, 0, 0, 0, 1, 1, 2, 2, 3, 3, 4, 4, 5, 5, 6, 6, 7, 7, 8, 8, 9, 9, 10, 10, 11, 11, 12, 12,
    13, 13, 0]

/-! ## The code set -/

/-- `c`: how many codes there are of each length. -/
def lengthCounts (b : List Nat) : List Nat :=
  b.foldl (fun c length => c.modify length (· + 1)) (List.replicate (bmax + 1) 0)

def minLength (c : List Nat) : Nat :=
  ((List.range' 1 bmax).find? fun j => c.getD j 0 ≠ 0).getD (bmax + 1)

def maxLength (c : List Nat) : Nat :=
  ((List.range' 1 bmax).reverse.find? fun i => c.getD i 0 ≠ 0).getD 0

/-- `y`: how many codes of the length `i` are missing, or nothing where there are more codes
than bits. -/
def dummies (c : List Nat) (j i : Nat) : Option Nat := do
  let y ← (List.range' j (i - j)).foldlM
    (fun y k => if y < c.getD k 0 then none else some ((y - c.getD k 0) * 2)) (2 ^ j)
  if y < c.getD i 0 then none else some (y - c.getD i 0)

/-- `x` as the offsets into the values for each length. -/
def offsets (c : List Nat) : List Nat :=
  0 :: (List.range' 1 bmax).map fun k => ((c.take k).drop 1).sum

/-- `v`, the values in the order of their lengths, and the offsets behind them. No value stands
for `UINT_MAX`. -/
def valuesByLength (b x : List Nat) : List (Option Nat) × List Nat :=
  b.zipIdx.foldl (fun (v, x) (j, i) =>
    if j ≠ 0 then (v.set (x.getD j 0) (some i), x.modify j (· + 1)) else (v, x))
    (List.replicate (nMax + 1) none, x)

/-! ## The tables -/

/-- The parameters and the tables that `huft_build` has computed before it makes codes. -/
structure CodeSet where
  c : List Nat
  v : List (Option Nat)
  s : Nat
  cpExt : CpExt
  g : Nat
  m : Nat
  eobLen : Nat

/-- The other variables. `levels` is `htl + 1`, and no `t` stands for the address of `result`. -/
structure Builder where
  heap : Heap Table
  result : Pointer
  t : Option Nat
  levels : Nat
  w : Nat
  ws : List Nat
  x : List Nat
  u : List Nat
  q : Nat
  r : Huft
  i : Nat
  p : Nat

/-- "Try smaller tables up to z bits". -/
def widen (c : List Nat) (z j f k : Nat) : Nat :=
  if j + 1 < z then
    if f * 2 ≤ c.getD (k + 1) 0 then j + 1
    else widen c z (j + 1) (f * 2 - c.getD (k + 1) 0) (k + 1)
  else j + 1
termination_by z - j

/-- The bits of the table for the code of the length `k` with `a` more behind it. -/
def tableBits (set : CodeSet) (k a w : Nat) : Nat :=
  let z := min (set.g - w) set.m
  let j := k - w
  let f := 2 ^ j
  let j := if a + 1 < f then widen set.c z j (f - (a + 1)) k else j
  -- The code for the end of a block ends where a table does.
  if set.eobLen < w + j ∧ w < set.eobLen then set.eobLen - w else j

/-- Allocate and link in a new table, and connect it to the last one. -/
def newTable (set : CodeSet) (k a : Nat) (b : Builder) : Builder :=
  let htl := b.levels
  let w := b.ws.getD htl 0
  let j := tableBits set k a w
  let q := b.heap.length
  let heap := alloc b.heap ⟨none, List.replicate (2 ^ j) ⟨0, 0, .n 0⟩⟩
  let b := { b with
    heap := match b.t with
      | none => heap
      | some last => modify heap last fun table => { table with link := some q }
    result := match b.t with
      | none => ⟨some q, false⟩
      | some _ => b.result
    t := some q
    levels := htl + 1
    w
    ws := b.ws.set (htl + 1) (w + j)
    u := b.u.set htl q
    q }
  if htl = 0 then b
  else
    let start := b.ws.getD (htl - 1) 0
    let r : Huft := ⟨16 + j, w - start, .t q⟩
    let place := (b.i &&& (2 ^ w - 1)) >>> start
    { b with
      x := b.x.set htl b.i
      r
      heap := modify b.heap (b.u.getD (htl - 1) 0) fun table =>
        { table with entries := table.entries.set place r } }

/-- "Make tables up to required level": `depth` bounds the levels that there can be. -/
def makeTables (set : CodeSet) (k a : Nat) : (depth : Nat) → Builder → Builder
  | 0, b => b
  | depth + 1, b =>
    if b.ws.getD b.levels 0 < k then makeTables set k a depth (newTable set k a b) else b

/-- "Set up table entry in r", and `p` behind it. -/
def entryOf (set : CodeSet) (k : Nat) (b : Builder) : Huft × Nat :=
  match set.v.getD b.p none with
  | none => ({ b.r with b := k - b.w, e := 99 }, b.p)
  | some value =>
    if value < set.s then (⟨if value < 256 then 16 else 15, k - b.w, .n value⟩, b.p + 1)
    else
      (⟨set.cpExt.ext.getD (value - set.s) 0, k - b.w, .n (set.cpExt.cp.getD (value - set.s) 0)⟩,
        b.p + 1)

/-- "Fill code-like entries with r". -/
def fillEntries (start step : Nat) (r : Huft) (table : Table) : Table :=
  { table with entries := table.entries.mapIdx fun j entry =>
      if start ≤ j ∧ (j - start) % step = 0 then r else entry }

/-- "Backwards increment the k-bit code i". -/
def increment (i : Nat) : (k : Nat) → Nat
  | 0 => i
  | k + 1 => if i.testBit k then increment (i ^^^ 2 ^ k) k else i ^^^ 2 ^ k

/-- "Backup over finished tables": `htl` and `w`. -/
def backup (i : Nat) (x ws : List Nat) : (htl w : Nat) → Nat × Nat
  | 0, w => (0, w)
  | htl + 1, w =>
    if i &&& (2 ^ w - 1) ≠ x.getD (htl + 1) 0 then backup i x ws htl (ws.getD htl 0)
    else (htl + 1, w)

/-- One code of the length `k`, with `a` more behind it. -/
def makeCode (set : CodeSet) (b : Builder) (code : Nat × Nat) : Builder :=
  let (k, a) := code
  let b := makeTables set k a bmax b
  let (r, p) := entryOf set k b
  let heap := modify b.heap b.q (fillEntries (b.i >>> b.w) (2 ^ (k - b.w)) r)
  let i := increment b.i k
  let (htl, w) := backup i b.x b.ws (b.levels - 1) b.w
  { b with r, p, heap, i, levels := htl + 1, w }

/-- The codes from the lengths `k` to `g`. -/
def codesOf (c : List Nat) (k g : Nat) : List (Nat × Nat) :=
  (List.range' k (g + 1 - k)).flatMap fun k => (List.range (c.getD k 0)).reverse.map fun a => (k, a)

/-- The variables before the first code. -/
def Builder.start (heap : Heap Table) (x : List Nat) : Builder where
  heap
  result := .errRet
  t := none
  levels := 0
  w := 0
  ws := List.replicate (bmax + 1) 0
  x := x.set 0 0
  u := List.replicate bmax 0
  q := 0
  r := ⟨0, 0, .n 0⟩
  i := 0
  p := 0

/-- What `huft_build` returns, stores in `*m` and leaves allocated. -/
structure Built where
  result : Pointer
  m : Nat
  heap : Heap Table

/-- `huft_build`, for the code lengths `b`. -/
def huftBuild (heap : Heap Table) (b : List Nat) (s : Nat) (cpExt : CpExt) (m : Nat) : Built :=
  let eobLen := if 256 < b.length then b.getD 256 0 else bmax
  let c := lengthCounts b
  if c.getD 0 0 = b.length then
    ⟨⟨some heap.length, false⟩, 1, alloc heap ⟨none, [⟨99, 1, .n 0⟩, ⟨99, 1, .n 0⟩]⟩⟩
  else
    let j := minLength c
    let g := maxLength c
    let m := if m < j then j else if g < m then g else m
    match dummies c j g with
    | none => ⟨.errRet, m, heap⟩
    | some y =>
      let filled := c.modify g (· + y)
      let (v, x) := valuesByLength b (offsets c)
      let set := { c := filled, v, s, cpExt, g, m, eobLen }
      let built := (codesOf filled j g).foldl (makeCode set) (.start heap x)
      let result :=
        if y ≠ 0 ∧ g ≠ 1 then { built.result with badHuft := true } else built.result
      ⟨result, built.ws.getD 1 0, built.heap⟩

end Busybox.Archival.Gunzip
