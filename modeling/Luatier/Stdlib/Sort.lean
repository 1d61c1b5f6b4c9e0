import Luatier.Stdlib.TableLib

/-!
# Sorting

`table.sort` is a quicksort in place.  Its indices are `unsigned int`; the loops,
which nothing but the comparison stops, get fuel.
-/

namespace Luatier.TableLib

variable {W : Type} (host : Host W) (t cmp : TValue)

/-- `static_cast<int64_t>` of an index. -/
def wide (i : UInt32) : Int64 := Int64.ofNat i.toNat

/-- What `sort_comp_idx` does with the two elements. -/
def sortCompare (a b : TValue) : LibM W Bool := do
  if cmp.isNil then return ← metaLt host a b
  unless cmp.isFunction do panic "bad argument #2 to 'sort' (function expected)"
  return (← call host cmp [a, b]).isTruthy

def sortCompIdx (ai bi : UInt32) : LibM W Bool := do
  let a ← geti host t (wide ai)
  let b ← geti host t (wide bi)
  record (.compare a b (← get).L)
  sortCompare host cmp a b

def sortSwap (i j : UInt32) : LibM W Unit := do
  let ai ← geti host t (wide i)
  let aj ← geti host t (wide j)
  seti host t (wide i) aj
  seti host t (wide j) ai

def scanUp (up : UInt32) : Nat → UInt32 → LibM W UInt32
  | 0, _ => throw .unfinished
  | fuel + 1, i => do
    let i := i + 1
    if ← sortCompIdx host t cmp i (up - 1) then
      if i = up - 1 then panic "invalid order function for sorting"
      scanUp up fuel i
    else return i

def scanDown (up i : UInt32) : Nat → UInt32 → LibM W UInt32
  | 0, _ => throw .unfinished
  | fuel + 1, j => do
    let j := j - 1
    if ← sortCompIdx host t cmp (up - 1) j then
      if j < i then panic "invalid order function for sorting"
      scanDown up i fuel j
    else return j

def partitionLoop (up : UInt32) : Nat → UInt32 → UInt32 → LibM W UInt32
  | 0, _, _ => throw .unfinished
  | fuel + 1, i, j => do
    let i ← scanUp host t cmp up fuel i
    let j ← scanDown host t cmp up i fuel j
    if j < i then
      sortSwap host t (up - 1) i
      return i
    sortSwap host t i j
    partitionLoop up fuel i j

def sortPartition (fuel : Nat) (lo up : UInt32) : LibM W UInt32 :=
  partitionLoop host t cmp up fuel lo (up - 1)

def choosePivot (lo up rnd : UInt32) : UInt32 :=
  let r4 := (up - lo) / 4
  rnd % (r4 * 2) + (lo + r4)

def ranLimit : UInt32 := 100

def pivotIndex (lo up rnd : UInt32) : UInt32 :=
  if up - lo < ranLimit ∨ rnd = 0 then (lo + up) / 2 else choosePivot lo up rnd

def sortEnds (lo up : UInt32) : LibM W Unit := do
  if ← sortCompIdx host t cmp up lo then sortSwap host t lo up

/-- The median of three: the pivot is put between the elements at the ends. -/
def sortThree (lo up p : UInt32) : LibM W Unit := do
  if ← sortCompIdx host t cmp p lo then sortSwap host t p lo
  else if ← sortCompIdx host t cmp up p then sortSwap host t p up

/-- `rnd` for the next round, after a part with `n` elements was split off. -/
def nextRandom (lo up n rnd : UInt32) : LibM W UInt32 :=
  if n < (up - lo) / 128 then
    modifyGet fun q =>
      let (r, world) := host.randomizePivot q.world
      (r, { q with world })
  else pure rnd

def auxsort : Nat → UInt32 → UInt32 → UInt32 → LibM W Unit
  | 0, _, _, _ => throw .unfinished
  | fuel + 1, lo, up, rnd => do
    if ¬ lo < up then return
    sortEnds host t cmp lo up
    if up - lo = 1 then return
    let p := pivotIndex lo up rnd
    sortThree host t cmp lo up p
    if up - lo = 2 then return
    sortSwap host t p (up - 1)
    let p ← sortPartition host t cmp fuel lo up
    if p - lo < up - p then
      auxsort fuel lo (p - 1) rnd
      auxsort fuel (p + 1) up (← nextRandom host (p + 1) up (p - lo) rnd)
    else
      auxsort fuel (p + 1) up rnd
      auxsort fuel lo (p - 1) (← nextRandom host lo (p - 1) (up - p) rnd)

/-- A list of `n` elements; the bound is `INT_MAX`. -/
def sortLength (cmp : TValue) (fuel : Nat) (n : Int64) : LibM W Unit := do
  if ¬ 1 < n then return
  if 2147483647 ≤ n then panic "array too big"
  if ¬ cmp.isNil ∧ ¬ cmp.isFunction then
    panic "bad argument #2 to 'sort' (function expected)"
  auxsort host t cmp fuel 1 (UInt32.ofNat n.toInt.toNat) 0

def tabSort (fuel : Nat) (args : List TValue) : LibM W (List TValue) := do
  let t ← stackAt args 1
  unless t.isTable do
    panic ("bad argument #1 to 'table.sort' (table expected, got " ++
      (← inState (State.objTypeName · t)) ++ ")")
  let n ← auxGetn host t
  sortLength host t (args.getD 1 .nil) fuel n
  return []

end Luatier.TableLib
