import Luatier.Runtime.Value
import Luatier.Lib.Probing

/-!
# Tables

A table has an array part for the keys `1 .. array.size()` and an
open-addressed hash part.  A node whose value is nil but whose `used` flag is
set is a tombstone: it keeps the probe sequences through it intact.  Stores
report the values they hand to the collector's write barrier, in order.
-/

namespace Luatier

open Binary64

/-- What a table needs to know about the interned strings of the state. -/
structure InternedStrings where
  view : Addr → List UInt8
  hash : Addr → UInt32

structure TableNode where
  key : TValue := .nil
  value : TValue := .nil
  used : Bool := false
  deriving DecidableEq, Repr, Inhabited

structure Table where
  array : List TValue := []
  hash : List TableNode := []
  metatable : Option Addr := none
  structureVersion : UInt32 := 1
  optFlags : UInt32 := 0
  weakMode : UInt8 := 0
  deriving DecidableEq, Repr, Inhabited

/-- A finished store, with the values passed to `barrier(this, _)`. -/
structure Stored where
  table : Table
  barriers : List TValue := []
  deriving DecidableEq, Repr

namespace Table

/--
Integer-valued floats are stored as integers.  The cast of an out-of-range
float gives the least integer, which the round trip then rejects.
-/
def keyAsInteger : TValue → Option Int64
  | .integer n => some n
  | .number w =>
      match decode w with
      | .fin q =>
          if (roundInt (-(2 ^ 63)) : ℚ) ≤ q ∧ q ≤ roundInt (2 ^ 63 - 1) ∧
              q = ⌊q⌋ then
            let out := Datum.truncInt64 (.fin q)
            if (roundInt out : ℚ) = q then some (Int64.ofInt out) else none
          else none
      | _ => none
  | _ => none

def hashKey (L : InternedStrings) (k : TValue) (mod : Nat) : Nat :=
  if mod = 0 then 0
  else
    match k with
    | .string s => (L.hash s).toNat % mod
    | _ => (k.payload ^^^ (UInt64.ofNat k.tag.code <<< 32)).toNat % mod

def arrayIndex? (t : Table) (i : Int64) : Option Nat :=
  if 1 ≤ i.toInt ∧ i.toInt.toNat ≤ t.array.length then
    some (i.toInt.toNat - 1)
  else none

/-- The first power of two reached from `n` by doubling that is not below `target`. -/
def doubleUntil (target : Nat) : Nat → Nat → Nat
  | 0, n => n
  | fuel + 1, n => if n < target then doubleUntil target fuel (2 * n) else n

/-- `vector::max_size` for elements of the given size in bytes. -/
def vectorMax (elementSize : Nat) : Nat := (2 ^ 63 - 1) / elementSize

/--
`table_new`; `resize` refuses sizes above `vector::max_size`, and a hint above
`2 ^ 63`, for which the doubling never ends, gives no table either.
-/
def tableNew (arrayHint hashHint : Nat) : Except String Table :=
  let n := if hashHint = 0 then 8 else doubleUntil hashHint hashHint 1
  if vectorMax 16 < arrayHint ∨ vectorMax 48 < n then
    .error "vector::_M_default_append"
  else
    .ok { array := List.replicate arrayHint .nil
          hash := List.replicate n {} }

/-- How a probe loop over the hash part ends. -/
inductive ProbeEnd where
  | unused (slot : Nat) (firstTomb : Option Nat)
  | found (slot : Nat) (firstTomb : Option Nat)
  | exhausted (firstTomb : Option Nat)
  deriving DecidableEq, Repr

/--
The probe loop of `get`, `set` and `rehash`: it stops at an unused slot or at
the key.  Only `set` reads the first tombstone it passed.
-/
def probeLoop (hash : List TableNode) (lookup : TValue) (idx : Nat) :
    Nat → Nat → Option Nat → ProbeEnd
  | 0, _, firstTomb => .exhausted firstTomb
  | remaining + 1, probe, firstTomb =>
      let slot := Probing.probe hash.length idx probe
      let node := hash.getD slot {}
      if !node.used then .unused slot firstTomb
      else if valuesEqual node.key lookup then .found slot firstTomb
      else
        probeLoop hash lookup idx remaining (probe + 1)
          (if firstTomb.isNone && node.value.isNil then some slot else firstTomb)

def probeFor (L : InternedStrings) (hash : List TableNode) (lookup : TValue) :
    ProbeEnd :=
  probeLoop hash lookup (hashKey L lookup hash.length) hash.length 0 none

def get (L : InternedStrings) (t : Table) (key : TValue) : TValue :=
  let intKey := keyAsInteger key
  match intKey.bind t.arrayIndex? with
  | some j => t.array.getD j .nil
  | none =>
      let lookup := (intKey.map TValue.integer).getD key
      match probeFor L t.hash lookup with
      | .found slot _ => (t.hash.getD slot {}).value
      | _ => .nil

def getInt (L : InternedStrings) (t : Table) (i : Int64) : TValue :=
  match t.arrayIndex? i with
  | some j => t.array.getD j .nil
  | none => t.get L (.integer i)

def liveNode (n : TableNode) : Bool := n.used && !n.value.isNil

/-- The `raw_insert` of `rehash`. -/
def rawInsert (L : InternedStrings) (r : Stored) (key value : TValue) :
    Except String Stored :=
  if value.isNil then .ok r
  else
    let t := r.table
    let intKey := keyAsInteger key
    match intKey.bind t.arrayIndex? with
    | some j =>
        .ok ⟨{ t with array := t.array.set j value }, r.barriers ++ [value]⟩
    | none =>
        let lookup := (intKey.map TValue.integer).getD key
        match probeFor L t.hash lookup with
        | .unused slot _ =>
            .ok ⟨{ t with hash := t.hash.set slot ⟨lookup, value, true⟩ },
              r.barriers ++ [lookup, value]⟩
        | .found slot _ =>
            let node := t.hash.getD slot {}
            .ok ⟨{ t with hash := t.hash.set slot { node with value } },
              r.barriers ++ [value]⟩
        | .exhausted _ => .error "rehash: hash full"

def reinsertArray (L : InternedStrings) (r : Stored) :
    Nat → List TValue → Except String Stored
  | _, [] => .ok r
  | i, v :: rest => do
      let r' ← if v.isNil then pure r
        else rawInsert L r (.integer (Int64.ofNat (i + 1))) v
      reinsertArray L r' (i + 1) rest

def reinsertHash (L : InternedStrings) (r : Stored) :
    List TableNode → Except String Stored
  | [] => .ok r
  | n :: rest => do
      let r' ← if liveNode n then rawInsert L r n.key n.value else pure r
      reinsertHash L r' rest

def rehash (L : InternedStrings) (t : Table) (arrayHint hashHint : Nat) :
    Except String Stored := do
  let nitems := t.array.countP (!·.isNil) + t.hash.countP liveNode
  let target := max hashHint (nitems + 1)
  let fresh : Table :=
    { t with
      array := List.replicate arrayHint .nil
      hash := List.replicate (doubleUntil target target 8) {}
      structureVersion := t.structureVersion + 1 }
  let r ← reinsertArray L ⟨fresh, []⟩ 0 t.array
  reinsertHash L r t.hash

def isNaN : TValue → Bool
  | .number w => !(decode w).eq (decode w)
  | _ => false

def metamethodLike (L : InternedStrings) : TValue → Bool
  | .string s => [95, 95].isPrefixOf (L.view s)
  | _ => false

def clearTmCache (t : Table) : Table := { t with optFlags := 0 }

/-- The array branches of `set_int`. -/
def setArray? (t : Table) (i : Int64) (value : TValue) : Option Stored :=
  match t.arrayIndex? i with
  | some j => some ⟨{ t with array := t.array.set j value }, [value]⟩
  | none =>
      if 1 ≤ i.toInt ∧ i.toInt ≤ 64 then
        let grown := t.array ++
          List.replicate (i.toInt.toNat - t.array.length) TValue.nil
        some ⟨{ t with
            array := grown.set (i.toInt.toNat - 1) value
            structureVersion := t.structureVersion + 1 }, [value]⟩
      else none

def fillSlot (t : Table) (slot : Nat) (lookup value : TValue) : Stored :=
  ⟨{ t with
      hash := t.hash.set slot ⟨lookup, value, true⟩
      structureVersion := t.structureVersion + 1 }, [lookup, value]⟩

/-- The probe loop of `set` and what follows it, but for the final rehash. -/
def setHash? (L : InternedStrings) (t : Table) (lookup value : TValue) :
    Option Stored :=
  match probeFor L t.hash lookup with
  | .unused slot firstTomb =>
      if value.isNil then some ⟨t, []⟩
      else some (t.fillSlot (firstTomb.getD slot) lookup value)
  | .found slot _ =>
      let node := t.hash.getD slot {}
      some ⟨{ t with hash := t.hash.set slot { node with value } },
        if value.isNil then [] else [value]⟩
  | .exhausted firstTomb =>
      if value.isNil then some ⟨t, []⟩
      else firstTomb.map (t.fillSlot · lookup value)

mutual

/-- `set_int`; the fuel bounds the calls between `set`, `set_int` and `rehash`. -/
def setInt (L : InternedStrings) : Nat → Table → Int64 → TValue →
    Except String Stored
  | 0, _, _, _ => .error "out of fuel"
  | fuel + 1, t, i, value =>
      match t.setArray? i value with
      | some r => .ok r
      | none => set L fuel t (.integer i) value

def set (L : InternedStrings) : Nat → Table → TValue → TValue →
    Except String Stored
  | 0, _, _, _ => .error "out of fuel"
  | fuel + 1, t, key, value =>
      if key.isNil then .error "table index is nil"
      else if isNaN key then .error "table index is NaN"
      else
        let t := if metamethodLike L key then t.clearTmCache else t
        let intKey := keyAsInteger key
        match intKey.filter (fun i => 1 ≤ i.toInt ∧ i.toInt ≤ 64) with
        | some i => setInt L fuel t i value
        | none =>
            match intKey.bind t.arrayIndex? with
            | some j =>
                .ok ⟨{ t with array := t.array.set j value }, [value]⟩
            | none =>
                let lookup := (intKey.map TValue.integer).getD key
                let t := if t.hash.isEmpty then
                  { t with hash := List.replicate 8 {} } else t
                match t.setHash? L lookup value with
                | some r => .ok r
                | none => do
                    let r ← rehash L t t.array.length (2 * t.hash.length)
                    let r' ← set L fuel r.table key value
                    .ok { r' with barriers := r.barriers ++ r'.barriers }

end

end Table

end Luatier
