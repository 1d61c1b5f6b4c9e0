import Luatier.Lib.Binary64

/-!
# Tagged values

A `TValue` is a tag with a 64-bit payload.  Floats keep their raw word and
collectable values keep the address of their object, so equality of payloads
is equality of objects.
-/

namespace Luatier

open Binary64

abbrev Addr := UInt64

inductive ValueTag where
  | nil | bool | int | float | string | table | function | userdata | thread
  | lightUserdata | internal
  deriving DecidableEq, Repr

namespace ValueTag

def code : ValueTag → Nat
  | .nil => 0
  | .bool => 1
  | .int => 2
  | .float => 3
  | .string => 4
  | .table => 5
  | .function => 6
  | .userdata => 7
  | .thread => 8
  | .lightUserdata => 9
  | .internal => 10

end ValueTag

inductive TValue where
  | nil
  | boolean (b : Bool)
  | integer (n : Int64)
  | number (w : Word)
  | string (s : Addr)
  | table (t : Addr)
  | function (cl : Addr)
  | userdata (u : Addr)
  | thread (th : Addr)
  | lightUserdata (p : UInt64)
  deriving DecidableEq, Repr, Inhabited

namespace TValue

def tag : TValue → ValueTag
  | .nil => .nil
  | .boolean _ => .bool
  | .integer _ => .int
  | .number _ => .float
  | .string _ => .string
  | .table _ => .table
  | .function _ => .function
  | .userdata _ => .userdata
  | .thread _ => .thread
  | .lightUserdata _ => .lightUserdata

def payload : TValue → UInt64
  | .nil => 0
  | .boolean b => if b then 1 else 0
  | .integer n => n.toUInt64
  | .number w => w
  | .string s => s
  | .table t => t
  | .function cl => cl
  | .userdata u => u
  | .thread th => th
  | .lightUserdata p => p

def isNil (v : TValue) : Bool := v.tag == .nil

def isTruthy : TValue → Bool
  | .nil => false
  | .boolean b => b
  | _ => true

/-- The object a collectable value refers to (`as_gc` under the tag switch). -/
def asGc? : TValue → Option Addr
  | .string s => some s
  | .table t => some t
  | .function cl => some cl
  | .userdata u => some u
  | .thread th => some th
  | _ => none

@[simp] theorem isNil_iff {v : TValue} : v.isNil = true ↔ v = .nil := by
  cases v <;> simp [isNil, tag]

@[simp] theorem isNil_eq_false_iff {v : TValue} : v.isNil = false ↔ v ≠ .nil := by
  cases v <;> simp [isNil, tag]

theorem asGc?_nil : asGc? .nil = none := rfl

end TValue

/-- `float_to_integer`: integral and inside the signed 64-bit range. -/
def floatToInteger (w : Word) : Option Int64 :=
  match decode w with
  | .fin q =>
      if -(2 ^ 63) ≤ q ∧ q < 2 ^ 63 ∧ (⌊q⌋ : ℚ) = q then
        some (Int64.ofInt (Datum.truncInt64 (.fin q)))
      else none
  | _ => none

def valuesEqual : TValue → TValue → Bool
  | .nil, .nil => true
  | .boolean b, .boolean b' => b == b'
  | .integer n, .integer n' => n == n'
  | .number w, .number w' => (decode w).eq (decode w')
  | .integer n, .number w => floatToInteger w == some n
  | .number w, .integer n => floatToInteger w == some n
  | .string s, .string s' => s == s'
  | .table t, .table t' => t == t'
  | .function cl, .function cl' => cl == cl'
  | .userdata u, .userdata u' => u == u'
  | .thread th, .thread th' => th == th'
  | .lightUserdata p, .lightUserdata p' => p == p'
  | _, _ => false

theorem floatToInteger_eq_some {w : Word} {n : Int64} :
    floatToInteger w = some n ↔ decode w = .fin n.toInt := by
  have hlow : -(2 ^ 63) ≤ n.toInt := n.le_toInt
  have hhigh : n.toInt < 2 ^ 63 := n.toInt_lt
  unfold floatToInteger
  cases hd : decode w with
  | nan => simp
  | inf s => simp
  | fin q =>
      simp only [Datum.fin.injEq]
      constructor
      · intro h
        split at h
        · rename_i hq
          obtain ⟨hql, hqh, hfloor⟩ := hq
          have hfl : -(2 ^ 63) ≤ ⌊q⌋ := by
            rw [← hfloor] at hql
            exact_mod_cast hql
          have hfh : ⌊q⌋ < 2 ^ 63 := by
            rw [← hfloor] at hqh
            exact_mod_cast hqh
          rw [← hfloor, Datum.truncInt64_intCast hfl hfh] at h
          rw [← Option.some.inj h, Int64.toInt_ofInt_of_le hfl (by omega)]
          exact hfloor.symm
        · contradiction
      · rintro rfl
        rw [if_pos ⟨by exact_mod_cast hlow, by exact_mod_cast hhigh, by simp⟩,
          Datum.truncInt64_intCast hlow hhigh, Int64.ofInt_toInt]

theorem toUInt64_of_toInt {d : Int64} {n : Nat} (h : d.toInt = n) :
    d.toUInt64 = UInt64.ofNat n := by
  have hofInt : Int64.ofInt n = d := by rw [← h, Int64.ofInt_toInt]
  rw [← hofInt, Int64.ofInt_eq_ofNat, ← UInt64.toInt64_ofNat']
  rfl

end Luatier
