import Luatier.Lib.Cells
import Luatier.Runtime.Border
import Luatier.Vm.Comparisons
import Luatier.Vm.Indexing

/-!
# The table library

Its functions read and write through `meta_index` and `meta_newindex`, so any
access may run Lua code.  Arithmetic on `int64_t` is checked: an operation that
leaves the range is a fault of its own.
-/

namespace Luatier

inductive Fault where
  | panic (text : String)
  /-- A signed operation overflowed. -/
  | overflow
  /-- The fuel ran out. -/
  | unfinished
  deriving DecidableEq, Repr

/-- What a function of the library does to its table. -/
inductive LibEvent where
  | read (t : TValue) (i : Int64)
  | write (t : TValue) (i : Int64)
  | compare (a b : TValue) (L : State)

/-- `world` is all that is not the state; `trace` is there to be looked at only. -/
structure Process (W : Type) where
  L : State
  world : W
  trace : List LibEvent := []

abbrev LibM (W : Type) := EStateM Fault (Process W)

/-- What the library takes from the rest of the program. -/
structure Host (W : Type) where
  site : ErrorSite
  raw : Raw
  /-- `call_mm` and `call_closure`, with one result. -/
  call : TValue → List TValue → State × W → EStateM.Result String (State × W) TValue
  tryToNumber : State → TValue → Option TValue
  numberToString : TValue → List UInt8
  /-- The text of `arg_type_error`. -/
  argTypeError : Nat → String → TValue → State → String
  /-- `randomize_pivot` adds up the clocks. -/
  randomizePivot : W → UInt32 × W

namespace TableLib

variable {W α : Type}

def panic (text : String) : LibM W α := throw (.panic text)

def record (e : LibEvent) : LibM W Unit :=
  modify fun p => { p with trace := e :: p.trace }

def inState (f : State → α) : LibM W α := do
  return f (← get).L

/-! ## Checked arithmetic -/

def int64 (r : Int) : LibM W Int64 :=
  if -(2 ^ 63) ≤ r ∧ r < 2 ^ 63 then pure (Int64.ofInt r) else throw .overflow

def add (a b : Int64) : LibM W Int64 := int64 (a.toInt + b.toInt)

def sub (a b : Int64) : LibM W Int64 := int64 (a.toInt - b.toInt)

theorem toInt_succ {i last : Int64} (h : i < last) : (i + 1).toInt = i.toInt + 1 := by
  have hlt := Int64.lt_iff_toInt_lt.mp h
  have hlow := i.le_toInt
  have hhigh := last.toInt_lt
  rw [Int64.toInt_add]
  simp only [Int64.reduceToInt]
  exact Int.bmod_eq_of_le (by omega) (by omega)

theorem toInt_pred {i bound : Int64} (h : bound < i) : (i - 1).toInt = i.toInt - 1 := by
  have hlt := Int64.lt_iff_toInt_lt.mp h
  have hlow := bound.le_toInt
  have hhigh := i.toInt_lt
  rw [Int64.toInt_sub]
  simp only [Int64.reduceToInt]
  exact Int.bmod_eq_of_le (by omega) (by omega)

/-- `for (; i < last; ++i)`; it ends with the index and what the rounds made of `acc`. -/
def forUp (last : Int64) (body : Int64 → α → LibM W α) (i : Int64) (acc : α) :
    LibM W (Int64 × α) :=
  if i < last then do
    let acc ← body i acc
    let _ ← add i 1
    forUp last body (i + 1) acc
  else pure (i, acc)
termination_by (last.toInt - i.toInt).toNat
decreasing_by
  rename_i h
  have hlt := Int64.lt_iff_toInt_lt.mp h
  rw [toInt_succ h]
  omega

/-- `for (; i > bound; --i)`. -/
def forDown (bound : Int64) (body : Int64 → LibM W Unit) (i : Int64) : LibM W Unit :=
  if bound < i then do
    body i
    let _ ← sub i 1
    forDown bound body (i - 1)
  else pure ()
termination_by (i.toInt - bound.toInt).toNat
decreasing_by
  rename_i h
  have hlt := Int64.lt_iff_toInt_lt.mp h
  rw [toInt_pred h]
  omega

/-! ## Arguments -/

/-- `L->at(idx)`. -/
def stackAt (args : List TValue) (idx : Nat) : LibM W TValue :=
  match args[idx - 1]? with
  | some v => pure v
  | none => panic "invalid stack index"

def checkAny (args : List TValue) (idx : Nat) (what : String) : LibM W Unit :=
  if idx < 1 ∨ args.length < idx then panic (what ++ ": bad argument #" ++ toString idx)
  else pure ()

def checkString (args : List TValue) (idx : Nat) : LibM W Addr := do
  checkAny args idx "check_string"
  match ← stackAt args idx with
  | .string s => pure s
  | _ => panic "string expected"

/-- The integer that a float stands for; the upper bound is rounded up to `2 ^ 63`. -/
def floatToInt64? (w : Binary64.Word) : Option Int64 :=
  match Binary64.decode w with
  | .fin q =>
      if q = ⌊q⌋ ∧ (Binary64.roundInt (-(2 ^ 63)) : ℚ) ≤ q ∧
          q ≤ Binary64.roundInt (2 ^ 63 - 1) then
        some (Int64.ofInt (Binary64.Datum.truncInt64 (.fin q)))
      else none
  | _ => none

variable (host : Host W)

def argTypeError (idx : Nat) (expected : String) (v : TValue) : LibM W α := do
  panic (← inState (host.argTypeError idx expected v))

/-- `from_number` of the argument `v`, which is a number or was converted to `n`. -/
def fromNumber (idx : Nat) (v : TValue) : TValue → LibM W Int64
  | .integer n => pure n
  | .number w =>
      match floatToInt64? w with
      | some n => pure n
      | none => panic "number has no integer representation"
  | _ => argTypeError host idx "integer" v

def checkInt (args : List TValue) (idx : Nat) : LibM W Int64 := do
  checkAny args idx "check_int"
  let v ← stackAt args idx
  if v.isNumber then fromNumber host idx v v
  else
    match ← inState (host.tryToNumber · v) with
    | some n => fromNumber host idx v n
    | none => argTypeError host idx "integer" v

def optInt (args : List TValue) (idx : Nat) (default : Int64) : LibM W Int64 := do
  if args.length < idx then return default
  if (← stackAt args idx).isNil then return default
  checkInt host args idx

/-! ## Access -/

def call (mm : TValue) (args : List TValue) : LibM W TValue := fun p =>
  match host.call mm args (p.L, p.world) with
  | .ok out (L, world) => .ok out { p with L, world }
  | .error e (L, world) => .error (.panic e) { p with L, world }

def access (result : TValue → α) (run : State → Access α) : LibM W α := fun p =>
  match run p.L with
  | .done r L => .ok r { p with L }
  | .call mm args _ L => (result <$> call host mm args) { p with L }
  | .raised e L => .error (.panic e) { p with L }

def geti (t : TValue) (i : Int64) : LibM W TValue := do
  record (.read t i)
  access host id fun L => Access.metaIndex host.site none L t (.integer i)

def seti (t : TValue) (i : Int64) (v : TValue) : LibM W Unit := do
  record (.write t i)
  access host (fun _ => ()) fun L => Access.metaNewindex host.site none L t (.integer i) v

def getMetamethod (v : TValue) (name : String) : LibM W TValue :=
  modifyGet fun p =>
    let (mm, L) := p.L.getMetamethodNamed v name
    (mm, { p with L })

def metaLen (v : TValue) : LibM W TValue := do
  match v with
  | .string s => inState fun L => .integer (Int64.ofNat (L.interned.view s).length)
  | .table a =>
      let mm ← getMetamethod v "__len"
      if mm.isFunction then call host mm [v]
      else inState fun L =>
        .integer (((L.table? a).map (Table.tableLength L.interned)).getD 0)
  | _ =>
      let mm ← getMetamethod v "__len"
      if mm.isFunction then call host mm [v]
      else panic (← inState (State.typeerror · host.site none v "get length of"))

def metaLt (v w : TValue) : LibM W Bool := do
  if v.isNumber && w.isNumber then return v.toNumber.lt w.toNumber
  if v.isString && w.isString then return ← inState (host.raw.stringLt · v w)
  let mm ← getMetamethod v "__lt"
  let mm ← if mm.isNil then getMetamethod w "__lt" else pure mm
  if mm.isFunction then return (← call host mm [v, w]).isTruthy
  panic (← inState (host.raw.message .lt v w))

/-- `meta_len` has no other outcome than a length or an error. -/
def auxGetn (t : TValue) : LibM W Int64 := do
  match ← metaLen host t with
  | .integer n => pure n
  | .number w =>
      match floatToInt64? w with
      | some n => pure n
      | none => panic "object length is not an integer"
  | _ => panic "object length is not an integer"

def checkTable (args : List TValue) : LibM W TValue := do
  let t ← stackAt args 1
  if t.isTable then pure t else panic "table expected"

/-! ## `table.concat` -/

def typeNameInConcat : TValue → String
  | .boolean _ => "boolean"
  | .table _ => "table"
  | .function _ => "function"
  | .userdata _ => "userdata"
  | .thread _ => "thread"
  | _ => "nil"

def concatAddfield (t : TValue) (i : Int64) (out : List UInt8) : LibM W (List UInt8) := do
  let v ← geti host t i
  match v with
  | .string s => return out ++ (← inState fun L => L.interned.view s)
  | _ =>
      if v.isNumber then return out ++ host.numberToString v
      panic ("invalid value (" ++ typeNameInConcat v ++ ") at index " ++ toString i ++
        " in table for 'concat'")

def separator (args : List TValue) : LibM W (List UInt8) := do
  if args.length < 2 then return []
  if (← stackAt args 2).isNil then return []
  let s ← checkString args 2
  inState fun L => L.interned.view s

def tabConcat (args : List TValue) : LibM W (List UInt8) := do
  let t ← checkTable args
  let sep ← separator args
  let i ← optInt host args 3 1
  let n ← auxGetn host t
  let last ← optInt host args 4 n
  let (i, out) ← forUp last (fun i out => do
    return (← concatAddfield host t i out) ++ sep) i []
  if i = last then concatAddfield host t i out else return out

/-! ## `table.insert` and `table.remove` -/

def tabInsert (args : List TValue) : LibM W (List TValue) := do
  let t ← checkTable args
  if args.length = 2 then
    let pos ← add (← auxGetn host t) 1
    seti host t pos (← stackAt args 2)
    return []
  else if args.length = 3 then
    let pos ← checkInt host args 2
    let e ← add (← auxGetn host t) 1
    if pos < 1 ∨ e < pos then panic "position out of bounds"
    forDown pos (fun k => do seti host t k (← geti host t (← sub k 1))) e
    seti host t pos (← stackAt args 3)
    return []
  else panic "wrong number of arguments to 'insert'"

def removePosition (args : List TValue) (size : Int64) : LibM W Int64 := do
  let pos ← if 2 ≤ args.length then checkInt host args 2 else pure size
  if pos = size then return pos
  if pos < 1 then panic "position out of bounds"
  -- the sum is only formed when the first test fails
  if (← add size 1) < pos then panic "position out of bounds"
  return pos

/-- The index that is free after the elements behind `pos` have moved down. -/
def eraseLast (t : TValue) (size pos : Int64) : LibM W Unit :=
  if 1 ≤ pos ∧ pos ≤ size then seti host t size .nil
  else if pos = 0 then seti host t 0 .nil
  else pure ()

def tabRemove (args : List TValue) : LibM W (List TValue) := do
  let t ← checkTable args
  let size ← auxGetn host t
  let pos ← removePosition host args size
  let v ← geti host t pos
  discard (forUp size (fun k _ => do seti host t k (← geti host t (← add k 1))) pos ())
  eraseLast host t size pos
  return [v]

/-! ## `table.move` -/

def moveDest (args : List TValue) (a : TValue) : LibM W TValue := do
  if args.length < 5 then return a
  let dest ← stackAt args 5
  if dest.isTable then return dest
  panic "table expected"

def moveElement (a dest : TValue) (f tpos i : Int64) : LibM W Unit := do
  let k ← add tpos i
  seti host dest k (← geti host a (← add f i))

def moveRange (a dest : TValue) (f e tpos : Int64) : LibM W Unit := do
  if f ≤ 0 ∧ Int64.maxValue.toUInt64 ≤ e.toUInt64 - f.toUInt64 then
    panic "too many elements to move"
  let n ← add (← sub e f) 1
  if (← add (← sub Int64.maxValue n) 1) < tpos then panic "destination wrap around"
  if e < tpos ∨ tpos ≤ f ∨ ¬ valuesEqual dest a then
    discard (forUp n (fun i _ => moveElement host a dest f tpos i) 0 ())
  else
    -- `i >= 0` is `i > -1`
    forDown (-1) (moveElement host a dest f tpos) (← sub n 1)

def tabMove (args : List TValue) : LibM W (List TValue) := do
  let a ← checkTable args
  let f ← checkInt host args 2
  let e ← checkInt host args 3
  let tpos ← checkInt host args 4
  let dest ← moveDest args a
  if f ≤ e then moveRange host a dest f e tpos
  return [dest]

/-! ## `table.unpack` -/

def tabUnpack (args : List TValue) : LibM W (List TValue) := do
  let t ← checkTable args
  let i ← optInt host args 2 1
  let size ← auxGetn host t
  let j ← optInt host args 3 size
  if j < i then return []
  let n := j.toUInt64 - i.toUInt64
  if 2147483647 - 1 ≤ n then panic "too many results to unpack"
  let (_, out) ← forUp j (fun k out => do return out ++ [← geti host t k]) i []
  return out ++ [← geti host t j]

end TableLib

end Luatier
