import Luatier.Runtime.NumberStrings
import Luatier.Vm.IntegerArith
import Luatier.Vm.Interrupted

/-!
# Operands of arithmetic

The opcodes take numbers as they are, then strings as the numbers they spell, and
last the metamethods.
-/

namespace Luatier

open Binary64 IntegerArith

/-- The arithmetic of floats. -/
structure Floats where
  arith : OpCode → Word → Word → Word
  neg : Word → Word
  ofInt : Int64 → Word

def toInteger : TValue → Option Int64
  | .integer n => some n
  | .number w => floatToInteger w
  | _ => none

def OpCode.isBitwise : OpCode → Bool
  | .band | .bor | .bxor | .shl | .shr => true
  | _ => false

namespace Coercion

variable (floats : Floats) (dec : UInt8) (view : Addr → List UInt8)

/-- `to_number` of a number. -/
def toFloat : TValue → Word
  | .integer n => floats.ofInt n
  | .number w => w
  | _ => 0

/-- `try_arith_numbers`: both operands are numbers, and none is a string. -/
def tryArithNumbers (op : OpCode) (lhs rhs : TValue) : Option (Checked TValue) :=
  if op.isBitwise then
    match toInteger lhs, toInteger rhs with
    | some x, some y => some ((bitwiseRaw op x y).map .integer)
    | _, _ => none
  else
    match lhs, rhs with
    | .integer x, .integer y =>
        match op with
        | .add | .sub | .mul | .idiv | .mod => (integerPath op x y).map (·.map .integer)
        | .div | .pow => some (.ok (.number (floats.arith op (floats.ofInt x) (floats.ofInt y))))
        | _ => none
    | _, _ =>
        if lhs.isNumber && rhs.isNumber then
          some (.ok (.number (floats.arith op (toFloat floats lhs) (toFloat floats rhs))))
        else none

def coerceNumber (op : OpCode) (v : TValue) : Checked TValue :=
  match tryToNumber dec view v with
  | some n => .ok n
  | none =>
      if op.isBitwise then .error (.raised "attempt to perform bitwise operation on a ")
      else .error (.raised "attempt to perform arithmetic on a ")

/-- `to_integer`, or else `tointerror`. -/
def requireInteger (v : TValue) : Checked Int64 :=
  match toInteger v with
  | some x => .ok x
  | none => .error (.raised "number has no integer representation")

def arithRaw (op : OpCode) (lhs rhs : TValue) : Checked TValue := do
  let a ← coerceNumber dec view op lhs
  let b ← coerceNumber dec view op rhs
  match tryArithNumbers floats op a b with
  | some out => out
  | none =>
      if op.isBitwise then
        let x ← requireInteger a
        let y ← requireInteger b
        return .integer (← bitwiseRaw op x y)
      else .error (.raised "attempt to perform arithmetic on a ")

def arithmetic (op : OpCode) (lhs rhs : TValue) : Option (Checked TValue) :=
  match tryArithNumbers floats op lhs rhs with
  | some out => some out
  | none =>
      if lhs.isNumber && rhs.isNumber then some (arithRaw floats dec view op lhs rhs)
      else
        match tryToNumber dec view lhs, tryToNumber dec view rhs with
        | some a, some b => some (arithRaw floats dec view op a b)
        | _, _ => none

/-- `UNM` coerces its operand. -/
def unm (v : TValue) : Option TValue :=
  match tryToNumber dec view v with
  | some (.integer n) => some (.integer (intopUnm n))
  | some n => some (.number (floats.neg (toFloat floats n)))
  | none => none

/-- `BNOT` does not. -/
def bnot (v : TValue) : Option TValue := (toInteger v).map fun x => .integer (~~~x)

end Coercion

open Coercion

def Raw.coercing (raw : Raw) (floats : Floats) (dec : UInt8) : Raw :=
  { raw with
    arith := fun op lhs rhs L =>
      match arithmetic floats dec L.interned.view op lhs rhs with
      | some (.ok out) => some (.ok out L)
      | some (.error (.raised _)) => some (.error (raw.message op lhs rhs L) L)
      | some (.error .undefined) => raw.arith op lhs rhs L
      | none => none
    unm := fun v L => Coercion.unm floats dec L.interned.view v
    bnot := fun v _ => Coercion.bnot v }

namespace Coercion

/-! ## What an opcode comes to -/

/-- A value for the register, an error, or the call of a metamethod. -/
inductive Operation where
  | value (v : TValue)
  | raised (e : String)
  | call (mm : TValue) (args : List TValue)

def unaryOperation (raw : Raw) (op : OpCode) (out : Option TValue) (v : TValue) (L : State) :
    Operation × State :=
  match out with
  | some out => (.value out, L)
  | none =>
      let (mm, L) := L.getMetamethod v op.event
      if mm.isFunction then (.call mm [v], L) else (.raised (raw.message op v .nil L), L)

def binaryOperation (raw : Raw) (op : OpCode) (lhs rhs : TValue) (L : State) :
    Operation × State :=
  match raw.arith op lhs rhs L with
  | some (.ok out L) => (.value out, L)
  | some (.error e L) => (.raised e, L)
  | none =>
      let (mm, L) := L.getMetamethod2 lhs rhs op.event
      if mm.isFunction then (.call mm [lhs, rhs], L) else (.raised (raw.message op lhs rhs L), L)

def perform (raw : Raw) (a : Addr) (chunk : Chunk) (ins : Instruction) (s : Activation)
    (o : Operation × State) : OpOutcome :=
  match o with
  | (.value v, L) => .done ((s.withState L).setReg a ins.a v)
  | (.raised e, L) => .raised e L
  | (.call mm args, L) =>
      (s.withState L).invokeMm a mm args 1 (Chunk.finishInterruptedOp raw a chunk)

section Execute

variable (raw : Raw) (a : Addr) (chunk : Chunk) (ins : Instruction) (s : Activation)

theorem execute_bnot (hop : ins.op = .bnot) :
    Chunk.execute raw a chunk ins s = perform raw a chunk ins s
      (unaryOperation raw .bnot (raw.bnot (s.reg a ins.b) s.L) (s.reg a ins.b) s.L) := by
  unfold Chunk.execute
  simp only [hop, Chunk.opUnary, unaryOperation]
  cases raw.bnot (s.reg a ins.b) s.L with
  | some out => rfl
  | none =>
      simp only
      split_ifs <;> rfl

theorem execute_bxor (hop : ins.op = .bxor) :
    Chunk.execute raw a chunk ins s = perform raw a chunk ins s
      (binaryOperation raw .bxor (s.reg a ins.b) (s.reg a ins.c) s.L) := by
  unfold Chunk.execute
  simp only [hop, Chunk.opArith, binaryOperation]
  cases raw.arith .bxor (s.reg a ins.b) (s.reg a ins.c) s.L with
  | some r => cases r <;> rfl
  | none =>
      simp only [Chunk.opMm]
      split_ifs <;> rfl

end Execute

/-! ## `~v` and `v ~ -1` -/

/-- The result, or none for an error; `call` tells what comes of calling a metamethod. -/
def answer (call : TValue → List TValue → Option TValue) : Operation → Option TValue
  | .value v => some v
  | .raised _ => none
  | .call mm args => call mm args

section Complement

variable (raw : Raw) (floats : Floats) (dec : UInt8) (L : State) (v : TValue)

def complement : Operation :=
  (unaryOperation (raw.coercing floats dec) .bnot (Coercion.bnot v) v L).1

def xorMinusOne : Operation :=
  (binaryOperation (raw.coercing floats dec) .bxor v (.integer (-1)) L).1

/-- The metamethods of the two, whichever they are, are there or not together. -/
def BothHandled : Prop :=
  (L.getMetamethod v .bnot).1.isFunction =
    (L.getMetamethod2 v (.integer (-1)) .bxor).1.isFunction

/-- The metamethods of the two behave alike. -/
def Alike (call : TValue → List TValue → Option TValue) : Prop :=
  call (L.getMetamethod v .bnot).1 [v] =
    call (L.getMetamethod2 v (.integer (-1)) .bxor).1 [v, .integer (-1)]

/-- An integer or a float with the value of one, or something that is no number and spells
none; what else is a number to the operators has no integer value and no metamethod. -/
def CoercedAlike : Prop :=
  (toInteger v).isSome ∨ tryToNumber dec L.interned.view v = none ∨
    ((tryToNumber dec L.interned.view v).bind toInteger = none ∧
      (L.getMetamethod v .bnot).1.isFunction = false)

variable {dec v} {view : Addr → List UInt8}

theorem tryToNumber_of_isNumber (h : v.isNumber = true) : tryToNumber dec view v = some v := by
  cases v <;> simp [TValue.isNumber] at h <;> rfl

theorem isNumber_of_tryToNumber {n : TValue} (h : tryToNumber dec view v = some n) :
    n.isNumber = true := by
  cases v with
  | integer i =>
      cases h
      rfl
  | number w =>
      cases h
      rfl
  | string s =>
      simp only [tryToNumber, stringToNumber] at h
      rw [ite_eq_iff] at h
      rcases h with ⟨-, h⟩ | ⟨-, h⟩
      · cases h
      · split at h
        · cases h
          rfl
        · obtain ⟨w, -, rfl⟩ := Option.map_eq_some_iff.mp h
          rfl
  | _ => simp [tryToNumber] at h

theorem isNumber_of_toInteger {x : Int64} (h : toInteger v = some x) : v.isNumber = true := by
  cases v <;> simp [toInteger] at h <;> rfl

theorem tryArithNumbers_bxor : tryArithNumbers floats .bxor v (.integer (-1)) =
    (toInteger v).map fun x => .ok (.integer (~~~x)) := by
  have hminus : toInteger (.integer (-1)) = some (-1) := rfl
  have hbitwise : OpCode.bxor.isBitwise = true := rfl
  unfold tryArithNumbers
  rw [if_pos hbitwise, hminus]
  cases toInteger v with
  | none => rfl
  | some x =>
      have hbits : x ^^^ -1 = ~~~x := by simp
      simp [bitwiseRaw, Except.map, hbits]

/-- On a number and `-1` the binary operator flips the bits, or there is no integer. -/
theorem arithRaw_bxor {n : TValue} (h : n.isNumber = true) :
    arithRaw floats dec view .bxor n (.integer (-1)) =
      (requireInteger n).map fun x => .integer (~~~x) := by
  have hcoerce : coerceNumber dec view .bxor n = .ok n := by
    rw [coerceNumber, tryToNumber_of_isNumber h]
  have hone : coerceNumber dec view .bxor (.integer (-1)) = .ok (.integer (-1)) := rfl
  rw [arithRaw, hcoerce, hone]
  simp only [bind, Except.bind, tryArithNumbers_bxor, requireInteger]
  cases toInteger n <;> rfl

theorem arithmetic_bxor :
    arithmetic floats dec view .bxor v (.integer (-1)) =
      (tryToNumber dec view v).map fun n => (requireInteger n).map fun x => .integer (~~~x) := by
  have hone : tryToNumber dec view (.integer (-1)) = some (.integer (-1)) := rfl
  rw [arithmetic, tryArithNumbers_bxor, hone]
  cases hx : toInteger v with
  | some x =>
      rw [tryToNumber_of_isNumber (isNumber_of_toInteger hx)]
      simp [requireInteger, hx, Except.map]
  | none =>
      by_cases hv : v.isNumber = true
      · have hboth : (v.isNumber && (TValue.integer (-1)).isNumber) = true := by
          rw [hv]
          rfl
        rw [tryToNumber_of_isNumber hv, Option.map_some, ← arithRaw_bxor floats hv]
        exact if_pos hboth
      · cases hn : tryToNumber dec view v with
        | none => simp [hv]
        | some n => simp [hv, arithRaw_bxor floats (isNumber_of_tryToNumber hn)]

theorem xorMinusOne_eq : xorMinusOne raw floats dec L v =
    match tryToNumber dec L.interned.view v with
    | some n =>
        match toInteger n with
        | some x => .value (.integer (~~~x))
        | none => .raised (raw.message .bxor v (.integer (-1)) L)
    | none =>
        let (mm, L) := L.getMetamethod2 v (.integer (-1)) .bxor
        if mm.isFunction then .call mm [v, .integer (-1)]
        else .raised (raw.message .bxor v (.integer (-1)) L) := by
  have harith : (raw.coercing floats dec).arith .bxor v (.integer (-1)) L =
      (tryToNumber dec L.interned.view v).map fun n =>
        match toInteger n with
        | some x => .ok (.integer (~~~x)) L
        | none => .error (raw.message .bxor v (.integer (-1)) L) L := by
    simp only [Raw.coercing, arithmetic_bxor]
    cases tryToNumber dec L.interned.view v with
    | none => rfl
    | some n =>
        simp only [Option.map_some, requireInteger]
        cases toInteger n <;> rfl
  rw [xorMinusOne, binaryOperation, harith]
  cases tryToNumber dec L.interned.view v with
  | none =>
      have hevent : OpCode.bxor.event = .bxor := rfl
      simp only [Option.map_none, hevent]
      generalize L.getMetamethod2 v (.integer (-1)) .bxor = found
      obtain ⟨mm, L'⟩ := found
      by_cases hmm : mm.isFunction = true
      · simp [hmm]
      · simp [hmm, Raw.coercing]
  | some n =>
      simp only [Option.map_some]
      cases toInteger n <;> rfl

theorem complement_eq : complement raw floats dec L v =
    match toInteger v with
    | some x => .value (.integer (~~~x))
    | none =>
        let (mm, L) := L.getMetamethod v .bnot
        if mm.isFunction then .call mm [v] else .raised (raw.message .bnot v .nil L) := by
  unfold complement unaryOperation Coercion.bnot
  cases toInteger v with
  | none =>
      have hevent : OpCode.bnot.event = .bnot := rfl
      simp only [Option.map_none, hevent]
      generalize L.getMetamethod v .bnot = found
      obtain ⟨mm, L'⟩ := found
      by_cases hmm : mm.isFunction = true
      · simp [hmm]
      · simp [hmm, Raw.coercing]
  | some x => rfl

/-- `~v` comes to what `v ~ -1` comes to, whatever the metamethods do, unless only the
binary operator has coerced `v`. -/
theorem complement_iff (hhandled : tryToNumber dec L.interned.view v = none → BothHandled L v) :
    (∀ call, Alike L v call →
        answer call (complement raw floats dec L v) =
          answer call (xorMinusOne raw floats dec L v)) ↔
      CoercedAlike dec L v := by
  rw [complement_eq, xorMinusOne_eq, CoercedAlike]
  cases hx : toInteger v with
  | some x =>
      rw [tryToNumber_of_isNumber (isNumber_of_toInteger hx)]
      simp [hx]
  | none =>
      simp only [Alike]
      cases hn : tryToNumber dec L.interned.view v with
      | none =>
          have hboth : _ = _ := hhandled hn
          by_cases hmm : (L.getMetamethod v .bnot).1.isFunction = true
          · simp only [hmm, ← hboth, if_true, answer]
            simp
          · simp only [hmm, ← hboth, answer]
            simp
      | some n =>
          by_cases hmm : (L.getMetamethod v .bnot).1.isFunction = true
          · -- only `~v` calls the metamethod, which may return or raise an error
            simp only [hmm, if_true, Option.bind_some]
            have hrefuted (out : Option TValue) (h : out ≠ some .nil ∨ out ≠ none) :
                ¬ ∀ call : TValue → List TValue → Option TValue,
                  call (L.getMetamethod v .bnot).1 [v] =
                    call (L.getMetamethod2 v (.integer (-1)) .bxor).1 [v, .integer (-1)] →
                  call (L.getMetamethod v .bnot).1 [v] = out := by
              intro hall
              rcases h with h | h
              · exact h (hall (fun _ _ => some .nil) rfl).symm
              · exact h (hall (fun _ _ => none) rfl).symm
            cases hi : toInteger n with
            | none => simpa [answer] using hrefuted none (.inl (by simp))
            | some i => simpa [answer] using hrefuted (some (.integer (~~~i))) (.inr (by simp))
          · simp only [hmm, Option.bind_some]
            cases hi : toInteger n with
            | none => simp [answer]
            | some i =>
                simp only [answer]
                simp
                exact ⟨fun _ _ => none, rfl⟩

end Complement

/-! ## A string -/

def noFloats : Floats where
  arith _ _ _ := 0
  neg w := w
  ofInt _ := 0

def spelledState : State where
  heap := [(2, .table {}), (1, .string ⟨"10".toUTF8.toList, 0⟩)]

theorem complement_iff_table :
    (∀ call, Alike spelledState (.table 2) call →
        answer call (complement Chunk.noRaw noFloats 46 spelledState (.table 2)) =
          answer call (xorMinusOne Chunk.noRaw noFloats 46 spelledState (.table 2))) ↔
      CoercedAlike 46 spelledState (.table 2) :=
  complement_iff Chunk.noRaw noFloats spelledState fun _ => rfl

/-- `~"10"` is an error and `"10" ~ -1` is a number. -/
theorem complement_of_string :
    ¬ ∀ call, Alike spelledState (.string 1) call →
      answer call (complement Chunk.noRaw noFloats 46 spelledState (.string 1)) =
        answer call (xorMinusOne Chunk.noRaw noFloats 46 spelledState (.string 1)) := by
  have hten : tryToNumber 46 spelledState.interned.view (.string 1) = some (.integer 10) := by
    decide +kernel
  intro h
  have heq := h (fun _ _ => none) rfl
  rw [xorMinusOne_eq, hten] at heq
  exact nomatch heq

end Coercion

end Luatier
