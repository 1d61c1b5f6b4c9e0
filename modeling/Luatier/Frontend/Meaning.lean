import Luatier.Frontend.Execution
import Luatier.Lib.Realises

/-!
# What a chunk means

Expressions and statements are evaluated over a scope of named values and a world.
Functions inside, gotos and labels have no meaning here.  A loop has fuel for a
number of rounds.
-/

namespace Luatier.Lowering

open Realising

/-- What is evaluated may end the activation. -/
abbrev Eval (V σ ε X : Type) := StateT σ (Comp (Outcome V σ ε)) X

/-- The locals, in the order of their declaration, and the upvalue `_ENV`. -/
structure Env (V : Type) where
  scope : List (Name × V)
  env : V
  varargs : List V

variable {V σ ε : Type}

def setLast (name : Name) (v : V) : List (Name × V) → List (Name × V)
  | [] => []
  | (x, w) :: scope =>
      if x = name ∧ scope.all (·.1 != name) then (x, v) :: scope
      else (x, w) :: setLast name v scope

namespace Env

variable (ρ : Env V)

def find? (name : Name) : Option V := (ρ.scope.reverse.find? (·.1 == name)).map Prod.snd

def depth : Nat := ρ.scope.length

def push (names : List Name) (values : List V) : Env V :=
  { ρ with scope := ρ.scope ++ names.zip values }

def take (n : Nat) : Env V := { ρ with scope := ρ.scope.take n }

def assign (name : Name) (v : V) : Env V := { ρ with scope := setLast name v ρ.scope }

end Env

def lift {X : Type} (m : Op σ ε X) : Eval V σ ε X := fun world =>
  match m world with
  | .ok r => pure r
  | .error error => throw (.raised error)

def Field.isPositional : Field → Bool
  | .positional _ => true
  | _ => false

def literal? : Expr → Option Const
  | .nil => some .nil
  | .bool value => some (.bool value)
  | .int value => some (.int value)
  | .float value => some (.float value)
  | .string value => some (.string value)
  | .paren inner => literal? inner
  | .un .neg operand =>
      match literal? operand with
      | some (.int n) => some (.int (-n))
      | some (.float w) => some (.float (negate w))
      | _ => none
  | _ => none

def Const.key (k : Const) : Const :=
  match constUint8Index k with
  | some n => .int (Int64.ofNat n)
  | none => k

section Expressions

variable (P : Primitives V σ ε) (ρ : Env V)

/-- A name that is no local is a field of `_ENV`. -/
def evalName (name : Name) : Eval V σ ε V :=
  match ρ.find? name with
  | some v => pure v
  | none =>
      if name = "_ENV" then pure ρ.env
      else lift (P.index ((ρ.find? "_ENV").getD ρ.env) (P.const (.string name)))

def evalRelation (cmp : OpCode) (holds : Bool) (swap : Bool) (v w : V) : Eval V σ ε Bool := do
  let r ← lift (if swap then P.compare cmp w v else P.compare cmp v w)
  return r == holds

def evalCompare (cmp : OpCode) (holds : Bool) (swap : Bool) (v w : V) : Eval V σ ε V := do
  let r ← evalRelation P cmp holds swap v w
  return P.const (.bool r)

def evalBin (op : BinOp) (v w : V) : Eval V σ ε V :=
  match relation op, binArithOp op with
  | some (cmp, a, swap), _ => evalCompare P cmp (a != 0) swap v w
  | none, some code => lift (P.arith code v w)
  | none, none => lift (P.concat v w)

def evalUn (op : UnOp) (v : V) : Eval V σ ε V :=
  match op with
  | .not => pure (P.const (.bool (!P.isTruthy v)))
  | op => lift (P.unary (unOpCode op) v)

/-- The function and its arguments; a method is a field of the first argument. -/
def evalOperands (callee : Eval V σ ε V) (args : Eval V σ ε (List V)) (method : Option Name) :
    Eval V σ ε (V × List V) := do
  let object ← callee
  match method with
  | some name =>
      let f ← lift (P.index object (P.const (.string name)))
      let values ← args
      return (f, object :: values)
  | none =>
      let values ← args
      return (object, values)

def evalCall (wanted : Option Nat) (callee : Eval V σ ε V) (args : Eval V σ ε (List V))
    (method : Option Name) : Eval V σ ε (List V) := do
  let r ← evalOperands P callee args method
  lift (P.adjust wanted <$> P.call wanted r.1 r.2)

def setListed (fields : List Field) (t : V) (values : List V) : Eval V σ ε Unit :=
  if fields.any Field.isPositional then lift (P.setList t 0 values) else pure ()

mutual

def evalExpr : Expr → Eval V σ ε V
  | .nil => pure P.nil
  | .bool value => pure (P.const (.bool value))
  | .int value => pure (P.const (.int value))
  | .float value => pure (P.const (.float value))
  | .string value => pure (P.const (.string value))
  | .vararg => pure (ρ.varargs.headD P.nil)
  | .name name => evalName P ρ name
  | .index table key => do
      let t ← evalExpr table
      let k ← match literal? key with
        | some k => pure (P.const k.key)
        | none => evalExpr key
      lift (P.index t k)
  | .field table field => do
      let t ← evalExpr table
      lift (P.index t (P.const (.string field)))
  | .bin .and lhs rhs => do
      let v ← evalExpr lhs
      if P.isTruthy v then evalExpr rhs else pure v
  | .bin .or lhs rhs => do
      let v ← evalExpr lhs
      if P.isTruthy v then pure v else evalExpr rhs
  | .bin op lhs rhs => do
      let v ← evalExpr lhs
      let w ← evalExpr rhs
      evalBin P op v w
  | .un op operand => do
      let v ← evalExpr operand
      evalUn P op v
  | .call callee args method =>
      (·.headD P.nil) <$> evalCall P (some 1) (evalExpr callee) (evalArgs args) method
  | .paren inner => evalExpr inner
  | .table fields => do
      let t ← lift P.newTable
      let values ← evalFields t fields
      setListed P fields t values
      return t
  | .function _ => throw .panicked

def evalMulti (wanted : Option Nat) : Expr → Eval V σ ε (List V)
  | .call callee args method =>
      evalCall P wanted (evalExpr callee) (evalArgs args) method
  | .vararg => pure (P.adjust wanted ρ.varargs)
  | _ => pure []

def evalArgs : List Expr → Eval V σ ε (List V)
  | [] => pure []
  | e :: es =>
      if es.isEmpty && listKind e != .single then evalMulti none e
      else do
        let v ← evalExpr e
        let vs ← evalArgs es
        return v :: vs

def evalFields (t : V) : List Field → Eval V σ ε (List V)
  | [] => pure []
  | .named name value :: fields => do
      let v ← evalExpr value
      lift (P.newindex t (P.const (.string name)) v)
      evalFields t fields
  | .positional value :: fields =>
      if fields.isEmpty && listKind value != .single then evalMulti none value
      else do
        let v ← evalExpr value
        let vs ← evalFields t fields
        return v :: vs
  | .keyed _ _ :: _ => throw .panicked

end

def evalUpTo (n : Nat) : List Expr → Eval V σ ε (List V)
  | [] => pure (List.replicate n P.nil)
  | e :: es =>
      if es.isEmpty && listKind e != .single then evalMulti P ρ (some n) e
      else do
        let v ← evalExpr P ρ e
        let vs ← evalUpTo (n - 1) es
        return v :: vs

end Expressions

/-! ## Statements -/

/-- What is assigned to. -/
inductive Target (V : Type) where
  | name (name : Name)
  | slot (table key : V)

/-- A statement goes on, or leaves the innermost loop. -/
inductive Flow where
  | next | broke
  deriving DecidableEq, Repr

section Assignment

variable (P : Primitives V σ ε)

def evalTarget (ρ : Env V) : Expr → Eval V σ ε (Target V)
  | .name name => pure (.name name)
  | .index table key => do
      let t ← evalExpr P ρ table
      let k ← match literal? key with
        | some k => pure (P.const k.key)
        | none => evalExpr P ρ key
      return .slot t k
  | .field table field => do
      let t ← evalExpr P ρ table
      return .slot t (P.const (.string field))
  | _ => throw .panicked

def evalTargets (ρ : Env V) : List Expr → Eval V σ ε (List (Target V))
  | [] => pure []
  | e :: es => do
      let t ← evalTarget P ρ e
      let ts ← evalTargets ρ es
      return t :: ts

def store (ρ : Env V) (target : Target V) (v : V) : Eval V σ ε (Env V) :=
  match target with
  | .slot t k => do
      lift (P.newindex t k v)
      return ρ
  | .name name =>
      match ρ.find? name with
      | some _ => pure (ρ.assign name v)
      | none =>
          if name = "_ENV" then pure { ρ with env := v }
          else do
            lift (P.newindex ((ρ.find? "_ENV").getD ρ.env) (P.const (.string name)) v)
            return ρ

def storeEach (ρ : Env V) : List (Target V × V) → Eval V σ ε (Env V)
  | [] => pure ρ
  | (target, v) :: rest => do
      let ρ ← store P ρ target v
      storeEach ρ rest

end Assignment

section Statements

variable (P : Primitives V σ ε)

/-- Where a round goes when its body, which began in scope `ρ`, has been run. -/
def afterBody {X : Type} (ρ : Env V) (again : Env V → X) (r : Flow × Env V) : Env V ⊕ X :=
  match r.1 with
  | .next => .inr (again (r.2.take ρ.depth))
  | .broke => .inl (r.2.take ρ.depth)

def evalTest (cond : Expr) (ρ : Env V) : Eval V σ ε Bool := do
  let v ← evalExpr P ρ cond
  return P.isTruthy v

def whileRound (cond : Env V → Eval V σ ε Bool) (body : Env V → Eval V σ ε (Flow × Env V))
    (ρ : Env V) : Eval V σ ε (Env V ⊕ Env V) := do
  if ← cond ρ then afterBody ρ id <$> body ρ else pure (.inl ρ)

def repeatRound (body : Env V → Eval V σ ε (Flow × Env V)) (cond : Env V → Eval V σ ε Bool)
    (ρ : Env V) : Eval V σ ε (Env V ⊕ Env V) := do
  let r ← body ρ
  match r.1 with
  | .next => do
      let ends ← cond r.2
      return if ends then .inl (r.2.take ρ.depth) else .inr (r.2.take ρ.depth)
  | .broke => pure (.inl (r.2.take ρ.depth))

def forRound (name : Name) (limit step : V) (body : Env V → Eval V σ ε (Flow × Env V))
    (x : V × Env V) : Eval V σ ε (Env V ⊕ V × Env V) :=
  match P.forLoop x.1 limit step with
  | some idx => afterBody x.2 (idx, ·) <$> body (x.2.push [name] [idx])
  | none => pure (.inl x.2)

def callRound (names : List Name) (f state : V) (body : Env V → Eval V σ ε (Flow × Env V))
    (x : V × Env V) : Eval V σ ε (Env V ⊕ V × Env V) := do
  let values ← lift (P.adjust (some names.length) <$> P.call (some names.length) f [state, x.1])
  let control := values.headD P.nil
  if P.isNil control then pure (.inl x.2)
  else afterBody x.2 (control, ·) <$> body (x.2.push names values)

def leave {X : Type} (values : List V) : Eval V σ ε X :=
  fun world => throw (.returned values world)

mutual

def execStmt (fuel : Nat) : Stmt → Env V → Eval V σ ε (Flow × Env V)
  | .localDecl names values, ρ => do
      let vs ← evalUpTo P ρ names.length values
      return (.next, ρ.push names vs)
  | .assign vars values, ρ => do
      let ts ← evalTargets P ρ vars
      let vs ← evalUpTo P ρ vars.length values
      let ρ ← storeEach P ρ (ts.zip vs)
      return (.next, ρ)
  | .ifs branches none, ρ => execBranches fuel branches (fun ρ => pure (.next, ρ)) ρ
  | .ifs branches (some body), ρ => execBranches fuel branches (execBlock fuel body) ρ
  | .while cond body, ρ => do
      let ρ ← rounds (whileRound (evalTest P cond) (execBlock fuel body)) fuel ρ
      return (.next, ρ)
  | .repeat (.mk stmts) cond, ρ => do
      let ρ ← rounds (repeatRound (execStmts fuel stmts) (evalTest P cond)) fuel ρ
      return (.next, ρ)
  | .forNum name start limit step body, ρ => do
      let v ← evalExpr P ρ start
      let w ← evalExpr P ρ limit
      let k ← match step with
        | some step => evalExpr P ρ step
        | none => pure (P.const (.int 1))
      let r ← lift (P.forPrep v w k)
      let ρ ← rounds (forRound P name r.2.1 r.2.2 (execBlock fuel body)) fuel (r.1, ρ)
      return (.next, ρ)
  | .forIn names iters body, ρ => do
      let vs ← evalUpTo P ρ 3 iters
      let f := vs.headD P.nil
      let state := vs.tail.headD P.nil
      let control := vs.tail.tail.headD P.nil
      let ρ ← rounds (callRound P names f state (execBlock fuel body)) fuel (control, ρ)
      return (.next, ρ)
  | .break, ρ => pure (.broke, ρ)
  | .return values, ρ => do
      let vs ← evalArgs P ρ values
      leave vs
  | .callStmt call, ρ => do
      discard (evalExpr P ρ call)
      return (.next, ρ)
  | .doBlock body, ρ => execBlock fuel body ρ
  | _, _ => throw .panicked

def execBranches (fuel : Nat) : List Branch → (Env V → Eval V σ ε (Flow × Env V)) →
    Env V → Eval V σ ε (Flow × Env V)
  | [], orElse, ρ => orElse ρ
  | .mk cond body :: branches, orElse, ρ => do
      if ← evalTest P cond ρ then execBlock fuel body ρ
      else execBranches fuel branches orElse ρ

def execStmts (fuel : Nat) : List Stmt → Env V → Eval V σ ε (Flow × Env V)
  | [], ρ => pure (.next, ρ)
  | s :: stmts, ρ => do
      let r ← execStmt fuel s ρ
      match r.1 with
      | .next => execStmts fuel stmts r.2
      | .broke => pure r

def execBlock (fuel : Nat) : Block → Env V → Eval V σ ε (Flow × Env V)
  | .mk stmts, ρ => do
      let r ← execStmts fuel stmts ρ
      return (r.1, r.2.take ρ.depth)

end

def execChunk (fuel : Nat) (body : Block) (env : V) (varargs : List V) : Eval V σ ε Unit := do
  discard (execBlock P fuel body ⟨[], env, varargs⟩)
  leave []

end Statements

end Luatier.Lowering
