import Luatier.Runtime.Value

/-!
# The syntax tree

What the parser builds, without line numbers.
-/

namespace Luatier

open Binary64

abbrev Name := String

inductive BinOp where
  | add | sub | mul | div | idiv | mod | pow | concat
  | band | bor | bxor | shl | shr
  | eq | ne | lt | le | gt | ge | and | or
  deriving DecidableEq, Repr

inductive UnOp where
  | neg | not | len | bnot
  deriving DecidableEq, Repr

mutual

inductive Expr where
  | nil
  | bool (value : Bool)
  | int (value : Int64)
  | float (value : Word)
  | string (value : String)
  | vararg
  | name (name : Name)
  | index (table key : Expr)
  | field (table : Expr) (field : Name)
  | bin (op : BinOp) (lhs rhs : Expr)
  | un (op : UnOp) (operand : Expr)
  | call (callee : Expr) (args : List Expr) (method : Option Name)
  | paren (inner : Expr)
  | table (fields : List Field)
  | function (fn : Function)

/-- A field of a table constructor. -/
inductive Field where
  | positional (value : Expr)
  | named (name : Name) (value : Expr)
  | keyed (key value : Expr)

inductive Function where
  | mk (params : List Name) (isVararg : Bool) (body : Block)

inductive Stmt where
  | localDecl (names : List Name) (values : List Expr)
  | assign (vars values : List Expr)
  | ifs (branches : List Branch) (elseBody : Option Block)
  | while (cond : Expr) (body : Block)
  | repeat (body : Block) (cond : Expr)
  | forNum (name : Name) (start limit : Expr) (step : Option Expr) (body : Block)
  | forIn (names : List Name) (iters : List Expr) (body : Block)
  | break
  | goto (label : Name)
  | label (name : Name)
  | return (values : List Expr)
  | callStmt (call : Expr)
  | doBlock (body : Block)
  | functionDecl (namePath : List Name) (isMethod : Bool) (fn : Function)
  | localFunction (name : Name) (fn : Function)

inductive Branch where
  | mk (cond : Expr) (body : Block)

inductive Block where
  | mk (stmts : List Stmt)

end

namespace Function

def params : Function → List Name
  | mk params _ _ => params

def isVararg : Function → Bool
  | mk _ isVararg _ => isVararg

def body : Function → Block
  | mk _ _ body => body

end Function

def Block.stmts : Block → List Stmt
  | mk stmts => stmts

def Stmt.isLabel : Stmt → Bool
  | .label _ => true
  | _ => false

def Stmt.labelName? : Stmt → Option Name
  | .label name => some name
  | _ => none

def Expr.isCall : Expr → Bool
  | .call _ _ _ => true
  | _ => false

/-! ## What the parser promises -/

mutual

def Stmt.wellFormed : Stmt → Bool
  | .localDecl _ values => exprsWellFormed values
  | .assign vars values => exprsWellFormed vars && exprsWellFormed values
  | .ifs branches none => branchesWellFormed branches
  | .ifs branches (some body) => branchesWellFormed branches && body.wellFormed
  | .while cond body => cond.wellFormed && body.wellFormed
  | .repeat body cond => body.wellFormed && cond.wellFormed
  | .forNum _ start limit none body =>
      start.wellFormed && limit.wellFormed && body.wellFormed
  | .forNum _ start limit (some step) body =>
      start.wellFormed && limit.wellFormed && step.wellFormed && body.wellFormed
  | .forIn names iters body =>
      !names.isEmpty && exprsWellFormed iters && body.wellFormed
  | .return values => exprsWellFormed values
  | .callStmt call => call.isCall && call.wellFormed
  | .doBlock body => body.wellFormed
  | .functionDecl _ _ fn => fn.wellFormed
  | .localFunction _ fn => fn.wellFormed
  | .break => true
  | .goto _ => true
  | .label _ => true

def Block.wellFormed : Block → Bool
  | .mk stmts => stmtsWellFormed stmts

def stmtsWellFormed : List Stmt → Bool
  | [] => true
  | s :: stmts => s.wellFormed && stmtsWellFormed stmts

def branchesWellFormed : List Branch → Bool
  | [] => true
  | .mk cond body :: branches =>
      cond.wellFormed && body.wellFormed && branchesWellFormed branches

def Function.wellFormed : Function → Bool
  | .mk _ _ body => body.wellFormed

def Expr.wellFormed : Expr → Bool
  | .bin _ lhs rhs => lhs.wellFormed && rhs.wellFormed
  | .un _ operand => operand.wellFormed
  | .index table key => table.wellFormed && key.wellFormed
  | .field table _ => table.wellFormed
  | .call callee args _ => callee.wellFormed && exprsWellFormed args
  | .paren inner => inner.wellFormed
  | .table fields => fieldsWellFormed fields
  | .function fn => fn.wellFormed
  | _ => true

def exprsWellFormed : List Expr → Bool
  | [] => true
  | e :: es => e.wellFormed && exprsWellFormed es

def fieldsWellFormed : List Field → Bool
  | [] => true
  | .positional value :: fields => value.wellFormed && fieldsWellFormed fields
  | .named _ value :: fields => value.wellFormed && fieldsWellFormed fields
  | .keyed key value :: fields =>
      key.wellFormed && value.wellFormed && fieldsWellFormed fields

end

end Luatier
