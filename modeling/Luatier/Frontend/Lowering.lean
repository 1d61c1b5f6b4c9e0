import Luatier.Frontend.StmtLowering

/-!
# Lowering of a chunk

The syntax tree is walked once, with one action for each node.
-/

namespace Luatier.Lowering

variable {α : Type}

def listKind : Expr → ItemKind
  | .call _ _ _ => .call
  | .vararg => .vararg
  | _ => .single

def constExpr (k : Const) : Lower α Expdesc := return .constant k

mutual

def expr : Expr → Lower α Expdesc
  | .nil => constExpr .nil
  | .bool value => constExpr (.bool value)
  | .int value => constExpr (.int value)
  | .float value => constExpr (.float value)
  | .string value => constExpr (.string value)
  | .vararg => lowerVararg
  | .name name => searchVar name
  | .index table key => lowerIndex (expr table) (expr key)
  | .field table field => lowerField (expr table) field
  | .bin op lhs rhs =>
      match relation op, op with
      | some (cmp, a, swap), _ => lowerCompare cmp a swap (expr lhs) (expr rhs)
      | none, .and =>
          match relOperands lhs, relOperands rhs with
          | some (op₁, lhs₁, rhs₁), some (op₂, lhs₂, rhs₂) =>
              lowerRelAnd op₁ lhs₁ rhs₁ op₂ lhs₂ rhs₂
          | _, _ => lowerLogic true (expr lhs) (expr rhs)
      | none, .or => lowerLogic false (expr lhs) (expr rhs)
      | none, .concat => lowerConcat (expr lhs) (expr rhs)
      | none, op => lowerArith op (expr lhs) (expr rhs)
  | .un op operand => lowerUn op (expr operand)
  | .call callee args method => lowerCall (expr callee) (exprItems args) method
  | .paren inner => lowerParen (expr inner)
  | .table fields => lowerTable (fieldItems fields)
  | .function fn => function fn

/-- `is_rel`: a comparison, with the lowering of its operands. -/
def relOperands : Expr → Option (BinOp × Lower α Expdesc × Lower α Expdesc)
  | .bin op lhs rhs => if isRel op then some (op, expr lhs, expr rhs) else none
  | _ => none

def exprItems : List Expr → List (Item α)
  | [] => []
  | e :: es => ⟨listKind e, expr e⟩ :: exprItems es

def exprs : List Expr → List (Lower α Expdesc)
  | [] => []
  | e :: es => expr e :: exprs es

def fieldItems : List Field → List (FieldItem α)
  | [] => []
  | .positional value :: fields => .positional ⟨listKind value, expr value⟩ :: fieldItems fields
  | .named name value :: fields => .named name (expr value) :: fieldItems fields
  | .keyed key value :: fields => .keyed (expr key) (expr value) :: fieldItems fields

def function : Function → Lower α Expdesc
  | .mk params isVararg body => lowerFunction params isVararg body (block true true body)

def statement : Stmt → Lower α Unit
  | .localDecl names values => lowerLocalDecl names (exprItems values)
  | .assign vars values => lowerAssign (exprs vars) (exprItems values)
  | .ifs branches none => lowerIf (branchItems branches) none
  | .ifs branches (some body) => lowerIf (branchItems branches) (some (block true true body))
  | .while cond body => lowerWhile (expr cond) (block true true body)
  | .repeat body cond => lowerRepeat (block false false body) (expr cond)
  | .forNum name start limit none body =>
      lowerForNum name (expr start) (expr limit) none (block true true body)
  | .forNum name start limit (some step) body =>
      lowerForNum name (expr start) (expr limit) (some (expr step)) (block true true body)
  | .forIn names iters body => lowerForIn names (exprItems iters) (block true true body)
  | .break => lowerBreak
  | .goto _ => pure ()
  | .label _ => pure ()
  | .return values => lowerReturn (exprItems values)
  | .callStmt call => lowerCallStmt (expr call)
  | .doBlock body => block true true body
  | .functionDecl namePath _ fn => lowerFunctionDecl namePath (function fn)
  | .localFunction name fn => lowerLocalFunction name (function fn)

def branchItems : List Branch → List (Lower α Expdesc × Lower α Unit)
  | [] => []
  | .mk cond body :: branches => (expr cond, block true true body) :: branchItems branches

def stmtItems : List Stmt → List (BlockItem α)
  | [] => []
  | .label name :: stmts => .label name :: stmtItems stmts
  | .goto label :: stmts => .goto label :: stmtItems stmts
  | s :: stmts => .stmt (statement s) :: stmtItems stmts

def block (allowLast close : Bool) : Block → Lower α Unit
  | .mk stmts => lowerBlock allowLast close (stmtItems stmts)

end

/-- The main function is vararg, and its first upvalue is `_ENV`. -/
def lowerChunk (body : Block) : Except LowerError (Proto α) := do
  let main : FuncState α := { upvalues := [⟨"_ENV", false, 0⟩] }
  let (_, s) ← functionBody [] (block true true body) ⟨main, []⟩
  return s.fs.proto 0 true body

end Luatier.Lowering
