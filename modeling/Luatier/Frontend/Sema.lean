import Luatier.Frontend.Ast

/-!
# Scope analysis

`sema_analyze` walks a chunk once.  A goto is recorded with the names of the
locals at its place, and is held against the labels of each block that is left
after it.
-/

namespace Luatier

abbrev LabelScope := List (Name × List Name)

structure PendingGoto where
  label : Name
  visible : List Name
  scopeDepth : Nat
  deriving DecidableEq, Repr

/-- What is known of the function that is walked; the innermost block is first. -/
structure Ctx where
  loopDepth : Nat := 0
  locals : List Name := []
  labelScopes : List LabelScope := []
  gotos : List PendingGoto := []
  deriving DecidableEq, Repr

namespace Ctx

variable (ctx : Ctx)

def pushLocals (names : List Name) : Ctx := { ctx with locals := ctx.locals ++ names }

def resizeLocals (n : Nat) : Ctx := { ctx with locals := ctx.locals.take n }

def enterLoop : Ctx := { ctx with loopDepth := ctx.loopDepth + 1 }

def leaveLoop : Ctx := { ctx with loopDepth := ctx.loopDepth - 1 }

def leaveLoopOf (inner : Ctx) : Ctx :=
  (inner.resizeLocals ctx.locals.length).leaveLoop

def pushGoto (label : Name) : Ctx :=
  { ctx with
    gotos := ctx.gotos ++ [⟨label, ctx.locals, ctx.labelScopes.length⟩] }

def findLabel (name : Name) : Option (List Name) :=
  ctx.labelScopes.findSome? (·.lookup name)

end Ctx

def PendingGoto.unseen (g : PendingGoto) (names : List Name) : Option Name :=
  names.find? fun name => !g.visible.contains name

def PendingGoto.check (g : PendingGoto) (names : List Name) : Except String Unit :=
  match g.unseen names with
  | none => .ok ()
  | some name => .error ("goto jumps into the scope of local '" ++ name ++ "'")

def bindGotos (depth : Nat) (labels : LabelScope) :
    List PendingGoto → Except String (List PendingGoto)
  | [] => .ok []
  | g :: gs =>
      match if depth ≤ g.scopeDepth then labels.lookup g.label else none with
      | some names => (g.check names).bind fun _ => bindGotos depth labels gs
      | none => (bindGotos depth labels gs).map (g :: ·)

namespace Ctx

variable (ctx : Ctx)

def openScope : Ctx := { ctx with labelScopes := [] :: ctx.labelScopes }

def defineLabel (name : Name) (names : List Name) : Except String Ctx :=
  match ctx.labelScopes with
  | [] => .ok ctx
  | labels :: outer =>
      if (labels.lookup name).isSome then .error ("label '" ++ name ++ "' already defined")
      else .ok { ctx with labelScopes := (labels ++ [(name, names)]) :: outer }

def closeScope : Except String Ctx :=
  match ctx.labelScopes with
  | [] => .ok ctx
  | labels :: outer =>
      (bindGotos ctx.labelScopes.length labels ctx.gotos).map fun gotos =>
        { ctx with gotos, labelScopes := outer }

def checkGotos : Except String Unit :=
  ctx.gotos.forM fun g =>
    match ctx.findLabel g.label with
    | none => .error ("no visible label '" ++ g.label ++ "' for goto")
    | some names => g.check names

end Ctx

mutual

def walkExpr : Expr → Except String Unit
  | .bin _ lhs rhs => (walkExpr lhs).bind fun _ => walkExpr rhs
  | .un _ operand => walkExpr operand
  | .index table key => (walkExpr table).bind fun _ => walkExpr key
  | .field table _ => walkExpr table
  | .call callee args _ => (walkExpr callee).bind fun _ => walkExprs args
  | .paren inner => walkExpr inner
  | .table fields => walkFields fields
  | .function fn => walkFunction fn.params fn
  | _ => .ok ()

def walkExprs : List Expr → Except String Unit
  | [] => .ok ()
  | e :: es => (walkExpr e).bind fun _ => walkExprs es

def walkFields : List Field → Except String Unit
  | [] => .ok ()
  | .positional value :: fields => (walkExpr value).bind fun _ => walkFields fields
  | .named _ value :: fields => (walkExpr value).bind fun _ => walkFields fields
  | .keyed key value :: fields =>
      (walkExpr key).bind fun _ => (walkExpr value).bind fun _ => walkFields fields

def walkFunction (locals : List Name) : Function → Except String Unit
  | .mk _ _ body => (walkBlock body true true { locals }).bind Ctx.checkGotos

def walkStmt : Stmt → Ctx → Except String Ctx
  | .break, ctx => if ctx.loopDepth = 0 then .error "break outside loop" else .ok ctx
  | .goto label, ctx => .ok (ctx.pushGoto label)
  | .label _, ctx => .ok ctx
  | .while cond body, ctx =>
      (walkExpr cond).bind fun _ =>
        (walkBlock body true true ctx.enterLoop).map Ctx.leaveLoop
  | .repeat body cond, ctx =>
      -- The locals of the body are visible in the condition.
      (walkBlock body false false ctx.enterLoop).bind fun (inner : Ctx) =>
        (walkExpr cond).map fun _ => ctx.leaveLoopOf inner
  | .forNum name start limit step body, ctx =>
      (walkExpr start).bind fun _ => (walkExpr limit).bind fun _ =>
        (match step with
          | some step => walkExpr step
          | none => .ok ()).bind fun _ =>
          (walkBlock body true true (ctx.enterLoop.pushLocals [name])).map
            ctx.leaveLoopOf
  | .forIn names iters body, ctx =>
      (walkExprs iters).bind fun _ =>
        (walkBlock body true true (ctx.enterLoop.pushLocals names)).map ctx.leaveLoopOf
  | .ifs branches elseBody, ctx =>
      (walkBranches branches ctx).bind fun ctx =>
        match elseBody with
        | some body => walkBlock body true true ctx
        | none => .ok ctx
  | .localDecl names values, ctx => (walkExprs values).map fun _ => ctx.pushLocals names
  | .assign vars values, ctx =>
      (walkExprs vars).bind fun _ => (walkExprs values).map fun _ => ctx
  | .return values, ctx => (walkExprs values).map fun _ => ctx
  | .callStmt call, ctx => (walkExpr call).map fun _ => ctx
  | .localFunction name fn, ctx =>
      (walkFunction [] fn).map fun _ => ctx.pushLocals [name]
  | .functionDecl _ _ fn, ctx => (walkFunction [] fn).map fun _ => ctx
  | .doBlock body, ctx => walkBlock body true true ctx

def walkBranches : List Branch → Ctx → Except String Ctx
  | [], ctx => .ok ctx
  | .mk cond body :: branches, ctx =>
      (walkExpr cond).bind fun _ =>
        (walkBlock body true true ctx).bind (walkBranches branches)

def walkStmts (allowLastLabel : Bool) (before : Nat) :
    List Stmt → Ctx → Except String Ctx
  | [], ctx => .ok ctx
  | .label name :: stmts, ctx =>
      -- A label that only labels follow is outside the locals of the block.
      let last := allowLastLabel && stmts.all Stmt.isLabel
      let names := if last then ctx.locals.take before else ctx.locals
      (ctx.defineLabel name names).bind (walkStmts allowLastLabel before stmts)
  | s :: stmts, ctx => (walkStmt s ctx).bind (walkStmts allowLastLabel before stmts)

def walkBlock : Block → (allowLastLabel popLocals : Bool) → Ctx → Except String Ctx
  | .mk stmts, allowLastLabel, popLocals, ctx =>
      (walkStmts allowLastLabel ctx.locals.length stmts ctx.openScope).bind fun inner =>
        inner.closeScope.map fun inner =>
          if popLocals then inner.resizeLocals ctx.locals.length else inner

end

/-- `sema_analyze` of the body of a chunk. -/
def semaAnalyze (chunk : Block) : Except String Unit :=
  walkFunction [] (.mk [] true chunk)

end Luatier
