import Luatier.Frontend.Ast

/-!
# Legal gotos

A local is known by the place of its declaration, so that a second declaration
of a name is another local.  A goto may jump to a label of its own block or of a
block around it, if every local in scope at the label is in scope at the goto.
-/

namespace Luatier

/-- The place of a statement in a function: positions from the inside out. -/
abbrev Site := List Nat

structure Decl where
  name : Name
  site : Site
  deriving DecidableEq, Repr

abbrev Scope := List Decl

abbrev BlockLabels := List (Name × Scope)

def declare (site : Site) (names : List Name) : Scope :=
  names.zipIdx.map fun (name, i) => ⟨name, i :: site⟩

def Scope.names (scope : Scope) : List Name := scope.map Decl.name

@[simp] theorem names_declare (site : Site) (names : List Name) :
    (declare site names).names = names := by
  rw [Scope.names, declare, List.map_map]
  exact List.zipIdx_map_fst 0 names

@[simp] theorem Scope.names_append (s t : Scope) :
    Scope.names (s ++ t) = s.names ++ t.names := List.map_append

@[simp] theorem Scope.names_nil : Scope.names [] = [] := rfl

def Stmt.declares (site : Site) : Stmt → Scope
  | .localDecl names _ => declare site names
  | .localFunction name _ => declare site [name]
  | _ => []

/--
The labels among statements `i` and on.  A label that only labels follow is
outside the locals of its block, whose scope at entry is `entry`.
-/
def blockLabels (allowLast : Bool) (entry : Scope) (site : Site) :
    Nat → Scope → List Stmt → BlockLabels
  | _, _, [] => []
  | i, scope, .label name :: stmts =>
      (name, if allowLast && stmts.all Stmt.isLabel then entry else scope) ::
        blockLabels allowLast entry site (i + 1) scope stmts
  | i, scope, s :: stmts =>
      blockLabels allowLast entry site (i + 1) (scope ++ s.declares (i :: site)) stmts

/-! ## The rules of the language -/

/-- The label that a name stands for, in the innermost block that has one. -/
def visibleLabel (env : List BlockLabels) (name : Name) : Option Scope :=
  env.findSome? (·.lookup name)

def gotoLegal (label : Option Scope) (scope : Scope) : Bool :=
  label.any fun needed => needed.all scope.contains

mutual

/-- A statement among the labels of the blocks around it, the innermost first. -/
def Stmt.legal (env : List BlockLabels) (inLoop : Bool) (scope : Scope)
    (site : Site) : Stmt → Bool
  | .break => inLoop
  | .goto label => gotoLegal (visibleLabel env label) scope
  | .while _ body => body.legal true env true scope (0 :: site)
  | .repeat body _ => body.legal false env true scope (0 :: site)
  | .forNum name _ _ _ body =>
      body.legal true env true (scope ++ declare site [name]) (0 :: site)
  | .forIn names _ body =>
      body.legal true env true (scope ++ declare site names) (0 :: site)
  | .ifs branches none => branchesLegal env inLoop scope site 1 branches
  | .ifs branches (some body) =>
      branchesLegal env inLoop scope site 1 branches &&
        body.legal true env inLoop scope (0 :: site)
  | .doBlock body => body.legal true env inLoop scope (0 :: site)
  | _ => true

def branchesLegal (env : List BlockLabels) (inLoop : Bool) (scope : Scope)
    (site : Site) : Nat → List Branch → Bool
  | _, [] => true
  | i, .mk _ body :: branches =>
      body.legal true env inLoop scope (i :: site) &&
        branchesLegal env inLoop scope site (i + 1) branches

def stmtsLegal (env : List BlockLabels) (inLoop : Bool) (site : Site) :
    Nat → Scope → List Stmt → Bool
  | _, _, [] => true
  | i, scope, s :: stmts =>
      s.legal env inLoop scope (i :: site) &&
        stmtsLegal env inLoop site (i + 1) (scope ++ s.declares (i :: site)) stmts

/-- No label twice in the block, and its labels are visible in all of it. -/
def Block.legal (allowLast : Bool) (env : List BlockLabels) (inLoop : Bool)
    (scope : Scope) (site : Site) : Block → Bool
  | .mk stmts =>
      let labels := blockLabels allowLast scope site 0 scope stmts
      decide (labels.map Prod.fst).Nodup &&
        stmtsLegal (labels :: env) inLoop site 0 scope stmts

end

/-- Parameters are in scope at every goto and at every label, and are left out. -/
def Function.legal (fn : Function) : Bool := fn.body.legal true [] false [] []

/-! ## All functions of a chunk -/

/-- A function that the analysis walks, starting with some of its parameters. -/
structure Walked where
  locals : List Name
  fn : Function

mutual

def Expr.functions : Expr → List Walked
  | .bin _ lhs rhs => lhs.functions ++ rhs.functions
  | .un _ operand => operand.functions
  | .index table key => table.functions ++ key.functions
  | .field table _ => table.functions
  | .call callee args _ => callee.functions ++ exprsFunctions args
  | .paren inner => inner.functions
  | .table fields => fieldsFunctions fields
  | .function fn => ⟨fn.params, fn⟩ :: fn.functions
  | _ => []

def exprsFunctions : List Expr → List Walked
  | [] => []
  | e :: es => e.functions ++ exprsFunctions es

def fieldsFunctions : List Field → List Walked
  | [] => []
  | .positional value :: fields => value.functions ++ fieldsFunctions fields
  | .named _ value :: fields => value.functions ++ fieldsFunctions fields
  | .keyed key value :: fields =>
      key.functions ++ value.functions ++ fieldsFunctions fields

def Function.functions : Function → List Walked
  | .mk _ _ body => body.functions

def Stmt.functions : Stmt → List Walked
  | .while cond body => cond.functions ++ body.functions
  | .repeat body cond => body.functions ++ cond.functions
  | .forNum _ start limit none body =>
      start.functions ++ limit.functions ++ body.functions
  | .forNum _ start limit (some step) body =>
      start.functions ++ limit.functions ++ step.functions ++ body.functions
  | .forIn _ iters body => exprsFunctions iters ++ body.functions
  | .ifs branches none => branchesFunctions branches
  | .ifs branches (some body) => branchesFunctions branches ++ body.functions
  | .localDecl _ values => exprsFunctions values
  | .assign vars values => exprsFunctions vars ++ exprsFunctions values
  | .return values => exprsFunctions values
  | .callStmt call => call.functions
  | .localFunction _ fn => ⟨[], fn⟩ :: fn.functions
  | .functionDecl _ _ fn => ⟨[], fn⟩ :: fn.functions
  | .doBlock body => body.functions
  | _ => []

def branchesFunctions : List Branch → List Walked
  | [] => []
  | .mk cond body :: branches =>
      cond.functions ++ body.functions ++ branchesFunctions branches

def stmtsFunctions : List Stmt → List Walked
  | [] => []
  | s :: stmts => s.functions ++ stmtsFunctions stmts

def Block.functions : Block → List Walked
  | .mk stmts => stmtsFunctions stmts

end

def chunkFunctions (chunk : Block) : List Walked :=
  ⟨[], .mk [] true chunk⟩ :: chunk.functions

def chunkLegal (chunk : Block) : Bool :=
  (chunkFunctions chunk).all fun w => w.fn.legal

end Luatier
