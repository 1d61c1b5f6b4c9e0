import Luatier.Frontend.Parser

/-!
# Printing expressions with the fewest parentheses

`Term` holds the expressions over operators, constants, names, calls and indices.
`print` follows the table of precedence: an operand stands in parentheses only when
its own level is below the one its place asks for.
-/

namespace Luatier

open Binary64

/-! ## The table of precedence -/

def BinOp.level : BinOp → Nat
  | .or => 1
  | .and => 2
  | .eq | .ne | .lt | .le | .gt | .ge => 3
  | .bor => 4
  | .bxor => 5
  | .band => 6
  | .shl | .shr => 7
  | .concat => 8
  | .add | .sub => 9
  | .mul | .div | .idiv | .mod => 10
  | .pow => 12

def BinOp.lhsLevel : BinOp → Nat
  | .concat => 9
  | .pow => 13
  | op => op.level

/-- `..` and `^` are right associative, and a unary operator may follow `^`. -/
def BinOp.rhsLevel : BinOp → Nat
  | .concat => 8
  | .pow => 11
  | op => op.level + 1

def BinOp.token : BinOp → Token
  | .add => .plus
  | .sub => .minus
  | .mul => .star
  | .div => .slash
  | .idiv => .slashSlash
  | .mod => .percent
  | .pow => .caret
  | .concat => .dotDot
  | .band => .amp
  | .bor => .pipe
  | .bxor => .tilde
  | .shl => .ltLt
  | .shr => .gtGt
  | .eq => .eqEq
  | .ne => .tildeEq
  | .lt => .lt
  | .le => .ltEq
  | .gt => .gt
  | .ge => .gtEq
  | .and => .kwAnd
  | .or => .kwOr

def UnOp.token : UnOp → Token
  | .neg => .minus
  | .not => .kwNot
  | .len => .hash
  | .bnot => .tilde

/-! ## The expressions that are printed -/

inductive Term where
  | nil
  | bool (value : Bool)
  | int (value : Int64)
  | float (value : Word)
  | string (value : String)
  | name (name : Name)
  | index (table key : Term)
  | field (table : Term) (field : Name)
  | bin (op : BinOp) (lhs rhs : Term)
  | un (op : UnOp) (operand : Term)
  | call (callee : Term) (args : List Term) (method : Option Name)

namespace Term

/-- Constants stand at 13; only what stands at 14 takes an index or a call. -/
def level : Term → Nat
  | .bin op _ _ => op.level
  | .un _ _ => 11
  | .name _ | .index _ _ | .field _ _ | .call _ _ _ => 14
  | _ => 13

mutual

def toExpr : Term → Expr
  | .nil => .nil
  | .bool value => .bool value
  | .int value => .int value
  | .float value => .float value
  | .string value => .string value
  | .name n => .name n
  | .index base key => .index base.toExpr key.toExpr
  | .field base f => .field base.toExpr f
  | .bin op lhs rhs => .bin op lhs.toExpr rhs.toExpr
  | .un op operand => .un op operand.toExpr
  | .call callee args method => .call callee.toExpr (toExprs args) method

def toExprs : List Term → List Expr
  | [] => []
  | t :: ts => t.toExpr :: toExprs ts

end

def parenthesised (below : Bool) (ts : List Token) : List Token :=
  if below then .lParen :: ts ++ [.rParen] else ts

def methodTokens : Option Name → List Token
  | none => []
  | some method => [.colon, .identifier method]

mutual

def print : Term → List Token
  | .nil => [.kwNil]
  | .bool true => [.kwTrue]
  | .bool false => [.kwFalse]
  | .int value => [.integer value]
  | .float value => [.number value]
  | .string value => [.string value]
  | .name n => [.identifier n]
  | .index base key =>
      parenthesised (base.level < 14) base.print ++
        .lBracket :: (key.print ++ [.rBracket])
  | .field base f =>
      parenthesised (base.level < 14) base.print ++ [.dot, .identifier f]
  | .bin op lhs rhs =>
      parenthesised (lhs.level < op.lhsLevel) lhs.print ++
        op.token :: parenthesised (rhs.level < op.rhsLevel) rhs.print
  | .un op operand => op.token :: parenthesised (operand.level < 11) operand.print
  | .call callee args method =>
      parenthesised (callee.level < 14) callee.print ++
        (methodTokens method ++ .lParen :: (printArgs args ++ [.rParen]))

def printArgs : List Term → List Token
  | [] => []
  | t :: ts => t.print ++ printMore ts

def printMore : List Term → List Token
  | [] => []
  | t :: ts => .comma :: (t.print ++ printMore ts)

end

def printAt (k : Nat) (t : Term) : List Token := parenthesised (t.level < k) t.print

/-! ## Nesting -/

def deeper (below : Bool) (n : Nat) : Nat := if below then n + 1 else n

mutual

/-- The levels entered inside the expression: one for each parenthesis, index,
argument and unary operator, and for the right operand of `..` and of `^`. -/
def depth : Term → Nat
  | .index base key => max (deeper (base.level < 14) base.depth) (key.depth + 1)
  | .field base _ => deeper (base.level < 14) base.depth
  | .bin op lhs rhs =>
      max (deeper (lhs.level < op.lhsLevel) lhs.depth)
        (deeper (op = .concat ∨ op = .pow)
          (deeper (rhs.level < op.rhsLevel) rhs.depth))
  | .un _ operand => deeper (operand.level < 11) operand.depth + 1
  | .call callee args _ =>
      max (deeper (callee.level < 14) callee.depth) (depthArgs args)
  | _ => 0

def depthArgs : List Term → Nat
  | [] => 0
  | t :: ts => max (t.depth + 1) (depthArgs ts)

end

def nesting (t : Term) : Nat := t.depth + 1

/-! ## What is read back -/

def withParen (below : Bool) (e : Expr) : Expr := if below then .paren e else e

mutual

def parsed : Term → Expr
  | .index base key => .index (withParen (base.level < 14) base.parsed) key.parsed
  | .field base f => .field (withParen (base.level < 14) base.parsed) f
  | .bin op lhs rhs =>
      .bin op (withParen (lhs.level < op.lhsLevel) lhs.parsed)
        (withParen (rhs.level < op.rhsLevel) rhs.parsed)
  | .un op operand => .un op (withParen (operand.level < 11) operand.parsed)
  | .call callee args method =>
      .call (withParen (callee.level < 14) callee.parsed) (parsedArgs args) method
  | .nil => .nil
  | .bool value => .bool value
  | .int value => .int value
  | .float value => .float value
  | .string value => .string value
  | .name n => .name n

def parsedArgs : List Term → List Expr
  | [] => []
  | t :: ts => t.parsed :: parsedArgs ts

end

end Term

namespace Expr

mutual

/-- The tree without its parenthesis nodes; the body of a function keeps its own. -/
def eraseParens : Expr → Expr
  | .paren inner => inner.eraseParens
  | .index base key => .index base.eraseParens key.eraseParens
  | .field base f => .field base.eraseParens f
  | .bin op lhs rhs => .bin op lhs.eraseParens rhs.eraseParens
  | .un op operand => .un op operand.eraseParens
  | .call callee args method => .call callee.eraseParens (eraseAll args) method
  | .table fields => .table (eraseFields fields)
  | e => e

def eraseAll : List Expr → List Expr
  | [] => []
  | e :: es => e.eraseParens :: eraseAll es

def eraseFields : List Field → List Field
  | [] => []
  | .positional value :: fields => .positional value.eraseParens :: eraseFields fields
  | .named n value :: fields => .named n value.eraseParens :: eraseFields fields
  | .keyed key value :: fields =>
      .keyed key.eraseParens value.eraseParens :: eraseFields fields

end

end Expr

namespace Term

@[simp] theorem eraseParens_withParen (below : Bool) (e : Expr) :
    (withParen below e).eraseParens = e.eraseParens := by
  cases below <;> simp [withParen, Expr.eraseParens]

mutual

theorem eraseParens_parsed : ∀ t : Term, t.parsed.eraseParens = t.toExpr
  | .nil | .bool _ | .int _ | .float _ | .string _ | .name _ => by
      simp [parsed, toExpr, Expr.eraseParens]
  | .index base key => by
      simp [parsed, toExpr, Expr.eraseParens, eraseParens_parsed base,
        eraseParens_parsed key]
  | .field base _ => by
      simp [parsed, toExpr, Expr.eraseParens, eraseParens_parsed base]
  | .bin _ lhs rhs => by
      simp [parsed, toExpr, Expr.eraseParens, eraseParens_parsed lhs,
        eraseParens_parsed rhs]
  | .un _ operand => by
      simp [parsed, toExpr, Expr.eraseParens, eraseParens_parsed operand]
  | .call callee args _ => by
      simp [parsed, toExpr, Expr.eraseParens, eraseParens_parsed callee,
        eraseAll_parsedArgs args]

theorem eraseAll_parsedArgs :
    ∀ ts : List Term, Expr.eraseAll (parsedArgs ts) = toExprs ts
  | [] => by simp [parsedArgs, toExprs, Expr.eraseAll]
  | t :: ts => by
      simp [parsedArgs, toExprs, Expr.eraseAll, eraseParens_parsed t,
        eraseAll_parsedArgs ts]

end

end Term

end Luatier
