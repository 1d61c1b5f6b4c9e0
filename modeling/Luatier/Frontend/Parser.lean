import Luatier.Frontend.Ast
import Luatier.Lib.TokenParser

/-!
# The parser

Recursive descent over the tokens the lexer delivers.  Whatever the parser enters
through a `LevelGuard` is a member of `Guarded`, and `guarded n` holds these members
when `n` more levels may be entered.  Line numbers are left out, so an error is its
message and the token it is near.
-/

namespace Luatier

open Binary64

inductive Token where
  | identifier (text : Name)
  | number (number : Word)
  | integer (integer : Int64)
  | string (text : String)
  | char (text : String)
  | kwAnd | kwBreak | kwDo | kwElse | kwElseif | kwEnd | kwFalse | kwFor | kwFunction
  | kwGoto | kwIf | kwIn | kwLocal | kwNil | kwNot | kwOr | kwRepeat | kwReturn | kwThen
  | kwTrue | kwUntil | kwWhile
  | plus | minus | star | slash | percent | caret | hash | amp | tilde | pipe
  | ltLt | gtGt | slashSlash | eqEq | tildeEq | ltEq | gtEq | lt | gt | eq
  | lParen | rParen | lBrace | rBrace | lBracket | rBracket | colonColon
  | semi | colon | comma | dot | dotDot | dotDotDot
  deriving DecidableEq, Repr

inductive ParseError where
  | near (message : String) (token : Option Token)
  | tooManyLocals
  deriving DecidableEq, Repr

/-- No token stands for the end of the chunk; the state is `nactvar`. -/
abbrev Parser (α : Type) := TokenParser Token Nat ParseError α

namespace Parser

open TokenParser

variable {α : Type}

/-- `LUAI_MAXCCALLS` -/
def maxLevels : Nat := 200
/-- `MAXVARS` -/
def maxActvars : Nat := 200

/-! ## Tokens -/

def error (message : String) : Parser α := fail fun c => .near message c.tokens.head?

def errorAt (token : Token) (message : String) : Parser α :=
  fail fun _ => .near message (some token)

def check (k : Token) : Parser Bool := do
  return (← peek) = some k

def matchToken (k : Token) : Parser Bool := do
  if ← check k then
    let _ ← next
    return true
  else return false

def expect (k : Token) (message : String) : Parser Unit := do
  if ← check k then
    let _ ← next
  else error message

def expectName (message : String) : Parser Name := do
  match ← peek with
  | some (.identifier text) =>
      let _ ← next
      return text
  | _ => error message

section Tokens

variable {k t : Token} {ts : List Token} {nactvar : Nat} {message : String}

@[simp] theorem run_check (c : Cursor Token Nat) :
    run (check k) c = .ok (decide (c.tokens.head? = some k), c) :=
  rfl

@[simp] theorem run_expect :
    run (expect k message) ⟨k :: ts, nactvar⟩ = .ok ((), ⟨ts, nactvar⟩) := by
  simp [expect]

@[simp] theorem run_expectName {text : Name} :
    run (expectName message) ⟨.identifier text :: ts, nactvar⟩ =
      .ok (text, ⟨ts, nactvar⟩) := by
  simp [expectName]

end Tokens

/-- `while (match(k)) …` -/
def whileMatch (k : Token) (body : α → Parser α) : α → Parser α :=
  whileNext (fun _ t => if t = k then some () else none) fun a _ => body a

section WhileMatch

variable {k : Token} {body : α → Parser α} {a : α}

theorem run_whileMatch_stop {c : Cursor Token Nat} (h : c.tokens.head? ≠ some k) :
    run (whileMatch k body a) c = .ok (a, c) := by
  refine run_whileNext_stop fun t ht => if_neg ?_
  rintro rfl
  exact h ht

theorem run_whileMatch_step {ts : List Token} {nactvar : Nat} :
    run (whileMatch k body a) ⟨k :: ts, nactvar⟩ =
      (run (body a) ⟨ts, nactvar⟩ >>= fun r => run (whileMatch k body r.1) r.2) :=
  run_whileNext_step (g := ()) (if_pos rfl)

end WhileMatch

/-! ## Locals of the current function -/

def newLocalvar : Parser Unit := do
  let nactvar ← getOwn
  setOwn (nactvar + 1)
  if maxActvars < nactvar + 1 then fail fun _ => .tooManyLocals else return

def addName (names : List Name) : Parser (List Name) := do
  let name ← expectName "expected name"
  newLocalvar
  return names ++ [name]

/-! ## What takes a level -/

structure Guarded where
  /-- `parse_expr` -/
  expr : Parser Expr
  /-- the right operand of `..`, from the operator on -/
  concat : Parser Expr
  /-- the operand of a unary operator or of `^`, from the operator on -/
  unary : Parser Expr
  /-- `parse_stmt`, its first token taken -/
  stmt : Token → Parser Stmt

section Bodies

variable (g : Guarded)

def parseExprList : Parser (List Expr) := do
  whileMatch .comma (fun list => do return list ++ [← g.expr]) [← g.expr]

/-- `parse_block` and its `break` after a `return`. -/
def parseBlock : Parser Block := do
  let (stmts, _) ← whileNext (blockToken · ·) (stmtOfBlock · ·) ([], false)
  return .mk stmts
where
  blockToken (block : List Stmt × Bool) (t : Token) : Option Token :=
    if block.2 then none
    else match t with
      | .kwEnd | .kwElse | .kwElseif | .kwUntil => none
      | _ => some t
  stmtOfBlock (block : List Stmt × Bool) (first : Token) : Parser (List Stmt × Bool) := do
    if first = .semi then return block
    else
      let stmt ← g.stmt first
      let _ ← matchToken .semi
      return (block.1 ++ [stmt], first = .kwReturn)

def parseFunctionBody (isMethod : Bool) : Parser Function := do
  let nactvar ← getOwn
  setOwn 0
  let self ← if isMethod then do newLocalvar; pure ["self"] else pure []
  expect .lParen "expected '('"
  let (params, isVararg) ←
    if ← check .rParen then pure (self, false)
    else if ← matchToken .dotDotDot then pure (self, true)
    else do
      let params ← addName self
      whileNext moreParams (fun params _ => do
        if ← matchToken .dotDotDot then return (params.1, true)
        else return (← addName params.1, false)) (params, false)
  expect .rParen "expected ')'"
  let body ← parseBlock g
  expect .kwEnd "expected 'end'"
  setOwn nactvar
  return .mk params isVararg body
where
  moreParams (params : List Name × Bool) (t : Token) : Option Unit :=
    if t = .comma ∧ ¬params.2 then some () else none

def parseField : Parser Field := do
  if ← matchToken .lBracket then
    let key ← g.expr
    expect .rBracket "expected ']'"
    expect .eq "expected '='"
    return .keyed key (← g.expr)
  else
    match ← nameBeforeEq with
    | some name =>
        let _ ← next
        let _ ← next
        return .named name (← g.expr)
    | none => return .positional (← g.expr)
where
  nameBeforeEq : Parser (Option Name) := fun c =>
    .ok ⟨match c.tokens with
      | .identifier name :: .eq :: _ => some name
      | _ => none, c, Nat.le_refl _⟩

/-- `parse_table`, its `{` taken. -/
def parseTable : Parser Expr := do
  let fields ← moreFields []
  let fields ← whileNext separator (fun fields _ => moreFields fields) fields
  if ← check .rBrace then
    let _ ← next
    return .table fields
  else error "'\x7d' expected (to close '\x7b')"
where
  moreFields (fields : List Field) : Parser (List Field) := do
    match ← peek with
    | some .rBrace | none => return fields
    | _ => return fields ++ [← parseField g]
  separator (_ : List Field) (t : Token) : Option Unit :=
    if t = .comma ∨ t = .semi then some () else none

/-- `parse_primary`, its first token taken. -/
def parsePrimary : Token → Parser Expr
  | .kwNil => return .nil
  | .kwTrue => return .bool true
  | .kwFalse => return .bool false
  | .integer integer => return .int integer
  | .number number => return .float number
  | .string text => return .string text
  | .dotDotDot => return .vararg
  | .identifier text => return .name text
  | .lParen => do
      let e ← g.expr
      expect .rParen "expected ')'"
      return .paren e
  | .lBrace => parseTable g
  | .kwFunction => return .function (← parseFunctionBody g false)
  | first => errorAt first "unexpected symbol"

/-- The arguments of a call, its `(` taken. -/
def parseArgs : Parser (List Expr) := do
  let args ← if ← check .rParen then pure [] else parseExprList g
  expect .rParen "expected ')'"
  return args

def suffix? : Token → Option (Expr → Parser Expr)
  | .dot => some fun e => return .field e (← expectName "expected field")
  | .lBracket => some fun e => do
      let key ← g.expr
      expect .rBracket "expected ']'"
      return .index e key
  | .colon => some fun e => do
      let method ← expectName "expected method"
      match ← peek with
      | some .lParen =>
          let _ ← next
          return .call e (← parseArgs g) (some method)
      | some (.string text) =>
          let _ ← next
          return .call e [.string text] (some method)
      | some .lBrace =>
          let _ ← next
          return .call e [← parseTable g] (some method)
      | _ => error "expected method arguments"
  | .lParen => some fun e => return .call e (← parseArgs g) none
  | .string text => some fun e => return .call e [.string text] none
  | .lBrace => some fun e => return .call e [← parseTable g] none
  | _ => none

def parseSuffix : Expr → Parser Expr :=
  whileNext (fun _ t => suffix? g t) fun e add => add e

/-! ## The levels of precedence -/

def allowSuffix : Token → Bool
  | .identifier _ | .lParen | .dotDotDot => true
  | _ => false

/-- The operand of `^`: only a name, a parenthesis or `...` takes suffixes. -/
def parseSimple : Parser Expr := do
  match ← next with
  | none => fail fun _ => .near "unexpected symbol" none
  | some first =>
      let e ← parsePrimary g first
      if allowSuffix first then parseSuffix g e else return e

def parsePower : Parser Expr := do
  let e ← parseSimple g
  if ← check .caret then return .bin .pow e (← g.unary)
  else return e

def unop? : Token → Option UnOp
  | .kwNot => some .not
  | .hash => some .len
  | .minus => some .neg
  | .tilde => some .bnot
  | _ => none

def parseUnary : Parser Expr := do
  match (← peek).bind unop? with
  | some op => return .un op (← g.unary)
  | none => parsePower g

def mulOp? : Token → Option BinOp
  | .star => some .mul
  | .slash => some .div
  | .slashSlash => some .idiv
  | .percent => some .mod
  | _ => none

def parseMul : Parser Expr := leftLevel mulOp? .bin (parseUnary g)

def addOp? : Token → Option BinOp
  | .plus => some .add
  | .minus => some .sub
  | _ => none

def parseAdd : Parser Expr := leftLevel addOp? .bin (parseMul g)

def parseConcat : Parser Expr := do
  let e ← parseAdd g
  if ← check .dotDot then return .bin .concat e (← g.concat)
  else return e

def shiftOp? : Token → Option BinOp
  | .ltLt => some .shl
  | .gtGt => some .shr
  | _ => none

def parseShift : Parser Expr := leftLevel shiftOp? .bin (parseConcat g)

def bandOp? : Token → Option BinOp
  | .amp => some .band
  | _ => none

def parseBand : Parser Expr := leftLevel bandOp? .bin (parseShift g)

def bxorOp? : Token → Option BinOp
  | .tilde => some .bxor
  | _ => none

def parseBxor : Parser Expr := leftLevel bxorOp? .bin (parseBand g)

def borOp? : Token → Option BinOp
  | .pipe => some .bor
  | _ => none

def parseBor : Parser Expr := leftLevel borOp? .bin (parseBxor g)

def compareOp? : Token → Option BinOp
  | .eqEq => some .eq
  | .tildeEq => some .ne
  | .lt => some .lt
  | .ltEq => some .le
  | .gt => some .gt
  | .gtEq => some .ge
  | _ => none

def parseCompare : Parser Expr := leftLevel compareOp? .bin (parseBor g)

def andOp? : Token → Option BinOp
  | .kwAnd => some .and
  | _ => none

def parseAnd : Parser Expr := leftLevel andOp? .bin (parseCompare g)

def orOp? : Token → Option BinOp
  | .kwOr => some .or
  | _ => none

def parseOr : Parser Expr := leftLevel orOp? .bin (parseAnd g)

/-! ## Statements -/

def parseBranch : Parser Branch := do
  let cond ← g.expr
  expect .kwThen "expected 'then'"
  return .mk cond (← parseBlock g)

def parseIf : Parser Stmt := do
  let branches ← whileMatch .kwElseif
    (fun branches => do return branches ++ [← parseBranch g]) [← parseBranch g]
  let elseBody ← if ← matchToken .kwElse then some <$> parseBlock g else pure none
  expect .kwEnd "expected 'end'"
  return .ifs branches elseBody

def parseLoopBody : Parser Block := do
  expect .kwDo "expected 'do'"
  let body ← parseBlock g
  expect .kwEnd "expected 'end'"
  return body

def parseFor : Parser Stmt := do
  let name ← expectName "expected name"
  if ← matchToken .eq then
    let start ← g.expr
    expect .comma "expected ','"
    let limit ← g.expr
    let step ← if ← matchToken .comma then some <$> g.expr else pure none
    return .forNum name start limit step (← parseLoopBody g)
  else
    let names ← whileMatch .comma
      (fun names => do return names ++ [← expectName "expected name"]) [name]
    expect .kwIn "expected 'in'"
    let iters ← parseExprList g
    return .forIn names iters (← parseLoopBody g)

def parseReturn : Parser Stmt := do
  match ← peek with
  | none | some .kwEnd | some .kwElse | some .kwElseif | some .kwUntil | some .semi =>
      return .return []
  | _ => return .return (← parseExprList g)

def parseFunctionDecl : Parser Stmt := do
  let path ← whileMatch .dot
    (fun path => do return path ++ [← expectName "expected name"])
    [← expectName "expected name"]
  if ← matchToken .colon then
    let method ← expectName "expected method"
    return .functionDecl (path ++ [method]) true (← parseFunctionBody g true)
  else return .functionDecl path false (← parseFunctionBody g false)

def parseLocal : Parser Stmt := do
  if ← matchToken .kwFunction then
    let name ← expectName "expected name"
    newLocalvar
    return .localFunction name (← parseFunctionBody g false)
  else
    let names ← whileMatch .comma addName (← addName [])
    let values ← if ← matchToken .eq then parseExprList g else pure []
    return .localDecl names values

def parseTarget (first : Token) : Parser Expr :=
  match first with
  | .identifier _ | .lParen => do parseSuffix g (← parsePrimary g first)
  | _ => errorAt first "unexpected symbol"

def moreTargets (levels : Nat) (vars : List Expr) : Parser (List Expr) := do
  if levels < vars.length then error "too many C levels"
  else
    match ← next with
    | none => fail fun _ => .near "unexpected symbol" none
    | some first => return vars ++ [← parseTarget g first]

def parseExprStmt (levels : Nat) (first : Token) : Parser Stmt := do
  let e ← parseTarget g first
  match ← peek with
  | some .comma | some .eq =>
      let vars ← whileMatch .comma (moreTargets g levels) [e]
      expect .eq "expected '='"
      return .assign vars (← parseExprList g)
  | _ => if e.isCall then return .callStmt e else error "syntax error"

def parseStmt (levels : Nat) : Token → Parser Stmt
  | .kwIf => parseIf g
  | .kwWhile => do
      let cond ← g.expr
      return .while cond (← parseLoopBody g)
  | .kwRepeat => do
      let body ← parseBlock g
      expect .kwUntil "expected 'until'"
      return .repeat body (← g.expr)
  | .kwFor => parseFor g
  | .kwDo => do
      let body ← parseBlock g
      expect .kwEnd "expected 'end'"
      return .doBlock body
  | .kwBreak => return .break
  | .kwGoto => return .goto (← expectName "expected label")
  | .colonColon => do
      let name ← expectName "expected label"
      expect .colonColon "expected '::'"
      return .label name
  | .kwReturn => parseReturn g
  | .kwFunction => parseFunctionDecl g
  | .kwLocal => parseLocal g
  | first => parseExprStmt g levels first

end Bodies

def guarded : Nat → Guarded
  | 0 => {
      expr := error "too many C levels"
      concat := error "too many C levels"
      unary := error "too many C levels"
      stmt := fun first => errorAt first "too many C levels" }
  | n + 1 => {
      expr := parseOr (guarded n)
      concat := do
        let _ ← next
        parseConcat (guarded n)
      unary := do
        let _ ← next
        parseUnary (guarded n)
      stmt := parseStmt (guarded n) n }

def parseExpr (levels : Nat) : Parser Expr := (guarded levels).expr

def parseChunk : Parser Block := do
  let body ← parseBlock (guarded maxLevels)
  match ← peek with
  | none => return body
  | some _ => error "expected end of file"

def parse (tokens : List Token) : Except ParseError Block :=
  (run parseChunk ⟨tokens, 0⟩).map Prod.fst

end Parser

end Luatier
