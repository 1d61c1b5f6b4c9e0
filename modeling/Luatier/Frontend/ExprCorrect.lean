import Luatier.Frontend.TableMeaning

/-!
# The code of every expression

All forms but functions, by induction on the expression.
-/

namespace Luatier.Lowering

open Realising

variable {α V σ ε X Y Z : Type}

/-! ## Expressions whose registers do not clash -/

def isLocal (names : List Name) : Expr → Bool
  | .name name => names.contains name
  | .paren inner => isLocal names inner
  | _ => false

/-- A unary operator leaves its result above the register that is free next. -/
def loose (names : List Name) : Expr → Bool
  | .un op operand => (literal? (.un op operand)).isNone && !isLocal names operand
  | .paren inner => loose names inner
  | _ => false

mutual

/--
No loose value has to wait for another one, no constructor is long, no key is
computed in a constructor, and there is no function.
-/
def exprTidy (names : List Name) : Expr → Bool
  | .index table key => exprTidy names table && !loose names table && exprTidy names key
  | .field table _ => exprTidy names table && !loose names table
  | .bin op lhs rhs =>
      exprTidy names lhs && exprTidy names rhs && (op == .and || op == .or || !loose names lhs)
  | .un _ operand => exprTidy names operand
  | .call callee args _ => exprTidy names callee && exprsTidy names args
  | .paren inner => exprTidy names inner
  | .table fields =>
      fieldsTidy names fields && expandsLast fields &&
        decide (fields.countP Field.isPositional < 50)
  | .function _ => false
  | _ => true

def exprsTidy (names : List Name) : List Expr → Bool
  | [] => true
  | e :: es => exprTidy names e && exprsTidy names es

def fieldsTidy (names : List Name) : List Field → Bool
  | [] => true
  | .positional value :: fields => exprTidy names value && fieldsTidy names fields
  | .named _ value :: fields => exprTidy names value && fieldsTidy names fields
  | .keyed _ _ :: _ => false

end

section Correct

variable {P : Primitives V σ ε} {ρ : Env V} {names : List Name}

structure Sound (α : Type) (P : Primitives V σ ε) (ρ : Env V) (names : List Name)
    (e : Expr) : Prop where
  value : Computes (α := α) P ρ names (loose names e) (expr e) (evalExpr P ρ e)
  call : ∀ callee args method, e = .call callee args method →
    Calls (α := α) P ρ names (expr e)
      (evalOperands P (evalExpr P ρ callee) (evalArgs P ρ args) method)

theorem Sound.correct {e : Expr} (h : Sound α P ρ names e) : Correct α P ρ names e :=
  ⟨h.value.loosen, h.call⟩

theorem Sound.tight {e : Expr} (h : Sound α P ρ names e) (hloose : loose names e = false) :
    Computes (α := α) P ρ names false (expr e) (evalExpr P ρ e) :=
  hloose ▸ h.value

theorem Sound.of_value {e : Expr} (hcall : e.isCall = false)
    (h : Computes (α := α) P ρ names (loose names e) (expr e) (evalExpr P ρ e)) :
    Sound α P ρ names e := by
  refine ⟨h, ?_⟩
  rintro callee args method rfl
  cases hcall

theorem isLocal_ok : ∀ (e : Expr), isLocal names e = true → ∀ (s : LowerState α), Ready s →
    s.fs.locals.map Local.name = names →
    Ensures (expr e) s fun d t => ∃ reg, d = .local reg ∧ reg < t.fs.nactvar
  | .name name, h, s, hready, hnames => by
      have hmem : ∃ l ∈ s.fs.locals.reverse, (l.name == name) = true := by
        rw [isLocal, List.contains_iff_mem, ← hnames] at h
        obtain ⟨l, hl, rfl⟩ := List.mem_map.mp h
        exact ⟨l, List.mem_reverse.mpr hl, beq_self_eq_true _⟩
      obtain ⟨l, hl⟩ := Option.isSome_iff_exists.mp (List.find?_isSome.mpr hmem)
      have hlocal : s.fs.findLocal name = some l.reg := by
        rw [FuncState.findLocal, hl]
        rfl
      rw [expr, ensures_local hlocal]
      exact ⟨l.reg, rfl, findLocal_lt hready hlocal⟩
  | .paren inner, h, s, hready, hnames => by
      rw [expr, lowerParen, ensures_bind]
      refine (isLocal_ok inner h s hready hnames).mono ?_
      rintro _ t ⟨reg, rfl, hlt⟩
      exact ensures_pure.mpr ⟨reg, rfl, hlt⟩

theorem Computes.of_constant {k : Const} {ev : Eval V σ ε V} {loose loose' : Bool}
    (h : Computes (α := α) P ρ names loose (pure (.constant k)) ev) :
    Computes (α := α) P ρ names loose' (pure (.constant k)) ev := by
  intro s hready hnames
  have hd := ensures_pure.mp (h s hready hnames)
  exact ensures_pure.mpr ⟨hd.grown, hd.free, hd.inRange, trivial, hd.leads⟩

theorem sound_un {op : UnOp} {operand : Expr} (h : Sound α P ρ names operand) :
    Computes (α := α) P ρ names (loose names (.un op operand)) (expr (.un op operand))
      (evalExpr P ρ operand >>= evalUn P op) := by
  have hloose : Computes (α := α) P ρ names true (expr (.un op operand))
      (evalExpr P ρ operand >>= evalUn P op) := by
    rw [expr]
    exact computes_un op h.value fun hfalse => Bool.noConfusion hfalse
  cases hk : literal? (.un op operand) with
  | some k =>
      rw [expr_of_literal _ k hk] at hloose ⊢
      exact hloose.of_constant
  | none =>
      cases hlocal : isLocal names operand with
      | true =>
          rw [expr]
          exact computes_un op h.value fun _ => isLocal_ok operand hlocal
      | false =>
          have htrue : loose names (.un op operand) = true := by
            rw [loose, hk, hlocal]
            rfl
          rw [htrue]
          exact hloose

def TestsRight (α : Type) (P : Primitives V σ ε) (ρ : Env V) (names : List Name)
    (rel : BinOp × Lower α Expdesc × Lower α Expdesc) (ev : Eval V σ ε Bool) : Prop :=
  ∀ s, Ready s → s.fs.locals.map Local.name = names →
    Ensures (relFailJmp s.fs.freereg rel.1 rel.2.1 rel.2.2) s fun j t =>
      t.fs.freereg = s.fs.freereg ∧ Jumping P ρ true s ev j t

theorem sound_relAnd {lhs rhs : Expr} {left right : BinOp × Lower α Expdesc × Lower α Expdesc}
    {evl evr : Eval V σ ε Bool} (hl : relOperands lhs = some left)
    (hr : relOperands rhs = some right) (htestl : TestsRight α P ρ names left evl)
    (htestr : TestsRight α P ρ names right evr)
    (hevl : evalExpr P ρ lhs = evl >>= fun b => pure (P.const (.bool b)))
    (hevr : evalExpr P ρ rhs = evr >>= fun b => pure (P.const (.bool b))) :
    Computes (α := α) P ρ names false (expr (.bin .and lhs rhs))
      (evalExpr P ρ (.bin .and lhs rhs)) := by
  have hev : evalExpr P ρ (.bin .and lhs rhs) = evl >>= fun b =>
      if b then evr >>= fun b => pure (P.const (.bool b)) else pure (P.const (.bool false)) := by
    rw [evalExpr, hevl, hevr, bind_assoc]
    congr 1
    funext b
    rw [pure_bind, P.isTruthy_bool]
    cases b <;> rfl
  rw [hev, expr_and_rel hl hr]
  exact computes_relAnd htestl htestr

section Compare

variable {op : BinOp} {cmp : OpCode} {a : Nat} {swap : Bool} {lhs rhs : Expr}

theorem expr_compare (h : relation op = some (cmp, a, swap)) :
    (expr (.bin op lhs rhs) : Lower α Expdesc) =
      lowerCompare cmp a swap (expr lhs) (expr rhs) := by
  cases op <;> cases h <;> rfl

theorem evalExpr_compare (h : relation op = some (cmp, a, swap)) :
    evalExpr P ρ (.bin op lhs rhs) = evalExpr P ρ lhs >>= fun v => evalExpr P ρ rhs >>= fun w =>
      evalCompare P cmp (a != 0) swap v w := by
  cases op <;> cases h <;> rfl

theorem tight_of_relation (h : relation op = some (cmp, a, swap))
    (hop : (op == .and || op == .or || !loose names lhs) = true) : loose names lhs = false := by
  cases op <;> cases h <;> simpa using hop

theorem sound_compare (h : relation op = some (cmp, a, swap))
    (hop : (op == .and || op == .or || !loose names lhs) = true) (hl : Sound α P ρ names lhs)
    (hr : Sound α P ρ names rhs) :
    Computes (α := α) P ρ names false (expr (.bin op lhs rhs))
      (evalExpr P ρ (.bin op lhs rhs)) := by
  rw [expr_compare h, evalExpr_compare h]
  exact computes_compare h (hl.tight (tight_of_relation h hop)) hr.value

end Compare

theorem sound_logic {isAnd : Bool} {lhs rhs : Expr} (hl : Sound α P ρ names lhs)
    (hr : Sound α P ρ names rhs) :
    Computes (α := α) P ρ names false (lowerLogic isAnd (expr lhs) (expr rhs))
      (evalExpr P ρ lhs >>= fun v =>
        if P.isTruthy v = isAnd then evalExpr P ρ rhs else pure v) :=
  computes_logic isAnd hl.value hr.value

mutual

theorem expr_correct : ∀ e : Expr, exprTidy names e = true → Sound α P ρ names e
  | .nil, _ => .of_value rfl (computes_constant _)
  | .bool _, _ => .of_value rfl (computes_constant _)
  | .int _, _ => .of_value rfl (computes_constant _)
  | .float _, _ => .of_value rfl (computes_constant _)
  | .string _, _ => .of_value rfl (computes_constant _)
  | .vararg, _ => .of_value rfl computes_vararg
  | .name name, _ => .of_value rfl (computes_name name)
  | .index table key, h => by
      obtain ⟨h, hkey⟩ := wf_and h
      obtain ⟨htable, hloose⟩ := wf_and h
      have htight : loose names table = false := by simpa using hloose
      have ht := (expr_correct table htable).tight htight
      refine .of_value rfl ?_
      rw [expr, evalExpr]
      cases hk : literal? key with
      | some k =>
          simp only [pure_bind]
          rw [expr_of_literal key k hk]
          simpa only [bind_assoc, pure_bind] using (slots_index_constant ht k).computes
      | none =>
          have hslots := slots_index ht (expr_correct key hkey).value (NotConstant.expr key hk)
          simpa only [bind_assoc, pure_bind] using hslots.computes
  | .field table field, h => by
      obtain ⟨htable, hloose⟩ := wf_and h
      have htight : loose names table = false := by simpa using hloose
      refine .of_value rfl ?_
      rw [expr, evalExpr]
      have hslots := slots_field ((expr_correct table htable).tight htight) field
      simpa only [bind_assoc, pure_bind] using hslots.computes
  | .bin op lhs rhs, h => by
      obtain ⟨h, hop⟩ := wf_and h
      obtain ⟨hlhs, hrhs⟩ := wf_and h
      have hl := expr_correct lhs hlhs
      have hr := expr_correct rhs hrhs
      refine .of_value rfl ?_
      cases op with
      | and =>
          cases hrel : relOperands (α := α) lhs with
          | none =>
              rw [expr_and_logic (.inl hrel)]
              exact sound_logic hl hr
          | some left =>
              cases hrel' : relOperands (α := α) rhs with
              | none =>
                  rw [expr_and_logic (.inr hrel')]
                  exact sound_logic hl hr
              | some right =>
                  obtain ⟨evl, htestl, hevl⟩ := relOperands_correct lhs hlhs left hrel
                  obtain ⟨evr, htestr, hevr⟩ := relOperands_correct rhs hrhs right hrel'
                  exact sound_relAnd hrel hrel' htestl htestr hevl hevr
      | or =>
          have hev : evalExpr P ρ (.bin .or lhs rhs) = evalExpr P ρ lhs >>= fun v =>
              if P.isTruthy v = false then evalExpr P ρ rhs else pure v := by
            rw [evalExpr]
            congr 1
            funext v
            cases P.isTruthy v <;> rfl
          rw [hev]
          exact sound_logic hl hr
      | concat =>
          have htight : loose names lhs = false := by simpa using hop
          exact computes_concat (hl.tight htight) hr.value
      | eq | ne | lt | gt | le | ge => exact sound_compare rfl hop hl hr
      | _ =>
          have htight : loose names lhs = false := by simpa using hop
          rw [expr_arith rfl]
          exact computes_arith rfl (hl.tight htight) hr.value
  | .un op operand, h => .of_value rfl (sound_un (expr_correct operand h))
  | .call callee args method, h => by
      obtain ⟨hcallee, hargs⟩ := wf_and h
      have hcalls := calls_ok method (expr_correct callee hcallee).correct
        fun e he => (exprs_correct args hargs e he).correct
      constructor
      · rw [expr, evalExpr]
        exact hcalls.computes
      · rintro _ _ _ ⟨⟩
        rw [expr]
        exact hcalls
  | .paren inner, h => by
      refine .of_value rfl ?_
      rw [expr, evalExpr]
      exact computes_paren (expr_correct inner h).value
  | .table fields, h => by
      obtain ⟨h, hcount⟩ := wf_and h
      obtain ⟨hfields, hlast⟩ := wf_and h
      refine .of_value rfl ?_
      rw [expr]
      exact computes_table (fields_correct fields hfields) hlast (of_decide_eq_true hcount)

theorem relOperands_correct : ∀ e : Expr, exprTidy names e = true → ∀ left,
    relOperands (α := α) e = some left → ∃ ev, TestsRight α P ρ names left ev ∧
      evalExpr P ρ e = ev >>= fun b => pure (P.const (.bool b))
  | .bin op lhs rhs, h, left, hleft => by
      obtain ⟨h, hop⟩ := wf_and h
      obtain ⟨hlhs, hrhs⟩ := wf_and h
      have hl := expr_correct lhs hlhs
      have hr := expr_correct rhs hrhs
      rw [relOperands] at hleft
      split at hleft
      · rename_i hrel
        cases hleft
        obtain ⟨⟨cmp, a, swap⟩, hrel⟩ := Option.isSome_iff_exists.mp hrel
        refine ⟨_, fun s hready hnames => relFailJmp_ok hrel
          (hl.tight (tight_of_relation hrel hop)) hr.value hready hnames, ?_⟩
        rw [evalExpr_compare hrel]
        simp only [bind_assoc]
        rfl
      · cases hleft

theorem exprs_correct : ∀ es : List Expr, exprsTidy names es = true → ∀ e ∈ es,
    Sound α P ρ names e
  | [], _, e, he => by cases he
  | e :: es, h, e', he' => by
      obtain ⟨he, hes⟩ := wf_and h
      rcases List.mem_cons.mp he' with heq | he'
      · rw [heq]
        exact expr_correct e he
      · exact exprs_correct es hes e' he'

theorem fields_correct : ∀ fields : List Field, fieldsTidy names fields = true →
    ∀ field ∈ fields, CorrectField α P ρ names field
  | [], _, field, hfield => by cases hfield
  | .positional value :: fields, h, field, hfield => by
      obtain ⟨hvalue, hfields⟩ := wf_and h
      rcases List.mem_cons.mp hfield with rfl | hfield
      · exact (expr_correct value hvalue).correct
      · exact fields_correct fields hfields field hfield
  | .named name value :: fields, h, field, hfield => by
      obtain ⟨hvalue, hfields⟩ := wf_and h
      rcases List.mem_cons.mp hfield with rfl | hfield
      · exact (expr_correct value hvalue).correct
      · exact fields_correct fields hfields field hfield

end

end Correct

/-! ## An instance -/

def constantValues : Primitives Const Unit String where
  const := id
  isNil k := k == .nil
  isTruthy k := k != .nil && k != .bool false
  arith op v w :=
    match op, v, w with
    | .add, .int m, .int n => pure (.int (m + n))
    | .sub, .int m, .int n => pure (.int (m - n))
    | .mul, .int m, .int n => pure (.int (m * n))
    | _, _, _ => throw "attempt to perform arithmetic"
  unary op v :=
    match op, v with
    | .unm, .int n => pure (.int (-n))
    | .unm, .float w => pure (.float (negate w))
    | _, _ => throw "attempt to perform arithmetic"
  concat v w :=
    match v, w with
    | .string a, .string b => pure (.string (a ++ b))
    | _, _ => throw "attempt to concatenate"
  compare op v w :=
    match op, v, w with
    | .eq, v, w => pure (v == w)
    | .lt, .int m, .int n => pure (decide (m < n))
    | .le, .int m, .int n => pure (decide (m ≤ n))
    | _, _, _ => throw "attempt to compare"
  index _ _ := throw "attempt to index"
  newindex _ _ _ := throw "attempt to index"
  newTable := throw "not enough memory"
  setList _ _ _ := throw "attempt to index"
  call _ _ _ := throw "attempt to call"
  forPrep init limit step :=
    match init, limit, step with
    | .int m, .int _, .int k => pure (.int (m - k), limit, step)
    | _, _, _ => throw "'for' initial value must be a number"
  forLoop idx limit step :=
    match idx, limit, step with
    | .int m, .int n, .int k => if m + k ≤ n then some (.int (m + k)) else none
    | _, _, _ => none
  garbage _ _ := .nil
  isTruthy_bool b := by cases b <;> rfl
  neg_int _ := rfl
  neg_float _ := rfl

section Instance

def oneLocal : LowerState Unit where
  fs := {
    upvalues := [⟨"_ENV", false, 0⟩]
    locals := [⟨"x", 0, false⟩]
    nactvar := 1
    freereg := 1
    maxstack := 1 }
  prev := []

def oneLocalSum : LowerState Unit :=
  { oneLocal with fs := (((oneLocal.fs.reserved 1).emit (encodeAsbx .loadInt 1 2)).emit
      (encodeAbc .add 1 0 1)).setFreereg 2 }

def oneLocalStart : Config Const Unit := ⟨0, fun _ => .int 40, 0, fun _ => .nil, ()⟩

def oneLocalScope : Env Const := ⟨[("x", .int 40)], .nil, []⟩

end Instance

end Luatier.Lowering
