import Luatier.Frontend.GotoSites
import Luatier.Frontend.Sema

/-!
# What scope analysis accepts

The walk over a function is a run over its gotos and its ends of blocks.  It
ends well if every goto passes the test against the first label of its name
that is not deeper than the goto.
-/

namespace Luatier

/-! ## The run over the events of a function -/

def Closing.labelNames (locals : List Name) (labels : BlockLabels) : LabelScope :=
  labels.map fun (name, scope) => (name, locals ++ scope.names)

def BlockEvent.run (locals : List Name) : BlockEvent → List PendingGoto → Option (List PendingGoto)
  | .goto label scope depth, gs => some (gs ++ [⟨label, locals ++ scope.names, depth⟩])
  | .close c, gs => (bindGotos c.depth (Closing.labelNames locals c.labels) gs).toOption

def runEvents (locals : List Name) : List BlockEvent → List PendingGoto →
    Option (List PendingGoto)
  | [], gs => some gs
  | e :: es, gs => (e.run locals gs).bind (runEvents locals es)

theorem runEvents_append (locals : List Name) (es fs : List BlockEvent)
    (gs : List PendingGoto) :
    runEvents locals (es ++ fs) gs =
      (runEvents locals es gs).bind (runEvents locals fs) := by
  induction es generalizing gs with
  | nil => rfl
  | cons e es ih =>
      rw [List.cons_append, runEvents, runEvents, Option.bind_assoc]
      exact congrArg _ (funext ih)

def Walked.accepted (w : Walked) : Bool :=
  w.fn.tidy && decide (runEvents w.locals (w.fn.body.events true 0 [] []) [] = some [])

/-! ## Outcomes

An error is an error whatever its text, and the tests may come in any order.
-/

section Outcome

variable {ε α β γ : Type}

theorem toOption_bind (r : Except ε α) (f : α → Except ε β) :
    (r.bind f).toOption = r.toOption.bind fun a => (f a).toOption := by
  cases r <;> rfl

theorem toOption_map (r : Except ε α) (f : α → β) :
    (r.map f).toOption = r.toOption.map f := by
  cases r <;> rfl

def passIf (b : Bool) (x : Option α) : Option α := if b then x else none

theorem passIf_passIf (a b : Bool) (x : Option α) :
    passIf a (passIf b x) = passIf (a && b) x := by
  cases a <;> rfl

theorem passIf_bind (b : Bool) (x : Option α) (f : α → Option β) :
    (passIf b x).bind f = passIf b (x.bind f) := by
  cases b <;> rfl

theorem passIf_map (b : Bool) (x : Option α) (f : α → β) :
    (passIf b x).map f = passIf b (x.map f) := by
  cases b <;> rfl

end Outcome

/-! ## The walk -/

/-- The context of a statement with the given scope, at the given depth. -/
structure Ctx.At (ctx : Ctx) (locals : List Name) (inLoop : Bool) (depth : Nat)
    (scope : Scope) : Prop where
  names : ctx.locals = locals ++ scope.names
  depth_eq : ctx.labelScopes.length = depth
  loop_iff : inLoop = true ↔ ctx.loopDepth ≠ 0

def Ctx.moved (ctx : Ctx) (scope : Scope) (gotos : List PendingGoto) : Ctx :=
  { ctx with gotos, locals := ctx.locals ++ scope.names }

def allAccepted (ws : List Walked) : Bool := ws.all Walked.accepted

theorem allAccepted_append (ws vs : List Walked) :
    allAccepted (ws ++ vs) = (allAccepted ws && allAccepted vs) := List.all_append

theorem allAccepted_cons (w : Walked) (ws : List Walked) :
    allAccepted (w :: ws) = (w.accepted && allAccepted ws) := rfl

def Ctx.walked (ctx : Ctx) (locals : List Name) (functions : List Walked) (tidy : Bool)
    (events : List BlockEvent) (declared : Scope) : Option Ctx :=
  passIf (allAccepted functions && tidy)
    ((runEvents locals events ctx.gotos).map (ctx.moved declared))

def stmtsDeclares (site : Site) : Nat → List Stmt → Scope
  | _, [] => []
  | i, s :: stmts => s.declares (i :: site) ++ stmtsDeclares site (i + 1) stmts

theorem Ctx.At.moved {ctx : Ctx} {locals : List Name} {inLoop : Bool} {depth : Nat}
    {scope : Scope} (h : ctx.At locals inLoop depth scope) (declared : Scope)
    (gs : List PendingGoto) :
    (ctx.moved declared gs).At locals inLoop depth (scope ++ declared) where
  names := by
    show ctx.locals ++ declared.names = _
    rw [h.names, Scope.names_append, List.append_assoc]
  depth_eq := h.depth_eq
  loop_iff := h.loop_iff

theorem Ctx.At.moved_nil {ctx : Ctx} {locals : List Name} {inLoop : Bool} {depth : Nat}
    {scope : Scope} (h : ctx.At locals inLoop depth scope) (gs : List PendingGoto) :
    (ctx.moved [] gs).At locals inLoop depth scope := by
  have hmoved := h.moved [] gs
  rwa [List.append_nil] at hmoved

theorem Ctx.At.enterLoop {ctx : Ctx} {locals : List Name} {inLoop : Bool} {depth : Nat}
    {scope : Scope} (h : ctx.At locals inLoop depth scope) :
    ctx.enterLoop.At locals true depth scope where
  names := h.names
  depth_eq := h.depth_eq
  loop_iff := iff_of_true rfl (Nat.succ_ne_zero _)

theorem Ctx.At.pushLocals {ctx : Ctx} {locals : List Name} {inLoop : Bool} {depth : Nat}
    {scope : Scope} (h : ctx.At locals inLoop depth scope) (site : Site)
    (names : List Name) :
    (ctx.pushLocals names).At locals inLoop depth (scope ++ declare site names) where
  names := by
    show ctx.locals ++ names = _
    rw [h.names, Scope.names_append, names_declare, List.append_assoc]
  depth_eq := h.depth_eq
  loop_iff := h.loop_iff

@[simp] theorem Ctx.moved_moved (ctx : Ctx) (d e : Scope) (gs hs : List PendingGoto) :
    (ctx.moved d gs).moved e hs = ctx.moved (d ++ e) hs := by
  simp [Ctx.moved]

theorem Ctx.leaveLoopOf_moved (ctx : Ctx) (names : List Name) (declared : Scope)
    (gs : List PendingGoto) :
    ctx.leaveLoopOf ((ctx.enterLoop.pushLocals names).moved declared gs) =
      ctx.moved [] gs := by
  simp [Ctx.leaveLoopOf, Ctx.moved, Ctx.enterLoop, Ctx.pushLocals, Ctx.resizeLocals,
    Ctx.leaveLoop]

theorem Ctx.pushLocals_nil (ctx : Ctx) : ctx.pushLocals [] = ctx := by
  rw [Ctx.pushLocals, List.append_nil]

section Sequencing

variable {locals : List Name} {ctx ctx' : Ctx} {F G : List Walked} {t u : Bool}
  {es fs : List BlockEvent} {d e : Scope}

theorem Ctx.walked_bind (b : Bool) {f : Ctx → Option Ctx} (hgotos : ctx'.gotos = ctx.gotos)
    (h : ∀ gs, f (ctx.moved d gs) = passIf b ((ctx'.moved d gs).walked locals G u fs e)) :
    (ctx.walked locals F t es d).bind f =
      passIf b (ctx'.walked locals (F ++ G) (t && u) (es ++ fs) (d ++ e)) := by
  have hseq : (((runEvents locals es ctx.gotos).map (ctx.moved d)).bind f) =
      passIf b (passIf (allAccepted G && u)
        ((runEvents locals (es ++ fs) ctx'.gotos).map (ctx'.moved (d ++ e)))) := by
    rw [runEvents_append, hgotos, Option.map_bind]
    cases runEvents locals es ctx.gotos with
    | none => cases b <;> cases (allAccepted G && u) <;> rfl
    | some gs =>
        refine (h gs).trans ?_
        show passIf b (passIf _ ((runEvents locals fs gs).map _)) = _
        refine congrArg _ (congrArg _ ?_)
        exact congrArg (Option.map · _) (funext fun hs => ctx'.moved_moved d e gs hs)
  unfold Ctx.walked
  rw [passIf_bind, hseq, passIf_passIf, passIf_passIf, passIf_passIf, allAccepted_append]
  congr 1
  cases allAccepted F <;> cases allAccepted G <;> cases t <;> cases u <;> cases b <;> rfl

theorem Ctx.walked_map {f : Ctx → Ctx} (hgotos : ctx'.gotos = ctx.gotos)
    (h : ∀ gs, f (ctx.moved d gs) = ctx'.moved e gs) :
    (ctx.walked locals F t es d).map f = ctx'.walked locals F t es e := by
  unfold Ctx.walked
  rw [passIf_map, Option.map_map, hgotos]
  exact congrArg _ (congrArg (Option.map · _) (funext h))

theorem Ctx.walked_of_expr (x : Option Ctx) (hx : x = ctx.walked locals G t es d) :
    (passIf (allAccepted F) (some ())).bind (fun _ => x) =
      ctx.walked locals (F ++ G) t es d := by
  rw [passIf_bind, hx]
  unfold Ctx.walked
  rw [allAccepted_append, Bool.and_assoc, ← passIf_passIf (allAccepted F)]
  rfl

theorem Ctx.walked_exprs (ctx : Ctx) (declared : Scope) {c : Ctx}
    (h : c = ctx.moved declared ctx.gotos) :
    (passIf (allAccepted F) (some ())).map (fun _ => c) =
      ctx.walked locals F true [] declared := by
  rw [passIf_map, h]
  unfold Ctx.walked
  rw [Bool.and_true]
  rfl

end Sequencing

def Ctx.inBlock (ctx : Ctx) (labels : LabelScope) : Ctx :=
  { ctx with labelScopes := labels :: ctx.labelScopes }

theorem Ctx.closeScope_inBlock (ctx : Ctx) (labels : LabelScope) (declared : Scope)
    (gs : List PendingGoto) :
    ((ctx.inBlock labels).moved declared gs).closeScope.toOption =
      (bindGotos (ctx.labelScopes.length + 1) labels gs).toOption.map
        (ctx.moved declared) :=
  toOption_map _ _

theorem Ctx.resizeLocals_moved (ctx : Ctx) (declared : Scope) (gs : List PendingGoto) :
    (ctx.moved declared gs).resizeLocals ctx.locals.length = ctx.moved [] gs := by
  simp [Ctx.moved, Ctx.resizeLocals]

theorem walkStmts_cons {s : Stmt} (hs : s.isLabel = false) (allowLast : Bool)
    (before : Nat) (stmts : List Stmt) (ctx : Ctx) :
    walkStmts allowLast before (s :: stmts) ctx =
      (walkStmt s ctx).bind (walkStmts allowLast before stmts) := by
  cases s <;> first
    | rfl
    | cases hs

theorem blockLabels_cons {s : Stmt} (hs : s.isLabel = false) (allowLast : Bool)
    (entry : Scope) (site : Site) (i : Nat) (scope : Scope) (stmts : List Stmt) :
    blockLabels allowLast entry site i scope (s :: stmts) =
      blockLabels allowLast entry site (i + 1) (scope ++ s.declares (i :: site)) stmts := by
  cases s <;> first
    | rfl
    | cases hs

theorem isSome_lookup {α : Type} (name : Name) (l : List (Name × α)) :
    (l.lookup name).isSome = true ↔ name ∈ l.map Prod.fst := by
  induction l with
  | nil => simp
  | cons p l ih =>
      rw [List.lookup_cons, List.map_cons, List.mem_cons]
      by_cases h : name = p.1
      · simp [h]
      · rw [beq_eq_false_iff_ne.mpr h]
        simp [h, ← ih]

theorem map_fst_labelNames (locals : List Name) (labels : BlockLabels) :
    (Closing.labelNames locals labels).map Prod.fst = labels.map Prod.fst := by
  rw [Closing.labelNames, List.map_map]
  rfl

mutual

theorem walkExpr_eq : ∀ e : Expr,
    (walkExpr e).toOption = passIf (allAccepted e.functions) (some ())
  | .bin _ lhs rhs => by
      rw [walkExpr, toOption_bind, walkExpr_eq lhs, walkExpr_eq rhs, passIf_bind,
        Expr.functions, allAccepted_append, ← passIf_passIf]
      rfl
  | .un _ operand => walkExpr_eq operand
  | .index table key => by
      rw [walkExpr, toOption_bind, walkExpr_eq table, walkExpr_eq key, passIf_bind,
        Expr.functions, allAccepted_append, ← passIf_passIf]
      rfl
  | .field table _ => walkExpr_eq table
  | .call callee args _ => by
      rw [walkExpr, toOption_bind, walkExpr_eq callee, walkExprs_eq args, passIf_bind,
        Expr.functions, allAccepted_append, ← passIf_passIf]
      rfl
  | .paren inner => walkExpr_eq inner
  | .table fields => walkFields_eq fields
  | .function fn => walkFunction_eq fn.params fn
  | .nil | .bool _ | .int _ | .float _ | .string _ | .vararg | .name _ => rfl

theorem walkExprs_eq : ∀ es : List Expr,
    (walkExprs es).toOption = passIf (allAccepted (exprsFunctions es)) (some ())
  | [] => rfl
  | e :: es => by
      rw [walkExprs, toOption_bind, walkExpr_eq e, walkExprs_eq es, passIf_bind,
        exprsFunctions, allAccepted_append, ← passIf_passIf]
      rfl

theorem walkFields_eq : ∀ fields : List Field,
    (walkFields fields).toOption = passIf (allAccepted (fieldsFunctions fields)) (some ())
  | [] => rfl
  | .positional value :: fields => by
      rw [walkFields, toOption_bind, walkExpr_eq value, walkFields_eq fields, passIf_bind,
        fieldsFunctions, allAccepted_append, ← passIf_passIf]
      rfl
  | .named _ value :: fields => by
      rw [walkFields, toOption_bind, walkExpr_eq value, walkFields_eq fields, passIf_bind,
        fieldsFunctions, allAccepted_append, ← passIf_passIf]
      rfl
  | .keyed key value :: fields => by
      rw [walkFields, toOption_bind, walkExpr_eq key, passIf_bind, fieldsFunctions,
        allAccepted_append, allAccepted_append, Bool.and_assoc, ← passIf_passIf,
        ← passIf_passIf]
      show passIf _ ((walkExpr value).bind _).toOption = _
      rw [toOption_bind, walkExpr_eq value, walkFields_eq fields, passIf_bind]
      rfl

theorem walkFunction_eq (locals : List Name) : ∀ fn : Function,
    (walkFunction locals fn).toOption =
      passIf (allAccepted (⟨locals, fn⟩ :: fn.functions)) (some ())
  | .mk params isVararg body => by
      have hat : Ctx.At { locals } locals false 0 [] :=
        ⟨(List.append_nil _).symm, rfl, iff_of_false Bool.false_ne_true fun h => h rfl⟩
      have hcheck (gs : List PendingGoto) :
          (({ locals } : Ctx).moved [] gs).checkGotos.toOption =
            passIf (decide (gs = [])) (some ()) := by
        cases gs <;> rfl
      rw [walkFunction, toOption_bind, walkBlock_eq true true [] body hat, allAccepted_cons,
        Walked.accepted]
      unfold Ctx.walked
      rw [passIf_bind]
      show passIf (allAccepted body.functions && body.tidy true false [] [])
          (((runEvents locals (body.events true 0 [] []) []).map _).bind _) =
        passIf ((body.tidy true false [] [] &&
          decide (runEvents locals (body.events true 0 [] []) [] = some [])) &&
            allAccepted body.functions) _
      have hrun : (((runEvents locals (body.events true 0 [] []) []).map
          (Ctx.moved { locals } [])).bind fun ctx => ctx.checkGotos.toOption) =
          passIf (decide (runEvents locals (body.events true 0 [] []) [] = some []))
            (some ()) := by
        cases runEvents locals (body.events true 0 [] []) [] with
        | none => rfl
        | some gs =>
            refine (hcheck gs).trans ?_
            simp only [Option.some.injEq]
      refine (congrArg _ hrun).trans ?_
      rw [passIf_passIf]
      congr 1
      cases allAccepted body.functions <;> cases body.tidy true false [] [] <;> simp

theorem walkStmt_eq {locals : List Name} {inLoop : Bool} {depth : Nat} {scope : Scope}
    (site : Site) : ∀ (s : Stmt) {ctx : Ctx}, ctx.At locals inLoop depth scope →
      (walkStmt s ctx).toOption =
        ctx.walked locals s.functions (s.tidy inLoop scope site)
          (s.events depth scope site) (s.declares site)
  | .break, ctx, h => by
      have hloop := h.loop_iff
      show (if ctx.loopDepth = 0 then _ else _ : Except String Ctx).toOption =
        passIf (allAccepted [] && inLoop) ((some ctx.gotos).map (ctx.moved []))
      cases inLoop with
      | false =>
          rw [if_pos (not_not.mp fun hne => Bool.false_ne_true (hloop.mpr hne))]
          rfl
      | true =>
          rw [if_neg (hloop.mp rfl)]
          show some ctx = some (ctx.moved [] ctx.gotos)
          rw [Ctx.moved, Scope.names_nil, List.append_nil]
  | .goto label, ctx, h => by
      show some (ctx.pushGoto label) = some (ctx.moved [] _)
      rw [Ctx.pushGoto, Ctx.moved, h.names, h.depth_eq, Scope.names_nil, List.append_nil]
  | .label _, ctx, _ => by
      show some ctx = some (ctx.moved [] ctx.gotos)
      rw [Ctx.moved, Scope.names_nil, List.append_nil]
  | .while cond body, ctx, h => by
      rw [walkStmt, toOption_bind, walkExpr_eq cond]
      refine Ctx.walked_of_expr _ ?_
      rw [toOption_map, walkBlock_eq true true _ body h.enterLoop]
      refine Ctx.walked_map rfl fun gs => ?_
      simp [Ctx.moved, Ctx.enterLoop, Ctx.leaveLoop, Stmt.declares]
  | .repeat body cond, ctx, h => by
      have hbody : (walkBlock body false false ctx.enterLoop).toOption.map
          ctx.leaveLoopOf = ctx.walked locals body.functions
            (body.tidy false true scope (0 :: site))
            (body.events false depth scope (0 :: site)) [] := by
        rw [walkBlock_eq false false (0 :: site) body h.enterLoop]
        refine Ctx.walked_map rfl fun gs => ?_
        have hleave := ctx.leaveLoopOf_moved []
          (stmtsDeclares (0 :: site) 0 body.stmts) gs
        rwa [Ctx.pushLocals_nil] at hleave
      have hcond : (walkStmt (.repeat body cond) ctx).toOption =
          ((walkBlock body false false ctx.enterLoop).toOption.map ctx.leaveLoopOf).bind
            fun ctx => passIf (allAccepted cond.functions) (some ctx) := by
        rw [walkStmt, toOption_bind]
        cases (walkBlock body false false ctx.enterLoop).toOption with
        | none => rfl
        | some inner =>
            show ((walkExpr cond).map fun _ => ctx.leaveLoopOf inner).toOption = _
            rw [toOption_map, walkExpr_eq cond, passIf_map]
            rfl
      rw [hcond, hbody]
      have hseq := @Ctx.walked_bind locals ctx ctx body.functions cond.functions
        (body.tidy false true scope (0 :: site)) true
        (body.events false depth scope (0 :: site)) [] [] [] true
        (fun ctx => passIf (allAccepted cond.functions) (some ctx)) rfl
        fun gs => by
          show _ = passIf (allAccepted cond.functions && true)
            (some ((ctx.moved [] gs).moved [] gs))
          rw [Ctx.moved_moved, Bool.and_true]
          rfl
      rw [hseq, Bool.and_true, List.append_nil]
      rfl
  | .forNum name start limit none body, ctx, h => by
      rw [walkStmt, toOption_bind, walkExpr_eq start, Stmt.functions, List.append_assoc]
      refine Ctx.walked_of_expr _ ?_
      rw [toOption_bind, walkExpr_eq limit]
      refine Ctx.walked_of_expr _ ?_
      show ((walkBlock body true true _).map _).toOption = _
      rw [toOption_map, walkBlock_eq true true (0 :: site) body
        (h.enterLoop.pushLocals site [name])]
      exact Ctx.walked_map rfl (ctx.leaveLoopOf_moved [name] [])
  | .forNum name start limit (some step) body, ctx, h => by
      rw [walkStmt, toOption_bind, walkExpr_eq start, Stmt.functions, List.append_assoc,
        List.append_assoc]
      refine Ctx.walked_of_expr _ ?_
      rw [toOption_bind, walkExpr_eq limit]
      refine Ctx.walked_of_expr _ ?_
      rw [toOption_bind, walkExpr_eq step]
      refine Ctx.walked_of_expr _ ?_
      rw [toOption_map, walkBlock_eq true true (0 :: site) body
        (h.enterLoop.pushLocals site [name])]
      exact Ctx.walked_map rfl (ctx.leaveLoopOf_moved [name] [])
  | .forIn names iters body, ctx, h => by
      rw [walkStmt, toOption_bind, walkExprs_eq iters]
      refine Ctx.walked_of_expr _ ?_
      rw [toOption_map, walkBlock_eq true true (0 :: site) body
        (h.enterLoop.pushLocals site names)]
      exact Ctx.walked_map rfl (ctx.leaveLoopOf_moved names [])
  | .ifs branches none, ctx, h => by
      rw [walkStmt, toOption_bind, walkBranches_eq site 1 branches h]
      exact Option.bind_fun_some _
  | .ifs branches (some body), ctx, h => by
      rw [walkStmt, toOption_bind, walkBranches_eq site 1 branches h]
      exact ctx.walked_bind true rfl fun gs =>
        walkBlock_eq true true (0 :: site) body (h.moved_nil gs)
  | .localDecl names values, ctx, _ => by
      rw [walkStmt, toOption_map, walkExprs_eq values]
      refine Ctx.walked_exprs ctx (declare site names) ?_
      rw [Ctx.moved, names_declare]
      rfl
  | .assign vars values, ctx, _ => by
      rw [walkStmt, toOption_bind, walkExprs_eq vars]
      refine Ctx.walked_of_expr _ ?_
      rw [toOption_map, walkExprs_eq values]
      refine Ctx.walked_exprs ctx [] ?_
      simp [Ctx.moved]
  | .return values, ctx, _ => by
      rw [walkStmt, toOption_map, walkExprs_eq values]
      refine Ctx.walked_exprs ctx [] ?_
      simp [Ctx.moved]
  | .callStmt call, ctx, _ => by
      rw [walkStmt, toOption_map, walkExpr_eq call]
      refine Ctx.walked_exprs ctx [] ?_
      simp [Ctx.moved]
  | .localFunction name fn, ctx, _ => by
      rw [walkStmt, toOption_map, walkFunction_eq [] fn]
      refine Ctx.walked_exprs ctx (declare site [name]) ?_
      rw [Ctx.moved, names_declare]
      rfl
  | .functionDecl _ _ fn, ctx, _ => by
      rw [walkStmt, toOption_map, walkFunction_eq [] fn]
      refine Ctx.walked_exprs ctx [] ?_
      simp [Ctx.moved]
  | .doBlock body, _, h => walkBlock_eq true true _ body h

theorem walkBranches_eq {locals : List Name} {inLoop : Bool} {depth : Nat}
    {scope : Scope} (site : Site) : ∀ (i : Nat) (branches : List Branch) {ctx : Ctx},
      ctx.At locals inLoop depth scope →
      (walkBranches branches ctx).toOption =
        ctx.walked locals (branchesFunctions branches)
          (branchesTidy inLoop scope site i branches)
          (branchesEvents depth scope site i branches) []
  | _, [], ctx, _ => by
      show some ctx = some (ctx.moved [] ctx.gotos)
      rw [Ctx.moved, Scope.names_nil, List.append_nil]
  | i, .mk cond body :: branches, ctx, h => by
      rw [walkBranches, toOption_bind, walkExpr_eq cond, branchesFunctions,
        List.append_assoc]
      refine Ctx.walked_of_expr _ ?_
      rw [toOption_bind, walkBlock_eq true true (i :: site) body h]
      exact ctx.walked_bind true rfl fun gs =>
        walkBranches_eq site (i + 1) branches (h.moved_nil gs)

theorem walkStmts_eq {locals : List Name} {inLoop : Bool} {depth : Nat}
    (allowLast : Bool) (entry : Scope) (site : Site) :
    ∀ (i : Nat) (declared : Scope) (stmts : List Stmt) {ctx : Ctx}
      {labels new : LabelScope} {outer : List LabelScope},
      ctx.At locals inLoop depth (entry ++ declared) →
      ctx.labelScopes = labels :: outer → (labels.map Prod.fst).Nodup →
      new = Closing.labelNames locals
        (blockLabels allowLast entry site i (entry ++ declared) stmts) →
      (walkStmts allowLast (locals ++ entry.names).length stmts ctx).toOption =
        passIf (decide ((labels ++ new).map Prod.fst).Nodup)
          ({ ctx with labelScopes := (labels ++ new) :: outer }.walked locals
            (stmtsFunctions stmts) (stmtsTidy inLoop site i (entry ++ declared) stmts)
            (stmtsEvents depth site i (entry ++ declared) stmts)
            (stmtsDeclares site i stmts))
  | _, declared, [], ctx, labels, _, outer, _, hlabels, hnodup, rfl => by
      show some ctx = passIf (decide ((labels ++ []).map Prod.fst).Nodup)
        (some ({ ctx with labelScopes := (labels ++ []) :: outer }.moved [] ctx.gotos))
      rw [List.append_nil, decide_eq_true hnodup, ← hlabels, Ctx.moved, Scope.names_nil,
        List.append_nil]
      rfl
  | i, declared, s :: stmts, ctx, labels, new, outer, h, hlabels, hnodup, hnew => by
      cases hs : s.isLabel with
      | true =>
          obtain ⟨name, rfl⟩ : ∃ name, s = .label name := by
            cases s <;> first
              | exact ⟨_, rfl⟩
              | cases hs
          let last := allowLast && stmts.all Stmt.isLabel
          let needed : Scope := if last then entry else entry ++ declared
          have hneeded : (if last then ctx.locals.take (locals ++ entry.names).length
              else ctx.locals) = locals ++ needed.names := by
            show _ = locals ++ Scope.names (if last then entry else entry ++ declared)
            rw [h.names, Scope.names_append, ← List.append_assoc]
            split
            · exact List.take_left
            · rw [Scope.names_append, List.append_assoc]
          replace hnew : new = (name, locals ++ needed.names) ::
              Closing.labelNames locals (blockLabels allowLast entry site (i + 1)
                (entry ++ declared) stmts) := hnew
          show ((ctx.defineLabel name (if last then _ else _)).bind _).toOption = _
          rw [hneeded, toOption_bind, Ctx.defineLabel, hlabels]
          simp only
          cases hfound : (labels.lookup name).isSome with
          | true =>
              have hmem := (isSome_lookup name labels).mp hfound
              have htwice : ¬ ((labels ++ new).map Prod.fst).Nodup := by
                rw [List.map_append, hnew]
                intro hnodup
                exact (List.nodup_append.mp hnodup).2.2 name hmem name
                  List.mem_cons_self rfl
              rw [decide_eq_false htwice]
              rfl
          | false =>
              have hmem : name ∉ labels.map Prod.fst := fun hmem => by
                rw [(isSome_lookup name labels).mpr hmem] at hfound
                cases hfound
              have hnodup' : ((labels ++ [(name, locals ++ needed.names)]).map
                  Prod.fst).Nodup := by
                rw [List.map_append]
                refine List.nodup_append.mpr ⟨hnodup, List.nodup_singleton _, ?_⟩
                intro a ha b hb hab
                rw [hab, List.mem_singleton.mp hb] at ha
                exact hmem ha
              let inner : Ctx :=
                { ctx with labelScopes := (labels ++ [(name, locals ++ needed.names)]) :: outer }
              have hat : inner.At locals inLoop depth (entry ++ declared) :=
                ⟨h.names, by rw [← h.depth_eq, hlabels]; rfl, h.loop_iff⟩
              have htail := walkStmts_eq allowLast entry site (i + 1) declared stmts hat rfl
                hnodup' rfl
              rw [List.append_assoc, List.singleton_append, ← hnew] at htail
              refine htail.trans ?_
              have hscope : entry ++ declared ++ Stmt.declares (i :: site) (.label name) =
                  entry ++ declared := List.append_nil _
              rw [stmtsTidy, stmtsEvents, hscope]
              rfl
      | false =>
          rw [blockLabels_cons hs, List.append_assoc] at hnew
          rw [walkStmts_cons hs, toOption_bind, walkStmt_eq (i :: site) s h]
          refine Ctx.walked_bind _ rfl fun gs => ?_
          have hmoved := h.moved (s.declares (i :: site)) gs
          rw [List.append_assoc] at hmoved
          have htail := walkStmts_eq allowLast entry site (i + 1)
            (declared ++ s.declares (i :: site)) stmts hmoved hlabels hnodup hnew
          rw [← List.append_assoc] at htail
          exact htail

theorem walkBlock_eq {locals : List Name} {inLoop : Bool} {depth : Nat} {scope : Scope}
    (allowLast popLocals : Bool) (site : Site) : ∀ (b : Block) {ctx : Ctx},
      ctx.At locals inLoop depth scope →
      (walkBlock b allowLast popLocals ctx).toOption =
        ctx.walked locals b.functions (b.tidy allowLast inLoop scope site)
          (b.events allowLast depth scope site)
          (if popLocals then [] else stmtsDeclares site 0 b.stmts)
  | .mk stmts, ctx, h => by
      have hopen : ctx.openScope.At locals inLoop (depth + 1) (scope ++ []) := by
        rw [List.append_nil]
        exact ⟨h.names, congrArg (· + 1) h.depth_eq, h.loop_iff⟩
      have hstmts := walkStmts_eq allowLast scope site 0 [] stmts hopen rfl List.nodup_nil
        rfl
      rw [List.append_nil, List.nil_append, map_fst_labelNames] at hstmts
      let labels := blockLabels allowLast scope site 0 scope stmts
      let declared := stmtsDeclares site 0 stmts
      let events := stmtsEvents (depth + 1) site 0 scope stmts
      let close : BlockEvent := .close ⟨depth + 1, labels⟩
      have hclose (gs : List PendingGoto) :
          ((((ctx.inBlock (Closing.labelNames locals labels)).moved declared
              gs).closeScope).map fun inner =>
            if popLocals then inner.resizeLocals ctx.locals.length else inner).toOption =
          (runEvents locals [close] gs).map
            (ctx.moved (if popLocals then [] else declared)) := by
        rw [toOption_map, Ctx.closeScope_inBlock, h.depth_eq, Option.map_map]
        show Option.map _ (close.run locals gs) = ((close.run locals gs).bind some).map _
        rw [Option.bind_fun_some]
        refine congrArg (Option.map · _) (funext fun gs' => ?_)
        cases popLocals with
        | true => exact ctx.resizeLocals_moved declared gs'
        | false => rfl
      have hlength : ctx.locals.length = (locals ++ scope.names).length := by rw [h.names]
      have hwalk : (walkBlock (.mk stmts) allowLast popLocals ctx).toOption =
          passIf (decide (labels.map Prod.fst).Nodup)
            (passIf (allAccepted (stmtsFunctions stmts) && stmtsTidy inLoop site 0 scope stmts)
              ((runEvents locals (events ++ [close]) ctx.gotos).map
                (ctx.moved (if popLocals then [] else declared)))) := by
        rw [walkBlock, toOption_bind, hlength, hstmts, passIf_bind]
        refine congrArg _ ?_
        unfold Ctx.walked
        rw [passIf_bind, runEvents_append, Option.map_bind]
        refine congrArg _ ?_
        show ((runEvents locals events ctx.gotos).map _).bind _ = _
        cases runEvents locals events ctx.gotos with
        | none => rfl
        | some gs =>
            rw [← hlength]
            exact hclose gs
      rw [hwalk, passIf_passIf]
      unfold Ctx.walked
      show passIf _ _ = passIf (allAccepted (stmtsFunctions stmts) &&
        (decide (labels.map Prod.fst).Nodup && stmtsTidy inLoop site 0 scope stmts)) _
      rw [Bool.and_left_comm]
      rfl

end

/-! ## The gotos of a run -/

/-- A pending goto passes at the first label of its name that is not deeper. -/
def PendingGoto.passesAt (locals : List Name) (g : PendingGoto) (cs : List Closing) :
    Bool :=
  (visibleLabel ((cs.filter fun c => decide (c.depth ≤ g.scopeDepth)).map Closing.labels)
    g.label).any fun needed => (locals ++ needed.names).all g.visible.contains

theorem PendingGoto.passesAt_cons (locals : List Name) (g : PendingGoto) (c : Closing)
    (cs : List Closing) : g.passesAt locals (c :: cs) =
      match if c.depth ≤ g.scopeDepth then c.labels.lookup g.label else none with
      | some needed => (locals ++ needed.names).all g.visible.contains
      | none => g.passesAt locals cs := by
  unfold PendingGoto.passesAt
  by_cases hdepth : c.depth ≤ g.scopeDepth
  · rw [List.filter_cons, if_pos (decide_eq_true hdepth), List.map_cons, visibleLabel,
      List.findSome?_cons, if_pos hdepth]
    cases c.labels.lookup g.label <;> rfl
  · rw [List.filter_cons, if_neg (by simpa using hdepth), if_neg hdepth]

theorem lookup_labelNames (locals : List Name) (name : Name) (labels : BlockLabels) :
    (Closing.labelNames locals labels).lookup name =
      (labels.lookup name).map fun scope => locals ++ scope.names := by
  induction labels with
  | nil => rfl
  | cons p labels ih =>
      show List.lookup name ((p.1, locals ++ p.2.names) ::
        Closing.labelNames locals labels) = _
      rw [List.lookup_cons, List.lookup_cons]
      cases name == p.1
      · exact ih
      · rfl

theorem PendingGoto.check_ok (g : PendingGoto) (names : List Name) :
    (g.check names).toOption = passIf (names.all g.visible.contains) (some ()) := by
  unfold PendingGoto.check PendingGoto.unseen
  cases hfind : names.find? fun name => !g.visible.contains name with
  | none =>
      rw [List.find?_eq_none] at hfind
      rw [List.all_eq_true.mpr fun name hname => by simpa using hfind name hname]
      rfl
  | some name =>
      have hmem := List.mem_of_find?_eq_some hfind
      have hnot := List.find?_some hfind
      have hall : names.all g.visible.contains = false := by
        rw [Bool.eq_false_iff]
        intro hall
        rw [List.all_eq_true.mp hall name hmem] at hnot
        cases hnot
      rw [hall]
      rfl

theorem keep_iff {ε : Type} (p : PendingGoto → Prop) (g : PendingGoto)
    (r : Except ε (List PendingGoto)) :
    (∃ rest, (r.map (g :: ·)).toOption = some rest ∧ ∀ g ∈ rest, p g) ↔
      p g ∧ ∃ rest, r.toOption = some rest ∧ ∀ g ∈ rest, p g := by
  cases r with
  | error e =>
      refine iff_of_false ?_ ?_
      · rintro ⟨rest, h, -⟩
        cases h
      · rintro ⟨-, rest, h, -⟩
        cases h
  | ok gs =>
      constructor
      · rintro ⟨rest, h, hall⟩
        cases h
        exact ⟨hall g List.mem_cons_self, gs, rfl,
          fun g hg => hall g (List.mem_cons_of_mem _ hg)⟩
      · rintro ⟨hg, rest, h, hall⟩
        cases h
        exact ⟨g :: gs, rfl, List.forall_mem_cons.mpr ⟨hg, hall⟩⟩

theorem bindGotos_iff (locals : List Name) (c : Closing) (cs : List Closing)
    (gs : List PendingGoto) :
    (∃ rest, (bindGotos c.depth (Closing.labelNames locals c.labels) gs).toOption =
        some rest ∧ ∀ g ∈ rest, g.passesAt locals cs = true) ↔
      ∀ g ∈ gs, g.passesAt locals (c :: cs) = true := by
  induction gs with
  | nil => exact iff_of_true ⟨[], rfl, fun _ hg => (nomatch hg)⟩ fun _ hg => (nomatch hg)
  | cons g gs ih =>
      rw [List.forall_mem_cons, g.passesAt_cons, ← ih, bindGotos]
      by_cases hdepth : c.depth ≤ g.scopeDepth
      · rw [if_pos hdepth, if_pos hdepth, lookup_labelNames]
        cases c.labels.lookup g.label with
        | some needed =>
            show (∃ rest, ((g.check _).bind _).toOption = _ ∧ _) ↔
              (locals ++ needed.names).all g.visible.contains = true ∧ _
            rw [toOption_bind, g.check_ok, passIf_bind]
            cases (locals ++ needed.names).all g.visible.contains with
            | true => exact (and_iff_right rfl).symm
            | false =>
                refine iff_of_false ?_ fun h => Bool.false_ne_true h.1
                rintro ⟨rest, h, -⟩
                cases h
        | none => exact keep_iff _ g _
      · rw [if_neg hdepth, if_neg hdepth]
        exact keep_iff _ g _

theorem runEvents_iff (locals : List Name) (es : List BlockEvent) :
    ∀ gs : List PendingGoto, runEvents locals es gs = some [] ↔
      (∀ g ∈ gs, g.passesAt locals (closings es) = true) ∧
        ∀ site ∈ gotoSites [] es, site.passes locals = true := by
  induction es with
  | nil =>
      intro gs
      cases gs with
      | nil => exact iff_of_true rfl ⟨fun _ hg => (nomatch hg), fun _ hs => (nomatch hs)⟩
      | cons g gs =>
          refine iff_of_false (fun h => ?_) fun h => ?_
          · cases h
          · exact Bool.false_ne_true (h.1 g List.mem_cons_self)
  | cons e es ih =>
      intro gs
      cases e with
      | goto label scope depth =>
          show runEvents locals es _ = some [] ↔ _
          rw [ih, gotoSites, List.forall_mem_append, List.forall_mem_singleton,
            List.forall_mem_cons, and_assoc]
          refine and_congr_right fun _ => and_congr_left fun _ => ?_
          rw [List.append_nil]
          unfold PendingGoto.passesAt GotoSite.passes GotoSite.found
          cases visibleLabel ((List.filter (fun c => decide (c.depth ≤ depth))
            (closings es)).map Closing.labels) label with
          | none => exact .rfl
          | some needed =>
              simp only [Option.any_some, List.all_append, Bool.and_eq_true, and_iff_right_iff_imp]
              intro _
              simp only [List.all_eq_true, List.contains_iff_mem]
              exact fun x hx => List.mem_append_left _ hx
      | close c =>
          rw [runEvents, closings, gotoSites, ← bindGotos_iff, Option.bind_eq_some_iff]
          simp only [ih]
          constructor
          · rintro ⟨rest, hrest, hall, hsites⟩
            exact ⟨⟨rest, hrest, hall⟩, hsites⟩
          · rintro ⟨⟨rest, hrest, hall⟩, hsites⟩
            exact ⟨rest, hrest, hall, hsites⟩

theorem Walked.accepted_eq (w : Walked) :
    w.accepted = (w.fn.tidy && w.fn.sites.all (GotoSite.passes · w.locals)) := by
  have hrun := runEvents_iff w.locals (w.fn.body.events true 0 [] []) []
  rw [Walked.accepted]
  refine congrArg _ ?_
  rw [Bool.eq_iff_iff, decide_eq_true_eq, hrun, List.all_eq_true]
  exact and_iff_right fun _ hg => (nomatch hg)

theorem semaAnalyze_ok (chunk : Block) :
    (semaAnalyze chunk).toOption = passIf (allAccepted (chunkFunctions chunk)) (some ()) :=
  walkFunction_eq [] (.mk [] true chunk)

/-! ## The test and the rule -/

namespace GotoSite

variable (g : GotoSite)

/-- The goto is held against a label that is not the one it means. -/
def Strays : Prop := g.found ≠ g.target

/-- A local that is in scope at the label only has the name of one at the goto. -/
def Hides (locals : List Name) : Prop :=
  ∃ needed, g.target = some needed ∧ needed.all g.scope.contains = false ∧
    needed.names.all (locals ++ g.scope.names).contains = true

def Admitted (locals : List Name) : Prop :=
  ¬ g.Strays ∧ g.Hides locals ∨
    g.Strays ∧ (∀ needed ∈ g.target, needed.all g.scope.contains = false) ∧
      ∃ taken ∈ g.found, taken.names.all (locals ++ g.scope.names).contains = true

/-- The goto is allowed, but not the one to the label that it strays to. -/
def Refused (locals : List Name) : Prop :=
  g.Strays ∧ (∃ needed ∈ g.target, needed.all g.scope.contains = true) ∧
    ∃ taken ∈ g.found, taken.names.all (locals ++ g.scope.names).contains = false

variable {g} {locals : List Name}

theorem enclosing_sublist (depth : Nat) (cs : List Closing) :
    (enclosing depth cs).Sublist (cs.filter fun c => decide (c.depth ≤ depth)) := by
  induction cs generalizing depth with
  | nil => exact .slnil
  | cons c cs ih =>
      rw [enclosing]
      by_cases hdepth : c.depth ≤ depth
      · rw [if_pos hdepth, List.filter_cons, if_pos (decide_eq_true hdepth)]
        refine ((ih (c.depth - 1)).trans (List.monotone_filter_right cs ?_)).cons_cons c
        intro d hd
        have hle := of_decide_eq_true hd
        exact decide_eq_true (by omega)
      · rw [if_neg hdepth, List.filter_cons, if_neg (by simpa using hdepth)]
        exact ih depth

theorem names_of_scope {needed : Scope} (h : needed.all g.scope.contains = true) :
    needed.names.all (locals ++ g.scope.names).contains = true := by
  rw [List.all_eq_true] at h ⊢
  intro name hname
  obtain ⟨d, hd, rfl⟩ := List.mem_map.mp hname
  have hmem := List.contains_iff_mem.mp (h d hd)
  exact List.contains_iff_mem.mpr
    (List.mem_append_right _ (List.mem_map_of_mem hmem))

theorem passes_eq_legal (hstrays : ¬ g.Strays) (hhides : ¬ g.Hides locals) :
    g.passes locals = g.legal := by
  unfold passes legal gotoLegal
  rw [not_not.mp hstrays]
  cases htarget : g.target with
  | none => rfl
  | some needed =>
      show needed.names.all (locals ++ g.scope.names).contains =
        needed.all g.scope.contains
      cases hall : needed.all g.scope.contains with
      | true => exact names_of_scope hall
      | false =>
          rw [Bool.eq_false_iff]
          exact fun hnames => hhides ⟨needed, htarget, hall, hnames⟩

theorem legal_iff : g.legal = true ↔
    ∃ needed ∈ g.target, needed.all g.scope.contains = true :=
  Option.any_eq_true _ _

theorem passes_iff : g.passes locals = true ↔ ∃ taken ∈ g.found,
    taken.names.all (locals ++ g.scope.names).contains = true :=
  Option.any_eq_true _ _

theorem found_isSome (h : g.target.isSome = true) : g.found.isSome = true := by
  have hsub := (enclosing_sublist g.depth g.later).map Closing.labels
  obtain ⟨labels, hmem, hlookup⟩ := List.findSome?_isSome_iff.mp h
  exact List.findSome?_isSome_iff.mpr ⟨labels, hsub.subset hmem, hlookup⟩

theorem admitted_iff : g.Admitted locals ↔ g.passes locals = true ∧ g.legal = false := by
  have hillegal : g.legal = false ↔
      ∀ needed ∈ g.target, needed.all g.scope.contains = false := by
    rw [← Bool.not_eq_true, legal_iff]
    simp only [not_exists, not_and, Bool.not_eq_true]
  rw [passes_iff, hillegal]
  constructor
  · rintro (⟨hstrays, needed, htarget, hneeded, hnames⟩ | ⟨-, htarget, hfound⟩)
    · refine ⟨⟨needed, ?_, hnames⟩, fun other hother => ?_⟩
      · rw [not_not.mp hstrays]
        exact htarget
      · rw [Option.mem_unique hother htarget]
        exact hneeded
    · exact ⟨hfound, htarget⟩
  · rintro ⟨hfound, htarget⟩
    by_cases hstrays : g.Strays
    · exact .inr ⟨hstrays, htarget, hfound⟩
    · obtain ⟨taken, htaken, hnames⟩ := hfound
      rw [not_not.mp hstrays] at htaken
      exact .inl ⟨hstrays, taken, htaken, htarget taken htaken, hnames⟩

theorem refused_iff : g.Refused locals ↔ g.passes locals = false ∧ g.legal = true := by
  have hpasses : g.passes locals = false ↔ ∀ taken ∈ g.found,
      taken.names.all (locals ++ g.scope.names).contains = false := by
    rw [← Bool.not_eq_true, passes_iff]
    simp only [not_exists, not_and, Bool.not_eq_true]
  rw [hpasses, legal_iff]
  constructor
  · rintro ⟨-, htarget, taken, htaken, hnames⟩
    refine ⟨fun other hother => ?_, htarget⟩
    rw [Option.mem_unique hother htaken]
    exact hnames
  · rintro ⟨hfound, needed, htarget, hneeded⟩
    obtain ⟨taken, htaken⟩ := Option.isSome_iff_exists.mp
      (found_isSome (Option.isSome_of_mem htarget))
    refine ⟨fun hsame => ?_, ⟨needed, htarget, hneeded⟩, taken, htaken, hfound taken htaken⟩
    rw [← hsame] at htarget
    exact Bool.false_ne_true ((hfound needed htarget).symm.trans (names_of_scope hneeded))

end GotoSite

/-- All gotos of a chunk, with the locals that their functions start with. -/
def chunkSites (chunk : Block) : List (List Name × GotoSite) :=
  (chunkFunctions chunk).flatMap fun w => w.fn.sites.map (w.locals, ·)

/--
All other rules are kept, and either a goto is admitted and all others are rightly let
through, or a goto is refused among gotos that are all legal.
-/
def Misjudged (chunk : Block) : Prop :=
  (∀ w ∈ chunkFunctions chunk, w.fn.tidy = true) ∧
    ((∃ site ∈ chunkSites chunk, site.2.Admitted site.1) ∧
        (∀ site ∈ chunkSites chunk, site.2.Admitted site.1 ∨
          site.2.legal = true ∧ ¬ site.2.Refused site.1) ∨
      (∃ site ∈ chunkSites chunk, site.2.Refused site.1) ∧
        ∀ site ∈ chunkSites chunk, site.2.legal = true)

theorem forall_chunkSites (chunk : Block) (p : List Name × GotoSite → Prop) :
    (∀ site ∈ chunkSites chunk, p site) ↔
      ∀ w ∈ chunkFunctions chunk, ∀ g ∈ w.fn.sites, p (w.locals, g) := by
  simp only [chunkSites, List.mem_flatMap, List.mem_map]
  constructor
  · exact fun h w hw g hg => h _ ⟨w, hw, g, hg, rfl⟩
  · rintro h _ ⟨w, hw, g, hg, rfl⟩
    exact h w hw g hg

theorem semaAnalyze_iff (chunk : Block) : semaAnalyze chunk = .ok () ↔
    (∀ w ∈ chunkFunctions chunk, w.fn.tidy = true) ∧
      ∀ site ∈ chunkSites chunk, site.2.passes site.1 = true := by
  have hok : semaAnalyze chunk = .ok () ↔ (semaAnalyze chunk).toOption = some () := by
    cases semaAnalyze chunk with
    | error e => exact iff_of_false (fun h => nomatch h) fun h => nomatch h
    | ok u => exact iff_of_true rfl rfl
  have haccepted : allAccepted (chunkFunctions chunk) = true ↔
      ∀ w ∈ chunkFunctions chunk, w.fn.tidy = true ∧
        ∀ g ∈ w.fn.sites, g.passes w.locals = true := by
    rw [allAccepted, List.all_eq_true]
    refine forall₂_congr fun w _ => ?_
    rw [w.accepted_eq, Bool.and_eq_true, List.all_eq_true]
  rw [hok, semaAnalyze_ok, forall_chunkSites, ← forall₂_and, ← haccepted]
  cases allAccepted (chunkFunctions chunk) with
  | true => exact iff_of_true rfl rfl
  | false => exact iff_of_false (fun h => nomatch h) Bool.false_ne_true

theorem chunkLegal_iff (chunk : Block) : chunkLegal chunk = true ↔
    (∀ w ∈ chunkFunctions chunk, w.fn.tidy = true) ∧
      ∀ site ∈ chunkSites chunk, site.2.legal = true := by
  rw [forall_chunkSites, ← forall₂_and, chunkLegal, List.all_eq_true]
  refine forall₂_congr fun w _ => ?_
  rw [w.fn.legal_eq, Bool.and_eq_true, List.all_eq_true]

/-- Where no goto strays or hides a local, the analysis accepts the legal chunks. -/
theorem semaAnalyze_legal {chunk : Block} (hstrays : ∀ site ∈ chunkSites chunk, ¬ site.2.Strays)
    (hhides : ∀ site ∈ chunkSites chunk, ¬ site.2.Hides site.1) :
    semaAnalyze chunk = .ok () ↔ chunkLegal chunk = true := by
  rw [semaAnalyze_iff, chunkLegal_iff]
  refine and_congr_right fun _ => forall₂_congr fun site hsite => ?_
  rw [GotoSite.passes_eq_legal (hstrays site hsite) (hhides site hsite)]

/-- The analysis accepts the legal chunks, but for those that it misjudges. -/
theorem semaAnalyze_legal_iff (chunk : Block) :
    (semaAnalyze chunk = .ok () ↔ chunkLegal chunk = true) ↔ ¬ Misjudged chunk := by
  rw [semaAnalyze_iff, chunkLegal_iff, Misjudged]
  simp only [GotoSite.admitted_iff, GotoSite.refused_iff]
  by_cases htidy : ∀ w ∈ chunkFunctions chunk, w.fn.tidy = true
  · rw [and_iff_right htidy, and_iff_right htidy, and_iff_right htidy]
    constructor
    · rintro hsame (⟨⟨site, hsite, -, hillegal⟩, hall⟩ | ⟨⟨site, hsite, hfails, -⟩, hlegal⟩)
      · have hpass : ∀ site ∈ chunkSites chunk, site.2.passes site.1 = true := by
          intro other hother
          rcases hall other hother with hadmitted | ⟨hlegal, hrefused⟩
          · exact hadmitted.1
          · by_contra hpasses
            exact hrefused ⟨Bool.eq_false_iff.mpr hpasses, hlegal⟩
        exact Bool.false_ne_true (hillegal.symm.trans (hsame.mp hpass site hsite))
      · exact Bool.false_ne_true (hfails.symm.trans (hsame.mpr hlegal site hsite))
    · intro hjudged
      constructor
      · intro hpass site hsite
        by_contra hillegal
        refine hjudged (.inl ⟨⟨site, hsite, hpass site hsite, Bool.eq_false_iff.mpr hillegal⟩,
          fun other hother => ?_⟩)
        cases hlegal : other.2.legal with
        | false => exact .inl ⟨hpass other hother, rfl⟩
        | true =>
            exact .inr ⟨rfl, fun h => Bool.false_ne_true (h.1.symm.trans (hpass other hother))⟩
      · intro hlegal site hsite
        by_contra hfails
        exact hjudged (.inr ⟨⟨site, hsite, Bool.eq_false_iff.mpr hfails, hlegal site hsite⟩,
          hlegal⟩)
  · exact iff_of_true (iff_of_false (fun h => htidy h.1) fun h => htidy h.1)
      fun h => htidy h.1

/-- `local x  do goto l  local x  ::l::  return x end`. -/
def redeclared : Block :=
  .mk [.localDecl ["x"] [],
    .doBlock (.mk [.goto "l", .localDecl ["x"] [], .label "l", .return [.name "x"]])]

/-- `do goto l end  do local x  ::l::  f() end  ::l::`. -/
def siblingLabel : Block :=
  .mk [.doBlock (.mk [.goto "l"]),
    .doBlock (.mk [.localDecl ["x"] [], .label "l", .callStmt (.call (.name "f") [] none)]),
    .label "l"]

/-- An illegal goto is accepted, and a legal one is not. -/
theorem semaAnalyze_misjudges :
    (semaAnalyze redeclared = .ok () ∧ chunkLegal redeclared = false) ∧
      semaAnalyze siblingLabel = .error "goto jumps into the scope of local 'x'" ∧
      chunkLegal siblingLabel = true :=
  ⟨⟨rfl, rfl⟩, rfl, rfl⟩

end Luatier
