import Luatier.Frontend.GotoFunctions

/-!
# The lowering of a chunk links its gotos

One induction over the syntax tree: expressions keep the frame, statements emit
their events.
-/

namespace Luatier.Lowering

open StateFrame

variable {α : Type}

abbrev AllLinked : Proto α → Prop := Proto.All Proto.Linked

theorem Item.Ok.of_quiet {kind : ItemKind} {emit : Lower α Expdesc} (hkind : kind ≠ .call)
    (h : ∀ n, Quiet AllLinked n emit) : Item.Ok AllLinked ⟨kind, emit⟩ :=
  ⟨fun n => (h n).mono fun _ => Or.inr, fun hcall => absurd hcall hkind⟩

theorem Item.Ok.keepsAll {item : Item α} (h : item.Ok AllLinked) :
    KeepsAll AllLinked item.emit := fun n => (h.keeps n).keeps

theorem keepsAll_of_quiet {m : Lower α Expdesc} (h : ∀ n, Quiet AllLinked n m) :
    KeepsAll AllLinked m := fun n => (h n).keeps

theorem quiet_const (k : Const) (n : Nat) : Quiet AllLinked n (constExpr k : Lower α Expdesc) :=
  yields_pure rfl

theorem quiet_and {left right : Option (BinOp × Lower α Expdesc × Lower α Expdesc)}
    {lhs rhs : Lower α Expdesc} {n : Nat}
    (hleft : ∀ op l r, left = some (op, l, r) → KeepsAll AllLinked l ∧ KeepsAll AllLinked r)
    (hright : ∀ op l r, right = some (op, l, r) → KeepsAll AllLinked l ∧ KeepsAll AllLinked r)
    (hl : (exprFrame AllLinked n).Keeps lhs) (hr : (exprFrame AllLinked n).Keeps rhs) :
    Quiet AllLinked n (match left, right with
      | some (op₁, lhs₁, rhs₁), some (op₂, lhs₂, rhs₂) =>
          lowerRelAnd op₁ lhs₁ rhs₁ op₂ lhs₂ rhs₂
      | _, _ => lowerLogic true lhs rhs) := by
  split
  · obtain ⟨hl₁, hr₁⟩ := hleft _ _ _ rfl
    obtain ⟨hl₂, hr₂⟩ := hright _ _ _ rfl
    exact quiet_relAnd _ _ (hl₁ n) (hr₁ n) (hl₂ n) (hr₂ n)
  · exact quiet_logic _ hl hr

theorem expr_arith {op : BinOp} {code : OpCode} (h : binArithOp op = some code)
    (lhs rhs : Expr) :
    (expr (.bin op lhs rhs) : Lower α Expdesc) = lowerArith op (expr lhs) (expr rhs) := by
  cases op <;> first | rfl | exact nomatch h

theorem wf_and {b c : Bool} (h : (b && c) = true) : b = true ∧ c = true :=
  Bool.and_eq_true_iff.mp h

mutual

theorem expr_ok : ∀ e : Expr, e.wellFormed = true →
    Item.Ok (α := α) AllLinked ⟨listKind e, expr e⟩
  | .nil, _ => .of_quiet (fun h => nomatch h) (quiet_const _)
  | .bool _, _ => .of_quiet (fun h => nomatch h) (quiet_const _)
  | .int _, _ => .of_quiet (fun h => nomatch h) (quiet_const _)
  | .float _, _ => .of_quiet (fun h => nomatch h) (quiet_const _)
  | .string _, _ => .of_quiet (fun h => nomatch h) (quiet_const _)
  | .vararg, _ => .of_quiet (fun h => nomatch h) fun _ => quiet_vararg
  | .name name, _ => .of_quiet (fun h => nomatch h) fun _ => yields_searchVar name
  | .index table key, h =>
      have hwf := wf_and h
      .of_quiet (fun h => nomatch h) fun n =>
        quiet_index ((expr_ok table hwf.1).keepsAll n) ((expr_ok key hwf.2).keepsAll n)
  | .field table field, h =>
      .of_quiet (fun h => nomatch h) fun n =>
        quiet_field field ((expr_ok table h).keepsAll n)
  | .un op operand, h =>
      .of_quiet (fun h => nomatch h) fun n =>
        quiet_un op ((expr_ok operand h).keepsAll n)
  | .paren inner, h =>
      .of_quiet (fun h => nomatch h) fun n => quiet_paren ((expr_ok inner h).keepsAll n)
  | .table fields, h =>
      .of_quiet (fun h => nomatch h) fun _ => quiet_table (fieldItems_ok fields h)
  | .function fn, h => .of_quiet (fun h => nomatch h) (function_ok fn h)
  | .call callee args method, h => by
      have hwf := wf_and h
      have hcallee := (expr_ok callee hwf.1).keepsAll
      have hargs := exprItems_ok args hwf.2
      exact ⟨fun n => (keeps_call method (hcallee n) hargs).mono fun _ _ => Or.inl rfl,
        fun _ _ _ _ hm => call_ends method hcallee hargs hm⟩
  | .bin op lhs rhs, h => by
      have hwf := wf_and h
      have hl := (expr_ok lhs hwf.1).keepsAll
      have hr := (expr_ok rhs hwf.2).keepsAll
      have hrel := relOperands_ok lhs hwf.1
      have hrel' := relOperands_ok rhs hwf.2
      refine .of_quiet (fun h => nomatch h) fun n => ?_
      cases op with
      | and => exact quiet_and hrel hrel' (hl n) (hr n)
      | or => exact quiet_logic _ (hl n) (hr n)
      | concat => exact quiet_concat (hl n) (hr n)
      | eq | ne | lt | gt | le | ge => exact quiet_compare _ _ _ (hl n) (hr n)
      | _ =>
          rw [expr_arith rfl]
          exact quiet_arith _ (hl n) (hr n)

theorem relOperands_ok : ∀ e : Expr, e.wellFormed = true →
    ∀ op (lhs rhs : Lower α Expdesc), relOperands e = some (op, lhs, rhs) →
      KeepsAll AllLinked lhs ∧ KeepsAll AllLinked rhs
  | .bin op lhs rhs, h => by
      intro op' l r hrel
      have hwf := wf_and h
      rw [relOperands] at hrel
      split at hrel
      · cases hrel
        exact ⟨(expr_ok lhs hwf.1).keepsAll, (expr_ok rhs hwf.2).keepsAll⟩
      · exact nomatch hrel
  | .nil, _ => fun _ _ _ h => nomatch h
  | .bool _, _ => fun _ _ _ h => nomatch h
  | .int _, _ => fun _ _ _ h => nomatch h
  | .float _, _ => fun _ _ _ h => nomatch h
  | .string _, _ => fun _ _ _ h => nomatch h
  | .vararg, _ => fun _ _ _ h => nomatch h
  | .name _, _ => fun _ _ _ h => nomatch h
  | .index _ _, _ => fun _ _ _ h => nomatch h
  | .field _ _, _ => fun _ _ _ h => nomatch h
  | .un _ _, _ => fun _ _ _ h => nomatch h
  | .call _ _ _, _ => fun _ _ _ h => nomatch h
  | .paren _, _ => fun _ _ _ h => nomatch h
  | .table _, _ => fun _ _ _ h => nomatch h
  | .function _, _ => fun _ _ _ h => nomatch h

theorem exprItems_ok : ∀ es : List Expr, exprsWellFormed es = true →
    ∀ item ∈ (exprItems es : List (Item α)), item.Ok AllLinked
  | [], _ => fun _ h => nomatch h
  | e :: es, h => by
      intro item hitem
      have hwf := wf_and h
      rcases List.mem_cons.mp hitem with rfl | hitem
      · exact expr_ok e hwf.1
      · exact exprItems_ok es hwf.2 item hitem

theorem exprs_ok : ∀ es : List Expr, exprsWellFormed es = true →
    ∀ m ∈ (exprs es : List (Lower α Expdesc)), KeepsAll AllLinked m
  | [], _ => fun _ h => nomatch h
  | e :: es, h => by
      intro m hm
      have hwf := wf_and h
      rcases List.mem_cons.mp hm with rfl | hm
      · exact (expr_ok e hwf.1).keepsAll
      · exact exprs_ok es hwf.2 m hm

theorem fieldItems_ok : ∀ fields : List Field, fieldsWellFormed fields = true →
    ∀ f ∈ (fieldItems fields : List (FieldItem α)), f.Ok AllLinked
  | [], _ => fun _ h => nomatch h
  | .positional value :: fields, h => by
      intro f hf
      have hwf := wf_and h
      rcases List.mem_cons.mp hf with rfl | hf
      · exact expr_ok value hwf.1
      · exact fieldItems_ok fields hwf.2 f hf
  | .named name value :: fields, h => by
      intro f hf
      have hwf := wf_and h
      rcases List.mem_cons.mp hf with rfl | hf
      · exact (expr_ok value hwf.1).keepsAll
      · exact fieldItems_ok fields hwf.2 f hf
  | .keyed key value :: fields, h => by
      intro f hf
      have hwf := wf_and h
      have hwf' := wf_and hwf.1
      rcases List.mem_cons.mp hf with rfl | hf
      · exact ⟨(expr_ok key hwf'.1).keepsAll, (expr_ok value hwf'.2).keepsAll⟩
      · exact fieldItems_ok fields hwf.2 f hf

theorem function_ok : ∀ fn : Function, fn.wellFormed = true →
    ∀ n, Quiet AllLinked n (function fn : Lower α Expdesc)
  | .mk _ _ body, h => quiet_function (block_ok body h true)

theorem statement_ok : ∀ s : Stmt, s.wellFormed = true → s.isPlain = true →
    Emits (α := α) AllLinked (statement s) s.labelEvents
  | .localDecl names values, h, _ => emits_localDecl (exprItems_ok values h)
  | .assign vars values, h, _ =>
      have hwf := wf_and h
      emits_assign (exprs_ok vars hwf.1) (exprItems_ok values hwf.2)
  | .ifs branches none, h, _ => by
      obtain ⟨ess, hitems, hevents⟩ := branchItems_ok branches h
      have helse : Emits (α := α) AllLinked (pure ()) [] :=
        .of_keeps (fun _ => keeps_pure _) fun s t htidy hm => by cases hm; exact htidy
      have hif : Emits AllLinked (lowerIf (branchItems branches) none) (ess.flatten ++ []) :=
        emits_if hitems helse
      rwa [List.append_nil, hevents] at hif
  | .ifs branches (some body), h, _ => by
      have hwf := wf_and h
      obtain ⟨ess, hitems, hevents⟩ := branchItems_ok branches hwf.1
      have hif : Emits AllLinked
          (lowerIf (branchItems branches) (some (block true true body)))
          (ess.flatten ++ body.labelEvents true) :=
        emits_if hitems (block_ok body hwf.2 true)
      rwa [hevents] at hif
  | .while cond body, h, _ =>
      have hwf := wf_and h
      emits_while (expr_ok cond hwf.1).keepsAll (block_ok body hwf.2 true)
  | .repeat body cond, h, _ => by
      have hwf := wf_and h
      have hcond : KeepsAll AllLinked (expr cond : Lower α Expdesc) :=
        (expr_ok cond hwf.2).keepsAll
      obtain ⟨stmts⟩ := body
      have hrepeat := emits_repeat hcond
        (emitsOpen_block false stmts (stmts_ok stmts hwf.1))
      rwa [List.cons_append, List.cons_append, List.append_assoc] at hrepeat
  | .forNum name start limit none body, h, _ =>
      have hwf := wf_and h
      have hwf' := wf_and hwf.1
      emits_forNum (expr_ok start hwf'.1).keepsAll (expr_ok limit hwf'.2).keepsAll
        (fun _ h => nomatch h) (block_ok body hwf.2 true)
  | .forNum name start limit (some step) body, h, _ =>
      have hwf := wf_and h
      have hwf' := wf_and hwf.1
      have hwf'' := wf_and hwf'.1
      emits_forNum (expr_ok start hwf''.1).keepsAll (expr_ok limit hwf''.2).keepsAll
        (fun _ h => Option.some.inj h ▸ (expr_ok step hwf'.2).keepsAll)
        (block_ok body hwf.2 true)
  | .forIn names iters body, h, _ => by
      have hwf := wf_and h
      have hwf' := wf_and hwf.1
      refine emits_forIn (fun hnil => ?_) (exprItems_ok iters hwf'.2)
        (block_ok body hwf.2 true)
      rw [hnil] at hwf'
      exact nomatch hwf'.1
  | .break, _, _ => emits_break
  | .goto _, _, hplain => nomatch hplain
  | .label _, _, hplain => nomatch hplain
  | .return values, h, _ => emits_return (exprItems_ok values h)
  | .callStmt call, h, _ => by
      have hwf := wf_and h
      have hcall : Item.Ok (α := α) AllLinked ⟨listKind call, expr call⟩ := expr_ok call hwf.2
      refine emits_callStmt hcall ?_
      cases call <;> first | rfl | exact nomatch hwf.1
  | .doBlock body, h, _ => block_ok body h true
  | .functionDecl namePath _ fn, h, _ =>
      emits_functionDecl namePath (keepsAll_of_quiet (function_ok fn h))
  | .localFunction name fn, h, _ =>
      emits_localFunction name (keepsAll_of_quiet (function_ok fn h))

theorem branchItems_ok : ∀ branches : List Branch, branchesWellFormed branches = true →
    ∃ ess, List.Forall₂ (BranchEmits (α := α) AllLinked) (branchItems branches) ess ∧
      ess.flatten = branchesLabelEvents branches
  | [], _ => ⟨[], .nil, rfl⟩
  | .mk cond body :: branches, h => by
      have hwf := wf_and h
      have hwf' := wf_and hwf.1
      obtain ⟨ess, hitems, hevents⟩ := branchItems_ok branches hwf.2
      refine ⟨_ :: ess, .cons ⟨(expr_ok cond hwf'.1).keepsAll, block_ok body hwf'.2 true⟩
        hitems, ?_⟩
      rw [List.flatten_cons, hevents]
      rfl

theorem stmts_ok : ∀ stmts : List Stmt, stmtsWellFormed stmts = true →
    ∀ s ∈ stmts, s.isPlain = true → Emits (α := α) AllLinked (statement s) s.labelEvents
  | [], _ => fun _ h => nomatch h
  | stmt :: stmts, h => by
      intro s hs hplain
      have hwf := wf_and h
      rcases List.mem_cons.mp hs with hs | hs
      · rw [hs] at hplain ⊢
        exact statement_ok stmt hwf.1 hplain
      · exact stmts_ok stmts hwf.2 s hs hplain

theorem block_ok : ∀ b : Block, b.wellFormed = true → ∀ allowLast,
    Emits (α := α) AllLinked (block allowLast true b) (b.labelEvents allowLast)
  | .mk stmts, h => fun allowLast => emits_block allowLast stmts (stmts_ok stmts h)

end

end Luatier.Lowering
