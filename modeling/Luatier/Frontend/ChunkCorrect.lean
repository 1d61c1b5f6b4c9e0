import Luatier.Frontend.ForInMeaning
import Luatier.Frontend.GotoBlocks

/-!
# The code of a chunk

Statements by induction on their syntax, and from them the main function: it halts as
the chunk ends.
-/

namespace Luatier.Lowering

open Realising

variable {α V σ ε X Y Z : Type}

/-! ## Statements whose registers do not clash -/

def targetTame (names : List Name) : Expr → Bool
  | .name _ => true
  | .index table key => exprTidy names (.index table key)
  | .field table name => exprTidy names (.field table name)
  | _ => false

def declares : Stmt → List Name
  | .localDecl names _ => names
  | _ => []

mutual

/--
No list has more values than it has places, and an assignment has as many. The last iterator
of a loop is a call, a name or a constant. There is no function, no label and no goto.
-/
def stmtTame (inLoop : Bool) (names : List Name) : Stmt → Bool
  | .localDecl locals values =>
      !locals.isEmpty && decide (values.length ≤ locals.length) && exprsTidy names values
  | .assign vars values =>
      vars.all (targetTame names) && exprsTidy names values &&
        decide (values.length ≤ vars.length) &&
        (values.length == vars.length || endsOpen values)
  | .ifs branches none => branchesTame inLoop names branches
  | .ifs branches (some body) =>
      branchesTame inLoop names branches && blockTame inLoop names body
  | .while cond body => exprTidy names cond && blockTame true names body
  | .repeat body cond =>
      blockTame true names body && exprTidy (names ++ body.stmts.flatMap declares) cond
  | .forNum name start limit step body =>
      exprTidy names start && exprTidy names limit && step.all (exprTidy names) &&
        blockTame true (names ++ [name]) body
  | .forIn vars iters body =>
      !vars.isEmpty && decide (iters.length ≤ 3) && exprsTidy names iters &&
        iters.getLast?.all (fun e => e.isCall || isAtom e) && blockTame true (names ++ vars) body
  | .break => inLoop
  | .return values => exprsTidy names values && decide (values.length ≤ 50)
  | .callStmt call => call.isCall && exprTidy names call
  | .doBlock body => blockTame inLoop names body
  | _ => false

def branchesTame (inLoop : Bool) (names : List Name) : List Branch → Bool
  | [] => true
  | .mk cond body :: branches =>
      exprTidy names cond && blockTame inLoop names body && branchesTame inLoop names branches

def stmtsTame (inLoop : Bool) (names : List Name) : List Stmt → Bool
  | [] => true
  | s :: stmts => stmtTame inLoop names s && stmtsTame inLoop (names ++ declares s) stmts

def blockTame (inLoop : Bool) (names : List Name) : Block → Bool
  | .mk stmts => stmtsTame inLoop names stmts

end

section Correct

variable {P : Primitives V σ ε} {inLoop : Bool} {names : List Name}

theorem target_correct {e : Expr} (h : targetTame names e = true) (ρ : Env V) :
    Targeted α P ρ names e := by
  cases e with
  | name name => exact targeted_name name
  | field table field =>
      obtain ⟨htable, hloose⟩ := wf_and h
      have htight : loose names table = false := by simpa using hloose
      have hslots := slots_field (α := α) ((expr_correct (P := P) (ρ := ρ) table htable).tight
        htight) field
      refine Slots.targeted hslots ?_
      rw [evalTarget]
      simp only [bind_assoc, pure_bind]
  | index table key =>
      obtain ⟨h, hkey⟩ := wf_and h
      obtain ⟨htable, hloose⟩ := wf_and h
      have htight : loose names table = false := by simpa using hloose
      have ht := (expr_correct (α := α) (P := P) (ρ := ρ) table htable).tight htight
      cases hk : literal? key with
      | some k =>
          have hslots := slots_index_constant ht k
          rw [← expr_of_literal key k hk] at hslots
          refine Slots.targeted hslots ?_
          rw [evalTarget, hk]
          simp only [bind_assoc, pure_bind]
      | none =>
          have hslots := slots_index ht (expr_correct key hkey).value (NotConstant.expr key hk)
          refine Slots.targeted hslots ?_
          rw [evalTarget, hk]
          simp only [bind_assoc, pure_bind]
  | _ => cases h

theorem values_correct {es : List Expr} (h : exprsTidy names es = true) (ρ : Env V) :
    ∀ e ∈ es, Correct α P ρ names e :=
  fun e he => (exprs_correct es h e he).correct

theorem stmt_plain {s : Stmt} (h : stmtTame inLoop names s = true) : s.isPlain = true := by
  cases s with
  | goto name => cases h
  | label name => cases h
  | _ => rfl

theorem return_correct {values : List Expr} (h : exprsTidy names values = true)
    (hlen : values.length ≤ 50) :
    Executes (α := α) P inLoop names [] (lowerReturn (exprItems values))
      fun fuel => execStmt P fuel (.return values) := by
  by_cases hne : values = []
  · rw [hne]
    exact executes_returnNothing
  · by_cases hcall : ∀ e, values = [e] → e.isCall = false
    · exact executes_return hne hcall hlen (values_correct h)
    · push Not at hcall
      obtain ⟨e, rfl, he⟩ := hcall
      cases e with
      | call callee args method =>
          exact executes_tailCall fun ρ => values_correct h ρ _ List.mem_cons_self
      | _ => exact absurd rfl he

theorem executes_nothing :
    Executes (α := α) P inLoop names [] (pure ()) fun _ ρ => pure (.next, ρ) := by
  intro s hs hnames
  refine ensures_pure.mpr ⟨⟨.refl s, hs, fun _ => rfl, ?_⟩, by rw [hnames, List.append_nil]⟩
  intro p fuel exit _ _ _ _ n ρ c _ hpc hholds Y k post hnext _
  rw [pure_bind]
  exact hnext ρ c hpc (.refl hholds)

mutual

theorem stmt_correct (inLoop : Bool) (names : List Name) : ∀ s : Stmt,
    stmtTame inLoop names s = true →
      Executes (α := α) P inLoop names (declares s) (statement s) fun fuel => execStmt P fuel s
  | .localDecl locals values, h => by
      obtain ⟨h, hvalues⟩ := wf_and h
      obtain ⟨hne, hlen⟩ := wf_and h
      have hnames : locals ≠ [] := by simpa using hne
      rw [statement]
      exact executes_localDecl hnames (of_decide_eq_true hlen) (values_correct hvalues)
  | .assign vars values, h => by
      obtain ⟨h, hfills⟩ := wf_and h
      obtain ⟨h, hlen⟩ := wf_and h
      obtain ⟨hvars, hvalues⟩ := wf_and h
      rw [statement]
      refine executes_assign (fun ρ e he => ?_) (values_correct hvalues) (of_decide_eq_true hlen)
        (by simpa [fills] using hfills)
      exact target_correct (List.all_eq_true.mp hvars e he) ρ
  | .ifs branches none, h => by
      rw [statement]
      have helse : Executes (α := α) P inLoop names []
          ((none : Option (Lower α Unit)).getD (pure ())) fun _ ρ => pure (.next, ρ) :=
        executes_nothing
      exact executes_ifs (branches_correct inLoop names branches h) helse
  | .ifs branches (some body), h => by
      obtain ⟨hbranches, hbody⟩ := wf_and h
      rw [statement]
      have helse : Executes (α := α) P inLoop names []
          ((some (block true true body)).getD (pure ())) (execBlock P · body) :=
        block_correct inLoop names body hbody
      exact executes_ifs (branches_correct inLoop names branches hbranches) helse
  | .while cond body, h => by
      obtain ⟨hcond, hbody⟩ := wf_and h
      rw [statement]
      exact executes_while (fun ρ => (expr_correct cond hcond).correct)
        (block_correct true names body hbody)
  | .repeat (.mk stmts) cond, h => by
      obtain ⟨hstmts, hcond⟩ := wf_and h
      rw [statement]
      exact executes_repeat (fun ρ => (expr_correct cond hcond).correct)
        (stmts_correct true names stmts hstmts)
  | .forNum name start limit none body, h => by
      obtain ⟨h, hbody⟩ := wf_and h
      obtain ⟨h, -⟩ := wf_and h
      obtain ⟨hstart, hlimit⟩ := wf_and h
      have hfor : Executes (α := α) P inLoop names []
          (lowerForNum name (expr start) (expr limit) ((none : Option Expr).map expr)
            (block true true body))
          fun fuel => execStmt P fuel (.forNum name start limit none body) :=
        executes_forNum (fun ρ => (expr_correct start hstart).correct)
          (fun ρ => (expr_correct limit hlimit).correct) (fun e he => by cases he)
          (block_correct true (names ++ [name]) body hbody)
      rw [statement]
      exact hfor
  | .forNum name start limit (some step) body, h => by
      obtain ⟨h, hbody⟩ := wf_and h
      obtain ⟨h, hstep⟩ := wf_and h
      obtain ⟨hstart, hlimit⟩ := wf_and h
      have hstep : ∀ e, some step = some e → ∀ ρ : Env V, Correct α P ρ names e := by
        rintro e ⟨⟩ ρ
        exact (expr_correct step hstep).correct
      have hfor : Executes (α := α) P inLoop names []
          (lowerForNum name (expr start) (expr limit) ((some step).map expr)
            (block true true body))
          fun fuel => execStmt P fuel (.forNum name start limit (some step) body) :=
        executes_forNum (fun ρ => (expr_correct start hstart).correct)
          (fun ρ => (expr_correct limit hlimit).correct) hstep
          (block_correct true (names ++ [name]) body hbody)
      rw [statement]
      exact hfor
  | .forIn vars iters body, h => by
      obtain ⟨h, hbody⟩ := wf_and h
      obtain ⟨h, hlast⟩ := wf_and h
      obtain ⟨h, hiters⟩ := wf_and h
      obtain ⟨hne, hlen⟩ := wf_and h
      have hvars : vars ≠ [] := by simpa using hne
      have hends : ∀ e ∈ iters.getLast?, e.isCall = true ∨ isAtom e = true := by
        intro e he
        rw [Option.mem_def.mp he] at hlast
        exact Bool.or_eq_true_iff.mp hlast
      rw [statement]
      exact executes_forIn hvars (of_decide_eq_true hlen) hends (values_correct hiters)
        (block_correct true (names ++ vars) body hbody)
  | .break, h => by
      rw [stmtTame] at h
      rw [h, statement]
      exact executes_break
  | .return values, h => by
      obtain ⟨hvalues, hlen⟩ := wf_and h
      rw [statement]
      exact return_correct hvalues (of_decide_eq_true hlen)
  | .callStmt call, h => by
      obtain ⟨hcall, htidy⟩ := wf_and h
      rw [statement]
      cases call with
      | call callee args method =>
          exact executes_callStmt fun ρ => (expr_correct _ htidy).correct
      | _ => cases hcall
  | .doBlock body, h => by
      rw [statement]
      exact block_correct inLoop names body h

theorem branches_correct (inLoop : Bool) (names : List Name) : ∀ branches : List Branch,
    branchesTame inLoop names branches = true →
      ∀ cond body, Branch.mk cond body ∈ branches → (∀ ρ : Env V, Correct α P ρ names cond) ∧
        Executes (α := α) P inLoop names [] (block true true body) (execBlock P · body)
  | [], _, cond, body, hmem => by cases hmem
  | .mk cond body :: branches, h, cond', body', hmem => by
      obtain ⟨h, hbranches⟩ := wf_and h
      obtain ⟨hcond, hbody⟩ := wf_and h
      rcases List.mem_cons.mp hmem with heq | hmem
      · cases heq
        exact ⟨fun ρ => (expr_correct cond hcond).correct, block_correct inLoop names body hbody⟩
      · exact branches_correct inLoop names branches hbranches cond' body' hmem

theorem stmts_correct (inLoop : Bool) (names : List Name) : ∀ stmts : List Stmt,
    stmtsTame inLoop names stmts = true →
      ExecutesItems (α := α) P inLoop names (stmts.flatMap declares) (stmtItems stmts)
        fun fuel => execStmts P fuel stmts
  | [], _ => executesItems_nil
  | s :: stmts, h => by
      obtain ⟨hs, hstmts⟩ := wf_and h
      rw [stmtItems_cons_plain (stmt_plain hs), List.flatMap_cons]
      exact (stmt_correct inLoop names s hs).items
        (stmts_correct inLoop (names ++ declares s) stmts hstmts)

theorem block_correct (inLoop : Bool) (names : List Name) : ∀ body : Block,
    blockTame inLoop names body = true →
      Executes (α := α) P inLoop names [] (block true true body) (execBlock P · body)
  | .mk stmts, h => by
      rw [block]
      exact (stmts_correct inLoop names stmts h).closed

end

end Correct

/-! ## The main function -/

section Chunk

variable {P : Primitives V σ ε}

def mainState (α : Type) : LowerState α := ⟨{ upvalues := [⟨"_ENV", false, 0⟩] }, []⟩

theorem sited_mainState : Sited (mainState α) where
  ready :=
    { main := rfl
      env := rfl
      only := fun name hname => by
        have hne : ("_ENV" == name) = false := beq_false_of_ne (Ne.symm hname)
        show [⟨"_ENV", false, 0⟩].findIdx? (fun u : UpvalDesc => u.name == name) = none
        simp [hne]
      locals := by simp [mainState]
      free := Nat.le_refl 0
      active := Nat.le_refl 0 }
  uncaptured := by simp [mainState]
  sorted := .nil
  active := rfl
  gotos := rfl
  breaks := by simp [mainState]

theorem lowerChunk_ok {body : Block} {p : Proto α} (h : lowerChunk body = .ok p)
    {ev : Nat → Env V → Eval V σ ε (Flow × Env V)}
    (hbody : Executes (α := α) P false [] [] (block true true body) ev) :
    ∃ t : LowerState α, Code P false (mainState α) ev t ∧
      p = (t.fs.emit (encodeAbc .return 0 1 0)).proto 0 true body := by
  have hmain : Ensures (functionBody [] (block true true body)) (mainState α) fun _ u =>
      ∃ t : LowerState α, Code P false (mainState α) ev t ∧
        u.fs = t.fs.emit (encodeAbc .return 0 1 0) := by
    simp only [functionBody, pushParams, ensures_bind, ensures_pure, ensures_getFs]
    refine (hbody (mainState α) sited_mainState rfl).mono fun _ t ht => ?_
    rw [ht.1.sited.gotos, patchPending, ensures_pure, ensures_discard, ensures_codeAbc]
    exact ⟨t, ht.1, rfl⟩
  have hlower : (functionBody [] (block true true body) (mainState α) >>= fun r =>
      pure (r.2.fs.proto 0 true body) : Except LowerError (Proto α)) = .ok p := h
  cases hrun : functionBody [] (block true true body) (mainState α) with
  | error e =>
      rw [hrun] at hlower
      cases hlower
  | ok r =>
      rw [hrun] at hlower
      cases hlower
      obtain ⟨t, ht, hfs⟩ := hmain r.1 r.2 hrun
      exact ⟨t, ht, by rw [hfs]⟩

/--
```
local x = 1
while true do
  if x == 5 then break end
  x = x + 2
end
return x
```
-/
def countToFive : Block := .mk [
  .localDecl ["x"] [.int 1],
  .while (.bool true) (.mk [
    .ifs [.mk (.bin .eq (.name "x") (.int 5)) (.mk [.break])] none,
    .assign [.name "x"] [.bin .add (.name "x") (.int 2)]]),
  .return [.name "x"]]

end Chunk

end Luatier.Lowering
