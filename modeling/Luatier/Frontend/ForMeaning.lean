import Luatier.Frontend.LoopMeaning

/-!
# The code of a numeric loop

Index, limit and step stand in three registers below the loop variable, which no local
of the body has.
-/

namespace Luatier.Lowering

open Realising

variable {α V σ ε X Y Z : Type}

section Control

variable {P : Primitives V σ ε} {p : Proto α} {names : List Name} {ρ : Env V}
  {s t u : LowerState α} {c c' : Config V σ}

theorem RowCode.nil {first : Nat} : RowCode P ρ s first 0 (pure []) s := by
  refine ⟨.refl s, fun p _ _ _ _ n c hpc _ Y k post hend => ?_⟩
  rw [pure_bind]
  exact hend [] c hpc (.refl _ c) ⟨rfl, between_self⟩

theorem placed_int {first : Nat} {m : Int} (hm : Fits m) (k : Int64) (hk : Int64.ofInt m = k) :
    Placed P ρ s (evalExpr P ρ (.int k)) first
      { s with fs := s.fs.emit (encodeAsbx .loadInt first m) } := by
  refine ⟨(Extends.refl s).emit _, Nat.le_refl _, fun p _ _ hlt hagree => ?_⟩
  rw [evalExpr, ← hk]
  exact (leads_single (fun _ => pure (P.const (.int (Int64.ofInt m)))) (Nat.le_refl first) rfl
    hagree (fun _ => exec_loadInt hlt hm) fun _ _ => rfl).delivers

theorem forControl_ok {start limit : Expr} {step : Option Expr}
    (hstart : Correct α P ρ names start) (hlimit : Correct α P ρ names limit)
    (hstep : ∀ e, step = some e → Correct α P ρ names e) (hready : Ready s)
    (hnames : s.fs.locals.map Local.name = names) :
    Ensures (do
      exp2place s.fs.freereg (expr start)
      exp2place (s.fs.freereg + 1) (expr limit)
      forStep s.fs.freereg (step.map expr)) s fun _ t =>
        RowCode P ρ s s.fs.freereg 3 (evalExpr P ρ start >>= fun v =>
          (evalExpr P ρ limit >>= fun w => (evalExpr P ρ (step.getD (.int 1)) >>= fun k =>
            pure [] >>= fun vs => pure (k :: vs)) >>= fun vs => pure (w :: vs)) >>= fun vs =>
              pure (v :: vs)) t ∧
        t.fs.freereg = s.fs.freereg + 3 := by
  simp only [exp2place, ensures_bind, ensures_setFreereg]
  have hactive : s.fs.nactvar ≤ s.fs.freereg := hready.free
  refine hstart.value.toPlace s.fs.freereg hready hnames hactive (Nat.le_refl _) fun t ht => ?_
  let t₁ : LowerState α := { t with fs := t.fs.setFreereg (s.fs.freereg + 1) }
  have hgrown₁ : Extends s t₁ := ht.grown.setFreereg _
  have hready₁ : Ready t₁ := hready.extends hgrown₁ (Nat.le_succ _)
  have hactive₁ : t₁.fs.nactvar ≤ s.fs.freereg + 1 := by
    rw [hgrown₁.nactvar]
    exact Nat.le_succ_of_le hactive
  refine hlimit.value.toPlace (s := t₁) (s.fs.freereg + 1) hready₁
    (by rw [hgrown₁.locals, hnames]) hactive₁ (Nat.le_refl _) fun u hu => ?_
  let u₁ : LowerState α := { u with fs := u.fs.setFreereg (s.fs.freereg + 1 + 1) }
  have hgrown₂ : Extends t₁ u₁ := hu.grown.setFreereg _
  have hready₂ : Ready u₁ := hready₁.extends hgrown₂ (Nat.le_succ _)
  have hactive₂ : u₁.fs.nactvar ≤ s.fs.freereg + 2 := by
    rw [hgrown₂.nactvar]
    exact Nat.le_succ_of_le hactive₁
  have hrow {w : LowerState α}
      (hw : Placed P ρ u₁ (evalExpr P ρ (step.getD (.int 1))) (s.fs.freereg + 2) w) :=
    RowCode.cons hready hactive ht (RowCode.cons hready₁ hactive₁ hu
      (RowCode.cons hready₂ hactive₂ hw RowCode.nil))
  cases step with
  | none =>
      simp only [Option.map_none, forStep, ensures_bind, ensures_discard, ensures_codeAsbx,
        ensures_setFreereg]
      exact ⟨hrow (placed_int ⟨by decide, by decide⟩ 1 rfl), rfl⟩
  | some e =>
      simp only [Option.map_some, forStep, exp2place, ensures_bind, ensures_setFreereg]
      refine (hstep e rfl).value.toPlace (s := u₁) (s.fs.freereg + 2) hready₂
        (by rw [hgrown₂.locals, hgrown₁.locals, hnames]) hactive₂ (Nat.le_refl _) fun w hw => ?_
      exact ⟨hrow hw, rfl⟩

theorem pushLoopVar_pushed {base : Nat} {name : Name} (hs : Sited s)
    (hfree : s.fs.freereg = base + 3) :
    Ensures (pushLoopVar base name) s fun _ t =>
      Pushed { s with fs := s.fs.reserved 1 } (base + 3) [name] t ∧ t.fs.freereg = base + 4 := by
  simp only [pushLoopVar, pushLocal, checkLimit, ensures_bind, ensures_newReg, ensures_getFs,
    ensures_ite, ensures_throw, ensures_pure, ensures_modifyFs]
  refine fun _ => ⟨fun _ => trivial, fun _ => ?_⟩
  have hlocals : (s.fs.locals ++ [(⟨name, s.fs.freereg, false⟩ : Local)]).modify
      ((s.fs.locals ++ [(⟨name, s.fs.freereg, false⟩ : Local)]).length - 1)
        (fun l => { l with reg := base + 3 }) = s.fs.locals ++ declared (base + 3) [name] :=
    modify_last _ _ _
  refine ⟨⟨rfl, rfl, rfl, rfl, rfl, rfl, rfl, hlocals, fun _ => ?_⟩, trivial⟩
  have hactive : s.fs.nactvar ≤ base + 3 := hfree ▸ hs.ready.free
  refine (congrArg activeVars hlocals).trans ?_
  rw [activeVars_append, hs.active, activeVars_declared _ _ (List.cons_ne_nil _ _)]
  exact Nat.max_eq_right (Nat.le_succ_of_le hactive)

end Control

/-! ## The loop -/

section Loops

variable {P : Primitives V σ ε} {p : Proto α} {s t u : LowerState α} {inLoop : Bool}
  {names : List Name} {c : Config V σ}

theorem advance_forLoop {varargs : List V} {base dest : Nat} {idx : V} (hsmall : Small p)
    (hbase : base < 256)
    (hi : p.code[c.pc]? = some (encodeAsbx .forLoop base ((dest : Int) - (c.pc + 1))))
    (hdest : dest ≤ p.code.length)
    (hloop : P.forLoop (c.regs base) (c.regs (base + 1)) (c.regs (base + 2)) = some idx) :
    advance P p varargs c = .ok { (c.set base idx).set (base + 3) idx with pc := dest } := by
  have hpc : c.pc + 1 ≤ p.code.length := (List.getElem?_eq_some_iff.mp hi).1
  have hfits : Fits ((dest : Int) - (c.pc + 1)) := hsmall.fits hpc hdest
  have hsbx := (sbx_encodeAsbx_iff (α := α) .forLoop base _).mpr hfits
  have heq : (((c.pc + 1 : Nat) : Int) + ((dest : Int) - (c.pc + 1))).toNat = dest := by omega
  rw [advance, hi]
  simp only [exec, op_encodeAsbx, a_encodeAsbx, Nat.mod_eq_of_lt hbase, hloop, hsbx, Config.jump,
    Config.set, heq]

theorem advance_forLoop_none {varargs : List V} {base : Nat} {k : Int} (hbase : base < 256)
    (hi : p.code[c.pc]? = some (encodeAsbx .forLoop base k))
    (hloop : P.forLoop (c.regs base) (c.regs (base + 1)) (c.regs (base + 2)) = none) :
    advance P p varargs c = .ok { c with pc := c.pc + 1 } := by
  rw [advance, hi]
  simp only [exec, op_encodeAsbx, a_encodeAsbx, Nat.mod_eq_of_lt hbase, hloop]

theorem exec_forPrep {varargs : List V} {base : Nat} {k : Int} (hbase : base < 256)
    (hk : Fits k) :
    exec P p varargs (encodeAsbx .forPrep base k) c =
      operate (P.forPrep (c.regs base) (c.regs (base + 1)) (c.regs (base + 2)))
        (fun r c => (((c.set base r.1).set (base + 1) r.2.1).set (base + 2) r.2.2).jump k) c := by
  have hsbx := (sbx_encodeAsbx_iff (α := α) .forPrep base k).mpr hk
  simp only [exec, op_encodeAsbx, a_encodeAsbx, Nat.mod_eq_of_lt hbase, hsbx]

theorem between_three {first : Nat} : c.between first (first + 3) =
    [c.regs first, c.regs (first + 1), c.regs (first + 2)] := by
  rw [Config.between, Nat.add_sub_cancel_left]
  rfl

/-- The variables of a loop stand above the three registers that control it. -/
structure Entered (s v : LowerState α) (base : Nat) (vars : List Name) : Prop where
  grown : Grown s v
  locals : v.fs.locals = s.fs.locals ++ declared (base + 3) vars
  nactvar : v.fs.nactvar = base + 3 + vars.length

section Entered

variable {v : LowerState α} {ρ ρ₁ ρ' : Env V} {c₁ c₂ c' : Config V σ} {base r : Nat}
  {vars : List Name} {fs : FuncState α} (hs : Sited s) (hactive : s.fs.nactvar ≤ base)
  (h : Entered s v base vars)
include hs hactive h

theorem Entered.ran {values : List V} (hran : Ran s s.fs ρ c ρ₁ c₁) (hsame : Same base c₁ c₂)
    (hvalues : c₂.between (base + 3) (base + 3 + vars.length) = values) :
    Ran s v.fs ρ c (ρ₁.push vars values) c₂ := by
  have hran' : Ran s s.fs ρ c ρ₁ c₂ := hran.same hs rfl hactive hsame
  refine ⟨⟨?_, hran'.holds.env⟩, hran'.varargs, hran'.hidden⟩
  rw [h.locals, List.map_append, hran'.holds.scope, map_declared, hvalues]
  rfl

theorem Entered.control (hran : Ran v fs ρ₁ c₁ ρ' c') (hlo : base ≤ r) (hhi : r < base + 3) :
    c'.regs r = c₁.regs r := by
  refine hran.hidden r (by rw [h.nactvar]; omega) fun l hl => ?_
  rw [h.locals] at hl
  rcases List.mem_append.mp hl with hl | hl
  · have := hs.ready.locals l hl
    omega
  · have := (mem_declared vars (base + 3) l hl).2.1
    omega

end Entered

structure AtRound (s : LowerState α) (ρ : Env V) (c : Config V σ) (base pc : Nat) (limit step : V)
    (x : V × Env V) (c' : Config V σ) : Prop where
  pc : c'.pc = pc
  index : c'.regs base = x.1
  limit : c'.regs (base + 1) = limit
  step : c'.regs (base + 2) = step
  ran : Ran s s.fs ρ c x.2 c'

theorem realises_forRounds {v : LowerState α} {ρ : Env V} {c' : Config V σ} {name : Name}
    {body : Block} {limit step : V} {base fuel n : Nat} (hs : Sited s) (hsmall : Small p)
    (hactive : s.fs.nactvar ≤ base) (hbase : base < 256) (hin : Entered s v base [name])
    (hvu : Grown v u) (hbody : Runs P p fuel (u.fs.pc + 1) v u (execBlock P fuel body))
    (hloop : p.code[u.fs.pc]? =
      some (encodeAsbx .forLoop base ((v.fs.pc : Int) - (u.fs.pc + 1)))) {x : V × Env V}
    (hn : n ≤ fuel) (hstart : AtRound s ρ c base u.fs.pc limit step x c')
    {k : Env V → Eval V σ ε Y} {post : Y × σ → Config V σ → Prop}
    (hstop : ∀ ρ' c', c'.pc = u.fs.pc + 1 → Ran s s.fs ρ c ρ' c' →
      Realises (advance P p ρ.varargs) n c' (k ρ' c'.world) post) :
    Realises (advance P p ρ.varargs) n c'
      ((rounds (forRound P name limit step (execBlock P fuel body)) fuel x >>= k) c'.world)
      post := by
  have hlength : v.fs.pc ≤ p.code.length := by
    have := hvu.pc
    have := (List.getElem?_eq_some_iff.mp hloop).1
    omega
  refine realises_rounds (AtRound s ρ c base u.fs.pc limit step)
    (fun ρ' c' => c'.pc = u.fs.pc + 1 ∧ Ran s s.fs ρ c ρ' c') ?_ hn hstart ?_
  · intro n x c₃ hn₃ hat k₁ post₁ hstop hagain
    rw [← hat.pc] at hloop
    rw [forRound]
    cases hfor : P.forLoop x.1 limit step with
    | none =>
        rw [← hat.index, ← hat.limit, ← hat.step] at hfor
        show Realises _ n c₃ ((pure (.inl x.2) >>= k₁) c₃.world) post₁
        rw [pure_bind]
        refine Realises.onward (advance_forLoop_none hbase hloop hfor) ?_
        exact hstop x.2 { c₃ with pc := c₃.pc + 1 } ⟨congrArg (· + 1) hat.pc, hat.ran.moved _⟩
    | some idx =>
        rw [← hat.index, ← hat.limit, ← hat.step] at hfor
        show Realises _ n c₃ (((afterBody x.2 (idx, ·) <$>
          execBlock P fuel body (x.2.push [name] [idx])) >>= k₁) c₃.world) post₁
        rw [bind_map_left]
        refine Realises.back (advance_forLoop hsmall hbase hloop hlength hfor) ?_
        let c₄ : Config V σ := { (c₃.set base idx).set (base + 3) idx with pc := v.fs.pc }
        have hsame₄ : Same base c₃ c₄ :=
          ⟨(((Same.refl base c₃).set (Nat.le_refl _) idx).set (Nat.le_add_right _ 3) idx).regs,
            rfl⟩
        have hran₄ : Ran s v.fs ρ c (x.2.push [name] [idx]) c₄ := by
          refine hin.ran hs hactive hat.ran hsame₄ ?_
          rw [List.length_singleton, between_cons (n := 0), between_self]
          simp [c₄, Config.set]
        rw [← hran₄.varargs] at hstop hagain ⊢
        refine hbody (n - 1) _ c₄ (by omega) rfl hran₄.holds Y _ post₁
          (fun ρ₅ c₅ hpc₅ hran₅ => ?_) fun ρ₅ c₅ hpc₅ hran₅ => ?_
        · refine hagain (idx, ρ₅.take x.2.depth) c₅ ⟨hpc₅, ?_, ?_, ?_, ?_⟩
          · rw [hin.control hs hactive hran₅ (by omega) (by omega)]
            simp [c₄, Config.set]
          · rw [hin.control hs hactive hran₅ (by omega) (by omega), ← hat.limit]
            simp [c₄, Config.set]
          · rw [hin.control hs hactive hran₅ (by omega) (by omega), ← hat.step]
            simp [c₄, Config.set]
          · rw [hat.ran.holds.depth]
            exact (Ran.trans hin.grown hran₄ hran₅).first (hin.grown.trans hvu)
        · refine (hstop (ρ₅.take x.2.depth) c₅ ⟨hpc₅, ?_⟩).mono (Nat.sub_le n 1) fun _ _ h => h
          rw [hat.ran.holds.depth, ← take_take ρ₅ hin.grown]
          exact (Ran.trans hin.grown hran₄ hran₅).first hin.grown
  · rintro ρ' c' ⟨hpc', hran'⟩
    exact hstop ρ' c' hpc' hran'

theorem runs_forNum {v : LowerState α} {name : Name} {start limit : Expr} {step : Option Expr}
    {body : Block} {base fuel : Nat} (hs : Sited s) (hsmall : Small p)
    (hactive : s.fs.nactvar ≤ base) (hbase : base < 256) (hin : Entered s v base [name])
    (hvu : Grown v u) (hbody : Runs P p fuel (u.fs.pc + 1) v u (execBlock P fuel body))
    (hcontrol : ∀ ρ : Env V, Delivers P p ρ base s t (evalExpr P ρ start >>= fun v =>
      (evalExpr P ρ limit >>= fun w => (evalExpr P ρ (step.getD (.int 1)) >>= fun k =>
        pure [] >>= fun vs => pure (k :: vs)) >>= fun vs => pure (w :: vs)) >>= fun vs =>
          pure (v :: vs)) fun values c =>
        values.length = 3 ∧ c.between base (base + 3) = values)
    (hprep : p.code[t.fs.pc]? =
      some (encodeAsbx .forPrep base ((u.fs.pc : Int) - (t.fs.pc + 1))))
    (hloop : p.code[u.fs.pc]? =
      some (encodeAsbx .forLoop base ((v.fs.pc : Int) - (u.fs.pc + 1)))) :
    RunsTo P p (u.fs.pc + 1) fuel s
      (execStmt P fuel (.forNum name start limit step body)) := by
  intro n ρ c hn hpc hholds Y k post hnext
  let go : V → V → V → Eval V σ ε Y := fun x y z =>
    lift (P.forPrep x y z) >>= fun r =>
      rounds (forRound P name r.2.1 r.2.2 (execBlock P fuel body)) fuel (r.1, ρ) >>= fun ρ' =>
        k (.next, ρ')
  have hexec : (execStmt P fuel (.forNum name start limit step body) ρ >>= k) =
      (evalExpr P ρ start >>= fun v =>
        (evalExpr P ρ limit >>= fun w => (evalExpr P ρ (step.getD (.int 1)) >>= fun k =>
          pure [] >>= fun vs => pure (k :: vs)) >>= fun vs => pure (w :: vs)) >>= fun vs =>
            pure (v :: vs)) >>= fun vs =>
              go (vs.getD 0 P.nil) (vs.getD 1 P.nil) (vs.getD 2 P.nil) := by
    cases step with
    | none =>
        simp only [execStmt, Option.getD_none, evalExpr, bind_assoc, pure_bind]
        rfl
    | some e =>
        simp only [execStmt, Option.getD_some, bind_assoc, pure_bind]
        rfl
  rw [hexec]
  refine hcontrol ρ n c hpc hholds Y _ post fun values c₁ hpc₁ hsame hvalues => ?_
  obtain ⟨-, hbetween⟩ := hvalues
  rw [between_three] at hbetween
  rw [← hbetween]
  show Realises _ n c₁ ((lift (P.forPrep (c₁.regs base) (c₁.regs (base + 1))
    (c₁.regs (base + 2))) >>= _) c₁.world) post
  rw [← hpc₁] at hprep
  have hlength : c₁.pc + 1 ≤ p.code.length := (List.getElem?_eq_some_iff.mp hprep).1
  have hend : u.fs.pc ≤ p.code.length :=
    Nat.le_of_lt (List.getElem?_eq_some_iff.mp hloop).1
  have hfits : Fits ((u.fs.pc : Int) - (c₁.pc + 1)) := hsmall.fits hlength hend
  refine realises_operate hprep (exec_forPrep hbase hfits) fun r world => ?_
  refine realises_forRounds hs hsmall hactive hbase hin hvu hbody hloop hn ?_
    fun ρ' c' hpc' hran' => hnext ρ' c' hpc' hran'
  have hsame₂ : Same base c₁
      (((c₁.set base r.1).set (base + 1) r.2.1).set (base + 2) r.2.2) :=
    (((Same.refl base c₁).set (Nat.le_refl _) _).set (Nat.le_add_right _ 1) _).set
      (Nat.le_add_right _ 2) _
  refine ⟨?_, ?_, ?_, ?_, ?_⟩
  · show (((c₁.pc + 1 : Nat) : Int) + ((u.fs.pc : Int) - (c₁.pc + 1))).toNat = u.fs.pc
    omega
  · simp [Config.jump, Config.set]
  · simp [Config.jump, Config.set]
  · simp [Config.jump, Config.set]
  · exact (Ran.refl hholds).same hs rfl hactive (hsame.trans ⟨hsame₂.regs, rfl⟩)

theorem Code.setFreereg {ev : Nat → Env V → Eval V σ ε (Flow × Env V)} {m : Nat}
    (h : Code P inLoop s ev t) (hm : t.fs.nactvar ≤ m) :
    Code P inLoop s ev { t with fs := t.fs.setFreereg m } := by
  have hextends : Extends t { t with fs := t.fs.setFreereg m } := (Extends.refl t).setFreereg m
  refine ⟨h.grown.trans hextends.onward, h.sited.extends hextends hm, h.quiet, ?_⟩
  intro p fuel exit hsmall hcovers hexit hfollows n ρ c hn hpc hholds Y k post hnext hbroke
  refine h.runs p fuel exit hsmall ⟨hcovers.constants, hcovers.maxstack⟩ hexit hfollows n ρ c hn
    hpc hholds Y k post (fun ρ' c' hpc' hran => ?_) hbroke
  exact hnext ρ' c' hpc' (hran.within rfl)

theorem Grown.leaveBlock (hg : Grown s t) (ht : Sited t) :
    t.fs.leaveBlock s.fs.locals.length false = t.fs.leaveOpen s.fs.locals := by
  rw [leaveBlock_uncaptured ht.uncaptured, if_neg Bool.false_ne_true, hg.take_locals]

theorem Looped.released {ev : Nat → Env V → Eval V σ ε (Flow × Env V)} {base : Nat}
    (hs : Sited s) (hnames : s.fs.locals.map Local.name = names) (h : Looped P s ev u)
    (hactive : s.fs.nactvar ≤ base) :
    Code P inLoop s ev
        { u with fs := (u.fs.fixBreaks s.fs.breakList.length u.fs.pc).setFreereg base } ∧
      ((u.fs.fixBreaks s.fs.breakList.length u.fs.pc).setFreereg base).locals.map Local.name =
        names ++ [] := by
  have hfixed : Code P inLoop s _ _ ∧ _ := h.fixed hs hnames rfl
  have hnact : (u.fs.fixBreaks s.fs.breakList.length u.fs.pc).nactvar ≤ base := by
    rw [fixBreaks_eq]
    show u.fs.nactvar ≤ base
    rw [← h.sited.active, h.locals, hs.active]
    exact hactive
  exact ⟨hfixed.1.setFreereg hnact, hfixed.2⟩

theorem executes_forNum {name : Name} {start limit : Expr} {step : Option Expr} {body : Block}
    (hstart : ∀ ρ : Env V, Correct α P ρ names start)
    (hlimit : ∀ ρ : Env V, Correct α P ρ names limit)
    (hstep : ∀ e, step = some e → ∀ ρ : Env V, Correct α P ρ names e)
    (hbody : Executes (α := α) P true (names ++ [name]) [] (block true true body)
      (execBlock P · body)) :
    Executes (α := α) P inLoop names []
      (lowerForNum name (expr start) (expr limit) (step.map expr) (block true true body))
      fun fuel => execStmt P fuel (.forNum name start limit step body) := by
  intro s hs hnames
  have hcontrol (ρ : Env V) := forControl_ok (P := P) (hstart ρ) (hlimit ρ)
    (fun e he => hstep e he ρ) hs.ready hnames
  have hshape : (lowerForNum name (expr start) (expr limit) (step.map expr)
      (block true true body) : Lower α Unit) = (do
        let base := (← getFs).freereg
        (do exp2place base (expr start)
            exp2place (base + 1) (expr limit)
            forStep base (step.map expr))
        let prep ← codeAsbx .forPrep base 0
        let loop := (← getFs).pc
        let beforeI := (← getFs).locals.length
        pushLoopVar base name
        let breaksBefore := (← getFs).breakList.length
        Lowering.inLoop (base + 3) (block true true body)
        modifyFs (·.leaveBlock beforeI false)
        let forloopPc ← codeAsbx .forLoop base (loop - ((← getFs).pc + 1))
        fixSbx prep forloopPc
        let afterFor := (← getFs).pc
        modifyFs (·.fixBreaks breaksBefore afterFor)
        setFreereg base) := by
    simp only [lowerForNum, bind_assoc]
  rw [hshape, ensures_bind, ensures_getFs, ensures_bind]
  refine (Ensures.all hcontrol).mono fun _ t ht => ?_
  have hfree : t.fs.freereg = s.fs.freereg + 3 := (ht ⟨[], P.nil, []⟩).2
  have hgrown₁ : Extends s t := (ht ⟨[], P.nil, []⟩).1.grown
  generalize hbase : s.fs.freereg = base at *
  have hactive : s.fs.nactvar ≤ base := hbase ▸ hs.ready.free
  simp only [Lowering.inLoop, ensures_bind, ensures_codeAsbx, ensures_getFs, ensures_modifyFs,
    ensures_fixSbx, ensures_setFreereg]
  let t₁ : LowerState α := { t with fs := t.fs.emit (encodeAsbx .forPrep base 0) }
  have hgrown₂ : Extends s t₁ := hgrown₁.emit _
  have hsitedt : Sited t := hs.extends hgrown₁ (by omega)
  have hsited₁ : Sited t₁ := hs.extends hgrown₂ (by
    show _ ≤ t.fs.freereg
    omega)
  refine (pushLoopVar_pushed (s := t₁) hsited₁ hfree).mono fun _ v hv => ?_
  obtain ⟨hpushed, hfreev⟩ := hv
  let t₂ : LowerState α := { t₁ with fs := t₁.fs.reserved 1 }
  have hgrown₃ : Extends t₁ t₂ := (Extends.refl t₁).reserved 1
  have hsited₂ : Sited t₂ := hsited₁.extends hgrown₃ (Nat.le_succ_of_le hsited₁.ready.free)
  have hactive₂ : t₂.fs.nactvar ≤ base + 3 := hfree ▸ hsited₁.ready.free
  have hne : [name] ≠ [] := List.cons_ne_nil _ _
  have hveq : { v with fs := v.fs.setFreereg (base + 4) } = v := by
    rw [← hfreev]
    rfl
  have hnactvar : v.fs.nactvar = base + 4 := hpushed.nactvar hsited₂ hne hactive₂
  have hgrownv : Grown t₂ v := hveq ▸ hpushed.grown hsited₂ hne hactive₂ (base + 4)
  have hsitedv : Sited v := by
    refine hveq ▸ hpushed.sited hsited₂ hne hactive₂ ?_ (base + 4) (Nat.le_of_eq hnactvar)
    show base + 3 + 1 ≤ max t₁.fs.maxstack (t.fs.freereg + 1)
    omega
  have hlocalsv : v.fs.locals = s.fs.locals ++ declared (base + 3) [name] :=
    hpushed.locals.trans (congrArg (· ++ _) hgrown₂.locals)
  let v₁ : LowerState α := { v with fs := { v.fs with
    loopBreakLevel := v.fs.loopBreakLevel ++ [base + 3] } }
  have hgrownt₁v : Grown t₁ v₁ := (hgrown₃.onward.trans hgrownv).level _
  have hgrowntv : Grown t v₁ := ((Extends.refl t).emit _).onward.trans hgrownt₁v
  have hgrownv₁ : Grown s v₁ := hgrown₁.onward.trans hgrowntv
  refine (hbody v₁ (hsitedv.level _) ?_).mono fun _ b hb => ?_
  · show v.fs.locals.map Local.name = _
    rw [hlocalsv, List.map_append, map_name_declared, hnames]
  obtain ⟨hb, -⟩ := hb
  have hlocals₂ : t₁.fs.locals.length = s.fs.locals.length :=
    congrArg List.length hgrown₂.locals
  have hbreaksv : v.fs.breakList = s.fs.breakList :=
    hpushed.breakList.trans hgrown₂.breakList
  have hgrownb : Grown s b := hgrownv₁.trans hb.grown
  let b₁ : LowerState α := { b with fs := { b.fs with
    loopBreakLevel := b.fs.loopBreakLevel.dropLast } }
  have hgrownb₁ : Grown s b₁ := hgrownb.level _
  have hsitedb₁ : Sited b₁ := hb.sited.level _
  have hleave : b₁.fs.leaveBlock t₁.fs.locals.length false = b₁.fs.leaveOpen s.fs.locals := by
    rw [hlocals₂, hgrownb₁.leaveBlock hsitedb₁]
  show _ ∧ _
  rw [hleave, hbreaksv]
  let b₂ : LowerState α := { b₁ with fs := b₁.fs.leaveOpen s.fs.locals }
  have hgrownb₂ : Grown s b₂ := hgrownb₁.leaveOpen hs
  have hsitedb₂ : Sited b₂ := hs.leaveOpen hsitedb₁ hgrownb₁
  let b₃ : LowerState α := { b₂ with
    fs := b₂.fs.emit (encodeAsbx .forLoop base ((t₁.fs.pc : Int) - (b₂.fs.pc + 1))) }
  have hemit : Extends b₂ b₃ := (Extends.refl b₂).emit _
  let b₄ : LowerState α := { b₃ with fs := b₃.fs.fixSbx t.fs.pc b₂.fs.pc }
  have hpct : t₁.fs.pc = t.fs.pc + 1 := pc_emit _ _
  have hpcv : v₁.fs.pc = t₁.fs.pc := congrArg List.length hpushed.code
  have hpcb : v₁.fs.pc ≤ b.fs.pc := hb.grown.pc
  have hpc₃ : b₃.fs.pc = b.fs.pc + 1 := pc_emit _ _
  have hpc₄ : b₄.fs.pc = b₃.fs.pc := fixSbx_pc _ _ _
  have hspc : s.fs.pc ≤ t.fs.pc := hgrown₁.pc
  have hfresh : t.fs.pc ∉ b.fs.breakList := by
    refine hb.grown.not_break (by omega) ?_
    show t.fs.pc ∉ v.fs.breakList
    rw [hbreaksv]
    exact hs.not_break hspc
  have hgrown₄ : Grown s b₄ := (hgrownb₂.trans hemit.onward).fixSbx hspc hfresh _
  have hsited₄ : Sited b₄ := (hsitedb₂.extends hemit hsitedb₂.ready.free).fixSbx _ _
  have hlooped : Looped P s (fun fuel => execStmt P fuel (.forNum name start limit step body))
      b₄ := by
    refine ⟨hgrown₄, hsited₄, rfl, ?_⟩
    intro p fuel hsmall hcovers hfollows
    have hinner : Follows p b₄.fs s.fs.pc b₃.fs.pc b₄.fs.pc :=
      hfollows.mono (Nat.le_refl _) (Nat.le_of_eq hpc₄.symm)
    have hend : b₄.fs.pc ≤ p.code.length := by
      rw [hpc₄]
      exact hinner.le_length (by omega) (Nat.le_of_eq hpc₄.symm)
    have hfirst : Follows p b₃.fs s.fs.pc t.fs.pc b₄.fs.pc :=
      (hinner.mono (Nat.le_refl _) (by omega)).unfixed (.inl (Nat.le_refl _))
    have hfirstb : Follows p b.fs s.fs.pc t.fs.pc b₄.fs.pc :=
      hfirst.before (s := b₂) hemit.onward (by
        show t.fs.pc ≤ b.fs.pc
        omega)
    have hahead : Follows p t.fs s.fs.pc t.fs.pc b₄.fs.pc :=
      hfirstb.before (hgrowntv.trans hb.grown) (Nat.le_refl _)
    have hrow : Agree p t.fs s.fs.pc t.fs.pc :=
      hahead.agree hs hgrown₁.breakList (Nat.le_refl _)
    have hbehind : Follows p b₃.fs v₁.fs.pc b₃.fs.pc b₄.fs.pc :=
      (hinner.mono (by omega) (Nat.le_refl _)).unfixed (.inr (by omega))
    have hinside : Follows p b.fs v₁.fs.pc b.fs.pc b₄.fs.pc :=
      (hbehind.mono (Nat.le_refl _) (by omega)).before (s := b₂) hemit.onward (Nat.le_refl _)
    have hcoversb : Covers p b.fs := ⟨hcovers.constants, hcovers.maxstack⟩
    have hcoversv : Covers p v₁.fs := hcoversb.onward hb.grown
    have hcoverst : Covers p t.fs := hcoversv.onward hgrowntv
    have hstack : base + 4 ≤ 200 := by
      have hle := hsitedv.ready.active
      rw [hnactvar] at hle
      exact hle.trans (hcoversv.maxstack.trans hsmall.maxstack)
    have hprep : p.code[t.fs.pc]? =
        some (encodeAsbx .forPrep base ((b.fs.pc : Int) - (t.fs.pc + 1))) := by
      refine hinner.fixed hspc (by omega) hfresh (by omega)
        ((getElem?_grown ((hgrownt₁v.trans hb.grown).code.trans hemit.code) ?_).trans
          (emit_last rfl))
      show t.fs.pc < t₁.fs.pc
      omega
    have hloop : p.code[b.fs.pc]? =
        some (encodeAsbx .forLoop base ((v₁.fs.pc : Int) - (b.fs.pc + 1))) := by
      rw [hbehind.unbroken (by omega) (by omega) (hb.sited.not_break (Nat.le_refl _)), hpcv]
      exact emit_last rfl
    have hexit : b₄.fs.pc = b.fs.pc + 1 := hpc₄.trans hpc₃
    rw [hexit] at hend hinside ⊢
    exact runs_forNum hs hsmall hactive (by omega) ⟨hgrownv₁, hlocalsv, hnactvar⟩ hb.grown
      (hb.runs p fuel (b.fs.pc + 1) hsmall hcoversb hend hinside)
      (fun ρ => (ht ρ).1.delivers p hsmall hcoverst (by omega) hrow) hprep hloop
  have hreleased : Code P inLoop s _ _ ∧ _ := hlooped.released hs hnames hactive
  exact hreleased

end Loops

end Luatier.Lowering
