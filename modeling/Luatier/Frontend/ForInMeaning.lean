import Luatier.Frontend.ForMeaning

/-!
# The code of a generic loop

Iterator, state and control value stand in three registers below the loop variables. A round
begins with the call of the iterator, to which the loop jumps first.
-/

namespace Luatier.Lowering

open Realising

variable {α V σ ε X Y Z : Type}

section Iterators

variable {P : Primitives V σ ε} {p : Proto α} {names : List Name} {ρ : Env V}
  {s t u : LowerState α} {c c' : Config V σ}

structure MovedRow (P : Primitives V σ ε) (first dest n : Nat) (s t : LowerState α) : Prop where
  grown : Extends s t
  moves : ∀ p, Agree p t.fs s.fs.pc t.fs.pc → first + n < 256 → ∀ (varargs : List V) m c,
    c.pc = s.fs.pc → ∀ (Y : Type) (k : Eval V σ ε Y) (post : Y × σ → Config V σ → Prop),
      (∀ c', c'.pc = t.fs.pc → c'.world = c.world → Same dest c c' →
        c'.between dest (dest + n) = c.between first (first + n) →
        Realises (advance P p varargs) m c' (k c'.world) post) →
      Realises (advance P p varargs) m c (k c.world) post

theorem moveRow_ok {first dest : Nat} (h : dest < first) : ∀ (n j : Nat) (s : LowerState α),
    Ensures ((List.range' j n).forM fun j => moveTo (dest + j) (first + j)) s fun _ t =>
      t.fs.freereg = s.fs.freereg ∧ MovedRow P (first + j) (dest + j) n s t
  | 0, j, s => by
      rw [List.range'_zero, List.forM_eq_forM, List.forM_nil, ensures_pure]
      refine ⟨rfl, .refl s, fun p _ _ varargs m c hpc Y k post hend => ?_⟩
      exact hend c hpc rfl (.refl _ c) (between_self.trans between_self.symm)
  | n + 1, j, s => by
      have hne : first + j ≠ dest + j := by omega
      rw [List.range'_succ, List.forM_eq_forM, List.forM_cons, ← List.forM_eq_forM]
      simp only [ensures_bind, ensures_moveTo]
      refine ⟨fun heq => absurd heq hne, fun _ => ?_⟩
      let t : LowerState α := { s with
        fs := s.fs.emit (encodeAbc .move (dest + j) (first + j) 0) }
      have hst : Extends s t := (Extends.refl s).emit _
      refine (moveRow_ok h n (j + 1) t).mono fun _ u hu => ⟨hu.1, hst.trans hu.2.grown, ?_⟩
      intro p hagree hlast varargs m c hpc Y k post hend
      have hmove : p.code[c.pc]? = some (encodeAbc .move (dest + j) (first + j) 0) := by
        have hlt : s.fs.pc < t.fs.pc := by
          show s.fs.pc < (s.fs.emit _).pc
          rw [pc_emit]
          exact Nat.lt_succ_self _
        rw [hpc, hagree s.fs.pc (Nat.le_refl _) (Nat.lt_of_lt_of_le hlt hu.2.grown.pc),
          getElem?_grown hu.2.grown.code hlt]
        exact emit_last rfl
      refine realises_exec hmove (exec_move (by omega) (by omega)) ?_
      refine hu.2.moves p (hagree.mono hst.pc (Nat.le_refl _)) (by omega) varargs m _ ?_ Y k post
        fun c' hpc' hworld hsame hbetween => ?_
      · show c.pc + 1 = (s.fs.emit _).pc
        rw [hpc, pc_emit]
      · let c₁ : Config V σ := Config.set { c with pc := c.pc + 1 } (dest + j) (c.regs (first + j))
        have hkept (r : Nat) (hr : r ≠ dest + j) : c₁.regs r = c.regs r :=
          Config.set_of_ne _ _ _ hr
        have hsame₁ : Same (dest + (j + 1)) c₁ c' := hsame
        refine hend c' hpc' hworld ⟨fun r hr => ?_, hsame.upvals⟩ ?_
        · exact (hsame₁.regs r (by omega)).trans (hkept r (by omega))
        · have hdest : dest + j + (n + 1) = dest + (j + 1) + n := by omega
          have hfirst : first + j + (n + 1) = first + (j + 1) + n := by omega
          have hhead : c'.regs (dest + j) = c.regs (first + j) :=
            (hsame₁.regs (dest + j) (by omega)).trans (Config.set_self _ _ _)
          have hrest : c₁.between (first + (j + 1)) (first + (j + 1) + n) =
              c.between (first + (j + 1)) (first + (j + 1) + n) :=
            between_congr fun r hlo _ => hkept r (by omega)
          rw [between_cons, between_cons, hhead, hdest, hfirst]
          exact congrArg _ (hbetween.trans hrest)

theorem moveResults_ok {first dest n : Nat} (h : dest < first) :
    Ensures (moveResults first dest n) s fun _ t =>
      t.fs.freereg = s.fs.freereg ∧ MovedRow P first dest n s t := by
  have hmoves := moveRow_ok (P := P) h n 0 s
  rw [moveResults, Int.toNat_natCast, List.range_eq_range']
  exact hmoves

theorem RowCode.moved {first dest n : Nat} {ev : Eval V σ ε (List V)}
    (h : RowCode P ρ s first n ev t) (hm : MovedRow P first dest n t u) (hle : dest ≤ first)
    (hlimit : ∀ p : Proto α, Small p → Covers p u.fs → first + n < 255) :
    RowCode P ρ s dest n ev u := by
  refine ⟨h.grown.trans hm.grown, fun p hsmall hcovers _ hagree => ?_⟩
  have hlast := hlimit p hsmall hcovers
  intro m c hpc hholds Y k post hend
  refine h.delivers p hsmall (hcovers.before hm.grown) hlast
    ((hagree.mono (Nat.le_refl _) hm.grown.pc).before hm.grown (Nat.le_refl _)) m c hpc hholds Y k
    post fun values c₁ hpc₁ hsame₁ hvalues => ?_
  refine hm.moves p (hagree.mono h.grown.pc (Nat.le_refl _)) (by omega) ρ.varargs m c₁ hpc₁ Y
    (k values) post fun c₂ hpc₂ hworld hsame₂ hbetween => ?_
  exact hend values c₂ hpc₂ ((hsame₁.mono hle).trans hsame₂)
    ⟨hvalues.1, hbetween.trans hvalues.2⟩

/-- What is described is no call, as it is lowered in the main function. -/
def NotCall (e : Expr) : Prop :=
  ∀ s : LowerState α, Ready s → Ensures (expr e) s fun d _ => ∀ info, d ≠ .call info

def isAtom : Expr → Bool
  | .nil | .bool _ | .int _ | .float _ | .string _ | .name _ => true
  | _ => false

theorem notCall_atom {e : Expr} (h : isAtom e = true) : NotCall (α := α) e := by
  intro s hready
  cases e with
  | name name =>
      rw [expr]
      cases hlocal : s.fs.findLocal name with
      | some reg =>
          rw [ensures_local hlocal]
          exact fun info h => by cases h
      | none =>
          by_cases hname : name = "_ENV"
          · subst hname
            rw [ensures_upval hlocal hready.env]
            exact fun info h => by cases h
          · rw [ensures_global hready.main hlocal (hready.only name hname)]
            simp only [globalVar, ensures_bind, ensures_getFs]
            cases hlocal' : s.fs.findLocal "_ENV" with
            | some table =>
                simp only [ensures_bind, stringK]
                refine (ensures_constIndex _).mono fun i _ _ => ?_
                rw [ensures_pure]
                exact fun info h => by cases h
            | none =>
                simp only [ensures_bind, ensures_discard, stringK]
                rw [ensures_ensureEnvUpval hready.env]
                refine (ensures_constIndex _).mono fun i _ _ => ?_
                rw [ensures_pure]
                exact fun info h => by cases h
  | nil | bool | int | float | string =>
      exact ensures_pure.mpr fun info h => by cases h
  | _ => cases h

/-- The values of the iterators fill the control registers; what is missing is nil. -/
theorem fillControl_ok (base : Nat) : ∀ (es : List Expr) (i : Nat) (s : LowerState α),
    (∀ e ∈ es, Correct α P ρ names e) →
    (∀ e ∈ es.getLast?, e.isCall = true ∨ isAtom e = true) → i + es.length ≤ 3 → Ready s →
    s.fs.locals.map Local.name = names → s.fs.nactvar ≤ base + i → base + i ≤ s.fs.freereg →
    s.fs.freereg ≤ base + 3 → base + 3 ≤ s.fs.maxstack →
    Ensures (fillControl base i i (exprItems es)) s fun filled t =>
      Ensures (padNil base 3 filled) t fun _ u =>
        RowCode P ρ s (base + i) (3 - i) (evalUpTo P ρ (3 - i) es) u
  | [], i, s, _, _, hlen, hready, _, hactive, _, _, _ => by
      rw [exprItems, fillControl, ensures_pure, padNil]
      exact (padNil_ok (P := P) (ρ := ρ) base (3 - i) i s hactive hready).mono fun _ u hu => hu.2
  | e :: es, i, s, hcorrect, hends, hlen, hready, hnames, hactive, hfree, hhigh, hstack => by
      have he := hcorrect e List.mem_cons_self
      rw [List.length_cons] at hlen
      rw [exprItems, fillControl]
      simp only [ensures_bind, ensures_getFs, ensures_setFreereg]
      let m := max s.fs.freereg (base + i + 1)
      let s₁ : LowerState α := { s with fs := s.fs.setFreereg m }
      have hm : s.fs.nactvar ≤ m := by omega
      have hready₁ : Ready s₁ :=
        ⟨hready.main, hready.env, hready.only, hready.locals, hm, hready.active⟩
      by_cases hcall : es = [] ∧ e.isCall = true
      · obtain ⟨rfl, hcall⟩ := hcall
        cases e with
        | call callee args method =>
            have hneed : (3 : Int) - i = ((3 - i : Nat) : Int) := by omega
            have hrow := rowCall_ok (n := 3 - i) he rfl hready hm hnames
            have hdesc := he.call callee args method rfl s₁ hready₁ hnames
            refine (hrow.and hdesc).mono ?_
            rintro _ t ⟨ht, b, _, _, rfl, -⟩
            simp only [exprItems, ensures_bind, ensures_setFreereg, ensures_pure, hneed]
            refine ht.mono ?_
            rintro _ u ⟨rfl, hu⟩
            have hlt : base + i < m := by omega
            refine (moveResults_ok (P := P) hlt).mono fun _ v hv => ?_
            have hpad : (padNil base 3 3 : Lower α Unit) = pure () := rfl
            rw [hpad, ensures_pure]
            refine RowCode.setFreereg ?_ _
            have heval : evalUpTo P ρ (3 - i) [.call callee args method] =
                evalMulti P ρ (some (3 - i)) (.call callee args method) := by
              rw [evalUpTo, List.isEmpty_nil, Bool.true_and, if_pos (by rfl)]
            rw [heval]
            refine hu.moved hv.2 (Nat.le_of_lt hlt) fun p hsmall hcovers => ?_
            have := (hu.grown.trans hv.2.grown).maxstack
            have := hcovers.maxstack
            have := hsmall.maxstack
            omega
        | _ => cases hcall
      · have hsingle : es = [] → isAtom e = true := by
          rintro rfl
          have hlast := hends e (by rw [List.getLast?_singleton]; rfl)
          exact hlast.resolve_left fun h => hcall ⟨rfl, h⟩
        have hlast : es = [] → listKind e = .single := fun hes => by
          have := hsingle hes
          cases e <;> first | rfl | cases this
        have hplace := he.value.toPlace (s := s₁) (base + i) hready₁ hnames hactive
          (Nat.le_trans (Nat.le_succ _) (Nat.le_max_right _ _))
          (Q := fun _ t => Placed P ρ s₁ (evalExpr P ρ e) (base + i) t) fun _ h => h
        have hrest (d : Expdesc) (t : LowerState α)
            (hd : Ensures (exp2reg d) t fun r u => Ensures (moveTo (base + i) r) u
              fun _ t => Placed P ρ s₁ (evalExpr P ρ e) (base + i) t) :
            Ensures (do
              moveTo (base + i) (← exp2reg d)
              setFreereg (base + i + 1)
              fillControl base (i + 1) (i + 1) (exprItems es)) t fun filled t =>
                Ensures (padNil base 3 filled) t fun _ u =>
                  RowCode P ρ s (base + i) (3 - i) (evalUpTo P ρ (3 - i) (e :: es)) u := by
          simp only [ensures_bind, ensures_setFreereg]
          refine hd.mono fun r u hu => hu.mono fun _ v hv => ?_
          let v₁ : LowerState α := { v with fs := v.fs.setFreereg (base + i + 1) }
          have hsv : Extends s v₁ :=
            (((Extends.refl s).setFreereg m).trans hv.grown).setFreereg _
          have hreadyv : Ready v := hready₁.extends hv.grown hv.free
          have hready' : Ready v₁ := ⟨hreadyv.main, hreadyv.env, hreadyv.only, hreadyv.locals,
            by rw [hsv.nactvar]; exact Nat.le_succ_of_le hactive, hreadyv.active⟩
          refine (fillControl_ok base es (i + 1) v₁
            (fun e' he' => hcorrect e' (List.mem_cons_of_mem e he')) (fun e' he' => ?_) (by omega)
            hready' (by rw [hsv.locals, hnames])
            (by rw [hsv.nactvar]; exact Nat.le_succ_of_le hactive) (Nat.le_refl _) ?_
            (hstack.trans hsv.maxstack)).mono fun filled w hw => hw.mono fun _ x hx => ?_
          · refine hends e' ?_
            cases es with
            | nil => cases he'
            | cons e'' es =>
                rw [List.getLast?_cons_cons]
                exact he'
          · show base + i + 1 ≤ base + 3
            omega
          · have hcount : 3 - i = 3 - (i + 1) + 1 := by omega
            rw [evalUpTo_cons hlast, hcount, Nat.add_sub_cancel]
            exact RowCode.cons hready hactive hv hx
        cases es with
        | nil =>
            refine ((notCall_atom (hsingle rfl) s₁ hready₁).and hplace).mono fun d t hd => ?_
            have hgoal := hrest d t hd.2
            cases d with
            | call info => exact absurd rfl (hd.1 info)
            | _ => exact hgoal
        | cons e' es =>
            refine hplace.mono fun d t hd => ?_
            have hgoal := hrest d t hd
            cases d <;> exact hgoal

end Iterators

/-! ## Rounds -/

section Calls

variable {P : Primitives V σ ε} {p : Proto α} {s t u : LowerState α} {c : Config V σ}

theorem exec_tForCall {varargs : List V} {base n : Nat} (hbase : base < 256) (hn : n < 256) :
    exec P p varargs (encodeAbc .tForCall base 0 n) c =
      operate (P.call (some n) (c.regs base) [c.regs (base + 1), c.regs (base + 2)])
        (fun values c => c.place P (base + 3) (P.adjust (some n) values)) c := by
  simp only [exec, encodeAbc, Instruction.op, Instruction.a, Instruction.c,
    Nat.mod_eq_of_lt hbase, Nat.mod_eq_of_lt hn]

theorem advance_tForLoop {varargs : List V} {a dest : Nat} (hsmall : Small p) (ha : a < 256)
    (hi : p.code[c.pc]? = some (encodeAsbx .tForLoop a ((dest : Int) - (c.pc + 1))))
    (hdest : dest ≤ p.code.length) (hnil : P.isNil (c.regs (a + 1)) = false) :
    advance P p varargs c = .ok { c.set a (c.regs (a + 1)) with pc := dest } := by
  have hpc : c.pc + 1 ≤ p.code.length := (List.getElem?_eq_some_iff.mp hi).1
  have hfits : Fits ((dest : Int) - (c.pc + 1)) := hsmall.fits hpc hdest
  have hsbx := (sbx_encodeAsbx_iff (α := α) .tForLoop a _).mpr hfits
  have heq : (((c.pc + 1 : Nat) : Int) + ((dest : Int) - (c.pc + 1))).toNat = dest := by omega
  rw [advance, hi]
  simp only [exec, op_encodeAsbx, a_encodeAsbx, Nat.mod_eq_of_lt ha, hnil, hsbx, Config.jump,
    Config.set, heq, Bool.false_eq_true, if_false]

theorem advance_tForLoop_nil {varargs : List V} {a : Nat} {k : Int} (ha : a < 256)
    (hi : p.code[c.pc]? = some (encodeAsbx .tForLoop a k))
    (hnil : P.isNil (c.regs (a + 1)) = true) :
    advance P p varargs c = .ok { c with pc := c.pc + 1 } := by
  rw [advance, hi]
  simp only [exec, op_encodeAsbx, a_encodeAsbx, Nat.mod_eq_of_lt ha, hnil, if_true]

structure AtCall (s : LowerState α) (ρ : Env V) (c : Config V σ) (base pc : Nat) (f state : V)
    (x : V × Env V) (c' : Config V σ) : Prop where
  pc : c'.pc = pc
  function : c'.regs base = f
  state : c'.regs (base + 1) = state
  control : c'.regs (base + 2) = x.1
  ran : Ran s s.fs ρ c x.2 c'

/-- A round calls the iterator, and its first result is the next control value. -/
theorem realises_callRounds {v : LowerState α} {ρ : Env V} {c' : Config V σ} {vars : List Name}
    {body : Block} {f state : V} {base fuel n : Nat} (hs : Sited s) (hsmall : Small p)
    (hactive : s.fs.nactvar ≤ base) (hbase : base + 3 + vars.length < 256) (hvars : vars ≠ [])
    (hin : Entered s v base vars) (hvu : Grown v u)
    (hbody : Runs P p fuel (u.fs.pc + 2) v u (execBlock P fuel body))
    (hcall : p.code[u.fs.pc]? = some (encodeAbc .tForCall base 0 vars.length))
    (hloop : p.code[u.fs.pc + 1]? =
      some (encodeAsbx .tForLoop (base + 2) ((v.fs.pc : Int) - ((u.fs.pc + 1 : Nat) + 1))))
    {x : V × Env V}
    (hn : n ≤ fuel) (hstart : AtCall s ρ c base u.fs.pc f state x c')
    {k : Env V → Eval V σ ε Y} {post : Y × σ → Config V σ → Prop}
    (hstop : ∀ ρ' c', c'.pc = u.fs.pc + 2 → Ran s s.fs ρ c ρ' c' →
      Realises (advance P p ρ.varargs) n c' (k ρ' c'.world) post) :
    Realises (advance P p ρ.varargs) n c'
      ((rounds (callRound P vars f state (execBlock P fuel body)) fuel x >>= k) c'.world)
      post := by
  have hlength : v.fs.pc ≤ p.code.length := by
    have := hvu.pc
    have := (List.getElem?_eq_some_iff.mp hcall).1
    omega
  refine realises_rounds (AtCall s ρ c base u.fs.pc f state)
    (fun ρ' c' => c'.pc = u.fs.pc + 2 ∧ Ran s s.fs ρ c ρ' c') ?_ hn hstart ?_
  · intro n x c₃ hn₃ hat k₁ post₁ hstop hagain
    rw [← hat.pc] at hcall
    rw [callRound, bind_assoc, lift_map_bind, ← hat.function, ← hat.state, ← hat.control]
    refine realises_operate hcall (exec_tForCall (by omega) (by omega)) fun values world => ?_
    have hlen : (P.adjust (some vars.length) values).length = vars.length := length_adjust _ _
    generalize P.adjust (some vars.length) values = values' at *
    let c₄ : Config V σ :=
      Config.place { c₃ with pc := c₃.pc + 1, world } P (base + 3) values'
    have hbetween : c₄.between (base + 3) (base + 3 + vars.length) = values' := by
      rw [← hlen]
      exact place_between P _ _ _
    have hlow (r : Nat) (hr : r < base + 3) : c₄.regs r = c₃.regs r := if_pos hr
    have hhead : values'.headD P.nil = c₄.regs (base + 3) := by
      obtain ⟨m, hm⟩ : ∃ m, vars.length = m + 1 :=
        Nat.exists_eq_succ_of_ne_zero fun h => hvars (List.length_eq_zero_iff.mp h)
      rw [← hbetween, hm, between_cons]
      rfl
    rw [hhead]
    show Realises _ n c₄ (((if P.isNil (c₄.regs (base + 3)) = true then pure (.inl x.2)
      else afterBody x.2 (c₄.regs (base + 3), ·) <$>
        execBlock P fuel body (x.2.push vars values')) >>= k₁) c₄.world) post₁
    have hpc₄ : c₄.pc = u.fs.pc + 1 := congrArg (· + 1) hat.pc
    rw [← hpc₄] at hloop
    have hsame₄ : Same base c₃ c₄ := ⟨fun r hr => hlow r (by omega), rfl⟩
    -- The branch back of `tForLoop` is the one step that may be repeated without end.
    cases hnil : P.isNil (c₄.regs (base + 3)) with
    | true =>
        rw [if_pos rfl, pure_bind]
        refine Realises.onward (advance_tForLoop_nil (by omega) hloop hnil) ?_
        exact hstop x.2 { c₄ with pc := c₄.pc + 1 } ⟨congrArg (· + 1) hpc₄,
          (hat.ran.same hs rfl hactive hsame₄).moved _⟩
    | false =>
        rw [if_neg Bool.false_ne_true, bind_map_left]
        refine Realises.back (advance_tForLoop hsmall (by omega) hloop hlength hnil) ?_
        let c₅ : Config V σ := { c₄.set (base + 2) (c₄.regs (base + 3)) with pc := v.fs.pc }
        have hkept (r : Nat) (hr : r ≠ base + 2) : c₅.regs r = c₄.regs r :=
          Config.set_of_ne _ _ _ hr
        have hran₅ : Ran s v.fs ρ c (x.2.push vars values') c₅ := by
          refine hin.ran hs hactive hat.ran ⟨fun r hr => ?_, rfl⟩ ?_
          · exact (hkept r (by omega)).trans (hlow r (by omega))
          · exact (between_congr fun r hlo _ => hkept r (by omega)).trans hbetween
        rw [← hran₅.varargs] at hstop hagain ⊢
        refine hbody (n - 1) _ c₅ (by omega) rfl hran₅.holds Y _ post₁
          (fun ρ₆ c₆ hpc₆ hran₆ => ?_) fun ρ₆ c₆ hpc₆ hran₆ => ?_
        · refine hagain (c₄.regs (base + 3), ρ₆.take x.2.depth) c₆ ⟨hpc₆, ?_, ?_, ?_, ?_⟩
          · rw [hin.control hs hactive hran₆ (by omega) (by omega), hkept _ (by omega)]
            exact (hlow base (by omega)).trans hat.function
          · rw [hin.control hs hactive hran₆ (by omega) (by omega), hkept _ (by omega)]
            exact (hlow (base + 1) (by omega)).trans hat.state
          · rw [hin.control hs hactive hran₆ (by omega) (by omega)]
            exact Config.set_self _ _ _
          · rw [hat.ran.holds.depth]
            exact (Ran.trans hin.grown hran₅ hran₆).first (hin.grown.trans hvu)
        · refine (hstop (ρ₆.take x.2.depth) c₆ ⟨hpc₆, ?_⟩).mono (Nat.sub_le n 1) fun _ _ h => h
          rw [hat.ran.holds.depth, ← take_take ρ₆ hin.grown]
          exact (Ran.trans hin.grown hran₅ hran₆).first hin.grown
  · rintro ρ' c' ⟨hpc', hran'⟩
    exact hstop ρ' c' hpc' hran'

theorem runs_forIn {v : LowerState α} {vars : List Name} {iters : List Expr} {body : Block}
    {base fuel : Nat} (hs : Sited s) (hsmall : Small p) (hactive : s.fs.nactvar ≤ base)
    (hbase : base + 3 + vars.length < 256) (hvars : vars ≠ []) (hin : Entered s v base vars)
    (hvu : Grown v u) (hbody : Runs P p fuel (u.fs.pc + 2) v u (execBlock P fuel body))
    (hcontrol : ∀ ρ : Env V, Delivers P p ρ base s t (evalUpTo P ρ 3 iters) fun values c =>
      values.length = 3 ∧ c.between base (base + 3) = values)
    (hprep : p.code[t.fs.pc]? = some (encodeAsbx .jmp 0 ((u.fs.pc : Int) - (t.fs.pc + 1))))
    (hcall : p.code[u.fs.pc]? = some (encodeAbc .tForCall base 0 vars.length))
    (hloop : p.code[u.fs.pc + 1]? =
      some (encodeAsbx .tForLoop (base + 2) ((v.fs.pc : Int) - ((u.fs.pc + 1 : Nat) + 1)))) :
    RunsTo P p (u.fs.pc + 2) fuel s (execStmt P fuel (.forIn vars iters body)) := by
  intro n ρ c hn hpc hholds Y k post hnext
  rw [execStmt, bind_assoc]
  refine hcontrol ρ n c hpc hholds Y _ post fun values c₁ hpc₁ hsame hvalues => ?_
  obtain ⟨-, hbetween⟩ := hvalues
  rw [between_three] at hbetween
  rw [← hbetween, bind_assoc]
  rw [← hpc₁] at hprep
  refine realises_jump hsmall hprep (Nat.le_of_lt (List.getElem?_eq_some_iff.mp hcall).1) ?_
  refine realises_callRounds hs hsmall hactive hbase hvars hin hvu hbody hcall hloop hn ?_
    fun ρ' c' hpc' hran' => hnext ρ' c' hpc' hran'
  exact ⟨rfl, rfl, rfl, rfl, ((Ran.refl hholds).same hs rfl hactive hsame).moved _⟩

/-- The jump to the call is patched as the body ends, and the branch back at once. -/
theorem executes_forIn {inLoop : Bool} {names vars : List Name} {iters : List Expr} {body : Block}
    (hvars : vars ≠ []) (hlen : iters.length ≤ 3)
    (hends : ∀ e ∈ iters.getLast?, e.isCall = true ∨ isAtom e = true)
    (hiters : ∀ ρ : Env V, ∀ e ∈ iters, Correct α P ρ names e)
    (hbody : Executes (α := α) P true (names ++ vars) [] (block true true body)
      (execBlock P · body)) :
    Executes (α := α) P inLoop names []
      (lowerForIn vars (exprItems iters) (block true true body))
      fun fuel => execStmt P fuel (.forIn vars iters body) := by
  intro s hs hnames
  simp only [lowerForIn, Lowering.inLoop, ensures_bind, ensures_getFs, ensures_reserve,
    ensures_modifyFs, ensures_codeAsbx, ensures_discard, ensures_codeAbc, ensures_fixSbx,
    ensures_setFreereg]
  intro hlimit
  generalize hbase : s.fs.freereg = base at *
  have hactive : s.fs.nactvar ≤ base := hbase ▸ hs.ready.free
  let s₁ : LowerState α := { s with fs := s.fs.reserved 3 }
  have hgrown₁ : Extends s s₁ := (Extends.refl s).reserved 3
  have hfree₁ : s₁.fs.freereg = base + 3 := congrArg (· + 3) hbase
  have hready₁ : Ready s₁ := hs.ready.extends hgrown₁ (Nat.le_add_right _ 3)
  have hcontrol (ρ : Env V) := fillControl_ok (P := P) base iters 0 s₁ (hiters ρ) hends
    (by omega) hready₁ (by rw [hgrown₁.locals, hnames]) (hgrown₁.nactvar ▸ hactive) (by omega)
    (Nat.le_of_eq hfree₁) (by
      show base + 3 ≤ max s.fs.maxstack (s.fs.freereg + 3)
      omega)
  intro filled t₀ hfill _ t hpad
  have hrow (ρ : Env V) : RowCode P ρ s₁ base 3 (evalUpTo P ρ 3 iters) t :=
    hcontrol ρ filled t₀ hfill _ t hpad
  have hgrownt : Extends s t := hgrown₁.trans (hrow ⟨[], P.nil, []⟩).grown
  let t₁ : LowerState α := { t with fs :=
    (t.fs.setFreereg (base + 3 + vars.length)).raiseMaxstack (base + 3 + vars.length) }
  let t₂ : LowerState α := { t₁ with fs := t₁.fs.emit (encodeAsbx .jmp 0 0) }
  have hextendst : Extends t t₂ :=
    (((Extends.refl t).setFreereg _).trans (extends_raiseMaxstack _ _)).emit _
  have hgrown₂ : Extends s t₂ := hgrownt.trans hextendst
  have hsited₂ : Sited t₂ := hs.extends hgrown₂ (by
    show _ ≤ base + 3 + vars.length
    omega)
  have hactive₂ : t₂.fs.nactvar ≤ base + 3 := by
    rw [hgrown₂.nactvar]
    omega
  refine (pushLocals_ok (base + 3) vars 0 t₂).mono fun _ w hpushed => ?_
  have hnactvar : w.fs.nactvar = base + 3 + vars.length :=
    hpushed.nactvar hsited₂ hvars hactive₂
  let v : LowerState α := { w with fs := { w.fs with
    nactvar := base + 3 + vars.length, freereg := base + 3 + vars.length } }
  have hveq : { w with fs := w.fs.setFreereg (base + 3 + vars.length) } = v := by
    show LowerState.mk _ _ = LowerState.mk _ _
    congr 1
    show FuncState.mk .. = FuncState.mk ..
    rw [hnactvar]
  have hgrownv : Grown t₂ v := hveq ▸ hpushed.grown hsited₂ hvars hactive₂ _
  have hsitedv : Sited v := hveq ▸
    hpushed.sited hsited₂ hvars hactive₂ (Nat.le_max_right _ _) _ (Nat.le_of_eq hnactvar)
  have hlocalsv : v.fs.locals = s.fs.locals ++ declared (base + 3) vars :=
    hpushed.locals.trans (congrArg (· ++ _) hgrown₂.locals)
  have hbreaksv : v.fs.breakList = s.fs.breakList :=
    hpushed.breakList.trans hgrown₂.breakList
  let v₁ : LowerState α := { v with fs := { v.fs with
    loopBreakLevel := v.fs.loopBreakLevel ++ [base + 3] } }
  have hgrowntv : Grown t v₁ := hextendst.onward.trans (hgrownv.level _)
  have hgrownv₁ : Grown s v₁ := hgrownt.onward.trans hgrowntv
  refine (hbody v₁ (hsitedv.level _) ?_).mono fun _ b hb => ?_
  · show v.fs.locals.map Local.name = _
    rw [hlocalsv, List.map_append, map_name_declared, hnames]
  obtain ⟨hb, -⟩ := hb
  have hlocals₂ : t₂.fs.locals.length = s.fs.locals.length :=
    congrArg List.length hgrown₂.locals
  have hgrownb : Grown s b := hgrownv₁.trans hb.grown
  let b₁ : LowerState α := { b with fs := { b.fs with
    loopBreakLevel := b.fs.loopBreakLevel.dropLast } }
  have hgrownb₁ : Grown s b₁ := hgrownb.level _
  have hsitedb₁ : Sited b₁ := hb.sited.level _
  have hleave : b₁.fs.leaveBlock t₂.fs.locals.length false = b₁.fs.leaveOpen s.fs.locals := by
    rw [hlocals₂, hgrownb₁.leaveBlock hsitedb₁]
  show _ ∧ _
  rw [hleave, hbreaksv]
  let b₂ : LowerState α := { b₁ with fs := b₁.fs.leaveOpen s.fs.locals }
  have hgrownb₂ : Grown s b₂ := hgrownb₁.leaveOpen hs
  have hsitedb₂ : Sited b₂ := hs.leaveOpen hsitedb₁ hgrownb₁
  let b₃ : LowerState α := { b₂ with fs := b₂.fs.fixSbx t.fs.pc b₂.fs.pc }
  let b₄ : LowerState α := { b₃ with fs := b₃.fs.emit (encodeAbc .tForCall base 0 vars.length) }
  let b₅ : LowerState α := { b₄ with fs := b₄.fs.emit (encodeAsbx .tForLoop (base + 2) 0) }
  have hemit₄ : Extends b₃ b₄ := (Extends.refl b₃).emit _
  have hemit₅ : Extends b₄ b₅ := (Extends.refl b₄).emit _
  let b₆ : LowerState α := { b₅ with fs := b₅.fs.fixSbx b₄.fs.pc t₂.fs.pc }
  have hpct : t₂.fs.pc = t.fs.pc + 1 := pc_emit _ _
  have hpcv : v₁.fs.pc = t₂.fs.pc := congrArg List.length hpushed.code
  have hpcb : v₁.fs.pc ≤ b.fs.pc := hb.grown.pc
  have hpc₃ : b₃.fs.pc = b.fs.pc := fixSbx_pc _ _ _
  have hpc₄ : b₄.fs.pc = b₃.fs.pc + 1 := pc_emit _ _
  have hpc₅ : b₅.fs.pc = b₄.fs.pc + 1 := pc_emit _ _
  have hpc₆ : b₆.fs.pc = b₅.fs.pc := fixSbx_pc _ _ _
  have hspc : s.fs.pc ≤ t.fs.pc := hgrownt.pc
  have hfresh : t.fs.pc ∉ b.fs.breakList := by
    refine hb.grown.not_break (by omega) ?_
    show t.fs.pc ∉ v.fs.breakList
    rw [hbreaksv]
    exact hs.not_break hspc
  have hfresh₄ : b₄.fs.pc ∉ b.fs.breakList := hb.sited.not_break (by omega)
  have hgrown₃ : Grown s b₃ := hgrownb₂.fixSbx hspc hfresh _
  have hgrown₅ : Grown s b₅ := (hgrown₃.trans hemit₄.onward).trans hemit₅.onward
  have hgrown₆ : Grown s b₆ := hgrown₅.fixSbx (by omega) hfresh₄ _
  have hsited₅ : Sited b₅ := (hsitedb₂.fixSbx t.fs.pc b₂.fs.pc).extends
    (hemit₄.trans hemit₅) hsitedb₂.ready.free
  have hsited₆ : Sited b₆ := hsited₅.fixSbx _ _
  have hlooped : Looped P s (fun fuel => execStmt P fuel (.forIn vars iters body)) b₆ := by
    refine ⟨hgrown₆, hsited₆, rfl, ?_⟩
    intro p fuel hsmall hcovers hfollows
    have hinner : Follows p b₆.fs s.fs.pc b₅.fs.pc b₆.fs.pc :=
      hfollows.mono (Nat.le_refl _) (Nat.le_of_eq hpc₆.symm)
    have hend : b₆.fs.pc ≤ p.code.length := by
      rw [hpc₆]
      exact hinner.le_length (by omega) (Nat.le_of_eq hpc₆.symm)
    have hcalls : Follows p b₄.fs s.fs.pc b₄.fs.pc b₆.fs.pc :=
      ((hinner.mono (Nat.le_refl _) (by omega)).unfixed (.inl (Nat.le_refl _))).before
        (s := b₄) hemit₅.onward (Nat.le_refl _)
    have hfixes : Follows p b₃.fs s.fs.pc b.fs.pc b₆.fs.pc :=
      (hcalls.mono (Nat.le_refl _) (by omega)).before (s := b₃) hemit₄.onward
        (Nat.le_of_eq hpc₃.symm)
    have hfirst : Follows p b.fs s.fs.pc t.fs.pc b₆.fs.pc :=
      (hfixes.mono (Nat.le_refl _) (by omega)).unfixed (.inl (Nat.le_refl _))
    have hahead : Follows p t.fs s.fs.pc t.fs.pc b₆.fs.pc :=
      hfirst.before (hgrowntv.trans hb.grown) (Nat.le_refl _)
    have hagree : Agree p t.fs s.fs.pc t.fs.pc :=
      hahead.agree hs hgrownt.breakList (Nat.le_refl _)
    have hinside : Follows p b.fs v₁.fs.pc b.fs.pc b₆.fs.pc :=
      (hfixes.mono (by omega) (Nat.le_refl _)).unfixed (.inr (by omega))
    have hcoversb : Covers p b.fs := ⟨hcovers.constants, hcovers.maxstack⟩
    have hcoversv : Covers p v₁.fs := hcoversb.onward hb.grown
    have hcoverst : Covers p t.fs := hcoversv.onward hgrowntv
    have hstack : base + 3 + vars.length ≤ 200 := by
      have hle := hsitedv.ready.active
      exact hle.trans (hcoversv.maxstack.trans hsmall.maxstack)
    have hprep : p.code[t.fs.pc]? =
        some (encodeAsbx .jmp 0 ((b.fs.pc : Int) - (t.fs.pc + 1))) := by
      refine hfixes.fixed hspc (by omega) hfresh (by omega)
        ((getElem?_grown ((hgrownv.level _).trans hb.grown).code ?_).trans (emit_last rfl))
      show t.fs.pc < t₂.fs.pc
      omega
    have hcall : p.code[b.fs.pc]? = some (encodeAbc .tForCall base 0 vars.length) := by
      rw [hcalls.unbroken (by omega) (by omega) (hb.sited.not_break (Nat.le_refl _)), ← hpc₃]
      exact emit_last rfl
    have hloop : p.code[b.fs.pc + 1]? =
        some (encodeAsbx .tForLoop (base + 2) ((v₁.fs.pc : Int) - ((b.fs.pc + 1 : Nat) + 1))) := by
      have hat : b₄.fs.pc = b.fs.pc + 1 := by omega
      rw [← hat, hpcv]
      exact hinner.fixed (by omega) (by omega) hfresh₄ (by omega) (emit_last rfl)
    have hexit : b₆.fs.pc = b.fs.pc + 2 := by omega
    rw [hexit] at hend hinside ⊢
    refine runs_forIn hs hsmall hactive (by omega) hvars ⟨hgrownv₁, hlocalsv, rfl⟩ hb.grown
      (hb.runs p fuel (b.fs.pc + 2) hsmall hcoversb hend hinside) (fun ρ => ?_) hprep hcall hloop
    exact ((hrow ρ).delivers p hsmall hcoverst (by omega) hagree).within rfl rfl rfl
  have hreleased : Code P inLoop s _ _ ∧ _ := hlooped.released hs hnames hactive
  exact hreleased

end Calls

end Luatier.Lowering
