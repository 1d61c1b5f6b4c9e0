import Luatier.Frontend.ExprCorrect

/-!
# The code of a list of values

The values of a declaration, an assignment or a return stand in a row of registers,
in the order of their expressions.
-/

namespace Luatier.Lowering

open Realising

variable {α V σ ε X Y Z : Type}

section Rows

variable {P : Primitives V σ ε} {ρ : Env V} {names : List Name} {s t u : LowerState α}

def endsOpen (es : List Expr) : Bool :=
  match es.getLast? with
  | some e => listKind e != .single
  | none => false

structure RowCode (P : Primitives V σ ε) (ρ : Env V) (s : LowerState α) (first n : Nat)
    (ev : Eval V σ ε (List V)) (t : LowerState α) : Prop where
  grown : Extends s t
  delivers : ∀ p, Small p → Covers p t.fs → first + n < 255 →
    Agree p t.fs s.fs.pc t.fs.pc → Delivers P p ρ first s t ev fun values c =>
      values.length = n ∧ c.between first (first + n) = values

theorem Delivers.row {p : Proto α} {first n : Nat} {ev : Eval V σ ε V}
    {ev' : Eval V σ ε (List V)} (hready : Ready s) (hgrown : Extends s t)
    (hactive : s.fs.nactvar ≤ first) (h : Delivers P p ρ first s t ev fun v c => v = c.regs first)
    (hrest : Delivers P p ρ (first + 1) t u ev' fun values c =>
      values.length = n ∧ c.between (first + 1) (first + 1 + n) = values) :
    Delivers P p ρ first s u (ev >>= fun v => ev' >>= fun vs => pure (v :: vs))
      fun values c => values.length = n + 1 ∧ c.between first (first + (n + 1)) = values := by
  refine (h.andThen (f := fun v vs => v :: vs) hready hgrown hactive (Nat.le_succ first)
    hrest fun v c c' hv hsame => ?_).mono (Nat.le_refl _) ?_
  · rw [hv, hsame.regs first (Nat.lt_succ_self first)]
  · rintro _ c ⟨v, vs, rfl, hv, hlen, hbetween⟩
    refine ⟨congrArg (· + 1) hlen, ?_⟩
    have hlast : first + (n + 1) = first + 1 + n := by omega
    rw [between_cons, hlast, hbetween, ← hv]

theorem RowCode.cons {first m n : Nat} {e : Expr} {ev : Eval V σ ε (List V)}
    (hready : Ready s) (hactive : s.fs.nactvar ≤ first)
    (ht : Placed P ρ { s with fs := s.fs.setFreereg m } (evalExpr P ρ e) first t)
    (hu : RowCode P ρ { t with fs := t.fs.setFreereg (first + 1) } (first + 1) n ev u) :
    RowCode P ρ s first (n + 1)
      (evalExpr P ρ e >>= fun v => ev >>= fun vs => pure (v :: vs)) u := by
  let t₁ : LowerState α := { t with fs := t.fs.setFreereg (first + 1) }
  have hst : Extends s t₁ :=
    (((Extends.refl s).setFreereg m).trans ht.grown).setFreereg (first + 1)
  refine ⟨hst.trans hu.grown, fun p hsmall hcovers hlast hagree => ?_⟩
  have hcovers' : Covers p t₁.fs := hcovers.before hu.grown
  have hagree' : Agree p t₁.fs s.fs.pc t₁.fs.pc :=
    (hagree.mono (Nat.le_refl _) hu.grown.pc).before hu.grown (Nat.le_refl _)
  have hvalue : Delivers P p ρ first s t₁ (evalExpr P ρ e) fun v c => v = c.regs first :=
    (ht.delivers p hsmall ⟨hcovers'.constants, hcovers'.maxstack⟩ (by omega) hagree').within
      rfl rfl rfl
  exact hvalue.row hready hst hactive
    (hu.delivers p hsmall hcovers (by omega) (hagree.mono hst.pc (Nat.le_refl _)))

/-! ## Values that are missing -/

theorem leads_loadNil {p : Proto α} {floor a : Nat} (ha : a < 256) (hfloor : floor ≤ a)
    (hcode : t.fs.code = s.fs.code ++ [encodeAbc .loadNil a 0 0])
    (hagree : Agree p t.fs s.fs.pc t.fs.pc) :
    Leads P p ρ floor s t (fun _ => pure P.nil) fun c => pure (c.regs a) :=
  leads_single (fun _ => pure P.nil) hfloor hcode hagree (fun _ => exec_loadNil ha)
    fun _ _ => rfl

theorem padNil_ok (base : Nat) : ∀ (m i : Nat) (s : LowerState α), s.fs.nactvar ≤ base + i →
    Ready s →
    Ensures ((List.range' i m).forM fun i => discard (codeAbc .loadNil (base + i) 0 0)) s
      fun _ t => t.fs.freereg = s.fs.freereg ∧
        RowCode P ρ s (base + i) m (pure (List.replicate m P.nil)) t
  | 0, i, s, _, _ => by
      rw [List.range'_zero, List.forM_eq_forM, List.forM_nil, ensures_pure]
      refine ⟨rfl, .refl s, fun p _ _ _ _ n c hpc _ Y k post hend => ?_⟩
      rw [pure_bind]
      exact hend [] c hpc (.refl _ c) ⟨rfl, between_self⟩
  | m + 1, i, s, hactive, hready => by
      rw [List.range'_succ, List.forM_eq_forM, List.forM_cons, ← List.forM_eq_forM]
      simp only [ensures_bind, ensures_discard, ensures_codeAbc]
      let t : LowerState α := { s with fs := s.fs.emit (encodeAbc .loadNil (base + i) 0 0) }
      have hst : Extends s t := (Extends.refl s).emit _
      refine (padNil_ok base m (i + 1) t (Nat.le_succ_of_le hactive)
        (hready.extends hst (Nat.le_refl _))).mono fun _ u hu => ⟨hu.1, ?_⟩
      obtain ⟨-, hrow⟩ := hu
      refine ⟨hst.trans hrow.grown, fun p hsmall hcovers hlast hagree => ?_⟩
      have hfirst : Delivers P p ρ (base + i) s t (pure P.nil) fun v c => v = c.regs (base + i) :=
        (leads_loadNil (by omega) (Nat.le_refl _) rfl
          ((hagree.mono (Nat.le_refl _) hrow.grown.pc).before hrow.grown (Nat.le_refl _))).delivers
      have hrest := hrow.delivers p hsmall hcovers (by omega) (hagree.mono hst.pc (Nat.le_refl _))
      have hboth := hfirst.row hready hst hactive hrest
      simp only [pure_bind] at hboth
      exact hboth

/-! ## The values of a list -/

theorem fillValues_cons {base n i : Nat} {e : Expr} {es : List Expr}
    (h : es = [] → listKind e = .single) :
    (fillValues base n i (exprItems (e :: es)) : Lower α Nat) = (do
      setFreereg (base + i)
      let er ← exp2reg (← expr e)
      moveTo (base + i) er
      setFreereg (base + i + 1)
      fillValues base n (i + 1) (exprItems es)) := by
  cases es with
  | nil =>
      rw [exprItems, exprItems, h rfl]
      rfl
  | cons e' es => rw [exprItems, exprItems, fillValues] <;> simp

theorem evalUpTo_cons {n : Nat} {e : Expr} {es : List Expr}
    (h : es = [] → listKind e = .single) :
    evalUpTo P ρ n (e :: es) = do
      let v ← evalExpr P ρ e
      let vs ← evalUpTo P ρ (n - 1) es
      return v :: vs := by
  rw [evalUpTo]
  cases es with
  | nil =>
      rw [h rfl]
      rfl
  | cons _ _ => rfl

theorem toByte_count {n : Nat} (h : n < 255) : toByte ((n : Int) + 1) = n + 1 := by
  rw [toByte]
  omega

theorem exec_vararg_row (P : Primitives V σ ε) (p : Proto α) (varargs : List V)
    (c : Config V σ) {a n : Nat} (ha : a < 256) (hn : n < 255) :
    ∃ c', exec P p varargs (encodeAbc .vararg a (n + 1) 0) c = .ok c' ∧ c'.pc = c.pc ∧
      c'.world = c.world ∧ Same a c c' ∧
        c'.between a (a + n) = P.adjust (some n) varargs := by
  have hwanted : wantedOf (n + 1) = some n := rfl
  have hlen := length_adjust (P := P) n varargs
  refine ⟨{ c with regs := fun r => if r < a then c.regs r else
    ((P.adjust (some n) varargs)[r - a]?).getD (c.regs r) }, ?_, rfl, rfl,
    ⟨fun r hr => if_pos hr, rfl⟩, ?_⟩
  · simp only [exec, encodeAbc, Instruction.op, Instruction.a, Instruction.b,
      Nat.mod_eq_of_lt ha, Nat.mod_eq_of_lt (Nat.succ_lt_succ hn : n + 1 < 256), hwanted,
      Nat.succ_ne_zero, if_false]
  · let c' : Config V σ := { c with regs := fun r => if r < a then c.regs r else
      ((P.adjust (some n) varargs)[r - a]?).getD (c.regs r) }
    have hbetween : c'.between a (a + (P.adjust (some n) varargs).length) =
        P.adjust (some n) varargs := by
      refine between_eq fun i hi => ?_
      show (if a + i < a then _ else _) = _
      rw [if_neg (Nat.not_lt.mpr (Nat.le_add_right _ _)), Nat.add_sub_cancel_left,
        List.getElem?_eq_getElem hi]
      rfl
    rwa [hlen] at hbetween

theorem delivers_vararg_row {p : Proto α} {first n : Nat} (hfirst : first < 256) (hn : n < 255)
    (hcode : t.fs.code = s.fs.code ++ [encodeAbc .vararg first (n + 1) 0])
    (hagree : Agree p t.fs s.fs.pc t.fs.pc) :
    Delivers P p ρ first s t (pure (P.adjust (some n) ρ.varargs)) fun values c =>
      values.length = n ∧ c.between first (first + n) = values := by
  intro m c hpc _ Y k post hend
  have hat : p.code[c.pc]? = some (encodeAbc .vararg first (n + 1) 0) :=
    hagree.appended hcode (Nat.le_refl _) hpc (j := 0) Nat.zero_lt_one
  have hpc' : t.fs.pc = c.pc + 1 := by
    rw [FuncState.pc, hcode, List.length_append, hpc]
    rfl
  obtain ⟨c', hexec, hpc'', hworld, hsame, hvalues⟩ :=
    exec_vararg_row P p ρ.varargs { c with pc := c.pc + 1 } hfirst hn
  refine realises_exec hat hexec ?_
  have hgoal := hend _ c' (hpc''.trans hpc'.symm) ⟨hsame.regs, hsame.upvals⟩
    ⟨length_adjust n ρ.varargs, hvalues⟩
  rw [pure_bind]
  rwa [hworld] at hgoal

theorem moveResults_self (dest : Nat) (need : Int) :
    (moveResults dest dest need : Lower α Unit) = pure () := by
  rw [moveResults, List.forM_eq_forM]
  induction List.range need.toNat with
  | nil => rfl
  | cons j js ih =>
      rw [List.forM_cons, moveTo, if_pos (beq_self_eq_true _), pure_bind, ih]

theorem patchLastCallResults_natCast (n : Nat) :
    patchLastCallResults (α := α) n = patchLastCall (toByte ((n : Int) + 1)) := by
  rw [patchLastCallResults, if_neg (by omega)]

theorem rowCall_ok {first n : Nat} {e : Expr} {callee : Expr} {args : List Expr}
    {method : Option Name} (h : Correct α P ρ names e) (he : e = .call callee args method)
    (hready : Ready s) (hfirst : s.fs.nactvar ≤ first)
    (hnames : s.fs.locals.map Local.name = names) :
    Ensures (expr e) { s with fs := s.fs.setFreereg first } fun _ t =>
      Ensures (patchLastCall (toByte ((n : Int) + 1))) t fun ca u =>
        ca = first ∧ RowCode P ρ s first n (evalMulti P ρ (some n) e) u := by
  have hready' : Ready { s with fs := s.fs.setFreereg first } :=
    ⟨hready.main, hready.env, hready.only, hready.locals, hfirst, hready.active⟩
  refine (h.call callee args method he _ hready' hnames).mono ?_
  rintro _ _ ⟨base, b, u, rfl, rfl, hu⟩
  rw [ensures_patchLast (Nat.lt_trans hu.limit (by decide))]
  have hbase : base = first := hu.start
  subst hbase
  have hgrown := extends_called u base b (toByte ((n : Int) + 1))
  refine ⟨rfl, (((Extends.refl s).setFreereg base).trans hu.grown).trans hgrown,
    fun p hsmall hcovers hlast hagree => ?_⟩
  rw [toByte_count (by omega)] at hgrown hcovers hagree ⊢
  have hresults := hu.results hsmall (by omega) (hcovers.before hgrown) hagree
  rw [he, evalMulti]
  refine (hresults.within (u := s) rfl rfl rfl).mono (Nat.le_refl _) ?_
  rintro values c ⟨hbetween, -, hlen⟩
  have hlen' := hlen n rfl
  exact ⟨hlen', by rw [← hbetween, hlen']⟩

theorem RowCode.setFreereg {first n : Nat} {ev : Eval V σ ε (List V)}
    (h : RowCode P ρ s first n ev t) (m : Nat) :
    RowCode P ρ s first n ev { t with fs := t.fs.setFreereg m } where
  grown := h.grown.setFreereg m
  delivers p hsmall hcovers hlast hagree :=
    (h.delivers p hsmall ⟨hcovers.constants, hcovers.maxstack⟩ hlast hagree).within rfl rfl rfl

def fills (n : Nat) (es : List Expr) : Prop := es.length = n ∨ endsOpen es = true

theorem fills_cons {n : Nat} {e : Expr} {es : List Expr} (h : es = [] → listKind e = .single)
    (hfills : fills n (e :: es)) : fills (n - 1) es := by
  obtain hlen | hopen := hfills
  · left
    rw [List.length_cons] at hlen
    omega
  · right
    cases es with
    | nil =>
        have hsingle : endsOpen [e] = (listKind e != .single) := rfl
        rw [hsingle, h rfl] at hopen
        cases hopen
    | cons e' es => exact hopen

theorem fillValues_ok (base n : Nat) : ∀ (es : List Expr) (i : Nat)
    (s : LowerState α), (∀ e ∈ es, Correct α P ρ names e) → i + es.length ≤ n → Ready s →
    s.fs.locals.map Local.name = names → s.fs.nactvar ≤ base + i → s.fs.freereg = base + i →
    Ensures (fillValues base n i (exprItems es)) s fun filled t =>
      Ensures (padNil base n filled) t fun _ u =>
        RowCode P ρ s (base + i) (n - i) (evalUpTo P ρ (n - i) es) u ∧
          base + i ≤ u.fs.freereg ∧ (fills (n - i) es → u.fs.freereg = base + n)
  | [], i, s, _, hlen, hready, _, hactive, hfree => by
      rw [exprItems, fillValues, ensures_pure, padNil]
      refine (padNil_ok (P := P) (ρ := ρ) base (n - i) i s hactive hready).mono fun _ u hu => ?_
      obtain ⟨hfree', hrow⟩ := hu
      rw [hfree', hfree]
      refine ⟨hrow, Nat.le_refl _, fun hfills => ?_⟩
      have hzero : 0 = n - i := hfills.resolve_right Bool.noConfusion
      omega
  | e :: es, i, s, hcorrect, hlen, hready, hnames, hactive, hfree => by
      have he := hcorrect e List.mem_cons_self
      rw [List.length_cons] at hlen
      by_cases hlast : es = [] → listKind e = .single
      · rw [fillValues_cons hlast, evalUpTo_cons hlast]
        simp only [ensures_bind, ensures_setFreereg]
        let s₁ : LowerState α := { s with fs := s.fs.setFreereg (base + i) }
        have hready₁ : Ready s₁ :=
          ⟨hready.main, hready.env, hready.only, hready.locals, hactive, hready.active⟩
        refine he.value.toPlace (s := s₁) (base + i) hready₁ hnames hactive (Nat.le_refl _)
          fun t ht => ?_
        let t₁ : LowerState α := { t with fs := t.fs.setFreereg (base + i + 1) }
        have hst : Extends s t₁ :=
          (((Extends.refl s).setFreereg _).trans ht.grown).setFreereg (base + i + 1)
        have hready' : Ready t₁ := hready.extends hst (by rw [hfree]; exact Nat.le_succ _)
        refine (fillValues_ok base n es (i + 1) t₁
          (fun e' he' => hcorrect e' (List.mem_cons_of_mem e he')) (by omega) hready'
          (by rw [hst.locals, hnames]) (by rw [hst.nactvar]; exact Nat.le_succ_of_le hactive)
          rfl).mono fun filled u hu => hu.mono fun _ v hv => ?_
        obtain ⟨hrow, hfree', hfills⟩ := hv
        have hcount : n - i = n - (i + 1) + 1 := by omega
        refine ⟨?_, Nat.le_of_succ_le hfree', fun h => ?_⟩
        · rw [hcount, Nat.add_sub_cancel]
          exact RowCode.cons hready hactive ht hrow
        · exact hfills (fills_cons hlast h)
      · obtain ⟨rfl, hkind⟩ := Classical.not_imp.mp hlast
        have hneed : (n : Int) - i = ((n - i : Nat) : Int) := by omega
        have heval : evalUpTo P ρ (n - i) [e] = evalMulti P ρ (some (n - i)) e := by
          rw [evalUpTo, List.isEmpty_nil, Bool.true_and, if_pos (bne_iff_ne.mpr hkind)]
        have hpad : (padNil base n n : Lower α Unit) = pure () := by
          rw [padNil, Nat.sub_self]
          rfl
        rw [heval]
        cases e with
        | vararg =>
            simp only [exprItems, listKind, fillValues, hneed, ensures_bind, ensures_setFreereg,
              ensures_discard, ensures_codeAbc, ensures_pure, hpad]
            refine ⟨⟨(((Extends.refl s).setFreereg _).emit _).setFreereg _,
              fun p _ _ hlast hagree => ?_⟩, ?_, fun _ => rfl⟩
            · rw [toByte_count (by omega)] at hagree ⊢
              exact delivers_vararg_row (by omega) (by omega) rfl hagree
            · show base + i ≤ base + n
              omega
        | call callee args method =>
            simp only [exprItems, listKind, fillValues, hneed, patchLastCallResults_natCast,
              ensures_bind, ensures_setFreereg, ensures_discard]
            refine (rowCall_ok (n := n - i) he rfl hready hactive hnames).mono
              fun _ t ht => ht.mono ?_
            rintro _ u ⟨rfl, hrow⟩
            rw [moveResults_self]
            simp only [ensures_pure, hpad]
            refine ⟨hrow.setFreereg _, ?_, fun _ => rfl⟩
            show base + i ≤ base + n
            omega
        | _ => exact absurd rfl hkind

/-! ## The values of a return -/

/-- The values from `first` on; when the last one is open, they end at the top. -/
structure ReturnCode (P : Primitives V σ ε) (ρ : Env V) (s : LowerState α) (first : Nat)
    (es : List Expr) (isOpen : Bool) (t : LowerState α) : Prop where
  grown : Extends s t
  delivers : ∀ p, Small p → Covers p t.fs → first + es.length < 256 →
    Agree p t.fs s.fs.pc t.fs.pc → Delivers P p ρ first s t (evalArgs P ρ es) fun values c =>
      c.between first (first + values.length) = values ∧
        if isOpen then c.top = first + values.length else values.length = es.length

theorem ListCode.returned {first : Nat} {e : Expr} (hkind : listKind e ≠ .single)
    (h : ListCode P ρ s first (evalMulti P ρ none e) true t) :
    ReturnCode P ρ s first [e] true t where
  grown := h.grown
  delivers p hsmall hcovers _ hagree := by
    rw [evalArgs, List.isEmpty_nil, Bool.true_and, if_pos (bne_iff_ne.mpr hkind)]
    exact h.delivers p hsmall hcovers hagree

theorem returnValues_cons {base i : Nat} {e : Expr} {es : List Expr}
    (h : es = [] → listKind e = .single) :
    (returnValues base i (exprItems (e :: es)) : Lower α Bool) = (do
      setFreereg (base + i)
      let r ← exp2reg (← expr e)
      moveTo (base + i) r
      setFreereg (max (← getFs).freereg (base + i + 1))
      returnValues base (i + 1) (exprItems es)) := by
  cases es with
  | nil =>
      rw [exprItems, exprItems, h rfl]
      rfl
  | cons e' es => rw [exprItems, exprItems, returnValues] <;> simp

theorem returnValues_ok (base : Nat) : ∀ (es : List Expr) (i : Nat) (s : LowerState α),
    (∀ e ∈ es, Correct α P ρ names e) → Ready s → s.fs.locals.map Local.name = names →
    s.fs.nactvar ≤ base + i → base + i ≤ s.fs.freereg →
    Ensures (returnValues base i (exprItems es)) s fun isOpen t =>
      ReturnCode P ρ s (base + i) es isOpen t ∧ base + i ≤ t.fs.freereg
  | [], i, s, _, _, _, _, hfree => by
      rw [exprItems, returnValues, ensures_pure]
      refine ⟨⟨.refl s, fun p _ _ _ _ n c hpc _ Y k post hend => ?_⟩, hfree⟩
      rw [evalArgs, pure_bind]
      exact hend [] c hpc (.refl _ c) ⟨between_self, rfl⟩
  | e :: es, i, s, hcorrect, hready, hnames, hactive, hfree => by
      have he := hcorrect e List.mem_cons_self
      by_cases hlast : es = [] → listKind e = .single
      · rw [returnValues_cons hlast]
        simp only [ensures_bind, ensures_setFreereg, ensures_getFs]
        let s₁ : LowerState α := { s with fs := s.fs.setFreereg (base + i) }
        have hready₁ : Ready s₁ :=
          ⟨hready.main, hready.env, hready.only, hready.locals, hactive, hready.active⟩
        refine he.value.toPlace (s := s₁) (base + i) hready₁ hnames hactive (Nat.le_refl _)
          fun t ht => ?_
        let t₁ : LowerState α :=
          { t with fs := t.fs.setFreereg (max t.fs.freereg (base + i + 1)) }
        have hst : Extends s t₁ :=
          (((Extends.refl s).setFreereg _).trans ht.grown).setFreereg _
        have hle : base + i + 1 ≤ t₁.fs.freereg := Nat.le_max_right _ _
        have hready' : Ready t₁ :=
          hready₁.extends (ht.grown.setFreereg _) (Nat.le_of_succ_le hle)
        refine (returnValues_ok base es (i + 1) t₁
          (fun e' he' => hcorrect e' (List.mem_cons_of_mem e he')) hready'
          (by rw [hst.locals, hnames]) (by rw [hst.nactvar]; exact Nat.le_succ_of_le hactive)
          hle).mono fun isOpen u hu => ?_
        obtain ⟨hu, hfree'⟩ := hu
        refine ⟨⟨hst.trans hu.grown, fun p hsmall hcovers hlen hagree => ?_⟩,
          Nat.le_of_succ_le hfree'⟩
        rw [List.length_cons] at hlen
        have hcovers' : Covers p t₁.fs := hcovers.before hu.grown
        have hagree' : Agree p t₁.fs s.fs.pc t₁.fs.pc :=
          (hagree.mono (Nat.le_refl _) hu.grown.pc).before hu.grown (Nat.le_refl _)
        have hvalue : Delivers P p ρ (base + i) s t₁ (evalExpr P ρ e) fun v c =>
            v = c.regs (base + i) :=
          (ht.delivers p hsmall ⟨hcovers'.constants, hcovers'.maxstack⟩ (by omega)
            hagree').within rfl rfl rfl
        have hrest := hu.delivers p hsmall hcovers (by omega)
          (hagree.mono hst.pc (Nat.le_refl _))
        rw [evalArgs_cons hlast]
        refine (hvalue.andThen (f := fun v vs => v :: vs) hready hst hactive
          (Nat.le_succ (base + i)) hrest fun v c c' hv hsame => ?_).mono (Nat.le_refl _) ?_
        · rw [hv, hsame.regs (base + i) (Nat.lt_succ_self _)]
        · rintro _ c ⟨v, vs, rfl, hv, hbetween, hend⟩
          have hlast' : base + (i + 1) + vs.length = base + i + (vs.length + 1) := by omega
          rw [hlast'] at hbetween hend
          refine ⟨?_, ?_⟩
          · rw [List.length_cons, between_cons, ← hv]
            exact congrArg (v :: ·) hbetween
          · cases isOpen with
            | true => exact hend
            | false => exact congrArg (· + 1) hend
      · obtain ⟨rfl, hkind⟩ := Classical.not_imp.mp hlast
        cases e with
        | vararg =>
            simp only [exprItems, listKind, returnValues, ensures_bind, ensures_pure]
            refine (openVararg_ok (P := P) (ρ := ρ)).mono fun _ t ht => ⟨?_, ht.free⟩
            exact ht.returned hkind
        | call callee args method =>
            simp only [exprItems, listKind, returnValues, ensures_bind, ensures_pure]
            refine (openCall_ok he rfl hready hactive hnames).mono fun _ t ht => ⟨?_, ht.free⟩
            exact ht.returned hkind
        | _ => exact absurd rfl hkind

end Rows

end Luatier.Lowering
