import Luatier.Frontend.GotoTree
import Luatier.Frontend.TestMeaning

/-!
# The code of a name, an index or one operand

These forms leave something to be done to the instruction that takes their value.
-/

namespace Luatier.Lowering

open Realising

variable {α V σ ε X Y Z : Type}

/-! ## Constants -/

theorem expr_of_literal : ∀ (e : Expr) (k : Const), literal? e = some k →
    (expr e : Lower α Expdesc) = pure (.constant k)
  | .nil, k, h => by cases h; rfl
  | .bool _, k, h => by cases h; rfl
  | .int _, k, h => by cases h; rfl
  | .float _, k, h => by cases h; rfl
  | .string _, k, h => by cases h; rfl
  | .paren inner, k, h => by
      rw [expr, expr_of_literal inner k h]
      rfl
  | .un .neg operand, k, h => by
      rw [literal?] at h
      split at h
      · cases h
        rename_i n hn
        rw [expr, expr_of_literal operand _ hn]
        rfl
      · cases h
        rename_i w hw
        rw [expr, expr_of_literal operand _ hw]
        rfl
      · cases h

section And

variable {lhs rhs : Expr} {left right : BinOp × Lower α Expdesc × Lower α Expdesc}

theorem expr_and_rel (hl : relOperands lhs = some left) (hr : relOperands rhs = some right) :
    (expr (.bin .and lhs rhs) : Lower α Expdesc) =
      lowerRelAnd left.1 left.2.1 left.2.2 right.1 right.2.1 right.2.2 := by
  simp only [expr, relation, hl, hr]

theorem expr_and_logic
    (h : relOperands (α := α) lhs = none ∨ relOperands (α := α) rhs = none) :
    (expr (.bin .and lhs rhs) : Lower α Expdesc) = lowerLogic true (expr lhs) (expr rhs) := by
  simp only [expr, relation]
  obtain h | h := h
  · simp only [h]
  · cases relOperands lhs <;> simp only [h]

end And

def Expdesc.isConstant : Expdesc → Bool
  | .constant _ => true
  | _ => false

def NotConstant (m : Lower α Expdesc) : Prop :=
  ∀ s, Ensures m s fun d _ => d.isConstant = false

namespace NotConstant

theorem pure {d : Expdesc} (h : d.isConstant = false) :
    NotConstant (Pure.pure d : Lower α Expdesc) :=
  fun _ => ensures_pure.mpr h

theorem throw {e : LowerError} : NotConstant (MonadExcept.throw e : Lower α Expdesc) :=
  fun _ => ensures_throw.mpr trivial

theorem bind {m : Lower α X} {f : X → Lower α Expdesc} (h : ∀ b, NotConstant (f b)) :
    NotConstant (m >>= f) :=
  fun _ => ensures_bind.mpr fun b t _ => h b t

theorem globalVar (name : Name) : NotConstant (globalVar name : Lower α Expdesc) := by
  refine bind fun fs => ?_
  split
  · exact bind fun _ => pure rfl
  · exact bind fun _ => bind fun _ => pure rfl

theorem searchVar (name : Name) : NotConstant (searchVar name : Lower α Expdesc) := by
  intro s d t h
  rw [Lowering.searchVar] at h
  cases hprev : s.prev with
  | nil =>
      rw [hprev, searchVarIn] at h
      split at h
      · cases h
        rfl
      · split at h
        · cases h
          rfl
        · exact globalVar name _ d t h
  | cons parent rest =>
      rw [hprev, searchVarIn] at h
      split at h
      · cases h
        rfl
      · split at h
        · cases h
          rfl
        · obtain ⟨⟨e, u⟩, -, h⟩ := StateFrame.except_bind_ok.mp h
          dsimp only at h
          split at h
          · obtain ⟨_, -, h⟩ := StateFrame.except_bind_ok.mp h
            cases h
            rfl
          · obtain ⟨_, -, h⟩ := StateFrame.except_bind_ok.mp h
            cases h
            rfl
          · exact globalVar name _ d t h

variable {lhs rhs table key : Lower α Expdesc}

theorem lowerVararg : NotConstant (lowerVararg : Lower α Expdesc) :=
  bind fun _ => bind fun _ => pure rfl

theorem lowerUn {op : UnOp} {operand : Lower α Expdesc}
    (h : op ≠ .neg ∨ ∀ s, Ensures operand s fun d _ =>
      (∀ n, d ≠ .constant (.int n)) ∧ ∀ w, d ≠ .constant (.float w)) :
    NotConstant (lowerUn op operand) := by
  intro s
  rw [Lowering.lowerUn]
  refine ensures_bind.mpr fun d t hd => ?_
  dsimp only
  split
  · obtain h | h := h
    · exact absurd rfl h
    · exact absurd rfl ((h s _ t hd).1 _)
  · obtain h | h := h
    · exact absurd rfl h
    · exact absurd rfl ((h s _ t hd).2 _)
  · exact bind (fun _ => bind fun _ => bind fun _ => bind fun _ => pure rfl) t

theorem lowerParen {inner : Lower α Expdesc} (h : NotConstant inner) :
    NotConstant (lowerParen inner) := by
  intro s
  rw [Lowering.lowerParen]
  refine ensures_bind.mpr fun d t hd => ?_
  have hd' := h s d t hd
  cases d with
  | constant k => cases hd'
  | _ => exact ensures_pure.mpr rfl

theorem lowerIndex : NotConstant (lowerIndex table key) := by
  refine bind fun _ => bind fun _ => bind fun d => ?_
  split
  · split
    · exact pure rfl
    · refine bind fun _ => ?_
      split
      · exact pure rfl
      · exact bind fun _ => pure rfl
    · exact bind fun _ => pure rfl
  · exact bind fun _ => pure rfl

theorem lowerField {field : Name} : NotConstant (lowerField table field) := by
  refine bind fun _ => bind fun _ => bind fun _ => ?_
  split
  · exact pure rfl
  · exact bind fun _ => pure rfl

theorem lowerRelAnd {op₁ op₂ : BinOp} {lhs' rhs' : Lower α Expdesc} :
    NotConstant (lowerRelAnd op₁ lhs rhs op₂ lhs' rhs') := by
  repeat refine bind fun _ => ?_
  exact pure rfl

theorem lowerLogic {isAnd : Bool} : NotConstant (lowerLogic isAnd lhs rhs) := by
  repeat refine bind fun _ => ?_
  exact pure rfl

theorem lowerConcat : NotConstant (lowerConcat lhs rhs) := by
  refine bind fun _ => bind fun _ => bind fun _ => ?_
  split
  · repeat refine bind fun _ => ?_
    exact pure rfl
  · repeat refine bind fun _ => ?_
    exact pure rfl

theorem lowerCompare {cmp : OpCode} {a : Nat} {swap : Bool} :
    NotConstant (lowerCompare cmp a swap lhs rhs) := by
  repeat refine bind fun _ => ?_
  exact pure rfl

theorem lowerArith {op : BinOp} : NotConstant (lowerArith op lhs rhs) := by
  refine bind fun _ => bind fun _ => ?_
  split
  · exact bind fun _ => bind fun _ => pure rfl
  · exact throw

theorem lowerCall {callee : Lower α Expdesc} {args : List (Item α)} {method : Option Name} :
    NotConstant (lowerCall callee args method) := by
  repeat refine bind fun _ => ?_
  exact pure rfl

theorem lowerTable {fields : List (FieldItem α)} : NotConstant (lowerTable fields) := by
  refine bind fun _ => bind fun _ => bind fun r => ?_
  split
  split
  · exact bind fun _ => bind fun _ => pure rfl
  · exact bind fun _ => pure rfl

theorem lowerFunction {params : List Name} {isVararg : Bool} {body : Block}
    {emit : Lower α Unit} : NotConstant (lowerFunction params isVararg body emit) := by
  repeat refine bind fun _ => ?_
  exact pure rfl

theorem expr : ∀ e : Expr, literal? e = none → NotConstant (expr e : Lower α Expdesc)
  | .vararg, _ => lowerVararg
  | .name name, _ => searchVar name
  | .index _ _, _ => by
      rw [Lowering.expr]
      exact lowerIndex
  | .field _ _, _ => by
      rw [Lowering.expr]
      exact lowerField
  | .bin op lhs rhs, _ => by
      cases op with
      | and =>
          cases hl : relOperands (α := α) lhs with
          | none =>
              rw [expr_and_logic (.inl hl)]
              exact lowerLogic
          | some left =>
              cases hr : relOperands (α := α) rhs with
              | none =>
                  rw [expr_and_logic (.inr hr)]
                  exact lowerLogic
              | some right =>
                  rw [expr_and_rel hl hr]
                  exact lowerRelAnd
      | or => exact lowerLogic
      | concat => exact lowerConcat
      | eq | ne | lt | gt | le | ge => exact lowerCompare
      | _ =>
          rw [expr_arith rfl]
          exact lowerArith
  | .un op operand, h => by
      rw [Lowering.expr]
      refine lowerUn ?_
      by_cases hop : op = .neg
      · subst hop
        right
        rw [literal?] at h
        cases hk : literal? operand with
        | none =>
            intro s d t hd
            have hconst := expr operand hk s d t hd
            constructor
            · rintro n rfl
              cases hconst
            · rintro w rfl
              cases hconst
        | some k =>
            intro s
            rw [expr_of_literal operand k hk, ensures_pure]
            rw [hk] at h
            constructor
            · rintro n hn
              cases hn
              cases h
            · rintro w hw
              cases hw
              cases h
      · exact .inl hop
  | .call _ _ _, _ => by
      rw [Lowering.expr]
      exact lowerCall
  | .paren inner, h => by
      rw [Lowering.expr]
      exact lowerParen (expr inner h)
  | .table _, _ => by
      rw [Lowering.expr]
      exact lowerTable
  | .function (.mk _ _ _), _ => by
      rw [Lowering.expr, function]
      exact lowerFunction

end NotConstant

/-! ## Forms without operands -/

section Forms

variable {P : Primitives V σ ε} {ρ : Env V} {names : List Name} {loose : Bool}
  {s t u : LowerState α}

theorem computes_constant (k : Const) :
    Computes (α := α) P ρ names loose (pure (.constant k)) (pure (P.const k)) := by
  intro s _ _
  rw [ensures_pure]
  exact {
    grown := .refl s
    free := Nat.le_refl _
    inRange := trivial
    kept := trivial
    leads := fun _ _ _ _ _ c hpc _ _ _ _ h => h c hpc (.refl _ c) }

theorem described_scope {ev : Eval V σ ε V} {d : Expdesc} (hgrown : Extends s t)
    (hpc : t.fs.pc = s.fs.pc) (hfree : s.fs.freereg ≤ t.fs.freereg)
    (hd : d.InRange t.fs s.fs.freereg) (hkept : d.Kept t.fs loose)
    (heval : ∀ (p : Proto α) c, Holds s.fs ρ c → t.fs.constants <+: p.constants →
      ev = d.meaning P p c) :
    Described P ρ loose s ev d t where
  grown := hgrown
  free := hfree
  inRange := hd
  kept := hkept
  leads p hsmall hcovers _ n c hc hholds Y k post h := by
    show Realises _ n c ((ev >>= k) c.world) post
    rw [heval p c hholds hcovers.constants]
    exact h c (hc.trans hpc.symm) (.refl _ c)

theorem constantAt_eq {p : Proto α} {constants : List Const} {i : Nat} {k : Const}
    (h : constants <+: p.constants) (hi : constants[i]? = some k) :
    constantAt P p i = P.const k := by
  have hlt : i < constants.length := (List.getElem?_eq_some_iff.mp hi).1
  rw [constantAt, getElem?_grown h hlt, hi]
  rfl

theorem findLocal_lt {name : Name} {reg : Nat} (hready : Ready s)
    (h : s.fs.findLocal name = some reg) : reg < s.fs.nactvar := by
  obtain ⟨l, hl, rfl⟩ := Option.map_eq_some_iff.mp h
  exact hready.locals l (List.mem_reverse.mp (List.mem_of_find?_eq_some hl))

theorem ensures_local {name : Name} {reg : Nat} (h : s.fs.findLocal name = some reg)
    {Q : Expdesc → LowerState α → Prop} : Ensures (searchVar name) s Q ↔ Q (.local reg) s := by
  have hrun : (searchVar name : Lower α Expdesc) s = .ok (.local reg, s) := by
    rw [searchVar, searchVarIn.eq_def]
    simp only [h]
  constructor
  · exact fun hQ => hQ _ _ hrun
  · intro hQ d t hm
    rw [hrun] at hm
    cases hm
    exact hQ

theorem ensures_upval {name : Name} {i : Nat} (h : s.fs.findLocal name = none)
    (hi : s.fs.findUpval name = some i) {Q : Expdesc → LowerState α → Prop} :
    Ensures (searchVar name) s Q ↔ Q (.upval i) s := by
  have hrun : (searchVar name : Lower α Expdesc) s = .ok (.upval i, s) := by
    rw [searchVar, searchVarIn.eq_def]
    simp only [h, hi]
  constructor
  · exact fun hQ => hQ _ _ hrun
  · intro hQ d t hm
    rw [hrun] at hm
    cases hm
    exact hQ

theorem ensures_global {name : Name} (hmain : s.prev = []) (h : s.fs.findLocal name = none)
    (hi : s.fs.findUpval name = none) {Q : Expdesc → LowerState α → Prop} :
    Ensures (searchVar name) s Q ↔ Ensures (globalVar name) s Q := by
  have hs : (⟨s.fs, []⟩ : LowerState α) = s := by rw [← hmain]
  have hrun : (searchVar name : Lower α Expdesc) s = globalVar name s := by
    rw [searchVar, searchVarIn.eq_def]
    simp only [h, hi, hmain, hs]
  rw [Ensures, Ensures, hrun]

theorem computes_name (name : Name) :
    Computes (α := α) P ρ names loose (searchVar name) (evalName P ρ name) := by
  intro s hready _
  cases hlocal : s.fs.findLocal name with
  | some reg =>
      rw [ensures_local hlocal]
      have hreg := findLocal_lt hready hlocal
      refine described_scope (.refl s) rfl (Nat.le_refl _)
        ⟨.inl hreg, Nat.lt_of_lt_of_le hreg hready.active⟩
        (Spared.of_lt (Nat.lt_of_lt_of_le hreg hready.free)) fun p c hholds _ => ?_
      have hfind := hholds.find? name
      rw [hlocal] at hfind
      rw [evalName, hfind]
      rfl
  | none =>
      by_cases hname : name = "_ENV"
      · subst hname
        rw [ensures_upval hlocal hready.env]
        refine described_scope (.refl s) rfl (Nat.le_refl _) rfl trivial fun p c hholds _ => ?_
        have hfind := hholds.find? "_ENV"
        rw [hlocal] at hfind
        rw [evalName, hfind, ← hholds.env]
        rfl
      · rw [ensures_global hready.main hlocal (hready.only name hname)]
        simp only [globalVar, ensures_bind, ensures_getFs]
        cases hlocal' : s.fs.findLocal "_ENV" with
        | some table =>
            have htable := findLocal_lt hready hlocal'
            simp only [ensures_bind, stringK]
            refine (ensures_constIndex _).mono ?_
            rintro i _ ⟨more, rfl, hi⟩
            rw [ensures_pure]
            refine described_scope (d := .globalIn table i) (extends_constants more) rfl
              (Nat.le_refl _) ⟨htable, (List.getElem?_eq_some_iff.mp hi).1⟩ trivial
              fun p c hholds hconst => ?_
            have hfind := hholds.find? name
            have hfind' := hholds.find? "_ENV"
            rw [hlocal] at hfind
            rw [hlocal'] at hfind'
            rw [evalName, hfind, hfind', Expdesc.meaning, constantAt_eq hconst hi]
            exact if_neg hname
        | none =>
            simp only [ensures_bind, ensures_discard, stringK]
            rw [ensures_ensureEnvUpval hready.env]
            refine (ensures_constIndex _).mono ?_
            rintro i _ ⟨more, rfl, hi⟩
            rw [ensures_pure]
            refine described_scope (d := .global i) (extends_constants more) rfl (Nat.le_refl _)
              (List.getElem?_eq_some_iff.mp hi).1 trivial fun p c hholds hconst => ?_
            have hfind := hholds.find? name
            have hfind' := hholds.find? "_ENV"
            rw [hlocal] at hfind
            rw [hlocal'] at hfind'
            rw [evalName, hfind, hfind', Expdesc.meaning, constantAt_eq hconst hi, hholds.env]
            exact if_neg hname

theorem exec_vararg_one {p : Proto α} {varargs : List V} {c : Config V σ} {a : Nat}
    (ha : a < 256) :
    exec P p varargs (encodeAbc .vararg a 2 0) c =
      .ok (c.set a (varargs.headD P.nil)) := by
  have hvalues : P.adjust (wantedOf 2) varargs = [varargs.headD P.nil] := by
    cases varargs with
    | nil => rfl
    | cons v vs => simp [Primitives.adjust, wantedOf]
  simp only [exec, encodeAbc, Instruction.op, Instruction.a, Instruction.b, Nat.mod_eq_of_lt ha,
    Nat.reduceMod, hvalues, Config.set]
  congr 2
  funext r
  by_cases hlt : r < a
  · rw [if_pos hlt, Function.update_of_ne (Nat.ne_of_lt hlt)]
  · rw [if_neg hlt]
    by_cases heq : r = a
    · rw [heq, Nat.sub_self, Function.update_self]
      rfl
    · rw [Function.update_of_ne heq, List.getElem?_eq_none (by simp; omega)]
      rfl

theorem computes_vararg :
    Computes (α := α) P ρ names loose lowerVararg (pure (ρ.varargs.headD P.nil)) := by
  intro s hready _
  simp only [lowerVararg, ensures_bind, ensures_newReg, ensures_discard, ensures_codeAbc,
    ensures_pure]
  intro _
  have hstack : s.fs.freereg < max s.fs.maxstack (s.fs.freereg + 1) :=
    Nat.lt_of_lt_of_le (Nat.lt_succ_self _) (Nat.le_max_right _ _)
  have hgrown := ((Extends.refl s).reserved 1).emit (encodeAbc .vararg s.fs.freereg 2 0)
  exact {
    grown := hgrown
    free := Nat.le_succ _
    inRange := ⟨.inr (Nat.le_refl _), hstack⟩
    kept := .of_lt (Nat.lt_succ_self _)
    leads := fun p hsmall hcovers hagree =>
      leads_single (fun _ => pure (ρ.varargs.headD P.nil)) (Nat.le_refl _) rfl hagree
        (fun c => exec_vararg_one (hcovers.lt hsmall hstack)) fun _ _ => rfl }

theorem computes_paren {inner : Lower α Expdesc} {ev : Eval V σ ε V}
    (h : Computes P ρ names loose inner ev) :
    Computes P ρ names loose (lowerParen inner) ev := by
  intro s hready hnames
  simp only [lowerParen, ensures_bind]
  refine (h s hready hnames).mono fun d t hd => ?_
  cases d with
  | call info => exact ensures_pure.mpr ⟨hd.grown, hd.free, hd.inRange, hd.kept, hd.leads⟩
  | _ => exact ensures_pure.mpr hd

/-! ## Unary operators -/

def unOperation (P : Primitives V σ ε) (op : UnOp) (v : V) : Op σ ε V :=
  match op with
  | .not => pure (P.const (.bool (!P.isTruthy v)))
  | op => P.unary (unOpCode op) v

theorem evalUn_eq (op : UnOp) (v : V) :
    (evalUn P op v : Eval V σ ε V) = lift (unOperation P op v) := by
  cases op <;> rfl

theorem exec_un {p : Proto α} {varargs : List V} {c : Config V σ} {a b : Nat} (op : UnOp)
    (ha : a < 256) (hb : b < 256) :
    exec P p varargs (encodeAbc (unOpCode op) a b 0) c =
      operate (unOperation P op (c.regs b)) (fun v c => c.set a v) c := by
  cases op <;>
    simp only [exec, encodeAbc, Instruction.op, Instruction.a, Instruction.b, unOpCode,
      unOperation, Nat.mod_eq_of_lt ha, Nat.mod_eq_of_lt hb, operate_pure]

theorem Described.negated {loose' : Bool} {ev : Eval V σ ε V} {k k' : Const}
    (h : Described P ρ loose s ev (.constant k) t)
    (hneg : P.unary .unm (P.const k) = pure (P.const k')) :
    Described P ρ loose' s (ev >>= evalUn P .neg) (.constant k') t where
  grown := h.grown
  free := h.free
  inRange := trivial
  kept := trivial
  leads p hsmall hcovers hagree n c hpc hholds Y f post hend := by
    rw [bind_assoc]
    refine h.leads p hsmall hcovers hagree n c hpc hholds Y _ post fun c' hpc' hsame => ?_
    show Realises _ n c' ((lift (P.unary .unm (P.const k)) >>= f) c'.world) post
    rw [hneg]
    exact hend c' hpc' hsame

/--
The result is behind the operand, whose register is free again if it is a
temporary.
-/
theorem Operand.un {loose' : Bool} {ev : Eval V σ ε V} {r : Nat} (op : UnOp) (hready : Ready s)
    (h : Operand P ρ s.fs.freereg loose s (fun _ _ => ev) r t)
    (htight : loose' = false → r < t.fs.nactvar) :
    Ensures (do
      let dest ← newReg
      discard (codeAbc (unOpCode op) dest r 0)
      modifyFs (·.freeReg r)
      return .nonrelocable dest) t (Described P ρ loose' s (ev >>= evalUn P op)) := by
  simp only [ensures_bind, ensures_newReg, ensures_discard, ensures_codeAbc, ensures_modifyFs,
    ensures_pure]
  intro _
  have hready' : Ready t := hready.extends h.grown h.free
  have hstack : t.fs.freereg < max t.fs.maxstack (t.fs.freereg + 1) :=
    Nat.lt_of_lt_of_le (Nat.lt_succ_self _) (Nat.le_max_right _ _)
  have hactive : s.fs.nactvar ≤ s.fs.freereg := hready.free
  let v : LowerState α :=
    { t with fs := (t.fs.reserved 1).emit (encodeAbc (unOpCode op) t.fs.freereg r 0) }
  have hgrown : Extends t v := ((Extends.refl t).reserved 1).emit _
  have hleads (p : Proto α) (hsmall : Small p) (hcovers : Covers p v.fs)
      (hagree : Agree p v.fs s.fs.pc v.fs.pc) :
      Leads P p ρ s.fs.freereg s v (fun _ => ev >>= evalUn P op)
        fun c => pure (c.regs t.fs.freereg) := by
    have hcovers' := hcovers.before hgrown
    have hfirst := h.leads p hsmall hcovers'
      ((hagree.mono (Nat.le_refl _) hgrown.pc).before hgrown (Nat.le_refl _))
    refine hfirst.bind (g := fun c => c.regs r) hready h.grown hready.free ?_
    simp only [evalUn_eq]
    exact leads_single (fun c => unOperation P op (c.regs r)) h.free rfl
      (hagree.mono h.grown.pc (Nat.le_refl _))
      (fun c => exec_un op (hcovers.lt hsmall hstack) (hcovers'.lt hsmall h.register.2))
      fun _ _ => rfl
  by_cases hr : t.fs.nactvar ≤ r
  · have hfree : v.fs.freeReg r = v.fs.setFreereg r := if_pos hr
    rw [hfree]
    have hbelow : s.fs.freereg ≤ r := h.register.1.resolve_left (Nat.not_lt.mpr hr)
    exact {
      grown := h.grown.trans (hgrown.setFreereg r)
      free := hbelow
      inRange := ⟨.inr h.free, hstack⟩
      kept := ⟨h.kept.next.symm, fun hloose => absurd (htight hloose) (Nat.not_lt.mpr hr)⟩
      leads := fun p hsmall hcovers hagree =>
        (hleads p hsmall ⟨hcovers.constants, hcovers.maxstack⟩ hagree).to rfl }
  · have hfree : v.fs.freeReg r = v.fs := if_neg hr
    rw [hfree]
    exact {
      grown := h.grown.trans hgrown
      free := Nat.le_succ_of_le h.free
      inRange := ⟨.inr h.free, hstack⟩
      kept := .of_lt (Nat.lt_succ_self _)
      leads := hleads }

theorem computes_un {loose' : Bool} {operand : Lower α Expdesc} {ev : Eval V σ ε V} (op : UnOp)
    (h : Computes P ρ names loose operand ev)
    (hlocal : loose' = false → ∀ s, Ready s → s.fs.locals.map Local.name = names →
      Ensures operand s fun d t => ∃ reg, d = .local reg ∧ reg < t.fs.nactvar) :
    Computes P ρ names loose' (lowerUn op operand) (ev >>= evalUn P op) := by
  intro s hready hnames
  simp only [lowerUn, ensures_bind]
  have hplace := (h s hready hnames).and (h.operand hready hnames fun _ _ hr => hr)
  have hcases : Ensures operand s fun d t => (Described P ρ loose s ev d t ∧
      Ensures (exp2reg d) t (Operand P ρ s.fs.freereg loose s fun _ _ => ev)) ∧
        (loose' = false → ∃ reg, d = .local reg ∧ reg < t.fs.nactvar) :=
    fun d t hd => ⟨hplace d t hd, fun hloose => hlocal hloose s hready hnames d t hd⟩
  refine hcases.mono fun d t hd => ?_
  obtain ⟨⟨hdesc, hreg⟩, htight⟩ := hd
  split
  · exact ensures_pure.mpr (hdesc.negated (P.neg_int _))
  · exact ensures_pure.mpr (hdesc.negated (P.neg_float _))
  · rw [ensures_bind]
    intro r u hr
    refine (hreg r u hr).un op hready fun hloose => ?_
    obtain ⟨reg, rfl, hlt⟩ := htight hloose
    cases hr
    exact hlt

/-! ## Fields of a table -/

theorem constUint8Index_le {k : Const} {n : Nat} (h : constUint8Index k = some n) : n ≤ 255 := by
  cases k with
  | int m =>
      rw [constUint8Index] at h
      split at h
      · cases h
        omega
      · cases h
  | float w =>
      rw [constUint8Index] at h
      split at h
      · rename_i q _
        split at h
        · rename_i hq
          cases h
          have hle : ⌊q⌋ ≤ 255 := by exact_mod_cast hq.1.trans_le hq.2.2
          omega
        · cases h
      · cases h
  | _ => cases h

/-- The table and the key of an access are where its description says. -/
structure Slot (P : Primitives V σ ε) (ρ : Env V) (s : LowerState α) (ev : Eval V σ ε (V × V))
    (table key : Nat) (indexKey : IndexKey) (t : LowerState α) : Prop where
  grown : Extends s t
  free : s.fs.freereg ≤ t.fs.freereg
  stack : table < t.fs.maxstack
  kept : table < t.fs.freereg
  inRange : indexKey.InRange t.fs key
  next : indexKey = .reg → key ≠ t.fs.freereg
  leads : ∀ p, Small p → Covers p t.fs → Agree p t.fs s.fs.pc t.fs.pc →
    Leads P p ρ s.fs.freereg s t (fun _ => ev)
      fun c => pure (c.regs table, indexKey.value P p c key)

/-- An access that is lowered where the locals have these names; `ev` is its table and key. -/
def Slots (P : Primitives V σ ε) (ρ : Env V) (names : List Name) (m : Lower α Expdesc)
    (ev : Eval V σ ε (V × V)) : Prop :=
  ∀ s, Ready s → s.fs.locals.map Local.name = names → Ensures m s fun d t =>
    ∃ table key indexKey, d = .indexed table key indexKey ∧
      Slot P ρ s ev table key indexKey t

theorem Slots.computes {m : Lower α Expdesc} {ev : Eval V σ ε (V × V)}
    (h : Slots P ρ names m ev) :
    Computes P ρ names loose m (ev >>= fun x => lift (P.index x.1 x.2)) := by
  intro s hready hnames
  refine (h s hready hnames).mono ?_
  rintro _ t ⟨table, key, indexKey, rfl, ht⟩
  refine {
    grown := ht.grown
    free := ht.free
    inRange := ⟨ht.stack, ht.inRange⟩
    kept := trivial
    leads := fun p hsmall hcovers hagree n c hpc hholds Y k post hend => ?_ }
  rw [bind_assoc]
  refine ht.leads p hsmall hcovers hagree n c hpc hholds Y _ post fun c' hpc' hsame => ?_
  rw [pure_bind]
  exact hend c' hpc' hsame

theorem Operand.slot {evt evk : Eval V σ ε V} {rt key : Nat} {indexKey : IndexKey}
    (hready : Ready s) (h : Operand P ρ s.fs.freereg false s (fun _ _ => evt) rt t)
    (hgrown : Extends t u) (hfree : t.fs.freereg ≤ u.fs.freereg)
    (hkey : indexKey.InRange u.fs key) (hnext : indexKey = .reg → key ≠ u.fs.freereg)
    (hleads : ∀ p, Small p → Covers p u.fs → Agree p u.fs t.fs.pc u.fs.pc →
      Leads P p ρ t.fs.freereg t u (fun _ => evk) fun c => pure (indexKey.value P p c key)) :
    Slot P ρ s (evt >>= fun x => evk >>= fun k => pure (x, k)) rt key indexKey u where
  grown := h.grown.trans hgrown
  free := h.free.trans hfree
  stack := Nat.lt_of_lt_of_le h.register.2 hgrown.maxstack
  kept := Nat.lt_of_lt_of_le (h.kept.kept rfl) hfree
  inRange := hkey
  next := hnext
  leads p hsmall hcovers hagree := by
    have hfirst := h.leads p hsmall (hcovers.before hgrown)
      ((hagree.mono (Nat.le_refl _) hgrown.pc).before hgrown (Nat.le_refl _))
    have hsecond := hleads p hsmall hcovers (hagree.mono h.grown.pc (Nat.le_refl _))
    refine hfirst.bind hready h.grown hready.free (?_ : Leads P p ρ s.fs.freereg t u
      (fun c => (fun x => evk >>= fun k => pure (x, k)) (c.regs rt)) _)
    refine (hsecond.keep (f := fun c => c.regs rt) fun c c' hsame => ?_).mono h.free
    exact hsame.regs rt (h.kept.kept rfl)

theorem leads_key {floor : Nat} {p : Proto α} {v : V} {key : Nat} {indexKey : IndexKey}
    (hpc : u.fs.pc = t.fs.pc)
    (hvalue : ∀ c : Config V σ, indexKey.value P p c key = v) :
    Leads P p ρ floor t u (fun _ => pure v) fun c => pure (indexKey.value P p c key) := by
  intro n c hc _ Y f post hend
  simp only [hvalue] at hend
  exact hend c (hc.trans hpc.symm) (.refl _ c)

theorem Leads.since {floor : Nat} {p : Proto α} {v : LowerState α}
    {ev res : Config V σ → Eval V σ ε X} (h : Leads P p ρ floor u v ev res)
    (hgrown : Extends t u) (hpc : u.fs.pc = t.fs.pc) : Leads P p ρ floor t v ev res :=
  fun n c hc hholds => h n c (hc.trans hpc.symm)
    ⟨by rw [hgrown.locals]; exact hholds.scope, hholds.env⟩

theorem slots_field {table : Lower α Expdesc} {evt : Eval V σ ε V}
    (h : Computes P ρ names false table evt) (field : Name) :
    Slots P ρ names (lowerField table field)
      (evt >>= fun x => pure (P.const (.string field)) >>= fun k => pure (x, k)) := by
  intro s hready hnames
  simp only [lowerField, ensures_bind]
  refine h.operand hready hnames fun rt t ht => ?_
  refine (ensures_constIndex _).mono ?_
  rintro ki _ ⟨more, rfl, hki⟩
  have hlt : ki < (t.fs.constants ++ more).length := (List.getElem?_eq_some_iff.mp hki).1
  simp only [loadKey, ensures_ite, ensures_pure, ensures_bind, ensures_newReg, ensures_discard,
    ensures_codeAbx]
  refine ⟨fun hle => ⟨rt, ki, .constStr, rfl, ?_⟩, fun hle _ => ⟨rt, _, .reg, rfl, ?_⟩⟩
  · exact ht.slot hready (extends_constants more) (Nat.le_refl _) ⟨hle, hlt⟩
      (fun hreg => by cases hreg)
      fun p _ hcovers _ => leads_key rfl fun _ => constantAt_eq hcovers.constants hki
  · refine ht.slot hready (((extends_constants more).reserved 1).emit _) (Nat.le_succ _)
      (Nat.lt_of_lt_of_le (Nat.lt_succ_self _) (Nat.le_max_right _ _))
      (fun _ => Nat.ne_of_lt (Nat.lt_succ_self _)) fun p hsmall hcovers hagree => ?_
    have hconst : p.constants[ki]? = some (.string field) := by
      rw [getElem?_grown hcovers.constants hlt]
      exact hki
    have hlt' : ki < 65536 :=
      Nat.lt_of_lt_of_le (List.getElem?_eq_some_iff.mp hconst).1 hsmall.constants
    exact leads_single (fun _ => pure (P.const (.string field))) (Nat.le_refl _) rfl hagree
      (fun c => exec_loadK (hcovers.lt hsmall
        (Nat.lt_of_lt_of_le (Nat.lt_succ_self _) (Nat.le_max_right _ _))) hlt' hconst)
      fun _ _ => rfl

theorem slots_index {table key : Lower α Expdesc} {evt evk : Eval V σ ε V}
    (ht : Computes P ρ names false table evt) (hk : Computes P ρ names loose key evk)
    (hconst : NotConstant key) :
    Slots P ρ names (lowerIndex table key) (evt >>= fun x => evk >>= fun k => pure (x, k)) := by
  intro s hready hnames
  simp only [lowerIndex, ensures_bind]
  refine ht.operand hready hnames fun rt t ht => ?_
  have hready' : Ready t := hready.extends ht.grown ht.free
  have hplace := hk.operand hready' (by rw [ht.grown.locals, hnames]) fun _ _ hr => hr
  refine (hplace.and (hconst t)).mono ?_
  rintro d u ⟨hreg, hd⟩
  split
  · cases hd
  · rw [ensures_bind]
    refine hreg.mono fun r v hr => ?_
    rw [ensures_pure]
    exact ⟨rt, r, .reg, rfl, ht.slot hready hr.grown hr.free hr.register.2
      (fun _ => hr.kept.next) hr.leads⟩

theorem slots_index_constant {table : Lower α Expdesc} {evt : Eval V σ ε V}
    (ht : Computes P ρ names false table evt) (k : Const) :
    Slots P ρ names (lowerIndex table (pure (.constant k)))
      (evt >>= fun x => pure (P.const k.key) >>= fun k => pure (x, k)) := by
  intro s hready hnames
  simp only [lowerIndex, ensures_bind]
  refine ht.operand hready hnames fun rt t ht => ?_
  rw [ensures_pure]
  dsimp only
  have hreg (hkey : k.key = k) (u : LowerState α) (hgrown : Extends t u)
      (hpc : u.fs.pc = t.fs.pc) (hfree : t.fs.freereg ≤ u.fs.freereg) :
      Ensures (do return Expdesc.indexed rt (← exp2reg (.constant k)) .reg) u fun d v =>
        ∃ table key indexKey, d = Expdesc.indexed table key indexKey ∧ Slot P ρ s
          (evt >>= fun x => pure (P.const k.key) >>= fun k => pure (x, k))
          table key indexKey v := by
    rw [hkey, ensures_bind]
    refine (operand_constant (P := P) (ρ := ρ) true hfree k).mono fun r v hr => ?_
    rw [ensures_pure]
    exact ⟨rt, r, .reg, rfl, ht.slot hready (hgrown.trans hr.grown) (hfree.trans hr.free)
      hr.register.2 (fun _ => hr.kept.next) fun p hsmall hcovers hagree =>
        (hr.leads p hsmall hcovers (hpc ▸ hagree)).since hgrown hpc⟩
  split
  · rename_i imm himm
    rw [ensures_pure]
    refine ⟨rt, imm, .intImm, rfl, ht.slot hready (.refl t) (Nat.le_refl _)
      (constUint8Index_le himm) (fun hreg => by cases hreg) fun p _ _ _ =>
        leads_key rfl fun c => ?_⟩
    rw [IndexKey.value, Const.key, himm]
  · rename_i text hnone
    rw [ensures_bind]
    refine (ensures_constIndex _).mono ?_
    rintro ki _ ⟨more, rfl, hki⟩
    rw [ensures_ite]
    refine ⟨fun hle => ?_, fun _ => ?_⟩
    · rw [ensures_pure]
      exact ⟨rt, ki, .constStr, rfl, ht.slot hready (extends_constants more) (Nat.le_refl _)
        ⟨hle, (List.getElem?_eq_some_iff.mp hki).1⟩ (fun hreg => by cases hreg)
        fun p _ hcovers _ => leads_key rfl fun _ => constantAt_eq hcovers.constants hki⟩
    · exact hreg rfl _ (extends_constants more) rfl (Nat.le_refl _)
  · rename_i hnone
    exact hreg (by rw [Const.key, hnone]) t (.refl t) rfl (Nat.le_refl _)

end Forms

end Luatier.Lowering
