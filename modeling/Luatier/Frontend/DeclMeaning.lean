import Luatier.Frontend.StmtMeaning

/-!
# The code of a declaration of locals

The values of a declaration stay where they are.
-/

namespace Luatier.Lowering

open Realising

variable {α V σ ε X Y Z : Type}

def declared : Nat → List Name → List Local
  | _, [] => []
  | first, name :: names => ⟨name, first, false⟩ :: declared (first + 1) names

section Declared

variable {s t u : LowerState α} {first : Nat} {names : List Name}

theorem map_name_declared : ∀ (names : List Name) (first : Nat),
    (declared first names).map Local.name = names
  | [], _ => rfl
  | name :: names, first => congrArg (name :: ·) (map_name_declared names (first + 1))

theorem mem_declared : ∀ (names : List Name) (first : Nat) (l : Local),
    l ∈ declared first names →
      l.captured = false ∧ first ≤ l.reg ∧ l.reg < first + names.length
  | [], _, _, hl => by cases hl
  | name :: names, first, l, hl => by
      rw [List.length_cons]
      rcases List.mem_cons.mp hl with rfl | hl
      · refine ⟨rfl, Nat.le_refl first, ?_⟩
        show first < _
        omega
      · have := mem_declared names (first + 1) l hl
        refine ⟨this.1, ?_, ?_⟩ <;> omega

theorem declared_sorted : ∀ (names : List Name) (first : Nat),
    (declared first names).Pairwise fun l l' => l.reg < l'.reg
  | [], _ => .nil
  | name :: names, first => by
      refine .cons (fun l hl => ?_) (declared_sorted names (first + 1))
      exact (mem_declared names (first + 1) l hl).2.1

theorem activeVars_append (locals : List Local) : ∀ more : List Local,
    activeVars (more ++ locals) = max (activeVars more) (activeVars locals)
  | [] => (Nat.zero_max _).symm
  | l :: more => by
      rw [List.cons_append, activeVars, activeVars, activeVars_append locals more, max_assoc]

theorem activeVars_declared : ∀ (names : List Name) (first : Nat), names ≠ [] →
    activeVars (declared first names) = first + names.length
  | [name], first, _ => by
      rw [declared, declared, activeVars, activeVars]
      simp
  | name :: name' :: names, first, _ => by
      rw [declared, activeVars, activeVars_declared (name' :: names) (first + 1)
        (List.cons_ne_nil _ _)]
      simp only [List.length_cons]
      omega

theorem map_declared (c : Config V σ) : ∀ (names : List Name) (first : Nat),
    (declared first names).map (fun l => (l.name, c.regs l.reg)) =
      names.zip (c.between first (first + names.length))
  | [], _ => rfl
  | name :: names, first => by
      have hlast : first + (names.length + 1) = first + 1 + names.length := by omega
      rw [declared, List.map_cons, map_declared c names (first + 1), List.length_cons,
        between_cons, hlast, List.zip_cons_cons]

structure Pushed (s : LowerState α) (first : Nat) (names : List Name) (t : LowerState α) :
    Prop where
  code : t.fs.code = s.fs.code
  constants : t.fs.constants = s.fs.constants
  upvalues : t.fs.upvalues = s.fs.upvalues
  maxstack : t.fs.maxstack = s.fs.maxstack
  breakList : t.fs.breakList = s.fs.breakList
  pendingGotos : t.fs.pendingGotos = s.fs.pendingGotos
  prev : t.prev = s.prev
  locals : t.fs.locals = s.fs.locals ++ declared first names
  active : activeVars s.fs.locals = s.fs.nactvar → activeVars t.fs.locals = t.fs.nactvar

theorem pushLocals_ok (base : Nat) : ∀ (names : List Name) (i : Nat) (s : LowerState α),
    Ensures (pushLocals base i names) s fun _ t => Pushed s (base + i) names t
  | [], i, s => by
      rw [pushLocals, ensures_pure]
      exact ⟨rfl, rfl, rfl, rfl, rfl, rfl, rfl, (List.append_nil _).symm, id⟩
  | name :: names, i, s => by
      simp only [pushLocals, pushLocal, checkLimit, ensures_bind, ensures_getFs, ensures_ite,
        ensures_throw, ensures_pure, ensures_modifyFs]
      refine ⟨fun _ => trivial, fun _ => ?_⟩
      refine (pushLocals_ok base names (i + 1) _).mono fun _ t ht => ?_
      refine ⟨ht.code, ht.constants, ht.upvalues, ht.maxstack, ht.breakList, ht.pendingGotos,
        ht.prev, ?_, fun hactive => ht.active ?_⟩
      · rw [ht.locals]
        exact List.append_assoc _ _ _
      · show activeVars (s.fs.locals ++ [⟨name, base + i, false⟩]) = _
        rw [activeVars_append, hactive, activeVars, activeVars, Nat.max_zero]
        rfl

namespace Pushed

variable (hs : Sited s) (h : Pushed s first names t) (hnames : names ≠ [])
  (hfirst : s.fs.nactvar ≤ first)
include hs h hnames hfirst

theorem nactvar : t.fs.nactvar = first + names.length := by
  rw [← h.active hs.active, h.locals, activeVars_append, activeVars_declared names first hnames,
    hs.active]
  omega

theorem sited (hstack : first + names.length ≤ s.fs.maxstack) (m : Nat)
    (hm : t.fs.nactvar ≤ m) : Sited { t with fs := t.fs.setFreereg m } where
  ready := {
    main := h.prev.trans hs.ready.main
    env := by
      show t.fs.findUpval "_ENV" = _
      rw [FuncState.findUpval, h.upvalues]
      exact hs.ready.env
    only := fun name hname => by
      show t.fs.findUpval name = _
      rw [FuncState.findUpval, h.upvalues]
      exact hs.ready.only name hname
    locals := fun l hl => by
      show l.reg < t.fs.nactvar
      have hl' : l ∈ s.fs.locals ++ declared first names := h.locals ▸ hl
      rw [h.nactvar hs hnames hfirst]
      rcases List.mem_append.mp hl' with hl' | hl'
      · have := hs.ready.locals l hl'
        omega
      · exact (mem_declared names first l hl').2.2
    free := hm
    active := by
      show t.fs.nactvar ≤ t.fs.maxstack
      rw [h.nactvar hs hnames hfirst, h.maxstack]
      exact hstack }
  uncaptured l hl := by
    have hl' : l ∈ s.fs.locals ++ declared first names := h.locals ▸ hl
    rcases List.mem_append.mp hl' with hl' | hl'
    · exact hs.uncaptured l hl'
    · exact (mem_declared names first l hl').1
  sorted := by
    show t.fs.locals.Pairwise _
    rw [h.locals]
    refine List.pairwise_append.mpr ⟨hs.sorted, declared_sorted names first, fun l hl l' hl' => ?_⟩
    have := hs.ready.locals l hl
    have := (mem_declared names first l' hl').2.1
    omega
  active := h.active hs.active
  gotos := h.pendingGotos.trans hs.gotos
  breaks j hj := by
    have hj' : j ∈ s.fs.breakList := h.breakList ▸ hj
    show j < t.fs.code.length
    rw [h.code]
    exact hs.breaks j hj'

theorem grown (m : Nat) : Grown s { t with fs := t.fs.setFreereg m } where
  code := by
    show _ <+: t.fs.code
    rw [h.code]
  constants := by
    show _ <+: t.fs.constants
    rw [h.constants]
  maxstack := Nat.le_of_eq h.maxstack.symm
  nactvar := by
    show _ ≤ t.fs.nactvar
    rw [h.nactvar hs hnames hfirst]
    omega
  locals := ⟨_, h.locals, fun l hl => hfirst.trans (mem_declared names first l hl).2.1⟩
  breaks := ⟨[], by rw [List.append_nil]; exact h.breakList, by simp⟩

end Pushed

section Holds

variable {ρ : Env V} {c c' : Config V σ} {values : List V}

theorem Pushed.holds (h : Pushed s first names t) (hholds : Holds s.fs ρ c)
    (hvalues : c.between first (first + names.length) = values) {fs : FuncState α}
    (hfs : fs.locals = t.fs.locals) : Holds fs (ρ.push names values) c where
  scope := by
    rw [hfs, h.locals, List.map_append, hholds.scope, map_declared, hvalues]
    rfl
  env := hholds.env

end Holds

theorem row_ok {P : Primitives V σ ε} {locals : List Name} {es : List Expr} {n : Nat}
    (hs : Ready s) (hlocals : s.fs.locals.map Local.name = locals)
    (hcorrect : ∀ ρ : Env V, ∀ e ∈ es, Correct α P ρ locals e) (hlen : es.length ≤ n) {base : Nat}
    (hbase : s.fs.freereg = base) {Q : Nat → LowerState α → Prop}
    (hQ : ∀ filled t, (∀ ρ : Env V, RowCode P ρ s base n (evalUpTo P ρ n es) t) →
      base ≤ t.fs.freereg → (fills n es → t.fs.freereg = base + n) → Q filled t) :
    Ensures (fillValues base n 0 (exprItems es)) s fun filled t =>
      Ensures (padNil base n filled) t fun _ u => Q filled u := by
  have hrow (ρ : Env V) := fillValues_ok (P := P) (ρ := ρ) base n es 0 s (hcorrect ρ) (by omega)
    hs hlocals (hbase ▸ hs.free) hbase
  intro filled t hfill u v hpad
  have hall (ρ : Env V) := hrow ρ filled t hfill u v hpad
  obtain ⟨-, hfree, hfills⟩ := hall ⟨[], P.nil, []⟩
  exact hQ filled v (fun ρ => (hall ρ).1) hfree hfills

theorem executes_localDecl {P : Primitives V σ ε} {inLoop : Bool} {locals : List Name}
    {values : List Expr} (hnames : names ≠ []) (hlen : values.length ≤ names.length)
    (hcorrect : ∀ ρ : Env V, ∀ e ∈ values, Correct α P ρ locals e) :
    Executes (α := α) P inLoop locals names (lowerLocalDecl names (exprItems values))
      fun fuel => execStmt P fuel (.localDecl names values) := by
  intro s hs hlocals
  simp only [lowerLocalDecl, freeToActive, ensures_bind, ensures_modifyFs, ensures_getFs]
  let s₁ : LowerState α := { s with
    fs := (s.fs.setFreereg s.fs.nactvar).raiseMaxstack (s.fs.nactvar + names.length) }
  have hgrown₁ : Extends s s₁ :=
    ((Extends.refl s).setFreereg _).trans (extends_raiseMaxstack _ _)
  have hsited₁ : Sited s₁ := hs.extends hgrown₁ (Nat.le_refl _)
  refine row_ok (s := s₁) hsited₁.ready hlocals hcorrect hlen rfl fun filled t hrow hfree _ => ?_
  have hst : Extends s₁ t := (hrow ⟨[], P.nil, []⟩).grown
  have hsited : Sited t := hsited₁.extends hst hfree
  refine (pushLocals_ok s.fs.nactvar names 0 t).mono fun _ u hu => ?_
  have hstack : s.fs.nactvar + names.length ≤ t.fs.maxstack :=
    (Nat.le_max_right _ _).trans hst.maxstack
  have hactive : t.fs.nactvar ≤ s.fs.nactvar := Nat.le_of_eq (hgrown₁.trans hst).nactvar
  have hgrown := (hgrown₁.trans hst).onward.trans (hu.grown hsited hnames hactive u.fs.nactvar)
  refine ⟨⟨hgrown, hu.sited hsited hnames hactive hstack _ (Nat.le_refl _), fun _ => ?_, ?_⟩, ?_⟩
  · exact hu.breakList.trans (hgrown₁.trans hst).breakList
  · intro p fuel exit hsmall hcovers hexit hfollows n ρ c hn hpc hholds Y k post hnext hbroke
    have hcovers' : Covers p t.fs :=
      ⟨hu.constants ▸ hcovers.constants, hu.maxstack ▸ hcovers.maxstack⟩
    have hle := hcovers'.maxstack.trans hsmall.maxstack
    have hpc' : u.fs.pc = t.fs.pc := congrArg List.length hu.code
    have hbreaks : u.fs.breakList = s.fs.breakList :=
      hu.breakList.trans (hgrown₁.trans hst).breakList
    have hagree : Agree p t.fs s.fs.pc t.fs.pc := by
      have hagree' := hfollows.agree (t := { u with fs := u.fs.setFreereg u.fs.nactvar }) hs
        hbreaks (Nat.le_refl _)
      intro i hlo hhi
      rw [hagree' i hlo (hpc'.symm ▸ hhi), ← hu.code]
      rfl
    have hlast : s.fs.nactvar + names.length < 255 := by omega
    rw [execStmt, bind_assoc]
    refine (hrow ρ).delivers p hsmall hcovers' hlast hagree n c hpc
      ⟨hholds.scope, hholds.env⟩ Y _ post fun values c' hpc₁ hsame hvalues => ?_
    rw [pure_bind]
    have hholds' := hholds.same_first hs (hgrown₁.trans hst).locals (Nat.le_refl _) hsame
    exact hnext _ c' (hpc₁.trans hpc'.symm)
      ⟨hu.holds hholds' hvalues.2 rfl, rfl, fun r hr _ => hsame.regs r hr⟩
  · show u.fs.locals.map Local.name = _
    rw [hu.locals, List.map_append, map_name_declared, (hgrown₁.trans hst).locals, hlocals]

end Declared

end Luatier.Lowering
