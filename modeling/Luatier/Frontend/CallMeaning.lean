import Luatier.Frontend.ValueMeaning

/-!
# The code of a call

The function and its arguments stand in a row of registers, and so do the results.
-/

namespace Luatier.Lowering

open Realising

variable {α V σ ε X Y Z : Type}

/-! ## Rows of registers -/

section Between

variable {c c' : Config V σ} {first n : Nat}

theorem between_self : c.between first first = [] := by
  rw [Config.between, Nat.sub_self]
  rfl

theorem between_cons : c.between first (first + (n + 1)) =
    c.regs first :: c.between (first + 1) (first + (n + 1)) := by
  have hlen : first + (n + 1) - first = n + 1 := Nat.add_sub_cancel_left _ _
  have hlen' : first + (n + 1) - (first + 1) = n := by omega
  rw [Config.between, Config.between, hlen, hlen', List.range'_succ, List.map_cons]

theorem between_congr {last : Nat} (h : ∀ r, first ≤ r → r < last → c'.regs r = c.regs r) :
    c'.between first last = c.between first last := by
  refine List.map_congr_left fun r hr => ?_
  obtain ⟨hlo, hhi⟩ := List.mem_range'_1.mp hr
  exact h r hlo (by omega)

theorem between_eq {values : List V}
    (h : ∀ i (hi : i < values.length), c.regs (first + i) = values[i]) :
    c.between first (first + values.length) = values := by
  rw [Config.between, Nat.add_sub_cancel_left]
  refine List.ext_getElem (by simp) fun i _ hi => ?_
  rw [List.getElem_map, List.getElem_range', Nat.one_mul]
  exact h i hi

end Between

section Delivers

variable {P : Primitives V σ ε} {p : Proto α} {ρ : Env V} {s t u : LowerState α}
  {floor : Nat}

/-- The code evaluates `ev`, and leaves its value as `got` says. -/
def Delivers (P : Primitives V σ ε) (p : Proto α) (ρ : Env V) (floor : Nat)
    (s t : LowerState α) (ev : Eval V σ ε X) (got : X → Config V σ → Prop) : Prop :=
  ∀ n c, c.pc = s.fs.pc → Holds s.fs ρ c →
    ∀ (Y : Type) (k : X → Eval V σ ε Y) (post : Y × σ → Config V σ → Prop),
      (∀ x c', c'.pc = t.fs.pc → Same floor c c' → got x c' →
        Realises (advance P p ρ.varargs) n c' (k x c'.world) post) →
      Realises (advance P p ρ.varargs) n c ((ev >>= k) c.world) post

theorem Leads.delivers {ev : Eval V σ ε X} {g : Config V σ → X}
    (h : Leads P p ρ floor s t (fun _ => ev) fun c => pure (g c)) :
    Delivers P p ρ floor s t ev fun x c => x = g c := by
  intro n c hpc hholds Y k post hend
  refine h n c hpc hholds Y k post fun c' hpc' hsame => ?_
  rw [pure_bind]
  exact hend (g c') c' hpc' hsame rfl

theorem Delivers.mono {floor' : Nat} {ev : Eval V σ ε X} {got got' : X → Config V σ → Prop}
    (h : Delivers P p ρ floor' s t ev got) (hfloor : floor ≤ floor')
    (hgot : ∀ x c, got x c → got' x c) : Delivers P p ρ floor s t ev got' :=
  fun n c hpc hholds Y k post hend => h n c hpc hholds Y k post fun x c' hpc' hsame hx =>
    hend x c' hpc' (hsame.mono hfloor) (hgot x c' hx)

theorem Delivers.andThen {floor' : Nat} {ev : Eval V σ ε X} {ev' : Eval V σ ε Y}
    {got : X → Config V σ → Prop} {got' : Y → Config V σ → Prop} {f : X → Y → Z}
    (hready : Ready s) (hgrown : Extends s t) (hactive : s.fs.nactvar ≤ floor)
    (hfloor : floor ≤ floor') (h : Delivers P p ρ floor s t ev got)
    (h' : Delivers P p ρ floor' t u ev' got')
    (hstay : ∀ x c c', got x c → Same floor' c c' → got x c') :
    Delivers P p ρ floor s u (ev >>= fun x => ev' >>= fun y => pure (f x y))
      fun z c => ∃ x y, z = f x y ∧ got x c ∧ got' y c := by
  intro n c hpc hholds W k post hend
  rw [bind_assoc]
  refine h n c hpc hholds W _ post fun x c₁ hpc₁ hsame₁ hx => ?_
  rw [bind_assoc]
  refine h' n c₁ hpc₁ (hholds.extends hready hgrown hactive hsame₁) W _ post
    fun y c₂ hpc₂ hsame₂ hy => ?_
  rw [pure_bind]
  exact hend (f x y) c₂ hpc₂ (hsame₁.trans (hsame₂.mono hfloor))
    ⟨x, y, rfl, hstay x c₁ c₂ hx hsame₂, hy⟩

theorem Delivers.within {u v : LowerState α} {ev : Eval V σ ε X}
    {got : X → Config V σ → Prop} (h : Delivers P p ρ floor s t ev got)
    (hpc : s.fs.pc = u.fs.pc) (hlocals : s.fs.locals = u.fs.locals)
    (hpc' : v.fs.pc = t.fs.pc) : Delivers P p ρ floor u v ev got :=
  fun n c hc hholds Y k post hend =>
    h n c (hc.trans hpc.symm) ⟨by rw [hlocals]; exact hholds.scope, hholds.env⟩ Y k post
      fun x c' hc' => hend x c' (hc'.trans hpc'.symm)

end Delivers

/-! ## One value in its place -/

section Place

variable {P : Primitives V σ ε} {ρ : Env V} {names : List Name} {loose : Bool}
  {s t u : LowerState α}

theorem Computes.loosen {m : Lower α Expdesc} {ev : Eval V σ ε V}
    (h : Computes P ρ names loose m ev) : Computes P ρ names true m ev := by
  intro s hready hnames
  refine (h s hready hnames).mono fun d t hd => ⟨hd.grown, hd.free, hd.inRange, ?_, hd.leads⟩
  have hspared {r : Nat} (hr : Spared t.fs loose r) : Spared t.fs true r :=
    ⟨hr.next, Bool.noConfusion⟩
  have hkept := hd.kept
  cases d with
  | nonrelocable reg => exact hspared hkept
  | «local» reg => exact hspared hkept
  | call info => exact hspared hkept
  | _ => trivial

structure Placed (P : Primitives V σ ε) (ρ : Env V) (s : LowerState α) (ev : Eval V σ ε V)
    (dest : Nat) (t : LowerState α) : Prop where
  grown : Extends s t
  free : s.fs.freereg ≤ t.fs.freereg
  delivers : ∀ p, Small p → Covers p t.fs → dest < 256 → Agree p t.fs s.fs.pc t.fs.pc →
    Delivers P p ρ dest s t ev fun v c => v = c.regs dest

theorem Computes.toPlace {m : Lower α Expdesc} {ev : Eval V σ ε V}
    (h : Computes P ρ names loose m ev) (dest : Nat) (hready : Ready s)
    (hnames : s.fs.locals.map Local.name = names) (hactive : s.fs.nactvar ≤ dest)
    (hfree : dest ≤ s.fs.freereg) {Q : Unit → LowerState α → Prop}
    (hQ : ∀ t, Placed P ρ s ev dest t → Q () t) :
    Ensures m s fun d t => Ensures (exp2reg d) t fun r u => Ensures (moveTo dest r) u Q := by
  refine h.operand hready hnames fun r t hr => ?_
  refine hr.moveTo hready hactive hfree (Nat.le_refl _) fun u hgrown hfree' hleads => ?_
  exact hQ u ⟨hr.grown.trans hgrown, hr.free.trans (Nat.le_of_eq hfree'.symm),
    fun p hsmall hcovers hlt hagree => (hleads p hsmall hcovers hlt hagree).delivers⟩

end Place

/-! ## The call instruction -/

section Calls

variable {P : Primitives V σ ε} {ρ : Env V} {names : List Name} {s t u : LowerState α}

/-- Where the function and its arguments are, once their code has been run. -/
structure Called (P : Primitives V σ ε) (ρ : Env V) (s : LowerState α)
    (ev : Eval V σ ε (V × List V)) (base b : Nat) (u : LowerState α) : Prop where
  grown : Extends s u
  start : base = s.fs.freereg
  limit : base < 249
  stack : base < u.fs.maxstack
  delivers : ∀ p, Small p → Covers p u.fs → Agree p u.fs s.fs.pc u.fs.pc →
    Delivers P p ρ base s u ev fun r c =>
      c.regs base = r.1 ∧ c.operands (base + 1) (b % 256) = r.2

def LowerState.called (u : LowerState α) (base b c : Nat) : LowerState α :=
  { u with fs := (u.fs.emit (encodeAbc .call base b c)).setFreereg (base + 1) }

def Calls (P : Primitives V σ ε) (ρ : Env V) (names : List Name) (m : Lower α Expdesc)
    (ev : Eval V σ ε (V × List V)) : Prop :=
  ∀ s, Ready s → s.fs.locals.map Local.name = names → Ensures m s fun d t =>
    ∃ base b u, d = .call base ∧ t = u.called base b 2 ∧ Called P ρ s ev base b u

theorem extends_called (u : LowerState α) (base b c : Nat) : Extends u (u.called base b c) :=
  ((Extends.refl u).emit _).setFreereg _

theorem lift_map_bind {f : X → Y} {op : Op σ ε X} {k : Y → Eval V σ ε Z} :
    (lift (f <$> op) >>= k : Eval V σ ε Z) = lift op >>= fun x => k (f x) := by
  funext world
  show (lift (f <$> op) world : Comp _ _) >>= _ = (lift op world : Comp _ _) >>= _
  have hmap : (f <$> op) world = (op world >>= fun r => pure (f r.1, r.2)) := rfl
  rw [lift, lift, hmap]
  cases op world <;> rfl

theorem length_adjust (n : Nat) (values : List V) :
    (P.adjust (some n) values).length = n := by
  simp only [Primitives.adjust, List.length_append, List.length_take, List.length_replicate]
  omega

theorem place_between (P : Primitives V σ ε) (c : Config V σ) (first : Nat) (values : List V) :
    (c.place P first values).between first (first + values.length) = values := by
  refine between_eq fun i hi => ?_
  show (if first + i < first then _ else _) = _
  rw [if_neg (Nat.not_lt.mpr (Nat.le_add_right _ _)), Nat.add_sub_cancel_left,
    List.getElem?_eq_getElem hi]
  rfl

theorem Called.results {p : Proto α} {ev : Eval V σ ε (V × List V)} {base b c : Nat}
    (h : Called P ρ s ev base b u) (hsmall : Small p) (hc : c < 256)
    (hcovers : Covers p u.fs)
    (hagree : Agree p (u.called base b c).fs s.fs.pc (u.called base b c).fs.pc) :
    Delivers P p ρ base s (u.called base b c)
      (ev >>= fun r => lift (P.adjust (wantedOf c) <$> P.call (wantedOf c) r.1 r.2))
      fun values c' => c'.between base (base + values.length) = values ∧
        c'.top = base + values.length ∧ ∀ n, wantedOf c = some n → values.length = n := by
  intro n c₀ hpc hholds Y k post hend
  have hgrown := extends_called u base b c
  have hpcu : u.fs.pc < (u.called base b c).fs.pc := by
    simp [LowerState.called]
  have hbase : base < 256 := Nat.lt_trans h.limit (by decide)
  have hcall : p.code[u.fs.pc]? = some (encodeAbc .call base b c) := by
    rw [hagree u.fs.pc h.grown.pc hpcu]
    exact emit_last rfl
  have hagree' := (hagree.mono (Nat.le_refl _) (Nat.le_of_lt hpcu)).before hgrown (Nat.le_refl _)
  rw [bind_assoc]
  refine h.delivers p hsmall hcovers hagree' n c₀ hpc hholds Y _ post
    fun r c₁ hpc₁ hsame hr => ?_
  rw [← hpc₁] at hcall
  rw [lift_map_bind]
  refine realises_operate (f := fun values c' => c'.place P base (P.adjust (wantedOf c) values))
    hcall ?_ fun values world => ?_
  · rw [← hr.1, ← hr.2]
    simp only [exec, encodeAbc, Instruction.op, Instruction.a, Instruction.b, Instruction.c,
      Nat.mod_eq_of_lt hbase, Nat.mod_eq_of_lt hc]
    rfl
  · refine hend _ _ ?_ ?_ ⟨place_between P _ base _, rfl, fun n hn => ?_⟩
    · show c₁.pc + 1 = (u.called base b c).fs.pc
      simp [LowerState.called, hpc₁]
    · exact hsame.trans ⟨fun q hq => if_pos hq, rfl⟩
    · rw [hn]
      exact length_adjust n values

theorem Called.ready {ev : Eval V σ ε (V × List V)} {base b : Nat}
    (h : Called P ρ s ev base b u) (hready : Ready s) (c : Nat) : Ready (u.called base b c) :=
  hready.extends (h.grown.trans (extends_called u base b c))
    (h.start ▸ Nat.le_succ base : s.fs.freereg ≤ base + 1)

theorem Calls.computes {m : Lower α Expdesc} {ev : Eval V σ ε (V × List V)} {loose : Bool}
    (h : Calls P ρ names m ev) :
    Computes P ρ names loose m ((·.headD P.nil) <$> (ev >>= fun r =>
      lift (P.adjust (some 1) <$> P.call (some 1) r.1 r.2))) := by
  intro s hready hnames
  refine (h s hready hnames).mono ?_
  rintro _ _ ⟨base, b, u, rfl, rfl, hu⟩
  have hgrown := extends_called u base b 2
  refine {
    grown := hu.grown.trans hgrown
    free := (hu.start ▸ Nat.le_succ base : s.fs.freereg ≤ base + 1)
    inRange := ⟨.inr (Nat.le_of_eq hu.start.symm), hu.stack⟩
    kept := Spared.of_lt (Nat.lt_succ_self base)
    leads := fun p hsmall hcovers hagree n c hpc hholds Y k post hend => ?_ }
  rw [bind_map_left]
  refine hu.results hsmall (by decide) (hcovers.before hgrown) hagree n c hpc hholds Y _ post
    fun values c' hpc' hsame hvalues => ?_
  obtain ⟨hbetween, -, hlength⟩ := hvalues
  have hone := hlength 1 rfl
  rw [hone, between_cons, between_self] at hbetween
  rw [← hbetween]
  exact hend c' hpc' (hu.start ▸ hsame)

theorem ensures_patchLast {base b c : Nat} (hbase : base < 256)
    {Q : Nat → LowerState α → Prop} :
    Ensures (patchLastCall c) (u.called base b 2) Q ↔ Q base (u.called base b c) := by
  have hcode : (u.called base b 2).fs.code = u.fs.code ++ [encodeAbc .call base b 2] := rfl
  have hlast : (u.called base b 2).fs.lastCall = some u.fs.pc := by
    rw [FuncState.lastCall, hcode, List.reverse_append, List.length_append]
    rfl
  have hget : (u.called base b 2).fs.code[u.fs.pc]? = some (encodeAbc .call base b 2) :=
    emit_last rfl
  have ha : (encodeAbc .call base b 2 : Instruction α).a = base := Nat.mod_eq_of_lt hbase
  have hset (i : Instruction α) : (u.called base b 2).fs.code.set u.fs.pc i = u.fs.code ++ [i] := by
    rw [hcode, FuncState.pc, List.set_append_right _ _ (Nat.le_refl _), Nat.sub_self]
    rfl
  have hpatched (c : Nat) : ({ u.called base b 2 with
      fs := { (u.called base b 2).fs with
        code := (u.called base b 2).fs.code.set u.fs.pc (encodeAbc .call base
          (encodeAbc .call base b 2 : Instruction α).b c) } } : LowerState α) =
        u.called base b c := by
    rw [hset, encodeAbc, encodeAbc, Instruction.b, Nat.mod_mod]
    rfl
  simp only [patchLastCall, ensures_bind, ensures_getFs, hlast, hget, ensures_modifyFs,
    ensures_pure, ha, hpatched]

end Calls

/-! ## Lists of values -/

section Lists

variable {P : Primitives V σ ε} {ρ : Env V} {names : List Name} {s t u : LowerState α}

structure Correct (α : Type) (P : Primitives V σ ε) (ρ : Env V) (names : List Name)
    (e : Expr) : Prop where
  value : Computes (α := α) P ρ names true (expr e) (evalExpr P ρ e)
  call : ∀ callee args method, e = .call callee args method →
    Calls (α := α) P ρ names (expr e)
      (evalOperands P (evalExpr P ρ callee) (evalArgs P ρ args) method)

/-- The values are in the registers from `first` on; where they end is known or in `top`. -/
def Listed (first : Nat) (isOpen : Bool) (t : LowerState α) (values : List V)
    (c : Config V σ) : Prop :=
  c.between first (first + values.length) = values ∧
    (if isOpen then c.top else t.fs.freereg) = first + values.length

theorem Listed.cons {first : Nat} {isOpen : Bool} {v : V} {values : List V} {c : Config V σ}
    (hv : c.regs first = v) (h : Listed (first + 1) isOpen t values c) :
    Listed first isOpen t (v :: values) c := by
  have hlen : first + 1 + values.length = first + (values.length + 1) := by omega
  obtain ⟨hbetween, htop⟩ := h
  rw [hlen] at hbetween htop
  refine ⟨?_, htop⟩
  rw [List.length_cons, between_cons, hv, hbetween]

theorem extends_raiseMaxstack (s : LowerState α) (n : Nat) :
    Extends s { s with fs := s.fs.raiseMaxstack n } :=
  ⟨List.prefix_rfl, List.prefix_rfl, rfl, Nat.le_max_left _ _, rfl⟩

theorem exec_vararg_open (P : Primitives V σ ε) (p : Proto α) (varargs : List V)
    (c : Config V σ) {a : Nat} (ha : a < 256) :
    ∃ c', exec P p varargs (encodeAbc .vararg a 0 0) c = .ok c' ∧ c'.pc = c.pc ∧
      c'.world = c.world ∧ Same a c c' ∧ c'.between a (a + varargs.length) = varargs ∧
        c'.top = a + varargs.length := by
  refine ⟨{ c with
    regs := fun r => if r < a then c.regs r else (varargs[r - a]?).getD (c.regs r)
    top := a + varargs.length }, ?_, rfl, rfl, ⟨fun r hr => if_pos hr, rfl⟩, ?_, rfl⟩
  · simp only [exec, encodeAbc, Instruction.op, Instruction.a, Instruction.b,
      Nat.mod_eq_of_lt ha, Nat.zero_mod, wantedOf, if_true, Primitives.adjust]
  · refine between_eq fun i hi => ?_
    show (if a + i < a then _ else _) = _
    rw [if_neg (Nat.not_lt.mpr (Nat.le_add_right _ _)), Nat.add_sub_cancel_left,
      List.getElem?_eq_getElem hi]
    rfl

theorem delivers_vararg_open {p : Proto α} {dest : Nat} {i : Instruction α} (hdest : dest < 256)
    (hi : i = encodeAbc .vararg dest 0 0) (hcode : t.fs.code = s.fs.code ++ [i])
    (hagree : Agree p t.fs s.fs.pc t.fs.pc) :
    Delivers P p ρ dest s t (pure ρ.varargs) fun values c =>
      c.between dest (dest + values.length) = values ∧ c.top = dest + values.length := by
  intro n c hpc _ Y k post hend
  have hat : p.code[c.pc]? = some i :=
    hagree.appended hcode (Nat.le_refl _) hpc (j := 0) Nat.zero_lt_one
  have hpc' : t.fs.pc = c.pc + 1 := by
    rw [FuncState.pc, hcode, List.length_append, hpc]
    rfl
  obtain ⟨c', hexec, hpc'', hworld, hsame, hvalues⟩ :=
    exec_vararg_open P p ρ.varargs { c with pc := c.pc + 1 } hdest
  subst hi
  refine realises_exec hat hexec ?_
  have hgoal := hend ρ.varargs c' (hpc''.trans hpc'.symm) ⟨hsame.regs, hsame.upvals⟩ hvalues
  rw [pure_bind]
  rwa [hworld] at hgoal

structure ListCode (P : Primitives V σ ε) (ρ : Env V) (s : LowerState α) (first : Nat)
    (ev : Eval V σ ε (List V)) (isOpen : Bool) (t : LowerState α) : Prop where
  grown : Extends s t
  free : first ≤ t.fs.freereg
  stack : first ≤ s.fs.maxstack → isOpen = false → t.fs.freereg ≤ t.fs.maxstack
  delivers : ∀ p, Small p → Covers p t.fs → Agree p t.fs s.fs.pc t.fs.pc →
    Delivers P p ρ first s t ev (Listed first isOpen t)

theorem openVararg_ok {dest : Nat} :
    Ensures (openVararg dest) s fun _ t => ListCode P ρ s dest (pure ρ.varargs) true t := by
  simp only [openVararg, ensures_bind, ensures_setFreereg, ensures_reserve, ensures_discard,
    ensures_codeAbc]
  intro hlimit
  have hdest : dest < 256 :=
    Nat.lt_of_lt_of_le (Nat.lt_of_succ_le (hlimit : dest + 1 ≤ _)) (by decide)
  exact {
    grown := (((Extends.refl s).setFreereg dest).reserved 1).emit _
    free := Nat.le_succ dest
    stack := fun _ => Bool.noConfusion
    delivers := fun p _ _ hagree => delivers_vararg_open hdest rfl rfl hagree }

theorem openCall_ok {dest : Nat} {e : Expr} {callee : Expr} {args : List Expr}
    {method : Option Name} (h : Correct α P ρ names e) (he : e = .call callee args method)
    (hready : Ready s) (hdest : s.fs.nactvar ≤ dest)
    (hnames : s.fs.locals.map Local.name = names) :
    Ensures (openCall dest (expr e)) s fun _ t =>
      ListCode P ρ s dest (evalMulti P ρ none e) true t := by
  have hready' : Ready { s with fs := s.fs.setFreereg dest } :=
    ⟨hready.main, hready.env, hready.only, hready.locals, hdest, hready.active⟩
  simp only [openCall, ensures_bind, ensures_setFreereg, ensures_discard]
  refine (h.call callee args method he _ hready' hnames).mono ?_
  rintro _ _ ⟨base, b, u, rfl, rfl, hu⟩
  have hopen : patchLastCallResults (α := α) (-1) = patchLastCall 0 := rfl
  rw [hopen, ensures_patchLast (Nat.lt_trans hu.limit (by decide))]
  have hbase : base = dest := hu.start
  subst hbase
  have hgrown := extends_called u base b 0
  refine {
    grown := (((Extends.refl s).setFreereg base).trans hu.grown).trans hgrown
    free := Nat.le_succ base
    stack := fun _ => Bool.noConfusion
    delivers := fun p hsmall hcovers hagree => ?_ }
  have hresults := hu.results hsmall (by decide) (hcovers.before hgrown) hagree
  rw [he, evalMulti]
  refine (hresults.within (u := s) rfl rfl rfl).mono (Nat.le_refl _) ?_
  exact fun values c hvalues => ⟨hvalues.1, hvalues.2.1⟩

/-- The value of one more argument, which is not the last one with many values. -/
theorem callArgs_cons {e : Expr} {es : List Expr} (h : es = [] → listKind e = .single) :
    (callArgs (exprItems (e :: es)) : Lower α Bool) = (do
      let dest := (← getFs).freereg
      setFreereg (dest + 1)
      modifyFs (·.raiseMaxstack (dest + 1))
      let r ← exp2reg (← expr e)
      moveTo dest r
      setFreereg (dest + 1)
      callArgs (exprItems es)) := by
  cases es with
  | nil =>
      rw [exprItems, exprItems, h rfl]
      rfl
  | cons e' es => rw [exprItems, exprItems, callArgs] <;> simp

theorem evalArgs_cons {e : Expr} {es : List Expr} (h : es = [] → listKind e = .single) :
    evalArgs P ρ (e :: es) = do
      let v ← evalExpr P ρ e
      let vs ← evalArgs P ρ es
      return v :: vs := by
  rw [evalArgs]
  cases es with
  | nil =>
      rw [h rfl]
      rfl
  | cons _ _ => rfl

theorem callArgs_ok : ∀ (es : List Expr) (s : LowerState α), (∀ e ∈ es, Correct α P ρ names e) →
    Ready s → s.fs.locals.map Local.name = names →
    Ensures (callArgs (exprItems es)) s fun isOpen t =>
      ListCode P ρ s s.fs.freereg (evalArgs P ρ es) isOpen t
  | [], s, _, _, _ => by
      rw [exprItems, callArgs, ensures_pure]
      refine ⟨.refl s, Nat.le_refl _, fun h _ => h, fun p _ _ _ n c hpc _ Y k post hend => ?_⟩
      rw [evalArgs, pure_bind]
      exact hend [] c hpc (.refl _ c) ⟨between_self, rfl⟩
  | e :: es, s, hcorrect, hready, hnames => by
      have he := hcorrect e List.mem_cons_self
      have hactive : s.fs.nactvar ≤ s.fs.freereg := hready.free
      by_cases hlast : es = [] → listKind e = .single
      · rw [callArgs_cons hlast, evalArgs_cons hlast]
        simp only [ensures_bind, ensures_getFs, ensures_setFreereg, ensures_modifyFs]
        generalize hdest : s.fs.freereg = dest at hactive ⊢
        let s₁ : LowerState α :=
          { s with fs := (s.fs.setFreereg (dest + 1)).raiseMaxstack (dest + 1) }
        have hgrown₁ : Extends s s₁ :=
          ((Extends.refl s).setFreereg _).trans (extends_raiseMaxstack _ _)
        have hready₁ : Ready s₁ := hready.extends hgrown₁ (hdest ▸ Nat.le_succ dest)
        have hstack : dest < s₁.fs.maxstack :=
          Nat.lt_of_lt_of_le (Nat.lt_succ_self dest) (Nat.le_max_right _ _)
        refine he.value.toPlace (s := s₁) dest hready₁ hnames hactive (Nat.le_succ dest)
          fun t ht => ?_
        let t₁ : LowerState α := { t with fs := t.fs.setFreereg (dest + 1) }
        have hgrown : Extends s t₁ := (hgrown₁.trans ht.grown).setFreereg (dest + 1)
        have hready' : Ready t₁ := hready.extends hgrown (hdest ▸ Nat.le_succ dest)
        refine (callArgs_ok es t₁ (fun e' he' => hcorrect e' (List.mem_cons_of_mem e he')) hready'
          (by rw [hgrown.locals, hnames])).mono fun isOpen u hu => ?_
        refine ⟨hgrown.trans hu.grown, (Nat.le_succ dest).trans hu.free,
          fun _ hopen => hu.stack (Nat.lt_of_lt_of_le hstack ht.grown.maxstack) hopen,
          fun p hsmall hcovers hagree => ?_⟩
        have hcovers' : Covers p t₁.fs := hcovers.before hu.grown
        have hagree' : Agree p t₁.fs s.fs.pc t₁.fs.pc :=
          (hagree.mono (Nat.le_refl _) hu.grown.pc).before hu.grown (Nat.le_refl _)
        have hfirst : Delivers P p ρ dest s t₁ (evalExpr P ρ e) fun v c => v = c.regs dest :=
          (ht.delivers p hsmall ⟨hcovers'.constants, hcovers'.maxstack⟩ (hcovers'.lt hsmall
            (Nat.lt_of_lt_of_le hstack ht.grown.maxstack)) hagree').within rfl rfl rfl
        have hrest := hu.delivers p hsmall hcovers (hagree.mono hgrown.pc (Nat.le_refl _))
        have hboth := hfirst.andThen (f := fun v vs => v :: vs) hready hgrown hactive
          (Nat.le_succ dest) hrest fun v c c' hv hsame => by
            rw [hv, hsame.regs dest (Nat.lt_succ_self dest)]
        refine hboth.mono (Nat.le_refl _) ?_
        rintro _ c ⟨v, vs, rfl, hv, hvs⟩
        exact hvs.cons hv.symm
      · obtain ⟨rfl, hkind⟩ := Classical.not_imp.mp hlast
        cases e with
        | vararg =>
            simp only [exprItems, listKind, callArgs, ensures_bind, ensures_getFs, ensures_pure]
            exact openVararg_ok
        | call callee args method =>
            simp only [exprItems, listKind, callArgs, ensures_bind, ensures_getFs, ensures_pure]
            refine (openCall_ok he rfl hready hactive hnames).mono fun _ t ht => ?_
            exact ht
        | _ => exact absurd rfl hkind

/-! ## Calls -/

theorem calleeTo_ok {callee : Lower α Expdesc} {ev : Eval V σ ε V}
    (h : Computes P ρ names true callee ev) (start : Nat) (hready : Ready s)
    (hnames : s.fs.locals.map Local.name = names) (hactive : s.fs.nactvar ≤ start)
    (hfree : start ≤ s.fs.freereg) :
    Ensures (calleeTo start callee) s fun _ t => Placed P ρ s ev start t := by
  have hplace := h.toPlace start hready hnames hactive hfree
    (Q := fun _ t => Placed P ρ s ev start t) fun _ ht => ht
  simp only [calleeTo, ensures_bind]
  refine ((h s hready hnames).and hplace).mono fun d t hd => ?_
  obtain ⟨hdesc, hmove⟩ := hd
  split
  · rename_i table key indexKey
    obtain ⟨htable, hkey⟩ := hdesc.inRange
    simp only [emitGetIndex, ensures_discard, ensures_codeAbc]
    have hgrown := (Extends.refl t).emit (encodeAbc indexKey.getOp start table key)
    refine ⟨hdesc.grown.trans hgrown, hdesc.free, fun p hsmall hcovers hlt hagree => ?_⟩
    have hcovers' : Covers p t.fs := hcovers.before hgrown
    have hfirst := hdesc.leads p hsmall hcovers'
      ((hagree.mono (Nat.le_refl _) hgrown.pc).before hgrown (Nat.le_refl _))
    refine ((hfirst.mono hfree).andThen hready hdesc.grown hactive ?_).delivers
    exact leads_single (fun c => P.index (c.regs table) (indexKey.value P p c key))
      (Nat.le_refl _) rfl (hagree.mono hdesc.grown.pc (Nat.le_refl _))
      (fun c => exec_getIndex hsmall hcovers' htable hkey hlt)
      fun _ _ => by cases indexKey <;> rfl
  · rw [ensures_bind]
    exact hmove

theorem Listed.operands {base : Nat} {isOpen : Bool} {values : List V} {c : Config V σ}
    (h : Listed (base + 1) isOpen t values c) (hstack : isOpen = false → t.fs.freereg < 256) :
    c.operands (base + 1) ((if isOpen then 0 else t.fs.freereg - base) % 256) = values := by
  obtain ⟨hbetween, hend⟩ := h
  cases isOpen with
  | true =>
      have htop : c.top = base + 1 + values.length := hend
      show c.between (base + 1) c.top = values
      rw [htop, hbetween]
  | false =>
      have hfree : t.fs.freereg = base + 1 + values.length := hend
      have hlt := hstack rfl
      have hb : (if false = true then 0 else t.fs.freereg - base) % 256 = values.length + 1 := by
        rw [if_neg Bool.false_ne_true, Nat.mod_eq_of_lt (by omega)]
        omega
      have hlast : base + 1 + (values.length + 1) - 1 = base + 1 + values.length := by omega
      rw [hb, Config.operands, if_neg (Nat.succ_ne_zero _), hlast, hbetween]

theorem exec_self {p : Proto α} {varargs : List V} {c : Config V σ} {base : Nat}
    (hbase : base + 1 < 256) :
    exec P p varargs (encodeAbc .self base base (base + 1)) c =
      operate (P.index (c.regs base) (c.regs (base + 1)))
        (fun v c' => (c'.set (base + 1) (c.regs base)).set base v) c := by
  have hbase' : base < 256 := Nat.lt_of_succ_lt hbase
  simp only [exec, encodeAbc, Instruction.op, Instruction.a, Instruction.b, Instruction.c,
    Nat.mod_eq_of_lt hbase, Nat.mod_eq_of_lt hbase']

theorem realises_self {p : Proto α} {c : Config V σ} {n base k : Nat} {name : Name}
    {f : V → Eval V σ ε Y} {post : Y × σ → Config V σ → Prop} (hsmall : Small p)
    (hbase : base + 1 < 256)
    (hload : p.code[c.pc]? = some (encodeAbx .loadK (base + 1) k))
    (hself : p.code[c.pc + 1]? = some (encodeAbc .self base base (base + 1)))
    (hconst : p.constants[k]? = some (.string name))
    (h : ∀ v c', c'.pc = c.pc + 2 → Same base c c' → c'.regs base = v →
      c'.regs (base + 1) = c.regs base →
      Realises (advance P p ρ.varargs) n c' (f v c'.world) post) :
    Realises (advance P p ρ.varargs) n c
      ((lift (P.index (c.regs base) (P.const (.string name))) >>= f) c.world) post := by
  have hk : k < 65536 :=
    Nat.lt_of_lt_of_le (List.getElem?_eq_some_iff.mp hconst).1 hsmall.constants
  have hne : base ≠ base + 1 := Nat.ne_of_lt (Nat.lt_succ_self base)
  refine realises_write hload (exec_loadK hbase hk hconst) fun c₁ hc₁ hworld => ?_
  rw [← hc₁.pc] at hself
  rw [← hworld, ← hc₁.value, ← hc₁.others base hne]
  refine realises_operate hself (exec_self hbase) fun v world => ?_
  refine h v _ ?_ ?_ (Config.set_self _ base v) ?_
  · show c₁.pc + 1 = c.pc + 2
    rw [hc₁.pc]
  · exact ((((hc₁.same (Nat.le_succ base)).moved _ world).set (Nat.le_succ base) _).set
      (Nat.le_refl base) v)
  · rw [Config.set_of_ne _ base v hne.symm, Config.set_self]
    exact hc₁.others base hne

structure SelfCode (P : Primitives V σ ε) (ρ : Env V) (s : LowerState α) (base : Nat)
    (name : Name) (t : LowerState α) : Prop where
  grown : Extends s t
  free : t.fs.freereg = base + 2
  stack : base + 2 ≤ t.fs.maxstack
  self : ∀ p, Small p → Covers p t.fs → Agree p t.fs s.fs.pc t.fs.pc →
    ∀ n c, c.pc = s.fs.pc →
      ∀ (Y : Type) (f : V → Eval V σ ε Y) (post : Y × σ → Config V σ → Prop),
        (∀ v c', c'.pc = t.fs.pc → Same base c c' → c'.regs base = v →
          c'.regs (base + 1) = c.regs base →
          Realises (advance P p ρ.varargs) n c' (f v c'.world) post) →
        Realises (advance P p ρ.varargs) n c
          ((lift (P.index (c.regs base) (P.const (.string name))) >>= f) c.world) post

theorem selfArg_ok {base : Nat} (name : Name) (hbase : base + 1 < 256)
    (hfree : s.fs.freereg = base + 1) :
    Ensures (selfArg base (some name)) s fun _ t => SelfCode P ρ s base name t := by
  simp only [selfArg, ensures_bind, ensures_newReg, ensures_discard, ensures_setFreereg, stringK,
    hfree]
  intro _
  refine (ensures_constIndex _).mono ?_
  rintro k _ ⟨more, rfl, hk⟩
  simp only [ensures_codeAbx, ensures_codeAbc]
  have hlt : k < (s.fs.constants ++ more).length := (List.getElem?_eq_some_iff.mp hk).1
  have hstack : base + 2 ≤ max s.fs.maxstack (s.fs.freereg + 1) := by
    rw [hfree]
    exact Nat.le_max_right _ _
  refine {
    grown := ((((((Extends.refl s).reserved 1).trans (extends_constants more)).emit _).emit
      _).setFreereg _)
    free := rfl
    stack := hstack
    self := fun p hsmall hcovers hagree n c hpc Y f post hend => ?_ }
  have hconst : p.constants[k]? = some (.string name) := by
    rw [getElem?_grown hcovers.constants hlt]
    exact hk
  have hat {j : Nat} := hagree.appended
    (show FuncState.code _ = s.fs.code ++ [encodeAbx .loadK (base + 1) k,
      encodeAbc .self base base (base + 1)] from List.append_assoc _ _ _)
    (Nat.le_refl _) hpc (j := j)
  refine realises_self hsmall hbase (hat (j := 0) (by simp)) (hat (j := 1) (by simp)) hconst
    fun v c' hpc' => hend v c' (hpc'.trans ?_)
  rw [hpc]
  simp only [pc_setFreereg, pc_emit]
  rfl

theorem calls_ok {callee : Expr} {args : List Expr} (method : Option Name)
    (hcallee : Correct α P ρ names callee) (hargs : ∀ e ∈ args, Correct α P ρ names e) :
    Calls (α := α) P ρ names (lowerCall (expr callee) (exprItems args) method)
      (evalOperands P (evalExpr P ρ callee) (evalArgs P ρ args) method) := by
  intro s hready hnames
  have hmax : max s.fs.freereg s.fs.nactvar = s.fs.freereg := max_eq_left hready.free
  simp only [lowerCall, ensures_bind, ensures_getFs, ensures_setFreereg, hmax, ensures_reserve,
    freereg_setFreereg]
  intro hlimit
  have hstart : s.fs.freereg < 249 := hlimit
  have hlt : s.fs.freereg < 256 := Nat.lt_trans hstart (by decide)
  have hactive : s.fs.nactvar ≤ s.fs.freereg := hready.free
  have hgrown₁ : Extends s { s with fs := s.fs.reserved 1 } := (Extends.refl s).reserved 1
  have hstack₁ : s.fs.freereg < (s.fs.reserved 1).maxstack :=
    Nat.lt_of_lt_of_le (Nat.lt_succ_self _) (Nat.le_max_right _ _)
  refine (calleeTo_ok hcallee.value s.fs.freereg
    (hready.extends hgrown₁ (Nat.le_succ _)) hnames hactive (Nat.le_succ _)).mono
    fun _ t ht => ?_
  generalize hs : s.fs.freereg = start at *
  have hst : Extends s t := hgrown₁.trans ht.grown
  have hactive' : ¬ start < t.fs.nactvar := by
    rw [hst.nactvar]
    exact Nat.not_lt.mpr hactive
  have hstack : start < t.fs.maxstack := Nat.lt_of_lt_of_le hstack₁ ht.grown.maxstack
  simp only [callBase, ensures_bind, ensures_getFs, ensures_ite, ensures_pure, ensures_newReg,
    ensures_discard, ensures_codeAbc]
  refine ⟨fun hlt => absurd hlt hactive', fun _ => ?_⟩
  -- The arguments are behind the function, or behind the object of the method.
  have hfinish (first : Nat) (u v : LowerState α) (isOpen : Bool) (htu : Extends t u)
      (hfirst : first ≤ u.fs.maxstack)
      (hv : ListCode P ρ u first (evalArgs P ρ args) isOpen v)
      (hall : ∀ p, Small p → Covers p v.fs → Agree p v.fs s.fs.pc v.fs.pc →
        Delivers P p ρ start s v
          (evalOperands P (evalExpr P ρ callee) (evalArgs P ρ args) method)
          fun r c => c.regs start = r.1 ∧ Listed (start + 1) isOpen v r.2 c) :
      Called P ρ s (evalOperands P (evalExpr P ρ callee) (evalArgs P ρ args) method) start
        (if isOpen then 0 else v.fs.freereg - start) v :=
    { grown := (hst.trans htu).trans hv.grown
      start := hs.symm
      limit := hstart
      stack := Nat.lt_of_lt_of_le hstack (htu.maxstack.trans hv.grown.maxstack)
      delivers := fun p hsmall hcovers hagree => by
        refine (hall p hsmall hcovers hagree).mono (Nat.le_refl _) fun r c hr => ⟨hr.1, ?_⟩
        refine hr.2.operands fun hopen => ?_
        have hle := (hv.stack hfirst hopen).trans (hcovers.maxstack.trans hsmall.maxstack)
        exact Nat.lt_of_le_of_lt hle (by decide) }
  cases method with
  | none =>
      simp only [selfArg, ensures_pure]
      let t₁ : LowerState α := { t with fs := t.fs.setFreereg (start + 1) }
      have htt : Extends t t₁ := (Extends.refl t).setFreereg (start + 1)
      have hready₁ : Ready t₁ := hready.extends (hst.trans htt) (hs ▸ Nat.le_succ start)
      refine (callArgs_ok args t₁ hargs hready₁ (by rw [(hst.trans htt).locals, hnames])).mono
        fun isOpen v hv => ⟨start, _, v, rfl, rfl, ?_⟩
      refine hfinish _ t₁ v isOpen htt hstack hv fun p hsmall hcovers hagree => ?_
      have hcallee' : Delivers P p ρ start s t₁ (evalExpr P ρ callee) fun v c =>
          v = c.regs start :=
        (ht.delivers p hsmall (hcovers.before (htt.trans hv.grown)) hlt
          ((hagree.mono (Nat.le_refl _) (htt.trans hv.grown).pc).before (htt.trans hv.grown)
            (Nat.le_refl _))).within rfl rfl rfl
      have hrest := hv.delivers p hsmall hcovers (hagree.mono (hst.trans htt).pc (Nat.le_refl _))
      have hboth := hcallee'.andThen (f := fun v vs => (v, vs)) hready (hst.trans htt) hactive
        (Nat.le_succ start) hrest fun v c c' hv hsame => by
          rw [hv, hsame.regs start (Nat.lt_succ_self start)]
      refine hboth.mono (Nat.le_refl _) ?_
      rintro _ c ⟨v, vs, rfl, hv, hvs⟩
      exact ⟨hv.symm, hvs⟩
  | some name =>
      let t₁ : LowerState α := { t with fs := t.fs.setFreereg (start + 1) }
      have htt : Extends t t₁ := (Extends.refl t).setFreereg (start + 1)
      have hbase : start + 1 < 256 := by omega
      refine (selfArg_ok (P := P) (ρ := ρ) (s := t₁) name hbase rfl).mono fun _ u hu => ?_
      have hsu : Extends s u := (hst.trans htt).trans hu.grown
      have hready₁ : Ready u := hready.extends hsu (by rw [hu.free, hs]; exact Nat.le_add_right _ 2)
      refine (callArgs_ok args u hargs hready₁ (by rw [hsu.locals, hnames])).mono
        fun isOpen v hv => ⟨start, _, v, rfl, rfl, ?_⟩
      rw [hu.free] at hv
      refine hfinish _ u v isOpen (htt.trans hu.grown) hu.stack hv
        fun p hsmall hcovers hagree n c hpc hholds Y f post hend => ?_
      have hcallee' := ht.delivers p hsmall (hcovers.before ((htt.trans hu.grown).trans hv.grown))
        hlt ((hagree.mono (Nat.le_refl _) ((htt.trans hu.grown).trans hv.grown).pc).before
          ((htt.trans hu.grown).trans hv.grown) (Nat.le_refl _))
      rw [evalOperands, bind_assoc]
      refine hcallee' n c hpc ⟨hholds.scope, hholds.env⟩ Y _ post
        fun object c₁ hpc₁ hsame₁ hobject => ?_
      rw [bind_assoc, hobject]
      refine hu.self p hsmall (hcovers.before hv.grown)
        ((hagree.mono hst.pc hv.grown.pc).before hv.grown (Nat.le_refl _)) n c₁ hpc₁ Y _ post
        fun m c₂ hpc₂ hsame₂ hm hobject₂ => ?_
      rw [bind_assoc]
      have hsame := hsame₁.trans hsame₂
      refine hv.delivers p hsmall hcovers (hagree.mono hsu.pc (Nat.le_refl _)) n c₂ hpc₂
        (hholds.extends hready hsu hactive hsame) Y _ post fun values c₃ hpc₃ hsame₃ hvalues => ?_
      rw [pure_bind]
      refine hend _ c₃ hpc₃ (hsame.trans (hsame₃.mono (Nat.le_add_right start 2))) ⟨?_, ?_⟩
      · rw [hsame₃.regs start (by omega), hm]
      · refine Listed.cons ?_ hvalues
        rw [hsame₃.regs (start + 1) (by omega), hobject₂]

end Lists

end Luatier.Lowering
