import Luatier.Frontend.AssignMeaning

/-!
# The code of statements that leave

Jumps that are patched when their target is known, `break`, `return`, and calls that
are statements.
-/

namespace Luatier.Lowering

open Realising

variable {α V σ ε X Y Z : Type}

/-! ## Patched code -/

section Patched

variable {p : Proto α} {s t u : LowerState α} {fs : FuncState α} {lo hi exit j dest : Nat}
  {js : List Nat}

theorem foldl_fixSbx_eq : ∀ (js : List Nat) (fs : FuncState α),
    js.foldl (·.fixSbx · dest) fs = { fs with code := (js.foldl (·.fixSbx · dest) fs).code }
  | [], _ => rfl
  | j :: js, fs => by
      rw [List.foldl_cons, foldl_fixSbx_eq js (fs.fixSbx j dest)]
      rfl

theorem foldl_fixSbx_code {i : Nat} : ∀ (js : List Nat) (fs : FuncState α),
    (∀ j ∈ js, ∃ k, fs.code[j]? = some (encodeAsbx .jmp 0 k)) →
    (js.foldl (·.fixSbx · dest) fs).code[i]? =
      if i ∈ js then some (encodeAsbx .jmp 0 ((dest : Int) - (i + 1))) else fs.code[i]?
  | [], fs, _ => rfl
  | j :: js, fs, hjump => by
      obtain ⟨k, hk⟩ := hjump j List.mem_cons_self
      have hself : (fs.fixSbx j dest).code[j]? =
          some (encodeAsbx .jmp 0 ((dest : Int) - (j + 1))) := fixSbx_self (by decide) hk
      have hrest : ∀ j' ∈ js, ∃ k, (fs.fixSbx j dest).code[j']? = some (encodeAsbx .jmp 0 k) := by
        intro j' hj'
        by_cases hne : j' = j
        · rw [hne]
          exact ⟨_, hself⟩
        · rw [fixSbx_of_ne hne]
          exact hjump j' (List.mem_cons_of_mem j hj')
      rw [List.foldl_cons, foldl_fixSbx_code js _ hrest]
      by_cases hmem : i ∈ js
      · rw [if_pos hmem, if_pos (List.mem_cons_of_mem j hmem)]
      · rw [if_neg hmem]
        by_cases hne : i = j
        · rw [if_pos (hne ▸ List.mem_cons_self), hne, hself]
        · rw [fixSbx_of_ne hne, if_neg]
          exact fun hi => (List.mem_cons.mp hi).elim hne hmem

@[simp] theorem ensures_fixAll {Q : Unit → LowerState α → Prop} :
    Ensures (fixAll js dest) s Q ↔ Q () { s with fs := js.foldl (·.fixSbx · dest) s.fs } := by
  rw [fixAll, List.forM_eq_forM]
  induction js generalizing s with
  | nil => rw [List.forM_nil, ensures_pure, List.foldl_nil]
  | cons j js ih => rw [List.forM_cons, ensures_bind, ensures_fixSbx, ih, List.foldl_cons]

theorem Follows.unbroken {i : Nat} (h : Follows p fs lo hi exit) (hlo : lo ≤ i) (hhi : i < hi)
    (hfresh : i ∉ fs.breakList) : p.code[i]? = fs.code[i]? := by
  rw [h i hlo hhi, if_neg hfresh]

theorem Follows.unfixed (h : Follows p (fs.fixSbx j dest) lo hi exit) (hj : hi ≤ j ∨ j < lo) :
    Follows p fs lo hi exit := by
  intro i hi₁ hi₂
  rw [h i hi₁ hi₂, fixSbx_of_ne (by omega)]
  rfl

theorem Follows.fixed {op : OpCode} {a : Nat} {k : Int}
    (h : Follows p (fs.fixSbx j dest) lo hi exit) (hlo : lo ≤ j) (hhi : j < hi)
    (hfresh : j ∉ fs.breakList) (ha : a < 256)
    (hcode : fs.code[j]? = some (encodeAsbx op a k)) :
    p.code[j]? = some (encodeAsbx op a ((dest : Int) - (j + 1))) := by
  rw [h.unbroken hlo hhi hfresh, fixSbx_self ha hcode]

theorem Sited.fixSbx (ht : Sited t) (j dest : Nat) :
    Sited { t with fs := t.fs.fixSbx j dest } where
  ready := ⟨ht.ready.main, ht.ready.env, ht.ready.only, ht.ready.locals, ht.ready.free,
    ht.ready.active⟩
  uncaptured := ht.uncaptured
  sorted := ht.sorted
  active := ht.active
  gotos := ht.gotos
  breaks i hi := by
    rw [fixSbx_pc]
    exact ht.breaks i hi

theorem Grown.fixSbx (hg : Grown s t) (hj : s.fs.pc ≤ j) (hfresh : j ∉ t.fs.breakList)
    (dest : Nat) : Grown s { t with fs := t.fs.fixSbx j dest } where
  code := by
    refine List.prefix_iff_getElem?.mpr fun i hi => ?_
    have hi' : i < s.fs.pc := hi
    rw [fixSbx_of_ne (by omega)]
    exact List.prefix_iff_getElem?.mp hg.code i hi
  constants := hg.constants
  maxstack := hg.maxstack
  nactvar := hg.nactvar
  locals := hg.locals
  breaks := by
    obtain ⟨more, hmore, hjump⟩ := hg.breaks
    refine ⟨more, hmore, fun i hi => ⟨(hjump i hi).1, ?_⟩⟩
    rw [fixSbx_of_ne]
    · exact (hjump i hi).2
    · rintro rfl
      exact hfresh (hmore ▸ List.mem_append_right _ hi)

theorem Grown.fixAll (dest : Nat) : ∀ (js : List Nat) (t : LowerState α), Grown s t → Sited t →
    (∀ j ∈ js, s.fs.pc ≤ j ∧ j ∉ t.fs.breakList) →
    Grown s { t with fs := js.foldl (·.fixSbx · dest) t.fs } ∧
      Sited { t with fs := js.foldl (·.fixSbx · dest) t.fs }
  | [], _, hg, ht, _ => ⟨hg, ht⟩
  | j :: js, t, hg, ht, hjs => by
      obtain ⟨hj, hfresh⟩ := hjs j List.mem_cons_self
      exact Grown.fixAll dest js { t with fs := t.fs.fixSbx j dest } (hg.fixSbx hj hfresh dest)
        (ht.fixSbx j dest) fun j' hj' => hjs j' (List.mem_cons_of_mem j hj')

theorem fixBreaks_eq (fs : FuncState α) (n dest : Nat) : fs.fixBreaks n dest =
    { fs with code := (fs.fixBreaks n dest).code, breakList := fs.breakList.take n } :=
  congrArg (fun patched => { patched with breakList := fs.breakList.take n })
    (foldl_fixSbx_eq (fs.breakList.drop n) fs)

theorem foldl_fixSbx_pc (js : List Nat) (fs : FuncState α) :
    (js.foldl (·.fixSbx · dest) fs).pc = fs.pc := by
  induction js generalizing fs with
  | nil => rfl
  | cons j js ih => exact (ih _).trans (fixSbx_pc fs j dest)

theorem fixBreaks_pc (fs : FuncState α) (n dest : Nat) : (fs.fixBreaks n dest).pc = fs.pc :=
  foldl_fixSbx_pc (fs.breakList.drop n) fs

section Breaks

variable (hg : Grown s t)
include hg

theorem Grown.fixBreaks_breakList :
    (t.fs.fixBreaks s.fs.breakList.length dest).breakList = s.fs.breakList := by
  obtain ⟨more, hmore, -⟩ := hg.breaks
  rw [FuncState.fixBreaks, hmore, List.take_left]

theorem Grown.fixBreaks_code {i : Nat} :
    (t.fs.fixBreaks s.fs.breakList.length dest).code[i]? =
      if i ∈ t.fs.breakList.drop s.fs.breakList.length then
        some (encodeAsbx .jmp 0 ((dest : Int) - (i + 1))) else t.fs.code[i]? := by
  refine foldl_fixSbx_code _ t.fs fun j hj => ?_
  obtain ⟨more, hmore, hjump⟩ := hg.breaks
  rw [hmore, List.drop_left] at hj
  exact ⟨0, (hjump j hj).2⟩

theorem Follows.ofFixed (hs : Sited s)
    (h : Follows p (t.fs.fixBreaks s.fs.breakList.length dest) lo hi exit)
    (hlo : s.fs.pc ≤ lo) : Follows p t.fs lo hi dest := by
  intro i hi₁ hi₂
  have hold : i ∉ s.fs.breakList := fun hi => by
    have := hs.breaks i hi
    omega
  rw [h.unbroken hi₁ hi₂ (by rwa [hg.fixBreaks_breakList]), hg.fixBreaks_code]
  obtain ⟨more, hmore, -⟩ := hg.breaks
  rw [hmore, List.drop_left]
  simp only [List.mem_append, hold, false_or]

theorem Grown.fixBreaks :
    Grown s { t with fs := t.fs.fixBreaks s.fs.breakList.length dest } where
  code := by
    refine List.prefix_iff_getElem?.mpr fun i hi => ?_
    show (t.fs.fixBreaks s.fs.breakList.length dest).code[i]? = _
    rw [hg.fixBreaks_code, if_neg]
    · exact List.prefix_iff_getElem?.mp hg.code i hi
    · obtain ⟨more, hmore, hjump⟩ := hg.breaks
      rw [hmore, List.drop_left]
      exact fun hmem => absurd hi (Nat.not_lt.mpr (hjump i hmem).1)
  constants := by
    rw [fixBreaks_eq]
    exact hg.constants
  maxstack := by
    rw [fixBreaks_eq]
    exact hg.maxstack
  nactvar := by
    rw [fixBreaks_eq]
    exact hg.nactvar
  locals := by
    rw [fixBreaks_eq]
    exact hg.locals
  breaks := ⟨[], by rw [List.append_nil]; exact hg.fixBreaks_breakList, by simp⟩

theorem Sited.fixBreaks (hs : Sited s) (ht : Sited t) :
    Sited { t with fs := t.fs.fixBreaks s.fs.breakList.length dest } := by
  have hbreaks (j : Nat) (hj : j ∈ (t.fs.fixBreaks s.fs.breakList.length dest).breakList) :
      j < (t.fs.fixBreaks s.fs.breakList.length dest).pc := by
    rw [hg.fixBreaks_breakList] at hj
    rw [fixBreaks_pc]
    exact Nat.lt_of_lt_of_le (hs.breaks j hj) hg.pc
  rw [fixBreaks_eq] at hbreaks ⊢
  exact {
    ready := ⟨ht.ready.main, ht.ready.env, ht.ready.only, ht.ready.locals, ht.ready.free,
      ht.ready.active⟩
    uncaptured := ht.uncaptured
    sorted := ht.sorted
    active := ht.active
    gotos := ht.gotos
    breaks := hbreaks }

end Breaks

end Patched

/-! ## Statements that leave -/

section Leaving

variable {P : Primitives V σ ε} {p : Proto α} {s t u : LowerState α} {inLoop : Bool}
  {names : List Name}

def breakA (fs : FuncState α) : Nat :=
  match fs.loopBreakLevel.getLast? with
  | some minReg => closeA (closeLevel (fs.locals.filter fun l => decide (minReg ≤ l.reg)))
  | none => 0

theorem lowerBreak_eq : (lowerBreak : Lower α Unit) = (do
    let fs ← getFs
    let j ← codeAsbx .jmp (breakA fs) 0
    modifyFs fun fs => { fs with breakList := fs.breakList ++ [j] }) := rfl

theorem executes_break :
    Executes (α := α) P true names [] lowerBreak fun fuel => execStmt P fuel .break := by
  intro s hs hnames
  have hlevel (minReg : Nat) :
      closeLevel (s.fs.locals.filter fun l => decide (minReg ≤ l.reg)) = none :=
    closeLevel_none fun l hl => hs.uncaptured l (List.mem_filter.mp hl).1
  have ha : breakA s.fs = 0 := by
    rw [breakA]
    cases s.fs.loopBreakLevel.getLast? with
    | some minReg => exact congrArg closeA (hlevel minReg)
    | none => rfl
  rw [lowerBreak_eq]
  simp only [ensures_bind, ensures_getFs, ha, ensures_codeAsbx, ensures_modifyFs]
  let t : LowerState α := { s with fs := s.fs.emit (encodeAsbx .jmp 0 0) }
  have hgrown : Extends s t := (Extends.refl s).emit _
  have hsited : Sited t := hs.extends hgrown hs.ready.free
  have hpc : t.fs.pc = s.fs.pc + 1 := pc_emit s.fs _
  refine ⟨⟨?_, ?_, Bool.noConfusion, ?_⟩, by rw [List.append_nil]; exact hnames⟩
  · exact {
      hgrown.onward with
      breaks := ⟨[s.fs.pc], rfl, fun j hj => by
        cases List.mem_singleton.mp hj
        exact ⟨Nat.le_refl _, emit_last rfl⟩⟩ }
  · exact {
      hsited with
      ready := ⟨hs.ready.main, hs.ready.env, hs.ready.only, hs.ready.locals, hs.ready.free,
        hs.ready.active⟩
      breaks := fun j hj => by
        rcases List.mem_append.mp hj with hj | hj
        · exact hsited.breaks j hj
        · cases List.mem_singleton.mp hj
          exact Nat.lt_of_lt_of_eq (Nat.lt_succ_self _) hpc.symm }
  · intro p fuel exit hsmall hcovers hexit hfollows n ρ c hn hc hholds Y k post hnext hbroke
    have hjump : p.code[c.pc]? = some (encodeAsbx .jmp 0 ((exit : Int) - (c.pc + 1))) := by
      rw [hc, hfollows s.fs.pc (Nat.le_refl _) (Nat.lt_of_lt_of_eq (Nat.lt_succ_self _) hpc.symm)]
      exact if_pos (List.mem_append_right _ (List.mem_singleton.mpr rfl))
    rw [execStmt, pure_bind]
    refine realises_jump hsmall hjump hexit (hbroke ρ _ rfl ?_)
    have hran := (Ran.refl hholds).first (.refl s)
    exact ⟨⟨hran.holds.scope, hran.holds.env⟩, rfl, hran.hidden⟩

theorem discard_bind (m : Eval V σ ε X) (k : Unit → Eval V σ ε Y) :
    discard m >>= k = m >>= fun _ => k () := by
  have hmap : discard m = (fun _ => ()) <$> m := rfl
  rw [hmap, bind_map_left]

theorem executes_callStmt {callee : Expr} {args : List Expr} {method : Option Name}
    (h : ∀ ρ : Env V, Correct α P ρ names (.call callee args method)) :
    Executes (α := α) P inLoop names [] (lowerCallStmt (expr (.call callee args method)))
      fun fuel => execStmt P fuel (.callStmt (.call callee args method)) := by
  intro s hs hnames
  rw [lowerCallStmt, ensures_bind]
  have hall (ρ : Env V) := ((h ρ).value s hs.ready hnames).and
    ((h ρ).call callee args method rfl s hs.ready hnames)
  refine (Ensures.all hall).mono fun d t ht => ?_
  obtain ⟨hfirst, base, b, u, rfl, rfl, -⟩ := ht ⟨[], P.nil, []⟩
  have hactive : (u.called base b 2).fs.nactvar = s.fs.nactvar := hfirst.grown.nactvar
  have hgrown := hfirst.grown.setFreereg (u.called base b 2).fs.nactvar
  simp only [freeToActive, ensures_modifyFs]
  refine ⟨⟨hgrown.onward, hs.extends hgrown (Nat.le_of_eq hactive.symm),
    fun _ => hgrown.breakList, ?_⟩, ?_⟩
  · intro p fuel exit hsmall hcovers hexit hfollows n ρ c hn hpc hholds Y k post hnext hbroke
    have hagree := hfollows.agree hs hgrown.breakList (Nat.le_refl _)
    rw [execStmt, bind_assoc, discard_bind]
    refine (ht ρ).1.leads p hsmall ⟨hcovers.constants, hcovers.maxstack⟩ hagree n c hpc hholds Y _
      post fun c' hpc' hsame => ?_
    show Realises _ n c' (((pure (c'.regs base) : Eval V σ ε V) >>= fun _ =>
      pure (.next, ρ) >>= k) c'.world) post
    rw [pure_bind, pure_bind]
    exact hnext ρ c' hpc' ((Ran.refl hholds).same hs hgrown.locals hs.ready.free hsame)
  · rw [List.append_nil, ← hnames]
    exact congrArg (List.map Local.name) hgrown.locals

/-! ## Returns -/

theorem leave_bind {values : List V} {k : X → Eval V σ ε Y} {world : σ} :
    (leave values >>= k : Eval V σ ε Y) world = throw (.returned values world) := rfl

theorem realises_return {varargs : List V} {c : Config V σ} {n a b : Nat} {values : List V}
    {k : X → Eval V σ ε Y} {post : Y × σ → Config V σ → Prop} (ha : a < 256) (hb : b < 256)
    (hi : p.code[c.pc]? = some (encodeAbc .return a b 0)) (hvalues : c.operands a b = values) :
    Realises (advance P p varargs) n c ((leave values >>= k : Eval V σ ε Y) c.world) post := by
  rw [leave_bind]
  refine Realises.halt ?_
  rw [advance, hi, ← hvalues]
  simp only [exec, encodeAbc, Instruction.op, Instruction.a, Instruction.b, Nat.mod_eq_of_lt ha,
    Nat.mod_eq_of_lt hb]
  rfl

theorem Code.ofLeaving {ev : Nat → Env V → Eval V σ ε (Flow × Env V)} (hs : Sited s)
    (hgrown : Extends s t) (hfree : s.fs.nactvar ≤ t.fs.freereg)
    (hruns : ∀ p, Small p → Covers p t.fs → Agree p t.fs s.fs.pc t.fs.pc →
      ∀ fuel n ρ c, c.pc = s.fs.pc → Holds s.fs ρ c →
        ∀ (Y : Type) (k : Flow × Env V → Eval V σ ε Y) (post : Y × σ → Config V σ → Prop),
          Realises (advance P p ρ.varargs) n c ((ev fuel ρ >>= k) c.world) post) :
    Code P inLoop s ev t where
  grown := hgrown.onward
  sited := hs.extends hgrown hfree
  quiet _ := hgrown.breakList
  runs p fuel _ hsmall hcovers _ hfollows n ρ c _ hpc hholds Y k post _ _ :=
    hruns p hsmall hcovers (hfollows.agree hs hgrown.breakList (Nat.le_refl _)) fuel n ρ c hpc
      hholds Y k post

def LowerState.tailCalled (u : LowerState α) (base b : Nat) : LowerState α :=
  { u with fs := (u.fs.emit (encodeAbc .tailCall base b 0)).setFreereg (base + 1) }

theorem toTailCall_called (u : LowerState α) (base b : Nat) :
    { u.called base b 2 with fs := (u.called base b 2).fs.toTailCall u.fs.pc } =
      u.tailCalled base b := by
  have hcode : (u.fs.code ++ [encodeAbc .call base b 2]).modify u.fs.code.length
      (fun i => encodeAbc .tailCall i.a i.b 0) = u.fs.code ++ [encodeAbc .tailCall base b 0] := by
    have hlast := modify_last u.fs.code (encodeAbc .call base b 2)
      fun i : Instruction α => encodeAbc .tailCall i.a i.b 0
    rw [List.length_append, List.length_singleton, Nat.add_sub_cancel] at hlast
    rw [hlast]
    simp [encodeAbc, Instruction.a, Instruction.b]
  exact congrArg (fun code => { u with
    fs := ({ u.fs with code } : FuncState α).setFreereg (base + 1) }) hcode

theorem tailCall_ok {m : Lower α Expdesc} {ev : Env V → Eval V σ ε (V × List V)} (hs : Sited s)
    (h : ∀ ρ : Env V, Calls P ρ names m (ev ρ)) (hnames : s.fs.locals.map Local.name = names) :
    Ensures (lowerTailCall m) s fun _ w => ∀ ρ, ∃ base b u, w = u.tailCalled base b ∧
      Called P ρ { s with fs := s.fs.setFreereg s.fs.nactvar } (ev ρ) base b u := by
  simp only [lowerTailCall, freeToActive, ensures_bind, ensures_modifyFs, ensures_getFs]
  let s₁ : LowerState α := { s with fs := s.fs.setFreereg s.fs.nactvar }
  have hgrown₁ : Extends s s₁ := (Extends.refl s).setFreereg _
  have hsited₁ : Sited s₁ := hs.extends hgrown₁ (Nat.le_refl _)
  refine (Ensures.all fun ρ => h ρ s₁ hsited₁.ready hnames).mono fun d t ht => ?_
  have hlast (ρ : Env V) : ∃ base b u, t.fs.lastCall = some u.fs.pc ∧
      { t with fs := t.fs.toTailCall u.fs.pc } = u.tailCalled base b ∧
        Called P ρ s₁ (ev ρ) base b u := by
    obtain ⟨base, b, u, -, rfl, hu⟩ := ht ρ
    have hcode : (u.called base b 2).fs.code = u.fs.code ++ [encodeAbc .call base b 2] := rfl
    refine ⟨base, b, u, ?_, toTailCall_called u base b, hu⟩
    rw [FuncState.lastCall, hcode, List.reverse_append, List.length_append]
    rfl
  have hnone : closeLevel t.fs.locals = none := by
    obtain ⟨base, b, u, -, rfl, hu⟩ := ht ⟨[], P.nil, []⟩
    refine closeLevel_none fun l hl => hs.uncaptured l ?_
    rwa [← (hgrown₁.trans hu.grown).locals]
  obtain ⟨-, -, u₀, hcall, -, -⟩ := hlast ⟨[], P.nil, []⟩
  simp only [hcall, hnone, ensures_modifyFs]
  intro ρ
  obtain ⟨base, b, u, hcall', heq, hu⟩ := hlast ρ
  rw [hcall, Option.some.injEq] at hcall'
  exact ⟨base, b, u, by rw [hcall', heq], hu⟩

theorem realises_tailCall {varargs : List V} {c : Config V σ} {n base b : Nat} {f : V}
    {args : List V} {k : X → Eval V σ ε Y} {post : Y × σ → Config V σ → Prop}
    (hbase : base < 256) (hi : p.code[c.pc]? = some (encodeAbc .tailCall base b 0))
    (hf : c.regs base = f) (hargs : c.operands (base + 1) (b % 256) = args) :
    Realises (advance P p varargs) n c
      ((lift (P.call none f args) >>= fun vs => (leave vs >>= k : Eval V σ ε Y)) c.world) post := by
  have hexec : advance P p varargs c = finish (P.call none f args) { c with pc := c.pc + 1 } := by
    rw [advance, hi, ← hf, ← hargs]
    simp only [exec, encodeAbc, Instruction.op, Instruction.a, Instruction.b,
      Nat.mod_eq_of_lt hbase]
    rfl
  cases hcall : P.call none f args c.world with
  | ok r =>
      have hlift : (lift (P.call none f args) >>= fun vs => (leave vs >>= k : Eval V σ ε Y))
          c.world = throw (.returned r.1 r.2) := by
        show ((lift (P.call none f args) c.world : Comp _ _) >>= _) = _
        rw [lift, hcall]
        rfl
      rw [hlift]
      refine Realises.halt ?_
      rw [hexec, finish, hcall]
  | error e =>
      have hlift : (lift (P.call none f args) >>= fun vs => (leave vs >>= k : Eval V σ ε Y))
          c.world = throw (.raised e) := by
        show ((lift (P.call none f args) c.world : Comp _ _) >>= _) = _
        rw [lift, hcall]
        rfl
      rw [hlift]
      refine Realises.halt ?_
      rw [hexec, finish, hcall]

theorem executes_tailCall {callee : Expr} {args : List Expr} {method : Option Name}
    (h : ∀ ρ : Env V, Correct α P ρ names (.call callee args method)) :
    Executes (α := α) P inLoop names [] (lowerTailCall (expr (.call callee args method)))
      fun fuel => execStmt P fuel (.return [.call callee args method]) := by
  intro s hs hnames
  refine (tailCall_ok hs (fun ρ => (h ρ).call callee args method rfl) hnames).mono fun _ w hw => ?_
  have hgrown₁ : Extends s { s with fs := s.fs.setFreereg s.fs.nactvar } :=
    (Extends.refl s).setFreereg _
  have hgrown : Extends s w ∧ s.fs.nactvar ≤ w.fs.freereg := by
    obtain ⟨base, b, u, rfl, hu⟩ := hw ⟨[], P.nil, []⟩
    refine ⟨((hgrown₁.trans hu.grown).emit _).setFreereg _, ?_⟩
    have hstart : base = s.fs.nactvar := hu.start
    show s.fs.nactvar ≤ base + 1
    omega
  refine ⟨Code.ofLeaving hs hgrown.1 hgrown.2 ?_, ?_⟩
  · intro p hsmall hcovers hagree fuel n ρ c hpc hholds Y k post
    obtain ⟨base, b, u, rfl, hu⟩ := hw ρ
    have hgrown₂ : Extends u (u.tailCalled base b) := ((Extends.refl u).emit _).setFreereg _
    have htail : p.code[u.fs.pc]? = some (encodeAbc .tailCall base b 0) := by
      rw [hagree u.fs.pc (hgrown₁.trans hu.grown).pc (by simp [LowerState.tailCalled])]
      exact emit_last rfl
    rw [execStmt, evalArgs, List.isEmpty_nil, Bool.true_and, if_pos (by rfl), evalMulti, evalCall,
      bind_assoc, bind_assoc]
    refine hu.delivers p hsmall (hcovers.before hgrown₂)
      ((hagree.mono (Nat.le_refl _) hgrown₂.pc).before hgrown₂ (Nat.le_refl _)) n c hpc
      ⟨hholds.scope, hholds.env⟩ Y _ post fun r c₁ hpc₁ _ hr => ?_
    rw [← hpc₁] at htail
    rw [lift_map_bind]
    exact realises_tailCall (Nat.lt_trans hu.limit (by decide)) htail hr.1 hr.2
  · rw [List.append_nil, ← hnames]
    exact congrArg (List.map Local.name) hgrown.1.locals

theorem length_exprItems (es : List Expr) : (exprItems es : List (Item α)).length = es.length := by
  induction es with
  | nil => rfl
  | cons e es ih => rw [exprItems, List.length_cons, List.length_cons, ih]

theorem lowerReturn_values {es : List Expr} (hne : es ≠ [])
    (h : ∀ e, es = [e] → e.isCall = false) :
    (lowerReturn (exprItems es) : Lower α Unit) = (do
      freeToActive
      let base := (← getFs).freereg
      let multret ← returnValues base 0 (exprItems es)
      discard (codeAbc .return base (if multret then 0 else es.length + 1) 0)) := by
  rw [← length_exprItems (α := α) es]
  cases es with
  | nil => exact absurd rfl hne
  | cons e es =>
      cases es with
      | nil =>
          have hcall := h e rfl
          cases e <;> first | rfl | cases hcall
      | cons e' es => rw [exprItems, exprItems, lowerReturn] <;> simp

theorem executes_return {es : List Expr} (hne : es ≠ []) (hcall : ∀ e, es = [e] → e.isCall = false)
    (hlen : es.length ≤ 50) (h : ∀ ρ : Env V, ∀ e ∈ es, Correct α P ρ names e) :
    Executes (α := α) P inLoop names [] (lowerReturn (exprItems es))
      fun fuel => execStmt P fuel (.return es) := by
  intro s hs hnames
  rw [lowerReturn_values hne hcall]
  simp only [freeToActive, ensures_bind, ensures_modifyFs, ensures_getFs, ensures_discard,
    ensures_codeAbc]
  let s₁ : LowerState α := { s with fs := s.fs.setFreereg s.fs.nactvar }
  have hgrown₁ : Extends s s₁ := (Extends.refl s).setFreereg _
  have hsited₁ : Sited s₁ := hs.extends hgrown₁ (Nat.le_refl _)
  refine (Ensures.all fun ρ => returnValues_ok (P := P) (ρ := ρ) s.fs.nactvar es 0 s₁ (h ρ)
    hsited₁.ready hnames (Nat.le_refl _) (Nat.le_refl _)).mono fun isOpen t ht => ?_
  have hgrown₂ : Extends s t := hgrown₁.trans (ht ⟨[], P.nil, []⟩).1.grown
  have hgrown := hgrown₂.emit
    (encodeAbc .return s.fs.nactvar (if isOpen then 0 else es.length + 1) 0)
  refine ⟨Code.ofLeaving hs hgrown (ht ⟨[], P.nil, []⟩).2 ?_, ?_⟩
  · intro p hsmall hcovers hagree fuel n ρ c hpc hholds Y k post
    have hcovers' : Covers p t.fs := ⟨hcovers.constants, hcovers.maxstack⟩
    have hactive : s.fs.nactvar ≤ 200 :=
      hs.ready.active.trans (hgrown₂.maxstack.trans (hcovers'.maxstack.trans hsmall.maxstack))
    have hpc' : t.fs.pc < (t.fs.emit (encodeAbc .return s.fs.nactvar
        (if isOpen then 0 else es.length + 1) 0)).pc := by simp
    have hreturn : p.code[t.fs.pc]? = some (encodeAbc .return s.fs.nactvar
        (if isOpen then 0 else es.length + 1) 0) := by
      rw [hagree t.fs.pc hgrown₂.pc hpc']
      exact emit_last rfl
    have hagree' : Agree p t.fs s.fs.pc t.fs.pc := by
      intro i hlo hhi
      rw [hagree i hlo (Nat.lt_trans hhi hpc')]
      exact emit_of_lt hhi
    rw [execStmt, bind_assoc]
    refine (ht ρ).1.delivers p hsmall hcovers' (by omega) hagree' n c hpc
      ⟨hholds.scope, hholds.env⟩ Y _ post fun values c₁ hpc₁ _ hvalues => ?_
    obtain ⟨hbetween, hend⟩ := hvalues
    rw [Nat.add_zero] at hbetween hend
    rw [← hpc₁] at hreturn
    refine realises_return (by omega) ?_ hreturn ?_
    · split <;> omega
    · cases isOpen with
      | true =>
          rw [if_pos rfl] at hend ⊢
          rw [Config.operands, if_pos rfl, hend, hbetween]
      | false =>
          rw [if_neg Bool.false_ne_true] at hend ⊢
          rw [Config.operands, if_neg (Nat.succ_ne_zero _), ← hend]
          exact hbetween
  · rw [List.append_nil, ← hnames]
    exact congrArg (List.map Local.name) hgrown.locals

theorem executes_returnNothing :
    Executes (α := α) P inLoop names [] (lowerReturn (exprItems []))
      fun fuel => execStmt P fuel (.return []) := by
  intro s hs hnames
  simp only [exprItems, lowerReturn, ensures_discard, ensures_codeAbc]
  have hgrown := (Extends.refl s).emit (encodeAbc .return 0 1 0)
  refine ⟨Code.ofLeaving hs hgrown hs.ready.free ?_, by rw [List.append_nil]; exact hnames⟩
  intro p hsmall hcovers hagree fuel n ρ c hpc hholds Y k post
  have hreturn : p.code[c.pc]? = some (encodeAbc .return 0 1 0) := by
    rw [hpc, hagree s.fs.pc (Nat.le_refl _) (by simp)]
    exact emit_last rfl
  rw [execStmt, evalArgs, pure_bind]
  exact realises_return (by decide) (by decide) hreturn rfl

end Leaving

end Luatier.Lowering
