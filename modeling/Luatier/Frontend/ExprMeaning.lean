import Luatier.Frontend.Registers

/-!
# The code of an expression computes its value

One lemma for each form of expression, made from what its parts compute.
-/

namespace Luatier.Lowering

open Realising

variable {α V σ ε X Y Z : Type}

section Leads

variable {P : Primitives V σ ε} {p : Proto α} {ρ : Env V} {s t u : LowerState α}
  {floor : Nat} {ev res : Config V σ → Eval V σ ε X}

theorem Leads.mono {floor' : Nat} (h : Leads P p ρ floor' s t ev res) (hle : floor ≤ floor') :
    Leads P p ρ floor s t ev res :=
  fun n c hpc hholds Y k post hend =>
    h n c hpc hholds Y k post fun c' hpc' hsame => hend c' hpc' (hsame.mono hle)

theorem Holds.extends {c c' : Config V σ} (h : Holds s.fs ρ c) (hready : Ready s)
    (hgrown : Extends s t) (hfloor : s.fs.nactvar ≤ floor) (hsame : Same floor c c') :
    Holds t.fs ρ c' :=
  h.same hgrown.locals (fun l hl => Nat.lt_of_lt_of_le (hready.locals l hl) hfloor) hsame

theorem Leads.andThen {mid : Config V σ → Eval V σ ε X} (hready : Ready s)
    (hgrown : Extends s t) (hfloor : s.fs.nactvar ≤ floor)
    (h : Leads P p ρ floor s t ev mid) (h' : Leads P p ρ floor t u mid res) :
    Leads P p ρ floor s u ev res := by
  intro n c hpc hholds Y k post hend
  refine h n c hpc hholds Y k post fun c' hpc' hsame => ?_
  refine h' n c' hpc' (hholds.extends hready hgrown hfloor hsame) Y k post
    fun c'' hpc'' hsame' => ?_
  exact hend c'' hpc'' (hsame.trans hsame')

theorem Leads.bind {g : Config V σ → X} {ev' : X → Eval V σ ε Z}
    {res : Config V σ → Eval V σ ε Z} (hready : Ready s) (hgrown : Extends s t)
    (hfloor : s.fs.nactvar ≤ floor) (h : Leads P p ρ floor s t ev fun c => pure (g c))
    (h' : Leads P p ρ floor t u (fun c => ev' (g c)) res) :
    Leads P p ρ floor s u (fun c => ev c >>= ev') res := by
  intro n c hpc hholds Y k post hend
  rw [bind_assoc]
  refine h n c hpc hholds Y _ post fun c' hpc' hsame => ?_
  rw [pure_bind]
  refine h' n c' hpc' (hholds.extends hready hgrown hfloor hsame) Y k post
    fun c'' hpc'' hsame' => ?_
  exact hend c'' hpc'' (hsame.trans hsame')

theorem Leads.keep {g : Config V σ → X} {f : Config V σ → Z}
    (h : Leads P p ρ floor s t ev fun c => pure (g c))
    (hf : ∀ c c', Same floor c c' → f c' = f c) :
    Leads P p ρ floor s t (fun c => ev c >>= fun x => pure (f c, x))
      fun c => pure (f c, g c) := by
  intro n c hpc hholds Y k post hend
  rw [bind_assoc]
  refine h n c hpc hholds Y _ post fun c' hpc' hsame => ?_
  have hgoal := hend c' hpc' hsame
  rw [pure_bind] at hgoal
  rw [pure_bind, pure_bind, ← hf c c' hsame]
  exact hgoal

theorem Leads.to {v : LowerState α} (h : Leads P p ρ floor s t ev res)
    (hpc : v.fs.pc = t.fs.pc) : Leads P p ρ floor s v ev res :=
  fun n c hc hholds Y k post hend =>
    h n c hc hholds Y k post fun c' hc' hsame => hend c' (hc'.trans hpc.symm) hsame

end Leads

/-! ## Descriptions and operands -/

/-- When the code has been run, the description stands for the value of `ev`. -/
structure Described (P : Primitives V σ ε) (ρ : Env V) (loose : Bool) (s : LowerState α)
    (ev : Eval V σ ε V) (d : Expdesc) (s' : LowerState α) : Prop where
  grown : Extends s s'
  free : s.fs.freereg ≤ s'.fs.freereg
  inRange : d.InRange s'.fs s.fs.freereg
  kept : d.Kept s'.fs loose
  leads : ∀ p, Small p → Covers p s'.fs → Agree p s'.fs s.fs.pc s'.fs.pc →
    Leads P p ρ s.fs.freereg s s' (fun _ => ev) (d.meaning P p)

/--
An expression that is lowered where the locals have these names computes `ev`.  The
register of a loose one may be taken by what comes after.
-/
def Computes (P : Primitives V σ ε) (ρ : Env V) (names : List Name) (loose : Bool)
    (m : Lower α Expdesc) (ev : Eval V σ ε V) : Prop :=
  ∀ s, Ready s → s.fs.locals.map Local.name = names → Ensures m s (Described P ρ loose s ev)

section Operand

variable {P : Primitives V σ ε} {ρ : Env V} {names : List Name} {loose : Bool}
  {s t u : LowerState α}

theorem Described.ready {ev : Eval V σ ε V} {d : Expdesc} (h : Described P ρ loose s ev d t)
    (hready : Ready s) : Ready t := hready.extends h.grown h.free

theorem Computes.operand {m : Lower α Expdesc} {ev : Eval V σ ε V}
    (h : Computes P ρ names loose m ev) (hready : Ready s)
    (hnames : s.fs.locals.map Local.name = names) {Q : Nat → LowerState α → Prop}
    (hQ : ∀ r t, Operand P ρ s.fs.freereg loose s (fun _ _ => ev) r t → Q r t) :
    Ensures m s fun d t => Ensures (exp2reg d) t Q := by
  refine (h s hready hnames).mono fun d t hd => ?_
  refine (operand_exp2reg (P := P) (ρ := ρ) (hd.ready hready) hd.free hd.inRange hd.kept).mono
    fun r u hr => hQ r u ?_
  exact {
    grown := hd.grown.trans hr.grown
    free := hd.free.trans hr.free
    register := hr.register
    kept := hr.kept
    leads := fun p hsmall hcovers hagree =>
      (hd.leads p hsmall (hcovers.before hr.grown)
        ((hagree.mono (Nat.le_refl _) hr.grown.pc).before hr.grown (Nat.le_refl _))).andThen
        hready hd.grown hready.free
        (hr.leads p hsmall hcovers (hagree.mono hd.grown.pc (Nat.le_refl _))) }

theorem Operand.moveTo {ev : Config V σ → Proto α → Eval V σ ε V} {floor floor' dest r : Nat}
    (h : Operand P ρ floor loose s ev r t) (hready : Ready s) (hactive : s.fs.nactvar ≤ floor')
    (hfloor : floor' ≤ floor) (hdest : floor' ≤ dest) {Q : Unit → LowerState α → Prop}
    (hQ : ∀ u, Extends t u → u.fs.freereg = t.fs.freereg →
      (∀ p, Small p → Covers p u.fs → dest < 256 → Agree p u.fs s.fs.pc u.fs.pc →
        Leads P p ρ floor' s u (ev · p) fun c => pure (c.regs dest)) → Q () u) :
    Ensures (moveTo dest r) t Q := by
  rw [ensures_moveTo]
  refine ⟨?_, fun _ => ?_⟩
  · rintro rfl
    exact hQ t (.refl t) rfl fun p hsmall hcovers _ hagree =>
      (h.leads p hsmall hcovers hagree).mono hfloor
  · have hgrown := (Extends.refl t).emit (encodeAbc .move dest r 0)
    refine hQ _ hgrown rfl fun p hsmall hcovers hlt hagree => ?_
    have hcovers' := hcovers.before hgrown
    refine ((h.leads p hsmall hcovers' ((hagree.mono (Nat.le_refl _) hgrown.pc).before hgrown
      (Nat.le_refl _))).mono hfloor).andThen hready h.grown hactive ?_
    exact leads_single (fun c => pure (c.regs r)) hdest rfl
      (hagree.mono h.grown.pc (Nat.le_refl _))
      (fun c => exec_move hlt (hcovers'.lt hsmall h.register.2))
      fun _ _ => rfl

/-- Two values in registers; what stands in the first is not touched by the second. -/
structure Operands (P : Primitives V σ ε) (ρ : Env V) (s : LowerState α)
    (loose : Bool) (ev : Eval V σ ε (V × V)) (r : Nat × Nat) (s' : LowerState α) : Prop where
  grown : Extends s s'
  free : s.fs.freereg ≤ s'.fs.freereg
  left : Register s'.fs s.fs.freereg r.1
  kept : r.1 < s'.fs.freereg
  right : Register s'.fs s.fs.freereg r.2
  spared : Spared s'.fs loose r.2
  leads : ∀ p, Small p → Covers p s'.fs → Agree p s'.fs s.fs.pc s'.fs.pc →
    Leads P p ρ s.fs.freereg s s' (fun _ => ev) fun c => pure (c.regs r.1, c.regs r.2)

theorem Register.extends {fs fs' : FuncState α} {floor r : Nat} (h : Register fs floor r)
    (hactive : fs'.nactvar = fs.nactvar) (hstack : fs.maxstack ≤ fs'.maxstack) :
    Register fs' floor r := by
  refine ⟨?_, Nat.lt_of_lt_of_le h.2 hstack⟩
  rw [hactive]
  exact h.1

theorem Register.mono {fs : FuncState α} {floor floor' r : Nat} (h : Register fs floor r)
    (hle : floor' ≤ floor) : Register fs floor' r :=
  ⟨h.1.imp_right hle.trans, h.2⟩

theorem operands_ok {lhs rhs : Lower α Expdesc} {evl evr : Eval V σ ε V}
    (hl : Computes P ρ names false lhs evl) (hr : Computes P ρ names loose rhs evr)
    (hready : Ready s) (hnames : s.fs.locals.map Local.name = names) :
    Ensures (operands lhs rhs) s
      (Operands P ρ s loose (evl >>= fun v => evr >>= fun w => pure (v, w))) := by
  simp only [operands, ensures_bind]
  refine hl.operand hready hnames fun rb t hb => ?_
  have hready' : Ready t := hready.extends hb.grown hb.free
  have hnames' : t.fs.locals.map Local.name = names := by rw [hb.grown.locals, hnames]
  refine hr.operand hready' hnames' fun rc u hc => ?_
  rw [ensures_pure]
  have hrb : rb < t.fs.freereg := hb.kept.kept rfl
  exact {
    grown := hb.grown.trans hc.grown
    free := hb.free.trans hc.free
    left := hb.register.extends hc.grown.nactvar hc.grown.maxstack
    kept := Nat.lt_of_lt_of_le hrb hc.free
    right := hc.register.mono hb.free
    spared := hc.kept
    leads := fun p hsmall hcovers hagree => by
      have hleft := hb.leads p hsmall (hcovers.before hc.grown)
        ((hagree.mono (Nat.le_refl _) hc.grown.pc).before hc.grown (Nat.le_refl _))
      have hright := hc.leads p hsmall hcovers (hagree.mono hb.grown.pc (Nat.le_refl _))
      refine hleft.bind hready hb.grown hready.free (?_ : Leads P p ρ s.fs.freereg t u
        (fun c => (fun v => evr >>= fun w => pure (v, w)) (c.regs rb)) _)
      refine (hright.keep (f := fun c => c.regs rb) fun c c' hsame => ?_).mono hb.free
      exact hsame.regs rb hrb }

theorem Operands.described {loose' : Bool} {ev : Eval V σ ε (V × V)} {r : Nat × Nat}
    {dest : Nat} {f : V × V → Eval V σ ε V} (h : Operands P ρ s loose ev r t)
    (hready : Ready s) (hgrown : Extends t u) (hdest : s.fs.freereg ≤ dest)
    (hstack : dest < u.fs.maxstack) (hfree : u.fs.freereg = dest + 1)
    (hleads : ∀ p, Small p → Covers p u.fs → Agree p u.fs t.fs.pc u.fs.pc →
      Leads P p ρ s.fs.freereg t u (fun c => f (c.regs r.1, c.regs r.2))
        fun c => pure (c.regs dest)) :
    Described P ρ loose' s (ev >>= f) (.nonrelocable dest) u where
  grown := h.grown.trans hgrown
  free := by omega
  inRange := ⟨.inr hdest, hstack⟩
  kept := .of_lt (by omega)
  leads p hsmall hcovers hagree := by
    have hfirst := h.leads p hsmall (hcovers.before hgrown)
      ((hagree.mono (Nat.le_refl _) hgrown.pc).before hgrown (Nat.le_refl _))
    refine hfirst.bind (g := fun c => (c.regs r.1, c.regs r.2)) hready h.grown hready.free ?_
    exact hleads p hsmall hcovers (hagree.mono h.grown.pc (Nat.le_refl _))

theorem Operands.operated {loose' : Bool} {ev : Eval V σ ε (V × V)} {r : Nat × Nat}
    {dest : Nat} {i : Instruction α} {f : V × V → Op σ ε V}
    (h : Operands P ρ s loose ev r t) (hready : Ready s)
    (hgrown : Extends t u) (hcode : u.fs.code = t.fs.code ++ [i])
    (hdest : s.fs.freereg ≤ dest) (hstack : dest < u.fs.maxstack)
    (hfree : u.fs.freereg = dest + 1)
    (hexec : ∀ (p : Proto α) c, r.1 < 256 → r.2 < 256 → dest < 256 → exec P p ρ.varargs i c =
      operate (f (c.regs r.1, c.regs r.2)) (fun v c => c.set dest v) c) :
    Described P ρ loose' s (ev >>= fun x => lift (f x)) (.nonrelocable dest) u := by
  refine h.described hready hgrown hdest hstack hfree fun p hsmall hcovers hagree => ?_
  have hcovers' := hcovers.before hgrown
  exact leads_single (fun c => f (c.regs r.1, c.regs r.2)) hdest hcode hagree
    (fun c => hexec p c (hcovers'.lt hsmall h.left.2) (hcovers'.lt hsmall h.right.2)
      (hcovers.lt hsmall hstack)) fun _ _ => rfl

theorem exec_arith {p : Proto α} {varargs : List V} {c : Config V σ} {op : BinOp}
    {code : OpCode} {a b d : Nat} (h : binArithOp op = some code) (ha : a < 256) (hb : b < 256)
    (hd : d < 256) :
    exec P p varargs (encodeAbc code a b d) c =
      operate (P.arith code (c.regs b) (c.regs d)) (fun v c => c.set a v) c := by
  cases op <;> cases h <;>
    simp only [exec, encodeAbc, Instruction.op, Instruction.a, Instruction.b, Instruction.c,
      Nat.mod_eq_of_lt ha, Nat.mod_eq_of_lt hb, Nat.mod_eq_of_lt hd]

theorem computes_arith {op : BinOp} {code : OpCode} (hop : binArithOp op = some code)
    {lhs rhs : Lower α Expdesc} {evl evr : Eval V σ ε V}
    (hl : Computes P ρ names false lhs evl) (hr : Computes P ρ names loose rhs evr) :
    Computes P ρ names false (lowerArith op lhs rhs)
      (evl >>= fun v => evr >>= fun w => lift (P.arith code v w)) := by
  intro s hready hnames
  simp only [lowerArith, ensures_bind]
  refine (operands_ok hl hr hready hnames).mono ?_
  rintro ⟨rb, rc⟩ u h
  have hev : (evl >>= fun v => evr >>= fun w => lift (P.arith code v w)) =
      (evl >>= fun v => evr >>= fun w => pure (v, w)) >>= fun x => lift (P.arith code x.1 x.2) := by
    simp only [bind_assoc, pure_bind]
  rw [hev]
  simp only [arithDest, ensures_bind, ensures_getFs, ensures_ite, hop, ensures_discard,
    ensures_codeAbc, ensures_setFreereg, ensures_pure, ensures_newReg]
  have hexec (dest : Nat) (p : Proto α) (c : Config V σ) (hb : rb < 256) (hc : rc < 256)
      (hd : dest < 256) : exec P p ρ.varargs _ c = _ := exec_arith hop hd hb hc
  refine ⟨fun hrb => ?_, fun _ => ⟨fun hrc => ?_, fun _ _ => ?_⟩⟩
  · exact h.operated (f := fun x => P.arith code x.1 x.2) hready
      (((Extends.refl u).emit _).setFreereg _) rfl (h.left.1.resolve_left (Nat.not_lt.mpr hrb))
      h.left.2 rfl (hexec rb)
  · exact h.operated (f := fun x => P.arith code x.1 x.2) hready
      (((Extends.refl u).emit _).setFreereg _) rfl (h.right.1.resolve_left (Nat.not_lt.mpr hrc))
      h.right.2 rfl (hexec rc)
  · exact h.operated (f := fun x => P.arith code x.1 x.2) hready
      ((((Extends.refl u).reserved 1).emit _).setFreereg _) rfl h.free
      (Nat.lt_of_lt_of_le (Nat.lt_succ_self _) (Nat.le_max_right _ _)) rfl (hexec _)

/-! ## Concatenation -/

theorem exec_concat {p : Proto α} {varargs : List V} {c : Config V σ} {a : Nat}
    (ha : a + 1 < 256) :
    exec P p varargs (encodeAbc .concat a a (a + 1)) c =
      operate (P.concat (c.regs a) (c.regs (a + 1))) (fun v c => c.set a v) c := by
  have hbetween : c.between (a + 1) (a + 1 + 1) = [c.regs (a + 1)] := by
    simp [Config.between]
  simp only [exec, encodeAbc, Instruction.op, Instruction.a, Instruction.b, Instruction.c,
    Nat.mod_eq_of_lt ha, Nat.mod_eq_of_lt (Nat.lt_of_succ_lt ha), hbetween,
    Primitives.concatAll, bind_pure]

theorem leads_concat {p : Proto α} {is : List (Instruction α)} {a lr rr floor : Nat}
    (hfloor : floor ≤ a) (ha : a + 1 < 256) (hlr : lr < a) (hrr : rr ≠ a) (hrr' : rr < 256)
    (hcode : u.fs.code = t.fs.code ++ is) (hagree : Agree p u.fs t.fs.pc u.fs.pc)
    (his : is = [encodeAbc .move a lr 0, encodeAbc .concat a a (a + 1)] ∧ rr = a + 1 ∨
      is = [encodeAbc .move a lr 0, encodeAbc .move (a + 1) rr 0,
        encodeAbc .concat a a (a + 1)]) :
    Leads P p ρ floor t u (fun c => lift (P.concat (c.regs lr) (c.regs rr)))
      fun c => pure (c.regs a) := by
  intro n c hpc _ Y k post hend
  have hat {j : Nat} := hagree.appended hcode (Nat.le_refl _) hpc (j := j)
  have hpc' : u.fs.pc = c.pc + is.length := by
    rw [FuncState.pc, hcode, List.length_append, hpc]
    rfl
  have hmove : p.code[c.pc]? = some (encodeAbc .move a lr 0) := by
    obtain ⟨rfl, -⟩ | rfl := his
    · exact hat (j := 0) (by simp)
    · exact hat (j := 0) (by simp)
  refine realises_write hmove (exec_move (by omega) (by omega)) fun c₁ hc₁ hworld => ?_
  show Realises _ n c₁ ((lift (P.concat (c.regs lr) (c.regs rr)) >>= k) c.world) post
  rw [← hc₁.value, ← hc₁.others rr hrr, ← hworld]
  obtain ⟨rfl, rfl⟩ | rfl := his
  · have hconcat : p.code[c₁.pc]? = some (encodeAbc .concat a a (a + 1)) := by
      rw [hc₁.pc]
      exact hat (j := 1) (by simp)
    refine realises_compute hconcat (exec_concat ha) fun v c₂ hc₂ => ?_
    have hgoal := hend c₂ (by rw [hpc', hc₂.pc, hc₁.pc]; rfl)
      ((hc₁.same hfloor).trans (hc₂.same hfloor))
    rwa [pure_bind, hc₂.value] at hgoal
  · have hmove' : p.code[c₁.pc]? = some (encodeAbc .move (a + 1) rr 0) := by
      rw [hc₁.pc]
      exact hat (j := 1) (by simp)
    refine realises_write hmove' (exec_move ha hrr') fun c₂ hc₂ hworld₂ => ?_
    rw [← hc₂.value, ← hc₂.others a (Nat.ne_of_lt (Nat.lt_succ_self a)), ← hworld₂]
    have hconcat : p.code[c₂.pc]? = some (encodeAbc .concat a a (a + 1)) := by
      rw [hc₂.pc, hc₁.pc]
      exact hat (j := 2) (by simp)
    refine realises_compute hconcat (exec_concat ha) fun v c₃ hc₃ => ?_
    have hgoal := hend c₃ (by rw [hpc', hc₃.pc, hc₂.pc, hc₁.pc]; rfl)
      (((hc₁.same hfloor).trans (hc₂.same (Nat.le_succ_of_le hfloor))).trans (hc₃.same hfloor))
    rwa [pure_bind, hc₃.value] at hgoal

theorem computes_concat {lhs rhs : Lower α Expdesc} {evl evr : Eval V σ ε V}
    (hl : Computes P ρ names false lhs evl) (hr : Computes P ρ names loose rhs evr) :
    Computes P ρ names false (lowerConcat lhs rhs)
      (evl >>= fun v => evr >>= fun w => lift (P.concat v w)) := by
  intro s hready hnames
  simp only [lowerConcat, ensures_bind]
  refine (operands_ok hl hr hready hnames).mono ?_
  rintro ⟨lr, rr⟩ u h
  have hev : (evl >>= fun v => evr >>= fun w => lift (P.concat v w)) =
      (evl >>= fun v => evr >>= fun w => pure (v, w)) >>= fun x => lift (P.concat x.1 x.2) := by
    simp only [bind_assoc, pure_bind]
  have hlt : (u.fs.reserved 1).freereg < u.fs.freereg + 2 := Nat.lt_succ_self _
  have hone : u.fs.freereg + 2 - (u.fs.reserved 1).freereg = 1 := Nat.add_sub_cancel_left _ 1
  have hlr : lr < u.fs.freereg := h.kept
  rw [hev]
  simp only [ensures_bind, ensures_newReg, ensures_getFs, ensures_ite, hlt, hone, ensures_reserve,
    ensures_moveTo, ensures_discard, ensures_codeAbc, ensures_setFreereg, ensures_pure]
  refine fun _ => ⟨fun _ _ => ⟨fun heq => absurd heq (Nat.ne_of_lt hlr), fun _ => ?_⟩,
    fun hfalse => absurd trivial hfalse⟩
  have hstack : u.fs.freereg + 1 <
      max (max u.fs.maxstack (u.fs.freereg + 1)) (u.fs.freereg + 2) :=
    Nat.lt_of_lt_of_le (Nat.lt_succ_self _) (Nat.le_max_right _ _)
  refine ⟨fun heq => ?_, fun _ => ?_⟩
  · have hgrown := ((((Extends.refl u).reserved 1).reserved 1).emit
      (encodeAbc .move u.fs.freereg lr 0)).emit
        (encodeAbc .concat u.fs.freereg u.fs.freereg (u.fs.freereg + 1))
    refine h.described hready (hgrown.setFreereg _) h.free (Nat.lt_of_succ_lt hstack) rfl
      fun p hsmall hcovers hagree => ?_
    refine leads_concat h.free (hcovers.lt hsmall hstack) hlr h.spared.next
      ((hcovers.before (hgrown.setFreereg _)).lt hsmall h.right.2) ?_ hagree (.inl ⟨rfl, heq⟩)
    simp [FuncState.emit, FuncState.reserved, FuncState.setFreereg]
  · have hgrown := (((((Extends.refl u).reserved 1).reserved 1).emit
      (encodeAbc .move u.fs.freereg lr 0)).emit (encodeAbc .move (u.fs.freereg + 1) rr 0)).emit
        (encodeAbc .concat u.fs.freereg u.fs.freereg (u.fs.freereg + 1))
    refine h.described hready (hgrown.setFreereg _) h.free (Nat.lt_of_succ_lt hstack) rfl
      fun p hsmall hcovers hagree => ?_
    refine leads_concat h.free (hcovers.lt hsmall hstack) hlr h.spared.next
      ((hcovers.before (hgrown.setFreereg _)).lt hsmall h.right.2) ?_ hagree (.inr rfl)
    simp [FuncState.emit, FuncState.reserved, FuncState.setFreereg]

/-! ## Comparison -/

theorem realises_jmp {p : Proto α} {varargs : List V} {c : Config V σ} {n a dest : Nat}
    {m : Comp (Outcome V σ ε) Y} {post : Y → Config V σ → Prop}
    (hi : p.code[c.pc]? = some (encodeAsbx .jmp a ((dest : Int) - (c.pc + 1))))
    (hfits : Fits ((dest : Int) - (c.pc + 1)))
    (h : Realises (advance P p varargs) n { c with pc := dest } m post) :
    Realises (advance P p varargs) n c m post := by
  refine realises_exec hi ?_ h
  have hsbx := (sbx_encodeAsbx_iff (α := α) .jmp a _).mpr hfits
  have hdest : (((c.pc + 1 : Nat) : Int) + ((dest : Int) - (c.pc + 1))).toNat = dest := by omega
  simp only [exec, op_encodeAsbx, hsbx, Config.jump, hdest]

theorem exec_compare {p : Proto α} {varargs : List V} {c : Config V σ} {cmp : OpCode}
    {a b d : Nat} (hcmp : cmp = .eq ∨ cmp = .lt ∨ cmp = .le) (ha : a < 256) (hb : b < 256)
    (hd : d < 256) :
    exec P p varargs (encodeAbc cmp a b d) c =
      operate (P.compare cmp (c.regs b) (c.regs d))
        (fun holds c => c.skip (holds ≠ (a != 0))) c := by
  obtain rfl | rfl | rfl := hcmp <;>
    simp only [exec, encodeAbc, Instruction.op, Instruction.a, Instruction.b, Instruction.c,
      Nat.mod_eq_of_lt ha, Nat.mod_eq_of_lt hb, Nat.mod_eq_of_lt hd]

/-- A test that skips the next instruction when it does not come out as `a` says. -/
theorem realises_compare {p : Proto α} {varargs : List V} {c : Config V σ} {n : Nat}
    {cmp : OpCode} {a b d : Nat} {k : Bool → Eval V σ ε Y}
    {post : Y × σ → Config V σ → Prop} (hcmp : cmp = .eq ∨ cmp = .lt ∨ cmp = .le)
    (ha : a < 256) (hb : b < 256) (hd : d < 256)
    (hi : p.code[c.pc]? = some (encodeAbc cmp a b d))
    (htrue : ∀ world, Realises (advance P p varargs) n { c with pc := c.pc + 1, world }
      (k (a != 0) world) post)
    (hfalse : ∀ world, Realises (advance P p varargs) n { c with pc := c.pc + 2, world }
      (k (!(a != 0)) world) post) :
    Realises (advance P p varargs) n c
      ((lift (P.compare cmp (c.regs b) (c.regs d)) >>= k) c.world) post := by
  refine realises_operate hi (exec_compare hcmp ha hb hd) fun holds world => ?_
  by_cases hholds : holds = (a != 0)
  · rw [hholds, Config.skip, if_neg (fun h => h rfl)]
    exact htrue world
  · have hnot : holds = !(a != 0) := Bool.eq_not.mpr hholds
    rw [hnot, Config.skip, if_pos (hnot ▸ hholds)]
    exact hfalse world

theorem leads_compare {p : Proto α} {cmp : OpCode} {a b d dest floor : Nat}
    (hcmp : cmp = .eq ∨ cmp = .lt ∨ cmp = .le) (ha : a < 256) (hb : b < 256) (hd : d < 256)
    (hdest : dest < 256) (hfloor : floor ≤ dest)
    (hcode : u.fs.code = t.fs.code ++ [encodeAbc cmp a b d, encodeAsbx .jmp 0 1,
      encodeAbc .loadBool dest 0 1, encodeAbc .loadBool dest 1 0])
    (hagree : Agree p u.fs t.fs.pc u.fs.pc) :
    Leads P p ρ floor t u
      (fun c => lift (P.compare cmp (c.regs b) (c.regs d)) >>= fun r =>
        pure (P.const (.bool (r == (a != 0)))))
      fun c => pure (c.regs dest) := by
  intro n c hpc _ Y k post hend
  have hat {j : Nat} := hagree.appended hcode (Nat.le_refl _) hpc (j := j)
  have hpc' : u.fs.pc = c.pc + 4 := by
    rw [FuncState.pc, hcode, List.length_append, hpc]
    rfl
  -- Both branches end after the second `LOADBOOL`.
  have hbranch (value skip : Bool) {c₁ : Config V σ} (hsame : Same floor c c₁)
      (hi : p.code[c₁.pc]? = some (encodeAbc .loadBool dest value.toNat skip.toNat))
      (hpc₁ : c₁.pc + 1 + skip.toNat = c.pc + 4) :
      Realises (advance P p ρ.varargs) n c₁ (k (P.const (.bool value)) c₁.world) post := by
    refine realises_loadBool value skip hdest hi fun c₂ hc₂ hworld => ?_
    have hgoal := hend c₂ (by rw [hc₂.pc, hpc₁, hpc']) (hsame.trans (hc₂.same hfloor))
    rwa [pure_bind, hc₂.value, hworld] at hgoal
  show Realises _ n c (((lift (P.compare cmp (c.regs b) (c.regs d)) >>= fun r =>
    pure (P.const (.bool (r == (a != 0))))) >>= k) c.world) post
  rw [bind_assoc]
  refine realises_compare hcmp ha hb hd (hat (j := 0) (by simp)) (fun world => ?_)
    fun world => ?_
  · rw [pure_bind, beq_self_eq_true]
    have hone : ((c.pc + 3 : Nat) : Int) - ((c.pc + 1 : Nat) + 1) = 1 := by omega
    have hjmp : p.code[c.pc + 1]? = some
        (encodeAsbx .jmp 0 (((c.pc + 3 : Nat) : Int) - ((c.pc + 1 : Nat) + 1))) := by
      rw [hone]
      exact hat (j := 1) (by simp)
    have hfits : Fits (((c.pc + 3 : Nat) : Int) - ((c.pc + 1 : Nat) + 1)) :=
      ⟨by omega, by omega⟩
    refine realises_jmp hjmp hfits ?_
    exact hbranch true false ((Same.refl floor c).moved (c.pc + 3) world) (hat (j := 3) (by simp))
      rfl
  · have hnot : ((!(a != 0)) == (a != 0)) = false := by cases a != 0 <;> rfl
    rw [pure_bind, hnot]
    exact hbranch false true ((Same.refl floor c).moved (c.pc + 2) world) (hat (j := 2) (by simp))
      rfl

theorem relation_ok {op : BinOp} {cmp : OpCode} {a : Nat} {swap : Bool}
    (h : relation op = some (cmp, a, swap)) :
    (cmp = .eq ∨ cmp = .lt ∨ cmp = .le) ∧ a ≤ 1 := by
  cases op <;> cases h <;> simp

theorem computes_compare {op : BinOp} {cmp : OpCode} {a : Nat} {swap : Bool}
    (hrel : relation op = some (cmp, a, swap)) {lhs rhs : Lower α Expdesc}
    {evl evr : Eval V σ ε V} (hl : Computes P ρ names false lhs evl)
    (hr : Computes P ρ names loose rhs evr) :
    Computes P ρ names false (lowerCompare cmp a swap lhs rhs)
      (evl >>= fun v => evr >>= fun w => evalCompare P cmp (a != 0) swap v w) := by
  intro s hready hnames
  obtain ⟨hcmp, ha⟩ := relation_ok hrel
  simp only [lowerCompare, ensures_bind]
  refine (operands_ok hl hr hready hnames).mono ?_
  rintro ⟨rb, rc⟩ u h
  have hev : (evl >>= fun v => evr >>= fun w => evalCompare P cmp (a != 0) swap v w) =
      (evl >>= fun v => evr >>= fun w => pure (v, w)) >>= fun x =>
        evalCompare P cmp (a != 0) swap x.1 x.2 := by
    simp only [bind_assoc, pure_bind]
  have hstack : u.fs.freereg < max u.fs.maxstack (u.fs.freereg + 1) :=
    Nat.lt_of_lt_of_le (Nat.lt_succ_self _) (Nat.le_max_right _ _)
  rw [hev]
  simp only [ensures_newReg, codeCompare, ensures_ite, ensures_discard, ensures_codeAbc,
    ensures_codeAsbx, ensures_pure]
  have hcase (b d : Nat) (hb : b < u.fs.maxstack) (hd : d < u.fs.maxstack)
      (heval : ∀ c : Config V σ, evalCompare P cmp (a != 0) swap (c.regs rb) (c.regs rc) =
        lift (P.compare cmp (c.regs b) (c.regs d)) >>= fun r =>
          pure (P.const (.bool (r == (a != 0))))) :
      Described P ρ false s ((evl >>= fun v => evr >>= fun w => pure (v, w)) >>= fun x =>
        evalCompare P cmp (a != 0) swap x.1 x.2) (.nonrelocable u.fs.freereg)
        { u with
          fs := ((((u.fs.reserved 1).emit (encodeAbc cmp a b d)).emit (encodeAsbx .jmp 0 1)).emit
            (encodeAbc .loadBool u.fs.freereg 0 1)).emit
              (encodeAbc .loadBool u.fs.freereg 1 0) } := by
    have hgrown := ((((Extends.refl u).reserved 1).emit (encodeAbc cmp a b d)).emit
      (encodeAsbx .jmp 0 1)).emit (encodeAbc .loadBool u.fs.freereg 0 1)
        |>.emit (encodeAbc .loadBool u.fs.freereg 1 0)
    refine h.described hready hgrown h.free hstack rfl fun p hsmall hcovers hagree => ?_
    simp only [heval]
    have hlt {r : Nat} := (hcovers.before hgrown).lt hsmall (r := r)
    have ha' : a < 256 := by omega
    exact leads_compare hcmp ha' (hlt hb) (hlt hd) (hcovers.lt hsmall hstack) h.free
      (by simp [FuncState.emit, FuncState.reserved]) hagree
  refine fun _ => ⟨fun hswap => ?_, fun hswap => ?_⟩
  · exact hcase rc rb h.right.2 h.left.2 fun c => by
      rw [evalCompare, evalRelation, if_pos hswap, bind_assoc]
      rfl
  · exact hcase rb rc h.left.2 h.right.2 fun c => by
      rw [evalCompare, evalRelation, if_neg hswap, bind_assoc]
      rfl

/-! ## The logical operators -/

theorem realises_test {p : Proto α} {varargs : List V} {c : Config V σ} {n a d : Nat}
    {m : Comp (Outcome V σ ε) Y} {post : Y → Config V σ → Prop} (ha : a < 256) (hd : d < 256)
    (hi : p.code[c.pc]? = some (encodeAbc .test a 0 d))
    (hskip : P.isTruthy (c.regs a) ≠ (d != 0) →
      Realises (advance P p varargs) n { c with pc := c.pc + 2 } m post)
    (hnext : P.isTruthy (c.regs a) = (d != 0) →
      Realises (advance P p varargs) n { c with pc := c.pc + 1 } m post) :
    Realises (advance P p varargs) n c m post := by
  have hexec : exec P p varargs (encodeAbc .test a 0 d) { c with pc := c.pc + 1 } =
      .ok (Config.skip { c with pc := c.pc + 1 } (P.isTruthy (c.regs a) ≠ (d != 0))) := by
    simp only [exec, encodeAbc, Instruction.op, Instruction.a, Instruction.c,
      Nat.mod_eq_of_lt ha, Nat.mod_eq_of_lt hd]
  refine realises_exec hi hexec ?_
  by_cases htest : P.isTruthy (c.regs a) = (d != 0)
  · rw [Config.skip, if_neg (not_not_intro htest)]
    exact hnext htest
  · rw [Config.skip, if_pos htest]
    exact hskip htest

/-- The left value in its register, the test and the jump over the right operand. -/
def logicHead (dest lr : Nat) (isAnd : Bool) (fs : FuncState α) : FuncState α :=
  ((((fs.reserved 1).emit (encodeAbc .move dest lr 0)).emit
    (encodeAbc .test dest 0 (if isAnd then 0 else 1))).emit (encodeAsbx .jmp 0 0)).setFreereg
      (dest + 1)

theorem leads_logic {p : Proto α} {v : LowerState α} {isAnd : Bool} {lr dest : Nat}
    {evl evr : Eval V σ ε V} (hready : Ready s) (hst : Extends s t) (htu : Extends t u)
    (hpcu : u.fs.pc = t.fs.pc + 3) (hdest : s.fs.freereg ≤ dest) (hdest' : dest < 256)
    (hlr : lr < 256) (hend : v.fs.pc ≤ p.code.length) (hsmall : Small p) (hpcv : u.fs.pc ≤ v.fs.pc)
    (hmove : p.code[t.fs.pc]? = some (encodeAbc .move dest lr 0))
    (htest : p.code[t.fs.pc + 1]? = some (encodeAbc .test dest 0 (if isAnd then 0 else 1)))
    (hjmp : p.code[t.fs.pc + 2]? = some
      (encodeAsbx .jmp 0 ((v.fs.pc : Int) - ((t.fs.pc + 2 : Nat) + 1))))
    (hl : Leads P p ρ s.fs.freereg s t (fun _ => evl) fun c => pure (c.regs lr))
    (hr : Leads P p ρ s.fs.freereg u v (fun _ => evr) fun c => pure (c.regs dest)) :
    Leads P p ρ s.fs.freereg s v
      (fun _ => evl >>= fun v => if P.isTruthy v = isAnd then evr else pure v)
      fun c => pure (c.regs dest) := by
  intro n c hpc hholds Y k post hgoal
  rw [bind_assoc]
  refine hl n c hpc hholds Y _ post fun c₁ hpc₁ hsame => ?_
  rw [pure_bind]
  rw [← hpc₁] at hmove htest hjmp
  refine realises_write hmove (exec_move hdest' hlr) fun c₂ hc₂ hworld => ?_
  have hsame₂ : Same s.fs.freereg c c₂ := hsame.trans (hc₂.same hdest)
  rw [← hc₂.value, ← hworld]
  rw [← hc₂.pc] at htest
  have htests : ((if isAnd then 0 else 1) != 0) = !isAnd := by cases isAnd <;> rfl
  refine realises_test hdest' (by split <;> decide) htest (fun hskip => ?_) fun hnext => ?_
  · rw [htests] at hskip
    have htruthy : P.isTruthy (c₂.regs dest) = isAnd := by
      rwa [ne_eq, Bool.eq_not, not_not] at hskip
    rw [if_pos htruthy]
    refine hr n { c₂ with pc := c₂.pc + 2 } (by rw [hpcu, ← hpc₁, hc₂.pc])
      (hholds.extends hready (hst.trans htu) hready.free (hsame₂.moved _ c₂.world)) Y k post
      fun c₃ hpc₃ hsame₃ => ?_
    exact hgoal c₃ hpc₃ ((hsame₂.moved (c₂.pc + 2) c₂.world).trans hsame₃)
  · rw [htests] at hnext
    have htruthy : P.isTruthy (c₂.regs dest) ≠ isAnd := Bool.eq_not.mp hnext
    rw [if_neg htruthy, pure_bind]
    have hpc₃ : c₁.pc + 2 = c₂.pc + 1 := by rw [hc₂.pc]
    rw [hpc₃] at hjmp
    have hfits : Fits ((v.fs.pc : Int) - ((c₂.pc + 1 : Nat) + 1)) := by
      have hpc₂ : c₂.pc + 1 + 1 ≤ p.code.length := by
        rw [hc₂.pc, hpc₁]
        omega
      exact hsmall.fits hpc₂ hend
    refine realises_jmp (c := { c₂ with pc := c₂.pc + 1 }) hjmp hfits ?_
    have := hgoal { c₂ with pc := v.fs.pc } rfl (hsame₂.moved _ c₂.world)
    rwa [pure_bind] at this

theorem computes_logic (isAnd : Bool) {loose' : Bool} {lhs rhs : Lower α Expdesc}
    {evl evr : Eval V σ ε V} (hl : Computes P ρ names loose lhs evl)
    (hr : Computes P ρ names loose' rhs evr) :
    Computes P ρ names false (lowerLogic isAnd lhs rhs)
      (evl >>= fun v => if P.isTruthy v = isAnd then evr else pure v) := by
  intro s hready hnames
  simp only [lowerLogic, ensures_bind]
  refine hl.operand hready hnames fun lr t hlr => ?_
  simp only [ensures_newReg, ensures_discard, ensures_codeAbc, ensures_codeAsbx,
    ensures_setFreereg]
  intro _
  have hgrown : Extends t { t with fs := logicHead t.fs.freereg lr isAnd t.fs } :=
    (((((Extends.refl t).reserved 1).emit _).emit _).emit _).setFreereg _
  have hready' : Ready { t with fs := logicHead t.fs.freereg lr isAnd t.fs } :=
    (hready.extends hlr.grown hlr.free).extends hgrown (Nat.le_succ _)
  refine hr.operand (s := { t with fs := logicHead t.fs.freereg lr isAnd t.fs }) hready'
    (by rw [hgrown.locals, hlr.grown.locals, hnames]) fun rr u hrr => ?_
  have hdest : t.fs.freereg < u.fs.maxstack :=
    Nat.lt_of_lt_of_le (Nat.lt_of_lt_of_le (Nat.lt_succ_self _) (Nat.le_max_right _ _))
      hrr.grown.maxstack
  have hactive : t.fs.nactvar ≤ t.fs.freereg := (hready.extends hlr.grown hlr.free).free
  refine hrr.moveTo hready' hactive (Nat.le_succ _) (Nat.le_refl _) fun v hv hfree hleads => ?_
  simp only [ensures_getFs, ensures_fixSbx, ensures_pure]
  have hsv : Extends t v := (hgrown.trans hrr.grown).trans hv
  have hhead : t.fs.code ++ [encodeAbc .move t.fs.freereg lr 0,
      encodeAbc .test t.fs.freereg 0 (if isAnd then 0 else 1), encodeAsbx .jmp 0 0] <+:
      v.fs.code := by
    have hcode := (hrr.grown.trans hv).code
    simpa [logicHead, FuncState.emit, FuncState.reserved, FuncState.setFreereg] using hcode
  have hpcu : (logicHead t.fs.freereg lr isAnd t.fs).pc = t.fs.pc + 3 := by
    simp [logicHead, FuncState.pc, FuncState.emit, FuncState.reserved, FuncState.setFreereg]
  have hpcv : t.fs.pc + 3 ≤ v.fs.pc := hpcu ▸ (hrr.grown.trans hv).pc
  have hpcs : s.fs.pc ≤ t.fs.pc := hlr.grown.pc
  have hj : (((t.fs.reserved 1).emit (encodeAbc .move t.fs.freereg lr 0)).emit
      (encodeAbc .test t.fs.freereg 0 (if isAnd then 0 else 1))).pc = t.fs.pc + 2 := by
    simp [FuncState.pc, FuncState.emit, FuncState.reserved]
  rw [hj]
  exact {
    grown := (((hlr.grown.trans hsv).fixSbx (by omega) _).setFreereg _)
    free := Nat.le_succ_of_le hlr.free
    inRange := ⟨.inr hlr.free, Nat.lt_of_lt_of_le hdest hv.maxstack⟩
    kept := .of_lt (Nat.lt_succ_self _)
    leads := fun p hsmall hcovers hagree => by
      have hagree' : Agree p (v.fs.fixSbx (t.fs.pc + 2) v.fs.pc) s.fs.pc v.fs.pc := by
        have hpc := fixSbx_pc v.fs (t.fs.pc + 2) v.fs.pc
        exact Agree.mono hagree (Nat.le_refl _) (Nat.le_of_eq hpc.symm)
      have hcoversv : Covers p v.fs := ⟨hcovers.constants, hcovers.maxstack⟩
      have hnth {j : Nat} (hjlt : j < 2) := (hagree' (t.fs.pc + j) (by omega) (by omega)).trans
        ((fixSbx_of_ne (by omega)).trans (getElem?_of_segment hhead (j := j) (by simp; omega)))
      have hjmp : p.code[t.fs.pc + 2]? = some
          (encodeAsbx .jmp 0 ((v.fs.pc : Int) - ((t.fs.pc + 2 : Nat) + 1))) := by
        have hcode : v.fs.code[t.fs.pc + 2]? = some (encodeAsbx .jmp 0 0) :=
          getElem?_of_segment hhead (j := 2) (by simp)
        exact hagree'.fixed (by omega) (by omega) (by decide) hcode
      have hagreel : Agree p v.fs s.fs.pc t.fs.pc :=
        (hagree'.mono (Nat.le_refl _) (by omega)).unfixed (.inl (by omega))
      have hl' := hlr.leads p hsmall (hcoversv.before hsv) (hagreel.before hsv (Nat.le_refl _))
      have hagreer : Agree p v.fs (logicHead t.fs.freereg lr isAnd t.fs).pc v.fs.pc := by
        rw [hpcu]
        exact (hagree'.mono (by omega) (Nat.le_refl _)).unfixed (.inr (by omega))
      have hr' := hleads p hsmall hcoversv
        (hcoversv.lt hsmall (Nat.lt_of_lt_of_le hdest hv.maxstack)) hagreer
      have hend : v.fs.pc ≤ p.code.length := by
        have hle := hagree.le_length (by
          show s.fs.pc < (v.fs.fixSbx (t.fs.pc + 2) v.fs.pc).pc
          rw [fixSbx_pc]
          omega)
        exact fixSbx_pc v.fs (t.fs.pc + 2) v.fs.pc ▸ hle
      refine Leads.to (v := { v with fs := _ }) ?_ (fixSbx_pc v.fs (t.fs.pc + 2) v.fs.pc)
      exact leads_logic hready hlr.grown hgrown hpcu hlr.free
        (hcoversv.lt hsmall (Nat.lt_of_lt_of_le hdest hv.maxstack))
        ((hcoversv.before hsv).lt hsmall hlr.register.2)
        hend hsmall
        (hrr.grown.trans hv).pc (hnth (j := 0) (by omega)) (hnth (j := 1) (by omega)) hjmp hl'
        (hr'.mono hlr.free) }

end Operand

end Luatier.Lowering
