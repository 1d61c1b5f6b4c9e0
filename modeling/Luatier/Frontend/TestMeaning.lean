import Luatier.Frontend.ExprMeaning

/-!
# The code of a test

A test falls through or jumps, and its jump is patched when the target is known.
-/

namespace Luatier.Lowering

open Realising

variable {α V σ ε X Y Z : Type}

/-! ## Code that is patched -/

section Code

variable {fs : FuncState α} {i j dest : Nat}

theorem emit_of_lt {x : Instruction α} (h : i < fs.pc) : (fs.emit x).code[i]? = fs.code[i]? :=
  List.getElem?_append_left h

theorem emit_last {x : Instruction α} (h : i = fs.pc) : (fs.emit x).code[i]? = some x := by
  rw [h]
  exact List.getElem?_concat_length

theorem fixSbx_self {op : OpCode} {a : Nat} {k : Int} (ha : a < 256)
    (h : fs.code[j]? = some (encodeAsbx op a k)) :
    (fs.fixSbx j dest).code[j]? = some (encodeAsbx op a ((dest : Int) - (j + 1))) := by
  rw [FuncState.fixSbx, List.getElem?_modify, h]
  simp only [if_true, Option.map_eq_map, Option.map_some, op_encodeAsbx, a_encodeAsbx,
    Nat.mod_eq_of_lt ha]

@[simp] theorem pc_emit (fs : FuncState α) (x : Instruction α) : (fs.emit x).pc = fs.pc + 1 :=
  List.length_append

@[simp] theorem pc_setFreereg (fs : FuncState α) (n : Nat) : (fs.setFreereg n).pc = fs.pc := rfl

@[simp] theorem pc_reserved (fs : FuncState α) (n : Nat) : (fs.reserved n).pc = fs.pc := rfl

@[simp] theorem pc_fixSbx (fs : FuncState α) (j dest : Nat) : (fs.fixSbx j dest).pc = fs.pc :=
  fixSbx_pc fs j dest

end Code

section Tests

variable {P : Primitives V σ ε} {p : Proto α} {ρ : Env V} {names : List Name}
  {loose : Bool} {s t u : LowerState α} {floor : Nat}

/-- The code falls through when the test comes out as `sense`, and else goes to `dest`. -/
def Tests (P : Primitives V σ ε) (p : Proto α) (ρ : Env V) (floor : Nat) (s t : LowerState α)
    (dest : Nat) (sense : Bool) (ev : Eval V σ ε Bool) : Prop :=
  ∀ n c, c.pc = s.fs.pc → Holds s.fs ρ c →
    ∀ (Y : Type) (k : Bool → Eval V σ ε Y) (post : Y × σ → Config V σ → Prop),
      (∀ b c', c'.pc = (if b = sense then t.fs.pc else dest) → Same floor c c' →
        Realises (advance P p ρ.varargs) n c' (k b c'.world) post) →
      Realises (advance P p ρ.varargs) n c ((ev >>= k) c.world) post

/-- The code of a test, with a jump at its end that is still to be patched. -/
structure Jumping (P : Primitives V σ ε) (ρ : Env V) (sense : Bool) (s : LowerState α)
    (ev : Eval V σ ε Bool) (j : Nat) (t : LowerState α) : Prop where
  grown : Extends s t
  free : s.fs.freereg ≤ t.fs.freereg
  start : s.fs.pc ≤ j
  last : t.fs.pc = j + 1
  jump : t.fs.code[j]? = some (encodeAsbx .jmp 0 0)
  tests : ∀ p dest, Small p → Covers p t.fs → Agree p t.fs s.fs.pc j → dest ≤ p.code.length →
    p.code[j]? = some (encodeAsbx .jmp 0 ((dest : Int) - (j + 1))) →
    Tests P p ρ s.fs.freereg s t dest sense ev

theorem realises_jump {varargs : List V} {c : Config V σ} {n a dest : Nat}
    {m : Comp (Outcome V σ ε) Y} {post : Y → Config V σ → Prop} (hsmall : Small p)
    (hi : p.code[c.pc]? = some (encodeAsbx .jmp a ((dest : Int) - (c.pc + 1))))
    (hdest : dest ≤ p.code.length)
    (h : Realises (advance P p varargs) n { c with pc := dest } m post) :
    Realises (advance P p varargs) n c m post := by
  have hpc : c.pc + 1 ≤ p.code.length := (List.getElem?_eq_some_iff.mp hi).1
  exact realises_jmp hi (hsmall.fits hpc hdest) h

theorem relFailJmp_ok {op : BinOp} {cmp : OpCode} {a : Nat} {swap : Bool}
    (hrel : relation op = some (cmp, a, swap)) {lhs rhs : Lower α Expdesc}
    {evl evr : Eval V σ ε V} (hl : Computes P ρ names false lhs evl)
    (hr : Computes P ρ names loose rhs evr) (hready : Ready s)
    (hnames : s.fs.locals.map Local.name = names) :
    Ensures (relFailJmp s.fs.freereg op lhs rhs) s fun j t => t.fs.freereg = s.fs.freereg ∧
      Jumping P ρ true s
        (evl >>= fun v => evr >>= fun w => evalRelation P cmp (a != 0) swap v w) j t := by
  obtain ⟨hcmp, ha⟩ := relation_ok hrel
  have hself : ({ s with fs := s.fs.setFreereg s.fs.freereg } : LowerState α) = s := rfl
  simp only [relFailJmp, ensures_bind, ensures_getFs, ensures_setFreereg, max_self, hself, hrel,
    Option.getD_some]
  refine (operands_ok hl hr hready hnames).mono ?_
  rintro ⟨rb, rc⟩ u h
  have hev : (evl >>= fun v => evr >>= fun w => evalRelation P cmp (a != 0) swap v w) =
      (evl >>= fun v => evr >>= fun w => pure (v, w)) >>= fun x =>
        evalRelation P cmp (a != 0) swap x.1 x.2 := by
    simp only [bind_assoc, pure_bind]
  rw [hev]
  have hcase (b d : Nat) (hb : b < u.fs.maxstack) (hd : d < u.fs.maxstack)
      (heval : ∀ c : Config V σ, evalRelation P cmp (a != 0) swap (c.regs rb) (c.regs rc) =
        lift (P.compare cmp (c.regs b) (c.regs d)) >>= fun r => pure (r == (a != 0))) :
      Jumping P ρ true s ((evl >>= fun v => evr >>= fun w => pure (v, w)) >>= fun x =>
        evalRelation P cmp (a != 0) swap x.1 x.2) (u.fs.pc + 1)
        { u with fs := ((u.fs.emit (encodeAbc cmp (1 - a) b d)).emit
          (encodeAsbx .jmp 0 0)).setFreereg s.fs.freereg } := by
    have hgrown := (((Extends.refl u).emit (encodeAbc cmp (1 - a) b d)).emit
      (encodeAsbx .jmp 0 0)).setFreereg s.fs.freereg
    refine {
      grown := h.grown.trans hgrown
      free := Nat.le_refl _
      start := Nat.le_succ_of_le h.grown.pc
      last := by simp
      jump := by
        show (_ : List _)[_]? = _
        rw [← pc_emit u.fs (encodeAbc cmp (1 - a) b d)]
        exact List.getElem?_concat_length
      tests := fun p dest hsmall hcovers hagree hdest hjmp n c hpc hholds Y k post hend => ?_ }
    have hcovers' : Covers p u.fs := hcovers.before hgrown
    have hagree' : Agree p u.fs s.fs.pc u.fs.pc :=
      (hagree.mono (Nat.le_refl _) (Nat.le_succ _)).before hgrown (Nat.le_refl _)
    have hcompare : p.code[u.fs.pc]? = some (encodeAbc cmp (1 - a) b d) := by
      refine (hagree u.fs.pc h.grown.pc (Nat.lt_succ_self _)).trans ?_
      exact (emit_of_lt (by simp)).trans List.getElem?_concat_length
    rw [bind_assoc]
    refine h.leads p hsmall hcovers' hagree' n c hpc hholds Y _ post fun c₁ hpc₁ hsame => ?_
    rw [pure_bind, heval, bind_assoc]
    have hsense : ((1 - a) != 0) = !(a != 0) := by
      have : a = 0 ∨ a = 1 := by omega
      obtain rfl | rfl := this <;> rfl
    rw [← hpc₁] at hcompare hjmp
    refine realises_compare hcmp (by omega) (hcovers'.lt hsmall hb) (hcovers'.lt hsmall hd)
      hcompare (fun world => ?_) fun world => ?_
    · have hfails : ((!(a != 0)) == (a != 0)) = false := by cases a != 0 <;> rfl
      rw [pure_bind, hsense, hfails]
      exact realises_jump hsmall (c := { c₁ with pc := c₁.pc + 1, world }) hjmp hdest
        (hend false _ rfl (hsame.moved dest world))
    · rw [pure_bind, hsense, Bool.not_not, beq_self_eq_true]
      refine hend true { c₁ with pc := c₁.pc + 2, world } ?_ (hsame.moved _ world)
      show c₁.pc + 2 = (((u.fs.emit _).emit _).setFreereg _).pc
      simp [hpc₁]
  simp only [codeCompare, ensures_ite, ensures_discard, ensures_codeAbc, ensures_codeAsbx,
    ensures_pure, pc_emit]
  refine ⟨fun hswap => ⟨rfl, ?_⟩, fun hswap => ⟨rfl, ?_⟩⟩
  · exact hcase rc rb h.right.2 h.left.2 fun c => by rw [evalRelation, if_pos hswap]
  · exact hcase rb rc h.left.2 h.right.2 fun c => by rw [evalRelation, if_neg hswap]

theorem testJump_ok {cond : Lower α Expdesc} {ev : Eval V σ ε V}
    (h : Computes P ρ names loose cond ev) (sense : Bool) (hready : Ready s)
    (hnames : s.fs.locals.map Local.name = names) :
    Ensures (testJump cond (if sense then 0 else 1)) s
      (Jumping P ρ sense s (ev >>= fun v => pure (P.isTruthy v))) := by
  simp only [testJump, ensures_bind]
  refine h.operand hready hnames fun r t hr => ?_
  simp only [ensures_discard, ensures_codeAbc, ensures_codeAsbx, pc_emit]
  have hgrown := ((Extends.refl t).emit (encodeAbc .test r 0 (if sense then 0 else 1))).emit
    (encodeAsbx .jmp 0 0)
  refine {
    grown := hr.grown.trans hgrown
    free := hr.free
    start := Nat.le_succ_of_le hr.grown.pc
    last := by simp
    jump := by
      show (_ : List _)[_]? = _
      rw [← pc_emit t.fs (encodeAbc .test r 0 (if sense then 0 else 1))]
      exact List.getElem?_concat_length
    tests := fun p dest hsmall hcovers hagree hdest hjmp n c hpc hholds Y k post hend => ?_ }
  have hcovers' : Covers p t.fs := hcovers.before hgrown
  have hagree' : Agree p t.fs s.fs.pc t.fs.pc :=
    (hagree.mono (Nat.le_refl _) (Nat.le_succ _)).before hgrown (Nat.le_refl _)
  have htest : p.code[t.fs.pc]? = some (encodeAbc .test r 0 (if sense then 0 else 1)) := by
    refine (hagree t.fs.pc hr.grown.pc (Nat.lt_succ_self _)).trans ?_
    exact (emit_of_lt (by simp)).trans List.getElem?_concat_length
  rw [bind_assoc]
  refine hr.leads p hsmall hcovers' hagree' n c hpc hholds Y _ post fun c₁ hpc₁ hsame => ?_
  rw [pure_bind, pure_bind]
  rw [← hpc₁] at htest hjmp
  have hsense : ((if sense then 0 else 1) != 0) = !sense := by cases sense <;> rfl
  refine realises_test (hcovers'.lt hsmall hr.register.2) (by split <;> decide) htest
    (fun hskip => ?_) fun hnext => ?_
  · rw [hsense, ne_eq, Bool.eq_not, not_not] at hskip
    rw [hskip]
    refine hend sense { c₁ with pc := c₁.pc + 2 } ?_ (hsame.moved _ c₁.world)
    rw [if_pos rfl]
    show c₁.pc + 2 = ((t.fs.emit _).emit _).pc
    simp [hpc₁]
  · rw [hsense] at hnext
    refine realises_jump hsmall (c := { c₁ with pc := c₁.pc + 1 }) hjmp hdest ?_
    refine hend _ { c₁ with pc := dest } ?_ (hsame.moved _ c₁.world)
    rw [hnext, if_neg (by cases sense <;> decide)]

/-! ## Two comparisons and a boolean -/

theorem leads_relAnd {v : LowerState α} {dest : Nat} {ev₁ ev₂ : Eval V σ ε Bool}
    (hready : Ready s) (hst : Extends s t) (hactive : s.fs.nactvar ≤ floor)
    (hfloor : floor ≤ dest) (hdest : dest < 256) (hsmall : Small p)
    (h₁ : Tests P p ρ floor s t (u.fs.pc + 2) true ev₁)
    (h₂ : Tests P p ρ floor t u (u.fs.pc + 2) true ev₂)
    (htrue : p.code[u.fs.pc]? = some (encodeAbc .loadBool dest 1 0))
    (hjmp : p.code[u.fs.pc + 1]? =
      some (encodeAsbx .jmp 0 ((v.fs.pc : Int) - ((u.fs.pc + 1 : Nat) + 1))))
    (hfalse : p.code[u.fs.pc + 2]? = some (encodeAbc .loadBool dest 0 0))
    (hpcv : v.fs.pc = u.fs.pc + 3) :
    Leads P p ρ floor s v
      (fun _ => ev₁ >>= fun b => if b then ev₂ >>= fun b => pure (P.const (.bool b))
        else pure (P.const (.bool false)))
      fun c => pure (c.regs dest) := by
  intro n c hpc hholds Y k post hend
  have hlen : v.fs.pc ≤ p.code.length := by
    have := (List.getElem?_eq_some_iff.mp hfalse).1
    omega
  have hfails {c₁ : Config V σ} (hpc₁ : c₁.pc = u.fs.pc + 2) (hsame : Same floor c c₁) :
      Realises (advance P p ρ.varargs) n c₁ (k (P.const (.bool false)) c₁.world) post := by
    rw [← hpc₁] at hfalse
    refine realises_loadBool false false hdest hfalse fun c₂ hc₂ hworld => ?_
    have hgoal := hend c₂ (by rw [hc₂.pc, hpc₁, hpcv]; rfl) (hsame.trans (hc₂.same hfloor))
    rwa [pure_bind, hc₂.value, hworld] at hgoal
  rw [bind_assoc]
  refine h₁ n c hpc hholds Y _ post fun b c₁ hpc₁ hsame₁ => ?_
  cases b with
  | false =>
      simp only [Bool.false_eq_true, if_false, pure_bind]
      exact hfails hpc₁ hsame₁
  | true =>
      simp only [if_true, bind_assoc, pure_bind]
      refine h₂ n c₁ hpc₁ (hholds.extends hready hst hactive hsame₁) Y _ post
        fun b c₂ hpc₂ hsame₂ => ?_
      have hsame := hsame₁.trans hsame₂
      cases b with
      | false => exact hfails hpc₂ hsame
      | true =>
          have hpc₂' : c₂.pc = u.fs.pc := hpc₂
          rw [← hpc₂'] at htrue hjmp
          refine realises_loadBool true false hdest htrue fun c₃ hc₃ hworld => ?_
          have hpc₃ : c₃.pc = c₂.pc + 1 := hc₃.pc
          rw [← hpc₃] at hjmp
          have hgoal := hend { c₃ with pc := v.fs.pc } rfl
            ((hsame.trans (hc₃.same hfloor)).moved v.fs.pc c₃.world)
          rw [pure_bind] at hgoal
          refine realises_jump hsmall hjmp hlen ?_
          rw [← hworld, ← hc₃.value]
          exact hgoal

def relAndTail (j₁ j₂ : Nat) (fs : FuncState α) : FuncState α :=
  ((((((fs.reserved 1).emit (encodeAbc .loadBool fs.freereg 1 0)).emit
    (encodeAsbx .jmp 0 0)).fixSbx j₁ (fs.pc + 2)).fixSbx j₂ (fs.pc + 2)).emit
      (encodeAbc .loadBool fs.freereg 0 0)).fixSbx (fs.pc + 1) (fs.pc + 3)

section Tail

variable {fs : FuncState α} {i j₁ j₂ : Nat}

@[simp] theorem pc_relAndTail : (relAndTail j₁ j₂ fs).pc = fs.pc + 3 := by simp [relAndTail]

theorem relAndTail_of_lt (hi : i < fs.pc) (h₁ : i ≠ j₁) (h₂ : i ≠ j₂) :
    (relAndTail j₁ j₂ fs).code[i]? = fs.code[i]? := by
  rw [relAndTail, fixSbx_of_ne (by omega), emit_of_lt (by simp; omega), fixSbx_of_ne h₂,
    fixSbx_of_ne h₁, emit_of_lt (by simp; omega), emit_of_lt (by simpa using hi)]
  rfl

theorem relAndTail_first (h : j₁ < fs.pc) (hne : j₁ ≠ j₂)
    (hcode : fs.code[j₁]? = some (encodeAsbx .jmp 0 0)) :
    (relAndTail j₁ j₂ fs).code[j₁]? =
      some (encodeAsbx .jmp 0 (((fs.pc + 2 : Nat) : Int) - (j₁ + 1))) := by
  rw [relAndTail, fixSbx_of_ne (by omega), emit_of_lt (by simp; omega), fixSbx_of_ne hne]
  refine fixSbx_self (by decide) (k := 0) ?_
  rw [emit_of_lt (by simp; omega), emit_of_lt (by simpa using h)]
  exact hcode

theorem relAndTail_second (h : j₂ < fs.pc) (hne : j₂ ≠ j₁)
    (hcode : fs.code[j₂]? = some (encodeAsbx .jmp 0 0)) :
    (relAndTail j₁ j₂ fs).code[j₂]? =
      some (encodeAsbx .jmp 0 (((fs.pc + 2 : Nat) : Int) - (j₂ + 1))) := by
  rw [relAndTail, fixSbx_of_ne (by omega), emit_of_lt (by simp; omega)]
  refine fixSbx_self (by decide) (k := 0) ?_
  rw [fixSbx_of_ne hne, emit_of_lt (by simp; omega), emit_of_lt (by simpa using h)]
  exact hcode

theorem relAndTail_true (h₁ : j₁ < fs.pc) (h₂ : j₂ < fs.pc) :
    (relAndTail j₁ j₂ fs).code[fs.pc]? = some (encodeAbc .loadBool fs.freereg 1 0) := by
  rw [relAndTail, fixSbx_of_ne (by omega),
    emit_of_lt (by simp only [pc_fixSbx, pc_emit, pc_reserved]; omega),
    fixSbx_of_ne (by omega), fixSbx_of_ne (by omega), emit_of_lt (by simp),
    emit_last (pc_reserved fs 1).symm]

theorem relAndTail_end (h₁ : j₁ < fs.pc) (h₂ : j₂ < fs.pc) :
    (relAndTail j₁ j₂ fs).code[fs.pc + 1]? =
      some (encodeAsbx .jmp 0 (((fs.pc + 3 : Nat) : Int) - ((fs.pc + 1 : Nat) + 1))) := by
  refine fixSbx_self (by decide) (k := 0) ?_
  rw [emit_of_lt (by simp), fixSbx_of_ne (by omega), fixSbx_of_ne (by omega),
    emit_last (by simp)]

theorem relAndTail_false :
    (relAndTail j₁ j₂ fs).code[fs.pc + 2]? = some (encodeAbc .loadBool fs.freereg 0 0) := by
  rw [relAndTail, fixSbx_of_ne (by omega), emit_last (by simp)]

end Tail

theorem computes_relAnd {op₁ op₂ : BinOp} {lhs₁ rhs₁ lhs₂ rhs₂ : Lower α Expdesc}
    {ev₁ ev₂ : Eval V σ ε Bool}
    (h₁ : ∀ s, Ready s → s.fs.locals.map Local.name = names →
      Ensures (relFailJmp s.fs.freereg op₁ lhs₁ rhs₁) s fun j t =>
        t.fs.freereg = s.fs.freereg ∧ Jumping P ρ true s ev₁ j t)
    (h₂ : ∀ s, Ready s → s.fs.locals.map Local.name = names →
      Ensures (relFailJmp s.fs.freereg op₂ lhs₂ rhs₂) s fun j t =>
        t.fs.freereg = s.fs.freereg ∧ Jumping P ρ true s ev₂ j t) :
    Computes P ρ names false (lowerRelAnd op₁ lhs₁ rhs₁ op₂ lhs₂ rhs₂)
      (ev₁ >>= fun b => if b then ev₂ >>= fun b => pure (P.const (.bool b))
        else pure (P.const (.bool false))) := by
  intro s hready hnames
  simp only [lowerRelAnd, ensures_bind, ensures_getFs]
  refine (h₁ s hready hnames).mono ?_
  rintro j₁ t ⟨hfree₁, hj₁⟩
  have hready' : Ready t := hready.extends hj₁.grown hj₁.free
  rw [← hfree₁]
  refine (h₂ t hready' (by rw [hj₁.grown.locals, hnames])).mono ?_
  rintro j₂ u ⟨hfree₂, hj₂⟩
  rw [← hfree₂]
  simp only [ensures_setFreereg, ensures_newReg, ensures_discard, ensures_codeAbc,
    ensures_codeAsbx, ensures_fixSbx, ensures_pure, pc_emit, pc_fixSbx, pc_reserved]
  intro _
  have hlast₁ := hj₁.last
  have hlast₂ := hj₂.last
  have hstart₁ := hj₁.start
  have hstart₂ := hj₂.start
  have hjmp₁ : u.fs.code[j₁]? = some (encodeAsbx .jmp 0 0) := by
    rw [getElem?_grown hj₂.grown.code (by show j₁ < t.fs.pc; omega)]
    exact hj₁.jump
  have hstack : u.fs.freereg < max u.fs.maxstack (u.fs.freereg + 1) :=
    Nat.lt_of_lt_of_le (Nat.lt_succ_self _) (Nat.le_max_right _ _)
  have hsu : Extends s u := hj₁.grown.trans hj₂.grown
  have hgrown := ((((((hsu.reserved 1).emit (encodeAbc .loadBool u.fs.freereg 1 0)).emit
    (encodeAsbx .jmp 0 0)).fixSbx hstart₁ (u.fs.pc + 2)).fixSbx (by omega : s.fs.pc ≤ j₂)
      (u.fs.pc + 2)).emit (encodeAbc .loadBool u.fs.freereg 0 0)).fixSbx
        (by omega : s.fs.pc ≤ u.fs.pc + 1) (u.fs.pc + 3)
  have hfloor : s.fs.freereg ≤ u.fs.freereg := by omega
  let tail := { u with fs := (relAndTail j₁ j₂ u.fs).setFreereg (u.fs.freereg + 1) }
  show Described P ρ false s _ _ tail
  exact {
    grown := hgrown.setFreereg (u.fs.freereg + 1)
    free := Nat.le_succ_of_le hfloor
    inRange := ⟨.inr hfloor, hstack⟩
    kept := .of_lt (Nat.lt_succ_self _)
    leads := fun p hsmall hcovers hagree => by
      have hpctail : tail.fs.pc = u.fs.pc + 3 := pc_relAndTail
      have hcoversu : Covers p u.fs :=
        ⟨hcovers.constants, (Nat.le_max_left _ _).trans hcovers.maxstack⟩
      have hat {i : Nat} (hlo : s.fs.pc ≤ i) (hhi : i < u.fs.pc + 3) :
          p.code[i]? = (relAndTail j₁ j₂ u.fs).code[i]? :=
        hagree i hlo (by rwa [hpctail])
      have hlen : u.fs.pc + 3 ≤ p.code.length := by
        rw [← hpctail]
        exact hagree.le_length (by rw [hpctail]; omega)
      have hagree₁ : Agree p t.fs s.fs.pc j₁ := by
        intro i hlo hhi
        rw [hat hlo (by omega), relAndTail_of_lt (by omega) (by omega) (by omega)]
        exact getElem?_grown hj₂.grown.code (by show i < t.fs.pc; omega)
      have hagree₂ : Agree p u.fs t.fs.pc j₂ := by
        intro i hlo hhi
        rw [hat (by omega) (by omega), relAndTail_of_lt (by omega) (by omega) (by omega)]
      have htests₁ := hj₁.tests p (u.fs.pc + 2) hsmall (hcoversu.before hj₂.grown) hagree₁
        (by omega) (by
          rw [hat hstart₁ (by omega)]
          exact relAndTail_first (by omega) (by omega) hjmp₁)
      have htests₂ := hj₂.tests p (u.fs.pc + 2) hsmall hcoversu hagree₂ (by omega) (by
          rw [hat (by omega) (by omega)]
          exact relAndTail_second (by omega) (by omega) hj₂.jump)
      refine leads_relAnd hready hj₁.grown hready.free hfloor (hcovers.lt hsmall hstack)
        hsmall htests₁ (hfree₁ ▸ htests₂) ?_ ?_ ?_ hpctail
      · rw [hat hsu.pc (by omega)]
        exact relAndTail_true (by omega) (by omega)
      · rw [hat (by omega) (by omega), hpctail]
        exact relAndTail_end (by omega) (by omega)
      · rw [hat (by omega) (by omega)]
        exact relAndTail_false }

end Tests

end Luatier.Lowering
