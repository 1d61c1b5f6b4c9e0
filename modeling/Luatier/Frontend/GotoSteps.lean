import Luatier.Frontend.GotoState

/-!
# Steps of the lowering and of the linker

One lemma for each thing that the lowering does when the linker takes a step.
-/

namespace Luatier.Lowering

open StateFrame

variable {α β : Type} {P : Proto α → Prop} {s t v : LowerState α} {b : Linker}

def FuncState.Tidy (fs : FuncState α) : Prop := fs.nactvar ≤ fs.freereg

/-! ## Scopes -/

theorem MarkScope.take {declRegs : List Nat} {nactvar : Nat} {scope : List Nat}
    (h : MarkScope declRegs nactvar scope) (n : Nat) :
    MarkScope declRegs (topOf (regsOf declRegs (scope.take n))) (scope.take n) where
  declared d hd := h.declared d (List.mem_of_mem_take hd)
  sorted := by
    rw [regsOf, List.map_take]
    exact h.sorted.sublist (List.take_sublist _ _)
  active := rfl

theorem MarkScope.lt {declRegs : List Nat} {nactvar : Nat} {scope : List Nat}
    (h : MarkScope declRegs nactvar scope) {r : Nat} (hr : r ∈ regsOf declRegs scope) :
    r < nactvar := by
  rw [h.active]
  exact lt_topOf hr

theorem clearDead_eq (fs : FuncState α) (closing : List Local) :
    ∃ code, fs.code <+: code ∧ fs.clearDead closing = { fs with code } := by
  have hsame : ∃ code, fs.code <+: code ∧ fs = { fs with code } :=
    ⟨fs.code, List.prefix_refl _, rfl⟩
  unfold FuncState.clearDead
  split
  · split
    · exact ⟨_, List.prefix_append _ _, rfl⟩
    · exact hsame
  · exact hsame

theorem closeJump_eq (fs : FuncState α) (closing : List Local) :
    ∃ code freereg, fs.code <+: code ∧ fs.nactvar ≤ freereg ∧
      fs.closeJump closing = { fs with code, freereg } := by
  unfold FuncState.closeJump
  split
  · split
    · exact ⟨_, _, List.prefix_refl _, Nat.le_refl _, rfl⟩
    · exact ⟨_, _, List.prefix_append _ _, Nat.le_max_right _ _, rfl⟩
  · exact ⟨_, _, List.prefix_refl _, Nat.le_refl _, rfl⟩

theorem leaveBlock_eq (fs : FuncState α) (n : Nat) (clear : Bool) :
    ∃ code freereg regHwm, fs.code <+: code ∧
      activeVars (fs.locals.take n) ≤ freereg ∧
      fs.leaveBlock n clear = { fs with
        code, freereg, regHwm
        locals := fs.locals.take n
        nactvar := activeVars (fs.locals.take n) } := by
  have hclear : ∃ code, fs.code <+: code ∧
      (if clear then fs.clearDead (fs.locals.drop n) else fs) = { fs with code } := by
    cases clear with
    | false => exact ⟨fs.code, List.prefix_refl _, rfl⟩
    | true => exact clearDead_eq fs _
  obtain ⟨code, hcode, hcleared⟩ := hclear
  obtain ⟨code', freereg, hcode', hfree, hjump⟩ :=
    closeJump_eq (({ fs with code } : FuncState α).keepLocals (fs.locals.take n))
      (fs.locals.drop n)
  refine ⟨code', freereg, max fs.regHwm freereg, hcode.trans hcode', hfree, ?_⟩
  rw [FuncState.leaveBlock, hcleared, hjump]
  rfl

theorem Simulates.length_locals {fs : FuncState α} (h : Simulates fs b) :
    fs.locals.length = b.scope.length := by
  have hlen := congrArg List.length h.locals
  rwa [List.length_map, regsOf, List.length_map] at hlen

theorem Reached.leaveBlock {a : Linker} (hs : Simulates s.fs a) (h : Reached P s t b)
    {saved : List Nat} (hsaved : b.saved = a.scope.length :: saved) {n : Nat}
    (hn : n = a.scope.length) (clear : Bool) :
    Linker.step .closeScope b =
        some { b with scope := b.scope.take a.scope.length, saved } ∧
      Reached P s ⟨t.fs.leaveBlock n clear, t.prev⟩
        { b with scope := b.scope.take a.scope.length, saved } ∧
      (t.fs.leaveBlock n clear).Tidy ∧
      (t.fs.leaveBlock n clear).nactvar = s.fs.nactvar := by
  rw [← hs.length_locals] at hn
  subst hn
  have hn := hs.length_locals
  have hlocals : (t.fs.locals.take s.fs.locals.length).map Local.reg =
      s.fs.locals.map Local.reg := by
    have htake := List.prefix_iff_eq_take.mp h.grows.locals
    rw [List.length_map] at htake
    rw [List.map_take, ← htake]
  have hactive : activeVars (t.fs.locals.take s.fs.locals.length) = s.fs.nactvar := by
    rw [activeVars_eq, hlocals, hs.locals, ← hs.here.active]
  refine ⟨by rw [Linker.step, hsaved], ?_⟩
  obtain ⟨code, freereg, regHwm, hcode, hfree, hleave⟩ :=
    leaveBlock_eq t.fs s.fs.locals.length clear
  rw [hleave]
  have hscope : (t.fs.locals.take s.fs.locals.length).map Local.reg =
      regsOf t.fs.declRegs (b.scope.take a.scope.length) := by
    rw [List.map_take, h.sim.locals, hn, regsOf, regsOf, List.map_take]
  refine ⟨⟨?_, ?_⟩, hfree, hactive⟩
  · exact { h.sim with
      jumps := fun r hr => by
        obtain ⟨g, l, hg, hl, hjump⟩ := h.sim.jumps r hr
        exact ⟨g, l, hg, hl, Linker.getElem?_of_grown hcode hjump⟩
      inCode := fun g hg => Nat.lt_of_lt_of_le (h.sim.inCode g hg) hcode.length_le
      labelsIn := fun l hl => (h.sim.labelsIn l hl).trans hcode.length_le
      breaks := fun j hj =>
        ⟨Nat.lt_of_lt_of_le (h.sim.breaks j hj).1 hcode.length_le, (h.sim.breaks j hj).2⟩
      locals := hscope
      here := by
        have htake := h.sim.here.take a.scope.length
        rwa [← hscope, ← activeVars_eq] at htake }
  · exact { h.grows with
      code := h.grows.code.trans hcode
      locals := by
        show _ <+: (t.fs.locals.take _).map Local.reg
        rw [hlocals] }

/-! ## Declarations -/

theorem pushLocal_ok {name : Name} {reg : Nat} (hm : pushLocal name reg t = .ok ((), v)) :
    t.fs.nactvar + 1 ≤ maxVars ∧ v = ⟨t.fs.addLocal name reg, t.prev⟩ := by
  obtain ⟨_, _, hget, hm⟩ := bind_ok.mp hm
  cases hget
  obtain ⟨_, t', hcheck, hm⟩ := bind_ok.mp hm
  unfold checkLimit at hcheck
  split at hcheck
  · exact nomatch hcheck
  · next hle =>
      cases hcheck
      cases hm
      exact ⟨Nat.not_lt.mp hle, rfl⟩

theorem Reached.addLocal (h : Reached P s t b) (name : Name) {reg : Nat}
    (hreg : t.fs.nactvar ≤ reg) (hsmall : reg < maxStack) :
    Reached P s ⟨t.fs.addLocal name reg, t.prev⟩ (b.declare 1) := by
  have hscopes := h.sim.here.append [reg]
  have hlt : ∀ r ∈ regsOf (t.fs.declRegs ++ [reg]) b.scope, r < reg :=
    fun r hr => Nat.lt_of_lt_of_le (hscopes.lt hr) hreg
  have hregs : regsOf (t.fs.declRegs ++ [reg]) (b.scope ++ [b.ndecls]) =
      regsOf (t.fs.declRegs ++ [reg]) b.scope ++ [reg] := by
    rw [regsOf, regsOf, List.map_append, List.map_singleton, ← h.sim.ndecls,
      List.getD_eq_getElem?_getD, List.getElem?_concat_length]
    rfl
  refine ⟨{ h.sim with
      ndecls := ?_
      small := ?_
      locals := ?_
      here := ⟨?_, ?_, ?_⟩
      gotos := ?_
      labelScopes := ?_ }, { h.grows with
      locals := ?_
      declRegs := ?_ }⟩
  · show (t.fs.declRegs ++ [reg]).length = b.ndecls + 1
    rw [List.length_append, h.sim.ndecls]
    rfl
  · intro r hr
    rcases List.mem_append.mp hr with hr | hr
    · exact h.sim.small r hr
    · exact List.mem_singleton.mp hr ▸ hsmall
  · show (t.fs.locals ++ [_]).map Local.reg =
      regsOf (t.fs.declRegs ++ [reg]) (b.scope ++ [b.ndecls])
    rw [hregs, List.map_append, h.sim.locals, regsOf_append _ h.sim.here.declared]
    rfl
  · intro d hd
    show d < (t.fs.declRegs ++ [reg]).length
    rcases List.mem_append.mp hd with hd | hd
    · exact hscopes.declared d hd
    · rw [List.mem_singleton.mp hd, List.length_append, h.sim.ndecls]
      exact Nat.lt_succ_self _
  · show (regsOf (t.fs.declRegs ++ [reg]) (b.scope ++ [b.ndecls])).Pairwise _
    rw [hregs]
    refine List.pairwise_append.mpr ⟨hscopes.sorted, List.pairwise_singleton _ _, ?_⟩
    intro r hr r' hr'
    exact List.mem_singleton.mp hr' ▸ hlt r hr
  · show max t.fs.nactvar (reg + 1) =
      topOf (regsOf (t.fs.declRegs ++ [reg]) (b.scope ++ [b.ndecls]))
    rw [hregs, topOf_append, ← hscopes.active]
    show _ = max _ (max (reg + 1) 0)
    rw [Nat.max_zero]
  · exact h.sim.gotos.imp fun _ _ hm => ⟨hm.1.append _, hm.2⟩
  · exact h.sim.labelScopes.imp fun _ _ hm => hm.append _
  · show _ <+: (t.fs.locals ++ [_]).map Local.reg
    rw [List.map_append]
    exact h.grows.locals.trans (List.prefix_append _ _)
  · exact h.grows.declRegs.trans (List.prefix_append _ _)

theorem Reached.pushLocals {base : Nat} (names : List Name) {i : Nat}
    (h : Reached P s t b) (hbase : t.fs.nactvar ≤ base + i)
    (hsmall : names = [] ∨ base + i < maxStack)
    (hm : pushLocals base i names t = .ok ((), v)) :
    Reached P s v (b.declare names.length) ∧
      v.fs.nactvar = (if names = [] then t.fs.nactvar else base + i + names.length) ∧
      v.fs.freereg = max t.fs.freereg (if names = [] then 0 else base + i + names.length) ∧
      v.fs.breakList = t.fs.breakList := by
  induction names generalizing t b i with
  | nil =>
      cases hm
      refine ⟨?_, rfl, (Nat.max_zero _).symm, rfl⟩
      rwa [List.length_nil, Linker.declare_zero]
  | cons name names ih =>
      obtain ⟨_, t', hpush, hm⟩ := bind_ok.mp hm
      obtain ⟨hvars, rfl⟩ := pushLocal_ok hpush
      have hreg := hsmall.resolve_left (List.cons_ne_nil _ _)
      have hnext := h.addLocal name hbase hreg
      have hactive : (t.fs.addLocal name (base + i)).nactvar = base + (i + 1) :=
        Nat.max_eq_right (Nat.le_succ_of_le hbase)
      have hnames : names = [] ∨ base + (i + 1) < maxStack := by
        cases names with
        | nil => exact Or.inl rfl
        | cons name' names =>
            obtain ⟨_, _, hpush', -⟩ := bind_ok.mp hm
            have hvars' := (pushLocal_ok hpush').1
            right
            change (t.fs.addLocal name (base + i)).nactvar + 1 ≤ 200 at hvars'
            show base + (i + 1) < 250
            omega
      obtain ⟨hv, hactive', hfree, hbreaks⟩ := ih hnext (Nat.le_of_eq hactive) hnames hm
      rw [Linker.declare_declare, Nat.add_comm] at hv
      refine ⟨hv, ?_, ?_, hbreaks⟩
      · rw [hactive', if_neg (List.cons_ne_nil _ _), List.length_cons]
        split
        · next hnil => rw [hnil]; exact hactive
        · omega
      · rw [hfree, if_neg (List.cons_ne_nil _ _), List.length_cons]
        show max (max t.fs.freereg (max t.fs.nactvar (base + i + 1))) _ = _
        split
        · next hnil => rw [hnil, List.length_nil]; omega
        · omega

/-! ## Gotos -/

theorem Simulates.length_gotoMarks {fs : FuncState α} (h : Simulates fs b) :
    fs.gotoMarks.length = b.gotos.length := h.gotos.length_eq

theorem Simulates.length_labelMarks {fs : FuncState α} (h : Simulates fs b) :
    fs.labelMarks.length = b.labelScopes.length := h.labelScopes.length_eq

theorem Simulates.markGoto {fs : FuncState α} (h : Simulates fs b) (i : Instruction α)
    (resolved : List (Nat × Nat)) (waiting : List (Name × Nat))
    (pendingGotos : List PendingGoto)
    (hsound : Linker.Sound { b with
      gotos := b.gotos ++ [⟨b.labelScopes.length, b.scope⟩], resolved, waiting })
    (hpending : List.Forall₂ (fun g w => ∃ m,
      (fs.gotoMarks ++ [⟨fs.pc, fs.nactvar⟩])[w.2]? = some m ∧
        g = ⟨w.1, m.pc, m.nactvar⟩) pendingGotos waiting)
    (hjumps : ∀ r ∈ resolved, r ∈ b.resolved ∨ r.1 = b.gotos.length ∧
      ∃ l, fs.labelMarks[r.2]? = some l ∧ i = jumpTo ⟨fs.pc, fs.nactvar⟩ l) :
    Simulates { fs.markGoto.emit i with pendingGotos }
      { b with gotos := b.gotos ++ [⟨b.labelScopes.length, b.scope⟩], resolved, waiting } where
  sound := hsound
  labels := h.labels
  defined := h.defined
  pending := hpending
  jumps r hr := by
    rcases hjumps r hr with hold | ⟨hnew, l, hl, hi⟩
    · obtain ⟨g, l, hg, hl, hjump⟩ := h.jumps r hold
      exact ⟨g, l, Linker.getElem?_of_grown (List.prefix_append _ _) hg, hl,
        Linker.getElem?_of_grown (List.prefix_append _ _) hjump⟩
    · refine ⟨⟨fs.pc, fs.nactvar⟩, l, ?_, hl, ?_⟩
      · show (fs.gotoMarks ++ [_])[r.1]? = _
        rw [hnew, ← h.length_gotoMarks, List.getElem?_concat_length]
      · show (fs.code ++ [i])[fs.code.length]? = _
        rw [List.getElem?_concat_length, hi]
  sorted := by
    refine List.pairwise_append.mpr ⟨h.sorted, List.pairwise_singleton _ _, ?_⟩
    intro g hg g' hg'
    rw [List.mem_singleton.mp hg']
    exact h.inCode g hg
  inCode g hg := by
    show g.pc < (fs.code ++ [i]).length
    rw [List.length_append]
    rcases List.mem_append.mp hg with hg | hg
    · exact Nat.lt_succ_of_lt (h.inCode g hg)
    · rw [List.mem_singleton.mp hg]
      exact Nat.lt_succ_self _
  breaks j hj := by
    obtain ⟨hlt, hne⟩ := h.breaks j hj
    refine ⟨?_, fun g hg => ?_⟩
    · show j < (fs.code ++ [i]).length
      rw [List.length_append]
      exact Nat.lt_succ_of_lt hlt
    · rcases List.mem_append.mp hg with hg | hg
      · exact hne g hg
      · rw [List.mem_singleton.mp hg]
        exact Nat.ne_of_gt hlt
  ndecls := h.ndecls
  small := h.small
  locals := h.locals
  here := h.here
  gotos := by
    refine List.rel_append h.gotos (.cons ⟨h.here, ?_, fun k l hl _ => ?_, ?_⟩ .nil)
    · exact Nat.le_of_eq h.length_labelMarks.symm
    · exact h.labelsIn l (List.mem_of_getElem? hl)
    · intro k l hl hk
      have hlt := (List.getElem?_eq_some_iff.mp hl).1
      rw [h.length_labelMarks] at hlt
      exact absurd hlt (Nat.not_lt.mpr hk)
  labelsIn l hl := by
    show l.pc ≤ (fs.code ++ [i]).length
    rw [List.length_append]
    exact Nat.le_succ_of_le (h.labelsIn l hl)
  labelScopes := h.labelScopes

theorem Simulates.known {fs : FuncState α} (h : Simulates fs b) {name : Name} {k : Nat}
    (hk : b.known name = some k) : ∃ l, fs.labelMarks[k]? = some l := by
  have hseen : b.seen name = some k := by
    unfold Linker.known at hk
    split at hk
    · split at hk
      · exact nomatch hk
      · exact hk
    · exact hk
  exact ⟨_, List.getElem?_eq_getElem (h.seen hseen)⟩

theorem Reached.goto (h : Reached P s t b) {name : Name} {known : Option LabelInfo}
    (hknown : known = (b.known name).bind fun k => t.fs.labelMarks[k]?.map Mark.info)
    (hm : lowerGoto name known t = .ok ((), v)) :
    ∃ b', Linker.step (.goto name) b = some b' ∧ Reached P s v b' ∧
      b'.blocks = b.blocks ∧ b'.saved = b.saved ∧ b'.scope = b.scope ∧
      v.fs.nactvar = t.fs.nactvar ∧ v.fs.freereg = t.fs.freereg := by
  obtain ⟨hsim, hgrows⟩ := h
  have hgotos : GrowsBy s.fs.code.length Mark.pc s.fs.gotoMarks
      (t.fs.gotoMarks ++ [⟨t.fs.pc, t.fs.nactvar⟩]) :=
    hgrows.gotos.snoc hgrows.code.length_le
  have hcode : ∀ i : Instruction α, s.fs.code <+: t.fs.code ++ [i] :=
    fun i => hgrows.code.trans (List.prefix_append _ _)
  have hmarked : List.Forall₂ (fun g w => ∃ m,
      (t.fs.gotoMarks ++ [⟨t.fs.pc, t.fs.nactvar⟩])[w.2]? = some m ∧
        g = ⟨w.1, m.pc, m.nactvar⟩) t.fs.pendingGotos b.waiting := by
    refine hsim.pending.imp ?_
    rintro g w ⟨m, hm, hg⟩
    exact ⟨m, Linker.getElem?_of_grown (List.prefix_append _ _) hm, hg⟩
  obtain ⟨_, t', hmark, hm⟩ := bind_ok.mp hm
  cases hmark
  obtain ⟨_, _, hget, hm⟩ := bind_ok.mp hm
  cases hget
  cases hk : b.known name with
  | some k =>
      obtain ⟨l, hl⟩ := hsim.known hk
      rw [hk, Option.bind_some, hl, Option.map_some] at hknown
      cases hknown
      cases hm
      have hstep := Linker.step_goto_known hk
      refine ⟨_, hstep, ⟨?_, { hgrows with
          code := hcode _
          gotos := hgotos }⟩, rfl, rfl, rfl, rfl, rfl⟩
      refine hsim.markGoto _ _ b.waiting t.fs.pendingGotos
        (Linker.step_sound hsim.sound hstep) hmarked fun r hr => ?_
      rcases List.mem_append.mp hr with hr | hr
      · exact Or.inl hr
      · cases List.mem_singleton.mp hr
        exact Or.inr ⟨rfl, l, hl, rfl⟩
  | none =>
      rw [hk, Option.bind_none] at hknown
      cases hknown
      cases hm
      have hstep := Linker.step_goto_waits hk
      have hpending : GrowsBy s.fs.code.length PendingGoto.jmpPc s.fs.pendingGotos
          (t.fs.pendingGotos ++ [⟨name, t.fs.pc, t.fs.nactvar⟩]) :=
        hgrows.pending.snoc hgrows.code.length_le
      refine ⟨_, hstep, ⟨?_, { hgrows with
          code := hcode _
          gotos := hgotos
          pending := hpending }⟩, rfl, rfl, rfl, rfl, rfl⟩
      refine hsim.markGoto _ b.resolved _ _ (Linker.step_sound hsim.sound hstep) ?_
        fun r hr => Or.inl hr
      refine List.rel_append hmarked (.cons ⟨⟨t.fs.pc, t.fs.nactvar⟩, ?_, rfl⟩ .nil)
      rw [← hsim.length_gotoMarks]
      exact List.getElem?_concat_length

/-! ## Labels -/

theorem forall₂_mem {γ δ : Type} {R : γ → δ → Prop} {xs : List γ} {ys : List δ}
    (h : List.Forall₂ R xs ys) {x : γ} (hx : x ∈ xs) : ∃ y ∈ ys, R x y := by
  induction h with
  | nil => exact nomatch hx
  | @cons x' y xs ys hxy _ ih =>
      rcases List.mem_cons.mp hx with rfl | hx
      · exact ⟨y, List.mem_cons_self, hxy⟩
      · obtain ⟨y', hy', hxy'⟩ := ih hx
        exact ⟨y', List.mem_cons_of_mem _ hy', hxy'⟩

theorem forall₂_imp_mem {γ δ : Type} {R S : γ → δ → Prop} {xs : List γ} {ys : List δ}
    (h : List.Forall₂ R xs ys) (hS : ∀ x ∈ xs, ∀ y, R x y → S x y) : List.Forall₂ S xs ys := by
  induction h with
  | nil => exact .nil
  | @cons x y xs ys hxy _ ih =>
      exact .cons (hS x List.mem_cons_self y hxy)
        (ih fun x' hx' => hS x' (List.mem_cons_of_mem _ hx'))

theorem lookup_filter_ne {γ : Type} (xs : List (Name × γ)) (name n : Name) :
    (xs.filter (·.1 != name)).lookup n = if n == name then none else xs.lookup n := by
  induction xs with
  | nil => exact (ite_self _).symm
  | cons x xs ih =>
      obtain ⟨m, c⟩ := x
      rw [List.filter_cons]
      by_cases hm : m = name
      · subst hm
        rw [show (m != m) = false from bne_self_eq_false m, if_neg Bool.false_ne_true, ih,
          List.lookup_cons]
        cases n == m <;> rfl
      · rw [show (m != name) = true from bne_iff_ne.mpr hm, if_pos rfl, List.lookup_cons,
          List.lookup_cons, ih]
        cases hn : n == m with
        | false => rfl
        | true =>
            rw [eq_of_beq hn, show (m == name) = false from beq_false_of_ne hm]
            rfl

theorem lookup_setLabel (fs : FuncState α) (name : Name) (info : LabelInfo) (n : Name) :
    (fs.setLabel name info).labels.lookup n =
      if n == name then some info else fs.labels.lookup n := by
  show ((name, info) :: fs.labels.filter (·.1 != name)).lookup n = _
  rw [List.lookup_cons, lookup_filter_ne]
  cases n == name <;> rfl

theorem lookup_eraseLabel (fs : FuncState α) (name n : Name) :
    (fs.eraseLabel name).labels.lookup n =
      if n == name then none else fs.labels.lookup n := lookup_filter_ne _ _ _

theorem Reached.label (h : Reached P s t b) {name : Name} {last : Bool} {block : OpenBlock}
    {blocks : List OpenBlock} (hb : b.blocks = block :: blocks)
    (hnew : (block.defined.lookup name).isSome = false) {nactvar : Nat}
    (hscope : MarkScope t.fs.declRegs nactvar (if last then block.entry else b.scope)) :
    ∃ b', Linker.step (.label name last) b = some b' ∧
      Reached P s ⟨t.fs.addLabel name nactvar, t.prev⟩ b' ∧
      b'.blocks =
        { block with defined := (name, b.labelScopes.length) :: block.defined } :: blocks ∧
      b'.saved = b.saved ∧ b'.scope = b.scope := by
  obtain ⟨hsim, hgrows⟩ := h
  have hstep : Linker.step (.label name last) b = some { b with
      blocks := { block with
        defined := (name, b.labelScopes.length) :: block.defined } :: blocks
      labelScopes := b.labelScopes ++ [if last then block.entry else b.scope] } := by
    rw [Linker.step, hb]
    dsimp only
    rw [hnew]
    rfl
  refine ⟨_, hstep, ⟨?_, { hgrows with
    labels := hgrows.labels.trans (List.prefix_append _ _) }⟩, rfl, rfl, rfl⟩
  have hseen : ∀ n, Linker.seen { b with
      blocks := { block with
        defined := (name, b.labelScopes.length) :: block.defined } :: blocks
      labelScopes := b.labelScopes ++ [if last then block.entry else b.scope] } n =
      if n == name then some b.labelScopes.length else b.seen n := by
    intro n
    rw [Linker.seen, Linker.seen, hb, List.findSome?_cons, List.findSome?_cons,
      List.lookup_cons]
    cases n == name <;> rfl
  exact { hsim with
    sound := Linker.step_sound hsim.sound hstep
    labels := fun n => by
      rw [hseen]
      refine (lookup_setLabel _ _ _ _).trans ?_
      cases n == name with
      | true =>
          show some _ = (t.fs.labelMarks ++ [_])[b.labelScopes.length]?.map Mark.info
          rw [← hsim.length_labelMarks, List.getElem?_concat_length]
          rfl
      | false =>
          show t.fs.labels.lookup n = _
          rw [hsim.labels n]
          show (b.seen n).bind _ = (b.seen n).bind _
          cases hk : b.seen n with
          | none => rfl
          | some k =>
              show _ = (t.fs.labelMarks ++ [_])[k]?.map Mark.info
              rw [List.getElem?_append_left (hsim.seen hk)]
              rfl
    defined := fun block' hblock' n k hk => by
      show k < (t.fs.labelMarks ++ [_]).length
      rw [List.length_append]
      have hold : ∀ block' ∈ b.blocks, block'.defined.lookup n = some k →
          k < t.fs.labelMarks.length + 1 :=
        fun block' hmem hk => Nat.lt_succ_of_lt (hsim.defined block' hmem n k hk)
      rw [hb] at hold
      rcases List.mem_cons.mp hblock' with rfl | hblock'
      · rw [List.lookup_cons] at hk
        cases hn : n == name with
        | true =>
            rw [hn] at hk
            cases hk
            rw [hsim.length_labelMarks]
            exact Nat.lt_succ_self _
        | false =>
            rw [hn] at hk
            exact hold block List.mem_cons_self hk
      · exact hold block' (List.mem_cons_of_mem _ hblock') hk
    jumps := fun r hr => by
      obtain ⟨g, l, hg, hl, hjump⟩ := hsim.jumps r hr
      exact ⟨g, l, hg, Linker.getElem?_of_grown (List.prefix_append _ _) hl, hjump⟩
    gotos := forall₂_imp_mem hsim.gotos fun m hm _ h =>
      ⟨h.1, h.2.snoc (hsim.inCode m hm)⟩
    labelsIn := fun l hl => by
      rcases List.mem_append.mp hl with hl | hl
      · exact hsim.labelsIn l hl
      · rw [List.mem_singleton.mp hl]
        exact Nat.le_refl _
    labelScopes := List.rel_append hsim.labelScopes (.cons hscope .nil) }

/-! ## The end of a block -/

def ownLabel (defined : Defined) (labels : List (Name × LabelInfo)) (name : Name) :
    Option LabelInfo :=
  if (defined.lookup name).isSome then labels.lookup name else none

structure Patched (f : Name → Option LabelInfo) (gs : List PendingGoto)
    (code code' : List (Instruction α)) : Prop where
  length : code'.length = code.length
  others : ∀ pc, (∀ g ∈ gs, (f g.name).isSome → g.jmpPc ≠ pc) → code'[pc]? = code[pc]?
  patched : ∀ g ∈ gs, ∀ info, f g.name = some info → g.jmpPc < code.length →
    code'[g.jmpPc]? = some (jumpTo ⟨g.jmpPc, g.nactvar⟩ ⟨info.pc, info.nactvar⟩)

theorem patchHere_ok {defined : Defined} {gs remain : List PendingGoto}
    (hm : patchHere defined gs t = .ok (remain, v))
    (hdistinct : gs.Pairwise fun g g' => g.jmpPc ≠ g'.jmpPc) :
    remain = gs.filter (fun g => !(ownLabel defined t.fs.labels g.name).isSome) ∧
      ∃ code, v = ⟨{ t.fs with code }, t.prev⟩ ∧
        Patched (ownLabel defined t.fs.labels) gs t.fs.code code := by
  induction gs generalizing t remain with
  | nil =>
      cases hm
      exact ⟨rfl, v.fs.code, rfl, rfl, fun _ _ => rfl, fun _ h => nomatch h⟩
  | cons g gs ih =>
      obtain ⟨hne, hdistinct⟩ := List.pairwise_cons.mp hdistinct
      obtain ⟨_, _, hget, hm⟩ := bind_ok.mp hm
      cases hget
      cases hown : ownLabel defined t.fs.labels g.name with
      | some info =>
          have hlabel : (defined.lookup g.name).isSome = true ∧
              t.fs.labels.lookup g.name = some info := by
            unfold ownLabel at hown
            split at hown
            · next hdef => exact ⟨hdef, hown⟩
            · exact nomatch hown
          rw [hlabel.1, hlabel.2] at hm
          obtain ⟨_, t', hpatch, hm⟩ := bind_ok.mp hm
          cases hpatch
          obtain ⟨hremain, code, hv, hpatched⟩ := ih hm hdistinct
          refine ⟨?_, code, hv, ?_, fun pc hpc => ?_, fun g' hg' info' hinfo hlt => ?_⟩
          · rw [List.filter_cons, hown]
            exact hremain
          · exact hpatched.length.trans (List.length_set ..)
          · rw [hpatched.others pc fun g' hg' => hpc g' (List.mem_cons_of_mem _ hg')]
            have hother : g.jmpPc ≠ pc := hpc g List.mem_cons_self (by rw [hown]; rfl)
            exact List.getElem?_set_ne hother
          · rcases List.mem_cons.mp hg' with rfl | hg'
            · rw [hown] at hinfo
              cases hinfo
              rw [hpatched.others _ fun g'' hg'' _ => (hne g'' hg'').symm]
              exact List.getElem?_set_self hlt
            · refine hpatched.patched g' hg' info' hinfo ?_
              show _ < (t.fs.code.set _ _).length
              rwa [List.length_set]
      | none =>
          have hskip : ∃ remain', patchHere defined gs t = .ok (remain', v) ∧
              remain = g :: remain' := by
            have hskip : (do return g :: (← patchHere defined gs)) t = .ok (remain, v) →
                ∃ remain', patchHere defined gs t = .ok (remain', v) ∧
                  remain = g :: remain' := by
              intro hm
              obtain ⟨remain', _, hrest, hm⟩ := bind_ok.mp hm
              cases hm
              exact ⟨remain', hrest, rfl⟩
            rw [ownLabel] at hown
            cases hdef : (defined.lookup g.name).isSome with
            | false =>
                rw [hdef] at hm
                exact hskip hm
            | true =>
                rw [hdef, if_pos rfl] at hown
                rw [hdef, hown] at hm
                exact hskip hm
          obtain ⟨remain', hrest, rfl⟩ := hskip
          obtain ⟨hremain, code, hv, hpatched⟩ := ih hrest hdistinct
          refine ⟨?_, code, hv, hpatched.length, fun pc hpc => ?_, fun g' hg' => ?_⟩
          · rw [List.filter_cons, hown, hremain]
            rfl
          · exact hpatched.others pc fun g' hg' => hpc g' (List.mem_cons_of_mem _ hg')
          · rcases List.mem_cons.mp hg' with rfl | hg'
            · intro info hinfo
              rw [hown] at hinfo
              exact nomatch hinfo
            · exact hpatched.patched g' hg'

theorem restoreLabels_eq (before : Name → Option LabelInfo) (defined : Defined) :
    ∀ fs : FuncState α, (∀ x ∈ defined, x.2 = before x.1) →
      ∃ labels, restoreLabels defined fs = { fs with labels } ∧
        ∀ n, labels.lookup n =
          if (defined.lookup n).isSome then before n else fs.labels.lookup n := by
  induction defined with
  | nil => exact fun fs _ => ⟨fs.labels, rfl, fun n => rfl⟩
  | cons x defined ih =>
      obtain ⟨name, old⟩ := x
      intro fs h
      have hold : old = before name := h _ List.mem_cons_self
      have hstep : ∃ labels, restoreLabels ((name, old) :: defined) fs =
          restoreLabels defined { fs with labels } ∧
          ∀ n, labels.lookup n = if n == name then old else fs.labels.lookup n := by
        cases old with
        | some info => exact ⟨_, rfl, lookup_setLabel fs name info⟩
        | none => exact ⟨_, rfl, lookup_eraseLabel fs name⟩
      obtain ⟨labels, hrestore, hlabels⟩ := hstep
      obtain ⟨labels', hrest, hlabels'⟩ := ih { fs with labels }
        fun x hx => h x (List.mem_cons_of_mem _ hx)
      refine ⟨labels', hrestore.trans hrest, fun n => ?_⟩
      rw [hlabels', List.lookup_cons]
      cases hn : n == name with
      | true =>
          rw [eq_of_beq hn, hlabels, beq_self_eq_true, if_pos rfl, hold]
          exact ite_self _
      | false =>
          show _ = if (defined.lookup n).isSome then _ else _
          rw [hlabels, hn]
          rfl

def outerLabel (marks : List Mark) (blocks : List OpenBlock) (name : Name) :
    Option LabelInfo :=
  (blocks.findSome? (·.defined.lookup name)).bind fun k => marks[k]?.map Mark.info

structure Remembers (marks : List Mark) (blocks : List OpenBlock)
    (own : List (Name × Nat)) (defined : Defined) : Prop where
  names : ∀ n, (defined.lookup n).isSome = (own.lookup n).isSome
  old : ∀ x ∈ defined, x.2 = outerLabel marks blocks x.1

theorem pairwise_of_forall₂ {γ δ : Type} {R : γ → δ → Prop} {S : δ → δ → Prop}
    {T : γ → γ → Prop} {xs : List γ} {ys : List δ} (h : List.Forall₂ R xs ys)
    (hys : ys.Pairwise S) (hT : ∀ x y x' y', R x y → R x' y' → S y y' → T x x') :
    xs.Pairwise T := by
  induction h with
  | nil => exact List.Pairwise.nil
  | @cons x y xs ys hxy hrest ih =>
      obtain ⟨hy, hys⟩ := List.pairwise_cons.mp hys
      refine List.pairwise_cons.mpr ⟨fun x' hx' => ?_, ih hys⟩
      obtain ⟨y', hy', hxy'⟩ := forall₂_mem hrest hx'
      exact hT x y x' y' hxy hxy' (hy y' hy')

theorem Simulates.pc_ne {fs : FuncState α} (h : Simulates fs b) {i j : Nat} {g g' : Mark}
    (hg : fs.gotoMarks[i]? = some g) (hg' : fs.gotoMarks[j]? = some g') (hij : i ≠ j) :
    g.pc ≠ g'.pc := by
  obtain ⟨hi, rfl⟩ := List.getElem?_eq_some_iff.mp hg
  obtain ⟨hj, rfl⟩ := List.getElem?_eq_some_iff.mp hg'
  rcases Nat.lt_or_gt_of_ne hij with hlt | hgt
  · exact Nat.ne_of_lt (List.pairwise_iff_getElem.mp h.sorted i j hi hj hlt)
  · exact Nat.ne_of_gt (List.pairwise_iff_getElem.mp h.sorted j i hj hi hgt)

theorem Linker.Sound.disjoint (h : b.Sound) :
    (∀ r ∈ b.resolved, ∀ w ∈ b.waiting, r.1 ≠ w.2) ∧
      b.waiting.Pairwise fun w w' => w.2 ≠ w'.2 := by
  have hnodup := h.nodup_iff.mpr List.nodup_range
  obtain ⟨-, hwaiting, hdisjoint⟩ := List.nodup_append.mp hnodup
  refine ⟨fun r hr w hw => ?_, List.pairwise_map.mp hwaiting⟩
  exact hdisjoint r.1 (List.mem_map_of_mem hr) w.2 (List.mem_map_of_mem hw)

theorem Reached.leave {block : OpenBlock} {blocks : List OpenBlock} {defined : Defined}
    {remain : List PendingGoto} (h : Reached P s t b) (hb : b.blocks = block :: blocks)
    (hbefore : block.before = s.fs.pendingGotos.length)
    (hdef : Remembers t.fs.labelMarks blocks block.defined defined)
    (hm : patchHere defined (t.fs.pendingGotos.drop s.fs.pendingGotos.length) t =
      .ok (remain, v)) :
    ∃ c, Linker.step .leave b = some c ∧
      Reached P s ⟨restoreLabels defined { v.fs with
        pendingGotos := v.fs.pendingGotos.take s.fs.pendingGotos.length ++ remain },
        v.prev⟩ c ∧
      c.blocks = blocks ∧ c.saved = b.saved ∧ c.scope = b.scope ∧
      v.fs.nactvar = t.fs.nactvar ∧ v.fs.freereg = t.fs.freereg := by
  obtain ⟨hsim, hgrows⟩ := h
  obtain ⟨hdisjoint, hwaiting⟩ := Linker.Sound.disjoint hsim.sound
  have hopened := List.forall₂_drop s.fs.pendingGotos.length hsim.pending
  have hdistinct : (t.fs.pendingGotos.drop s.fs.pendingGotos.length).Pairwise
      fun g g' => g.jmpPc ≠ g'.jmpPc := by
    refine pairwise_of_forall₂ hopened (hwaiting.sublist (List.drop_sublist _ _)) ?_
    rintro g w g' w' ⟨m, hm, rfl⟩ ⟨m', hm', rfl⟩ hne
    exact hsim.pc_ne hm hm' hne
  obtain ⟨rfl, code, rfl, hpatched⟩ := patchHere_ok hm hdistinct
  -- A name of the block stands for the block's label, and others are as before.
  have hown : ∀ name, ownLabel defined t.fs.labels name =
      (block.defined.lookup name).bind fun k => t.fs.labelMarks[k]?.map Mark.info := by
    intro name
    rw [ownLabel, hdef.names, hsim.labels, Linker.seen, hb, List.findSome?_cons]
    cases block.defined.lookup name <;> rfl
  have hmark : ∀ name k, block.defined.lookup name = some k →
      ∃ l, t.fs.labelMarks[k]? = some l := by
    intro name k hk
    have hmem : block ∈ b.blocks := by
      rw [hb]
      exact List.mem_cons_self
    exact ⟨_, List.getElem?_eq_getElem (hsim.defined block hmem name k hk)⟩
  have hsome : ∀ name, (ownLabel defined t.fs.labels name).isSome =
      (block.defined.lookup name).isSome := by
    intro name
    rw [hown]
    cases hk : block.defined.lookup name with
    | none => rfl
    | some k =>
        obtain ⟨l, hl⟩ := hmark name k hk
        rw [Option.bind_some, hl]
        rfl
  have hstep : Linker.step .leave b = some { b with
      blocks
      waiting := b.waiting.take block.before ++
        (b.waiting.drop block.before).filter fun w => !(block.defined.lookup w.1).isSome
      resolved := b.resolved ++
        (b.waiting.drop block.before).filterMap fun w =>
          (block.defined.lookup w.1).map (w.2, ·) } := by
    rw [Linker.step, hb]
  obtain ⟨labels, hrestore, hlabels⟩ := restoreLabels_eq
    (outerLabel t.fs.labelMarks blocks) defined { t.fs with
      code
      pendingGotos := t.fs.pendingGotos.take s.fs.pendingGotos.length ++
        (t.fs.pendingGotos.drop s.fs.pendingGotos.length).filter
          fun g => !(ownLabel defined t.fs.labels g.name).isSome } hdef.old
  refine ⟨_, hstep, ?_, rfl, rfl, rfl, rfl, rfl⟩
  rw [hrestore]
  obtain ⟨new, hpending, hnew⟩ := hgrows.pending
  have hdrop : t.fs.pendingGotos.drop s.fs.pendingGotos.length = new := by
    rw [hpending, List.drop_left]
  have htake : t.fs.pendingGotos.take s.fs.pendingGotos.length = s.fs.pendingGotos := by
    rw [hpending, List.take_left]
  rw [hdrop] at hpatched hopened
  rw [hdrop, htake]
  constructor
  · exact { hsim with
      sound := Linker.step_sound hsim.sound hstep
      labels := fun n => by
        refine (hlabels n).trans ?_
        show _ = outerLabel t.fs.labelMarks blocks n
        rw [hdef.names]
        cases hk : block.defined.lookup n with
        | some k => rfl
        | none =>
            show t.fs.labels.lookup n = _
            rw [hsim.labels, Linker.seen, hb, List.findSome?_cons, hk]
            rfl
      defined := fun block' hblock' => by
        refine hsim.defined block' ?_
        rw [hb]
        exact List.mem_cons_of_mem _ hblock'
      pending := by
        rw [hbefore]
        have hold := List.forall₂_take s.fs.pendingGotos.length hsim.pending
        rw [htake] at hold
        refine List.rel_append hold (List.rel_filter ?_ hopened)
        rintro g w ⟨m, hm, rfl⟩
        show (!_) = true ↔ (!_) = true
        rw [hsome]
      jumps := fun r hr => by
        rcases List.mem_append.mp hr with hr | hr
        · obtain ⟨g, l, hg, hl, hjump⟩ := hsim.jumps r hr
          refine ⟨g, l, hg, hl, (hpatched.others _ fun g' hg' _ => ?_).trans hjump⟩
          obtain ⟨w, hw, m, hm, rfl⟩ := forall₂_mem hopened hg'
          exact hsim.pc_ne hm hg (hdisjoint r hr w (List.mem_of_mem_drop hw)).symm
        · obtain ⟨w, hw, hr⟩ := List.mem_filterMap.mp hr
          obtain ⟨k, hk, rfl⟩ := Option.map_eq_some_iff.mp hr
          rw [hbefore] at hw
          obtain ⟨g, hg, m, hm, rfl⟩ := forall₂_mem hopened.flip hw
          obtain ⟨l, hl⟩ := hmark _ k hk
          refine ⟨m, l, hm, hl, ?_⟩
          refine hpatched.patched _ hg l.info ?_ (hsim.inCode m (List.mem_of_getElem? hm))
          rw [hown, hk, Option.bind_some, hl]
          rfl
      inCode := fun g hg => by
        show g.pc < code.length
        rw [hpatched.length]
        exact hsim.inCode g hg
      labelsIn := fun l hl => by
        show l.pc ≤ code.length
        rw [hpatched.length]
        exact hsim.labelsIn l hl
      breaks := fun j hj => by
        show j < code.length ∧ _
        rw [hpatched.length]
        exact hsim.breaks j hj }
  · exact { hgrows with
      code := by
        refine List.prefix_iff_getElem?.mpr fun i hi => ?_
        rw [hpatched.others i fun g hg _ => Nat.ne_of_gt (Nat.lt_of_lt_of_le hi (hnew g hg))]
        exact List.prefix_iff_getElem?.mp hgrows.code i hi
      pending := ⟨_, rfl, fun g hg => hnew g (List.mem_of_mem_filter hg)⟩ }

end Luatier.Lowering
