import Luatier.Frontend.ExprFrames
import Luatier.Frontend.Linker

/-!
# The linker and the state of the lowering

The lowering keeps labels and pending gotos as the linker does, with places in
the code for the numbers of the linker.
-/

namespace Luatier.Lowering

open StateFrame

variable {α β : Type}

def jumpTo (g l : Mark) : Instruction α :=
  encodeAsbx .jmp (gotoCloseA g.nactvar l.nactvar) (l.pc - (g.pc + 1))

def topOf : List Nat → Nat
  | [] => 0
  | r :: rs => max (r + 1) (topOf rs)

theorem activeVars_eq (locals : List Local) :
    activeVars locals = topOf (locals.map Local.reg) := by
  induction locals with
  | nil => rfl
  | cons l locals ih => rw [activeVars, ih, List.map_cons, topOf]

theorem lt_topOf {r : Nat} {rs : List Nat} (h : r ∈ rs) : r < topOf rs := by
  induction rs with
  | nil => exact nomatch h
  | cons r' rs ih =>
      rw [topOf]
      rcases List.mem_cons.mp h with rfl | h
      · exact Nat.lt_of_lt_of_le (Nat.lt_succ_self r) (Nat.le_max_left _ _)
      · exact Nat.lt_of_lt_of_le (ih h) (Nat.le_max_right _ _)

theorem topOf_le {rs : List Nat} {m : Nat} (h : ∀ r ∈ rs, r < m) : topOf rs ≤ m := by
  induction rs with
  | nil => exact Nat.zero_le m
  | cons r rs ih =>
      exact Nat.max_le.mpr ⟨h r List.mem_cons_self,
        ih fun r' hr' => h r' (List.mem_cons_of_mem _ hr')⟩

theorem topOf_append (rs ss : List Nat) : topOf (rs ++ ss) = max (topOf rs) (topOf ss) := by
  induction rs with
  | nil => exact (Nat.zero_max _).symm
  | cons r rs ih => rw [List.cons_append, topOf, topOf, ih, Nat.max_assoc]

def regsOf (declRegs : List Nat) (scope : List Nat) : List Nat :=
  scope.map fun d => declRegs.getD d 0

theorem regsOf_append {declRegs : List Nat} (regs : List Nat) {scope : List Nat}
    (h : ∀ d ∈ scope, d < declRegs.length) :
    regsOf (declRegs ++ regs) scope = regsOf declRegs scope :=
  List.map_congr_left fun d hd => by
    rw [List.getD_eq_getElem?_getD, List.getElem?_append_left (h d hd),
      List.getD_eq_getElem?_getD]

structure MarkScope (declRegs : List Nat) (nactvar : Nat) (scope : List Nat) : Prop where
  declared : ∀ d ∈ scope, d < declRegs.length
  sorted : (regsOf declRegs scope).Pairwise (· < ·)
  active : nactvar = topOf (regsOf declRegs scope)

theorem MarkScope.append {declRegs : List Nat} {nactvar : Nat} {scope : List Nat}
    (h : MarkScope declRegs nactvar scope) (regs : List Nat) :
    MarkScope (declRegs ++ regs) nactvar scope := by
  have hregs := regsOf_append regs h.declared
  refine ⟨fun d hd => ?_, ?_, ?_⟩
  · rw [List.length_append]
    exact Nat.lt_add_right _ (h.declared d hd)
  · rw [hregs]
    exact h.sorted
  · rw [hregs]
    exact h.active

/-- The first `seen` labels stand before the goto `m`, and the others after it. -/
structure Ordered (labels : List Mark) (m : Mark) (seen : Nat) : Prop where
  le : seen ≤ labels.length
  before : ∀ k l, labels[k]? = some l → k < seen → l.pc ≤ m.pc
  after : ∀ k l, labels[k]? = some l → seen ≤ k → m.pc < l.pc

theorem Ordered.snoc {labels : List Mark} {m l : Mark} {seen : Nat}
    (h : Ordered labels m seen) (hl : m.pc < l.pc) : Ordered (labels ++ [l]) m seen := by
  refine ⟨?_, fun k l' hl' hk => ?_, fun k l' hl' hk => ?_⟩
  · rw [List.length_append]
    exact Nat.le_add_right_of_le h.le
  · rw [List.getElem?_append_left (Nat.lt_of_lt_of_le hk h.le)] at hl'
    exact h.before k l' hl' hk
  · rcases Nat.lt_or_ge k labels.length with hlt | hge
    · rw [List.getElem?_append_left hlt] at hl'
      exact h.after k l' hl' hk
    · rw [List.getElem?_append_right hge] at hl'
      have hmem := List.mem_of_getElem? hl'
      rw [List.mem_singleton.mp hmem]
      exact hl

def Mark.info (m : Mark) : LabelInfo := ⟨m.pc, m.nactvar⟩

/-- The state keeps what the linker keeps. -/
structure Simulates (fs : FuncState α) (a : Linker) : Prop where
  sound : a.Sound
  labels : ∀ name, fs.labels.lookup name =
    (a.seen name).bind fun k => fs.labelMarks[k]?.map Mark.info
  defined : ∀ block ∈ a.blocks, ∀ name k, block.defined.lookup name = some k →
    k < fs.labelMarks.length
  pending : List.Forall₂ (fun g w => ∃ m, fs.gotoMarks[w.2]? = some m ∧
    g = ⟨w.1, m.pc, m.nactvar⟩) fs.pendingGotos a.waiting
  jumps : ∀ r ∈ a.resolved, ∃ g l, fs.gotoMarks[r.1]? = some g ∧
    fs.labelMarks[r.2]? = some l ∧ fs.code[g.pc]? = some (jumpTo g l)
  sorted : fs.gotoMarks.Pairwise fun g g' => g.pc < g'.pc
  inCode : ∀ g ∈ fs.gotoMarks, g.pc < fs.code.length
  breaks : ∀ j ∈ fs.breakList, j < fs.code.length ∧ ∀ g ∈ fs.gotoMarks, g.pc ≠ j
  ndecls : fs.declRegs.length = a.ndecls
  small : ∀ r ∈ fs.declRegs, r < maxStack
  locals : fs.locals.map Local.reg = regsOf fs.declRegs a.scope
  here : MarkScope fs.declRegs fs.nactvar a.scope
  gotos : List.Forall₂ (fun m entry => MarkScope fs.declRegs m.nactvar entry.scope ∧
    Ordered fs.labelMarks m entry.seen) fs.gotoMarks a.gotos
  labelsIn : ∀ l ∈ fs.labelMarks, l.pc ≤ fs.code.length
  labelScopes : List.Forall₂ (fun m scope => MarkScope fs.declRegs m.nactvar scope)
    fs.labelMarks a.labelScopes

theorem Simulates.seen {fs : FuncState α} {a : Linker} (h : Simulates fs a) {name : Name}
    {k : Nat} (hk : a.seen name = some k) : k < fs.labelMarks.length := by
  obtain ⟨block, hblock, hlookup⟩ := List.exists_of_findSome?_eq_some hk
  exact h.defined block hblock name k hlookup

theorem exists_of_outline {fs fs' : FuncState α} (h : fs'.outline = fs.outline) :
    ∃ code constants upvalues protos locals freereg maxstack regHwm,
      locals.map Local.reg = fs.locals.map Local.reg ∧
        fs' = { fs with
          code, constants, upvalues, protos, locals, freereg, maxstack, regHwm } := by
  have hlocals := congrArg (fun fs : FuncState α => fs.locals.map Local.reg) h
  simp only [FuncState.outline, FuncState.sealed, FuncState.uncoded, List.map_map] at hlocals
  refine ⟨fs'.code, fs'.constants, fs'.upvalues, fs'.protos, fs'.locals, fs'.freereg,
    fs'.maxstack, fs'.regHwm, hlocals, ?_⟩
  cases fs
  cases fs'
  injection h
  subst_vars
  rfl

theorem Simulates.recode {fs fs' : FuncState α} {a : Linker} (h : Simulates fs a)
    (houtline : fs'.outline = fs.outline) (hlen : fs.code.length ≤ fs'.code.length)
    (hcode : ∀ g ∈ fs.gotoMarks, fs'.code[g.pc]? = fs.code[g.pc]?) : Simulates fs' a := by
  obtain ⟨_, _, _, _, _, _, _, _, hlocals, rfl⟩ := exists_of_outline houtline
  exact {
    sound := h.sound
    labels := h.labels
    defined := h.defined
    pending := h.pending
    jumps := fun r hr => by
      obtain ⟨g, l, hg, hl, hjump⟩ := h.jumps r hr
      exact ⟨g, l, hg, hl, (hcode g (List.mem_of_getElem? hg)).trans hjump⟩
    sorted := h.sorted
    inCode := fun g hg => Nat.lt_of_lt_of_le (h.inCode g hg) hlen
    breaks := fun j hj => ⟨Nat.lt_of_lt_of_le (h.breaks j hj).1 hlen, (h.breaks j hj).2⟩
    ndecls := h.ndecls
    small := h.small
    locals := hlocals.trans h.locals
    here := h.here
    gotos := h.gotos
    labelsIn := fun l hl => (h.labelsIn l hl).trans hlen
    labelScopes := h.labelScopes }

/-! ## Growing code -/

def GrowsBy {γ : Type} (n : Nat) (place : γ → Nat) (xs ys : List γ) : Prop :=
  ∃ new, ys = xs ++ new ∧ ∀ x ∈ new, n ≤ place x

theorem GrowsBy.refl {γ : Type} (n : Nat) (place : γ → Nat) (xs : List γ) :
    GrowsBy n place xs xs := ⟨[], (List.append_nil xs).symm, fun _ h => nomatch h⟩

theorem GrowsBy.trans {γ : Type} {n n' : Nat} {place : γ → Nat} {xs ys zs : List γ}
    (h : GrowsBy n place xs ys) (h' : GrowsBy n' place ys zs) (hn : n ≤ n') :
    GrowsBy n place xs zs := by
  obtain ⟨new, rfl, hnew⟩ := h
  obtain ⟨new', rfl, hnew'⟩ := h'
  refine ⟨new ++ new', List.append_assoc _ _ _, fun x hx => ?_⟩
  rcases List.mem_append.mp hx with hx | hx
  · exact hnew x hx
  · exact Nat.le_trans hn (hnew' x hx)

theorem GrowsBy.mono {γ : Type} {n n' : Nat} {place : γ → Nat} {xs ys : List γ}
    (h : GrowsBy n' place xs ys) (hn : n ≤ n') : GrowsBy n place xs ys := by
  obtain ⟨new, hys, hnew⟩ := h
  exact ⟨new, hys, fun x hx => hn.trans (hnew x hx)⟩

theorem GrowsBy.snoc {γ : Type} {n : Nat} {place : γ → Nat} {xs ys : List γ} {y : γ}
    (h : GrowsBy n place xs ys) (hy : n ≤ place y) : GrowsBy n place xs (ys ++ [y]) :=
  h.trans ⟨[y], rfl, fun _ hx => List.mem_singleton.mp hx ▸ hy⟩ (Nat.le_refl n)

/-- What the lowering of statements adds; new functions satisfy `P`. -/
structure Grows (P : Proto α → Prop) (s t : LowerState α) : Prop where
  code : s.fs.code <+: t.fs.code
  gotos : GrowsBy s.fs.code.length Mark.pc s.fs.gotoMarks t.fs.gotoMarks
  pending : GrowsBy s.fs.code.length PendingGoto.jmpPc s.fs.pendingGotos t.fs.pendingGotos
  breaks : GrowsBy s.fs.code.length id s.fs.breakList t.fs.breakList
  locals : s.fs.locals.map Local.reg <+: t.fs.locals.map Local.reg
  declRegs : s.fs.declRegs <+: t.fs.declRegs
  labels : s.fs.labelMarks <+: t.fs.labelMarks
  protos : (∀ p ∈ s.fs.protos, P p) → ∀ p ∈ t.fs.protos, P p
  prev : t.prev.map FuncState.sealed = s.prev.map FuncState.sealed

namespace Grows

variable {P : Proto α → Prop} {s t v : LowerState α}

theorem refl (s : LowerState α) : Grows P s s where
  code := List.prefix_refl _
  gotos := .refl _ _ _
  pending := .refl _ _ _
  breaks := .refl _ _ _
  locals := List.prefix_refl _
  declRegs := List.prefix_refl _
  labels := List.prefix_refl _
  protos := id
  prev := rfl

theorem trans (h : Grows P s t) (h' : Grows P t v) : Grows P s v where
  code := h.code.trans h'.code
  gotos := h.gotos.trans h'.gotos h.code.length_le
  pending := h.pending.trans h'.pending h.code.length_le
  breaks := h.breaks.trans h'.breaks h.code.length_le
  locals := h.locals.trans h'.locals
  declRegs := h.declRegs.trans h'.declRegs
  labels := h.labels.trans h'.labels
  protos := fun hp => h'.protos (h.protos hp)
  prev := h'.prev.trans h.prev

end Grows

/-- From `s` on, the lowering has come to `t`, and the linker to `b`. -/
structure Reached (P : Proto α → Prop) (s t : LowerState α) (b : Linker) : Prop where
  sim : Simulates t.fs b
  grows : Grows P s t

def Spare (s t : LowerState α) (j : Nat) : Prop :=
  s.fs.code.length ≤ j ∧ j < t.fs.code.length ∧ ∀ g ∈ t.fs.gotoMarks, g.pc ≠ j

theorem Spare.trans {P : Proto α → Prop} {s t v : LowerState α} {j : Nat}
    (h : Spare s t j) (hg : Grows P t v) : Spare s v j := by
  obtain ⟨hle, hlt, hne⟩ := h
  refine ⟨hle, Nat.lt_of_lt_of_le hlt hg.code.length_le, fun g hmem => ?_⟩
  obtain ⟨new, hgotos, hnew⟩ := hg.gotos
  rw [hgotos] at hmem
  rcases List.mem_append.mp hmem with hmem | hmem
  · exact hne g hmem
  · exact Nat.ne_of_gt (Nat.lt_of_lt_of_le hlt (hnew g hmem))

namespace Reached

variable {P : Proto α → Prop} {s t v : LowerState α} {a b : Linker}

theorem refl (h : Simulates s.fs a) : Reached P s s a := ⟨h, .refl s⟩

theorem trans (h : Reached P s t a) (h' : Reached P t v b) : Reached P s v b :=
  ⟨h'.sim, h.grows.trans h'.grows⟩

theorem patch (h : Reached P s t b) (hf : Frame P s.fs.code.length t v)
    (hlen : t.fs.code.length ≤ v.fs.code.length)
    (hgoto : ∀ g ∈ t.fs.gotoMarks, v.fs.code[g.pc]? = t.fs.code[g.pc]?) :
    Reached P s v b := by
  obtain ⟨hcode, houtline, hprotos, hprev⟩ := hf
  have hsim := h.sim.recode houtline hlen hgoto
  obtain ⟨vfs, vprev⟩ := v
  obtain ⟨_, _, _, _, _, _, _, _, hlocals, rfl⟩ := exists_of_outline houtline
  refine ⟨hsim, { h.grows with code := ?_, locals := ?_, protos := ?_, prev := ?_ }⟩
  · have hs := List.prefix_iff_eq_take.mp h.grows.code
    rw [← hcode] at hs
    rw [hs]
    exact List.take_prefix _ _
  · rw [hlocals]
    exact h.grows.locals
  · exact fun hp => hprotos (h.grows.protos hp)
  · exact hprev.trans h.grows.prev

theorem frame (h : Reached P s t b) (hf : Frame P t.fs.code.length t v)
    (hlen : t.fs.code.length ≤ v.fs.code.length) : Reached P s v b := by
  have hcode : v.fs.code.take t.fs.code.length = t.fs.code := by
    rw [hf.code, List.take_length]
  refine h.patch ⟨?_, hf.outline, hf.protos, hf.prev⟩ hlen fun g hg => ?_
  · rw [← hcode, List.take_take, Nat.min_eq_left h.grows.code.length_le]
  · rw [← hcode, List.getElem?_take_of_lt (h.sim.inCode g hg)]

theorem keeps {m : Lower α β} {Q : β → Prop} {u : β} (h : Reached P s t b)
    (hm : m t = .ok (u, v)) (hk : ∀ n, (exprFrame P n).Yields m Q) :
    Reached P s v b ∧ Grows P t v ∧ v.fs.nactvar = t.fs.nactvar ∧ Q u := by
  obtain ⟨hlen, hframe, hQ⟩ := (hk t.fs.code.length).of_ok hm (Nat.le_refl _)
  exact ⟨h.frame hframe hlen, ((refl h.sim).frame hframe hlen).grows, hframe.nactvar, hQ⟩

theorem code {i : Instruction α} {j : Nat} (h : Reached P s t b)
    (hm : code i t = .ok (j, v)) :
    Reached P s v b ∧ Grows P t v ∧ v.fs.nactvar = t.fs.nactvar ∧ Spare s v j := by
  obtain ⟨hv, hgrows, hactive, -⟩ := h.keeps hm fun _ => (yields_code i).keeps
  refine ⟨hv, hgrows, hactive, ?_⟩
  cases hm
  refine ⟨h.grows.code.length_le, ?_, fun g hg => Nat.ne_of_lt (h.sim.inCode g hg)⟩
  show t.fs.code.length < (t.fs.code ++ [i]).length
  rw [List.length_append]
  exact Nat.lt_succ_self _

theorem fixed {j : Nat} (h : Reached P s t b) (hj : Spare s t j) (dest : Nat) :
    Reached P s ⟨t.fs.fixSbx j dest, t.prev⟩ b := by
  obtain ⟨hle, hlt, hne⟩ := hj
  have hkeeps := (keeps_fixSbx (P := P) hle dest).of_ok (s := t) rfl h.grows.code.length_le
  refine h.patch hkeeps.2.1 (Nat.le_of_eq (List.length_modify _ _ _).symm) fun g hg => ?_
  show (t.fs.code.modify j _)[g.pc]? = _
  have hother : j ≠ g.pc := Ne.symm (hne g hg)
  rw [List.getElem?_modify]
  simp only [hother, if_false, id_map']

theorem fixAll {jumps : List Nat} (h : Reached P s t b) (hj : ∀ j ∈ jumps, Spare s t j)
    (dest : Nat) : ∃ v, Lowering.fixAll jumps dest t = .ok ((), v) ∧ Reached P s v b ∧
      v.fs.nactvar = t.fs.nactvar ∧ v.fs.freereg = t.fs.freereg := by
  induction jumps generalizing t with
  | nil => exact ⟨t, rfl, h, rfl, rfl⟩
  | cons j jumps ih =>
      have hspare := hj j List.mem_cons_self
      have hstep := h.fixed hspare dest
      obtain ⟨v, hm, hv, hactive, hfree⟩ := ih hstep fun j' hj' => by
        obtain ⟨hle, hlt, hne⟩ := hj j' (List.mem_cons_of_mem _ hj')
        refine ⟨hle, ?_, hne⟩
        show j' < (t.fs.code.modify j _).length
        rwa [List.length_modify]
      exact ⟨v, bind_ok.mpr ⟨(), _, rfl, hm⟩, hv, hactive, hfree⟩

theorem foldl_fixSbx {jumps : List Nat} (h : Reached P s t b) (hj : ∀ j ∈ jumps, Spare s t j)
    (dest : Nat) :
    Reached P s ⟨jumps.foldl (·.fixSbx · dest) t.fs, t.prev⟩ b := by
  induction jumps generalizing t with
  | nil => exact h
  | cons j jumps ih =>
      refine ih (h.fixed (hj j List.mem_cons_self) dest) fun j' hj' => ?_
      obtain ⟨hle, hlt, hne⟩ := hj j' (List.mem_cons_of_mem _ hj')
      refine ⟨hle, ?_, hne⟩
      show j' < (t.fs.code.modify j _).length
      rwa [List.length_modify]

theorem foldl_fixSbx_eq (jumps : List Nat) (dest : Nat) (fs : FuncState α) :
    ∃ code, jumps.foldl (·.fixSbx · dest) fs = { fs with code } := by
  induction jumps generalizing fs with
  | nil => exact ⟨fs.code, rfl⟩
  | cons j jumps ih =>
      obtain ⟨code, hcode⟩ := ih (fs.fixSbx j dest)
      exact ⟨code, hcode⟩

theorem fixBreaks_eq (fs : FuncState α) (n dest : Nat) :
    ∃ code, fs.fixBreaks n dest = { fs with code, breakList := fs.breakList.take n } := by
  obtain ⟨code, hcode⟩ := foldl_fixSbx_eq (fs.breakList.drop n) dest fs
  refine ⟨code, ?_⟩
  rw [FuncState.fixBreaks, hcode]

theorem fixBreaks {breaks : List Nat} (h : Reached P s t b)
    (hold : GrowsBy s.fs.code.length id s.fs.breakList breaks)
    (hnew : GrowsBy s.fs.code.length id breaks t.fs.breakList) (dest : Nat) :
    Reached P s ⟨t.fs.fixBreaks breaks.length dest, t.prev⟩ b := by
  obtain ⟨new, hbreaks, hnew⟩ := hnew
  have hdrop : t.fs.breakList.drop breaks.length = new := by
    rw [hbreaks, List.drop_left]
  have htake : t.fs.breakList.take breaks.length = breaks := by
    rw [hbreaks, List.take_left]
  have hspare : ∀ j ∈ t.fs.breakList.drop breaks.length, Spare s t j := by
    intro j hj
    have hin := h.sim.breaks j (List.mem_of_mem_drop hj)
    rw [hdrop] at hj
    exact ⟨hnew j hj, hin.1, hin.2⟩
  obtain ⟨hsim, hgrows⟩ := h.foldl_fixSbx hspare dest
  constructor
  · refine { hsim with breaks := fun j hj => ?_ }
    refine hsim.breaks j ?_
    obtain ⟨code, hcode⟩ := foldl_fixSbx_eq (t.fs.breakList.drop breaks.length) dest t.fs
    rw [hcode]
    exact List.mem_of_mem_take hj
  · refine { hgrows with breaks := ?_ }
    show GrowsBy _ _ _ (t.fs.breakList.take _)
    rw [htake]
    exact hold

theorem loops (h : Reached P s t b) (loopBreakLevel : List Nat) :
    Reached P s ⟨{ t.fs with loopBreakLevel }, t.prev⟩ b :=
  ⟨{ h.sim with }, { h.grows with }⟩

end Reached

end Luatier.Lowering
