import Luatier.Frontend.GotoBlocks

/-!
# Functions and the linker

Every function of a chunk is linked, the main function and those inside others.
-/

namespace Luatier.Lowering

open StateFrame

variable {α β : Type} {P : Proto α → Prop} {s t v : LowerState α} {a b : Linker}

/-- `Q` holds of a function and of all functions inside it. -/
inductive Proto.All (Q : Proto α → Prop) : Proto α → Prop
  | intro (p : Proto α) (self : Q p) (inner : ∀ q ∈ p.protos, All Q q) : All Q p

/-- A function is the other one or inside it. -/
inductive Proto.Within : Proto α → Proto α → Prop
  | self (p : Proto α) : Within p p
  | inner {p q r : Proto α} (child : q ∈ r.protos) (within : Within p q) : Within p r

theorem Proto.All.within {Q : Proto α → Prop} {p r : Proto α} (h : r.All Q)
    (hp : p.Within r) : Q p := by
  induction hp with
  | self =>
      obtain ⟨_, hself, -⟩ := h
      exact hself
  | inner child _ ih =>
      obtain ⟨_, -, hinner⟩ := h
      exact ih (hinner _ child)

structure Proto.LinkedBy (p : Proto α) (a : Linker) : Prop where
  run : Linker.run (functionEvents p.numparams p.body) {} = some a
  waiting : a.waiting = []
  jumps : ∀ r ∈ a.resolved, ∃ g l, p.gotoMarks[r.1]? = some g ∧
    p.labelMarks[r.2]? = some l ∧ p.code[g.pc]? = some (jumpTo g l)
  small : ∀ r ∈ p.declRegs, r < maxStack
  gotos : List.Forall₂ (fun m entry => MarkScope p.declRegs m.nactvar entry.scope ∧
    Ordered p.labelMarks m entry.seen) p.gotoMarks a.gotos
  labels : List.Forall₂ (fun m scope => MarkScope p.declRegs m.nactvar scope)
    p.labelMarks a.labelScopes
  inCode : ∀ g ∈ p.gotoMarks, g.pc < p.code.length
  labelsIn : ∀ l ∈ p.labelMarks, l.pc < p.code.length

def Proto.Linked (p : Proto α) : Prop := ∃ a, p.LinkedBy a

theorem Reached.pushParams (params : List Name) : ∀ {t b}, Reached P s t b → t.fs.Tidy →
    pushParams params t = .ok ((), v) →
    Reached P s v (b.declare params.length) ∧ v.fs.Tidy := by
  induction params with
  | nil =>
      intro t b h htidy hm
      cases hm
      rw [List.length_nil, Linker.declare_zero]
      exact ⟨h, htidy⟩
  | cons param params ih =>
      intro t b h htidy hm
      obtain ⟨r, t₁, hreg, hm⟩ := bind_ok.mp hm
      obtain ⟨h₁, -, hactive, -⟩ := h.keeps hreg fun _ => keeps_newReg
      obtain ⟨rfl, rfl, hlimit⟩ := newReg_ok hreg
      obtain ⟨_, t₂, hpush, hm⟩ := bind_ok.mp hm
      obtain ⟨-, rfl⟩ := pushLocal_ok hpush
      have h₂ := h₁.addLocal param (hactive.le.trans htidy)
        (Nat.lt_of_succ_le (hlimit.trans (Nat.sub_le _ _)))
      obtain ⟨hv, htidy'⟩ := ih h₂ (Nat.le_max_right _ _) hm
      rw [Linker.declare_declare, Nat.add_comm] at hv
      exact ⟨hv, htidy'⟩

theorem simulates_start (upvalues : List UpvalDesc) :
    Simulates ({ upvalues } : FuncState α) {} where
  sound := List.Perm.refl []
  labels _ := rfl
  defined _ h := nomatch h
  pending := .nil
  jumps _ h := nomatch h
  sorted := .nil
  inCode _ h := nomatch h
  breaks _ h := nomatch h
  ndecls := rfl
  small _ h := nomatch h
  locals := rfl
  here := ⟨fun _ h => (nomatch h), .nil, rfl⟩
  gotos := .nil
  labelsIn _ h := nomatch h
  labelScopes := .nil

theorem patchPending_ok {gs : List PendingGoto} {u : Unit}
    (hnone : ∀ name, s.fs.labels.lookup name = none)
    (hm : patchPending gs s = .ok (u, t)) : gs = [] ∧ t = s := by
  cases gs with
  | nil =>
      cases hm
      exact ⟨rfl, rfl⟩
  | cons g gs =>
      obtain ⟨_, _, hget, hm⟩ := bind_ok.mp hm
      cases hget
      rw [hnone] at hm
      exact nomatch hm

theorem functionBody_ok (upvalues : List UpvalDesc) (isVararg : Bool)
    {prev : List (FuncState α)} {params : List Name} {body : Block} {emit : Lower α Unit}
    (he : Emits (Proto.All Proto.Linked) emit (body.labelEvents true))
    (hm : functionBody params emit ⟨{ upvalues }, prev⟩ = .ok ((), t)) :
    (t.fs.proto params.length isVararg body).All Proto.Linked ∧
      t.prev.map FuncState.sealed = prev.map FuncState.sealed := by
  let s : LowerState α := ⟨{ upvalues }, prev⟩
  have hstart := Reached.refl (P := Proto.All Proto.Linked) (s := s) (simulates_start upvalues)
  obtain ⟨_, s₁, hparams, hm⟩ := bind_ok.mp hm
  obtain ⟨h₁, htidy₁⟩ := hstart.pushParams params (Nat.le_refl 0) hparams
  obtain ⟨_, s₂, hbody, hm⟩ := bind_ok.mp hm
  obtain ⟨a, hrun, h₂, -, -, hblocks, -⟩ := h₁.emits hbody he htidy₁
  have hnone : ∀ name, s₂.fs.labels.lookup name = none := by
    intro name
    rw [h₂.sim.labels, Linker.seen, hblocks]
    rfl
  obtain ⟨_, _, hget, hm⟩ := bind_ok.mp hm
  cases hget
  obtain ⟨_, s₃, hpatch, hm⟩ := bind_ok.mp hm
  obtain ⟨hpending, hs₃⟩ := patchPending_ok hnone hpatch
  rw [hs₃] at hm
  have hwaiting : a.waiting = [] := by
    have hlen := h₂.sim.pending.length_eq
    rw [hpending] at hlen
    exact List.length_eq_zero_iff.mp hlen.symm
  obtain ⟨h₃, -⟩ := h₂.keeps hm fun _ => keeps_code _
  have hlonger : s₂.fs.code.length < t.fs.code.length := by
    cases hm
    show _ < (s₂.fs.code ++ [_]).length
    rw [List.length_append]
    exact Nat.lt_succ_self _
  have hmarks : t.fs.labelMarks = s₂.fs.labelMarks := by
    cases hm
    rfl
  refine ⟨⟨_, ⟨a, ?_⟩, ?_⟩, h₃.grows.prev⟩
  · exact {
      run := hrun
      waiting := hwaiting
      jumps := h₃.sim.jumps
      small := h₃.sim.small
      gotos := h₃.sim.gotos
      labels := h₃.sim.labelScopes
      inCode := h₃.sim.inCode
      labelsIn := fun l hl => by
        change l ∈ t.fs.labelMarks at hl
        rw [hmarks] at hl
        exact Nat.lt_of_le_of_lt (h₂.sim.labelsIn l hl) hlonger }
  · exact h₃.grows.protos fun _ h => absurd h List.not_mem_nil

theorem quiet_function {params : List Name} {isVararg : Bool} {body : Block}
    {emit : Lower α Unit} (he : Emits (Proto.All Proto.Linked) emit (body.labelEvents true))
    (n : Nat) : Quiet (Proto.All Proto.Linked) n (lowerFunction params isVararg body emit) := by
  intro s e t hs hm
  obtain ⟨⟨_, fs⟩, s₁, hchild, hm⟩ := bind_ok.mp hm
  obtain ⟨⟨_, child⟩, hbody, hchild⟩ := except_bind_ok.mp hchild
  cases hchild
  obtain ⟨hlinked, hprev⟩ :=
    functionBody_ok [] isVararg he hbody
  -- The functions around have been given upvalues and constants at most.
  have hsealed : LowerState.sealed ⟨child.prev.headD s.fs, child.prev.tail⟩ = s.sealed := by
    cases hp : child.prev with
    | nil => rw [hp] at hprev; exact nomatch hprev
    | cons parent rest => rw [hp] at hprev; exact hprev
  obtain ⟨hs₁, hframe⟩ := frame_of_sealed (P := Proto.All Proto.Linked) hsealed hs
  have hproto : (exprFrame (Proto.All Proto.Linked) n).Keeps (modifyFs fun fs =>
      { fs with protos := fs.protos ++ [child.fs.proto params.length isVararg body] }) := by
    refine keeps_modifyFs (fun _ h => ⟨h, rfl⟩) (fun _ => rfl) fun fs hp q hq => ?_
    rcases List.mem_append.mp hq with hq | hq
    · exact hp q hq
    · rw [List.mem_singleton.mp hq]
      exact hlinked
  have hrest : Quiet (Proto.All Proto.Linked) n (do
      modifyFs fun fs =>
        { fs with protos := fs.protos ++ [child.fs.proto params.length isVararg body] }
      let dest ← newReg
      discard (codeAbx .closure dest ((← getFs).protos.length - 1))
      return .nonrelocable dest) :=
    hproto.andThen fun _ => keeps_newReg.andThen fun _ =>
      (yields_getFs fun _ => trivial).andThen fun _ => (keeps_code _).andThen fun _ =>
      yields_pure rfl
  obtain ⟨ht, hrel, hQ⟩ := hrest _ e t hs₁ hm
  exact ⟨ht, (exprFrame _ n).trans hframe hrel, hQ⟩

end Luatier.Lowering
