import Luatier.Frontend.Lowering
import Luatier.Lib.StateFrame

/-!
# What the lowering of expressions keeps

An expression adds instructions after those that are there, and changes nothing
that statements rely on.  In the functions around it, it only adds upvalues and
constants and captures locals.
-/

namespace Luatier.Lowering

variable {α β γ : Type}

def FuncState.sealed (fs : FuncState α) : FuncState α :=
  { fs with
    constants := []
    upvalues := []
    locals := fs.locals.map fun l => { l with captured := false } }

def FuncState.uncoded (fs : FuncState α) : FuncState α :=
  { fs with code := [], protos := [], freereg := 0, maxstack := 0, regHwm := 0 }

def FuncState.outline (fs : FuncState α) : FuncState α := fs.sealed.uncoded

structure Frame (P : Proto α → Prop) (n : Nat) (s s' : LowerState α) : Prop where
  code : s'.fs.code.take n = s.fs.code.take n
  outline : s'.fs.outline = s.fs.outline
  protos : (∀ p ∈ s.fs.protos, P p) → ∀ p ∈ s'.fs.protos, P p
  prev : s'.prev.map FuncState.sealed = s.prev.map FuncState.sealed

def exprFrame (P : Proto α → Prop) (n : Nat) : StateFrame (LowerState α) where
  Inv s := n ≤ s.fs.code.length
  Rel := Frame P n
  refl _ := ⟨rfl, rfl, id, rfl⟩
  trans h h' := ⟨h'.code.trans h.code, h'.outline.trans h.outline,
    fun hp => h'.protos (h.protos hp), h'.prev.trans h.prev⟩

def Expdesc.isCall : Expdesc → Bool
  | .call _ => true
  | _ => false

section Primitives

variable {P : Proto α → Prop} {n : Nat}

theorem yields_getFs {Q : FuncState α → Prop} (h : ∀ fs, Q fs) :
    (exprFrame P n).Yields getFs Q := by
  intro s fs s' hs hm
  cases hm
  exact ⟨hs, (exprFrame P n).refl s, h _⟩

theorem keeps_modifyFs {f : FuncState α → FuncState α}
    (hcode : ∀ fs, n ≤ fs.code.length →
      n ≤ (f fs).code.length ∧ (f fs).code.take n = fs.code.take n)
    (houtline : ∀ fs, (f fs).outline = fs.outline)
    (hprotos : ∀ fs, (∀ p ∈ fs.protos, P p) → ∀ p ∈ (f fs).protos, P p) :
    (exprFrame P n).Keeps (modifyFs f) := by
  intro s u s' hs hm
  cases hm
  obtain ⟨hlen, htake⟩ := hcode s.fs hs
  exact ⟨hlen, ⟨htake, houtline s.fs, hprotos s.fs, rfl⟩, trivial⟩

theorem keeps_regs {f : FuncState α → FuncState α} (hcode : ∀ fs, (f fs).code = fs.code)
    (houtline : ∀ fs, (f fs).outline = fs.outline)
    (hprotos : ∀ fs, (f fs).protos = fs.protos) :
    (exprFrame P n).Keeps (modifyFs f) :=
  keeps_modifyFs (fun fs h => by rw [hcode]; exact ⟨h, rfl⟩) houtline
    fun fs h => by rw [hprotos]; exact h

theorem keeps_setFreereg (r : Nat) : (exprFrame P n).Keeps (setFreereg r) :=
  keeps_regs (fun _ => rfl) (fun _ => rfl) fun _ => rfl

theorem keeps_checkLimit (v limit : Nat) (what : String) :
    (exprFrame P n).Keeps (checkLimit v limit what) :=
  StateFrame.yields_ite (fun _ => StateFrame.keeps_throw _) fun _ => StateFrame.keeps_pure _

theorem keeps_reserve (k : Nat) : (exprFrame P n).Keeps (reserve k) := by
  have hregs : (exprFrame P n).Keeps (modifyFs (·.reserved k)) :=
    keeps_regs (fun _ => rfl) (fun _ => rfl) fun _ => rfl
  exact hregs.andThen fun _ =>
    (yields_getFs fun _ => trivial).andThen fun _ => keeps_checkLimit _ _ _

theorem keeps_newReg : (exprFrame P n).Keeps newReg :=
  (yields_getFs fun _ => trivial).andThen fun _ =>
    (keeps_reserve 1).andThen fun _ => StateFrame.keeps_pure _

theorem yields_code (i : Instruction α) : (exprFrame P n).Yields (code i) (n ≤ ·) := by
  intro s j s' hs hm
  cases hm
  refine ⟨?_, ⟨?_, rfl, id, rfl⟩, hs⟩
  · show n ≤ (s.fs.code ++ [i]).length
    rw [List.length_append]
    exact Nat.le_add_right_of_le hs
  · exact List.take_append_of_le_length hs

theorem keeps_code (i : Instruction α) : (exprFrame P n).Keeps (discard (code i)) :=
  (yields_code i).discard

theorem keeps_fixSbx {pc : Nat} (h : n ≤ pc) (dest : Nat) :
    (exprFrame P n).Keeps (fixSbx pc dest) := by
  refine keeps_modifyFs (fun fs hn => ⟨?_, ?_⟩) (fun _ => rfl) fun _ => id
  · show n ≤ (fs.code.modify pc _).length
    rwa [List.length_modify]
  · refine List.ext_getElem? fun i => ?_
    show ((fs.code.modify pc _).take n)[i]? = _
    rw [List.getElem?_take, List.getElem?_take, List.getElem?_modify]
    by_cases hi : i < n
    · have hne : pc ≠ i := by omega
      rw [if_pos hi, if_pos hi]
      simp only [hne, if_false, id_map']
    · rw [if_neg hi, if_neg hi]

theorem constIndex_ok {k : Const} {s s' : LowerState α} {i : Nat}
    (h : constIndex k s = .ok (i, s')) :
    ∃ constants, s' = ⟨{ s.fs with constants }, s.prev⟩ := by
  obtain ⟨fs, t, hfs, h⟩ := StateFrame.bind_ok.mp h
  cases hfs
  obtain ⟨u, t, hu, h⟩ := StateFrame.bind_ok.mp h
  cases h
  cases hu
  show ∃ constants, LowerState.mk (s.fs.constIndex k).2 s.prev = _
  unfold FuncState.constIndex
  split
  · exact ⟨s.fs.constants, rfl⟩
  · exact ⟨s.fs.constants ++ [k], rfl⟩

theorem keeps_constIndex (k : Const) : (exprFrame P n).Keeps (constIndex k) := by
  intro s i s' hs hm
  obtain ⟨constants, rfl⟩ := constIndex_ok hm
  exact ⟨hs, ⟨rfl, rfl, id, rfl⟩, trivial⟩

theorem keeps_moveTo (dest reg : Nat) : (exprFrame P n).Keeps (moveTo dest reg) :=
  StateFrame.yields_ite (fun _ => StateFrame.keeps_pure _) fun _ => keeps_code _

theorem keeps_stringK (s : String) : (exprFrame P n).Keeps (stringK s) := keeps_constIndex _

end Primitives

/-! ## Variables -/

section Variables

/-- All functions that are being lowered, without upvalues and constants. -/
def LowerState.sealed (s : LowerState α) : List (FuncState α) :=
  (s.fs :: s.prev).map FuncState.sealed

theorem FuncState.sealed_capture (fs : FuncState α) (reg : Nat) :
    (fs.capture reg).sealed = fs.sealed := by
  have hlocals : (fs.capture reg).locals.map (fun l => { l with captured := false }) =
      fs.locals.map fun l => { l with captured := false } := by
    rw [FuncState.capture, List.map_map]
    refine List.map_congr_left fun l _ => ?_
    show ({ (if l.reg == reg then _ else l : Local) with captured := false } : Local) = _
    cases l.reg == reg <;> rfl
  exact congrArg (fun ls => { fs.sealed with locals := ls }) hlocals

theorem addUpval_ok {name : Name} {instack : Bool} {idx i : Nat} {s s' : LowerState α}
    (h : addUpval name instack idx s = .ok (i, s')) : s'.sealed = s.sealed := by
  rw [addUpval] at h
  split at h
  · cases h
    rfl
  · split at h
    · exact nomatch h
    · cases h
      show _ :: List.map _ _ = _ :: List.map _ _
      congr 1
      cases s.prev with
      | nil => rfl
      | cons parent rest =>
          cases instack with
          | true => exact congrArg (· :: rest.map FuncState.sealed) (parent.sealed_capture idx)
          | false => rfl

theorem inParent_ok {fs parent : FuncState α} {rest : List (FuncState α)}
    {f : LowerState α → Except LowerError (β × LowerState α)} {b : β} {s' : LowerState α}
    (h : inParent fs parent rest f = .ok (b, s')) :
    ∃ t, f ⟨parent, rest⟩ = .ok (b, t) ∧ s' = ⟨fs, t.fs :: t.prev⟩ := by
  rw [inParent] at h
  cases hf : f ⟨parent, rest⟩ with
  | error e => rw [hf] at h; exact nomatch h
  | ok r =>
      obtain ⟨b', t⟩ := r
      rw [hf] at h
      cases h
      exact ⟨t, rfl, rfl⟩

theorem sealed_inParent (fs : FuncState α) {parent : FuncState α} {rest : List (FuncState α)}
    {t : LowerState α} (h : t.sealed = LowerState.sealed ⟨parent, rest⟩) :
    LowerState.sealed ⟨fs, t.fs :: t.prev⟩ = LowerState.sealed ⟨fs, parent :: rest⟩ :=
  congrArg (fs.sealed :: ·) h

theorem ensureEnvUpvalIn_ok (prev : List (FuncState α)) : ∀ {fs : FuncState α} {i : Nat}
    {s' : LowerState α}, ensureEnvUpvalIn prev fs = .ok (i, s') →
      s'.sealed = LowerState.sealed ⟨fs, prev⟩ := by
  induction prev with
  | nil =>
      intro fs i s' h
      rw [ensureEnvUpvalIn] at h
      split at h
      · cases h
        rfl
      · exact nomatch h
  | cons parent rest ih =>
      intro fs i s' h
      rw [ensureEnvUpvalIn] at h
      split at h
      · cases h
        rfl
      · dsimp only at h
        split at h
        · exact addUpval_ok h
        · split at h
          · exact addUpval_ok h
          · obtain ⟨⟨j, t⟩, ht, h⟩ := StateFrame.except_bind_ok.mp h
            obtain ⟨v, hv, rfl⟩ := inParent_ok ht
            exact (addUpval_ok h).trans (sealed_inParent _ (ih hv))

theorem sealed_of_constIndex {k : Const} {s s' : LowerState α} {i : Nat}
    (h : constIndex k s = .ok (i, s')) : s'.sealed = s.sealed := by
  obtain ⟨constants, rfl⟩ := constIndex_ok h
  rfl

theorem globalVar_ok {name : Name} {s s' : LowerState α} {e : Expdesc}
    (h : globalVar name s = .ok (e, s')) : s'.sealed = s.sealed ∧ e.isCall = false := by
  obtain ⟨fs, t, hfs, h⟩ := StateFrame.bind_ok.mp h
  cases hfs
  cases hlocal : s.fs.findLocal "_ENV" with
  | some table =>
    simp only [hlocal] at h
    obtain ⟨k, t, hk, h⟩ := StateFrame.bind_ok.mp h
    cases h
    exact ⟨sealed_of_constIndex hk, rfl⟩
  | none =>
    simp only [hlocal] at h
    obtain ⟨u, t, henv, h⟩ := StateFrame.bind_ok.mp h
    obtain ⟨i, henv, -⟩ := StateFrame.map_ok.mp henv
    obtain ⟨k, v, hk, h⟩ := StateFrame.bind_ok.mp h
    cases h
    exact ⟨(sealed_of_constIndex hk).trans (ensureEnvUpvalIn_ok _ henv), rfl⟩

theorem searchVarIn_ok {name : Name} (prev : List (FuncState α)) : ∀ {fs : FuncState α}
    {e : Expdesc} {s' : LowerState α}, searchVarIn name prev fs = .ok (e, s') →
      s'.sealed = LowerState.sealed ⟨fs, prev⟩ ∧ e.isCall = false := by
  induction prev with
  | nil =>
      intro fs e s' h
      rw [searchVarIn] at h
      split at h
      · cases h
        exact ⟨rfl, rfl⟩
      · split at h
        · cases h
          exact ⟨rfl, rfl⟩
        · exact globalVar_ok h
  | cons parent rest ih =>
      intro fs e s' h
      rw [searchVarIn] at h
      split at h
      · cases h
        exact ⟨rfl, rfl⟩
      · split at h
        · cases h
          exact ⟨rfl, rfl⟩
        · obtain ⟨⟨pe, t⟩, ht, h⟩ := StateFrame.except_bind_ok.mp h
          obtain ⟨v, hv, rfl⟩ := inParent_ok ht
          have hparent := sealed_inParent fs (ih hv).1
          dsimp only at h
          split at h
          · obtain ⟨⟨i, w⟩, hi, h⟩ := StateFrame.except_bind_ok.mp h
            cases h
            exact ⟨(addUpval_ok hi).trans hparent, rfl⟩
          · obtain ⟨⟨i, w⟩, hi, h⟩ := StateFrame.except_bind_ok.mp h
            cases h
            exact ⟨(addUpval_ok hi).trans hparent, rfl⟩
          · obtain ⟨hglobal, hcall⟩ := globalVar_ok h
            exact ⟨hglobal.trans hparent, hcall⟩

variable {P : Proto α → Prop} {n : Nat}

theorem frame_of_sealed {s s' : LowerState α} (h : s'.sealed = s.sealed)
    (hs : n ≤ s.fs.code.length) : n ≤ s'.fs.code.length ∧ Frame P n s s' := by
  obtain ⟨hfs, hprev⟩ := List.cons_eq_cons.mp h
  have hcode : s'.fs.sealed.code = s.fs.sealed.code := congrArg FuncState.code hfs
  have hprotos : s'.fs.sealed.protos = s.fs.sealed.protos := congrArg FuncState.protos hfs
  have houtline : s'.fs.outline = s.fs.outline := congrArg FuncState.uncoded hfs
  change s'.fs.code = s.fs.code at hcode
  change s'.fs.protos = s.fs.protos at hprotos
  refine ⟨?_, ?_, houtline, fun hp => ?_, hprev⟩
  · rwa [hcode]
  · rw [hcode]
  · rwa [hprotos]

theorem yields_of_sealed {m : Lower α β} {Q : β → Prop}
    (h : ∀ {s b s'}, m s = .ok (b, s') → s'.sealed = s.sealed ∧ Q b) :
    (exprFrame P n).Yields m Q := by
  intro s b s' hs hm
  obtain ⟨hsealed, hQ⟩ := h hm
  obtain ⟨hs', hframe⟩ := frame_of_sealed hsealed hs
  exact ⟨hs', hframe, hQ⟩

theorem yields_searchVar (name : Name) :
    (exprFrame P n).Yields (searchVar name) fun e => e.isCall = false :=
  yields_of_sealed fun h => searchVarIn_ok _ h

theorem keeps_ensureEnvUpval : (exprFrame P n).Keeps ensureEnvUpval :=
  yields_of_sealed fun h => ⟨ensureEnvUpvalIn_ok _ h, trivial⟩

end Variables

end Luatier.Lowering
