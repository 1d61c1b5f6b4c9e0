import Luatier.Frontend.Meaning
import Luatier.Lib.Ensures

/-!
# Code that has been lowered

What an expression leaves of the state it is lowered in, and where its code is
found in the function that is run.
-/

namespace Luatier.Lowering

variable {α β : Type} {s : LowerState α}

/-! ## Steps of the lowering -/

section Steps

@[simp] theorem ensures_getFs {Q : FuncState α → LowerState α → Prop} :
    Ensures getFs s Q ↔ Q s.fs s := by
  constructor
  · exact fun h => h _ _ rfl
  · rintro h _ _ hm
    cases hm
    exact h

@[simp] theorem ensures_modifyFs {f : FuncState α → FuncState α}
    {Q : Unit → LowerState α → Prop} :
    Ensures (modifyFs f) s Q ↔ Q () { s with fs := f s.fs } := by
  constructor
  · exact fun h => h _ _ rfl
  · rintro h _ _ hm
    cases hm
    exact h

@[simp] theorem ensures_code {i : Instruction α} {Q : Nat → LowerState α → Prop} :
    Ensures (code i) s Q ↔ Q s.fs.pc { s with fs := s.fs.emit i } := by
  simp [code]

@[simp] theorem ensures_codeAbc {op : OpCode} {a b c : Nat}
    {Q : Nat → LowerState α → Prop} :
    Ensures (codeAbc op a b c) s Q ↔
      Q s.fs.pc { s with fs := s.fs.emit (encodeAbc op a b c) } :=
  ensures_code

@[simp] theorem ensures_codeAbx {op : OpCode} {a bx : Nat}
    {Q : Nat → LowerState α → Prop} :
    Ensures (codeAbx op a bx) s Q ↔
      Q s.fs.pc { s with fs := s.fs.emit (encodeAbx op a bx) } :=
  ensures_code

@[simp] theorem ensures_codeAsbx {op : OpCode} {a : Nat} {sbx : Int}
    {Q : Nat → LowerState α → Prop} :
    Ensures (codeAsbx op a sbx) s Q ↔
      Q s.fs.pc { s with fs := s.fs.emit (encodeAsbx op a sbx) } :=
  ensures_code

@[simp] theorem ensures_fixSbx {pc dest : Nat} {Q : Unit → LowerState α → Prop} :
    Ensures (fixSbx pc dest) s Q ↔ Q () { s with fs := s.fs.fixSbx pc dest } :=
  ensures_modifyFs

@[simp] theorem ensures_setFreereg {n : Nat} {Q : Unit → LowerState α → Prop} :
    Ensures (setFreereg n) s Q ↔ Q () { s with fs := s.fs.setFreereg n } :=
  ensures_modifyFs

@[simp] theorem ensures_reserve {n : Nat} {Q : Unit → LowerState α → Prop} :
    Ensures (reserve n) s Q ↔
      (s.fs.freereg + n ≤ maxStack - 1 → Q () { s with fs := s.fs.reserved n }) := by
  simp [reserve, checkLimit, FuncState.reserved]

@[simp] theorem ensures_newReg {Q : Nat → LowerState α → Prop} :
    Ensures newReg s Q ↔
      (s.fs.freereg + 1 ≤ maxStack - 1 → Q s.fs.freereg { s with fs := s.fs.reserved 1 }) := by
  simp [newReg]

@[simp] theorem ensures_moveTo {dest reg : Nat} {Q : Unit → LowerState α → Prop} :
    Ensures (moveTo dest reg) s Q ↔
      (reg = dest → Q () s) ∧
      (reg ≠ dest → Q () { s with fs := s.fs.emit (encodeAbc .move dest reg 0) }) := by
  simp [moveTo]

end Steps

@[simp] theorem freereg_setFreereg (fs : FuncState α) (n : Nat) :
    (fs.setFreereg n).freereg = n := rfl

@[simp] theorem freereg_reserved (fs : FuncState α) (n : Nat) :
    (fs.reserved n).freereg = fs.freereg + n := rfl

@[simp] theorem freereg_emit (fs : FuncState α) (i : Instruction α) :
    (fs.emit i).freereg = fs.freereg := rfl

/-! ## What an expression leaves -/

def FuncState.rest (fs : FuncState α) : FuncState α :=
  { fs with code := [], constants := [], freereg := 0, maxstack := 0, regHwm := 0 }

/-- Code and constants are added, and nothing else changes but counts of registers. -/
structure Extends (s s' : LowerState α) : Prop where
  code : s.fs.code <+: s'.fs.code
  constants : s.fs.constants <+: s'.fs.constants
  rest : s'.fs.rest = s.fs.rest
  maxstack : s.fs.maxstack ≤ s'.fs.maxstack
  prev : s'.prev = s.prev

namespace Extends

variable {t u : LowerState α}

theorem refl (s : LowerState α) : Extends s s :=
  ⟨List.prefix_rfl, List.prefix_rfl, rfl, Nat.le_refl _, rfl⟩

theorem trans (h : Extends s t) (h' : Extends t u) : Extends s u where
  code := h.code.trans h'.code
  constants := h.constants.trans h'.constants
  rest := h'.rest.trans h.rest
  maxstack := h.maxstack.trans h'.maxstack
  prev := h'.prev.trans h.prev

theorem locals (h : Extends s t) : t.fs.locals = s.fs.locals :=
  (congrArg FuncState.locals h.rest : t.fs.rest.locals = s.fs.rest.locals)

theorem nactvar (h : Extends s t) : t.fs.nactvar = s.fs.nactvar :=
  (congrArg FuncState.nactvar h.rest : t.fs.rest.nactvar = s.fs.rest.nactvar)

theorem upvalues (h : Extends s t) : t.fs.upvalues = s.fs.upvalues :=
  (congrArg FuncState.upvalues h.rest : t.fs.rest.upvalues = s.fs.rest.upvalues)

theorem pc (h : Extends s t) : s.fs.pc ≤ t.fs.pc := h.code.length_le

theorem emit (h : Extends s t) (i : Instruction α) :
    Extends s { t with fs := t.fs.emit i } :=
  h.trans ⟨List.prefix_append _ _, List.prefix_rfl, rfl, Nat.le_refl _, rfl⟩

theorem setFreereg (h : Extends s t) (n : Nat) :
    Extends s { t with fs := t.fs.setFreereg n } :=
  h.trans ⟨List.prefix_rfl, List.prefix_rfl, rfl, Nat.le_refl _, rfl⟩

theorem reserved (h : Extends s t) (n : Nat) :
    Extends s { t with fs := t.fs.reserved n } :=
  h.trans ⟨List.prefix_rfl, List.prefix_rfl, rfl, Nat.le_max_left _ _, rfl⟩

end Extends

/-- The main function, whose only upvalue is `_ENV`. -/
structure Ready (s : LowerState α) : Prop where
  main : s.prev = []
  env : s.fs.findUpval "_ENV" = some 0
  only : ∀ name, name ≠ "_ENV" → s.fs.findUpval name = none
  locals : ∀ l ∈ s.fs.locals, l.reg < s.fs.nactvar
  free : s.fs.nactvar ≤ s.fs.freereg
  active : s.fs.nactvar ≤ s.fs.maxstack

theorem Ready.extends {t : LowerState α} (h : Ready s) (he : Extends s t)
    (hfree : s.fs.freereg ≤ t.fs.freereg) : Ready t where
  main := he.prev.trans h.main
  env := by rw [FuncState.findUpval, he.upvalues]; exact h.env
  only name hname := by rw [FuncState.findUpval, he.upvalues]; exact h.only name hname
  locals l hl := by
    rw [he.locals] at hl
    rw [he.nactvar]
    exact h.locals l hl
  free := by
    rw [he.nactvar]
    exact h.free.trans hfree
  active := by
    rw [he.nactvar]
    exact h.active.trans he.maxstack

/-! ## The function that is run -/

/-- Code and constants of a function that its instructions can address. -/
structure Small (p : Proto α) : Prop where
  code : p.code.length ≤ 32767
  constants : p.constants.length ≤ 65536
  maxstack : p.maxstack ≤ 200

/-- The code from `lo` to `hi` is the code of `fs`. -/
def Agree (p : Proto α) (fs : FuncState α) (lo hi : Nat) : Prop :=
  ∀ i, lo ≤ i → i < hi → p.code[i]? = fs.code[i]?

/-- The function has the constants and the registers of `fs`. -/
structure Covers (p : Proto α) (fs : FuncState α) : Prop where
  constants : fs.constants <+: p.constants
  maxstack : fs.maxstack ≤ p.maxstack

section Agree

variable {p : Proto α} {t : LowerState α} {fs : FuncState α} {lo hi : Nat}

theorem Agree.mono {lo' hi' : Nat} (h : Agree p fs lo hi) (hlo : lo ≤ lo') (hhi : hi' ≤ hi) :
    Agree p fs lo' hi' :=
  fun i hi₁ hi₂ => h i (hlo.trans hi₁) (Nat.lt_of_lt_of_le hi₂ hhi)

theorem getElem?_grown {xs ys : List β} (h : xs <+: ys) {i : Nat} (hi : i < xs.length) :
    ys[i]? = xs[i]? := by
  obtain ⟨zs, rfl⟩ := h
  exact List.getElem?_append_left hi

theorem Agree.before (h : Agree p t.fs lo hi) (he : Extends s t) (hhi : hi ≤ s.fs.pc) :
    Agree p s.fs lo hi := by
  intro i hi₁ hi₂
  rw [h i hi₁ hi₂]
  exact getElem?_grown he.code (Nat.lt_of_lt_of_le hi₂ hhi)

theorem getElem?_of_segment {pre is xs : List β} (h : pre ++ is <+: xs) {j : Nat}
    (hj : j < is.length) : xs[pre.length + j]? = is[j]? := by
  have hlt : pre.length + j < (pre ++ is).length := by
    rw [List.length_append]
    omega
  rw [getElem?_grown h hlt, List.getElem?_append_right (Nat.le_add_right _ _),
    Nat.add_sub_cancel_left]

theorem Agree.emitted {i : Instruction α} (h : Agree p (fs.emit i) lo hi) (hlo : lo ≤ fs.pc)
    (hhi : fs.pc < hi) : p.code[fs.pc]? = some i := by
  rw [h fs.pc hlo hhi]
  exact List.getElem?_concat_length

theorem Covers.before (h : Covers p t.fs) (he : Extends s t) : Covers p s.fs :=
  ⟨he.constants.trans h.constants, he.maxstack.trans h.maxstack⟩

end Agree

/-! ## Jumps that are patched -/

section Fix

variable {p : Proto α} {s t : LowerState α} {fs : FuncState α} {lo hi j dest : Nat}

theorem fixSbx_pc (fs : FuncState α) (j dest : Nat) : (fs.fixSbx j dest).pc = fs.pc :=
  List.length_modify _ _ _

theorem fixSbx_of_ne {i : Nat} (h : i ≠ j) : (fs.fixSbx j dest).code[i]? = fs.code[i]? := by
  rw [FuncState.fixSbx, List.getElem?_modify]
  simp only [if_neg (Ne.symm h), id_map']

theorem Extends.fixSbx (h : Extends s t) (hj : s.fs.pc ≤ j) (dest : Nat) :
    Extends s { t with fs := t.fs.fixSbx j dest } where
  code := by
    refine List.prefix_iff_getElem?.mpr fun i hi => ?_
    have hi' : i < s.fs.pc := hi
    rw [fixSbx_of_ne (by omega)]
    exact List.prefix_iff_getElem?.mp h.code i hi
  constants := h.constants
  rest := h.rest
  maxstack := h.maxstack
  prev := h.prev

theorem Agree.unfixed (h : Agree p (fs.fixSbx j dest) lo hi) (hj : hi ≤ j ∨ j < lo) :
    Agree p fs lo hi := by
  intro i hi₁ hi₂
  rw [h i hi₁ hi₂]
  exact fixSbx_of_ne (by omega)

theorem Agree.fixed {op : OpCode} {a : Nat} {sbx : Int} (h : Agree p (fs.fixSbx j dest) lo hi)
    (hlo : lo ≤ j) (hhi : j < hi) (ha : a < 256)
    (hcode : fs.code[j]? = some (encodeAsbx op a sbx)) :
    p.code[j]? = some (encodeAsbx op a ((dest : Int) - (j + 1))) := by
  rw [h j hlo hhi, FuncState.fixSbx, List.getElem?_modify, hcode]
  simp only [if_true, Option.map_eq_map, Option.map_some, op_encodeAsbx, a_encodeAsbx,
    Nat.mod_eq_of_lt ha]

theorem Agree.le_length (h : Agree p fs lo fs.pc) (hlo : lo < fs.pc) :
    fs.pc ≤ p.code.length := by
  have hlast := h (fs.pc - 1) (by omega) (by omega)
  have hlt : fs.pc - 1 < fs.code.length := Nat.sub_lt (by omega) Nat.one_pos
  rw [List.getElem?_eq_getElem hlt] at hlast
  have := (List.getElem?_eq_some_iff.mp hlast).1
  omega

theorem Small.fits (h : Small p) {pc dest : Nat} (hpc : pc ≤ p.code.length)
    (hdest : dest ≤ p.code.length) : Fits ((dest : Int) - pc) := by
  have := h.code
  constructor <;> omega

end Fix

end Luatier.Lowering
