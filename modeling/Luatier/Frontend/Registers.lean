import Luatier.Frontend.LoweredCode

/-!
# Values in registers

What the instructions do that bring a value into a register, and what an `Expdesc`
stands for when the code before it has been run.
-/

namespace Luatier.Lowering

open Realising

variable {α V σ ε X Y : Type}

/-! ## Instructions -/

section Advance

variable {P : Primitives V σ ε} {p : Proto α} {varargs : List V} {c : Config V σ} {n : Nat}
  {i : Instruction α}

theorem realises_exec {m : Comp (Outcome V σ ε) Y} {post : Y → Config V σ → Prop}
    {c' : Config V σ} (hi : p.code[c.pc]? = some i)
    (hexec : exec P p varargs i { c with pc := c.pc + 1 } = .ok c')
    (h : Realises (advance P p varargs) n c' m post) :
    Realises (advance P p varargs) n c m post := by
  refine Realises.onward ?_ h
  rw [advance, hi]
  exact hexec

/-- The next instruction does an operation, and the computation goes on with its result. -/
theorem realises_operate {op : Op σ ε X} {f : X → Config V σ → Config V σ}
    {k : X → Eval V σ ε Y} {post : Y × σ → Config V σ → Prop} (hi : p.code[c.pc]? = some i)
    (hexec : exec P p varargs i { c with pc := c.pc + 1 } =
      operate op f { c with pc := c.pc + 1 })
    (h : ∀ x world, Realises (advance P p varargs) n
      (f x { c with pc := c.pc + 1, world }) (k x world) post) :
    Realises (advance P p varargs) n c ((lift op >>= k) c.world) post := by
  cases hop : op c.world with
  | ok r =>
      have hlift : (lift op >>= k) c.world = k r.1 r.2 := by
        show ((lift op c.world : Comp _ _) >>= _) = _
        rw [lift, hop]
        rfl
      rw [hlift]
      refine realises_exec hi ?_ (h r.1 r.2)
      rw [hexec, operate, hop]
  | error e =>
      have hlift : (lift op >>= k : Eval V σ ε Y) c.world = throw (.raised e) := by
        show ((lift op c.world : Comp _ _) >>= _) = _
        rw [lift, hop]
        rfl
      rw [hlift]
      refine Realises.halt ?_
      rw [advance, hi]
      show exec P p varargs i _ = _
      rw [hexec, operate, hop]

end Advance

section Exec

variable {P : Primitives V σ ε} {p : Proto α} {varargs : List V} {c : Config V σ} {a b d : Nat}

theorem exec_move (ha : a < 256) (hb : b < 256) :
    exec P p varargs (encodeAbc .move a b 0) c = .ok (c.set a (c.regs b)) := by
  simp only [exec, encodeAbc, Instruction.op, Instruction.a, Instruction.b, Nat.mod_eq_of_lt ha,
    Nat.mod_eq_of_lt hb]

theorem exec_loadBool (ha : a < 256) (value skip : Bool) :
    exec P p varargs (encodeAbc .loadBool a value.toNat skip.toNat) c =
      .ok ((c.set a (P.const (.bool value))).skip (skip = true)) := by
  cases value <;> cases skip <;>
    simp [exec, encodeAbc, Instruction.op, Instruction.a, Instruction.b, Instruction.c,
      Nat.mod_eq_of_lt ha, Config.skip]

theorem exec_loadNil (ha : a < 256) :
    exec P p varargs (encodeAbc .loadNil a 0 0) c = .ok (c.set a P.nil) := by
  simp only [exec, encodeAbc, Instruction.op, Instruction.a, Instruction.b, Nat.mod_eq_of_lt ha,
    Nat.zero_mod, Nat.add_zero, Config.set]
  congr 2
  funext r
  by_cases hr : r = a
  · rw [hr, Function.update_self, if_pos ⟨Nat.le_refl a, Nat.le_refl a⟩]
  · rw [Function.update_of_ne hr, if_neg (by omega)]

theorem exec_loadInt {n : Int} (ha : a < 256) (hn : Fits n) :
    exec P p varargs (encodeAsbx .loadInt a n) c =
      .ok (c.set a (P.const (.int (Int64.ofInt n)))) := by
  have hsbx := (sbx_encodeAsbx_iff (α := α) .loadInt a n).mpr hn
  simp only [exec, op_encodeAsbx, a_encodeAsbx, hsbx, Nat.mod_eq_of_lt ha]

theorem exec_loadK {k : Nat} {const : Const} (ha : a < 256) (hk : k < 65536)
    (hconst : p.constants[k]? = some const) :
    exec P p varargs (encodeAbx .loadK a k) c = .ok (c.set a (P.const const)) := by
  simp only [exec, withConstant, encodeAbx, Instruction.op, Instruction.a, Instruction.bx,
    Nat.mod_eq_of_lt ha, Nat.mod_eq_of_lt hk, hconst]

theorem exec_getUpval (ha : a < 256) :
    exec P p varargs (encodeAbc .getUpval a 0 0) c = .ok (c.set a (c.upvals 0)) := by
  simp only [exec, encodeAbc, Instruction.op, Instruction.a, Instruction.b, Nat.mod_eq_of_lt ha,
    Nat.zero_mod]

theorem exec_getTabUp {const : Const} (ha : a < 256) (hd : d < 256)
    (hconst : p.constants[d]? = some const) :
    exec P p varargs (encodeAbc .getTabUp a 0 d) c =
      operate (P.index (c.upvals 0) (P.const const)) (fun v c => c.set a v) c := by
  simp only [exec, withConstant, encodeAbc, Instruction.op, Instruction.a, Instruction.b,
    Instruction.c, Nat.mod_eq_of_lt ha, Nat.zero_mod, Nat.mod_eq_of_lt hd, hconst]

theorem exec_getTable (ha : a < 256) (hb : b < 256) (hd : d < 256) :
    exec P p varargs (encodeAbc .getTable a b d) c =
      operate (P.index (c.regs b) (c.regs d)) (fun v c => c.set a v) c := by
  simp only [exec, encodeAbc, Instruction.op, Instruction.a, Instruction.b, Instruction.c,
    Nat.mod_eq_of_lt ha, Nat.mod_eq_of_lt hb, Nat.mod_eq_of_lt hd]

theorem exec_getI (ha : a < 256) (hb : b < 256) (hd : d < 256) :
    exec P p varargs (encodeAbc .getI a b d) c =
      operate (P.index (c.regs b) (P.const (.int (Int64.ofNat d)))) (fun v c => c.set a v) c := by
  simp only [exec, encodeAbc, Instruction.op, Instruction.a, Instruction.b, Instruction.c,
    Nat.mod_eq_of_lt ha, Nat.mod_eq_of_lt hb, Nat.mod_eq_of_lt hd]

theorem exec_getField {const : Const} (ha : a < 256) (hb : b < 256) (hd : d < 256)
    (hconst : p.constants[d]? = some const) :
    exec P p varargs (encodeAbc .getField a b d) c =
      operate (P.index (c.regs b) (P.const const)) (fun v c => c.set a v) c := by
  simp only [exec, withConstant, encodeAbc, Instruction.op, Instruction.a, Instruction.b,
    Instruction.c, Nat.mod_eq_of_lt ha, Nat.mod_eq_of_lt hb, Nat.mod_eq_of_lt hd, hconst]

end Exec

/-! ## What an expression stands for -/

def constantAt (P : Primitives V σ ε) (p : Proto α) (k : Nat) : V :=
  (p.constants[k]?.map P.const).getD P.nil

def IndexKey.value (P : Primitives V σ ε) (p : Proto α) (c : Config V σ) (key : Nat) :
    IndexKey → V
  | .reg => c.regs key
  | .intImm => P.const (.int (Int64.ofNat key))
  | .constStr => constantAt P p key

def Expdesc.meaning (P : Primitives V σ ε) (p : Proto α) (c : Config V σ) :
    Expdesc → Eval V σ ε V
  | .nonrelocable reg => pure (c.regs reg)
  | .constant k => pure (P.const k)
  | .local reg => pure (c.regs reg)
  | .upval idx => pure (c.upvals idx)
  | .global k => lift (P.index (c.upvals 0) (constantAt P p k))
  | .globalIn table k => lift (P.index (c.regs table) (constantAt P p k))
  | .indexed table key indexKey =>
      lift (P.index (c.regs table) (indexKey.value P p c key))
  | .call info => pure (c.regs info)

def IndexKey.InRange (fs : FuncState α) (key : Nat) : IndexKey → Prop
  | .reg => key < fs.maxstack
  | .intImm => key ≤ 255
  | .constStr => key ≤ 255 ∧ key < fs.constants.length

def Register (fs : FuncState α) (floor r : Nat) : Prop :=
  (r < fs.nactvar ∨ floor ≤ r) ∧ r < fs.maxstack

def Expdesc.InRange (fs : FuncState α) (floor : Nat) : Expdesc → Prop
  | .nonrelocable reg => Register fs floor reg
  | .constant _ => True
  | .local reg => Register fs floor reg
  | .upval idx => idx = 0
  | .global k => k < fs.constants.length
  | .globalIn table k => table < fs.nactvar ∧ k < fs.constants.length
  | .indexed table key indexKey => table < fs.maxstack ∧ indexKey.InRange fs key
  | .call info => Register fs floor info

/--
The next temporary does not take the register; those after it may take that of a
loose value.
-/
structure Spared (fs : FuncState α) (loose : Bool) (r : Nat) : Prop where
  next : r ≠ fs.freereg
  kept : loose = false → r < fs.freereg

theorem Spared.of_lt {fs : FuncState α} {loose : Bool} {r : Nat} (h : r < fs.freereg) :
    Spared fs loose r := ⟨Nat.ne_of_lt h, fun _ => h⟩

def Expdesc.Kept (fs : FuncState α) (loose : Bool) : Expdesc → Prop
  | .nonrelocable reg => Spared fs loose reg
  | .local reg => Spared fs loose reg
  | .call info => Spared fs loose info
  | _ => True

/-- The locals have the values of the scope, and the upvalue is `_ENV`. -/
structure Holds (fs : FuncState α) (ρ : Env V) (c : Config V σ) : Prop where
  scope : fs.locals.map (fun l => (l.name, c.regs l.reg)) = ρ.scope
  env : c.upvals 0 = ρ.env

/-- Registers below `floor` and upvalues are the same. -/
structure Same (floor : Nat) (c c' : Config V σ) : Prop where
  regs : ∀ r, r < floor → c'.regs r = c.regs r
  upvals : c'.upvals = c.upvals

theorem Same.refl (floor : Nat) (c : Config V σ) : Same floor c c := ⟨fun _ _ => rfl, rfl⟩

theorem Same.trans {floor : Nat} {c c' c'' : Config V σ} (h : Same floor c c')
    (h' : Same floor c' c'') : Same floor c c'' :=
  ⟨fun r hr => (h'.regs r hr).trans (h.regs r hr), h'.upvals.trans h.upvals⟩

theorem Same.mono {floor floor' : Nat} {c c' : Config V σ} (h : Same floor c c')
    (hle : floor' ≤ floor) : Same floor' c c' :=
  ⟨fun r hr => h.regs r (Nat.lt_of_lt_of_le hr hle), h.upvals⟩

theorem Same.set {floor r : Nat} {c c' : Config V σ} (h : Same floor c c') (hr : floor ≤ r)
    (v : V) : Same floor c (c'.set r v) := by
  refine ⟨fun q hq => ?_, h.upvals⟩
  have hne : q ≠ r := Nat.ne_of_lt (Nat.lt_of_lt_of_le hq hr)
  exact (c'.set_of_ne r v hne).trans (h.regs q hq)

structure Wrote (c : Config V σ) (a : Nat) (v : V) (pc : Nat) (c' : Config V σ) : Prop where
  value : c'.regs a = v
  others : ∀ r, r ≠ a → c'.regs r = c.regs r
  pc : c'.pc = pc
  upvals : c'.upvals = c.upvals

theorem Wrote.same {floor a pc : Nat} {c c' : Config V σ} {v : V} (h : Wrote c a v pc c')
    (ha : floor ≤ a) : Same floor c c' :=
  ⟨fun r hr => h.others r (Nat.ne_of_lt (Nat.lt_of_lt_of_le hr ha)), h.upvals⟩

theorem wrote_set (c : Config V σ) (a : Nat) (v : V) (pc : Nat) (world : σ) :
    Wrote c a v pc ({ c with pc, world }.set a v) where
  value := Config.set_self _ a v
  others _ hr := Config.set_of_ne _ a v hr
  pc := rfl
  upvals := rfl

section Wrote

variable {P : Primitives V σ ε} {p : Proto α} {varargs : List V} {c : Config V σ} {n a : Nat}
  {i : Instruction α}

theorem realises_write {m : Comp (Outcome V σ ε) Y} {post : Y → Config V σ → Prop} {v : V}
    (hi : p.code[c.pc]? = some i)
    (hexec : exec P p varargs i { c with pc := c.pc + 1 } =
      .ok ({ c with pc := c.pc + 1 }.set a v))
    (h : ∀ c', Wrote c a v (c.pc + 1) c' → c'.world = c.world →
      Realises (advance P p varargs) n c' m post) :
    Realises (advance P p varargs) n c m post :=
  realises_exec hi hexec (h _ (wrote_set c a v (c.pc + 1) c.world) rfl)

theorem realises_compute {op : Op σ ε V} {k : V → Eval V σ ε Y}
    {post : Y × σ → Config V σ → Prop} (hi : p.code[c.pc]? = some i)
    (hexec : exec P p varargs i { c with pc := c.pc + 1 } =
      operate op (fun v c => c.set a v) { c with pc := c.pc + 1 })
    (h : ∀ v c', Wrote c a v (c.pc + 1) c' →
      Realises (advance P p varargs) n c' (k v c'.world) post) :
    Realises (advance P p varargs) n c ((lift op >>= k) c.world) post :=
  realises_operate hi hexec fun v world => h v _ (wrote_set c a v (c.pc + 1) world)

theorem realises_loadBool {m : Comp (Outcome V σ ε) Y} {post : Y → Config V σ → Prop}
    (value skip : Bool) (ha : a < 256)
    (hi : p.code[c.pc]? = some (encodeAbc .loadBool a value.toNat skip.toNat))
    (h : ∀ c', Wrote c a (P.const (.bool value)) (c.pc + 1 + skip.toNat) c' →
      c'.world = c.world → Realises (advance P p varargs) n c' m post) :
    Realises (advance P p varargs) n c m post := by
  have hgoal := h _ (wrote_set c a _ (c.pc + 1 + skip.toNat) c.world) rfl
  refine realises_exec hi (exec_loadBool ha value skip) ?_
  cases skip
  · exact hgoal
  · exact hgoal

end Wrote

theorem Same.moved {floor : Nat} {c c' : Config V σ} (h : Same floor c c') (pc : Nat)
    (world : σ) : Same floor c { c' with pc, world } := ⟨h.regs, h.upvals⟩

theorem Holds.same {fs fs' : FuncState α} {ρ : Env V} {floor : Nat} {c c' : Config V σ}
    (h : Holds fs ρ c) (hlocals : fs'.locals = fs.locals)
    (hregs : ∀ l ∈ fs.locals, l.reg < floor) (hsame : Same floor c c') : Holds fs' ρ c' where
  scope := by
    rw [hlocals, ← h.scope]
    refine List.map_congr_left fun l hl => ?_
    rw [hsame.regs l.reg (hregs l hl)]
  env := by rw [hsame.upvals, h.env]

theorem Holds.find? {fs : FuncState α} {ρ : Env V} {c : Config V σ} (h : Holds fs ρ c)
    (name : Name) : ρ.find? name = (fs.findLocal name).map c.regs := by
  rw [Env.find?, ← h.scope, ← List.map_reverse, List.find?_map, Option.map_map,
    FuncState.findLocal, Option.map_map]
  rfl

/-! ## Code that computes a value -/

/-- The code between two states turns `ev` into `res`, and keeps what is below `floor`. -/
def Leads (P : Primitives V σ ε) (p : Proto α) (ρ : Env V) (floor : Nat) (s s' : LowerState α)
    (ev res : Config V σ → Eval V σ ε X) : Prop :=
  ∀ n c, c.pc = s.fs.pc → Holds s.fs ρ c →
    ∀ (Y : Type) (k : X → Eval V σ ε Y) (post : Y × σ → Config V σ → Prop),
      (∀ c', c'.pc = s'.fs.pc → Same floor c c' →
        Realises (advance P p ρ.varargs) n c' ((res c' >>= k) c'.world) post) →
      Realises (advance P p ρ.varargs) n c ((ev c >>= k) c.world) post

structure Operand (P : Primitives V σ ε) (ρ : Env V) (floor : Nat) (loose : Bool)
    (s : LowerState α) (ev : Config V σ → Proto α → Eval V σ ε V) (r : Nat)
    (s' : LowerState α) : Prop where
  grown : Extends s s'
  free : s.fs.freereg ≤ s'.fs.freereg
  register : Register s'.fs floor r
  kept : Spared s'.fs loose r
  leads : ∀ p, Small p → Covers p s'.fs → Agree p s'.fs s.fs.pc s'.fs.pc →
    Leads P p ρ floor s s' (ev · p) fun c => pure (c.regs r)

theorem Agree.appended {p : Proto α} {fs : FuncState α} {pre is : List (Instruction α)}
    {lo pc : Nat} (h : Agree p fs lo fs.pc) (hcode : fs.code = pre ++ is) (hlo : lo ≤ pre.length)
    (hpre : pc = pre.length) {j : Nat} (hj : j < is.length) : p.code[pc + j]? = is[j]? := by
  have hpc : fs.pc = pre.length + is.length := by
    rw [FuncState.pc, hcode, List.length_append]
  rw [hpre, h (pre.length + j) (by omega) (by omega)]
  exact getElem?_of_segment (hcode ▸ List.prefix_rfl) hj

theorem constantAt_grown {P : Primitives V σ ε} {p : Proto α} {fs : FuncState α} {k : Nat}
    (h : Covers p fs) (hk : k < fs.constants.length) :
    ∃ const, p.constants[k]? = some const ∧ P.const const = constantAt P p k := by
  refine ⟨fs.constants[k], ?_, ?_⟩
  · rw [getElem?_grown h.constants hk]
    exact List.getElem?_eq_getElem hk
  · rw [constantAt, getElem?_grown h.constants hk, List.getElem?_eq_getElem hk]
    rfl

section Discharge

variable {P : Primitives V σ ε} {ρ : Env V} {s : LowerState α} {floor : Nat}

theorem Covers.lt {p : Proto α} {fs : FuncState α} {r : Nat} (h : Covers p fs)
    (hsmall : Small p) (hr : r < fs.maxstack) : r < 256 :=
  Nat.lt_of_lt_of_le hr (h.maxstack.trans (hsmall.maxstack.trans (by decide)))

theorem ensures_ensureEnvUpval {i : Nat} (h : s.fs.findUpval "_ENV" = some i)
    {Q : Nat → LowerState α → Prop} : Ensures ensureEnvUpval s Q ↔ Q i s := by
  have hrun : (ensureEnvUpval : Lower α Nat) s = .ok (i, s) := by
    rw [ensureEnvUpval, ensureEnvUpvalIn.eq_def]
    simp only [h]
  constructor
  · exact fun hQ => hQ _ _ hrun
  · intro hQ i' s' hm
    rw [hrun] at hm
    cases hm
    exact hQ

theorem operand_self {loose : Bool} {r : Nat} (hr : Register s.fs floor r)
    (hkept : Spared s.fs loose r) :
    Operand P ρ floor loose s (fun c _ => pure (c.regs r)) r s where
  grown := .refl s
  free := Nat.le_refl _
  register := hr
  kept := hkept
  leads _ _ _ _ _ c hpc _ _ _ _ h := h c hpc (.refl _ c)

theorem leads_single {p : Proto α} {s' : LowerState α} {i : Instruction α} {dest : Nat}
    (op : Config V σ → Op σ ε V) (hdest : floor ≤ dest) (hcode : s'.fs.code = s.fs.code ++ [i])
    (hagree : Agree p s'.fs s.fs.pc s'.fs.pc)
    (hexec : ∀ c, exec P p ρ.varargs i c = operate (op c) (fun v c => c.set dest v) c)
    (hop : ∀ c pc, op { c with pc } = op c) :
    Leads P p ρ floor s s' (fun c => lift (op c)) fun c => pure (c.regs dest) := by
  intro n c hpc _ Y k post h
  have hi : p.code[c.pc]? = some i :=
    hagree.appended hcode (Nat.le_refl _) hpc (j := 0) Nat.zero_lt_one
  have hpc' : s'.fs.pc = c.pc + 1 := by
    rw [FuncState.pc, hcode, List.length_append, hpc]
    rfl
  have hrun := hexec { c with pc := c.pc + 1 }
  rw [hop] at hrun
  refine realises_compute hi hrun fun v c' hc' => ?_
  have hend := h c' (hc'.pc.trans hpc'.symm) (hc'.same hdest)
  rwa [pure_bind, hc'.value] at hend

theorem operand_single {loose : Bool} {s' : LowerState α} {i : Instruction α}
    (op : Config V σ → Proto α → Op σ ε V) (hfloor : floor ≤ s.fs.freereg)
    (hgrown : Extends s s') (hcode : s'.fs.code = s.fs.code ++ [i])
    (hfree : s'.fs.freereg = s.fs.freereg + 1) (hstack : s.fs.freereg < s'.fs.maxstack)
    (hexec : ∀ p c, Small p → Covers p s'.fs → s.fs.freereg < 256 →
      exec P p ρ.varargs i c = operate (op c p) (fun v c => c.set s.fs.freereg v) c)
    (hop : ∀ c p pc, op { c with pc } p = op c p) :
    Operand P ρ floor loose s (fun c p => lift (op c p)) s.fs.freereg s' where
  grown := hgrown
  free := hfree ▸ Nat.le_succ _
  register := ⟨.inr hfloor, hstack⟩
  kept := .of_lt (hfree ▸ Nat.lt_succ_self _)
  leads p hsmall hcovers hagree :=
    leads_single (op · p) hfloor hcode hagree
      (fun c => hexec p c hsmall hcovers (hcovers.lt hsmall hstack)) fun c => hop c p

theorem ensures_constIndex (k : Const) :
    Ensures (constIndex k) s fun i s' => ∃ more,
      s' = { s with fs := { s.fs with constants := s.fs.constants ++ more } } ∧
        (s.fs.constants ++ more)[i]? = some k := by
  simp only [constIndex, FuncState.constIndex, ensures_bind, ensures_getFs]
  cases hfind : s.fs.constants.findIdx? (· == k) with
  | some i =>
      have hi := (List.findIdx?_eq_some_iff_getElem.mp hfind)
      obtain ⟨hlt, hk, -⟩ := hi
      simp only [ensures_modifyFs, ensures_pure]
      refine ⟨[], ?_, ?_⟩
      · rw [List.append_nil]
      · rw [List.append_nil, List.getElem?_eq_getElem hlt, eq_of_beq hk]
  | none =>
      simp only [ensures_modifyFs, ensures_pure]
      exact ⟨[k], rfl, List.getElem?_concat_length⟩

theorem extends_constants (more : List Const) :
    Extends s { s with fs := { s.fs with constants := s.fs.constants ++ more } } :=
  ⟨List.prefix_rfl, List.prefix_append _ _, rfl, Nat.le_refl _, rfl⟩

theorem operate_pure (f : X → Config V σ → Config V σ) (x : X) (c : Config V σ) :
    (operate (pure x) f c : Except (Outcome V σ ε) _) = .ok (f x c) := rfl

theorem operand_loadK {loose : Bool} (hfloor : floor ≤ s.fs.freereg) (k : Const) :
    Ensures (do
      let reg ← newReg
      discard (codeAbx .loadK reg (← constIndex k))
      return reg) s fun r s' =>
      Operand P ρ floor loose s (fun _ _ => pure (P.const k)) r s' := by
  simp only [ensures_bind, ensures_newReg, ensures_discard, ensures_codeAbx, ensures_pure]
  intro _
  refine (ensures_constIndex k).mono ?_
  rintro i _ ⟨more, rfl, hi⟩
  refine operand_single (fun _ _ => pure (P.const k)) hfloor
    ((((Extends.refl s).reserved 1).trans (extends_constants more)).emit _) rfl rfl
    (Nat.lt_of_lt_of_le (Nat.lt_succ_self _) (Nat.le_max_right _ _)) ?_ fun _ _ _ => rfl
  intro p c hsmall hcovers hr
  have hlt : i < (s.fs.constants ++ more).length := (List.getElem?_eq_some_iff.mp hi).1
  have hconst : p.constants[i]? = some k := by
    rw [getElem?_grown hcovers.constants hlt]
    exact hi
  have hlt' : i < 65536 :=
    Nat.lt_of_lt_of_le (List.getElem?_eq_some_iff.mp hconst).1 hsmall.constants
  exact exec_loadK hr hlt' hconst

theorem operand_constant (loose : Bool) (hfloor : floor ≤ s.fs.freereg) (k : Const) :
    Ensures (exp2reg (.constant k)) s fun r s' =>
      Operand P ρ floor loose s (fun _ _ => pure (P.const k)) r s' := by
  have hgrown (i : Instruction α) :
      Extends s { s with fs := (s.fs.reserved 1).emit i } := ((Extends.refl s).reserved 1).emit i
  have hstack : s.fs.freereg < max s.fs.maxstack (s.fs.freereg + 1) :=
    Nat.lt_of_lt_of_le (Nat.lt_succ_self _) (Nat.le_max_right _ _)
  cases k with
  | nil =>
      simp only [exp2reg, loadConst, ensures_bind, ensures_newReg, ensures_discard,
        ensures_codeAbc, ensures_pure]
      exact fun _ => operand_single (fun _ _ => pure (P.const .nil)) hfloor (hgrown _) rfl
        rfl hstack (fun _ _ _ _ hr => exec_loadNil hr) fun _ _ _ => rfl
  | bool b =>
      simp only [exp2reg, loadConst, ensures_bind, ensures_newReg, ensures_discard,
        ensures_codeAbc, ensures_pure]
      refine fun _ => operand_single (fun _ _ => pure (P.const (.bool b))) hfloor
        (hgrown _) rfl rfl hstack (fun p c _ _ hr => ?_) fun _ _ _ => rfl
      have hexec : exec P p ρ.varargs _ c = _ := exec_loadBool hr b false
      cases b <;> exact hexec
  | int m =>
      simp only [exp2reg, loadConst]
      by_cases hm : -32768 ≤ m.toInt ∧ m.toInt ≤ 32767
      · simp only [if_pos hm, ensures_bind, ensures_newReg, ensures_discard, ensures_codeAsbx,
          ensures_pure]
        refine fun _ => operand_single (fun _ _ => pure (P.const (.int m))) hfloor
          (hgrown _) rfl rfl hstack (fun p c _ _ hr => ?_) fun _ _ _ => rfl
        rw [exec_loadInt hr hm, Int64.ofInt_toInt]
        rfl
      · simp only [if_neg hm]
        exact operand_loadK hfloor (.int m)
  | float w => exact operand_loadK hfloor (.float w)
  | string text => exact operand_loadK hfloor (.string text)

theorem realises_getByKey {p : Proto α} {c : Config V σ} {n dest table kreg k : Nat}
    {varargs : List V} {f : V → Eval V σ ε Y} {post : Y × σ → Config V σ → Prop}
    {key : Const} (hload : p.code[c.pc]? = some (encodeAbx .loadK kreg k))
    (hget : p.code[c.pc + 1]? = some (encodeAbc .getTable dest table kreg))
    (hkreg : kreg < 256) (hdest : dest < 256) (htable : table < 256) (hne : table ≠ kreg)
    (hsmall : Small p) (hkey : p.constants[k]? = some key)
    (h : ∀ v c', c'.regs dest = v → (∀ r, r ≠ dest → r ≠ kreg → c'.regs r = c.regs r) →
      c'.pc = c.pc + 2 → c'.upvals = c.upvals →
      Realises (advance P p varargs) n c' (f v c'.world) post) :
    Realises (advance P p varargs) n c
      ((lift (P.index (c.regs table) (P.const key)) >>= f) c.world) post := by
  have hk : k < 65536 :=
    Nat.lt_of_lt_of_le (List.getElem?_eq_some_iff.mp hkey).1 hsmall.constants
  refine realises_write hload (exec_loadK hkreg hk hkey) fun c₁ hc₁ hworld => ?_
  rw [← hc₁.pc] at hget
  rw [← hworld, ← hc₁.value, ← hc₁.others table hne]
  refine realises_compute hget (exec_getTable hdest htable hkreg) fun v c₂ hc₂ => ?_
  refine h v c₂ hc₂.value (fun r hr hr' => ?_) (by rw [hc₂.pc, hc₁.pc]) ?_
  · rw [hc₂.others r hr, hc₁.others r hr']
  · rw [hc₂.upvals, hc₁.upvals]

theorem exec_getIndex {p : Proto α} {varargs : List V} {c : Config V σ} {fs : FuncState α}
    {dest table key : Nat} {indexKey : IndexKey} (hsmall : Small p) (hcovers : Covers p fs)
    (htable : table < fs.maxstack) (hkey : indexKey.InRange fs key) (hdest : dest < 256) :
    exec P p varargs (encodeAbc indexKey.getOp dest table key) c =
      operate (P.index (c.regs table) (indexKey.value P p c key)) (fun v c => c.set dest v) c := by
  have ht : table < 256 := hcovers.lt hsmall htable
  cases indexKey with
  | reg => exact exec_getTable hdest ht (hcovers.lt hsmall hkey)
  | intImm => exact exec_getI hdest ht (Nat.lt_succ_of_le hkey)
  | constStr =>
      obtain ⟨const, hconst, hvalue⟩ := constantAt_grown (P := P) hcovers hkey.2
      show _ = operate (P.index (c.regs table) (constantAt P p key)) _ c
      rw [← hvalue]
      exact exec_getField hdest ht (Nat.lt_succ_of_le hkey.1) hconst

theorem operand_exp2reg {loose : Bool} (hready : Ready s) (hfloor : floor ≤ s.fs.freereg)
    {d : Expdesc} (hd : d.InRange s.fs floor) (hkept : d.Kept s.fs loose) :
    Ensures (exp2reg d) s fun r s' =>
      Operand P ρ floor loose s (fun c p => d.meaning P p c) r s' := by
  have hgrown (i : Instruction α) :
      Extends s { s with fs := (s.fs.reserved 1).emit i } := ((Extends.refl s).reserved 1).emit i
  have hstack : s.fs.freereg < max s.fs.maxstack (s.fs.freereg + 1) :=
    Nat.lt_of_lt_of_le (Nat.lt_succ_self _) (Nat.le_max_right _ _)
  cases d with
  | nonrelocable reg =>
      simp only [exp2reg, ensures_pure]
      exact operand_self hd hkept
  | «local» reg =>
      simp only [exp2reg, ensures_pure]
      exact operand_self hd hkept
  | call info =>
      simp only [exp2reg, ensures_pure]
      exact operand_self hd hkept
  | constant k => exact operand_constant loose hfloor k
  | upval idx =>
      cases hd
      simp only [exp2reg, ensures_bind, ensures_newReg, ensures_discard, ensures_codeAbc,
        ensures_pure]
      exact fun _ => operand_single (fun c _ => pure (c.upvals 0)) hfloor (hgrown _) rfl
        rfl hstack (fun _ _ _ _ hr => exec_getUpval hr) fun _ _ _ => rfl
  | global k =>
      simp only [exp2reg, ensures_bind, ensures_newReg]
      intro _
      rw [ensures_ensureEnvUpval (s := { s with fs := s.fs.reserved 1 }) hready.env]
      by_cases hk : k ≤ 255
      · simp only [if_pos hk, ensures_bind, ensures_discard, ensures_codeAbc, ensures_pure]
        refine operand_single (fun c p => P.index (c.upvals 0) (constantAt P p k)) hfloor
          (hgrown _) rfl rfl hstack (fun p c _ hcovers hr => ?_) fun _ _ _ => rfl
        obtain ⟨const, hconst, hvalue⟩ := constantAt_grown (P := P) hcovers hd
        rw [← hvalue]
        exact exec_getTabUp hr (Nat.lt_succ_of_le hk) hconst
      · simp only [if_neg hk, loadKey, ensures_bind, ensures_discard, ensures_codeAbc,
          ensures_codeAbx, ensures_newReg, ensures_setFreereg, ensures_pure]
        intro _
        refine {
          grown := (((((Extends.refl s).reserved 1).emit _).reserved 1).emit _
            |>.emit _).setFreereg _
          free := Nat.le_succ _
          register := ⟨.inr hfloor, Nat.lt_of_lt_of_le hstack (Nat.le_max_left _ _)⟩
          kept := .of_lt (Nat.lt_succ_self _)
          leads := fun p hsmall hcovers hagree n c hpc _ Y f post h => ?_ }
        obtain ⟨const, hconst, hvalue⟩ := constantAt_grown (P := P) hcovers hd
        have hr : s.fs.freereg + 1 < 256 :=
          hcovers.lt hsmall (Nat.lt_of_lt_of_le (Nat.lt_succ_self _) (Nat.le_max_right _ _))
        have hcode (j : Nat) (hj : j < 3) := hagree.appended
          (show FuncState.code _ = s.fs.code ++ [encodeAbc .getUpval s.fs.freereg 0 0,
            encodeAbx .loadK (s.fs.freereg + 1) k,
            encodeAbc .getTable s.fs.freereg s.fs.freereg (s.fs.freereg + 1)] by
              simp [FuncState.emit, FuncState.reserved, FuncState.setFreereg])
          (Nat.le_refl _) hpc (j := j) hj
        have hup : p.code[c.pc]? = some (encodeAbc .getUpval s.fs.freereg 0 0) :=
          hcode 0 (by decide)
        have hload : p.code[c.pc + 1]? = some (encodeAbx .loadK (s.fs.freereg + 1) k) :=
          hcode 1 (by decide)
        have hget : p.code[c.pc + 1 + 1]? = some
            (encodeAbc .getTable s.fs.freereg s.fs.freereg (s.fs.freereg + 1)) :=
          hcode 2 (by decide)
        refine realises_write hup (exec_getUpval (by omega)) fun c₁ hc₁ hworld => ?_
        show Realises _ n c₁ ((lift (P.index (c.upvals 0) (constantAt P p k)) >>= f) c.world) post
        rw [← hvalue, ← hc₁.value, ← hworld]
        rw [← hc₁.pc] at hload hget
        refine realises_getByKey hload hget hr (by omega) (by omega)
          (Nat.ne_of_lt (Nat.lt_succ_self _)) hsmall hconst
          fun v c₂ hv hothers hpc₂ hupvals => ?_
        have hend := h c₂ ?_ ⟨fun r hr => ?_, hupvals.trans hc₁.upvals⟩
        · rwa [pure_bind, hv] at hend
        · rw [hpc₂, hc₁.pc, hpc]
          simp [FuncState.pc, FuncState.emit, FuncState.reserved, FuncState.setFreereg]
        · rw [hothers r (by omega) (by omega), hc₁.others r (by omega)]
  | globalIn table k =>
      obtain ⟨htable, hk'⟩ := hd
      simp only [exp2reg, ensures_bind, ensures_newReg]
      intro _
      by_cases hk : k ≤ 255
      · simp only [if_pos hk, ensures_bind, ensures_discard, ensures_codeAbc, ensures_pure]
        refine operand_single (fun c p => P.index (c.regs table) (constantAt P p k)) hfloor
          (hgrown _) rfl rfl hstack (fun p c hsmall hcovers hr => ?_) fun _ _ _ => rfl
        obtain ⟨const, hconst, hvalue⟩ := constantAt_grown (P := P) hcovers hk'
        have ht : table < 256 :=
          hcovers.lt hsmall
            (Nat.lt_of_lt_of_le htable (hready.active.trans (Nat.le_max_left _ _)))
        rw [← hvalue]
        exact exec_getField hr ht (Nat.lt_succ_of_le hk) hconst
      · simp only [if_neg hk, loadKey, ensures_bind, ensures_discard, ensures_codeAbc,
          ensures_codeAbx, ensures_newReg, ensures_setFreereg, ensures_pure]
        intro _
        refine {
          grown := ((((Extends.refl s).reserved 1).reserved 1).emit _ |>.emit _).setFreereg _
          free := Nat.le_succ _
          register := ⟨.inr hfloor, Nat.lt_of_lt_of_le hstack (Nat.le_max_left _ _)⟩
          kept := .of_lt (Nat.lt_succ_self _)
          leads := fun p hsmall hcovers hagree n c hpc _ Y f post h => ?_ }
        obtain ⟨const, hconst, hvalue⟩ := constantAt_grown (P := P) hcovers hk'
        have hr : s.fs.freereg + 1 < 256 :=
          hcovers.lt hsmall (Nat.lt_of_lt_of_le (Nat.lt_succ_self _) (Nat.le_max_right _ _))
        have hcode (j : Nat) (hj : j < 2) := hagree.appended
          (show FuncState.code _ = s.fs.code ++ [encodeAbx .loadK (s.fs.freereg + 1) k,
            encodeAbc .getTable s.fs.freereg table (s.fs.freereg + 1)] by
              simp [FuncState.emit, FuncState.reserved, FuncState.setFreereg])
          (Nat.le_refl _) hpc (j := j) hj
        have hload : p.code[c.pc]? = some (encodeAbx .loadK (s.fs.freereg + 1) k) :=
          hcode 0 (by decide)
        have hget : p.code[c.pc + 1]? = some
            (encodeAbc .getTable s.fs.freereg table (s.fs.freereg + 1)) := hcode 1 (by decide)
        have htable' : table < s.fs.freereg := Nat.lt_of_lt_of_le htable hready.free
        show Realises _ n _ ((lift (P.index (c.regs table) (constantAt P p k)) >>= f) _) post
        rw [← hvalue]
        refine realises_getByKey hload hget hr (by omega) (by omega) (by omega) hsmall hconst
          fun v c₂ hv hothers hpc₂ hupvals => ?_
        have hend := h c₂ ?_ ⟨fun r hr => hothers r (by omega) (by omega), hupvals⟩
        · rwa [pure_bind, hv] at hend
        · rw [hpc₂, hpc]
          simp [FuncState.pc, FuncState.emit, FuncState.reserved, FuncState.setFreereg]
  | indexed table key indexKey =>
      obtain ⟨htable, hkey⟩ := hd
      simp only [exp2reg, emitGetIndex, ensures_bind, ensures_newReg, ensures_discard,
        ensures_codeAbc, ensures_setFreereg, ensures_pure]
      intro _
      refine operand_single (fun c p => P.index (c.regs table) (indexKey.value P p c key))
        hfloor ((hgrown _).setFreereg _) rfl rfl hstack (fun p c hsmall hcovers hr => ?_)
        fun _ _ _ => by cases indexKey <;> rfl
      have hcovers' : Covers p s.fs := hcovers.before ((hgrown _).setFreereg _)
      exact exec_getIndex hsmall hcovers' htable hkey hr

end Discharge

end Luatier.Lowering
