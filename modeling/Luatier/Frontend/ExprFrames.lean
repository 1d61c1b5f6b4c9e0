import Luatier.Frontend.Frames

/-!
# Frames of expressions

Each form of expression keeps the frame if its parts do.
-/

namespace Luatier.Lowering

open StateFrame

variable {α β γ : Type} {P : Proto α → Prop} {n : Nat}

/-! ## Values in registers -/

theorem keeps_emitGetIndex (dest table key : Nat) (indexKey : IndexKey) :
    (exprFrame P n).Keeps (emitGetIndex dest table key indexKey) := keeps_code _

theorem keeps_loadConst (reg : Nat) (k : Const) : (exprFrame P n).Keeps (loadConst reg k) := by
  cases k with
  | nil => exact keeps_code _
  | bool b => exact keeps_code _
  | int i =>
      exact yields_ite (fun _ => keeps_code _)
        fun _ => (keeps_constIndex _).andThen fun _ => keeps_code _
  | float w => exact (keeps_constIndex _).andThen fun _ => keeps_code _
  | string s => exact (keeps_constIndex _).andThen fun _ => keeps_code _

theorem keeps_loadKey (k : Nat) : (exprFrame P n).Keeps (loadKey k) :=
  keeps_newReg.andThen fun _ => (keeps_code _).andThen fun _ => keeps_pure _

theorem keeps_exp2reg (e : Expdesc) : (exprFrame P n).Keeps (exp2reg e) := by
  cases e with
  | nonrelocable reg => exact keeps_pure _
  | «local» reg => exact keeps_pure _
  | call info => exact keeps_pure _
  | upval idx =>
      exact keeps_newReg.andThen fun _ => (keeps_code _).andThen fun _ => keeps_pure _
  | constant k =>
      exact keeps_newReg.andThen fun _ => (keeps_loadConst _ _).andThen fun _ => keeps_pure _
  | indexed table key indexKey =>
      exact keeps_newReg.andThen fun _ => (keeps_emitGetIndex _ _ _ _).andThen fun _ =>
        (keeps_setFreereg _).andThen fun _ => keeps_pure _
  | globalIn table k =>
      refine keeps_newReg.andThen fun reg => ?_
      split
      · exact (keeps_code _).andThen fun _ => keeps_pure _
      · exact (keeps_loadKey _).andThen fun _ => (keeps_code _).andThen fun _ =>
          (keeps_setFreereg _).andThen fun _ => keeps_pure _
  | global k =>
      refine keeps_newReg.andThen fun reg => keeps_ensureEnvUpval.andThen fun env => ?_
      split
      · exact (keeps_code _).andThen fun _ => keeps_pure _
      · exact (keeps_code _).andThen fun _ => (keeps_loadKey _).andThen fun _ =>
          (keeps_code _).andThen fun _ => (keeps_setFreereg _).andThen fun _ => keeps_pure _

/-! ## Operators -/

section Operators

variable {operand lhs rhs table key callee : Lower α Expdesc}

def Quiet (P : Proto α → Prop) (n : Nat) (m : Lower α Expdesc) : Prop :=
  (exprFrame P n).Yields m fun e => e.isCall = false

theorem quiet_vararg : Quiet P n lowerVararg :=
  keeps_newReg.andThen fun _ => (keeps_code _).andThen fun _ => yields_pure rfl

theorem quiet_paren (h : (exprFrame P n).Keeps operand) : Quiet P n (lowerParen operand) := by
  refine h.andThen fun e => ?_
  cases e <;> exact yields_pure rfl

theorem quiet_un (op : UnOp) (h : (exprFrame P n).Keeps operand) :
    Quiet P n (lowerUn op operand) := by
  refine h.andThen fun e => ?_
  split
  · exact yields_pure rfl
  · exact yields_pure rfl
  · refine (keeps_exp2reg e).andThen fun r => keeps_newReg.andThen fun dest =>
      (keeps_code _).andThen fun _ => ?_
    have hfree : (exprFrame P n).Keeps (modifyFs (·.freeReg r)) := by
      refine keeps_regs ?_ ?_ ?_ <;>
        · intro fs
          rw [FuncState.freeReg]
          split <;> rfl
    exact hfree.andThen fun _ => yields_pure rfl

theorem keeps_operands (hl : (exprFrame P n).Keeps lhs) (hr : (exprFrame P n).Keeps rhs) :
    (exprFrame P n).Keeps (operands lhs rhs) :=
  hl.andThen fun _ => (keeps_exp2reg _).andThen fun _ => hr.andThen fun _ =>
    (keeps_exp2reg _).andThen fun _ => keeps_pure _

theorem keeps_codeCompare (cmp : OpCode) (a : Nat) (swap : Bool) (rb rc : Nat) :
    (exprFrame P n).Keeps (codeCompare cmp a swap rb rc) :=
  yields_ite (fun _ => keeps_code _) fun _ => keeps_code _

theorem yields_relFailJmp (freeFloor : Nat) (op : BinOp) (hl : (exprFrame P n).Keeps lhs)
    (hr : (exprFrame P n).Keeps rhs) :
    (exprFrame P n).Yields (relFailJmp freeFloor op lhs rhs) (n ≤ ·) :=
  (yields_getFs fun _ => trivial).andThen fun _ => (keeps_setFreereg _).andThen fun _ =>
    (keeps_operands hl hr).andThen fun _ => (keeps_codeCompare _ _ _ _ _).andThen fun _ =>
      (yields_code _).bind fun _ hj => (keeps_setFreereg _).andThen fun _ => yields_pure hj

theorem quiet_relAnd {lhs' rhs' : Lower α Expdesc} (op op' : BinOp)
    (hl : (exprFrame P n).Keeps lhs) (hr : (exprFrame P n).Keeps rhs)
    (hl' : (exprFrame P n).Keeps lhs') (hr' : (exprFrame P n).Keeps rhs') :
    Quiet P n (lowerRelAnd op lhs rhs op' lhs' rhs') :=
  (yields_getFs fun _ => trivial).andThen fun _ =>
    (yields_relFailJmp _ op hl hr).bind fun _ hj => (yields_relFailJmp _ op' hl' hr').bind
      fun _ hj' => (keeps_setFreereg _).andThen fun _ => keeps_newReg.andThen fun _ =>
      (keeps_code _).andThen fun _ => (yields_code _).bind fun _ hend =>
      (yields_getFs fun _ => trivial).andThen fun _ => (keeps_fixSbx hj _).andThen fun _ =>
      (keeps_fixSbx hj' _).andThen fun _ => (keeps_code _).andThen fun _ =>
      (yields_getFs fun _ => trivial).andThen fun _ => (keeps_fixSbx hend _).andThen fun _ =>
      (keeps_setFreereg _).andThen fun _ => yields_pure rfl

theorem quiet_logic (isAnd : Bool) (hl : (exprFrame P n).Keeps lhs)
    (hr : (exprFrame P n).Keeps rhs) : Quiet P n (lowerLogic isAnd lhs rhs) :=
  hl.andThen fun _ => (keeps_exp2reg _).andThen fun _ => keeps_newReg.andThen fun _ =>
    (keeps_code _).andThen fun _ => (keeps_code _).andThen fun _ =>
    (yields_code _).bind fun _ hend => (keeps_setFreereg _).andThen fun _ =>
    hr.andThen fun _ => (keeps_exp2reg _).andThen fun _ => (keeps_moveTo _ _).andThen fun _ =>
    (yields_getFs fun _ => trivial).andThen fun _ => (keeps_fixSbx hend _).andThen fun _ =>
    (keeps_setFreereg _).andThen fun _ => yields_pure rfl

theorem quiet_concat (hl : (exprFrame P n).Keeps lhs) (hr : (exprFrame P n).Keeps rhs) :
    Quiet P n (lowerConcat lhs rhs) := by
  refine (keeps_operands hl hr).andThen fun p => keeps_newReg.andThen fun a =>
    (yields_getFs fun _ => trivial).andThen fun fs => ?_
  have hrest : Quiet P n (do
      moveTo a p.1
      moveTo (a + 1) p.2
      discard (codeAbc .concat a a (a + 1))
      setFreereg (a + 1)
      return .nonrelocable a) :=
    (keeps_moveTo _ _).andThen fun _ => (keeps_moveTo _ _).andThen fun _ =>
      (keeps_code _).andThen fun _ => (keeps_setFreereg _).andThen fun _ => yields_pure rfl
  split
  · exact (keeps_reserve _).andThen fun _ => hrest
  · exact hrest

theorem quiet_compare (cmp : OpCode) (a : Nat) (swap : Bool)
    (hl : (exprFrame P n).Keeps lhs) (hr : (exprFrame P n).Keeps rhs) :
    Quiet P n (lowerCompare cmp a swap lhs rhs) :=
  (keeps_operands hl hr).andThen fun _ => keeps_newReg.andThen fun _ =>
    (keeps_codeCompare _ _ _ _ _).andThen fun _ => (keeps_code _).andThen fun _ =>
    (keeps_code _).andThen fun _ => (keeps_code _).andThen fun _ => yields_pure rfl

theorem keeps_arithDest (rb rc : Nat) : (exprFrame P n).Keeps (arithDest rb rc) :=
  (yields_getFs fun _ => trivial).andThen fun _ => yields_ite (fun _ => keeps_pure _)
    fun _ => yields_ite (fun _ => keeps_pure _) fun _ => keeps_newReg

theorem quiet_arith (op : BinOp) (hl : (exprFrame P n).Keeps lhs)
    (hr : (exprFrame P n).Keeps rhs) : Quiet P n (lowerArith op lhs rhs) := by
  refine (keeps_operands hl hr).andThen fun p => (keeps_arithDest _ _).andThen fun dest => ?_
  cases binArithOp op with
  | some op =>
      exact (keeps_code _).andThen fun _ => (keeps_setFreereg _).andThen fun _ =>
        yields_pure rfl
  | none => exact keeps_throw _

/-! ## Tables and calls -/

theorem quiet_index (ht : (exprFrame P n).Keeps table) (hk : (exprFrame P n).Keeps key) :
    Quiet P n (lowerIndex table key) := by
  refine ht.andThen fun _ => (keeps_exp2reg _).andThen fun rt => hk.andThen fun k => ?_
  have hreg : ∀ e, Quiet P n (do return .indexed rt (← exp2reg e) .reg) :=
    fun e => (keeps_exp2reg e).andThen fun _ => yields_pure rfl
  cases k with
  | constant k =>
      dsimp only
      split
      · exact yields_pure rfl
      · refine (keeps_stringK _).andThen fun ki => ?_
        exact yields_ite (fun _ => yields_pure rfl) fun _ => hreg _
      · exact hreg _
  | _ => exact hreg _

theorem quiet_field (field : Name) (ht : (exprFrame P n).Keeps table) :
    Quiet P n (lowerField table field) :=
  ht.andThen fun _ => (keeps_exp2reg _).andThen fun _ => (keeps_stringK _).andThen fun _ =>
    yields_ite (fun _ => yields_pure rfl)
      fun _ => (keeps_loadKey _).andThen fun _ => yields_pure rfl

theorem keeps_openVararg (dest : Nat) : (exprFrame P n).Keeps (openVararg dest) :=
  (keeps_setFreereg _).andThen fun _ => (keeps_reserve _).andThen fun _ => keeps_code _

end Operators

/-- After `s`, the code ends in a call whose results are from register `base` on. -/
structure EndsInCall (s s' : LowerState α) (base : Nat) : Prop where
  call : ∃ front a b c, s'.fs.code = front ++ [.abc .call a b c]
  longer : s.fs.code.length < s'.fs.code.length
  freereg : s'.fs.freereg = base + 1
  active : s.fs.nactvar ≤ base

/-- An expression of a list: it is a call exactly when its kind says so. -/
structure Item.Ok (P : Proto α → Prop) (item : Item α) : Prop where
  keeps : ∀ n, (exprFrame P n).Yields item.emit fun e => item.kind = .call ∨ e.isCall = false
  call : item.kind = .call → ∀ s e s', item.emit s = .ok (e, s') →
    ∃ base, e = .call base ∧ EndsInCall s s' base

theorem findIdx?_reverse_concat {β : Type} (p : β → Bool) (front : List β) (x : β)
    (hx : p x = true) : (front ++ [x]).reverse.findIdx? p = some 0 := by
  rw [List.reverse_append, List.reverse_singleton, List.singleton_append,
    List.findIdx?_cons, hx]
  rfl

theorem lastCall_eq {fs : FuncState α} {front : List (Instruction α)} {a b c : Nat}
    (h : fs.code = front ++ [.abc .call a b c]) : fs.lastCall = some front.length := by
  have hfind := findIdx?_reverse_concat (·.isOp .call) front
    (.abc .call a b c : Instruction α) rfl
  rw [FuncState.lastCall, h, hfind, Option.map_some, List.length_append]
  rfl

theorem patchLastCall_eq {s : LowerState α} {front : List (Instruction α)}
    {a b c : Nat} (h : s.fs.code = front ++ [.abc .call a b c]) (c' : Nat) :
    patchLastCall c' s = .ok (a,
      { s with fs :=
        { s.fs with code := front ++ [.abc .call (a % 256) (b % 256) (c' % 256)] } }) := by
  have hget : s.fs.code[front.length]? = some (.abc .call a b c) := by
    rw [h, List.getElem?_append_right (Nat.le_refl _), Nat.sub_self]
    rfl
  have hset : ∀ i, s.fs.code.set front.length i = front ++ [i] := by
    intro i
    rw [h, List.set_append_right _ _ (Nat.le_refl _), Nat.sub_self]
    rfl
  refine bind_ok.mpr ⟨s.fs, s, rfl, ?_⟩
  simp only [lastCall_eq h, hget]
  refine bind_ok.mpr ⟨(), _, rfl, ?_⟩
  show Except.ok (a, LowerState.mk { s.fs with code := s.fs.code.set front.length _ } _) = _
  rw [hset]
  rfl

theorem keeps_emitPatch {item : Item α} (h : item.Ok P) (hkind : item.kind = .call)
    (c' : Nat) {f : Nat → Lower α β} {Q : β → Prop}
    (hf : ∀ ca, (exprFrame P n).Yields (f ca) Q) :
    (exprFrame P n).Yields
      (discard item.emit >>= fun _ => patchLastCall c' >>= f) Q := by
  intro s b s' hs hm
  obtain ⟨u, t, hemit, hm⟩ := bind_ok.mp hm
  obtain ⟨e, hemit, -⟩ := map_ok.mp hemit
  obtain ⟨base, rfl, hend⟩ := h.call hkind s e t hemit
  obtain ⟨ht, hframe, -⟩ := h.keeps n s _ t hs hemit
  obtain ⟨front, a, b', c, hcode⟩ := hend.call
  have hpatch := patchLastCall_eq hcode c'
  obtain ⟨ca, v, hca, hm⟩ := bind_ok.mp hm
  cases hpatch.symm.trans hca
  have hstart : n ≤ s.fs.code.length := hs
  have hlen : n ≤ front.length := by
    have := hend.longer
    rw [hcode, List.length_append, List.length_singleton] at this
    omega
  have hpatched : (exprFrame P n).Rel t
      { t with fs :=
        { t.fs with code := front ++ [.abc .call (a % 256) (b' % 256) (c' % 256)] } } := by
    refine ⟨?_, rfl, id, rfl⟩
    show (front ++ _).take n = t.fs.code.take n
    rw [hcode, List.take_append_of_le_length hlen, List.take_append_of_le_length hlen]
  obtain ⟨hs', hrel, hQ⟩ := hf a _ b s'
    (by show n ≤ (front ++ _).length; rw [List.length_append]; omega) hm
  exact ⟨hs', (exprFrame P n).trans hframe ((exprFrame P n).trans hpatched hrel), hQ⟩

theorem keeps_openCall {item : Item α} (h : item.Ok P) (hkind : item.kind = .call)
    (dest : Nat) : (exprFrame P n).Keeps (openCall dest item.emit) :=
  (keeps_setFreereg _).andThen fun _ =>
    keeps_emitPatch h hkind 0 fun _ => keeps_pure _

/-! ## Lists -/

theorem keeps_callArgs : ∀ args : List (Item α), (∀ item ∈ args, item.Ok P) →
    (exprFrame P n).Keeps (callArgs args)
  | [], _ => keeps_pure _
  | item :: args, h => by
      have hitem := h item List.mem_cons_self
      have hrest := keeps_callArgs args fun i hi => h i (List.mem_cons_of_mem _ hi)
      obtain ⟨kind, emit⟩ := item
      have hplain : (exprFrame P n).Keeps (do
          let dest := (← getFs).freereg
          setFreereg (dest + 1)
          modifyFs (·.raiseMaxstack (dest + 1))
          let r ← exp2reg (← emit)
          moveTo dest r
          setFreereg (dest + 1)
          callArgs args) := by
        refine (yields_getFs fun _ => trivial).andThen fun fs =>
          (keeps_setFreereg _).andThen fun _ => ?_
        have hraise : (exprFrame P n).Keeps (modifyFs (·.raiseMaxstack (fs.freereg + 1))) :=
          keeps_regs (fun _ => rfl) (fun _ => rfl) fun _ => rfl
        exact hraise.andThen fun _ => (hitem.keeps n).andThen fun _ =>
          (keeps_exp2reg _).andThen fun _ => (keeps_moveTo _ _).andThen fun _ =>
          (keeps_setFreereg _).andThen fun _ => hrest
      cases args with
      | cons _ _ => cases kind <;> exact hplain
      | nil =>
          cases kind with
          | single => exact hplain
          | vararg =>
              exact (yields_getFs fun _ => trivial).andThen fun _ =>
                (keeps_openVararg _).andThen fun _ => keeps_pure _
          | call =>
              exact (yields_getFs fun _ => trivial).andThen fun _ =>
                (keeps_openCall hitem rfl _).andThen fun _ => keeps_pure _

section Calls

variable {callee : Lower α Expdesc} {args : List (Item α)}

theorem keeps_calleeTo (start : Nat) (h : (exprFrame P n).Keeps callee) :
    (exprFrame P n).Keeps (calleeTo start callee) := by
  refine h.andThen fun c => ?_
  cases c with
  | indexed table key indexKey => exact keeps_emitGetIndex _ _ _ _
  | _ => exact (keeps_exp2reg _).andThen fun _ => keeps_moveTo _ _

theorem keeps_callBase (start : Nat) : (exprFrame P n).Keeps (callBase start) :=
  (yields_getFs fun _ => trivial).andThen fun _ => yields_ite
    (fun _ => keeps_newReg.andThen fun _ => (keeps_code _).andThen fun _ => keeps_pure _)
    fun _ => keeps_pure _

theorem keeps_selfArg (base : Nat) (method : Option Name) :
    (exprFrame P n).Keeps (selfArg base method) := by
  cases method with
  | none => exact keeps_pure _
  | some name =>
      exact keeps_newReg.andThen fun _ => (keeps_stringK _).andThen fun _ =>
        (keeps_code _).andThen fun _ => (keeps_code _).andThen fun _ => keeps_setFreereg _

theorem keeps_call (method : Option Name) (hc : (exprFrame P n).Keeps callee)
    (ha : ∀ item ∈ args, item.Ok P) : (exprFrame P n).Keeps (lowerCall callee args method) :=
  (yields_getFs fun _ => trivial).andThen fun _ => (yields_getFs fun _ => trivial).andThen
    fun _ => (keeps_setFreereg _).andThen fun _ => (yields_getFs fun _ => trivial).andThen
    fun _ => (keeps_reserve _).andThen fun _ => (keeps_calleeTo _ hc).andThen fun _ =>
    (keeps_callBase _).andThen fun _ => (keeps_setFreereg _).andThen fun _ =>
    (keeps_selfArg _ _).andThen fun _ => (keeps_callArgs args ha).andThen fun _ =>
    (yields_getFs fun _ => trivial).andThen fun _ => (keeps_code _).andThen fun _ =>
    (keeps_setFreereg _).andThen fun _ => keeps_pure _

theorem Frame.nactvar {s s' : LowerState α} (h : Frame P n s s') :
    s'.fs.nactvar = s.fs.nactvar := by
  show s'.fs.outline.nactvar = s.fs.outline.nactvar
  rw [h.outline]

theorem call_ends (method : Option Name) (hc : ∀ n, (exprFrame P n).Keeps callee)
    (ha : ∀ item ∈ args, item.Ok P) {s s' : LowerState α} {e : Expdesc}
    (h : lowerCall callee args method s = .ok (e, s')) :
    ∃ base, e = .call base ∧ EndsInCall s s' base := by
  obtain ⟨_, _, hget, h⟩ := bind_ok.mp h
  cases hget
  obtain ⟨_, _, hget, h⟩ := bind_ok.mp h
  cases hget
  obtain ⟨_, t₁, hset, h⟩ := bind_ok.mp h
  cases hset
  obtain ⟨_, _, hget, h⟩ := bind_ok.mp h
  cases hget
  obtain ⟨_, t₂, hreserve, h⟩ := bind_ok.mp h
  obtain ⟨_, t₃, hcallee, h⟩ := bind_ok.mp h
  obtain ⟨base, t₄, hbase, h⟩ := bind_ok.mp h
  obtain ⟨hlen₂, hframe₂, -⟩ :=
    (keeps_reserve (P := P) (n := s.fs.code.length) 1).of_ok hreserve (Nat.le_refl _)
  obtain ⟨hlen₃, hframe₃, -⟩ := (keeps_calleeTo _ (hc _)).of_ok hcallee hlen₂
  have hactive : t₃.fs.nactvar = s.fs.nactvar := hframe₃.nactvar.trans hframe₂.nactvar
  -- The first register above the locals is where the call starts.
  obtain ⟨_, _, hget, hbase⟩ := bind_ok.mp hbase
  cases hget
  have hstart : s.fs.nactvar ≤ max s.fs.freereg s.fs.nactvar := Nat.le_max_right _ _
  rw [if_neg (by rw [hactive]; exact Nat.not_lt.mpr hstart)] at hbase
  cases hbase
  obtain ⟨_, t₅, hset, h⟩ := bind_ok.mp h
  cases hset
  obtain ⟨_, t₆, hself, h⟩ := bind_ok.mp h
  obtain ⟨isOpen, t₇, hargs, h⟩ := bind_ok.mp h
  obtain ⟨hlen₆, -, -⟩ :=
    (keeps_selfArg (P := P) (n := s.fs.code.length) _ method).of_ok hself hlen₃
  obtain ⟨hlen₇, -, -⟩ := (keeps_callArgs args ha).of_ok hargs hlen₆
  obtain ⟨_, _, hget, h⟩ := bind_ok.mp h
  cases hget
  obtain ⟨_, t₈, hcode, h⟩ := bind_ok.mp h
  cases hcode
  obtain ⟨_, t₉, hset, h⟩ := bind_ok.mp h
  cases hset
  cases h
  refine ⟨_, rfl, ⟨t₇.fs.code, _, _, _, rfl⟩, ?_, rfl, hstart⟩
  show s.fs.code.length < (t₇.fs.code ++ [_]).length
  rw [List.length_append]
  exact Nat.lt_succ_of_le hlen₇

end Calls

/-! ## Constructors -/

def FieldItem.Ok (P : Proto α → Prop) : FieldItem α → Prop
  | .positional item => item.Ok P
  | .named _ value => ∀ n, (exprFrame P n).Keeps value
  | .keyed key value => (∀ n, (exprFrame P n).Keeps key) ∧ ∀ n, (exprFrame P n).Keeps value

theorem keeps_storeNamed (r ki rv : Nat) : (exprFrame P n).Keeps (storeNamed r ki rv) :=
  yields_ite (fun _ => keeps_code _) fun _ => (keeps_loadKey _).andThen fun _ => keeps_code _

theorem keeps_storeKeyed (r : Nat) (k : Expdesc) (rv : Nat) :
    (exprFrame P n).Keeps (storeKeyed r k rv) := by
  have hreg : ∀ e, (exprFrame P n).Keeps (do discard (codeAbc .setTable r (← exp2reg e) rv)) :=
    fun e => (keeps_exp2reg e).andThen fun _ => keeps_code _
  cases k with
  | constant c =>
      unfold storeKeyed
      dsimp only
      split
      · exact keeps_code _
      · refine (keeps_stringK _).andThen fun ki => ?_
        exact yields_ite (fun _ => keeps_code _) fun _ => hreg _
      · exact hreg _
  | _ => exact hreg _

theorem keeps_codeSetList (r b na : Nat) : (exprFrame P n).Keeps (codeSetList r b na) :=
  keeps_code _

theorem keeps_tableFields (r : Nat) : ∀ (fields : List (FieldItem α)) (na tostore : Nat),
    (∀ f ∈ fields, f.Ok P) → (exprFrame P n).Keeps (tableFields r fields na tostore)
  | [], _, _, _ => keeps_pure _
  | .named name value :: fields, na, tostore, h =>
      have hvalue : ∀ n, (exprFrame P n).Keeps value := h _ List.mem_cons_self
      have hrest := keeps_tableFields r fields na tostore
        fun f hf => h f (List.mem_cons_of_mem _ hf)
      (keeps_stringK _).andThen fun _ => (hvalue n).andThen fun _ =>
        (keeps_exp2reg _).andThen fun _ => (keeps_storeNamed _ _ _).andThen fun _ =>
        (keeps_setFreereg _).andThen fun _ => hrest
  | .keyed key value :: fields, na, tostore, h =>
      have hfield : (∀ n, (exprFrame P n).Keeps key) ∧ ∀ n, (exprFrame P n).Keeps value :=
        h _ List.mem_cons_self
      have hrest := keeps_tableFields r fields na tostore
        fun f hf => h f (List.mem_cons_of_mem _ hf)
      (hfield.1 n).andThen fun _ => (hfield.2 n).andThen fun _ =>
        (keeps_exp2reg _).andThen fun _ => (keeps_storeKeyed _ _ _).andThen fun _ =>
        (keeps_setFreereg _).andThen fun _ => hrest
  | .positional item :: fields, na, tostore, h => by
      have hitem : item.Ok P := h _ List.mem_cons_self
      have hrest := fun na tostore => keeps_tableFields r fields na tostore
        fun f hf => h f (List.mem_cons_of_mem _ hf)
      rw [tableFields]
      refine (keeps_setFreereg _).andThen fun _ => ?_
      refine yields_ite (fun _ => (keeps_openVararg _).andThen fun _ => keeps_pure _) fun _ => ?_
      refine yields_ite (fun hlast => ?_) fun _ => ?_
      · have hkind : item.kind = .call := eq_of_beq (Bool.and_eq_true_iff.mp hlast).2
        exact (keeps_openCall hitem hkind _).andThen fun _ => keeps_pure _
      · refine (hitem.keeps n).andThen fun _ => (keeps_exp2reg _).andThen fun _ =>
          (keeps_moveTo _ _).andThen fun _ => (keeps_setFreereg _).andThen fun _ => ?_
        exact yields_ite
          (fun _ => (keeps_codeSetList _ _ _).andThen fun _ =>
            (keeps_setFreereg _).andThen fun _ => hrest _ _)
          fun _ => hrest _ _

theorem quiet_table {fields : List (FieldItem α)} (h : ∀ f ∈ fields, f.Ok P) :
    Quiet P n (lowerTable fields) := by
  refine keeps_newReg.andThen fun r => (keeps_code _).andThen fun _ =>
    (keeps_tableFields r fields 0 0 h).andThen fun p => ?_
  have hrest : Quiet P n (do
      setFreereg (r + 1)
      return .nonrelocable r) := (keeps_setFreereg _).andThen fun _ => yields_pure rfl
  exact yields_ite (fun _ => (keeps_codeSetList _ _ _).andThen fun _ => hrest) fun _ => hrest

end Luatier.Lowering
