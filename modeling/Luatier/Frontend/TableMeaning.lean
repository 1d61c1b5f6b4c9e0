import Luatier.Frontend.CallMeaning

/-!
# The code of a table constructor

Fields with a name are stored as they come, and the others wait behind the table.
-/

namespace Luatier.Lowering

open Realising

variable {α V σ ε X Y Z : Type}

/-! ## Stores -/

section Stores

variable {P : Primitives V σ ε} {p : Proto α} {ρ : Env V} {s t u : LowerState α}
  {c : Config V σ} {varargs : List V} {a b d n : Nat}

theorem exec_setField {const : Const} (ha : a < 256) (hb : b < 256) (hd : d < 256)
    (hconst : p.constants[b]? = some const) :
    exec P p varargs (encodeAbc .setField a b d) c =
      operate (P.newindex (c.regs a) (P.const const) (c.regs d)) (fun _ c => c) c := by
  simp only [exec, withConstant, encodeAbc, Instruction.op, Instruction.a, Instruction.b,
    Instruction.c, Nat.mod_eq_of_lt ha, Nat.mod_eq_of_lt hb, Nat.mod_eq_of_lt hd, hconst]

theorem exec_setTable (ha : a < 256) (hb : b < 256) (hd : d < 256) :
    exec P p varargs (encodeAbc .setTable a b d) c =
      operate (P.newindex (c.regs a) (c.regs b) (c.regs d)) (fun _ c => c) c := by
  simp only [exec, encodeAbc, Instruction.op, Instruction.a, Instruction.b, Instruction.c,
    Nat.mod_eq_of_lt ha, Nat.mod_eq_of_lt hb, Nat.mod_eq_of_lt hd]

theorem realises_store {i : Instruction α} {op : Op σ ε Unit} {k : Unit → Eval V σ ε Y}
    {post : Y × σ → Config V σ → Prop} (hi : p.code[c.pc]? = some i)
    (hexec : exec P p varargs i { c with pc := c.pc + 1 } =
      operate op (fun _ c => c) { c with pc := c.pc + 1 })
    (h : ∀ world, Realises (advance P p varargs) n { c with pc := c.pc + 1, world }
      (k () world) post) :
    Realises (advance P p varargs) n c ((lift op >>= k) c.world) post :=
  realises_operate hi hexec fun _ world => h world

/-- The code does `op` for the world alone, and changes temporaries only. -/
def Stores (P : Primitives V σ ε) (p : Proto α) (ρ : Env V) (floor : Nat) (s t : LowerState α)
    (op : Config V σ → Op σ ε Unit) : Prop :=
  ∀ n c, c.pc = s.fs.pc →
    ∀ (Y : Type) (k : Unit → Eval V σ ε Y) (post : Y × σ → Config V σ → Prop),
      (∀ c', c'.pc = t.fs.pc → Same floor c c' →
        Realises (advance P p ρ.varargs) n c' (k () c'.world) post) →
      Realises (advance P p ρ.varargs) n c ((lift (op c) >>= k) c.world) post

theorem stores_single {floor : Nat} {i : Instruction α} (op : Config V σ → Op σ ε Unit)
    (hcode : t.fs.code = s.fs.code ++ [i]) (hagree : Agree p t.fs s.fs.pc t.fs.pc)
    (hexec : ∀ c, exec P p ρ.varargs i c = operate (op c) (fun _ c => c) c)
    (hop : ∀ c pc, op { c with pc } = op c) : Stores P p ρ floor s t op := by
  intro n c hpc Y k post h
  have hi : p.code[c.pc]? = some i :=
    hagree.appended hcode (Nat.le_refl _) hpc (j := 0) Nat.zero_lt_one
  have hpc' : t.fs.pc = c.pc + 1 := by
    rw [FuncState.pc, hcode, List.length_append, hpc]
    rfl
  have hrun := hexec { c with pc := c.pc + 1 }
  rw [hop] at hrun
  exact realises_store hi hrun fun world => h _ hpc'.symm ((Same.refl floor c).moved _ world)

theorem stores_byKey {floor kreg k table r : Nat} {key : Const} (hsmall : Small p)
    (hfloor : floor ≤ kreg) (hkreg : kreg < 256) (htable : table < 256) (hr : r < 256)
    (hne : table ≠ kreg) (hne' : r ≠ kreg) (hconst : p.constants[k]? = some key)
    (hcode : t.fs.code = s.fs.code ++ [encodeAbx .loadK kreg k, encodeAbc .setTable table kreg r])
    (hagree : Agree p t.fs s.fs.pc t.fs.pc) :
    Stores P p ρ floor s t fun c => P.newindex (c.regs table) (P.const key) (c.regs r) := by
  intro n c hpc Y f post h
  have hk : k < 65536 :=
    Nat.lt_of_lt_of_le (List.getElem?_eq_some_iff.mp hconst).1 hsmall.constants
  have hat {j : Nat} := hagree.appended hcode (Nat.le_refl _) hpc (j := j)
  have hstore : p.code[c.pc + 1]? = some (encodeAbc .setTable table kreg r) :=
    hat (j := 1) (by simp)
  have hpc' : t.fs.pc = c.pc + 2 := by
    rw [FuncState.pc, hcode, List.length_append, hpc]
    rfl
  show Realises _ n c
    ((lift (P.newindex (c.regs table) (P.const key) (c.regs r)) >>= f) c.world) post
  refine realises_write (hat (j := 0) (by simp)) (exec_loadK hkreg hk hconst)
    fun c₁ hc₁ hworld => ?_
  rw [← hc₁.pc] at hstore
  rw [← hworld, ← hc₁.value, ← hc₁.others table hne, ← hc₁.others r hne']
  refine realises_store hstore (exec_setTable htable hkreg hr) fun world => ?_
  refine h _ ?_ ((hc₁.same hfloor).moved _ world)
  show c₁.pc + 1 = t.fs.pc
  rw [hpc', hc₁.pc]

structure StoreCode (P : Primitives V σ ε) (ρ : Env V) (s : LowerState α) (floor : Nat)
    (op : Config V σ → Proto α → Op σ ε Unit) (t : LowerState α) : Prop where
  grown : Extends s t
  stores : ∀ p, Small p → Covers p t.fs → Agree p t.fs s.fs.pc t.fs.pc →
    Stores P p ρ floor s t (op · p)

theorem storeNamed_ok {r ki rv : Nat} {name : Const} (hr : r < s.fs.freereg)
    (hstack : r < s.fs.maxstack) (hrv : rv ≠ s.fs.freereg) (hrv' : rv < s.fs.maxstack)
    (hki : s.fs.constants[ki]? = some name) :
    Ensures (storeNamed r ki rv) s fun _ t => StoreCode P ρ s s.fs.freereg
      (fun c _ => P.newindex (c.regs r) (P.const name) (c.regs rv)) t := by
  have hlt : ki < s.fs.constants.length := (List.getElem?_eq_some_iff.mp hki).1
  simp only [storeNamed, loadKey, ensures_ite, ensures_bind, ensures_newReg, ensures_discard,
    ensures_codeAbc, ensures_codeAbx, ensures_pure]
  refine ⟨fun hle => ?_, fun _ _ => ?_⟩
  · have hgrown := (Extends.refl s).emit (encodeAbc .setField r ki rv)
    refine ⟨hgrown, fun p hsmall hcovers hagree => ?_⟩
    have hcovers' := hcovers.before hgrown
    have hconst : p.constants[ki]? = some name := by
      rw [getElem?_grown hcovers.constants hlt]
      exact hki
    exact stores_single _ rfl hagree (fun c => exec_setField (hcovers'.lt hsmall hstack)
      (Nat.lt_succ_of_le hle) (hcovers'.lt hsmall hrv') hconst) fun _ _ => rfl
  · have hgrown := (((Extends.refl s).reserved 1).emit (encodeAbx .loadK s.fs.freereg ki)).emit
      (encodeAbc .setTable r s.fs.freereg rv)
    refine ⟨hgrown, fun p hsmall hcovers hagree => ?_⟩
    have hcovers' := hcovers.before hgrown
    have hconst : p.constants[ki]? = some name := by
      rw [getElem?_grown hcovers.constants hlt]
      exact hki
    have hkreg : s.fs.freereg < 256 :=
      hcovers.lt hsmall (Nat.lt_of_lt_of_le (Nat.lt_succ_self _) (Nat.le_max_right _ _))
    exact stores_byKey hsmall (Nat.le_refl _) hkreg (hcovers'.lt hsmall hstack)
      (hcovers'.lt hsmall hrv') (Nat.ne_of_lt hr) hrv hconst (List.append_assoc _ _ _) hagree

end Stores

/-! ## Fields -/

section Fields

variable {P : Primitives V σ ε} {ρ : Env V} {names : List Name} {s t u : LowerState α}

def CorrectField (α : Type) (P : Primitives V σ ε) (ρ : Env V) (names : List Name) :
    Field → Prop
  | .positional value => Correct α P ρ names value
  | .named _ value => Correct α P ρ names value
  | .keyed _ _ => False

/-- A field that gives many values is followed by another positional one, or by none. -/
def expandsLast : List Field → Bool
  | [] => true
  | .positional value :: fields =>
      (listKind value == .single || fields.isEmpty || fields.any Field.isPositional) &&
        expandsLast fields
  | _ :: fields => expandsLast fields

structure FieldsCode (P : Primitives V σ ε) (ρ : Env V) (s : LowerState α) (r first : Nat)
    (fields : List Field) (count : Nat) (isOpen : Bool) (t : LowerState α) : Prop where
  grown : Extends s t
  length : count ≤ fields.countP Field.isPositional
  some : (0 < count ∨ isOpen = true) ↔ fields.any Field.isPositional = true
  delivers : ∀ p, Small p → Covers p t.fs → Agree p t.fs s.fs.pc t.fs.pc →
    ∀ n c, c.pc = s.fs.pc → Holds s.fs ρ c →
      ∀ (Y : Type) (k : List V → Eval V σ ε Y) (post : Y × σ → Config V σ → Prop),
        (∀ values c', c'.pc = t.fs.pc → Same first c c' →
          c'.between first (first + values.length) = values →
          (if isOpen then c'.top = first + values.length else values.length = count) →
          Realises (advance P p ρ.varargs) n c' (k values c'.world) post) →
        Realises (advance P p ρ.varargs) n c
          ((evalFields P ρ (c.regs r) fields >>= k) c.world) post

theorem any_fieldItems (fields : List Field) :
    (fieldItems fields : List (FieldItem α)).any FieldItem.isPositional =
      fields.any Field.isPositional := by
  induction fields with
  | nil => rfl
  | cons field fields ih =>
      cases field with
      | positional _ =>
          rw [fieldItems, List.any_cons, List.any_cons, ih]
          rfl
      | named _ _ =>
          rw [fieldItems, List.any_cons, List.any_cons, ih]
          rfl
      | keyed _ _ =>
          rw [fieldItems, List.any_cons, List.any_cons, ih]
          rfl

theorem ListCode.since {first m : Nat} {ev : Eval V σ ε (List V)} {isOpen : Bool}
    (h : ListCode P ρ { s with fs := s.fs.setFreereg m } first ev isOpen t) :
    ListCode P ρ s first ev isOpen t where
  grown := ((Extends.refl s).setFreereg m).trans h.grown
  free := h.free
  stack := h.stack
  delivers p hsmall hcovers hagree := (h.delivers p hsmall hcovers hagree).within rfl rfl rfl

theorem FieldsCode.ofOpen {r first : Nat} {value : Expr} {ev : Eval V σ ε (List V)}
    (hkind : listKind value ≠ .single) (hev : evalMulti P ρ none value = ev)
    (h : ListCode P ρ s first ev true t) :
    FieldsCode P ρ s r first [.positional value] 0 true t where
  grown := h.grown
  length := Nat.zero_le _
  some := by
    constructor
    · exact fun _ => rfl
    · exact fun _ => .inr rfl
  delivers p hsmall hcovers hagree n c hpc hholds Y k post hend := by
    have hfields : evalFields P ρ (c.regs r) [.positional value] = ev := by
      rw [evalFields, List.isEmpty_nil, Bool.true_and, if_pos (bne_iff_ne.mpr hkind), hev]
    rw [hfields]
    exact h.delivers p hsmall hcovers hagree n c hpc hholds Y k post
      fun values c' hpc' hsame hlisted => hend values c' hpc' hsame hlisted.1 hlisted.2

theorem tableFields_positional {r na : Nat} {value : Expr} {fields : List Field}
    (h : fields.any Field.isPositional = true ∨ listKind value = .single) (hna : na + 1 < 50) :
    (tableFields r (fieldItems (.positional value :: fields)) na na :
      Lower α (Nat × Nat × Bool)) = (do
      setFreereg (r + 1 + na)
      let rv ← exp2reg (← expr value)
      moveTo (r + 1 + na) rv
      setFreereg (r + 1 + na + 1)
      tableFields r (fieldItems fields) (na + 1) (na + 1)) := by
  have hne : na + 1 ≠ 50 := Nat.ne_of_lt hna
  obtain h | h := h
  · simp [fieldItems, tableFields, any_fieldItems, h, hne]
  · simp [fieldItems, tableFields, h, hne]

theorem tableFields_ok {r : Nat} : ∀ (fields : List Field) (s : LowerState α) (na : Nat),
    (∀ field ∈ fields, CorrectField α P ρ names field) → expandsLast fields = true →
    na + fields.countP Field.isPositional < 50 → Ready s →
    s.fs.locals.map Local.name = names → s.fs.nactvar ≤ r → r < s.fs.maxstack →
    s.fs.freereg = r + 1 + na →
    Ensures (tableFields r (fieldItems fields) na na) s fun res t =>
      ∃ count isOpen, res = (na + count, na + count, isOpen) ∧
        FieldsCode P ρ s r (r + 1 + na) fields count isOpen t
  | [], s, na, _, _, _, _, _, _, _, _ => by
      rw [fieldItems, tableFields, ensures_pure]
      refine ⟨0, false, rfl, .refl s, Nat.le_refl 0, by simp, ?_⟩
      intro p _ _ _ n c hpc _ Y k post hend
      rw [evalFields, pure_bind]
      exact hend [] c hpc (.refl _ c) between_self rfl
  | .keyed _ _ :: _, _, _, hcorrect, _, _, _, _, _, _, _ =>
      (hcorrect _ List.mem_cons_self).elim
  | .named name value :: fields, s, na, hcorrect, hlast, hcount, hready, hnames, hactive, hstack,
      hfree => by
      have hvalue : Correct α P ρ names value := hcorrect _ List.mem_cons_self
      simp only [fieldItems, tableFields, ensures_bind, stringK]
      refine (ensures_constIndex _).mono ?_
      rintro ki _ ⟨more, rfl, hki⟩
      have hgrown₁ : Extends s _ := extends_constants more
      refine hvalue.value.operand (hready.extends hgrown₁ (Nat.le_refl _)) hnames
        fun rv t hrv => ?_
      have hst : Extends s t := hgrown₁.trans hrv.grown
      have hfree₁ : s.fs.freereg ≤ t.fs.freereg := hrv.free
      have hlt : ki < (s.fs.constants ++ more).length := (List.getElem?_eq_some_iff.mp hki).1
      have hki' : t.fs.constants[ki]? = some (.string name) := by
        rw [getElem?_grown hrv.grown.constants hlt]
        exact hki
      refine (storeNamed_ok (P := P) (ρ := ρ) (by omega) (Nat.lt_of_lt_of_le hstack hst.maxstack)
        hrv.kept.next hrv.register.2 hki').mono fun _ u hu => ?_
      simp only [ensures_setFreereg]
      let u₁ : LowerState α := { u with fs := u.fs.setFreereg (r + 1 + na) }
      have hsu : Extends s u₁ := (hst.trans hu.grown).setFreereg _
      refine (tableFields_ok fields u₁ na
        (fun field hfield => hcorrect field (List.mem_cons_of_mem _ hfield)) hlast hcount
        (hready.extends hsu (Nat.le_of_eq hfree)) (by rw [hsu.locals, hnames])
        (by rw [hsu.nactvar]; exact hactive) (Nat.lt_of_lt_of_le hstack hsu.maxstack) rfl).mono ?_
      rintro _ v ⟨count, isOpen, rfl, hv⟩
      refine ⟨count, isOpen, rfl, hsu.trans hv.grown, hv.length, hv.some,
        fun p hsmall hcovers hagree n c hpc hholds Y k post hend => ?_⟩
      have huv : Extends u v := ((Extends.refl u).setFreereg _).trans hv.grown
      have hcoversu : Covers p u.fs := hcovers.before huv
      have hagreeu : Agree p u.fs s.fs.pc u.fs.pc :=
        (hagree.mono (Nat.le_refl _) huv.pc).before huv (Nat.le_refl _)
      have hactive' : s.fs.nactvar ≤ s.fs.freereg := hready.free
      have hr : r < s.fs.freereg := by omega
      rw [evalFields, bind_assoc]
      refine hrv.leads p hsmall (hcoversu.before hu.grown)
        ((hagreeu.mono (Nat.le_refl _) hu.grown.pc).before hu.grown (Nat.le_refl _)) n c hpc
        ⟨hholds.scope, hholds.env⟩ Y _ post fun c₁ hpc₁ hsame₁ => ?_
      rw [pure_bind, bind_assoc, ← hsame₁.regs r hr]
      refine hu.stores p hsmall hcoversu (hagreeu.mono hst.pc (Nat.le_refl _)) n c₁ hpc₁ Y _ post
        fun c₂ hpc₂ hsame₂ => ?_
      have hsame : Same s.fs.freereg c c₂ := hsame₁.trans (hsame₂.mono hfree₁)
      rw [← hsame₂.regs r (by omega)]
      refine hv.delivers p hsmall hcovers (hagree.mono hsu.pc (Nat.le_refl _)) n c₂ hpc₂
        (hholds.extends hready hsu hactive' hsame) Y k post
        fun values c₃ hpc₃ hsame₃ => hend values c₃ hpc₃ ?_
      exact (hfree ▸ hsame).trans hsame₃
  | .positional value :: fields, s, na, hcorrect, hlast, hcount, hready, hnames, hactive, hstack,
      hfree => by
      have hvalue : Correct α P ρ names value := hcorrect _ List.mem_cons_self
      obtain ⟨hshape, hlast'⟩ := Bool.and_eq_true_iff.mp hlast
      rw [List.countP_cons_of_pos rfl] at hcount
      have hactive' : s.fs.nactvar ≤ r + 1 + na := by omega
      by_cases hmulti : fields = [] ∧ listKind value ≠ .single
      · obtain ⟨rfl, hkind⟩ := hmulti
        cases value with
        | vararg =>
            simp only [fieldItems, listKind, tableFields, List.any_nil, ensures_bind,
              ensures_setFreereg, Bool.not_false, Bool.true_and, beq_self_eq_true, if_true,
              ensures_pure]
            refine (openVararg_ok (P := P) (ρ := ρ)).mono fun _ t ht => ⟨0, true, rfl, ?_⟩
            exact .ofOpen hkind rfl ht.since
        | call callee args method =>
            have hkinds : (ItemKind.call == ItemKind.vararg) = false := rfl
            simp only [fieldItems, listKind, tableFields, List.any_nil, ensures_bind,
              ensures_setFreereg, Bool.not_false, Bool.true_and, beq_self_eq_true, if_true,
              hkinds, Bool.false_eq_true, if_false, ensures_pure]
            have hready' : Ready { s with fs := s.fs.setFreereg (r + 1 + na) } :=
              hready.extends ((Extends.refl s).setFreereg _) (Nat.le_of_eq hfree)
            refine (openCall_ok hvalue rfl hready' hactive' hnames).mono
              fun _ t ht => ⟨0, true, rfl, ?_⟩
            exact .ofOpen hkind rfl ht.since
        | _ => exact absurd rfl hkind
      · have hsingle : fields.any Field.isPositional = true ∨ listKind value = .single := by
          by_cases hkind : listKind value = .single
          · exact .inr hkind
          · left
            cases fields with
            | nil => exact absurd ⟨rfl, hkind⟩ hmulti
            | cons _ _ => simpa [hkind] using hshape
        have heval (t : V) : evalFields P ρ t (.positional value :: fields) = (do
            let v ← evalExpr P ρ value
            let vs ← evalFields P ρ t fields
            return v :: vs) := by
          rw [evalFields, if_neg]
          intro hopen
          obtain ⟨hempty, hkind⟩ := Bool.and_eq_true_iff.mp hopen
          exact hmulti ⟨List.isEmpty_iff.mp hempty, bne_iff_ne.mp hkind⟩
        rw [tableFields_positional hsingle (by omega)]
        simp only [ensures_bind, ensures_setFreereg]
        let s₁ : LowerState α := { s with fs := s.fs.setFreereg (r + 1 + na) }
        have hgrown₁ : Extends s s₁ := (Extends.refl s).setFreereg _
        have hready₁ : Ready s₁ := hready.extends hgrown₁ (Nat.le_of_eq hfree)
        refine hvalue.value.toPlace (s := s₁) (r + 1 + na) hready₁ hnames hactive'
          (Nat.le_refl _) fun t ht => ?_
        let t₁ : LowerState α := { t with fs := t.fs.setFreereg (r + 1 + na + 1) }
        have hst : Extends s t₁ := (hgrown₁.trans ht.grown).setFreereg _
        refine (tableFields_ok fields t₁ (na + 1)
          (fun field hfield => hcorrect field (List.mem_cons_of_mem _ hfield)) hlast' (by omega)
          (hready.extends hst (hfree ▸ Nat.le_succ _)) (by rw [hst.locals, hnames])
          (by rw [hst.nactvar]; exact hactive) (Nat.lt_of_lt_of_le hstack hst.maxstack) rfl).mono ?_
        rintro _ v ⟨count, isOpen, rfl, hv⟩
        refine ⟨count + 1, isOpen, by simp only [Nat.add_assoc, Nat.add_comm 1], hst.trans hv.grown,
          ?_, ?_, fun p hsmall hcovers hagree n c hpc hholds Y k post hend => ?_⟩
        · rw [List.countP_cons_of_pos rfl]
          exact Nat.succ_le_succ hv.length
        · constructor
          · exact fun _ => rfl
          · exact fun _ => .inl (Nat.succ_pos count)
        have htv : Extends t v := ((Extends.refl t).setFreereg _).trans hv.grown
        have hlt : r + 1 + na < 256 := by
          have hle := hcovers.maxstack.trans hsmall.maxstack
          have hstack' : r < v.fs.maxstack :=
            Nat.lt_of_lt_of_le hstack (hst.trans hv.grown).maxstack
          omega
        have hfirst := ht.delivers p hsmall (hcovers.before htv) hlt
          ((hagree.mono (Nat.le_refl _) htv.pc).before htv (Nat.le_refl _))
        rw [heval, bind_assoc]
        refine hfirst n c hpc ⟨hholds.scope, hholds.env⟩ Y _ post fun w c₁ hpc₁ hsame₁ hw => ?_
        rw [bind_assoc, ← hsame₁.regs r (by omega)]
        refine hv.delivers p hsmall hcovers (hagree.mono hst.pc (Nat.le_refl _)) n c₁ hpc₁
          (hholds.extends hready hst hactive' hsame₁) Y _ post
          fun values c₂ hpc₂ hsame₂ hbetween hopen => ?_
        have hlen : r + 1 + (na + 1) + values.length = r + 1 + na + (values.length + 1) := by
          omega
        rw [hlen] at hbetween hopen
        rw [pure_bind]
        refine hend (w :: values) c₂ hpc₂ (hsame₁.trans (hsame₂.mono (Nat.le_succ _))) ?_ ?_
        · rw [List.length_cons, between_cons]
          show _ :: c₂.between (r + 1 + (na + 1)) _ = _
          rw [hbetween, hsame₂.regs (r + 1 + na) (Nat.lt_succ_self _), ← hw]
        · cases isOpen with
          | true => exact hopen
          | false => exact congrArg (· + 1) hopen

theorem exec_newTable {p : Proto α} {varargs : List V} {c : Config V σ} {a : Nat}
    (ha : a < 256) :
    exec P p varargs (encodeAbc .newTable a 0 0) c =
      operate P.newTable (fun v c => c.set a v) c := by
  simp only [exec, encodeAbc, Instruction.op, Instruction.a, Nat.mod_eq_of_lt ha]

theorem exec_setList {p : Proto α} {varargs : List V} {c : Config V σ} {r b : Nat}
    (hr : r < 256) (hb : b < 256) :
    exec P p varargs (encodeAbc .setList r b 1) c =
      operate (P.setList (c.regs r) 0
        (c.between (r + 1) (if b = 0 then c.top else r + 1 + b))) (fun _ c => c) c := by
  simp only [exec, encodeAbc, Instruction.op, Instruction.a, Instruction.b, Instruction.c,
    Nat.mod_eq_of_lt hr, Nat.mod_eq_of_lt hb]
  rfl

theorem codeSetList_one {r b na : Nat} (hna : na < 50) :
    (codeSetList r b na : Lower α Unit) = discard (codeAbc .setList r b 1) := by
  rw [codeSetList]
  by_cases h : na = 0
  · rw [if_pos h]
  · have hdiv : (na - 1) / 50 + 1 = 1 := by omega
    rw [if_neg h, hdiv]

theorem computes_table {fields : List Field}
    (hcorrect : ∀ field ∈ fields, CorrectField α P ρ names field)
    (hlast : expandsLast fields = true) (hcount : fields.countP Field.isPositional < 50) :
    Computes (α := α) P ρ names false (lowerTable (fieldItems fields))
      (evalExpr P ρ (.table fields)) := by
  intro s hready hnames
  simp only [lowerTable, ensures_bind, ensures_newReg, ensures_discard, ensures_codeAbc]
  intro _
  generalize hs : s.fs.freereg = r
  let s₁ : LowerState α := { s with fs := (s.fs.reserved 1).emit (encodeAbc .newTable r 0 0) }
  have hgrown₁ : Extends s s₁ := ((Extends.refl s).reserved 1).emit _
  have hactive : s.fs.nactvar ≤ r := hs ▸ hready.free
  have hstack : r < s₁.fs.maxstack := by
    refine Nat.lt_of_lt_of_le (Nat.lt_succ_self r) ?_
    rw [← hs]
    exact Nat.le_max_right _ _
  have hfree : s₁.fs.freereg = r + 1 + 0 := congrArg (· + 1) hs
  refine (tableFields_ok (r := r) fields s₁ 0 hcorrect hlast (by omega)
    (hready.extends hgrown₁ (Nat.le_succ _)) hnames hactive hstack hfree).mono ?_
  rintro _ t ⟨count, isOpen, rfl, ht⟩
  have hna : 0 + count < 50 := by
    have := ht.length
    omega
  have hst : Extends s t := hgrown₁.trans ht.grown
  have hstackt : r < t.fs.maxstack := Nat.lt_of_lt_of_le hstack ht.grown.maxstack
  -- What is left to be done with the values, and what it leaves.
  have hfinish (u : LowerState α) (hgrown : Extends t u)
      (hstores : ∀ p, Small p → Covers p u.fs → Agree p u.fs t.fs.pc u.fs.pc →
        ∀ n c values, c.pc = t.fs.pc → c.between (r + 1) (r + 1 + values.length) = values →
          (if isOpen then c.top = r + 1 + values.length else values.length = count) →
          ∀ (Y : Type) (k : Unit → Eval V σ ε Y) (post : Y × σ → Config V σ → Prop),
            (∀ c', c'.pc = u.fs.pc → Same (r + 1) c c' →
              Realises (advance P p ρ.varargs) n c' (k () c'.world) post) →
            Realises (advance P p ρ.varargs) n c
              ((setListed P fields (c.regs r) values >>= k) c.world) post) :
      Described P ρ false s (evalExpr P ρ (.table fields)) (.nonrelocable r)
        { u with fs := u.fs.setFreereg (r + 1) } :=
    { grown := (hst.trans hgrown).setFreereg _
      free := hs ▸ Nat.le_succ _
      inRange := ⟨.inr (Nat.le_of_eq hs), Nat.lt_of_lt_of_le hstackt hgrown.maxstack⟩
      kept := .of_lt (Nat.lt_succ_self r)
      leads := fun p hsmall hcovers hagree n c hpc hholds Y k post hend => by
        have htu := hgrown.setFreereg (r + 1)
        have hcoversu : Covers p u.fs := ⟨hcovers.constants, hcovers.maxstack⟩
        have hcoverst : Covers p t.fs := hcoversu.before hgrown
        have hagreet : Agree p t.fs s.fs.pc t.fs.pc :=
          (hagree.mono (Nat.le_refl _) hgrown.pc).before htu (Nat.le_refl _)
        have hpc₁ : s₁.fs.pc = s.fs.pc + 1 := pc_emit _ _
        have hnew : p.code[c.pc]? = some (encodeAbc .newTable r 0 0) := by
          have hlt : s.fs.pc < s₁.fs.pc := hpc₁ ▸ Nat.lt_succ_self _
          rw [hpc, hagreet s.fs.pc (Nat.le_refl _) (Nat.lt_of_lt_of_le hlt ht.grown.pc)]
          exact (getElem?_grown ht.grown.code hlt).trans (emit_last rfl)
        rw [evalExpr, bind_assoc]
        refine realises_compute hnew (exec_newTable (hcoverst.lt hsmall hstackt)) fun v c₁ hc₁ => ?_
        have hsame₁ : Same r c c₁ := hc₁.same (Nat.le_refl r)
        rw [bind_assoc, ← hc₁.value]
        refine ht.delivers p hsmall hcoverst (hagreet.mono hgrown₁.pc (Nat.le_refl _)) n c₁
          (by rw [hc₁.pc, hpc, hpc₁])
          (hholds.extends hready hgrown₁ hactive hsame₁) Y _ post
          fun values c₂ hpc₂ hsame₂ hbetween hopen => ?_
        rw [bind_assoc, ← hsame₂.regs r (Nat.lt_succ_self r)]
        refine hstores p hsmall hcoversu (hagree.mono hst.pc (Nat.le_refl _)) n c₂ values hpc₂
          hbetween hopen Y _ post fun c₃ hpc₃ hsame₃ => ?_
        have hgoal := hend c₃ hpc₃ (hs ▸ hsame₁.trans
          ((hsame₂.trans hsame₃).mono (Nat.le_succ r)))
        rw [pure_bind, ← hsame₃.regs r (Nat.lt_succ_self r)]
        exact hgoal }
  have hsome : (0 < 0 + count ∨ isOpen = true) ↔ fields.any Field.isPositional = true := by
    rw [Nat.zero_add]
    exact ht.some
  simp only [codeSetList_one hna, ensures_ite, ensures_bind, ensures_discard, ensures_codeAbc,
    ensures_setFreereg, ensures_pure]
  generalize hb : (if isOpen = true then 0 else 0 + count) = b
  have hbyte : b < 256 := by
    rw [← hb]
    split <;> omega
  refine ⟨fun hcond => ?_, fun hcond => ?_⟩
  · have hgrown := (Extends.refl t).emit (encodeAbc .setList r b 1)
    refine hfinish _ hgrown fun p hsmall hcovers hagree n c values hpc hbetween hopen => ?_
    have hlist : c.between (r + 1) (if b = 0 then c.top else r + 1 + b) = values := by
      cases isOpen with
      | true =>
          have htop : c.top = r + 1 + values.length := hopen
          have hzero : b = 0 := by rw [← hb, if_pos rfl]
          rw [if_pos hzero, htop, hbetween]
      | false =>
          have hlength : values.length = count := hopen
          have hb' : b = count := by rw [← hb, if_neg Bool.false_ne_true, Nat.zero_add]
          have hne : b ≠ 0 := by
            rw [hb']
            have := hcond.resolve_right Bool.false_ne_true
            omega
          rw [if_neg hne, hb', ← hlength, hbetween]
    have hstore : Stores P p ρ (r + 1) t _ _ := stores_single (fun c => P.setList (c.regs r) 0
        (c.between (r + 1) (if b = 0 then c.top else r + 1 + b))) rfl hagree
      (fun c => exec_setList ((hcovers.before hgrown).lt hsmall hstackt) hbyte) fun _ _ => rfl
    rw [setListed, if_pos (hsome.mp hcond), ← hlist]
    exact hstore n c hpc
  · refine hfinish t (.refl t) fun p _ _ _ n c values hpc _ _ Y k post hend => ?_
    rw [setListed, if_neg (fun h => hcond (hsome.mpr h)), pure_bind]
    exact hend c hpc (.refl _ c)

end Fields

end Luatier.Lowering
