import Luatier.Frontend.GotoSteps

/-!
# Statements and the linker

Each form of statement does what the linker does for its events, if its parts do.
-/

namespace Luatier.Lowering

open StateFrame

variable {α β : Type} {P : Proto α → Prop} {s t v : LowerState α} {a b : Linker}

def Emits (P : Proto α → Prop) (m : Lower α Unit) (es : List LabelEvent) : Prop :=
  ∀ s t a, Simulates s.fs a → s.fs.Tidy → m s = .ok ((), t) →
    ∃ b, Linker.run es a = some b ∧ Reached P s t b ∧ t.fs.Tidy ∧
      b.blocks = a.blocks ∧ b.saved = a.saved

def EmitsOpen (P : Proto α → Prop) (m : Lower α Unit) (es : List LabelEvent) : Prop :=
  ∀ s t a, Simulates s.fs a → s.fs.Tidy → m s = .ok ((), t) →
    ∃ b, Linker.run es a = some b ∧ Reached P s t b ∧
      b.blocks = a.blocks ∧ b.saved = a.scope.length :: a.saved

abbrev KeepsAll (P : Proto α → Prop) (m : Lower α β) : Prop :=
  ∀ n, (exprFrame P n).Keeps m

theorem keeps_freeToActive : KeepsAll P freeToActive :=
  fun _ => keeps_regs (fun _ => rfl) (fun _ => rfl) fun _ => rfl

theorem tidy_freeToActive {u : Unit} (hm : freeToActive s = .ok (u, t)) : t.fs.Tidy := by
  cases hm
  exact Nat.le_refl _

theorem keeps_raiseMaxstack (n : Nat) :
    KeepsAll P (modifyFs (·.raiseMaxstack n)) :=
  fun _ => keeps_regs (fun _ => rfl) (fun _ => rfl) fun _ => rfl

theorem Emits.of_keeps {m : Lower α Unit} (hk : KeepsAll P m)
    (htidy : ∀ s t, s.fs.Tidy → m s = .ok ((), t) → t.fs.Tidy) : Emits P m [] := by
  intro s t a hs hstidy hm
  obtain ⟨hreached, -, -⟩ := (Reached.refl hs).keeps hm hk
  exact ⟨a, rfl, hreached, htidy s t hstidy hm, rfl, rfl⟩

/-! ## Lists of expressions -/

section Lists

variable {items : List (Item α)}

theorem keeps_moveResults (ca dest : Nat) (need : Int) :
    KeepsAll P (moveResults ca dest need) :=
  fun _ => keeps_forM _ fun _ => keeps_moveTo _ _

theorem keeps_fillValues (base n : Nat) : ∀ (items : List (Item α)) (i : Nat),
    (∀ item ∈ items, item.Ok P) → KeepsAll P (fillValues base n i items)
  | [], i, _ => fun _ => keeps_pure i
  | item :: items, i, h => by
      intro k
      have hitem := h item List.mem_cons_self
      have hrest := keeps_fillValues base n items (i + 1)
        fun item hi => h item (List.mem_cons_of_mem _ hi)
      obtain ⟨kind, emit⟩ := item
      have hplain : (exprFrame P k).Keeps (do
          setFreereg (base + i)
          let er ← exp2reg (← emit)
          moveTo (base + i) er
          setFreereg (base + i + 1)
          fillValues base n (i + 1) items) :=
        (keeps_setFreereg _).andThen fun _ => (hitem.keeps k).andThen fun _ =>
          (keeps_exp2reg _).andThen fun _ => (keeps_moveTo _ _).andThen fun _ =>
          (keeps_setFreereg _).andThen fun _ => hrest k
      cases items with
      | cons _ _ => cases kind <;> exact hplain
      | nil =>
          cases kind with
          | single => exact hplain
          | vararg =>
              exact (keeps_setFreereg _).andThen fun _ => (keeps_code _).andThen fun _ =>
                (keeps_setFreereg _).andThen fun _ => keeps_pure _
          | call =>
              exact (keeps_setFreereg _).andThen fun _ => keeps_emitPatch hitem rfl _ fun _ =>
                (keeps_moveResults _ _ _ k).andThen fun _ =>
                (keeps_setFreereg _).andThen fun _ => keeps_pure _

theorem keeps_padNil (base n filled : Nat) : KeepsAll P (padNil base n filled) :=
  fun _ => keeps_forM _ fun _ => keeps_code _

theorem emits_localDecl {names : List Name} (h : ∀ item ∈ items, item.Ok P) :
    Emits P (lowerLocalDecl names items) [.declare names.length] := by
  intro s t a hs _ hm
  obtain ⟨_, s₁, hfree, hm⟩ := bind_ok.mp hm
  obtain ⟨h₁, -, hactive₁, -⟩ := (Reached.refl hs).keeps hfree keeps_freeToActive
  have hfreereg : s₁.fs.freereg = s₁.fs.nactvar := by
    cases hfree
    rfl
  obtain ⟨_, _, hget, hm⟩ := bind_ok.mp hm
  cases hget
  obtain ⟨_, s₂, hraise, hm⟩ := bind_ok.mp hm
  obtain ⟨h₂, -, hactive₂, -⟩ := h₁.keeps hraise (keeps_raiseMaxstack _)
  obtain ⟨filled, s₃, hfill, hm⟩ := bind_ok.mp hm
  obtain ⟨h₃, -, hactive₃, -⟩ := h₂.keeps hfill (keeps_fillValues _ _ items 0 h)
  obtain ⟨_, s₄, hpad, hm⟩ := bind_ok.mp hm
  obtain ⟨h₄, -, hactive₄, -⟩ := h₃.keeps hpad (keeps_padNil _ _ _)
  obtain ⟨_, s₅, hpush, hm⟩ := bind_ok.mp hm
  have hbase : s₄.fs.nactvar ≤ s₁.fs.freereg + 0 := by omega
  have hsmall : names = [] ∨ s₁.fs.freereg + 0 < maxStack := by
    cases names with
    | nil => exact Or.inl rfl
    | cons name names =>
        obtain ⟨_, _, hpush', -⟩ := bind_ok.mp hpush
        have hvars := (pushLocal_ok hpush').1
        right
        change s₄.fs.nactvar + 1 ≤ 200 at hvars
        show s₁.fs.freereg + 0 < 250
        omega
  obtain ⟨h₅, -, -⟩ := h₄.pushLocals names hbase hsmall hpush
  obtain ⟨h₆, -, -⟩ := h₅.keeps hm keeps_freeToActive
  exact ⟨_, rfl, h₆, tidy_freeToActive hm, rfl, rfl⟩

end Lists

/-! ## Assignments and calls -/

theorem keeps_snapshot (e : Expdesc) : KeepsAll P (snapshot e) := by
  intro n
  cases e with
  | indexed table key indexKey =>
      cases indexKey with
      | reg =>
          exact keeps_newReg.andThen fun _ => (keeps_code _).andThen fun _ =>
            keeps_newReg.andThen fun _ => (keeps_code _).andThen fun _ => keeps_pure _
      | _ =>
          exact keeps_newReg.andThen fun _ => (keeps_code _).andThen fun _ => keeps_pure _
  | _ => exact keeps_pure _

theorem keeps_targets (vars : List (Lower α Expdesc)) (h : ∀ var ∈ vars, KeepsAll P var) :
    KeepsAll P (targets vars) := by
  intro n
  induction vars with
  | nil => exact keeps_pure _
  | cons var vars ih =>
      exact (h var List.mem_cons_self n).andThen fun e => (keeps_snapshot e n).andThen fun _ =>
        (ih fun v hv => h v (List.mem_cons_of_mem _ hv)).andThen fun _ => keeps_pure _

theorem keeps_storevar (var : Expdesc) (reg : Nat) : KeepsAll P (storevar var reg) := by
  intro n
  cases var with
  | «local» dest => exact keeps_code _
  | upval idx => exact keeps_code _
  | indexed table key indexKey => exact keeps_code _
  | globalIn table k =>
      refine yields_ite (fun _ => keeps_code _) fun _ => ?_
      exact (keeps_loadKey _).andThen fun _ => keeps_code _
  | global k =>
      refine keeps_ensureEnvUpval.andThen fun env => ?_
      refine yields_ite (fun _ => keeps_code _) fun _ => ?_
      exact keeps_newReg.andThen fun _ => (keeps_code _).andThen fun _ =>
        (keeps_loadKey _).andThen fun _ => keeps_code _
  | nonrelocable reg => exact keeps_throw _
  | constant k => exact keeps_throw _
  | call info => exact keeps_throw _

theorem keeps_storeAll (base : Nat) (vars : List Expdesc) (i : Nat) :
    KeepsAll P (storeAll base i vars) := by
  intro n
  induction vars generalizing i with
  | nil => exact keeps_pure _
  | cons var vars ih => exact (keeps_storevar _ _ n).andThen fun _ => ih (i + 1)

theorem emits_assign {vars : List (Lower α Expdesc)} {items : List (Item α)}
    (hvars : ∀ var ∈ vars, KeepsAll P var) (h : ∀ item ∈ items, item.Ok P) :
    Emits P (lowerAssign vars items) [] := by
  refine .of_keeps (fun n => ?_) fun s t _ hm => ?_
  · exact (keeps_freeToActive n).andThen fun _ => (keeps_targets vars hvars n).andThen fun _ =>
      (yields_getFs fun _ => trivial).andThen fun _ => (keeps_raiseMaxstack _ n).andThen
      fun _ => (keeps_fillValues _ _ items 0 h n).andThen fun _ =>
      (keeps_padNil _ _ _ n).andThen fun _ => (keeps_storeAll _ _ 0 n).andThen fun _ =>
      keeps_freeToActive n
  · obtain ⟨_, _, -, hm⟩ := bind_ok.mp hm
    obtain ⟨_, _, -, hm⟩ := bind_ok.mp hm
    obtain ⟨_, _, -, hm⟩ := bind_ok.mp hm
    obtain ⟨_, _, -, hm⟩ := bind_ok.mp hm
    obtain ⟨_, _, -, hm⟩ := bind_ok.mp hm
    obtain ⟨_, _, -, hm⟩ := bind_ok.mp hm
    obtain ⟨_, _, -, hm⟩ := bind_ok.mp hm
    exact tidy_freeToActive hm

theorem emits_callStmt {item : Item α} (h : item.Ok P) (hkind : item.kind = .call) :
    Emits P (lowerCallStmt item.emit) [] := by
  refine .of_keeps (fun n => (h.keeps n).andThen fun e => ?_) fun s t _ hm => ?_
  · cases e with
    | call info => exact keeps_freeToActive n
    | nonrelocable reg => exact keeps_freeToActive n
    | _ => exact keeps_pure _
  · obtain ⟨e, s', hemit, hm⟩ := bind_ok.mp hm
    obtain ⟨base, rfl, -⟩ := h.call hkind s e s' hemit
    exact tidy_freeToActive hm

theorem keeps_fieldOf (reg : Nat) (name : Name) : KeepsAll P (fieldOf reg name) := by
  refine fun n => (keeps_stringK name).andThen fun ki => keeps_newReg.andThen fun d => ?_
  split
  · exact (keeps_code _).andThen fun _ => keeps_pure _
  · exact (keeps_loadKey _).andThen fun _ => (keeps_code _).andThen fun _ => keeps_pure _

theorem keeps_storePath (er : Nat) (path : List Name) : ∀ reg,
    KeepsAll P (storePath er reg path) := by
  induction path with
  | nil => exact fun _ _ => keeps_pure _
  | cons name path ih =>
      intro reg n
      cases path with
      | nil => exact (keeps_stringK name).andThen fun _ => keeps_storeNamed _ _ _
      | cons name' path => exact (keeps_fieldOf reg name n).andThen fun d => ih d n

theorem keeps_storeName (er : Nat) (namePath : List Name) :
    KeepsAll P (storeName er namePath) := by
  intro n
  match namePath with
  | [] => exact keeps_pure _
  | [name] => exact (yields_searchVar name).andThen fun e => keeps_storevar e er n
  | name :: name' :: path =>
      exact (yields_searchVar name).andThen fun e => (keeps_exp2reg e).andThen fun reg =>
        keeps_storePath er _ reg n

theorem emits_functionDecl (namePath : List Name) {fn : Lower α Expdesc}
    (h : KeepsAll P fn) : Emits P (lowerFunctionDecl namePath fn) [] := by
  refine .of_keeps (fun n => ?_) fun s t _ hm => ?_
  · exact (h n).andThen fun e => (keeps_exp2reg e).andThen fun er =>
      (keeps_storeName er namePath n).andThen fun _ => keeps_freeToActive n
  · obtain ⟨_, _, -, hm⟩ := bind_ok.mp hm
    obtain ⟨_, _, -, hm⟩ := bind_ok.mp hm
    obtain ⟨_, _, -, hm⟩ := bind_ok.mp hm
    exact tidy_freeToActive hm

theorem reserve_ok {n : Nat} {u : Unit} (hm : reserve n s = .ok (u, t)) :
    t = ⟨s.fs.reserved n, s.prev⟩ ∧ s.fs.freereg + n ≤ maxStack - 1 := by
  obtain ⟨_, _, hreserve, hm⟩ := bind_ok.mp hm
  cases hreserve
  obtain ⟨_, _, hget, hm⟩ := bind_ok.mp hm
  cases hget
  unfold checkLimit at hm
  split at hm
  · exact nomatch hm
  · next hle =>
      cases hm
      exact ⟨rfl, Nat.not_lt.mp hle⟩

theorem newReg_ok {r : Nat} (hm : newReg s = .ok (r, t)) :
    r = s.fs.freereg ∧ t = ⟨s.fs.reserved 1, s.prev⟩ ∧ s.fs.freereg + 1 ≤ maxStack - 1 := by
  obtain ⟨_, _, hget, hm⟩ := bind_ok.mp hm
  cases hget
  obtain ⟨_, _, hreserve, hm⟩ := bind_ok.mp hm
  cases hm
  exact ⟨rfl, reserve_ok hreserve⟩

theorem emits_localFunction (name : Name) {fn : Lower α Expdesc} (h : KeepsAll P fn) :
    Emits P (lowerLocalFunction name fn) [.declare 1] := by
  intro s t a hs htidy hm
  obtain ⟨r, s₁, hreg, hm⟩ := bind_ok.mp hm
  obtain ⟨h₁, -, hactive, -⟩ :=
    (Reached.refl (P := P) hs).keeps hreg fun _ => keeps_newReg
  obtain ⟨rfl, -, hlimit⟩ := newReg_ok hreg
  obtain ⟨_, s₂, hpush, hm⟩ := bind_ok.mp hm
  obtain ⟨-, rfl⟩ := pushLocal_ok hpush
  have h₂ := h₁.addLocal name (hactive.le.trans htidy)
    (Nat.lt_of_succ_le (hlimit.trans (Nat.sub_le _ _)))
  obtain ⟨e, s₃, hfn, hm⟩ := bind_ok.mp hm
  obtain ⟨h₃, -, -⟩ := h₂.keeps hfn h
  obtain ⟨er, s₄, her, hm⟩ := bind_ok.mp hm
  obtain ⟨h₄, -, -⟩ := h₃.keeps her fun _ => keeps_exp2reg e
  obtain ⟨_, s₅, hmove, hm⟩ := bind_ok.mp hm
  obtain ⟨h₅, -, -⟩ := h₄.keeps hmove fun _ => keeps_moveTo _ _
  obtain ⟨h₆, -, -⟩ := h₅.keeps hm keeps_freeToActive
  exact ⟨_, rfl, h₆, tidy_freeToActive hm, rfl, rfl⟩

/-! ## Return and break -/

theorem modify_concat {γ : Type} (front : List γ) (x : γ) (f : γ → γ) :
    (front ++ [x]).modify front.length f = front ++ [f x] := by
  induction front with
  | nil => rfl
  | cons y front ih =>
      rw [List.cons_append, List.length_cons, List.modify_succ_cons, ih]
      rfl

theorem lowerTailCall_ok {emit : Lower α Expdesc} {s₁ s₂ : LowerState α} {e : Expdesc}
    {u : Unit} {front : List (Instruction α)} {x y z : Nat}
    (hm : lowerTailCall emit s = .ok (u, t)) (hfree : freeToActive s = .ok ((), s₁))
    (hemit : emit s₁ = .ok (e, s₂)) (hcode : s₂.fs.code = front ++ [.abc .call x y z]) :
    ∃ rest, rest ≠ [] ∧ t = ⟨{ s₂.fs with code := front ++ rest }, s₂.prev⟩ := by
  obtain ⟨_, _, hfree', hm⟩ := bind_ok.mp hm
  cases hfree.symm.trans hfree'
  obtain ⟨_, _, hemit', hm⟩ := bind_ok.mp hm
  cases hemit.symm.trans hemit'
  obtain ⟨_, _, hget, hm⟩ := bind_ok.mp hm
  cases hget
  rw [lastCall_eq hcode] at hm
  cases hclose : closeLevel s₂.fs.locals with
  | none =>
      simp only [hclose] at hm
      cases hm
      refine ⟨[encodeAbc .tailCall x y 0], List.cons_ne_nil _ _, ?_⟩
      have htail := modify_concat front (.abc .call x y z : Instruction α)
        fun i => encodeAbc .tailCall i.a i.b 0
      rw [← hcode] at htail
      exact congrArg (fun code => LowerState.mk { s₂.fs with code } s₂.prev) htail
  | some level =>
      simp only [hclose] at hm
      cases hm
      have hinserted : (s₂.fs.insertClose front.length level).code =
          (front ++ [encodeAsbx .jmp (level + 1) 0]) ++ [.abc .call x y z] := by
        show s₂.fs.code.take _ ++ _ :: s₂.fs.code.drop _ = _
        rw [hcode, List.take_left, List.drop_left, List.append_assoc]
        rfl
      refine ⟨[encodeAsbx .jmp (level + 1) 0, encodeAbc .tailCall x y 0],
        List.cons_ne_nil _ _, ?_⟩
      have htail := modify_concat (front ++ [encodeAsbx .jmp (level + 1) 0])
        (.abc .call x y z : Instruction α) fun i => encodeAbc .tailCall i.a i.b 0
      rw [← hinserted, List.length_append, List.append_assoc] at htail
      exact congrArg (fun code => LowerState.mk { s₂.fs with code } s₂.prev) htail

theorem emits_tailCall {item : Item α} (h : item.Ok P) (hkind : item.kind = .call) :
    Emits P (lowerTailCall item.emit) [] := by
  intro s t a hs _ hm
  obtain ⟨_, s₁, hfree, hrest⟩ := bind_ok.mp hm
  obtain ⟨e, s₂, hemit, -⟩ := bind_ok.mp hrest
  obtain ⟨h₁, -, -⟩ := (Reached.refl (P := P) hs).keeps hfree keeps_freeToActive
  obtain ⟨base, -, hend⟩ := h.call hkind s₁ e s₂ hemit
  obtain ⟨hlen, hframe, -⟩ :=
    (h.keeps s₁.fs.code.length).of_ok hemit (Nat.le_refl _)
  obtain ⟨front, x, y, z, hcode⟩ := hend.call
  obtain ⟨rest, hrest, rfl⟩ := lowerTailCall_ok hm hfree hemit hcode
  have hfront : s₁.fs.code.length ≤ front.length := by
    have hlonger := hend.longer
    rw [hcode, List.length_append, List.length_singleton] at hlonger
    exact Nat.le_of_lt_succ hlonger
  have hpatched : Frame P s₁.fs.code.length s₂
      ⟨{ s₂.fs with code := front ++ rest }, s₂.prev⟩ := by
    refine ⟨?_, rfl, id, rfl⟩
    show (front ++ rest).take _ = s₂.fs.code.take _
    rw [hcode, List.take_append_of_le_length hfront, List.take_append_of_le_length hfront]
  have h₂ := h₁.frame ((exprFrame P _).trans hframe hpatched) (by
    show _ ≤ (front ++ rest).length
    rw [List.length_append]
    exact Nat.le_add_right_of_le hfront)
  refine ⟨a, rfl, h₂, ?_, rfl, rfl⟩
  show s₂.fs.nactvar ≤ s₂.fs.freereg
  rw [hframe.nactvar, hend.freereg]
  exact Nat.le_succ_of_le hend.active

theorem keeps_returnValues (base : Nat) : ∀ (items : List (Item α)) (i : Nat),
    (∀ item ∈ items, item.Ok P) → KeepsAll P (returnValues base i items)
  | [], _, _ => fun _ => keeps_pure _
  | item :: items, i, h => by
      intro n
      have hitem := h item List.mem_cons_self
      have hrest := keeps_returnValues base items (i + 1)
        fun item hi => h item (List.mem_cons_of_mem _ hi)
      obtain ⟨kind, emit⟩ := item
      have hplain : (exprFrame P n).Keeps (do
          let dest := base + i
          setFreereg dest
          let r ← exp2reg (← emit)
          moveTo dest r
          setFreereg (max (← getFs).freereg (dest + 1))
          returnValues base (i + 1) items) :=
        (keeps_setFreereg _).andThen fun _ => (hitem.keeps n).andThen fun _ =>
          (keeps_exp2reg _).andThen fun _ => (keeps_moveTo _ _).andThen fun _ =>
          (yields_getFs fun _ => trivial).andThen fun _ => (keeps_setFreereg _).andThen
          fun _ => hrest n
      cases items with
      | cons _ _ => cases kind <;> exact hplain
      | nil =>
          cases kind with
          | single => exact hplain
          | vararg => exact (keeps_openVararg _).andThen fun _ => keeps_pure _
          | call => exact (keeps_openCall hitem rfl _).andThen fun _ => keeps_pure _

theorem nactvar_of_keeps {m : Lower α β} {u : β} (hk : KeepsAll P m)
    (hm : m s = .ok (u, t)) : t.fs.nactvar = s.fs.nactvar :=
  ((hk 0).of_ok hm (Nat.zero_le _)).2.1.nactvar

theorem tidy_openCall {item : Item α} (h : item.Ok P) (hkind : item.kind = .call)
    {dest : Nat} {u : Unit} (hm : openCall dest item.emit s = .ok (u, t)) : t.fs.Tidy := by
  obtain ⟨_, s₁, -, hm⟩ := bind_ok.mp hm
  obtain ⟨_, s₂, hemit, hm⟩ := bind_ok.mp hm
  obtain ⟨e, hemit, -⟩ := map_ok.mp hemit
  change item.emit s₁ = .ok (e, s₂) at hemit
  obtain ⟨base, -, hend⟩ := h.call hkind _ e s₂ hemit
  have hactive : s₂.fs.nactvar = s₁.fs.nactvar :=
    nactvar_of_keeps (P := P) (fun n => (h.keeps n).keeps) hemit
  obtain ⟨front, x, y, z, hcode⟩ := hend.call
  have hpatch := patchLastCall_eq hcode 0
  obtain ⟨r, hm, -⟩ := map_ok.mp hm
  cases hpatch.symm.trans hm
  show s₂.fs.nactvar ≤ s₂.fs.freereg
  rw [hactive, hend.freereg]
  exact Nat.le_succ_of_le hend.active

theorem tidy_returnValues (base : Nat) : ∀ (items : List (Item α)) (i : Nat),
    (∀ item ∈ items, item.Ok P) → ∀ s r t, s.fs.nactvar ≤ base → s.fs.Tidy →
      returnValues base i items s = .ok (r, t) → t.fs.Tidy
  | [], _, _ => by
      intro s r t _ htidy hm
      cases hm
      exact htidy
  | item :: items, i, h => by
      intro s r t hbase htidy hm
      have hitem := h item List.mem_cons_self
      have hrest : ∀ s r t, s.fs.nactvar ≤ base → s.fs.Tidy →
          returnValues base (i + 1) items s = .ok (r, t) → t.fs.Tidy :=
        tidy_returnValues base items (i + 1) fun item hi => h item (List.mem_cons_of_mem _ hi)
      obtain ⟨kind, emit⟩ := item
      have hplain : (do
          let dest := base + i
          setFreereg dest
          let r ← exp2reg (← emit)
          moveTo dest r
          setFreereg (max (← getFs).freereg (dest + 1))
          returnValues base (i + 1) items) s = .ok (r, t) → t.fs.Tidy := by
        intro hm
        obtain ⟨_, s₁, hset, hm⟩ := bind_ok.mp hm
        cases hset
        obtain ⟨e, s₂, hemit, hm⟩ := bind_ok.mp hm
        have hactive₂ := nactvar_of_keeps (P := P) (fun n => (hitem.keeps n).keeps) hemit
        obtain ⟨er, s₃, her, hm⟩ := bind_ok.mp hm
        have hactive₃ := nactvar_of_keeps (P := P) (fun _ => keeps_exp2reg e) her
        obtain ⟨_, s₄, hmove, hm⟩ := bind_ok.mp hm
        have hactive₄ := nactvar_of_keeps (P := P) (fun _ => keeps_moveTo _ _) hmove
        obtain ⟨_, _, hget, hm⟩ := bind_ok.mp hm
        cases hget
        obtain ⟨_, s₅, hset, hm⟩ := bind_ok.mp hm
        cases hset
        have hactive : s₄.fs.nactvar ≤ base := by
          rw [hactive₄, hactive₃, hactive₂]
          exact hbase
        refine hrest ⟨s₄.fs.setFreereg (max s₄.fs.freereg (base + i + 1)), s₄.prev⟩ r t hactive
          (hactive.trans ?_) hm
        show base ≤ max s₄.fs.freereg (base + i + 1)
        omega
      cases items with
      | cons _ _ => cases kind <;> exact hplain hm
      | nil =>
          cases kind with
          | single => exact hplain hm
          | vararg =>
              obtain ⟨_, s₁, hopen, hm⟩ := bind_ok.mp hm
              cases hm
              have hactive := nactvar_of_keeps (P := P)
                (fun _ => keeps_openVararg (base + i)) hopen
              obtain ⟨_, s₂, hset, hopen⟩ := bind_ok.mp hopen
              cases hset
              obtain ⟨_, s₃, hreserve, hopen⟩ := bind_ok.mp hopen
              obtain ⟨rfl, -⟩ := reserve_ok hreserve
              cases hopen
              show s.fs.nactvar ≤ base + i + 1
              omega
          | call =>
              obtain ⟨_, s₁, hopen, hm⟩ := bind_ok.mp hm
              cases hm
              exact tidy_openCall hitem rfl hopen

theorem emits_return {items : List (Item α)} (h : ∀ item ∈ items, item.Ok P) :
    Emits P (lowerReturn items) [] := by
  have hmany : Emits P (do
      freeToActive
      let base := (← getFs).freereg
      let multret ← returnValues base 0 items
      discard (codeAbc .return base (if multret then 0 else items.length + 1) 0)) [] := by
    refine .of_keeps (fun n => ?_) fun s t _ hm => ?_
    · exact (keeps_freeToActive n).andThen fun _ => (yields_getFs fun _ => trivial).andThen
        fun _ => (keeps_returnValues _ items 0 h n).andThen fun _ => keeps_code _
    · obtain ⟨_, s₁, hfree, hm⟩ := bind_ok.mp hm
      obtain ⟨_, _, hget, hm⟩ := bind_ok.mp hm
      cases hget
      obtain ⟨multret, s₂, hvalues, hm⟩ := bind_ok.mp hm
      have htidy := tidy_freeToActive hfree
      have htidy₂ := tidy_returnValues _ items 0 h _ _ _ htidy htidy hvalues
      cases hm
      exact htidy₂
  match items, h, hmany with
  | [], _, _ =>
      refine .of_keeps (fun n => keeps_code _) fun s t htidy hm => ?_
      cases hm
      exact htidy
  | [⟨.call, emit⟩], h, _ => exact emits_tailCall (h _ List.mem_cons_self) rfl
  | [⟨.vararg, _⟩], _, hmany => exact hmany
  | [⟨.single, _⟩], _, hmany => exact hmany
  | ⟨kind, _⟩ :: _ :: _, _, hmany => cases kind <;> exact hmany

theorem emits_break : Emits P (α := α) lowerBreak [] := by
  intro s t a hs htidy hm
  obtain ⟨_, _, hget, hm⟩ := bind_ok.mp hm
  cases hget
  obtain ⟨j, s₁, hcode, hm⟩ := bind_ok.mp hm
  obtain ⟨h₁, -, -, hspare⟩ := (Reached.refl (P := P) hs).code hcode
  cases hcode
  cases hm
  refine ⟨a, rfl, ⟨{ h₁.sim with breaks := fun j' hj' => ?_ }, { h₁.grows with
    breaks := (GrowsBy.refl _ _ _).snoc hspare.1 }⟩, htidy, rfl, rfl⟩
  rcases List.mem_append.mp hj' with hj' | hj'
  · exact h₁.sim.breaks j' hj'
  · rw [List.mem_singleton.mp hj']
    exact ⟨hspare.2.1, hspare.2.2⟩

/-! ## Branches -/

theorem Linker.run_run {es es' : List LabelEvent} {a b c : Linker}
    (h : Linker.run es a = some b) (h' : Linker.run es' b = some c) :
    Linker.run (es ++ es') a = some c := by
  rw [Linker.run_append, h]
  exact h'

theorem Linker.run_one {e : LabelEvent} {a b : Linker} (h : Linker.step e a = some b) :
    Linker.run [e] a = some b := by
  rw [Linker.run, h]
  rfl

theorem Reached.testJump {cond : Lower α Expdesc} {c j : Nat} (h : Reached P s t b)
    (hc : KeepsAll P cond) (hm : testJump cond c t = .ok (j, v)) :
    Reached P s v b ∧ v.fs.nactvar = t.fs.nactvar ∧ Spare s v j := by
  obtain ⟨e, t₁, hcond, hm⟩ := bind_ok.mp hm
  obtain ⟨h₁, -, hactive₁, -⟩ := h.keeps hcond hc
  obtain ⟨cr, t₂, hcr, hm⟩ := bind_ok.mp hm
  obtain ⟨h₂, -, hactive₂, -⟩ := h₁.keeps hcr fun _ => keeps_exp2reg e
  obtain ⟨_, t₃, htest, hm⟩ := bind_ok.mp hm
  obtain ⟨h₃, -, hactive₃, -⟩ := h₂.keeps htest fun _ => keeps_code _
  obtain ⟨h₄, -, hactive₄, hspare⟩ := h₃.code hm
  exact ⟨h₄, by rw [hactive₄, hactive₃, hactive₂, hactive₁], hspare⟩

theorem Reached.emits {m : Lower α Unit} {es : List LabelEvent} (h : Reached P s t b)
    (hm : m t = .ok ((), v)) (he : Emits P m es) (htidy : t.fs.Tidy) :
    ∃ c, Linker.run es b = some c ∧ Reached P s v c ∧ Grows P t v ∧ v.fs.Tidy ∧
      c.blocks = b.blocks ∧ c.saved = b.saved := by
  obtain ⟨c, hrun, hv, htidy', hblocks, hsaved⟩ := he t v b h.sim htidy hm
  exact ⟨c, hrun, h.trans hv, hv.grows, htidy', hblocks, hsaved⟩

abbrev BranchEmits (P : Proto α → Prop) (item : Lower α Expdesc × Lower α Unit)
    (es : List LabelEvent) : Prop := KeepsAll P item.1 ∧ Emits P item.2 es

theorem Spare.fixSbx {j j' dest : Nat} (h : Spare s t j) :
    Spare s ⟨t.fs.fixSbx j' dest, t.prev⟩ j := by
  obtain ⟨hle, hlt, hne⟩ := h
  refine ⟨hle, ?_, hne⟩
  show j < (t.fs.code.modify j' _).length
  rwa [List.length_modify]

theorem Spare.of_grows {j : Nat} (h : Spare t v j) (hg : Grows P s t) : Spare s v j :=
  ⟨hg.code.length_le.trans h.1, h.2⟩

theorem lowerBranches_ok {items : List (Lower α Expdesc × Lower α Unit)}
    {ess : List (List LabelEvent)} (hitems : List.Forall₂ (BranchEmits P) items ess) :
    ∀ {s a t js}, Simulates s.fs a → s.fs.Tidy → lowerBranches items s = .ok (js, t) →
      ∃ b, Linker.run ess.flatten a = some b ∧ Reached P s t b ∧ t.fs.Tidy ∧
        b.blocks = a.blocks ∧ b.saved = a.saved ∧ ∀ j ∈ js, Spare s t j := by
  induction hitems with
  | nil =>
      intro s a t js hs htidy hm
      cases hm
      exact ⟨a, rfl, .refl hs, htidy, rfl, rfl, fun _ hj => nomatch hj⟩
  | @cons item es items ess hitem _ ih =>
      obtain ⟨cond, body⟩ := item
      obtain ⟨hcond, hbody⟩ := hitem
      intro s a t js hs htidy hm
      obtain ⟨jf, s₁, htest, hm⟩ := bind_ok.mp hm
      obtain ⟨h₁, -, hjf⟩ := (Reached.refl hs).testJump hcond htest
      obtain ⟨_, s₂, hfree, hm⟩ := bind_ok.mp hm
      obtain ⟨h₂, hgrows₂, -⟩ := h₁.keeps hfree keeps_freeToActive
      obtain ⟨_, s₃, hstmts, hm⟩ := bind_ok.mp hm
      obtain ⟨b, hrun, h₃, hgrows₃, htidy₃, hblocks, hsaved⟩ :=
        h₂.emits hstmts hbody (tidy_freeToActive hfree)
      obtain ⟨je, s₄, hcode, hm⟩ := bind_ok.mp hm
      obtain ⟨h₄, hgrows₄, hactive₄, hje⟩ := h₃.code hcode
      have hfree₄ : s₄.fs.freereg = s₃.fs.freereg := by
        cases hcode
        rfl
      have hjf₄ := ((hjf.trans hgrows₂).trans hgrows₃).trans hgrows₄
      obtain ⟨_, _, hget, hm⟩ := bind_ok.mp hm
      cases hget
      obtain ⟨_, s₅, hfix, hm⟩ := bind_ok.mp hm
      cases hfix
      have h₅ := h₄.fixed hjf₄ s₄.fs.pc
      have htidy₅ : (s₄.fs.fixSbx jf s₄.fs.pc).Tidy := by
        show s₄.fs.nactvar ≤ s₄.fs.freereg
        rw [hactive₄, hfree₄]
        exact htidy₃
      obtain ⟨js', _, hrest, hm⟩ := bind_ok.mp hm
      cases hm
      obtain ⟨c, hrun', h₆, htidy₆, hblocks', hsaved', hjs⟩ := ih h₅.sim htidy₅ hrest
      refine ⟨c, Linker.run_run hrun hrun', h₅.trans h₆, htidy₆, hblocks'.trans hblocks,
        hsaved'.trans hsaved, fun j hj => ?_⟩
      rcases List.mem_cons.mp hj with rfl | hj
      · exact hje.fixSbx.trans h₆.grows
      · exact (hjs j hj).of_grows h₅.grows

theorem emits_if {items : List (Lower α Expdesc × Lower α Unit)}
    {ess : List (List LabelEvent)} {elseBody : Option (Lower α Unit)}
    {es : List LabelEvent} (hitems : List.Forall₂ (BranchEmits P) items ess)
    (helse : Emits P (elseBody.getD (pure ())) es) :
    Emits P (lowerIf items elseBody) (ess.flatten ++ es) := by
  intro s t a hs htidy hm
  obtain ⟨js, s₁, hbranches, hm⟩ := bind_ok.mp hm
  obtain ⟨b, hrun, h₁, htidy₁, hblocks, hsaved, hjs⟩ :=
    lowerBranches_ok hitems hs htidy hbranches
  have hbody : ∃ s₂, elseBody.getD (pure ()) s₁ = .ok ((), s₂) ∧
      fixAll js s₂.fs.pc s₂ = .ok ((), t) := by
    cases elseBody with
    | some body =>
        obtain ⟨_, s₂, hbody, hm⟩ := bind_ok.mp hm
        exact ⟨s₂, hbody, hm⟩
    | none => exact ⟨s₁, rfl, hm⟩
  obtain ⟨s₂, hbody, hm⟩ := hbody
  obtain ⟨c, hrun', h₂, hgrows₂, htidy₂, hblocks', hsaved'⟩ := h₁.emits hbody helse htidy₁
  obtain ⟨t', hm', h₃, hactive, hfree⟩ :=
    h₂.fixAll (fun j hj => (hjs j hj).trans hgrows₂) s₂.fs.pc
  cases hm.symm.trans hm'
  refine ⟨c, Linker.run_run hrun hrun', h₃, ?_, hblocks'.trans hblocks,
    hsaved'.trans hsaved⟩
  show t.fs.nactvar ≤ t.fs.freereg
  rw [hactive, hfree]
  exact htidy₂

/-! ## Loops -/

theorem Reached.inLoop {level : Nat} {body : Lower α Unit} {es : List LabelEvent}
    (h : Reached P s t b) (hm : inLoop level body t = .ok ((), v)) (he : Emits P body es)
    (htidy : t.fs.Tidy) :
    ∃ c, Linker.run es b = some c ∧ Reached P s v c ∧ Grows P t v ∧ v.fs.Tidy ∧
      c.blocks = b.blocks ∧ c.saved = b.saved := by
  obtain ⟨_, t₁, henter, hm⟩ := bind_ok.mp hm
  cases henter
  obtain ⟨_, t₂, hbody, hm⟩ := bind_ok.mp hm
  cases hm
  have h₁ := (Reached.refl (P := P) h.sim).loops (t.fs.loopBreakLevel ++ [level])
  obtain ⟨c, hrun, h₂, -, htidy₂, hblocks, hsaved⟩ := h₁.emits hbody he htidy
  have h₃ := h₂.loops t₂.fs.loopBreakLevel.dropLast
  exact ⟨c, hrun, h.trans h₃, h₃.grows, htidy₂, hblocks, hsaved⟩

theorem keeps_jumpBack (x loop : Nat) : KeepsAll P (jumpBack (α := α) x loop) :=
  fun _ => (yields_getFs fun _ => trivial).andThen fun _ => keeps_code _

theorem modifyFs_ok {f : FuncState α → FuncState α} {u : Unit}
    (hm : modifyFs f s = .ok (u, t)) : t = ⟨f s.fs, s.prev⟩ :=
  (congrArg Prod.snd (Except.ok.inj hm)).symm

section Patched

variable {u : Unit} {breaks : List Nat}

theorem Reached.patchJump {j dest : Nat} (h : Reached P s t b) (hj : Spare s t j)
    (hm : fixSbx j dest t = .ok (u, v)) :
    Reached P s v b ∧ v.fs.nactvar = t.fs.nactvar ∧ v.fs.breakList = t.fs.breakList := by
  rw [modifyFs_ok hm]
  exact ⟨h.fixed hj dest, rfl, rfl⟩

theorem Reached.patchBreaks {dest : FuncState α → Nat} (h : Reached P s t b)
    (hold : GrowsBy s.fs.code.length id s.fs.breakList breaks)
    (hnew : GrowsBy s.fs.code.length id breaks t.fs.breakList)
    (hm : modifyFs (fun fs => fs.fixBreaks breaks.length (dest fs)) t = .ok (u, v)) :
    Reached P s v b ∧ v.fs.nactvar = t.fs.nactvar ∧ v.fs.freereg = t.fs.freereg := by
  rw [modifyFs_ok hm]
  refine ⟨h.fixBreaks hold hnew (dest t.fs), ?_⟩
  obtain ⟨code, hcode⟩ := Reached.fixBreaks_eq t.fs breaks.length (dest t.fs)
  show (t.fs.fixBreaks _ _).nactvar = _ ∧ (t.fs.fixBreaks _ _).freereg = _
  rw [hcode]
  exact ⟨rfl, rfl⟩

theorem Reached.closeScope {a : Linker} {saved : List Nat} {clear : Bool}
    (h : Reached P s t b) (hs : Simulates s.fs a) (hsaved : b.saved = a.scope.length :: saved)
    (hm : modifyFs (·.leaveBlock s.fs.locals.length clear) t = .ok (u, v)) :
    ∃ c, Linker.step .closeScope b = some c ∧ Reached P s v c ∧ v.fs.Tidy ∧
      v.fs.nactvar = s.fs.nactvar ∧ c.blocks = b.blocks ∧ c.saved = saved := by
  rw [modifyFs_ok hm]
  obtain ⟨hstep, hv, htidy, hactive⟩ := Reached.leaveBlock hs h hsaved hs.length_locals clear
  exact ⟨_, hstep, hv, htidy, hactive, rfl, rfl⟩

theorem Reached.loopBody {level : Nat} {body : Lower α Unit} {es : List LabelEvent}
    {a : Linker} {saved : List Nat} {w : LowerState α} (h : Reached P s t b)
    (hs : Simulates s.fs a) (hsaved : b.saved = a.scope.length :: saved)
    (he : Emits P body es) (htidy : t.fs.Tidy) (hloop : Lowering.inLoop level body t = .ok ((), w))
    (hleave : modifyFs (·.leaveBlock s.fs.locals.length false) w = .ok (u, v)) :
    ∃ c, Linker.run (es ++ [.closeScope]) b = some c ∧ Reached P s v c ∧
      v.fs.nactvar = s.fs.nactvar ∧ c.blocks = b.blocks ∧ c.saved = saved := by
  obtain ⟨b', hrun, hw, -, -, hblocks', hsaved'⟩ := h.inLoop hloop he htidy
  obtain ⟨c, hclose, hv, -, hactive, hblocks, hsavedc⟩ :=
    hw.closeScope hs (hsaved'.trans hsaved) hleave
  exact ⟨c, Linker.run_run hrun (Linker.run_one hclose), hv, hactive,
    hblocks.trans hblocks', hsavedc⟩

end Patched

theorem emits_while {cond : Lower α Expdesc} {body : Lower α Unit} {es : List LabelEvent}
    (hc : KeepsAll P cond) (he : Emits P body es) : Emits P (lowerWhile cond body) es := by
  intro s t a hs htidy hm
  obtain ⟨_, _, hget, hm⟩ := bind_ok.mp hm
  cases hget
  obtain ⟨jf, s₁, htest, hm⟩ := bind_ok.mp hm
  obtain ⟨h₁, -, hjf⟩ := (Reached.refl (P := P) hs).testJump hc htest
  obtain ⟨_, s₂, hfree, hm⟩ := bind_ok.mp hm
  obtain ⟨h₂, hgrows₂, -⟩ := h₁.keeps hfree keeps_freeToActive
  obtain ⟨_, _, hget, hm⟩ := bind_ok.mp hm
  cases hget
  obtain ⟨_, _, hget, hm⟩ := bind_ok.mp hm
  cases hget
  obtain ⟨_, s₃, hloop, hm⟩ := bind_ok.mp hm
  obtain ⟨b, hrun, h₃, hgrows₃, -, hblocks, hsaved⟩ :=
    h₂.inLoop hloop he (tidy_freeToActive hfree)
  obtain ⟨_, s₄, hback, hm⟩ := bind_ok.mp hm
  obtain ⟨h₄, hgrows₄, -⟩ := h₃.keeps hback (keeps_jumpBack _ _)
  obtain ⟨_, _, hget, hm⟩ := bind_ok.mp hm
  cases hget
  obtain ⟨r, s₅, hreg, hm⟩ := bind_ok.mp hm
  obtain ⟨h₅, hgrows₅, -⟩ := h₄.keeps hreg fun _ => keeps_newReg
  obtain ⟨_, s₆, hnil, hm⟩ := bind_ok.mp hm
  obtain ⟨h₆, hgrows₆, -⟩ := h₅.keeps hnil fun _ => keeps_code _
  obtain ⟨_, s₇, hfree', hm⟩ := bind_ok.mp hm
  obtain ⟨h₇, hgrows₇, -⟩ := h₆.keeps hfree' keeps_freeToActive
  have hgrows := (((hgrows₃.trans hgrows₄).trans hgrows₅).trans hgrows₆).trans hgrows₇
  obtain ⟨_, _, hget, hm⟩ := bind_ok.mp hm
  cases hget
  obtain ⟨_, s₈, hfix, hm⟩ := bind_ok.mp hm
  have hspare := (hjf.trans hgrows₂).trans hgrows
  obtain ⟨h₈, -, hbreaks⟩ := h₇.patchJump hspare hfix
  have hnew := hgrows.breaks.mono h₂.grows.code.length_le
  rw [← hbreaks] at hnew
  obtain ⟨h₉, hactive₉, hfree₉⟩ := h₈.patchBreaks h₂.grows.breaks hnew hm
  refine ⟨b, hrun, h₉, ?_, hblocks, hsaved⟩
  rw [FuncState.Tidy, hactive₉, hfree₉, modifyFs_ok hfix]
  show s₇.fs.Tidy
  exact tidy_freeToActive hfree'

theorem emits_repeat {cond : Lower α Expdesc} {body : Lower α Unit} {es : List LabelEvent}
    (hc : KeepsAll P cond) (he : EmitsOpen P body es) :
    Emits P (lowerRepeat body cond) (es ++ [.closeScope]) := by
  intro s t a hs htidy hm
  obtain ⟨_, _, hget, hm⟩ := bind_ok.mp hm
  cases hget
  obtain ⟨_, _, hget, hm⟩ := bind_ok.mp hm
  cases hget
  obtain ⟨_, _, hget, hm⟩ := bind_ok.mp hm
  cases hget
  obtain ⟨_, s₁, henter, hm⟩ := bind_ok.mp hm
  cases henter
  have h₁ := (Reached.refl (P := P) hs).loops (s.fs.loopBreakLevel ++ [s.fs.nactvar])
  obtain ⟨_, s₂, hbody, hm⟩ := bind_ok.mp hm
  obtain ⟨b, hrun, hreached₂, hblocks, hsaved⟩ := he _ _ a h₁.sim htidy hbody
  have h₂ := h₁.trans hreached₂
  obtain ⟨j, s₃, htest, hm⟩ := bind_ok.mp hm
  obtain ⟨h₃, -, hj⟩ := h₂.testJump hc htest
  obtain ⟨_, _, hget, hm⟩ := bind_ok.mp hm
  cases hget
  obtain ⟨_, s₄, hback, hm⟩ := bind_ok.mp hm
  obtain ⟨h₄, hgrows₄, -⟩ := h₃.keeps hback (keeps_jumpBack _ _)
  obtain ⟨_, _, hget, hm⟩ := bind_ok.mp hm
  cases hget
  obtain ⟨_, s₅, hfix, hm⟩ := bind_ok.mp hm
  obtain ⟨h₅, -⟩ := h₄.patchJump (hj.trans hgrows₄) hfix
  obtain ⟨_, s₆, hlevel, hm⟩ := bind_ok.mp hm
  have h₆ := h₅.loops s₅.fs.loopBreakLevel.dropLast
  rw [← modifyFs_ok hlevel] at h₆
  obtain ⟨_, s₇, hleave, hm⟩ := bind_ok.mp hm
  obtain ⟨c, hstep, h₇, htidy₇, -, hblocks', hsaved'⟩ := h₆.closeScope hs hsaved hleave
  obtain ⟨h₈, hactive₈, hfree₈⟩ := h₇.patchBreaks (.refl _ _ _) h₇.grows.breaks hm
  refine ⟨c, Linker.run_run hrun (Linker.run_one hstep), h₈, ?_, hblocks'.trans hblocks,
    hsaved'⟩
  rw [FuncState.Tidy, hactive₈, hfree₈]
  exact htidy₇

theorem keeps_exp2place (dest : Nat) {e : Lower α Expdesc} (h : KeepsAll P e) :
    KeepsAll P (exp2place dest e) :=
  fun n => (h n).andThen fun _ => (keeps_exp2reg _).andThen fun _ =>
    (keeps_moveTo _ _).andThen fun _ => keeps_setFreereg _

theorem exp2place_freereg {dest : Nat} {e : Lower α Expdesc} {u : Unit}
    (hm : exp2place dest e s = .ok (u, t)) : t.fs.freereg = dest + 1 := by
  obtain ⟨_, _, -, hm⟩ := bind_ok.mp hm
  obtain ⟨_, _, -, hm⟩ := bind_ok.mp hm
  obtain ⟨_, _, -, hm⟩ := bind_ok.mp hm
  cases hm
  rfl

theorem keeps_forStep (base : Nat) {step : Option (Lower α Expdesc)}
    (h : ∀ e ∈ step, KeepsAll P e) : KeepsAll P (forStep base step) := by
  cases step with
  | some step => exact keeps_exp2place _ (h step rfl)
  | none => exact fun _ => (keeps_code _).andThen fun _ => keeps_setFreereg _

theorem forStep_freereg {base : Nat} {step : Option (Lower α Expdesc)} {u : Unit}
    (hm : forStep base step s = .ok (u, t)) : t.fs.freereg = base + 3 := by
  cases step with
  | some step => exact exp2place_freereg hm
  | none =>
      obtain ⟨_, _, -, hm⟩ := bind_ok.mp hm
      cases hm
      rfl

theorem modify_last {γ : Type} (xs : List γ) (x : γ) (f : γ → γ) :
    (xs ++ [x]).modify ((xs ++ [x]).length - 1) f = xs ++ [f x] := by
  rw [List.length_append, List.length_singleton, Nat.add_sub_cancel]
  exact modify_concat xs x f

/-- The loop variable is a local in the first register after the control values. -/
theorem pushLoopVar_ok {base : Nat} {name : Name} {u : Unit}
    (hm : pushLoopVar base name s = .ok (u, t)) (hfree : s.fs.freereg = base + 3)
    (hactive : s.fs.nactvar ≤ base + 3) :
    t = ⟨(s.fs.reserved 1).addLocal name (base + 3), s.prev⟩ ∧ base + 3 < maxStack := by
  obtain ⟨r, s₁, hreg, hm⟩ := bind_ok.mp hm
  obtain ⟨rfl, rfl, hlimit⟩ := newReg_ok hreg
  obtain ⟨_, s₂, hpush, hm⟩ := bind_ok.mp hm
  obtain ⟨-, rfl⟩ := pushLocal_ok hpush
  rw [hfree] at hm hlimit
  refine ⟨?_, Nat.lt_of_succ_le (hlimit.trans (Nat.sub_le _ _))⟩
  have hmax : max s.fs.nactvar (base + 3 + 1) = base + 4 := by omega
  have hmax' : max (s.fs.freereg + 1) (base + 4) = base + 4 := by omega
  rw [modifyFs_ok hm]
  simp only [FuncState.addLocal, FuncState.reserved, modify_last, hmax', hmax]

theorem emits_forNum {name : Name} {start limit : Lower α Expdesc}
    {step : Option (Lower α Expdesc)} {body : Lower α Unit} {es : List LabelEvent}
    (hstart : KeepsAll P start) (hlimit : KeepsAll P limit)
    (hstep : ∀ e ∈ step, KeepsAll P e) (he : Emits P body es) :
    Emits P (lowerForNum name start limit step body)
      (.openScope :: .declare 1 :: (es ++ [.closeScope])) := by
  intro s t a hs htidy hm
  obtain ⟨_, _, hget, hm⟩ := bind_ok.mp hm
  cases hget
  obtain ⟨_, s₁, hplace, hm⟩ := bind_ok.mp hm
  have hopen : Simulates s.fs { a with saved := a.scope.length :: a.saved } := { hs with }
  obtain ⟨h₁, -, hactive₁, -⟩ :=
    (Reached.refl hopen).keeps hplace (keeps_exp2place _ hstart)
  obtain ⟨_, s₂, hplace, hm⟩ := bind_ok.mp hm
  obtain ⟨h₂, -, hactive₂, -⟩ := h₁.keeps hplace (keeps_exp2place _ hlimit)
  obtain ⟨_, s₃, hforStep, hm⟩ := bind_ok.mp hm
  obtain ⟨h₃, -, hactive₃, -⟩ := h₂.keeps hforStep (keeps_forStep _ hstep)
  obtain ⟨prep, s₄, hprep, hm⟩ := bind_ok.mp hm
  obtain ⟨h₄, -, hactive₄, hspare⟩ := h₃.code hprep
  have hfree₄ : s₄.fs.freereg = s.fs.freereg + 3 := by
    rw [← forStep_freereg hforStep]
    cases hprep
    rfl
  have hactive : s₄.fs.nactvar ≤ s.fs.freereg := by
    rw [hactive₄, hactive₃, hactive₂, hactive₁]
    exact htidy
  obtain ⟨_, _, hget, hm⟩ := bind_ok.mp hm
  cases hget
  obtain ⟨_, _, hget, hm⟩ := bind_ok.mp hm
  cases hget
  obtain ⟨_, s₅, hvar, hm⟩ := bind_ok.mp hm
  obtain ⟨hs₅, hsmall⟩ := pushLoopVar_ok hvar hfree₄ (Nat.le_add_right_of_le hactive)
  have hreserved := (Reached.refl (P := P) h₄.sim).frame
    (v := ⟨s₄.fs.reserved 1, s₄.prev⟩) ⟨rfl, rfl, id, rfl⟩ (Nat.le_refl _)
  have h₅ := hreserved.addLocal name (Nat.le_add_right_of_le hactive) hsmall
  rw [← hs₅] at h₅
  have htidy₅ : s₅.fs.Tidy := by
    rw [hs₅]
    exact Nat.le_max_right _ _
  have hbreaks₅ : s₅.fs.breakList = s₄.fs.breakList := by
    rw [hs₅]
    rfl
  obtain ⟨_, _, hget, hm⟩ := bind_ok.mp hm
  cases hget
  obtain ⟨_, s₆, hloop, hm⟩ := bind_ok.mp hm
  obtain ⟨_, s₇, hleave, hm⟩ := bind_ok.mp hm
  obtain ⟨c, hrun, h₇, hactive₇, hblocks, hsaved⟩ :=
    h₅.loopBody h₄.sim rfl he htidy₅ hloop hleave
  obtain ⟨_, _, hget, hm⟩ := bind_ok.mp hm
  cases hget
  obtain ⟨forloopPc, s₈, hcode, hm⟩ := bind_ok.mp hm
  obtain ⟨h₈, -, hactive₈, -⟩ := h₇.code hcode
  obtain ⟨_, s₉, hfix, hm⟩ := bind_ok.mp hm
  obtain ⟨h₉, hactive₉, hbreaks₉⟩ := (h₄.trans h₈).patchJump (hspare.trans h₈.grows) hfix
  obtain ⟨_, _, hget, hm⟩ := bind_ok.mp hm
  cases hget
  obtain ⟨_, s₁₀, hbreaks, hm⟩ := bind_ok.mp hm
  have hnew : GrowsBy s.fs.code.length id s₅.fs.breakList s₉.fs.breakList := by
    rw [hbreaks₅, hbreaks₉]
    exact h₈.grows.breaks.mono h₄.grows.code.length_le
  have hold : GrowsBy s.fs.code.length id s.fs.breakList s₅.fs.breakList := by
    rw [hbreaks₅]
    exact h₄.grows.breaks
  obtain ⟨h₁₀, hactive₁₀, -⟩ := h₉.patchBreaks hold hnew hbreaks
  obtain ⟨h₁₁, -⟩ := h₁₀.keeps hm fun _ => keeps_setFreereg _
  refine ⟨c, hrun, h₁₁, ?_, hblocks, hsaved⟩
  rw [modifyFs_ok hm]
  show s₁₀.fs.nactvar ≤ s.fs.freereg
  rw [hactive₁₀, hactive₉, hactive₈, hactive₇]
  exact hactive

theorem keeps_fillControl (base : Nat) : ∀ (items : List (Item α)) (i filled : Nat),
    (∀ item ∈ items, item.Ok P) → KeepsAll P (fillControl base i filled items)
  | [], _, _, _ => fun _ => keeps_pure _
  | item :: items, i, filled, h => by
      intro n
      have hitem := h item List.mem_cons_self
      have hrest := keeps_fillControl base items (i + 1) (i + 1)
        fun item hi => h item (List.mem_cons_of_mem _ hi)
      refine (yields_getFs fun _ => trivial).andThen fun fs =>
        (keeps_setFreereg _).andThen fun _ => ?_
      have hplain : ∀ e, (exprFrame P n).Keeps (do
          moveTo (base + i) (← exp2reg e)
          setFreereg (base + i + 1)
          fillControl base (i + 1) (i + 1) items) := fun e =>
        (keeps_exp2reg e).andThen fun _ => (keeps_moveTo _ _).andThen fun _ =>
          (keeps_setFreereg _).andThen fun _ => hrest n
      intro s r s' hs hm
      obtain ⟨e, s₁, hemit, hm⟩ := bind_ok.mp hm
      obtain ⟨hs₁, hframe, hkind⟩ := hitem.keeps n s e s₁ hs hemit
      have hother : (do
          moveTo (base + i) (← exp2reg e)
          setFreereg (base + i + 1)
          fillControl base (i + 1) (i + 1) items) s₁ = .ok (r, s') →
          (exprFrame P n).Inv s' ∧ (exprFrame P n).Rel s s' ∧ True := by
        intro hm
        obtain ⟨hs', hrel, -⟩ := hplain e s₁ r s' hs₁ hm
        exact ⟨hs', (exprFrame P n).trans hframe hrel, trivial⟩
      cases e with
      | call info =>
          cases items with
          | cons _ _ => exact hother hm
          | nil =>
              have hcall : item.kind = .call := hkind.resolve_right Bool.noConfusion
              have hpatch := keeps_emitPatch (n := n) hitem hcall (toByte (3 - i + 1)) fun ca =>
                (keeps_moveResults (P := P) ca (base + i) (3 - i) n).andThen fun _ =>
                  (keeps_setFreereg (base + 3)).andThen fun _ => keeps_pure 3
              exact hpatch s r s' hs
                (bind_ok.mpr ⟨(), s₁, map_ok.mpr ⟨_, hemit, rfl⟩, hm⟩)
      | _ => exact hother hm

theorem setActive_eq {fs : FuncState α} {n : Nat} (hactive : fs.nactvar = n)
    (hfree : fs.freereg = n) : { fs with nactvar := n, freereg := n } = fs := by
  cases fs
  cases hactive
  cases hfree
  rfl

theorem emits_forIn {names : List Name} {items : List (Item α)} {body : Lower α Unit}
    {es : List LabelEvent} (hnames : names ≠ []) (hitems : ∀ item ∈ items, item.Ok P)
    (he : Emits P body es) :
    Emits P (lowerForIn names items body)
      (.openScope :: .declare names.length :: (es ++ [.closeScope])) := by
  intro s t a hs htidy hm
  obtain ⟨_, _, hget, hm⟩ := bind_ok.mp hm
  cases hget
  have hopen : Simulates s.fs { a with saved := a.scope.length :: a.saved } := { hs with }
  obtain ⟨_, s₁, hreserve, hm⟩ := bind_ok.mp hm
  obtain ⟨h₁, -, hactive₁, -⟩ :=
    (Reached.refl (P := P) hopen).keeps hreserve fun _ => keeps_reserve _
  have hlimit := (reserve_ok hreserve).2
  obtain ⟨filled, s₂, hfill, hm⟩ := bind_ok.mp hm
  obtain ⟨h₂, -, hactive₂, -⟩ := h₁.keeps hfill (keeps_fillControl _ _ _ _ hitems)
  obtain ⟨_, s₃, hpad, hm⟩ := bind_ok.mp hm
  obtain ⟨h₃, -, hactive₃, -⟩ := h₂.keeps hpad (keeps_padNil _ _ _)
  obtain ⟨_, s₄, hset, hm⟩ := bind_ok.mp hm
  obtain ⟨h₄, -, hactive₄, -⟩ := h₃.keeps hset fun _ => keeps_setFreereg _
  obtain ⟨_, s₅, hraise, hm⟩ := bind_ok.mp hm
  obtain ⟨h₅, -, hactive₅, -⟩ := h₄.keeps hraise (keeps_raiseMaxstack _)
  obtain ⟨jprep, s₆, hprep, hm⟩ := bind_ok.mp hm
  obtain ⟨h₆, -, hactive₆, hspare⟩ := h₅.code hprep
  have hactive : s₆.fs.nactvar ≤ s.fs.freereg := by
    rw [hactive₆, hactive₅, hactive₄, hactive₃, hactive₂, hactive₁]
    exact htidy
  have hfree₆ : s₆.fs.freereg = s.fs.freereg + 3 + names.length := by
    cases hset
    cases hraise
    cases hprep
    rfl
  obtain ⟨_, _, hget, hm⟩ := bind_ok.mp hm
  cases hget
  obtain ⟨_, _, hget, hm⟩ := bind_ok.mp hm
  cases hget
  obtain ⟨_, s₇, hpush, hm⟩ := bind_ok.mp hm
  have hsmall : s.fs.freereg + 3 + 0 < maxStack :=
    Nat.lt_of_succ_le ((Nat.succ_le_succ hlimit).trans (by decide))
  obtain ⟨h₇, hactive₇, hfree₇, hbefore⟩ := (Reached.refl (P := P) h₆.sim).pushLocals names
    (by omega) (Or.inr hsmall) hpush
  rw [if_neg hnames, Nat.add_zero] at hactive₇ hfree₇
  rw [hfree₆, Nat.max_self] at hfree₇
  obtain ⟨_, s₈, hvars, hm⟩ := bind_ok.mp hm
  -- The registers are as the declarations have left them.
  have hs₈ : s₈ = s₇ :=
    (modifyFs_ok hvars).trans (congrArg (LowerState.mk · s₇.prev) (setActive_eq hactive₇ hfree₇))
  rw [hs₈] at hm
  have htidy₇ : s₇.fs.Tidy := by
    rw [FuncState.Tidy, hactive₇, hfree₇]
  obtain ⟨_, _, hget, hm⟩ := bind_ok.mp hm
  cases hget
  obtain ⟨_, s₉, hloop, hm⟩ := bind_ok.mp hm
  obtain ⟨_, s₁₀, hleave, hm⟩ := bind_ok.mp hm
  obtain ⟨c, hrun, h₁₀, hactive₁₀, hblocks, hsaved⟩ :=
    h₇.loopBody h₆.sim rfl he htidy₇ hloop hleave
  obtain ⟨_, _, hget, hm⟩ := bind_ok.mp hm
  cases hget
  obtain ⟨_, s₁₁, hfix, hm⟩ := bind_ok.mp hm
  obtain ⟨h₁₁, hactive₁₁, hbreaks₁₁⟩ :=
    (h₆.trans h₁₀).patchJump (hspare.trans h₁₀.grows) hfix
  obtain ⟨_, s₁₂, hcall, hm⟩ := bind_ok.mp hm
  obtain ⟨h₁₂, hgrows₁₂, hactive₁₂, -⟩ := h₁₁.keeps hcall fun _ => keeps_code _
  obtain ⟨tforloop, s₁₃, hcode, hm⟩ := bind_ok.mp hm
  obtain ⟨h₁₃, hgrows₁₃, hactive₁₃, hspare'⟩ := h₁₂.code hcode
  obtain ⟨_, s₁₄, hfix', hm⟩ := bind_ok.mp hm
  obtain ⟨h₁₄, hactive₁₄, hbreaks₁₄⟩ := h₁₃.patchJump hspare' hfix'
  obtain ⟨_, _, hget, hm⟩ := bind_ok.mp hm
  cases hget
  obtain ⟨_, s₁₅, hbreaks, hm⟩ := bind_ok.mp hm
  have hafter : s₁₄.fs.breakList = s₁₀.fs.breakList := by
    rw [hbreaks₁₄, ← hbreaks₁₁]
    cases hcode
    cases hcall
    rfl
  have hnew : GrowsBy s.fs.code.length id s₇.fs.breakList s₁₄.fs.breakList := by
    rw [hbefore, hafter]
    exact h₁₀.grows.breaks.mono h₆.grows.code.length_le
  have hold : GrowsBy s.fs.code.length id s.fs.breakList s₇.fs.breakList := by
    rw [hbefore]
    exact h₆.grows.breaks
  obtain ⟨h₁₅, hactive₁₅, -⟩ := h₁₄.patchBreaks hold hnew hbreaks
  obtain ⟨h₁₆, -⟩ := h₁₅.keeps hm fun _ => keeps_setFreereg _
  refine ⟨c, hrun, h₁₆, ?_, hblocks, hsaved⟩
  rw [modifyFs_ok hm]
  show s₁₅.fs.nactvar ≤ s.fs.freereg
  rw [hactive₁₅, hactive₁₄, hactive₁₃, hactive₁₂, hactive₁₁, hactive₁₀]
  exact hactive

end Luatier.Lowering
