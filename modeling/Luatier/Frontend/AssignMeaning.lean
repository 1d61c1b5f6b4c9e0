import Luatier.Frontend.DeclMeaning

/-!
# The code of an assignment

The values are stored when all of them, and the places they go to, have been
evaluated.
-/

namespace Luatier.Lowering

open Realising

variable {α V σ ε X Y Z : Type}

section Assigned

variable {s t u : LowerState α} {ρ : Env V} {c c' : Config V σ} {name : Name} {reg : Nat} {v : V}

theorem setLast_map {regs regs' : Nat → V} (hreg : regs' reg = v)
    (hothers : ∀ r, r ≠ reg → regs' r = regs r) : ∀ locals : List Local,
    locals.Pairwise (fun l l' => l.reg < l'.reg) →
    (locals.reverse.find? (·.name == name)).map Local.reg = some reg →
    setLast name v (locals.map fun l => (l.name, regs l.reg)) =
      locals.map fun l => (l.name, regs' l.reg)
  | [], _, h => by cases h
  | l :: locals, hsorted, h => by
      obtain ⟨hlt, hsorted'⟩ := List.pairwise_cons.mp hsorted
      rw [List.reverse_cons, List.find?_append] at h
      rw [List.map_cons, List.map_cons, setLast]
      cases hfind : locals.reverse.find? (·.name == name) with
      | some l' =>
          rw [hfind, Option.some_or] at h
          have hmem : l' ∈ locals := List.mem_reverse.mp (List.mem_of_find?_eq_some hfind)
          have hname : (l'.name == name) = true :=
            List.find?_some (p := fun l : Local => l.name == name) hfind
          have hne : l.reg ≠ reg := by
            cases h
            exact Nat.ne_of_lt (hlt l' hmem)
          rw [if_neg, setLast_map hreg hothers locals hsorted' (hfind ▸ h), hothers _ hne]
          intro hall
          have hlast := List.all_eq_true.mp hall.2 _ (List.mem_map_of_mem hmem)
          rw [bne, hname] at hlast
          cases hlast
      | none =>
          have hnone := List.find?_eq_none.mp hfind
          rw [hfind, Option.none_or] at h
          obtain ⟨l', hl', rfl⟩ := Option.map_eq_some_iff.mp h
          obtain rfl := List.mem_singleton.mp (List.mem_of_find?_eq_some hl')
          have hname : (l'.name == name) = true :=
            List.find?_some (p := fun l : Local => l.name == name) hl'
          rw [if_pos, hreg, eq_of_beq hname]
          · refine congrArg _ (List.map_congr_left fun l hl => ?_)
            rw [hothers l.reg (Nat.ne_of_gt (hlt l hl))]
          · refine ⟨eq_of_beq hname, List.all_eq_true.mpr fun x hx => ?_⟩
            obtain ⟨l, hl, rfl⟩ := List.mem_map.mp hx
            have := hnone l (List.mem_reverse.mpr hl)
            rw [bne]
            simpa using this

theorem Holds.assign (hs : Sited s) (h : Holds s.fs ρ c) (hfind : s.fs.findLocal name = some reg)
    (hreg : c'.regs reg = v) (hothers : ∀ r, r ≠ reg → c'.regs r = c.regs r)
    (hupvals : c'.upvals = c.upvals) : Holds s.fs (ρ.assign name v) c' where
  scope := by
    rw [Env.assign, ← h.scope]
    exact (setLast_map hreg hothers _ hs.sorted hfind).symm
  env := by
    rw [hupvals]
    exact h.env

end Assigned

/-- A key that has been evaluated: a temporary below `floor`, or no register. -/
def IndexKey.Usable (p : Proto α) (nactvar floor key : Nat) : IndexKey → Prop
  | .reg => nactvar ≤ key ∧ key < floor
  | .intImm => key < 256
  | .constStr => key < 256 ∧ ∃ k, p.constants[key]? = some k

/-- The description is that of the place; its temporaries are below `floor`. -/
inductive Aims (P : Primitives V σ ε) (p : Proto α) (fs : FuncState α) (floor : Nat)
    (c : Config V σ) : Expdesc → Target V → Prop
  | «local» {name : Name} {reg : Nat} : fs.findLocal name = some reg →
      Aims P p fs floor c (.local reg) (.name name)
  | upval : fs.findLocal "_ENV" = none → Aims P p fs floor c (.upval 0) (.name "_ENV")
  | globalIn {name : Name} {table k : Nat} : fs.findLocal name = none → name ≠ "_ENV" →
      fs.findLocal "_ENV" = some table → p.constants[k]? = some (.string name) →
      Aims P p fs floor c (.globalIn table k) (.name name)
  | global {name : Name} {k : Nat} : fs.findLocal name = none → name ≠ "_ENV" →
      fs.findLocal "_ENV" = none → p.constants[k]? = some (.string name) →
      Aims P p fs floor c (.global k) (.name name)
  | slot {table key : Nat} {indexKey : IndexKey} : fs.nactvar ≤ table → table < floor →
      indexKey.Usable p fs.nactvar floor key →
      Aims P p fs floor c (.indexed table key indexKey)
        (.slot (c.regs table) (indexKey.value P p c key))

section Storing

variable {P : Primitives V σ ε} {p : Proto α} {s t u : LowerState α} {ρ : Env V}
  {c c' : Config V σ} {floor r n : Nat} {d : Expdesc} {target : Target V}

theorem Aims.keep {floor' : Nat} {fs : FuncState α} (h : Aims P p fs floor c d target)
    (hfloor : floor ≤ floor')
    (hkeep : ∀ r, fs.nactvar ≤ r → r < floor → c'.regs r = c.regs r) :
    Aims P p fs floor' c' d target := by
  cases h with
  | «local» h => exact .local h
  | upval h => exact .upval h
  | globalIn h hne htable hk => exact .globalIn h hne htable hk
  | global h hne hnone hk => exact .global h hne hnone hk
  | @slot table key indexKey htable hlt hkey =>
      have hvalue : indexKey.value P p c key = indexKey.value P p c' key := by
        cases indexKey with
        | reg => exact (hkeep key hkey.1 hkey.2).symm
        | intImm => rfl
        | constStr => rfl
      rw [← hkeep table htable hlt, hvalue]
      refine .slot htable (Nat.lt_of_lt_of_le hlt hfloor) ?_
      cases indexKey with
      | reg => exact ⟨hkey.1, Nat.lt_of_lt_of_le hkey.2 hfloor⟩
      | intImm => exact hkey
      | constStr => exact hkey

/-- What a store leaves: temporaries below `floor` are kept. -/
structure Stored (fs : FuncState α) (floor : Nat) (ρ : Env V) (c : Config V σ) (ρ' : Env V)
    (c' : Config V σ) : Prop where
  holds : Holds fs ρ' c'
  varargs : ρ'.varargs = ρ.varargs
  others : ∀ q, q < floor → (∀ l ∈ fs.locals, l.reg ≠ q) → c'.regs q = c.regs q

def Storing (P : Primitives V σ ε) (p : Proto α) (floor : Nat) (s t : LowerState α)
    (d : Expdesc) (r : Nat) : Prop :=
  ∀ n ρ c target, c.pc = s.fs.pc → Holds s.fs ρ c → Aims P p s.fs floor c d target →
    ∀ (Y : Type) (k : Env V → Eval V σ ε Y) (post : Y × σ → Config V σ → Prop),
      (∀ ρ' c', c'.pc = t.fs.pc → Stored s.fs floor ρ c ρ' c' →
        Realises (advance P p ρ.varargs) n c' (k ρ' c'.world) post) →
      Realises (advance P p ρ.varargs) n c ((store P ρ target (c.regs r) >>= k) c.world) post

theorem Stores.stored {op : Config V σ → Op σ ε Unit} (h : Stores P p ρ floor s t op)
    (hs : Sited s) (hfloor : s.fs.nactvar ≤ floor) (hpc : c.pc = s.fs.pc) (hholds : Holds s.fs ρ c)
    {v : V} (hstore : store P ρ target v = lift (op c) >>= fun _ => pure ρ)
    {k : Env V → Eval V σ ε Y} {post : Y × σ → Config V σ → Prop}
    (hend : ∀ ρ' c', c'.pc = t.fs.pc → Stored s.fs floor ρ c ρ' c' →
      Realises (advance P p ρ.varargs) n c' (k ρ' c'.world) post) :
    Realises (advance P p ρ.varargs) n c ((store P ρ target v >>= k) c.world) post := by
  rw [hstore, bind_assoc]
  refine h n c hpc Y _ post fun c' hpc' hsame => ?_
  rw [pure_bind]
  exact hend ρ c' hpc' ⟨hholds.same_first hs rfl hfloor hsame, rfl,
    fun q hq _ => hsame.regs q hq⟩

theorem exec_setUpval {varargs : List V} {a : Nat} (ha : a < 256) :
    exec P p varargs (encodeAbc .setUpval a 0 0) c =
      .ok { c with upvals := Function.update c.upvals 0 (c.regs a) } := by
  simp only [exec, encodeAbc, Instruction.op, Instruction.a, Instruction.b, Nat.mod_eq_of_lt ha,
    Nat.zero_mod]

theorem exec_setTabUp {varargs : List V} {b d : Nat} {const : Const} (hb : b < 256)
    (hd : d < 256) (hconst : p.constants[b]? = some const) :
    exec P p varargs (encodeAbc .setTabUp 0 b d) c =
      operate (P.newindex (c.upvals 0) (P.const const) (c.regs d)) (fun _ c => c) c := by
  simp only [exec, withConstant, encodeAbc, Instruction.op, Instruction.a, Instruction.b,
    Instruction.c, Nat.mod_eq_of_lt hb, Nat.mod_eq_of_lt hd, Nat.zero_mod, hconst]

theorem exec_setI {varargs : List V} {a b d : Nat} (ha : a < 256) (hb : b < 256) (hd : d < 256) :
    exec P p varargs (encodeAbc .setI a b d) c =
      operate (P.newindex (c.regs a) (P.const (.int (Int64.ofNat b))) (c.regs d))
        (fun _ c => c) c := by
  simp only [exec, encodeAbc, Instruction.op, Instruction.a, Instruction.b, Instruction.c,
    Nat.mod_eq_of_lt ha, Nat.mod_eq_of_lt hb, Nat.mod_eq_of_lt hd]

theorem exec_setIndex {varargs : List V} {nactvar table key : Nat} {indexKey : IndexKey}
    (htable : table < 256) (hkey : indexKey.Usable p nactvar floor key) (hfloor : floor ≤ 256)
    (hr : r < 256) :
    exec P p varargs (encodeAbc indexKey.setOp table key r) c =
      operate (P.newindex (c.regs table) (indexKey.value P p c key) (c.regs r))
        (fun _ c => c) c := by
  cases indexKey with
  | reg => exact exec_setTable htable (Nat.lt_of_lt_of_le hkey.2 hfloor) hr
  | intImm => exact exec_setI htable hkey hr
  | constStr =>
      obtain ⟨hlt, const, hconst⟩ := hkey
      have hvalue : constantAt P p key = P.const const := by
        rw [constantAt, hconst]
        rfl
      show _ = operate (P.newindex (c.regs table) (constantAt P p key) (c.regs r)) _ c
      rw [hvalue]
      exact exec_setField htable hlt hr hconst

structure StoringCode (P : Primitives V σ ε) (s : LowerState α) (floor : Nat) (d : Expdesc)
    (r : Nat) (t : LowerState α) : Prop where
  grown : Extends s t
  free : s.fs.freereg ≤ t.fs.freereg
  storing : ∀ p, Small p → Covers p t.fs → floor ≤ 256 → Agree p t.fs s.fs.pc t.fs.pc →
    Storing P p floor s t d r

theorem storing_local {reg : Nat} (hs : Sited s) (hr : r < floor) :
    Ensures (storevar (.local reg) r) s fun _ t => StoringCode P s floor (.local reg) r t := by
  simp only [storevar, ensures_discard, ensures_codeAbc]
  have hgrown := (Extends.refl s).emit (encodeAbc .move reg r 0)
  refine ⟨hgrown, Nat.le_refl _, fun p hsmall hcovers hlast hagree n ρ c target hpc hholds
    haims => ?_⟩
  cases haims with
  | @«local» name _ hfind =>
      intro Y k post hend
      have hreg := findLocal_lt hs.ready hfind
      have hreg' : reg < 256 :=
        (hcovers.before hgrown).lt hsmall (Nat.lt_of_lt_of_le hreg hs.ready.active)
      have hi : p.code[c.pc]? = some (encodeAbc .move reg r 0) := by
        rw [hpc]
        exact hagree.emitted (Nat.le_refl _) (by simp)
      have hstore : store P ρ (.name name) (c.regs r) = pure (ρ.assign name (c.regs r)) := by
        have hscope := hholds.find? name
        rw [hfind] at hscope
        rw [store, hscope]
        rfl
      rw [hstore, pure_bind]
      refine realises_write hi (exec_move hreg' (Nat.lt_of_lt_of_le hr hlast))
        fun c' hc' hworld => ?_
      rw [← hworld]
      refine hend _ c' ?_ ⟨hholds.assign hs hfind hc'.value hc'.others hc'.upvals, rfl,
        fun q hq hlocals => hc'.others q fun heq => ?_⟩
      · rw [hc'.pc, hpc]
        exact (pc_emit s.fs _).symm
      · obtain ⟨l, hl, hl'⟩ := Option.map_eq_some_iff.mp hfind
        exact hlocals l (List.mem_reverse.mp (List.mem_of_find?_eq_some hl)) (hl'.trans heq.symm)

theorem storing_upval {idx : Nat} (hr : r < floor) :
    Ensures (storevar (.upval idx) r) s fun _ t => StoringCode P s floor (.upval idx) r t := by
  simp only [storevar, ensures_discard, ensures_codeAbc]
  have hgrown := (Extends.refl s).emit (encodeAbc .setUpval r idx 0)
  refine ⟨hgrown, Nat.le_refl _, fun p _ _ hlast hagree n ρ c target hpc hholds haims => ?_⟩
  cases haims with
  | upval hfind =>
      intro Y k post hend
      have hi : p.code[c.pc]? = some (encodeAbc .setUpval r 0 0) := by
        rw [hpc]
        exact hagree.emitted (Nat.le_refl _) (by simp)
      have hstore : store P ρ (.name "_ENV") (c.regs r) = pure { ρ with env := c.regs r } := by
        have hscope := hholds.find? "_ENV"
        rw [hfind] at hscope
        rw [store, hscope]
        rfl
      rw [hstore, pure_bind]
      refine realises_exec hi (exec_setUpval (Nat.lt_of_lt_of_le hr hlast)) ?_
      refine hend _ _ ?_ ⟨⟨hholds.scope, ?_⟩, rfl, fun _ _ _ => rfl⟩
      · show c.pc + 1 = _
        rw [hpc]
        exact (pc_emit s.fs _).symm
      · show Function.update c.upvals 0 (c.regs r) 0 = c.regs r
        rw [Function.update_self]

theorem store_global {name : Name} {table v : V} (hholds : Holds s.fs ρ c)
    (hfind : s.fs.findLocal name = none) (hne : name ≠ "_ENV")
    (htable : (ρ.find? "_ENV").getD ρ.env = table) :
    store P ρ (.name name) v =
      lift (P.newindex table (P.const (.string name)) v) >>= fun _ => pure ρ := by
  have hscope := hholds.find? name
  rw [hfind] at hscope
  rw [store, hscope, ← htable]
  exact if_neg hne

theorem storing_globalIn {table k : Nat} (hs : Sited s) (hfloor : s.fs.nactvar ≤ floor)
    (hfloor' : floor ≤ s.fs.freereg) (hr : r < floor) :
    Ensures (storevar (.globalIn table k) r) s fun _ t =>
      StoringCode P s floor (.globalIn table k) r t := by
  simp only [storevar, loadKey, ensures_ite, ensures_bind, ensures_newReg, ensures_discard,
    ensures_codeAbc, ensures_codeAbx, ensures_pure]
  refine ⟨fun hk => ?_, fun _ _ => ?_⟩
  · have hgrown := (Extends.refl s).emit (encodeAbc .setField table k r)
    refine ⟨hgrown, Nat.le_refl _, fun p hsmall hcovers hlast hagree n ρ c target hpc hholds
      haims => ?_⟩
    cases haims with
    | @globalIn name _ _ hfind hne htable hconst =>
        intro Y f post hend
        have htable' : table < 256 := (hcovers.before hgrown).lt hsmall
          (Nat.lt_of_lt_of_le (findLocal_lt hs.ready htable) hs.ready.active)
        refine (stores_single (fun c => P.newindex (c.regs table) (P.const (.string name))
          (c.regs r)) rfl hagree (fun c => exec_setField htable' (Nat.lt_succ_of_le hk)
            (Nat.lt_of_lt_of_le hr hlast) hconst) fun _ _ => rfl).stored hs hfloor hpc hholds
          (store_global hholds hfind hne ?_) hend
        rw [hholds.find? "_ENV", htable]
        rfl
  · have hgrown := (((Extends.refl s).reserved 1).emit (encodeAbx .loadK s.fs.freereg k)).emit
      (encodeAbc .setTable table s.fs.freereg r)
    refine ⟨hgrown, Nat.le_succ _, fun p hsmall hcovers hlast hagree n ρ c target hpc hholds
      haims => ?_⟩
    cases haims with
    | @globalIn name _ _ hfind hne htable hconst =>
        intro Y f post hend
        have htable' := findLocal_lt hs.ready htable
        have htable'' : table < 256 := (hcovers.before hgrown).lt hsmall
          (Nat.lt_of_lt_of_le htable' hs.ready.active)
        have hkreg : s.fs.freereg < 256 :=
          hcovers.lt hsmall (Nat.lt_of_lt_of_le (Nat.lt_succ_self _) (Nat.le_max_right _ _))
        refine (stores_byKey hsmall hfloor' hkreg htable'' (by omega) (by omega) (by omega) hconst
          (List.append_assoc _ _ _) hagree).stored hs hfloor hpc hholds
          (store_global hholds hfind hne ?_) hend
        rw [hholds.find? "_ENV", htable]
        rfl

theorem storing_global {k : Nat} (hs : Sited s) (hfloor : s.fs.nactvar ≤ floor)
    (hfloor' : floor ≤ s.fs.freereg) (hr : r < floor) :
    Ensures (storevar (.global k) r) s fun _ t => StoringCode P s floor (.global k) r t := by
  simp only [storevar, ensures_bind]
  rw [ensures_ensureEnvUpval hs.ready.env]
  simp only [loadKey, ensures_ite, ensures_bind, ensures_newReg, ensures_discard, ensures_codeAbc,
    ensures_codeAbx, ensures_pure, freereg_emit, freereg_reserved]
  refine ⟨fun hk => ?_, fun _ _ _ => ?_⟩
  · refine ⟨(Extends.refl s).emit _, Nat.le_refl _,
      fun p hsmall hcovers hlast hagree n ρ c target hpc hholds haims => ?_⟩
    cases haims with
    | @global name _ hfind hne hnone hconst =>
        intro Y f post hend
        refine (stores_single (fun c => P.newindex (c.upvals 0) (P.const (.string name))
          (c.regs r)) rfl hagree (fun c => exec_setTabUp (Nat.lt_succ_of_le hk)
            (Nat.lt_of_lt_of_le hr hlast) hconst) fun _ _ => rfl).stored hs hfloor hpc hholds
          (store_global hholds hfind hne ?_) hend
        rw [hholds.find? "_ENV", hnone, hholds.env]
        rfl
  · let s₁ : LowerState α :=
      { s with fs := (s.fs.reserved 1).emit (encodeAbc .getUpval s.fs.freereg 0 0) }
    have hgrown₁ : Extends s s₁ := ((Extends.refl s).reserved 1).emit _
    have hgrown₂ := (((Extends.refl s₁).reserved 1).emit
      (encodeAbx .loadK (s.fs.freereg + 1) k)).emit
        (encodeAbc .setTable s.fs.freereg (s.fs.freereg + 1) r)
    refine ⟨hgrown₁.trans hgrown₂, Nat.le_add_right _ 2,
      fun p hsmall hcovers hlast hagree n ρ c target hpc hholds haims => ?_⟩
    cases haims with
    | @global name _ hfind hne hnone hconst =>
        intro Y f post hend
        have hkreg : s.fs.freereg + 1 < 256 :=
          hcovers.lt hsmall (Nat.lt_of_lt_of_le (Nat.lt_succ_self _) (Nat.le_max_right _ _))
        have hi : p.code[c.pc]? = some (encodeAbc .getUpval s.fs.freereg 0 0) := by
          have hlt : s.fs.pc < s₁.fs.pc :=
            Nat.lt_of_lt_of_eq (Nat.lt_succ_self _) (pc_emit (s.fs.reserved 1) _).symm
          rw [hpc, hagree s.fs.pc (Nat.le_refl _) (Nat.lt_of_lt_of_le hlt hgrown₂.pc)]
          exact (getElem?_grown hgrown₂.code hlt).trans (emit_last (pc_reserved s.fs 1).symm)
        refine realises_write hi (exec_getUpval (by omega)) fun c₁ hc₁ hworld => ?_
        have hsame : Same s.fs.freereg c c₁ := hc₁.same (Nat.le_refl _)
        rw [← hworld, ← hsame.regs r (by omega)]
        have hpc₁ : c₁.pc = s₁.fs.pc := by
          rw [hc₁.pc, hpc]
          exact (pc_emit (s.fs.reserved 1) _).symm
        have hholds₁ : Holds s₁.fs ρ c₁ :=
          hholds.same_first hs rfl hs.ready.free hsame
        have hstores : Stores P p ρ floor s₁ _ _ := stores_byKey hsmall (by omega) hkreg (by omega)
          (by omega) (by omega) (by omega) hconst (List.append_assoc _ _ _)
          (hagree.mono hgrown₁.pc (Nat.le_refl _))
        refine hstores.stored (hs.extends hgrown₁ (Nat.le_succ_of_le hs.ready.free)) hfloor hpc₁
          hholds₁ (store_global hholds₁ hfind hne ?_) fun ρ' c' hpc' hstored => ?_
        · rw [hholds₁.find? "_ENV", hc₁.value]
          show (Option.map c₁.regs (s.fs.findLocal "_ENV")).getD ρ.env = c.upvals 0
          rw [hnone, hholds.env]
          rfl
        · refine hend ρ' c' hpc' ⟨⟨hstored.holds.scope, hstored.holds.env⟩, hstored.varargs,
            fun q hq hlocals => ?_⟩
          rw [hstored.others q hq hlocals, hsame.regs q (by omega)]

theorem storing_indexed {table key : Nat} {indexKey : IndexKey} (hs : Sited s)
    (hfloor : s.fs.nactvar ≤ floor) (hr : r < floor) :
    Ensures (storevar (.indexed table key indexKey) r) s fun _ t =>
      StoringCode P s floor (.indexed table key indexKey) r t := by
  simp only [storevar, ensures_discard, ensures_codeAbc]
  refine ⟨(Extends.refl s).emit _, Nat.le_refl _,
    fun p hsmall _ hlast hagree n ρ c target hpc hholds haims => ?_⟩
  cases haims with
  | slot _ htable hkey =>
      intro Y f post hend
      exact (stores_single (fun c => P.newindex (c.regs table) (indexKey.value P p c key)
        (c.regs r)) rfl hagree (fun c => exec_setIndex (Nat.lt_of_lt_of_le htable hlast) hkey
          hlast (Nat.lt_of_lt_of_le hr hlast)) fun _ _ => by cases indexKey <;> rfl).stored hs
            hfloor hpc hholds rfl hend

theorem storing_ok (hs : Sited s) (hfloor : s.fs.nactvar ≤ floor)
    (hfloor' : floor ≤ s.fs.freereg) (hr : r < floor) :
    Ensures (storevar d r) s fun _ t => StoringCode P s floor d r t := by
  cases d with
  | «local» reg => exact storing_local hs hr
  | upval idx => exact storing_upval hr
  | globalIn table k => exact storing_globalIn hs hfloor hfloor' hr
  | global k => exact storing_global hs hfloor hfloor' hr
  | indexed table key indexKey => exact storing_indexed hs hfloor hr
  | _ => exact ensures_throw.mpr trivial

structure RowStored (P : Primitives V σ ε) (s : LowerState α) (floor first : Nat)
    (ds : List Expdesc) (t : LowerState α) : Prop where
  grown : Extends s t
  free : s.fs.freereg ≤ t.fs.freereg
  storing : ∀ p, Small p → Covers p t.fs → floor ≤ 256 → Agree p t.fs s.fs.pc t.fs.pc →
    ∀ n ρ c targets, c.pc = s.fs.pc → Holds s.fs ρ c →
      List.Forall₂ (Aims P p s.fs floor c) ds targets →
      ∀ (Y : Type) (k : Env V → Eval V σ ε Y) (post : Y × σ → Config V σ → Prop),
        (∀ ρ' c', c'.pc = t.fs.pc → Stored s.fs floor ρ c ρ' c' →
          Realises (advance P p ρ.varargs) n c' (k ρ' c'.world) post) →
        Realises (advance P p ρ.varargs) n c
          ((storeEach P ρ (targets.zip (c.between first (first + ds.length))) >>= k) c.world) post

theorem Aims.within {fs fs' : FuncState α} (h : Aims P p fs floor c d target)
    (hlocals : fs'.locals = fs.locals) (hactive : fs'.nactvar = fs.nactvar) :
    Aims P p fs' floor c d target := by
  have hfind (name : Name) : fs'.findLocal name = fs.findLocal name := by
    rw [FuncState.findLocal, hlocals, FuncState.findLocal]
  cases h with
  | «local» h => exact .local (by rw [hfind]; exact h)
  | upval h => exact .upval (by rw [hfind]; exact h)
  | globalIn h hne htable hk =>
      exact .globalIn (by rw [hfind]; exact h) hne (by rw [hfind]; exact htable) hk
  | global h hne hnone hk =>
      exact .global (by rw [hfind]; exact h) hne (by rw [hfind]; exact hnone) hk
  | slot htable hlt hkey => exact .slot (hactive ▸ htable) hlt (hactive ▸ hkey)

theorem storeAll_ok (floor base : Nat) : ∀ (ds : List Expdesc) (i : Nat) (s : LowerState α),
    Sited s → s.fs.nactvar ≤ base → base + i + ds.length ≤ floor → floor ≤ s.fs.freereg →
    Ensures (storeAll base i ds) s fun _ t => RowStored P s floor (base + i) ds t
  | [], i, s, _, _, _, _ => by
      rw [storeAll, ensures_pure]
      refine ⟨.refl s, Nat.le_refl _, fun p _ _ _ _ n ρ c targets hpc hholds haims Y k post hend =>
        ?_⟩
      cases haims
      rw [List.zip_nil_left, storeEach, pure_bind]
      exact hend ρ c hpc ⟨hholds, rfl, fun _ _ _ => rfl⟩
  | d :: ds, i, s, hs, hactive, hlast, hfree => by
      rw [List.length_cons] at hlast
      simp only [storeAll, ensures_bind]
      refine (storing_ok (P := P) hs (by omega) hfree (by omega)).mono fun _ t ht => ?_
      have hst : Sited t := hs.extends ht.grown (hs.ready.free.trans ht.free)
      refine (storeAll_ok floor base ds (i + 1) t hst (by rw [ht.grown.nactvar]; exact hactive)
        (by omega) (hfree.trans ht.free)).mono fun _ u hu => ?_
      refine ⟨ht.grown.trans hu.grown, ht.free.trans hu.free,
        fun p hsmall hcovers hfloor hagree n ρ c targets hpc hholds haims Y k post hend => ?_⟩
      cases haims with
      | @cons _ target _ targets haim haims =>
          have hagree' : Agree p t.fs s.fs.pc t.fs.pc :=
            (hagree.mono (Nat.le_refl _) hu.grown.pc).before hu.grown (Nat.le_refl _)
          rw [List.length_cons, between_cons, List.zip_cons_cons, storeEach, bind_assoc]
          refine ht.storing p hsmall (hcovers.before hu.grown) hfloor hagree' n ρ c target hpc
            hholds haim Y _ post fun ρ₁ c₁ hpc₁ hstored => ?_
          have hkeep (r : Nat) (hr : s.fs.nactvar ≤ r) (hr' : r < floor) :
              c₁.regs r = c.regs r := hstored.others r hr' fun l hl heq => by
            have := hs.ready.locals l hl
            omega
          have hrow : c.between (base + i + 1) (base + i + (ds.length + 1)) =
              c₁.between (base + (i + 1)) (base + (i + 1) + ds.length) := by
            have hlast' : base + i + (ds.length + 1) = base + (i + 1) + ds.length := by omega
            rw [hlast']
            refine (between_congr fun r hlo hhi => ?_).symm
            exact hkeep r (by omega) (by omega)
          rw [hrow, ← hstored.varargs]
          refine hu.storing p hsmall hcovers hfloor (hagree.mono ht.grown.pc (Nat.le_refl _)) n ρ₁
            c₁ targets hpc₁ ⟨by rw [ht.grown.locals]; exact hstored.holds.scope, hstored.holds.env⟩
            (haims.imp fun d target h => (h.keep (Nat.le_refl _) hkeep).within ht.grown.locals
              ht.grown.nactvar) Y k post fun ρ₂ c₂ hpc₂ hstored₂ => ?_
          rw [hstored.varargs]
          refine hend ρ₂ c₂ hpc₂ ⟨?_, hstored₂.varargs.trans hstored.varargs,
            fun q hq hlocals => ?_⟩
          · exact ⟨by rw [← ht.grown.locals]; exact hstored₂.holds.scope, hstored₂.holds.env⟩
          · rw [hstored₂.others q hq (by rw [ht.grown.locals]; exact hlocals),
              hstored.others q hq hlocals]

end Storing

/-! ## Targets -/

section Targets

variable {P : Primitives V σ ε} {p : Proto α} {s t u : LowerState α} {ρ : Env V}
  {names : List Name}

structure TargetCode (P : Primitives V σ ε) (ρ : Env V) (s : LowerState α)
    (ev : Eval V σ ε (Target V)) (d : Expdesc) (t : LowerState α) : Prop where
  grown : Extends s t
  free : s.fs.freereg ≤ t.fs.freereg
  delivers : ∀ p, Small p → Covers p t.fs → Agree p t.fs s.fs.pc t.fs.pc →
    Delivers P p ρ s.fs.freereg s t ev fun target c => Aims P p s.fs t.fs.freereg c d target

def Targeted (α : Type) (P : Primitives V σ ε) (ρ : Env V) (names : List Name) (e : Expr) : Prop :=
  ∀ s : LowerState α, Ready s → s.fs.locals.map Local.name = names →
    Ensures (expr e) s fun d t => Ensures (snapshot d) t fun d u =>
      TargetCode P ρ s (evalTarget P ρ e) d u

theorem targetCode_name {name : Name} {d : Expdesc} (hgrown : Extends s t)
    (hpc : t.fs.pc = s.fs.pc) (hfree : s.fs.freereg ≤ t.fs.freereg)
    (hd : (snapshot d : Lower α Expdesc) = pure d)
    (haims : ∀ (p : Proto α) (c : Config V σ), t.fs.constants <+: p.constants →
      Aims P p s.fs t.fs.freereg c d (.name name)) :
    Ensures (snapshot d) t fun d u => TargetCode P ρ s (pure (.name name)) d u := by
  rw [hd, ensures_pure]
  refine ⟨hgrown, hfree, fun p _ hcovers _ n c hc _ Y k post hend => ?_⟩
  rw [pure_bind]
  exact hend _ c (hc.trans hpc.symm) (.refl _ c) (haims p c hcovers.constants)

theorem getElem?_constants {constants : List Const} {i : Nat} {k : Const}
    (h : constants <+: p.constants) (hi : constants[i]? = some k) :
    p.constants[i]? = some k := by
  rw [getElem?_grown h (List.getElem?_eq_some_iff.mp hi).1]
  exact hi

theorem targeted_name (name : Name) : Targeted α P ρ names (.name name) := by
  intro s hready _
  rw [expr, evalTarget]
  cases hlocal : s.fs.findLocal name with
  | some reg =>
      rw [ensures_local hlocal]
      exact targetCode_name (.refl s) rfl (Nat.le_refl _) rfl fun _ _ _ => .local hlocal
  | none =>
      by_cases hname : name = "_ENV"
      · subst hname
        rw [ensures_upval hlocal hready.env]
        exact targetCode_name (.refl s) rfl (Nat.le_refl _) rfl fun _ _ _ => .upval hlocal
      · rw [ensures_global hready.main hlocal (hready.only name hname)]
        simp only [globalVar, ensures_bind, ensures_getFs]
        cases hlocal' : s.fs.findLocal "_ENV" with
        | some table =>
            simp only [ensures_bind, stringK]
            refine (ensures_constIndex _).mono ?_
            rintro i _ ⟨more, rfl, hi⟩
            rw [ensures_pure]
            exact targetCode_name (extends_constants more) rfl (Nat.le_refl _) rfl
              fun p c hconst => .globalIn hlocal hname hlocal' (getElem?_constants hconst hi)
        | none =>
            simp only [ensures_bind, ensures_discard, stringK]
            rw [ensures_ensureEnvUpval hready.env]
            refine (ensures_constIndex _).mono ?_
            rintro i _ ⟨more, rfl, hi⟩
            rw [ensures_pure]
            exact targetCode_name (extends_constants more) rfl (Nat.le_refl _) rfl
              fun p c hconst => .global hlocal hname hlocal' (getElem?_constants hconst hi)

theorem Slot.snapshot {ev : Eval V σ ε (V × V)} {table key : Nat} {indexKey : IndexKey}
    (hready : Ready s) (h : Slot P ρ s ev table key indexKey t) :
    Ensures (snapshot (.indexed table key indexKey)) t fun d u =>
      TargetCode P ρ s (ev >>= fun x => pure (.slot x.1 x.2)) d u := by
  have hactive : s.fs.nactvar ≤ t.fs.freereg := hready.free.trans h.free
  let t₁ : LowerState α :=
    { t with fs := (t.fs.reserved 1).emit (encodeAbc .move t.fs.freereg table 0) }
  have hgrown₁ : Extends t t₁ := ((Extends.refl t).reserved 1).emit _
  have hone (hkey : ∀ p : Proto α, Small p → Covers p t.fs →
      indexKey.Usable p s.fs.nactvar (t.fs.freereg + 1) key)
      (hvalue : ∀ (p : Proto α) (c c' : Config V σ),
        indexKey.value P p c' key = indexKey.value P p c key) :
      TargetCode P ρ s (ev >>= fun x => pure (.slot x.1 x.2))
        (.indexed t.fs.freereg key indexKey) t₁ := by
    refine ⟨h.grown.trans hgrown₁, Nat.le_succ_of_le h.free,
      fun p hsmall hcovers hagree n c hpc hholds Y k post hend => ?_⟩
    have hcovers' : Covers p t.fs := hcovers.before hgrown₁
    rw [bind_assoc]
    refine h.leads p hsmall hcovers' ((hagree.mono (Nat.le_refl _) hgrown₁.pc).before hgrown₁
      (Nat.le_refl _)) n c hpc hholds Y _ post fun c₁ hpc₁ hsame₁ => ?_
    rw [pure_bind, pure_bind]
    have hi : p.code[c₁.pc]? = some (encodeAbc .move t.fs.freereg table 0) := by
      rw [hpc₁]
      exact hagree.emitted h.grown.pc (by simp [t₁])
    have hreg : t.fs.freereg < 256 :=
      hcovers.lt hsmall (Nat.lt_of_lt_of_le (Nat.lt_succ_self _) (Nat.le_max_right _ _))
    refine realises_write hi (exec_move hreg (hcovers'.lt hsmall h.stack)) fun c₂ hc₂ hworld => ?_
    rw [← hworld, ← hc₂.value, ← hvalue p c₁ c₂]
    refine hend _ c₂ ?_ (hsame₁.trans (hc₂.same h.free)) ?_
    · rw [hc₂.pc, hpc₁]
      exact (pc_emit (t.fs.reserved 1) _).symm
    · exact .slot hactive (Nat.lt_succ_self _) (hkey p hsmall hcovers')
  cases indexKey with
  | intImm =>
      simp only [Lowering.snapshot, ensures_bind, ensures_newReg, ensures_discard,
        ensures_codeAbc, ensures_pure]
      exact fun _ => hone (fun _ _ _ => Nat.lt_succ_of_le h.inRange) fun _ _ _ => rfl
  | constStr =>
      simp only [Lowering.snapshot, ensures_bind, ensures_newReg, ensures_discard,
        ensures_codeAbc, ensures_pure]
      refine fun _ => hone (fun p _ hcovers => ?_) fun _ _ _ => rfl
      obtain ⟨const, hconst, -⟩ := constantAt_grown (P := P) hcovers h.inRange.2
      exact ⟨Nat.lt_succ_of_le h.inRange.1, const, hconst⟩
  | reg =>
      simp only [Lowering.snapshot, ensures_bind, ensures_newReg, ensures_discard,
        ensures_codeAbc, ensures_pure, freereg_emit, freereg_reserved]
      intro _ _
      have hgrown₂ := ((Extends.refl t₁).reserved 1).emit
        (encodeAbc .move (t.fs.freereg + 1) key 0)
      have hgrown := hgrown₁.trans hgrown₂
      refine ⟨h.grown.trans hgrown, Nat.le_succ_of_le (Nat.le_succ_of_le h.free),
        fun p hsmall hcovers hagree n c hpc hholds Y k post hend => ?_⟩
      have hcovers' : Covers p t.fs := hcovers.before hgrown
      have hkey : key < 256 := hcovers'.lt hsmall h.inRange
      have hnext : key ≠ t.fs.freereg := h.next rfl
      have hreg : t.fs.freereg + 1 < 256 :=
        hcovers.lt hsmall (Nat.lt_of_lt_of_le (Nat.lt_succ_self _) (Nat.le_max_right _ _))
      rw [bind_assoc]
      refine h.leads p hsmall hcovers' ((hagree.mono (Nat.le_refl _) hgrown.pc).before hgrown
        (Nat.le_refl _)) n c hpc hholds Y _ post fun c₁ hpc₁ hsame₁ => ?_
      rw [pure_bind, pure_bind]
      have hat {j : Nat} := (hagree.mono h.grown.pc (Nat.le_refl _)).appended
        (show FuncState.code _ = t.fs.code ++ [encodeAbc .move t.fs.freereg table 0,
          encodeAbc .move (t.fs.freereg + 1) key 0] from List.append_assoc _ _ _)
        (Nat.le_refl _) hpc₁ (j := j)
      have hsecond : p.code[c₁.pc + 1]? = some (encodeAbc .move (t.fs.freereg + 1) key 0) :=
        hat (j := 1) (by simp)
      refine realises_write (hat (j := 0) (by simp)) (exec_move (by omega)
        (hcovers'.lt hsmall h.stack)) fun c₂ hc₂ hworld₂ => ?_
      rw [← hc₂.pc] at hsecond
      refine realises_write hsecond (exec_move hreg hkey) fun c₃ hc₃ hworld₃ => ?_
      have htable : c₃.regs t.fs.freereg = c₁.regs table := by
        rw [hc₃.others _ (by omega), hc₂.value]
      have hvalue : c₃.regs (t.fs.freereg + 1) = c₁.regs key := by
        rw [hc₃.value, hc₂.others key hnext]
      show Realises _ n c₃ (k (.slot (c₁.regs table) (c₁.regs key)) c₁.world) post
      rw [← hworld₂, ← hworld₃, ← htable, ← hvalue]
      refine hend _ c₃ ?_ (hsame₁.trans ((hc₂.same h.free).trans
        (hc₃.same (Nat.le_succ_of_le h.free)))) ?_
      · rw [hc₃.pc, hc₂.pc, hpc₁]
        simp
      · exact .slot hactive (Nat.lt_add_of_pos_right Nat.two_pos)
          ⟨Nat.le_succ_of_le hactive, Nat.lt_succ_self _⟩

theorem Slots.targeted {e : Expr} {ev : Eval V σ ε (V × V)}
    (h : Slots (α := α) P ρ names (expr e) ev)
    (heval : evalTarget P ρ e = ev >>= fun x => pure (.slot x.1 x.2)) :
    Targeted α P ρ names e := by
  intro s hready hnames
  refine (h s hready hnames).mono ?_
  rintro _ t ⟨table, key, indexKey, rfl, ht⟩
  rw [heval]
  exact ht.snapshot hready

structure TargetsCode (P : Primitives V σ ε) (ρ : Env V) (s : LowerState α) (vars : List Expr)
    (ds : List Expdesc) (t : LowerState α) : Prop where
  grown : Extends s t
  free : s.fs.freereg ≤ t.fs.freereg
  length : ds.length = vars.length
  delivers : ∀ p, Small p → Covers p t.fs → Agree p t.fs s.fs.pc t.fs.pc →
    Delivers P p ρ s.fs.freereg s t (evalTargets P ρ vars) fun targets c =>
      List.Forall₂ (Aims P p s.fs t.fs.freereg c) ds targets

theorem targets_ok : ∀ (vars : List Expr) (s : LowerState α),
    (∀ e ∈ vars, Targeted α P ρ names e) → Ready s → s.fs.locals.map Local.name = names →
    Ensures (targets (exprs vars)) s fun ds t => TargetsCode P ρ s vars ds t
  | [], s, _, _, _ => by
      rw [exprs, targets, ensures_pure]
      refine ⟨.refl s, Nat.le_refl _, rfl, fun p _ _ _ n c hpc _ Y k post hend => ?_⟩
      rw [evalTargets, pure_bind]
      exact hend [] c hpc (.refl _ c) .nil
  | e :: vars, s, hvars, hready, hnames => by
      simp only [exprs, targets, ensures_bind]
      refine (hvars e List.mem_cons_self s hready hnames).mono fun _ t ht => ht.mono
        fun d u hu => ?_
      have hready' : Ready u := hready.extends hu.grown hu.free
      refine (targets_ok vars u (fun e' he' => hvars e' (List.mem_cons_of_mem e he')) hready'
        (by rw [hu.grown.locals, hnames])).mono fun ds v hv => ?_
      rw [ensures_pure]
      refine ⟨hu.grown.trans hv.grown, hu.free.trans hv.free, congrArg (· + 1) hv.length,
        fun p hsmall hcovers hagree => ?_⟩
      have hfirst := hu.delivers p hsmall (hcovers.before hv.grown)
        ((hagree.mono (Nat.le_refl _) hv.grown.pc).before hv.grown (Nat.le_refl _))
      have hrest := hv.delivers p hsmall hcovers (hagree.mono hu.grown.pc (Nat.le_refl _))
      have hactive : s.fs.nactvar ≤ s.fs.freereg := hready.free
      refine (hfirst.andThen (f := fun target targets => target :: targets) hready hu.grown hactive
        hu.free hrest fun target c c' haims hsame => ?_).mono (Nat.le_refl _) ?_
      · exact haims.keep (Nat.le_refl _) fun r _ hr => hsame.regs r hr
      · rintro _ c ⟨target, targets, rfl, haims, hrest⟩
        refine .cons (haims.keep hv.free fun _ _ _ => rfl) ?_
        exact hrest.imp fun d target h => h.within hu.grown.locals.symm hu.grown.nactvar.symm

theorem executes_assign {inLoop : Bool} {vars values : List Expr}
    (hvars : ∀ ρ : Env V, ∀ e ∈ vars, Targeted α P ρ names e)
    (hvalues : ∀ ρ : Env V, ∀ e ∈ values, Correct α P ρ names e)
    (hlen : values.length ≤ vars.length) (hfills : fills vars.length values) :
    Executes (α := α) P inLoop names [] (lowerAssign (exprs vars) (exprItems values))
      fun fuel => execStmt P fuel (.assign vars values) := by
  intro s hs hnames
  simp only [lowerAssign, freeToActive, ensures_bind, ensures_modifyFs, ensures_getFs]
  let s₁ : LowerState α := { s with fs := s.fs.setFreereg s.fs.nactvar }
  have hgrown₁ : Extends s s₁ := (Extends.refl s).setFreereg _
  have hsited₁ : Sited s₁ := hs.extends hgrown₁ (Nat.le_refl _)
  have htargets (ρ : Env V) := targets_ok vars s₁ (hvars ρ) hsited₁.ready hnames
  refine (Ensures.all htargets).mono fun ds t ht => ?_
  obtain ⟨hgrown₂, hfree₂, hds, -⟩ := ht ⟨[], P.nil, []⟩
  generalize hbase : t.fs.freereg = base
  let t₁ : LowerState α := { t with fs := t.fs.raiseMaxstack (base + vars.length) }
  have hgrown₃ : Extends t t₁ := extends_raiseMaxstack _ _
  have hsited₂ : Sited t := hsited₁.extends hgrown₂ hfree₂
  have hsited₃ : Sited t₁ := hsited₂.extends hgrown₃ hsited₂.ready.free
  rw [hds]
  have hgrown : Extends s t₁ := (hgrown₁.trans hgrown₂).trans hgrown₃
  refine row_ok (s := t₁) hsited₃.ready (by rw [hgrown.locals, hnames]) hvalues hlen hbase
    fun filled u hrow hfree₄ hfull => ?_
  have hgrown₄ : Extends t₁ u := (hrow ⟨[], P.nil, []⟩).grown
  have hactive : u.fs.nactvar ≤ base := by
    rw [hgrown₄.nactvar, ← hbase]
    exact hsited₃.ready.free
  have hsited₄ : Sited u := hsited₃.extends hgrown₄ (hgrown₄.nactvar ▸ hactive.trans hfree₄)
  refine (storeAll_ok (P := P) (base + vars.length) base ds 0 u hsited₄ hactive
    (by rw [hds, Nat.add_zero]) (Nat.le_of_eq (hfull hfills).symm)).mono fun _ v hv => ?_
  let w : LowerState α := { v with fs := v.fs.setFreereg v.fs.nactvar }
  have hgrown₅ : Extends s u := hgrown.trans hgrown₄
  have hgrown₆ : Extends s w := (hgrown₅.trans hv.grown).setFreereg _
  refine ⟨⟨hgrown₆.onward, hs.extends hgrown₆ (Nat.le_of_eq (hgrown₅.trans hv.grown).nactvar.symm),
    fun _ => hgrown₆.breakList, ?_⟩, ?_⟩
  · intro p fuel exit hsmall hcovers hexit hfollows n ρ c hn hpc hholds Y k post hnext hbroke
    have hcovers₅ : Covers p u.fs :=
      Covers.before (t := v) ⟨hcovers.constants, hcovers.maxstack⟩ hv.grown
    have hcovers₃ : Covers p t₁.fs := hcovers₅.before hgrown₄
    have hlast : base + vars.length ≤ 200 :=
      (Nat.le_max_right _ _).trans (hcovers₃.maxstack.trans hsmall.maxstack)
    have hagree : Agree p v.fs s.fs.pc v.fs.pc :=
      hfollows.agree (t := w) hs hgrown₆.breakList (Nat.le_refl _)
    have hagree₅ : Agree p u.fs s.fs.pc u.fs.pc :=
      (hagree.mono (Nat.le_refl _) hv.grown.pc).before hv.grown (Nat.le_refl _)
    have hagree₃ : Agree p t₁.fs s.fs.pc t₁.fs.pc :=
      (hagree₅.mono (Nat.le_refl _) hgrown₄.pc).before hgrown₄ (Nat.le_refl _)
    have hbelow : s.fs.nactvar ≤ base := hbase ▸ hfree₂
    rw [execStmt, bind_assoc]
    refine (ht ρ).delivers p hsmall (hcovers₃.before hgrown₃) hagree₃ n c hpc
      ⟨hholds.scope, hholds.env⟩ Y _ post fun places c₁ hpc₁ hsame₁ haims => ?_
    rw [bind_assoc]
    refine (hrow ρ).delivers p hsmall hcovers₅ (by omega)
      (hagree₅.mono (hgrown₁.trans hgrown₂).pc (Nat.le_refl _)) n c₁ hpc₁
      (hholds.same_first hs hgrown.locals (Nat.le_refl _) hsame₁) Y _ post
      fun results c₂ hpc₂ hsame₂ hresults => ?_
    have hsame : Same s.fs.nactvar c c₂ := hsame₁.trans (hsame₂.mono hbelow)
    rw [bind_assoc, ← hresults.2, ← hds]
    refine hv.storing p hsmall ⟨hcovers.constants, hcovers.maxstack⟩ (by omega)
      (hagree.mono hgrown₅.pc (Nat.le_refl _)) n ρ c₂ places hpc₂
      (hholds.same_first hs hgrown₅.locals (Nat.le_refl _) hsame)
      (haims.imp fun d place h => ?_) Y _ post fun ρ' c₃ hpc₃ hstored => ?_
    · rw [hbase] at h
      exact (h.keep (Nat.le_add_right _ _) fun r _ hr => hsame₂.regs r hr).within hgrown₅.locals
        hgrown₅.nactvar
    · rw [pure_bind]
      refine hnext ρ' c₃ hpc₃ ⟨⟨?_, hstored.holds.env⟩, hstored.varargs, fun r hr hlocals => ?_⟩
      · rw [← hstored.holds.scope, hgrown₆.locals, hgrown₅.locals]
      · refine (hstored.others r (by omega) ?_).trans (hsame.regs r hr)
        rwa [hgrown₅.locals]
  · show w.fs.locals.map Local.name = _
    rw [hgrown₆.locals, hnames, List.append_nil]

end Targets

end Luatier.Lowering
