import Luatier.Lib.Chase
import Luatier.Gc.Mutator
import Luatier.Vm.Opcodes
import Luatier.Vm.TmCache

/-!
# Indexed access

`meta_index` and `meta_newindex` serve the library; the interpreter has loops
of its own, and most of its opcodes try the table itself first.
-/

namespace Luatier

open Chase

/-- What an access comes to by itself; a handler is still to be run. -/
inductive Access (α : Type) where
  | done (r : α) (L : State)
  | call (mm : TValue) (args : List TValue) (nout : Nat) (L : State)
  | raised (e : String) (L : State)

def Access.ofResult {α : Type} : Result α → Access α
  | .ok r L => .done r L
  | .error e L => .raised e L

/-- What error messages take from the code that is running. -/
structure ErrorSite where
  /-- `varinfo_reg`: the name of the variable in a register. -/
  varinfo : State → Option Nat → String
  /-- `runerror`: the position in front of a message. -/
  located : State → String → String

def TmEvent.all : List TmEvent :=
  [.index, .newindex, .gc, .mode, .len, .eq, .add, .sub, .mul, .mod, .pow, .div, .idiv,
    .band, .bor, .bxor, .shl, .shr, .unm, .bnot, .lt, .le, .concat, .call]

namespace State

variable (L : State)

/-- A string that interning would have to create is not a key of any table. -/
def getByName (mt : Option Addr) (name : String) : TValue :=
  match mt.bind L.table?, L.strings.find? fun s => L.interned.view s == name.toUTF8.toList with
  | some mt, some s => mt.get L.interned (.string s)
  | _, _ => .nil

/-- `get_metamethod` with a name, most of which stand for events. -/
def getMetamethodNamed (v : TValue) (name : String) : TValue × State :=
  match (kNames.zip TmEvent.all).lookup name with
  | some e => L.getMetamethod v e
  | none => (L.getByName (L.getMetatable v) name, L)

def text (s : Addr) : String :=
  String.ofList ((L.interned.view s).map fun b => Char.ofNat b.toNat)

def objTypeName (v : TValue) : String :=
  match L.getByName (L.getMetatable v) "__name" with
  | .string s => L.text s
  | _ =>
      match v.tag with
      | .nil => "nil"
      | .bool => "boolean"
      | .int | .float => "number"
      | .string => "string"
      | .table => "table"
      | .function => "function"
      | .userdata | .lightUserdata => "userdata"
      | .thread => "thread"
      | _ => "value"

/-- `typeerror`; `err_reg` says where the value comes from. -/
def typeerror (site : ErrorSite) (errReg : Option Nat) (v : TValue) (op : String) : String :=
  site.located L
    ("attempt to " ++ op ++ " a " ++ L.objTypeName v ++ " value" ++ site.varinfo L errReg)

def rawStore (tb : Addr) (store : Table → Except String Stored) : Result Unit :=
  match (L.table? tb).map store with
  | some (.error e) => .error e L
  | some (.ok r) => .ok () (L.storeTable tb (.ok r))
  | none => .ok () L

def rawSet (tb : Addr) (key value : TValue) : Result Unit :=
  L.rawStore tb fun t => t.set L.interned 3 key value

def rawSetInt (tb : Addr) (i : Int64) (value : TValue) : Result Unit :=
  L.rawStore tb fun t => t.setInt L.interned 4 i value

end State

namespace Table

theorem setInt_eq_set (I : InternedStrings) (t : Table) (i : Int64) (value : TValue) :
    setInt I 4 t i value = set I 3 t (.integer i) value := by
  rw [setInt]
  cases hr : t.setArray? i value with
  | none => rfl
  | some r =>
      symm
      rw [set]
      have hnan : isNaN (.integer i) = false := rfl
      have hlike : metamethodLike I (.integer i) = false := rfl
      have hnil : (TValue.integer i).isNil = false := rfl
      have hint : keyAsInteger (.integer i) = some i := rfl
      simp only [hnil, hnan, hlike, hint, Bool.false_eq_true, if_false, Option.bind_some]
      by_cases hsmall : 1 ≤ i.toInt ∧ i.toInt ≤ 64
      · rw [Option.filter_some, if_pos (by simpa using hsmall)]
        simp only [setInt, hr]
      · rw [Option.filter_some, if_neg (by simpa using hsmall)]
        simp only
        unfold setArray? at hr
        split at hr
        · rename_i j hj
          exact congrArg Except.ok (Option.some.inj hr)
        · rw [if_neg hsmall] at hr
          cases hr

end Table

/-! ## The loops -/

namespace Access

section

variable (site : ErrorSite) (errReg : Option Nat)

/-- One round of `__index`; `tm` looks the metamethod up. -/
def indexRound (tm : State → TValue → TValue × State) (key : TValue) :
    TValue × State → Round (TValue × State) (Access TValue)
  | (t, L) =>
      if t.isTable then
        let v := L.rawGet t key
        if !v.isNil then .settled (.done v L)
        else
          let (mm, L) := tm L t
          if mm.isNil then .settled (.done .nil L)
          else if mm.isFunction then .settled (.call mm [t, key] 1 L)
          else .next (mm, L)
      else
        let (mm, L) := tm L t
        if mm.isNil then .settled (.raised (L.typeerror site errReg t "index") L)
        else if mm.isFunction then .settled (.call mm [t, key] 1 L)
        else .next (mm, L)

def newindexRound (tm : State → TValue → TValue × State) (key value : TValue) :
    TValue × State → Round (TValue × State) (Access Unit)
  | (.table tb, L) =>
      let cur := L.rawGet (.table tb) key
      if !cur.isNil then .settled (.ofResult (L.rawSet tb key value))
      else
        let (mm, L) := tm L (.table tb)
        if mm.isNil then .settled (.ofResult (L.rawSet tb key value))
        else if mm.isFunction then .settled (.call mm [.table tb, key, value] 0 L)
        else .next (mm, L)
  | (t, L) =>
      let (mm, L) := tm L t
      if mm.isNil then .settled (.raised (L.typeerror site errReg t "index") L)
      else if mm.isFunction then .settled (.call mm [t, key, value] 0 L)
      else .next (mm, L)

def indexLoop : TValue × State → Access TValue
  | (_, L) => .raised "'__index' chain too long; possible loop" L

def newindexLoop : TValue × State → Access Unit
  | (_, L) => .raised "'__newindex' chain too long; possible loop" L

def kMaxTagLoop : Nat := 2000

def metaIndex (L : State) (table key : TValue) : Access TValue :=
  chase (indexRound site errReg (fun L t => L.getMetamethodNamed t "__index") key) indexLoop
    kMaxTagLoop (table, L)

def metaNewindex (L : State) (table key value : TValue) : Access Unit :=
  chase (newindexRound site errReg (fun L t => L.getMetamethodNamed t "__newindex") key value)
    newindexLoop kMaxTagLoop (table, L)

/-- `index_yieldable`; it runs a handler in a frame that can be left. -/
def indexYieldable (L : State) (table key : TValue) : Access TValue :=
  chase (indexRound site errReg (fun L t => L.getMetamethod t .index) key) indexLoop 2000
    (table, L)

/-- `newindex_yieldable`. -/
def newindexYieldable (L : State) (table key value : TValue) : Access Unit :=
  chase (newindexRound site errReg (fun L t => L.getMetamethod t .newindex) key value)
    newindexLoop 2000 (table, L)

/-! ## The opcodes -/

/-- `!mt || mt->no_tm(event) || get_tm(L, mt, event).is_nil()`. -/
def noHandler (L : State) (mt : Option Addr) (e : TmEvent) : Bool × State :=
  match mt with
  | none => (true, L)
  | some a =>
      if (L.table? a).any (·.noTm e) then (true, L)
      else
        let (tm, L) := L.getTm (some a) e
        (tm.isNil, L)

def fastGet (L : State) (lookup : Table → TValue) (t key : TValue) : Access TValue :=
  match t with
  | .table a =>
      let tb := L.table? a
      let v := (tb.map lookup).getD .nil
      if !v.isNil then .done v L
      else
        let (absent, L) := noHandler L (tb.bind (·.metatable)) .index
        if absent then .done .nil L else indexYieldable site errReg L t key
  | _ => indexYieldable site errReg L t key

def fastSet (L : State) (lookup : Table → TValue) (store : State → Addr → Result Unit)
    (t key value : TValue) : Access Unit :=
  match t with
  | .table a =>
      let tb := L.table? a
      let cur := (tb.map lookup).getD .nil
      if !cur.isNil then .ofResult (store L a)
      else
        let (absent, L) := noHandler L (tb.bind (·.metatable)) .newindex
        if absent then .ofResult (store L a) else newindexYieldable site errReg L t key value
  | _ => newindexYieldable site errReg L t key value

end

variable (site : ErrorSite) (a : Addr) (chunk : Chunk) (ins : Instruction) (s : Activation)

def immediate (i : Nat) : Int64 := Int64.ofNat i

/-- `GETTABUP` and `SETTABUP` leave `err_reg` as it is. -/
def getTabUp (errReg : Option Nat) : Access TValue :=
  match chunk.upvals.getD ins.b none with
  | none => .raised "GETTABUP: bad upvalue" s.L
  | some _ =>
      match chunk.constants[ins.c]? with
      | none => .raised "GETTABUP: bad constant" s.L
      | some key =>
          fastGet site errReg s.L (·.get s.L.interned key) (chunk.upvalue s ins.b) key

def setTabUp (errReg : Option Nat) : Access Unit :=
  let t := chunk.upvalue s ins.a
  let key := chunk.constant ins.b
  let value := s.reg a ins.c
  fastSet site errReg s.L (·.get s.L.interned key) (·.rawSet · key value) t key value

def getTable : Access TValue :=
  let t := s.reg a ins.b
  let key := s.reg a ins.c
  fastGet site (some ins.b) s.L (·.get s.L.interned key) t key

def setTable : Access Unit :=
  let t := s.reg a ins.a
  let key := s.reg a ins.b
  let value := s.reg a ins.c
  fastSet site (some ins.a) s.L (·.get s.L.interned key) (·.rawSet · key value) t key value

def getI : Access TValue :=
  let t := s.reg a ins.b
  fastGet site (some ins.b) s.L (·.getInt s.L.interned (immediate ins.c)) t
    (.integer (immediate ins.c))

def setI : Access Unit :=
  let t := s.reg a ins.a
  let value := s.reg a ins.c
  fastSet site (some ins.a) s.L (·.getInt s.L.interned (immediate ins.b))
    (·.rawSetInt · (immediate ins.b) value) t (.integer (immediate ins.b)) value

def getField : Access TValue :=
  let t := s.reg a ins.b
  let key := chunk.constant ins.c
  fastGet site (some ins.b) s.L (·.get s.L.interned key) t key

def setField : Access Unit :=
  let t := s.reg a ins.a
  let key := chunk.constant ins.b
  let value := s.reg a ins.c
  fastSet site (some ins.a) s.L (·.get s.L.interned key) (·.rawSet · key value) t key value

/-- `SELF` has no fast path; it keeps the object first. -/
def opSelf : Access TValue :=
  let t := s.reg a ins.b
  let key := s.reg a ins.c
  indexYieldable site (some ins.b) (s.setReg a (ins.a + 1) t).L t key

/-! ## One lookup -/

variable {site a chunk ins s} {L : State} {errReg : Option Nat}

theorem getTm_state {mt : Option Addr} {e : TmEvent} (h : (L.getTm mt e).1.isNil = false) :
    (L.getTm mt e).2 = L := by
  unfold State.getTm at h ⊢
  cases hm : mt.bind fun a => (L.table? a).map (a, ·) with
  | none => rfl
  | some cell =>
      obtain ⟨b, t⟩ := cell
      rw [hm] at h
      simp only at h ⊢
      by_cases hno : t.noTm e = true
      · rw [if_pos hno]
      · rw [if_neg hno] at h ⊢
        cases hname : L.tmNames.getD e.ctorIdx none with
        | none => rfl
        | some name =>
            rw [hname] at h
            simp only at h ⊢
            by_cases hnil : (t.get L.interned (.string name)).isNil = true
            · rw [if_pos hnil] at h
              exact nomatch h
            · rw [if_neg hnil]

theorem noHandler_eq (mt : Option Addr) (e : TmEvent) :
    noHandler L mt e = ((L.getTm mt e).1.isNil, (L.getTm mt e).2) := by
  cases mt with
  | none => rfl
  | some m =>
      rw [noHandler]
      by_cases hno : (L.table? m).any (·.noTm e) = true
      · rw [if_pos hno]
        cases ht : L.table? m with
        | none =>
            rw [ht] at hno
            exact nomatch hno
        | some t =>
            rw [ht, Option.any_some] at hno
            simp only [State.getTm, Option.bind_some, ht, Option.map_some, hno, if_true]
            rfl
      · rw [if_neg hno]

theorem rawSetInt_eq (tb : Addr) (i : Int64) (value : TValue) :
    L.rawSetInt tb i value = L.rawSet tb (.integer i) value := by
  simp only [State.rawSetInt, State.rawSet, Table.setInt_eq_set]

theorem metaIndex_eq (t key : TValue) :
    metaIndex site errReg L t key = indexYieldable site errReg L t key := rfl

theorem metaNewindex_eq (t key value : TValue) :
    metaNewindex site errReg L t key value = newindexYieldable site errReg L t key value := rfl

theorem fastGet_eq {lookup : Table → TValue} {key : TValue}
    (hlookup : ∀ tb, lookup tb = tb.get L.interned key) (t : TValue) :
    fastGet site errReg L lookup t key = indexYieldable site errReg L t key := by
  cases t with
  | table b =>
      rw [fastGet, noHandler_eq]
      have hraw : ((L.table? b).map lookup).getD .nil = L.rawGet (.table b) key := by
        rw [State.rawGet, show lookup = fun t => t.get L.interned key from funext hlookup]
      simp only [hraw]
      by_cases hv : (L.rawGet (.table b) key).isNil = true
      · simp only [hv, Bool.not_true, Bool.false_eq_true, if_false]
        by_cases hmm : (L.getTm ((L.table? b).bind (·.metatable)) .index).1.isNil = true
        · rw [if_pos hmm]
          symm
          refine chase_settled ?_ 1999
          simp only [indexRound, TValue.isTable, if_true, hv, Bool.not_true, Bool.false_eq_true,
            if_false, State.getMetamethod, State.getMetatable, hmm]
        · rw [if_neg hmm, getTm_state (by simpa using hmm)]
      · simp only [hv, Bool.not_false, if_true]
        symm
        refine chase_settled ?_ 1999
        simp only [indexRound, TValue.isTable, if_true, hv, Bool.not_false]
  | _ => rfl

theorem fastSet_eq {lookup : Table → TValue} {store : State → Addr → Result Unit}
    {key value : TValue} (hlookup : ∀ tb, lookup tb = tb.get L.interned key)
    (hstore : ∀ L b, store L b = L.rawSet b key value) (t : TValue) :
    fastSet site errReg L lookup store t key value =
      newindexYieldable site errReg L t key value := by
  cases t with
  | table b =>
      rw [fastSet, noHandler_eq]
      have hraw : ((L.table? b).map lookup).getD .nil = L.rawGet (.table b) key := by
        rw [State.rawGet, show lookup = fun t => t.get L.interned key from funext hlookup]
      simp only [hraw, hstore]
      by_cases hcur : (L.rawGet (.table b) key).isNil = true
      · simp only [hcur, Bool.not_true, Bool.false_eq_true, if_false]
        by_cases hmm : (L.getTm ((L.table? b).bind (·.metatable)) .newindex).1.isNil = true
        · rw [if_pos hmm]
          symm
          refine chase_settled ?_ 1999
          simp only [newindexRound, hcur, Bool.not_true, Bool.false_eq_true, if_false,
            State.getMetamethod, State.getMetatable, hmm, if_true]
        · rw [if_neg hmm, getTm_state (by simpa using hmm)]
      · simp only [hcur, Bool.not_false, if_true]
        symm
        refine chase_settled ?_ 1999
        simp only [newindexRound, hcur, Bool.not_false, if_true]
  | _ => rfl

/-! ## Chains -/

/-- The chain of handlers goes on from `t` to `mm`. -/
def Leads (L : State) (e : TmEvent) (key t mm : TValue) : Prop :=
  L.rawGet t key = .nil ∧ (L.getMetamethod t e).1 = mm ∧ mm.isNil = false ∧
    mm.isFunction = false

theorem Leads.indexRound {key t mm : TValue} (h : Leads L .index key t mm) :
    Chase.Leads (indexRound site errReg (fun L t => L.getMetamethod t .index) key) (t, L)
      (mm, L) := by
  obtain ⟨hraw, hmm, hnil, hfun⟩ := h
  have hstate : (L.getMetamethod t .index).2 = L := getTm_state (by rwa [← hmm] at hnil)
  unfold Chase.Leads Access.indexRound
  simp only [hraw, hmm, hstate, hnil, hfun, Bool.false_eq_true, if_false]
  split
  · rfl
  · rfl

theorem Leads.newindexRound {key value t mm : TValue} (h : Leads L .newindex key t mm) :
    Chase.Leads (newindexRound site errReg (fun L t => L.getMetamethod t .newindex) key value)
      (t, L) (mm, L) := by
  obtain ⟨hraw, hmm, hnil, hfun⟩ := h
  have hstate : (L.getMetamethod t .newindex).2 = L := getTm_state (by rwa [← hmm] at hnil)
  unfold Chase.Leads
  cases t with
  | table b =>
      simp only [Access.newindexRound, hraw, hmm, hstate, hnil, hfun, Bool.false_eq_true, if_false]
      rfl
  | _ =>
      simp only [Access.newindexRound, hmm, hstate, hnil, hfun, Bool.false_eq_true, if_false]

theorem state_of_next {α : Type} {t : TValue} {e : TmEvent} {absent : Access α}
    {args : List TValue} {n : Nat} {u : TValue × State}
    (h : (if (L.getMetamethod t e).1.isNil = true then Round.settled absent
      else if (L.getMetamethod t e).1.isFunction = true then
        .settled (.call (L.getMetamethod t e).1 args n (L.getMetamethod t e).2)
      else .next ((L.getMetamethod t e).1, (L.getMetamethod t e).2)) = .next u) :
    u.2 = L := by
  split at h
  · exact nomatch h
  · rename_i hnil
    split at h
    · exact nomatch h
    · rw [← Round.next.inj h]
      exact getTm_state (Bool.eq_false_iff.mpr hnil)

theorem indexRound_state {key : TValue} {p q : TValue × State}
    (h : Chase.Leads (indexRound site errReg (fun L t => L.getMetamethod t .index) key) p q) :
    q.2 = p.2 := by
  obtain ⟨t, L⟩ := p
  unfold Chase.Leads indexRound at h
  simp only at h
  split at h
  · split at h
    · exact nomatch h
    · exact state_of_next h
  · exact state_of_next h

theorem newindexRound_state {key value : TValue} {p q : TValue × State}
    (h : Chase.Leads (newindexRound site errReg (fun L t => L.getMetamethod t .newindex) key value)
      p q) : q.2 = p.2 := by
  obtain ⟨t, L⟩ := p
  unfold Chase.Leads at h
  cases t with
  | table b =>
      simp only [newindexRound] at h
      split at h
      · exact nomatch h
      · exact state_of_next h
  | _ => exact state_of_next h

theorem metaIndex_of_cycle {key t u : TValue}
    (hback : Relation.ReflTransGen (Leads L .index key) t u)
    (hcycle : Relation.TransGen (Leads L .index key) u u) :
    metaIndex site errReg L t key = .raised "'__index' chain too long; possible loop" L := by
  let round := indexRound site errReg (fun L t => L.getMetamethod t .index) key
  have hlift : ∀ a b, Leads L .index key a b → Chase.Leads round (a, L) (b, L) :=
    fun _ _ h => h.indexRound
  obtain ⟨c, hreach, hc⟩ : ∃ c, Relation.ReflTransGen (Chase.Leads round) (t, L) c ∧
      chase round indexLoop kMaxTagLoop (t, L) = indexLoop c :=
    chase_of_cycle (hcycle.lift (fun t => (t, L)) hlift) kMaxTagLoop
      (hback.lift (fun t => (t, L)) hlift)
  have hstate : c.2 = L := Machine.invariant_of_path (fun p : TValue × State => p.2 = L)
    (fun hp hstep => (indexRound_state hstep).trans hp) rfl hreach
  exact hc.trans (congrArg (Access.raised _) hstate)

theorem metaNewindex_of_cycle {key value t u : TValue}
    (hback : Relation.ReflTransGen (Leads L .newindex key) t u)
    (hcycle : Relation.TransGen (Leads L .newindex key) u u) :
    metaNewindex site errReg L t key value =
      .raised "'__newindex' chain too long; possible loop" L := by
  let round := newindexRound site errReg (fun L t => L.getMetamethod t .newindex) key value
  have hlift : ∀ a b, Leads L .newindex key a b → Chase.Leads round (a, L) (b, L) :=
    fun _ _ h => h.newindexRound
  obtain ⟨c, hreach, hc⟩ : ∃ c, Relation.ReflTransGen (Chase.Leads round) (t, L) c ∧
      chase round newindexLoop kMaxTagLoop (t, L) = newindexLoop c :=
    chase_of_cycle (hcycle.lift (fun t => (t, L)) hlift) kMaxTagLoop
      (hback.lift (fun t => (t, L)) hlift)
  have hstate : c.2 = L := Machine.invariant_of_path (fun p : TValue × State => p.2 = L)
    (fun hp hstep => (newindexRound_state hstep).trans hp) rfl hreach
  exact hc.trans (congrArg (Access.raised _) hstate)

/--
Each of the opcodes answers as the general access does, in the same state, with
the same error, or the same handler and arguments; and the general access gives
up on a cyclic chain.
-/
theorem opcodes_access (site : ErrorSite) (errReg : Option Nat) (a : Addr) (chunk : Chunk)
    (ins : Instruction) (s : Activation) :
    (∀ uv key, chunk.upvals.getD ins.b none = some uv → chunk.constants[ins.c]? = some key →
      getTabUp site chunk ins s errReg =
        metaIndex site errReg s.L (chunk.upvalue s ins.b) key) ∧
    getTable site a ins s =
      metaIndex site (some ins.b) s.L (s.reg a ins.b) (s.reg a ins.c) ∧
    getI site a ins s =
      metaIndex site (some ins.b) s.L (s.reg a ins.b) (.integer (immediate ins.c)) ∧
    getField site a chunk ins s =
      metaIndex site (some ins.b) s.L (s.reg a ins.b) (chunk.constant ins.c) ∧
    opSelf site a ins s =
      metaIndex site (some ins.b) (s.setReg a (ins.a + 1) (s.reg a ins.b)).L (s.reg a ins.b)
        (s.reg a ins.c) ∧
    setTabUp site a chunk ins s errReg =
      metaNewindex site errReg s.L (chunk.upvalue s ins.a) (chunk.constant ins.b)
        (s.reg a ins.c) ∧
    setTable site a ins s =
      metaNewindex site (some ins.a) s.L (s.reg a ins.a) (s.reg a ins.b) (s.reg a ins.c) ∧
    setI site a ins s =
      metaNewindex site (some ins.a) s.L (s.reg a ins.a) (.integer (immediate ins.b))
        (s.reg a ins.c) ∧
    setField site a chunk ins s =
      metaNewindex site (some ins.a) s.L (s.reg a ins.a) (chunk.constant ins.b)
        (s.reg a ins.c) ∧
    (∀ L key t u, Relation.ReflTransGen (Leads L .index key) t u →
      Relation.TransGen (Leads L .index key) u u →
      metaIndex site errReg L t key = .raised "'__index' chain too long; possible loop" L) ∧
    ∀ L key value t u, Relation.ReflTransGen (Leads L .newindex key) t u →
      Relation.TransGen (Leads L .newindex key) u u →
      metaNewindex site errReg L t key value =
        .raised "'__newindex' chain too long; possible loop" L := by
  refine ⟨?_, ?_, ?_, ?_, ?_, ?_, ?_, ?_, ?_, ?_, ?_⟩
  · intro uv key huv hkey
    rw [getTabUp, huv, hkey]
    exact fastGet_eq (fun _ => rfl) _
  · exact fastGet_eq (fun _ => rfl) _
  · exact fastGet_eq (fun tb => tb.getInt_eq_get _) _
  · exact fastGet_eq (fun _ => rfl) _
  · rfl
  · exact fastSet_eq (fun _ => rfl) (fun _ _ => rfl) _
  · exact fastSet_eq (fun _ => rfl) (fun _ _ => rfl) _
  · exact fastSet_eq (fun tb => tb.getInt_eq_get _) (fun _ b => rawSetInt_eq b _ _) _
  · exact fastSet_eq (fun _ => rfl) (fun _ _ => rfl) _
  · exact fun L key t u => metaIndex_of_cycle
  · exact fun L key value t u => metaNewindex_of_cycle

/-- A table whose metatable has the table itself as `__index`. -/
def selfIndexed : State :=
  let name : LjString := ⟨"__index".toUTF8.toList, 0⟩
  let names : InternedStrings := ⟨fun _ => name.data, fun _ => name.hash⟩
  let mt : Table := match ({} : Table).set names 3 (.string 1) (.table 2) with
    | .ok r => r.table
    | .error _ => {}
  { tmNames := [some 1]
    heap := [(1, .string name), (2, .table { metatable := some 3 }), (3, .table mt)] }

theorem selfIndexed_gives_up :
    metaIndex ⟨fun _ _ => "", fun _ msg => msg⟩ none selfIndexed (.table 2) (.integer 5) =
      .raised "'__index' chain too long; possible loop" selfIndexed := by
  have hleads : Leads selfIndexed .index (.integer 5) (.table 2) (.table 2) :=
    ⟨by decide +kernel, by decide +kernel, rfl, rfl⟩
  obtain ⟨-, -, -, -, -, -, -, -, -, hcycle, -⟩ :=
    opcodes_access ⟨fun _ _ => "", fun _ msg => msg⟩ none 0 ⟨[], [], []⟩ ⟨.getTable, 0, 0, 0⟩
      ⟨selfIndexed, {}⟩
  exact hcycle selfIndexed (.integer 5) (.table 2) (.table 2) .refl (.single hleads)

/-! ## The outcome of an instruction -/

variable {raw : Raw}

def outcome {α : Type} (a : Addr) (s : Activation) (found : Activation → α → OpOutcome)
    (called : Activation → OpOutcome) : Access α → OpOutcome
  | .done r L => found (s.withState L) r
  | .raised e L => .raised e L
  | .call mm args nout L => (s.withState L).invokeMm a mm args nout called

def withTables (raw : Raw) (site : ErrorSite) (errReg : Option Nat) : Raw :=
  { raw with
    set := fun tb key value L => L.rawSet tb key value
    message := fun _ t _ L => L.typeerror site errReg t "index" }

@[simp] theorem outcome_withState {α : Type} (found : Activation → α → OpOutcome)
    (called : Activation → OpOutcome) (L : State) (r : Access α) :
    r.outcome a (s.withState L) found called = r.outcome a s found called := by
  cases r <;> rfl

theorem rawGet_of_not_table {t : TValue} (h : t.isTable = false) (key : TValue) :
    L.rawGet t key = .nil := by
  cases t with
  | table b => exact nomatch h
  | _ => rfl

theorem chunk_indexYieldable (op : OpCode) (found : Activation → TValue → OpOutcome)
    (called : Activation → OpOutcome) (key : TValue) (fuel : Nat) : ∀ s t,
    Chunk.indexYieldable (withTables raw site errReg) a op found called fuel s t key =
      (chase (indexRound site errReg (fun L t => L.getMetamethod t .index) key) indexLoop fuel
        (t, s.L)).outcome a s found called := by
  induction fuel with
  | zero => exact fun s t => rfl
  | succ fuel ih =>
      intro s t
      rw [Chunk.indexYieldable, chase]
      simp only [indexRound, ih]
      by_cases hv : (s.L.rawGet t key).isNil = true
      · simp only [hv, Bool.not_true, Bool.false_eq_true, if_false]
        by_cases hnil : (s.L.getMetamethod t .index).1.isNil = true
        · simp only [hnil, if_true]
          by_cases ht : t.isTable = true
          · rw [if_pos ht, if_pos ht]
            rfl
          · rw [if_neg ht, if_neg ht]
            rfl
        · simp only [hnil, Bool.false_eq_true, if_false]
          by_cases hfun : (s.L.getMetamethod t .index).1.isFunction = true
          · simp only [hfun, if_true, ite_self]
            rfl
          · simp only [hfun, Bool.false_eq_true, if_false, ite_self, outcome_withState]
            rfl
      · have ht : t.isTable = true := by
          by_contra ht
          rw [rawGet_of_not_table (Bool.eq_false_iff.mpr ht)] at hv
          exact hv rfl
        simp only [hv, ht, Bool.not_false, if_true]
        rfl

theorem chunk_newindexYieldable (op : OpCode) (called : Activation → OpOutcome)
    (key value : TValue) (fuel : Nat) : ∀ s t,
    Chunk.newindexYieldable (withTables raw site errReg) a op called fuel s t key value =
      (chase (newindexRound site errReg (fun L t => L.getMetamethod t .newindex) key value)
        newindexLoop fuel (t, s.L)).outcome a s (fun s _ => .done s) called := by
  induction fuel with
  | zero => exact fun s t => rfl
  | succ fuel ih =>
      intro s t
      rw [Chunk.newindexYieldable, chase]
      have hstore : ∀ (st : Activation) (b : Addr), st.fr = s.fr →
          Chunk.storeRaw (withTables raw site errReg) op (.table b) key value st =
          (Access.ofResult (st.L.rawSet b key value)).outcome a s (fun s _ => .done s)
            called := by
        intro st b hfr
        have hset : (withTables raw site errReg).set b key value st.L =
            st.L.rawSet b key value := rfl
        simp only [Chunk.storeRaw, hset]
        cases st.L.rawSet b key value with
        | error e L => rfl
        | ok u L =>
            simp only [ofResult, outcome, Activation.withState, hfr]
      cases t with
      | table b =>
          simp only [newindexRound, ih]
          by_cases hcur : (s.L.rawGet (.table b) key).isNil = true
          · simp only [hcur, Bool.not_true, Bool.false_eq_true, if_false]
            by_cases hnil : (s.L.getMetamethod (.table b) .newindex).1.isNil = true
            · simp only [hnil, if_true]
              exact hstore (s.withState _) b rfl
            · simp only [hnil, Bool.false_eq_true, if_false]
              by_cases hfun : (s.L.getMetamethod (.table b) .newindex).1.isFunction = true
              · simp only [hfun, if_true]
                rfl
              · simp only [hfun, Bool.false_eq_true, if_false, outcome_withState]
                rfl
          · simp only [hcur, Bool.not_false, if_true]
            exact hstore s b rfl
      | _ =>
          -- only a table has a value under a key
          have hraw : (!TValue.nil.isNil) = false := rfl
          simp only [newindexRound, ih, State.rawGet, hraw, Bool.false_eq_true, if_false,
            outcome_withState]
          split
          · rfl
          · split
            · rfl
            · rfl

/-- A read writes what it found to `R[A]`. -/
theorem chunk_opGet (t key : TValue) :
    Chunk.opGet (withTables raw site errReg) a chunk ins s t key =
      (indexYieldable site errReg s.L t key).outcome a s
        (fun s v => .done (s.setReg a ins.a v))
        (Chunk.finishInterruptedOp (withTables raw site errReg) a chunk) :=
  chunk_indexYieldable ins.op _ _ key kMaxTagLoop s t

theorem chunk_opSet (op : OpCode) (t key value : TValue) :
    Chunk.opSet (withTables raw site errReg) a chunk op s t key value =
      (newindexYieldable site errReg s.L t key value).outcome a s (fun s _ => .done s)
        (Chunk.finishInterruptedOp (withTables raw site errReg) a chunk) :=
  chunk_newindexYieldable op _ key value kMaxTagLoop s t

theorem chunk_opSelf (t key : TValue) :
    Chunk.opSelf (withTables raw site errReg) a chunk ins s t key =
      (indexYieldable site errReg (s.setReg a (ins.a + 1) t).L t key).outcome a
        (s.setReg a (ins.a + 1) t)
        (fun s m => .done ((s.setReg a (ins.a + 1) t).setReg a ins.a m))
        (Chunk.finishSelf (withTables raw site errReg) a chunk ins t) :=
  chunk_indexYieldable .self _ _ key kMaxTagLoop _ t

end Access

end Luatier
