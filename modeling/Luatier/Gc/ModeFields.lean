import Luatier.Gc.ClearedTable
import Luatier.Gc.IncrementalSafety
import Luatier.Runtime.TableKeys

/-!
# The `__mode` fields of metatables

`update_weak_mode` runs when a metatable is set and caches in the table what
the `__mode` field says then.  The cache is right as long as no table changes
what it says while it is a metatable.
-/

namespace Luatier

open Tricolor

namespace State

variable {L L' : State}

/-! ## What a field says -/

/-- The weak mode that a value denotes under `__mode`. -/
def modeOfValue (L : State) : TValue → UInt8
  | .string s =>
      (if (L.interned.view s).contains 'k'.toUInt8 then 1 else 0) |||
        (if (L.interned.view s).contains 'v'.toUInt8 then 2 else 0)
  | _ => 0

def modeField (L : State) (name : Addr) (t : Table) : TValue :=
  t.get L.interned (.string name)

/-- The name `__mode`, as `init_tm_names` interned it. -/
def modeName (L : State) : Option Addr := L.tmNames.getD TmEvent.mode.ctorIdx none

theorem weakModeOf_eq {name : Addr} (hname : L.modeName = some name)
    (mt : Option Addr) : L.weakModeOf mt =
      (mt.bind L.table?).elim 0 fun t => L.modeOfValue (L.modeField name t) := by
  unfold modeName at hname
  unfold weakModeOf
  rw [hname]
  simp only [Option.some_or]
  cases mt.bind L.table? with
  | none => rfl
  | some t => rfl

/-- Every table has the weak mode that the field of its metatable denotes now. -/
def Coherent (L : State) : Prop :=
  ∀ a t, L.table? a = some t → t.weakMode = L.weakModeOf t.metatable

def InUse (L : State) (m : Addr) : Prop :=
  ∃ a t, L.table? a = some t ∧ t.metatable = some m

def SameMode (L : State) : Action → Prop
  | .set m key value => ∀ name, L.modeName = some name → key = .string name →
      L.InUse m → L.modeOfValue value = L.weakModeOf (some m)
  | _ => True

/--
What a program's own values guarantee: a table starts empty, and a reference
is to an object of its kind.
-/
def Live (L : State) : Action → Prop
  | .create _ obj => ∀ t, obj = .table t →
      ∃ arrayHint hashHint, Table.tableNew arrayHint hashHint = .ok t
  | .set _ key value =>
      (∀ s, key = .string s → (L.string? s).isSome) ∧
        ∀ s, value = .string s → (L.string? s).isSome
  | .setMetatable _ mt => ∀ m, mt = some m → (L.table? m).isSome
  | _ => True

/-- The collector has met every mode that a weak metatable in use could lose. -/
def ModesMarked (L : State) : Prop :=
  ∀ name m t s, L.modeName = some name → L.InUse m → L.table? m = some t →
    t.weakValues = true → L.modeField name t = .string s → L.gc.marks.Marked s

/-! ## Tables whose fields can be read -/

def LiveKey (L : State) (k : TValue) : Prop :=
  ∀ s, k = .string s → (L.string? s).isSome

/-- A table in which the field can be looked up, with the string that it holds. -/
structure Readable (L : State) (name : Addr) (t : Table) : Prop where
  wf : t.Wf L.interned
  keys : t.Keyed L.LiveKey
  field : L.LiveKey (L.modeField name t)

theorem modeOfValue_eq {v : TValue}
    (h : ∀ s, v = .string s → L'.string? s = L.string? s) :
    L'.modeOfValue v = L.modeOfValue v := by
  cases v with
  | string s =>
      simp only [modeOfValue, interned, h s rfl]
      rfl
  | _ => rfl

theorem modeField_eq {name : Addr} {t t' : Table} (harray : t'.array = t.array)
    (hhash : t'.hash = t.hash) (hname : L'.string? name = L.string? name) :
    L'.modeField name t' = L.modeField name t := by
  unfold modeField
  rw [Table.get_congr harray hhash]
  refine Table.get_of_sameHash fun s hs => ?_
  cases hs
  simp only [interned, hname]

theorem Readable.congr {name : Addr} {t t' : Table} (h : L.Readable name t)
    (harray : t'.array = t.array) (hhash : t'.hash = t.hash)
    (hname : L'.string? name = L.string? name)
    (hkeys : t.Keyed fun k => ∀ s, k = .string s → L'.string? s = L.string? s)
    (hfield : ∀ s, L.modeField name t = .string s → L'.string? s = L.string? s) :
    L'.Readable name t' := by
  refine ⟨?_, fun n hn hu s hs => ?_, fun s hs => ?_⟩
  · refine Table.Wf.congr (Table.Wf.of_sameHash h.wf fun n hn hu s hs => ?_) harray hhash
    simp only [interned, hkeys n hn hu s hs]
  · rw [hhash] at hn
    rw [hkeys n hn hu s hs]
    exact h.keys n hn hu s hs
  · rw [modeField_eq harray hhash hname] at hs
    rw [hfield s hs]
    exact h.field s hs

theorem readable_of_tableNew {arrayHint hashHint : Nat} {t : Table} (name : Addr)
    (h : Table.tableNew arrayHint hashHint = .ok t) :
    L.Readable name t ∧ t.metatable = none ∧ t.weakMode = 0 := by
  have hrep := Table.tableNew_represents (L := L.interned) h
  unfold Table.tableNew at h
  generalize (if hashHint = 0 then 8 else Table.doubleUntil hashHint hashHint 1) = n at h
  simp only at h
  split at h
  · contradiction
  obtain rfl := Except.ok.inj h
  refine ⟨⟨hrep.wf, .fresh rfl, fun s hs => ?_⟩, rfl, rfl⟩
  have hnil := hrep.get_eq (k := .string name) ⟨by simp, rfl⟩
  unfold modeField at hs
  rw [hnil] at hs
  contradiction

/-! ## States whose weak modes are right -/

structure SameTable (t t' : Table) : Prop where
  array : t'.array = t.array
  hash : t'.hash = t.hash
  metatable : t'.metatable = t.metatable
  weakMode : t'.weakMode = t.weakMode

/-- Every table has the mode of its metatable, whose field can be read. -/
structure ModesKept (L : State) (name : Addr) : Prop where
  named : L.modeName = some name
  allocated : (L.string? name).isSome
  readable : ∀ a t, L.table? a = some t → L.Readable name t
  metatable : ∀ a t m, L.table? a = some t → t.metatable = some m → (L.table? m).isSome
  coherent : L.Coherent

variable {name : Addr}

theorem ModesKept.weakModeOf_some (h : L.ModesKept name) {m : Addr} {t : Table}
    (ht : L.table? m = some t) :
    L.weakModeOf (some m) = L.modeOfValue (L.modeField name t) := by
  simp [weakModeOf_eq h.named, ht]

theorem ModesKept.weakModeOf_congr (h : L.ModesKept name) (hname : L'.modeName = some name)
    {mt : Option Addr}
    (hmt : ∀ m, mt = some m → ∃ t t', L.table? m = some t ∧ L'.table? m = some t' ∧
      L'.modeOfValue (L'.modeField name t') = L.modeOfValue (L.modeField name t)) :
    L'.weakModeOf mt = L.weakModeOf mt := by
  rw [weakModeOf_eq h.named, weakModeOf_eq hname]
  cases mt with
  | none => rfl
  | some m =>
      obtain ⟨t, t', ht, ht', heq⟩ := hmt m rfl
      simpa [ht, ht'] using heq

/-- New objects, and old ones with the strings and the tables that there were. -/
structure Grown (L L' : State) : Prop where
  modeName : L'.modeName = L.modeName
  strings : ∀ s, (L.string? s).isSome → L'.string? s = L.string? s
  kept : ∀ a t, L.table? a = some t → ∃ t', L'.table? a = some t' ∧ SameTable t t'
  tables : ∀ a t', L'.table? a = some t' →
    (∃ t, L.table? a = some t ∧ SameTable t t') ∨
      ∃ arrayHint hashHint, Table.tableNew arrayHint hashHint = .ok t'

theorem ModesKept.grown (h : L.ModesKept name) (hL : Grown L L') : L'.ModesKept name := by
  have hname : L'.modeName = some name := hL.modeName.trans h.named
  have hstring : L'.string? name = L.string? name := hL.strings name h.allocated
  have hmt : ∀ a t, L.table? a = some t → L'.weakModeOf t.metatable =
      L.weakModeOf t.metatable := by
    intro a t ht
    refine h.weakModeOf_congr hname fun m hm => ?_
    obtain ⟨u, hu⟩ := Option.isSome_iff_exists.mp (h.metatable a t m ht hm)
    obtain ⟨u', hu', hsame⟩ := hL.kept m u hu
    refine ⟨u, u', hu, hu', ?_⟩
    rw [modeField_eq hsame.array hsame.hash hstring]
    exact modeOfValue_eq fun s hs => hL.strings s ((h.readable m u hu).field s hs)
  refine ⟨hname, hstring ▸ h.allocated, fun a t' ht' => ?_, fun a t' m ht' hm => ?_,
    fun a t' ht' => ?_⟩
  · rcases hL.tables a t' ht' with ⟨t, ht, hsame⟩ | ⟨arrayHint, hashHint, hnew⟩
    · have hread := h.readable a t ht
      exact hread.congr hsame.array hsame.hash hstring
        (fun n hn hu s hs => hL.strings s (hread.keys n hn hu s hs))
        (fun s hs => hL.strings s (hread.field s hs))
    · exact (readable_of_tableNew name hnew).1
  · rcases hL.tables a t' ht' with ⟨t, ht, hsame⟩ | ⟨arrayHint, hashHint, hnew⟩
    · rw [hsame.metatable] at hm
      obtain ⟨u, hu⟩ := Option.isSome_iff_exists.mp (h.metatable a t m ht hm)
      obtain ⟨u', hu', -⟩ := hL.kept m u hu
      simp [hu']
    · rw [(readable_of_tableNew (L := L) name hnew).2.1] at hm
      contradiction
  · rcases hL.tables a t' ht' with ⟨t, ht, hsame⟩ | ⟨arrayHint, hashHint, hnew⟩
    · rw [hsame.weakMode, hsame.metatable, hmt a t ht]
      exact h.coherent a t ht
    · obtain ⟨-, hnone, hzero⟩ := readable_of_tableNew (L := L) name hnew
      rw [hnone, hzero, weakModeOf_eq hname]
      rfl

theorem SameTable.of_optFlags {t t' : Table}
    (h : ({ t' with optFlags := 0 } : Table) = { t with optFlags := 0 }) :
    SameTable t t' := by
  simp only [Table.mk.injEq] at h
  exact ⟨h.1, h.2.1, h.2.2.1, h.2.2.2.2.2⟩

theorem Unswept.kept (h : Unswept L L') {a : Addr} {t : Table} (ht : L.table? a = some t) :
    ∃ t', L'.table? a = some t' ∧ SameTable t t' := by
  have htable := h.table? a
  rw [ht, Option.map_some, Option.map_eq_some_iff] at htable
  obtain ⟨t', ht', heq⟩ := htable
  exact ⟨t', ht', .of_optFlags heq⟩

theorem Unswept.before (h : Unswept L L') {a : Addr} {t' : Table}
    (ht' : L'.table? a = some t') : ∃ t, L.table? a = some t ∧ SameTable t t' := by
  have htable := h.table? a
  rw [ht', Option.map_some, eq_comm, Option.map_eq_some_iff] at htable
  obtain ⟨t, ht, heq⟩ := htable
  exact ⟨t, ht, .of_optFlags heq.symm⟩

theorem Unswept.grown (h : Unswept L L') : Grown L L' :=
  ⟨by simp only [modeName, h.tmNames], fun s _ => congrFun h.string? s,
    fun _ _ ht => h.kept ht, fun _ _ ht' => Or.inl (h.before ht')⟩

theorem ModesKept.unswept (h : L.ModesKept name) (hL : Unswept L L') :
    L'.ModesKept name := h.grown hL.grown

theorem link_grown {a : Addr} (ha : L.fresh a = true) (obj : Object)
    (hobj : ∀ t, obj = .table t →
      ∃ arrayHint hashHint, Table.tableNew arrayHint hashHint = .ok t) :
    Grown L (L.link a obj) := by
  simp only [fresh, Bool.and_eq_true, Bool.not_eq_true'] at ha
  have hnew : L.object? a = none := by
    have := ha.1
    simpa [Heap.allocated, State.object?] using this
  have hobject : ∀ b, (L.link a obj).object? b =
      if b = a then some obj else L.object? b := by
    intro b
    by_cases hb : b = a
    · subst hb
      simp [State.link, State.object?, Heap.object?]
    · have hne : (b == a) = false := by simpa using hb
      simp only [State.link, State.object?, Heap.object?, List.lookup_cons, hne, hb,
        if_false]
  have hstill : ∀ {b o}, L.object? b = some o → (L.link a obj).object? b = some o := by
    intro b o ho
    rw [hobject, if_neg]
    · exact ho
    · rintro rfl
      rw [hnew] at ho
      contradiction
  refine ⟨rfl, fun s hs => ?_, fun b t ht => ?_, fun b t' ht' => ?_⟩
  · obtain ⟨x, hx⟩ := Option.isSome_iff_exists.mp hs
    have ho : L.object? s = some (.string x) := by
      unfold string? at hx
      cases ho : L.object? s with
      | none => simp [ho] at hx
      | some o => cases o <;> simp_all
    simp only [string?, hstill ho, ho]
  · exact ⟨t, table?_eq_some.mpr (hstill (table?_eq_some.mp ht)), rfl, rfl, rfl, rfl⟩
  · have ho := table?_eq_some.mp ht'
    rw [hobject] at ho
    split at ho
    · exact Or.inr (hobj t' (Option.some.inj ho))
    · exact Or.inl ⟨t', table?_eq_some.mpr ho, rfl, rfl, rfl, rfl⟩

theorem ModesKept.replace (h : L.ModesKept name) (a : Addr) (t' : Table)
    (hname : L'.modeName = L.modeName) (hstring : L'.string? = L.string?)
    (htables : ∀ b, L'.table? b = (L.table? b).map fun u => if b = a then t' else u)
    (hread : L.Readable name t')
    (hmeta : ∀ m, t'.metatable = some m → (L.table? m).isSome)
    (hmode : t'.weakMode = L.weakModeOf t'.metatable)
    (hsame : L.InUse a ∨ t'.metatable = some a →
      L.modeOfValue (L.modeField name t') = L.weakModeOf (some a)) :
    L'.ModesKept name := by
  have hstrings : ∀ s, L'.string? s = L.string? s := congrFun hstring
  have hcases : ∀ {b u'}, L'.table? b = some u' →
      (b = a ∧ u' = t') ∨ b ≠ a ∧ L.table? b = some u' := by
    intro b u' hu'
    rw [htables] at hu'
    obtain ⟨u, hu, hif⟩ := Option.map_eq_some_iff.mp hu'
    by_cases hb : b = a
    · rw [if_pos hb] at hif
      exact Or.inl ⟨hb, hif.symm⟩
    · rw [if_neg hb] at hif
      exact Or.inr ⟨hb, hif ▸ hu⟩
  have hsome : ∀ m, (L.table? m).isSome → (L'.table? m).isSome := by
    intro m hm
    rw [htables, Option.isSome_map]
    exact hm
  have hfield : ∀ u : Table, L'.modeOfValue (L'.modeField name u) =
      L.modeOfValue (L.modeField name u) := by
    intro u
    rw [modeField_eq rfl rfl (hstrings name)]
    exact modeOfValue_eq fun s _ => hstrings s
  have hmt : ∀ mt : Option Addr, (∀ m, mt = some m → (L.table? m).isSome ∧
      (m = a → L.InUse a ∨ t'.metatable = some a)) →
      L'.weakModeOf mt = L.weakModeOf mt := by
    intro mt hmt
    refine h.weakModeOf_congr (hname.trans h.named) fun m hm => ?_
    obtain ⟨htable, huse⟩ := hmt m hm
    obtain ⟨u, hu⟩ := Option.isSome_iff_exists.mp htable
    refine ⟨u, if m = a then t' else u, hu, by rw [htables, hu]; rfl, ?_⟩
    rw [hfield]
    split
    · rename_i hma
      rw [hsame (huse hma), ← hma]
      exact h.weakModeOf_some hu
    · rfl
  refine ⟨hname.trans h.named, hstring ▸ h.allocated, fun b u' hu' => ?_,
    fun b u' m hu' hm => ?_, fun b u' hu' => ?_⟩
  · have hthis : L.Readable name u' := by
      rcases hcases hu' with ⟨-, rfl⟩ | ⟨-, hu⟩
      · exact hread
      · exact h.readable b u' hu
    exact hthis.congr rfl rfl (hstrings name) (fun _ _ _ s _ => hstrings s)
      (fun s _ => hstrings s)
  · rcases hcases hu' with ⟨-, rfl⟩ | ⟨-, hu⟩
    · exact hsome m (hmeta m hm)
    · exact hsome m (h.metatable b u' m hu hm)
  · rcases hcases hu' with ⟨-, rfl⟩ | ⟨-, hu⟩
    · rw [hmt u'.metatable fun m hm => ⟨hmeta m hm, fun hma => Or.inr (hma ▸ hm)⟩]
      exact hmode
    · rw [hmt u'.metatable fun m hm =>
        ⟨h.metatable b u' m hu hm, fun hma => Or.inl ⟨b, u', hu, hma ▸ hm⟩⟩]
      exact h.coherent b u' hu

/-! ## The actions of the program -/

theorem barriers_unswept (L : State) (a : Addr) (values : List TValue) :
    Unswept L (L.barriers a values) := by
  rw [barriers_eq]
  split
  · exact .of_heap rfl rfl rfl
  · exact .refl L

theorem canonKey_eq_string {k : TValue} {s : Addr} :
    Table.canonKey k = .string s ↔ k = .string s := by
  unfold Table.canonKey
  cases hk : Table.keyAsInteger k with
  | none => simp
  | some i =>
      simp only [Option.map_some, Option.getD_some, reduceCtorEq, false_iff]
      rintro rfl
      simp [Table.keyAsInteger] at hk

theorem modeField_store {t : Table} {key value : TValue} {r : Stored}
    (h : Table.StoreOk L.interned t key value r) (name : Addr) :
    L.modeField name r.table = if key = .string name then value else L.modeField name t := by
  have hget := h.get_eq (.string name) ⟨by simp, rfl⟩
  simp only [canonKey_eq_string.mpr rfl, eq_comm (a := TValue.string name),
    canonKey_eq_string] at hget
  exact hget

theorem ModesKept.store (h : L.ModesKept name) {a : Addr} {t : Table}
    (ht : L.table? a = some t) {key value : TValue} {r : Stored}
    (hok : Table.StoreOk L.interned t key value r) (hb : r.Barriered t)
    (hkeys : r.table.Keyed L.LiveKey) (hvalue : key = .string name → L.LiveKey value)
    (hsame : key = .string name → L.InUse a → L.modeOfValue value = L.weakModeOf (some a)) :
    (L.storeTable a (.ok r)).ModesKept name := by
  have hfield := modeField_store hok name
  have hread : L.Readable name r.table := by
    refine ⟨hok.wf, hkeys, ?_⟩
    rw [hfield]
    split
    · rename_i hkey
      exact hvalue hkey
    · exact (h.readable a t ht).field
  have hupdated : (L.updateTable a fun _ => r.table).ModesKept name := by
    refine h.replace a r.table rfl ?_ (fun b => ?_) hread (fun m hm => ?_) ?_ ?_
    · have hinterned := L.interned_updateTable a fun _ => r.table
      funext b
      simp only [string?, object?_updateTable]
      by_cases hb : b = a
      · subst hb
        simp [table?_eq_some.mp ht, Object.mapTable]
      · simp [hb]
    · exact L.table?_updateTable a b fun _ => r.table
    · exact h.metatable a t m ht (hb.metatable ▸ hm)
    · rw [hb.weakMode, hb.metatable]
      exact h.coherent a t ht
    · intro huse
      have huse' : L.InUse a := by
        rcases huse with huse | hself
        · exact huse
        · exact ⟨a, t, ht, hb.metatable ▸ hself⟩
      rw [hfield]
      split
      · rename_i hkey
        exact hsame hkey huse'
      · exact (h.weakModeOf_some ht).symm
  exact hupdated.unswept (barriers_unswept _ a r.barriers)

theorem integer_liveKey (L : State) (i : Int64) : L.LiveKey (.integer i) := nofun

theorem ModesKept.act (h : L.ModesKept name) {x : Action} (hlive : L.Live x)
    (hsame : L.SameMode x) (hx : L.act x = some L') : L'.ModesKept name := by
  have hcell : ∀ {a : Addr} {o : Object} {f : Object → Object} (values : List TValue),
      L.object? a = some o → (f o).lasting = o.lasting →
      ((L.updateCell a f).barriers a values).ModesKept name := by
    intro a o f values ho hf
    have hcell : Unswept L (L.updateCell a f) := .updateCell fun o' ho' => by
      obtain rfl := Option.some.inj (ho.symm.trans ho')
      exact hf
    exact h.unswept (hcell.trans (barriers_unswept _ a values))
  cases x with
  | create a obj =>
      simp only [State.act, Option.ite_none_right_eq_some] at hx
      obtain rfl := Option.some.inj hx.2
      exact h.grown (link_grown hx.1 obj hlive)
  | intern a s =>
      simp only [State.act, Option.ite_none_right_eq_some] at hx
      obtain rfl := Option.some.inj hx.2
      have hlink := h.grown (link_grown hx.1 (.string s) (fun _ h => by cases h))
      exact hlink.unswept (.of_heap rfl rfl rfl)
  | set a key value =>
      obtain ⟨t, ht, rfl⟩ := Option.map_eq_some_iff.mp hx
      cases hset : t.set L.interned 3 key value with
      | error e => exact h
      | ok r =>
          have hread := h.readable a t ht
          obtain ⟨r', hr', hok⟩ := Table.set_ok hread.wf (Table.validKey_of_set hset) value
            (Nat.le_refl 3)
          obtain rfl : r' = r := Except.ok.inj (hr'.symm.trans hset)
          exact h.store ht hok (Table.set_barriered hset)
            (Table.set_keyed L.integer_liveKey hread.keys hlive.1 hset)
            (fun _ => hlive.2) (hsame name h.named)
  | setInt a i value =>
      obtain ⟨t, ht, rfl⟩ := Option.map_eq_some_iff.mp hx
      cases hset : t.setInt L.interned 4 i value with
      | error e => exact h
      | ok r =>
          have hread := h.readable a t ht
          obtain ⟨r', hr', hok⟩ := Table.setInt_ok hread.wf i value (Nat.le_refl 4)
          obtain rfl : r' = r := Except.ok.inj (hr'.symm.trans hset)
          exact h.store ht hok (Table.setInt_barriered hset)
            (Table.setInt_keyed L.integer_liveKey hread.keys hset)
            (fun hkey => by cases hkey) (fun hkey => by cases hkey)
  | setMetatable a mt =>
      obtain ⟨t, ht, rfl⟩ := Option.map_eq_some_iff.mp hx
      have hread := h.readable a t ht
      have hupdated : (L.updateTable a fun t =>
          { t with metatable := mt, weakMode := L.weakModeOf mt }).ModesKept name := by
        refine h.replace a { t with metatable := mt, weakMode := L.weakModeOf mt }
          rfl ?_ (fun b => ?_) ?_ hlive rfl fun _ => ?_
        · funext b
          simp only [string?, object?_updateTable]
          by_cases hb : b = a
          · subst hb
            simp [table?_eq_some.mp ht, Object.mapTable]
          · simp [hb]
        · rw [table?_updateTable]
          by_cases hb : b = a
          · subst hb
            simp [ht]
          · simp [hb]
        · exact hread.congr rfl rfl rfl (fun _ _ _ _ _ => rfl) (fun _ _ => rfl)
        · exact (h.weakModeOf_some ht).symm
      exact hupdated.unswept (barriers_unswept _ a (tableOf mt))
  | setUserdataMetatable a mt =>
      obtain ⟨u, hu, rfl⟩ := Option.map_eq_some_iff.mp hx
      exact hcell _ (userdata?_eq_some.mp hu) rfl
  | setUservalue a uv =>
      obtain ⟨u, hu, rfl⟩ := Option.map_eq_some_iff.mp hx
      exact hcell _ (userdata?_eq_some.mp hu) rfl
  | setUpval a v =>
      obtain ⟨uv, huv, rfl⟩ := Option.map_eq_some_iff.mp hx
      have ho := upval?_eq_some.mp huv
      unfold upvalSet
      split
      · cases uv.thread with
        | none => exact h.unswept (barriers_unswept L a [v])
        | some b =>
            refine h.unswept (.trans (.updateCell fun o _ => ?_) (barriers_unswept _ a [v]))
            cases o <;> rfl
      · exact hcell [v] ho rfl
  | closeUpval a =>
      obtain ⟨uv, huv, rfl⟩ := Option.map_eq_some_iff.mp hx
      unfold upvalClose
      split
      · exact hcell _ (upval?_eq_some.mp huv) rfl
      · exact h
  | setThread a th =>
      obtain ⟨old, hold, rfl⟩ := Option.map_eq_some_iff.mp hx
      exact hcell [] (thread?_eq_some.mp hold) rfl
  | setTypeMt i mt =>
      obtain rfl := Option.some.inj hx
      exact h.unswept (.of_heap rfl rfl rfl)
  | resume a =>
      obtain ⟨th, -, rfl⟩ := Option.map_eq_some_iff.mp hx
      exact h.unswept (.of_heap rfl rfl rfl)
  | cacheClosure a cl =>
      obtain ⟨p, hp, rfl⟩ := Option.map_eq_some_iff.mp hx
      exact hcell [] (proto?_eq_some.mp hp) rfl

/-- A store keeps the weak modes right only if it leaves what the metatable says. -/
theorem ModesKept.set_coherent_iff (h : L.ModesKept name) {m : Addr} {key value : TValue}
    (hlive : L.Live (.set m key value)) (hx : L.act (.set m key value) = some L') :
    L'.Coherent ↔ L.SameMode (.set m key value) := by
  refine ⟨fun hcoherent name' hname' hkey ⟨a, t, ht, hm⟩ => ?_,
    fun hsame => (h.act hlive hsame hx).coherent⟩
  obtain rfl : name = name' := Option.some.inj (h.named.symm.trans hname')
  obtain ⟨tm, htm, rfl⟩ := Option.map_eq_some_iff.mp hx
  have hread := h.readable m tm htm
  obtain ⟨r, hset, hok⟩ := Table.set_ok hread.wf
    (by rw [hkey]; exact ⟨by simp, rfl⟩ : Table.ValidKey key) value (Nat.le_refl 3)
  rw [hset] at hcoherent
  have hstate := barriers_unswept (L.updateTable m fun _ => r.table) m r.barriers
  have hstring : (L.storeTable m (.ok r)).string? = L.string? := by
    refine hstate.string?.trans ?_
    funext b
    simp only [string?, object?_updateTable]
    by_cases hb : b = m
    · subst hb
      simp [table?_eq_some.mp htm, Object.mapTable]
    · simp [hb]
  -- what the metatable says now
  obtain ⟨tm', htm', hsame⟩ := hstate.kept (a := m) (t := r.table) (by
    rw [table?_updateTable, htm]
    simp)
  have hnow : (L.storeTable m (.ok r)).weakModeOf (some m) = L.modeOfValue value := by
    have hnamed : (L.storeTable m (.ok r)).modeName = some name := by
      have hnames : (L.storeTable m (.ok r)).tmNames = L.tmNames := hstate.tmNames
      rw [modeName, hnames]
      exact h.named
    rw [weakModeOf_eq hnamed]
    change ((L.storeTable m (.ok r)).table? m).elim 0 _ = _
    rw [show (L.storeTable m (.ok r)).table? m = some tm' from htm', Option.elim_some,
      modeField_eq hsame.array hsame.hash (congrFun hstring name),
      modeOfValue_eq fun s _ => congrFun hstring s, modeField_store hok, if_pos hkey]
  -- and what the table with that metatable cached
  obtain ⟨t', ht', hmeta, hmode⟩ : ∃ t', (L.storeTable m (.ok r)).table? a = some t' ∧
      t'.metatable = some m ∧ t'.weakMode = t.weakMode := by
    have hb := Table.set_barriered hset
    by_cases ha : a = m
    · subst ha
      obtain rfl := Option.some.inj (ht.symm.trans htm)
      exact ⟨tm', htm', hsame.metatable.trans (hb.metatable.trans hm),
        hsame.weakMode.trans hb.weakMode⟩
    · obtain ⟨t', ht', hsame'⟩ := hstate.kept (a := a) (t := t) (by
        rw [table?_updateTable, ht]
        simp [ha])
      exact ⟨t', ht', hsame'.metatable.trans hm, hsame'.weakMode⟩
  rw [← hnow, ← hm, ← h.coherent a t ht, hm, ← hmeta, ← hcoherent a t' ht']
  exact hmode

end State

end Luatier
