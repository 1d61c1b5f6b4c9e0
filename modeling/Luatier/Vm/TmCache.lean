import Luatier.Gc.ClearedTable
import Luatier.Lib.StateFrame
import Luatier.Vm.Meta

/-!
# The cache of absent metamethods

A set bit of `opt_flags` says that the metatable has no metamethod for the
event.  Only a store under a name that begins with two underscores can make
that wrong, and such a store drops the whole cache.
-/

namespace Luatier

/-- The names that `init_tm_names` interns, in the order of the events. -/
def kNames : List String :=
  ["__index", "__newindex", "__gc", "__mode", "__len", "__eq", "__add", "__sub", "__mul",
    "__mod", "__pow", "__div", "__idiv", "__band", "__bor", "__bxor", "__shl", "__shr",
    "__unm", "__bnot", "__lt", "__le", "__concat", "__call"]

def TmEvent.name (e : TmEvent) : String := kNames.getD e.ctorIdx ""

namespace Table

variable {L : InternedStrings} {t : Table}

/-! ## The bits -/

theorem tmBit_and_of_ne {e e' : TmEvent} (h : e ≠ e') : tmBit e &&& tmBit e' = 0 := by
  cases e <;> cases e' <;> first | exact absurd rfl h | decide

theorem noTm_markNoTm {e e' : TmEvent} (h : (t.markNoTm e).noTm e' = true) :
    e = e' ∨ t.noTm e' = true := by
  by_cases he : e = e'
  · exact Or.inl he
  · right
    have hand : (t.optFlags ||| tmBit e) &&& tmBit e' = t.optFlags &&& tmBit e' := by
      have hdistrib : (t.optFlags ||| tmBit e) &&& tmBit e' =
          (t.optFlags &&& tmBit e') ||| (tmBit e &&& tmBit e') := by
        simp only [← UInt32.toBitVec_inj, UInt32.toBitVec_and, UInt32.toBitVec_or,
          BitVec.and_or_distrib_right]
      rw [hdistrib, tmBit_and_of_ne he, UInt32.or_zero]
    simpa only [noTm, markNoTm, hand] using h

theorem noTm_of_flags_zero (h : t.optFlags = 0) (e : TmEvent) : t.noTm e = false := by
  simp only [noTm, h, UInt32.zero_and]
  rfl

/-! ## Stores and the flags -/

theorem rawInsert_flags {r r' : Stored} {key value : TValue}
    (h : rawInsert L r key value = .ok r') : r'.table.optFlags = r.table.optFlags := by
  unfold rawInsert at h
  simp only at h
  split at h
  · cases h
    rfl
  · split at h
    · cases h
      rfl
    · split at h
      · cases h
        rfl
      · cases h
        rfl
      · exact nomatch h

theorem reinsertArray_flags (rest : List TValue) : ∀ {r r' : Stored} {i : Nat},
    reinsertArray L r i rest = .ok r' → r'.table.optFlags = r.table.optFlags := by
  induction rest with
  | nil =>
      intro r r' i h
      cases h
      rfl
  | cons v rest ih =>
      intro r r' i h
      rw [reinsertArray] at h
      split at h
      · exact ih h
      · obtain ⟨r₁, h₁, hrest⟩ := StateFrame.except_bind_ok.mp h
        rw [ih hrest, rawInsert_flags h₁]

theorem reinsertHash_flags (nodes : List TableNode) : ∀ {r r' : Stored},
    reinsertHash L r nodes = .ok r' → r'.table.optFlags = r.table.optFlags := by
  induction nodes with
  | nil =>
      intro r r' h
      cases h
      rfl
  | cons n nodes ih =>
      intro r r' h
      rw [reinsertHash] at h
      split at h
      · obtain ⟨r₁, h₁, hrest⟩ := StateFrame.except_bind_ok.mp h
        rw [ih hrest, rawInsert_flags h₁]
      · exact ih h

theorem rehash_flags {arrayHint hashHint : Nat} {r : Stored}
    (h : rehash L t arrayHint hashHint = .ok r) : r.table.optFlags = t.optFlags := by
  obtain ⟨r₁, h₁, h₂⟩ := StateFrame.except_bind_ok.mp h
  rw [reinsertHash_flags _ h₂, reinsertArray_flags _ h₁]

theorem setArray?_flags {i : Int64} {value : TValue} {r : Stored}
    (h : t.setArray? i value = some r) : r.table.optFlags = t.optFlags := by
  unfold setArray? at h
  split at h
  · cases h
    rfl
  · split at h
    · cases h
      rfl
    · exact nomatch h

theorem setHash?_flags {lookup value : TValue} {r : Stored}
    (h : t.setHash? L lookup value = some r) : r.table.optFlags = t.optFlags := by
  unfold setHash? at h
  split at h
  · split at h
    · cases h
      rfl
    · cases h
      rfl
  · cases h
    rfl
  · split at h
    · cases h
      rfl
    · obtain ⟨slot, -, rfl⟩ := Option.map_eq_some_iff.mp h
      rfl

def storedFlags (L : InternedStrings) (key : TValue) (flags : UInt32) : UInt32 :=
  if metamethodLike L key then 0 else flags

theorem storedFlags_idem (key : TValue) (flags : UInt32) :
    storedFlags L key (storedFlags L key flags) = storedFlags L key flags := by
  unfold storedFlags
  split <;> rfl

theorem set_setInt_flags (fuel : Nat) :
    (∀ (t : Table) (key value : TValue) (r : Stored), set L fuel t key value = .ok r →
      r.table.optFlags = storedFlags L key t.optFlags) ∧
    ∀ (t : Table) (i : Int64) (value : TValue) (r : Stored),
      setInt L fuel t i value = .ok r → r.table.optFlags = t.optFlags := by
  induction fuel with
  | zero =>
      constructor
      · intro t key value r h
        simp only [set, reduceCtorEq] at h
      · intro t i value r h
        simp only [setInt, reduceCtorEq] at h
  | succ fuel ih =>
      obtain ⟨ihset, ihsetInt⟩ := ih
      constructor
      · intro t key value r h
        rw [set] at h
        split at h
        · cases h
        split at h
        · cases h
        simp only at h
        generalize ht₁ : (if metamethodLike L key = true then t.clearTmCache else t) = t₁ at h
        have hflags : t₁.optFlags = storedFlags L key t.optFlags := by
          rw [← ht₁, storedFlags]
          split <;> rfl
        rw [← hflags]
        split at h
        · exact ihsetInt _ _ _ _ h
        split at h
        · cases h
          rfl
        generalize ht₂ : (if t₁.hash.isEmpty = true then
          { t₁ with hash := List.replicate 8 {} } else t₁) = t₂ at h
        have hflags₂ : t₂.optFlags = t₁.optFlags := by
          rw [← ht₂]
          split <;> rfl
        split at h
        · rename_i r' hr'
          cases h
          rw [setHash?_flags hr', hflags₂]
        · obtain ⟨r₁, hre, h⟩ := StateFrame.except_bind_ok.mp h
          obtain ⟨r₂, hset, h⟩ := StateFrame.except_bind_ok.mp h
          cases h
          show r₂.table.optFlags = _
          rw [ihset _ _ _ _ hset, rehash_flags hre, hflags₂, hflags, storedFlags_idem]
      · intro t i value r h
        rw [setInt] at h
        split at h
        · rename_i r' hr'
          cases h
          exact setArray?_flags hr'
        · exact ihset _ _ _ _ h

/-! ## Lookups -/

/-- The interned names of the events, by content. -/
def TmNames (L : InternedStrings) (names : TmEvent → Addr) : Prop :=
  ∀ e, L.view (names e) = e.name.toUTF8.toList

theorem TmNames.metamethodLike {names : TmEvent → Addr} (h : TmNames L names) (e : TmEvent) :
    metamethodLike L (.string (names e)) = true := by
  have hname : ∀ e : TmEvent, [95, 95].isPrefixOf e.name.toUTF8.toList = true := by
    intro e
    cases e <;> decide +kernel
  rw [Table.metamethodLike, h e]
  exact hname e

/-- `get_tm` of a metatable. -/
def getTm (L : InternedStrings) (names : TmEvent → Addr) (t : Table) (e : TmEvent) :
    TValue × Table :=
  if t.noTm e then (.nil, t)
  else
    let tm := t.get L (.string (names e))
    if tm.isNil then (.nil, t.markNoTm e) else (tm, t)

/-- What happens to a table that serves as a metatable. -/
inductive MetatableStep (L : InternedStrings) (names : TmEvent → Addr) :
    Table → Table → Prop
  | set {t : Table} {key value : TValue} {r : Stored} :
      Table.set L 3 t key value = .ok r → MetatableStep L names t r.table
  | setInt {t : Table} {i : Int64} {value : TValue} {r : Stored} :
      Table.setInt L 4 t i value = .ok r → MetatableStep L names t r.table
  | rehash {t : Table} {hashHint : Nat} {r : Stored} :
      Table.rehash L t t.array.length hashHint = .ok r → MetatableStep L names t r.table
  | clearWeakEntries {t : Table} (dead : TValue → Bool) (mask : UInt8) :
      MetatableStep L names t (t.clearWeakEntries dead mask)
  | setMetatable {t : Table} (metatable : Option Addr) (weakMode : UInt8) :
      MetatableStep L names t { t with metatable, weakMode }
  | getTm {t : Table} (e : TmEvent) : MetatableStep L names t (t.getTm L names e).2

structure CacheCoherent (L : InternedStrings) (names : TmEvent → Addr) (t : Table) : Prop where
  wf : t.Wf L
  absent : ∀ e, t.noTm e = true → t.get L (.string (names e)) = .nil

theorem validKey_string (s : Addr) : ValidKey (.string s) :=
  ⟨fun h => (nomatch h), rfl⟩

variable {names : TmEvent → Addr}

theorem CacheCoherent.congr (h : CacheCoherent L names t) {t' : Table}
    (harray : t'.array = t.array) (hhash : t'.hash = t.hash)
    (hflags : t'.optFlags = t.optFlags) : CacheCoherent L names t' := by
  refine ⟨h.wf.congr harray hhash, fun e he => ?_⟩
  rw [get_congr harray hhash]
  exact h.absent e (by rwa [noTm, ← hflags])

theorem CacheCoherent.getTm (h : CacheCoherent L names t) (e : TmEvent) :
    CacheCoherent L names (t.getTm L names e).2 := by
  unfold Table.getTm
  split
  · exact h
  simp only
  split
  · rename_i hnil
    refine ⟨h.wf.congr rfl rfl, fun e' he' => ?_⟩
    show t.get L (.string (names e')) = .nil
    rcases noTm_markNoTm he' with rfl | hold
    · exact TValue.isNil_iff.mp hnil
    · exact h.absent e' hold
  · exact h

theorem CacheCoherent.set (h : CacheCoherent L names t) (hnames : TmNames L names)
    {key value : TValue} {r : Stored} (hr : Table.set L 3 t key value = .ok r) :
    CacheCoherent L names r.table := by
  obtain ⟨r', hr', hok⟩ := set_ok h.wf (validKey_of_set hr) value (Nat.le_refl 3)
  obtain rfl : r' = r := Except.ok.inj (hr'.symm.trans hr)
  refine ⟨hok.wf, fun e he => ?_⟩
  have hflags := (set_setInt_flags 3).1 t key value r' hr
  have hother : metamethodLike L key = false := by
    by_contra hlike
    rw [storedFlags, if_pos (Bool.eq_true_of_not_eq_false hlike)] at hflags
    rw [noTm_of_flags_zero hflags e] at he
    exact nomatch he
  rw [storedFlags, hother, if_neg Bool.false_ne_true] at hflags
  rw [hok.get_eq _ (validKey_string _)]
  split
  · rename_i hsame
    -- both are the same string, which begins with two underscores
    have hkey : key = .string (names e) := by
      cases hi : keyAsInteger key with
      | none => rw [canonKey_eq_of_keyAsInteger_none hi] at hsame; exact hsame.symm
      | some n => rw [canonKey_eq_of_keyAsInteger_some hi] at hsame; exact nomatch hsame
    rw [hkey, hnames.metamethodLike e] at hother
    exact nomatch hother
  · exact h.absent e (by rwa [noTm, ← hflags])

theorem CacheCoherent.step (hnames : TmNames L names) {t' : Table}
    (h : CacheCoherent L names t) (hstep : MetatableStep L names t t') :
    CacheCoherent L names t' := by
  cases hstep with
  | set hr => exact h.set hnames hr
  | setInt hr =>
      rename_i i value r
      obtain ⟨r', hr', hok⟩ := setInt_ok h.wf i value (Nat.le_refl 4)
      obtain rfl : r' = r := Except.ok.inj (hr'.symm.trans hr)
      refine ⟨hok.wf, fun e he => ?_⟩
      rw [hok.get_eq _ (validKey_string _), if_neg (fun h => nomatch h)]
      exact h.absent e (by rwa [noTm, ← (set_setInt_flags 4).2 _ _ _ _ hr])
  | rehash hr =>
      rename_i hashHint r
      obtain ⟨r', hr', hwf, -, hget⟩ := rehash_ok h.wf hashHint
      obtain rfl : r' = r := Except.ok.inj (hr'.symm.trans hr)
      refine ⟨hwf, fun e he => ?_⟩
      rw [hget _ ⟨validKey_string _, rfl⟩]
      exact h.absent e (by rwa [noTm, ← rehash_flags hr])
  | clearWeakEntries dead mask =>
      refine ⟨h.wf.clearWeakEntries dead mask, fun e he => ?_⟩
      rcases h.wf.get_clearWeakEntries dead mask (validKey_string (names e)) with hnil | hsame
      · exact hnil
      · rw [hsame]
        exact h.absent e he
  | setMetatable metatable weakMode => exact h.congr rfl rfl rfl
  | getTm e => exact h.getTm e

theorem coherent_tableNew {arrayHint hashHint : Nat}
    (hnew : tableNew arrayHint hashHint = .ok t) : CacheCoherent L names t := by
  have hrep := tableNew_represents (L := L) hnew
  exact ⟨hrep.wf, fun e _ => hrep.get_eq _ (validKey_string _)⟩

/--
After any history of a metatable, a lookup through the cache answers with what
the metatable holds under the event's name.
-/
theorem getTm_eq_get {arrayHint hashHint : Nat} {t₀ : Table} (hnames : TmNames L names)
    (hnew : tableNew arrayHint hashHint = .ok t₀)
    (hrun : Relation.ReflTransGen (MetatableStep L names) t₀ t) (e : TmEvent) :
    (t.getTm L names e).1 = t.get L (.string (names e)) := by
  have h := Machine.invariant_of_path (CacheCoherent L names)
    (fun h hstep => h.step hnames hstep) (coherent_tableNew hnew) hrun
  unfold Table.getTm
  split
  · rename_i hno
    exact (h.absent e hno).symm
  · simp only
    split
    · rename_i hnil
      exact (TValue.isNil_iff.mp hnil).symm
    · rfl

/-- The strings `__index` to `__call` at the addresses 0 to 23. -/
def nameStrings : InternedStrings where
  view a := (kNames.getD a.toNat "").toUTF8.toList
  hash a := a.toUInt32

def nameAddr (e : TmEvent) : Addr := UInt64.ofNat e.ctorIdx

theorem nameStrings_tmNames : TmNames nameStrings nameAddr := by
  intro e
  have haddr : (nameAddr e).toNat = e.ctorIdx := by cases e <;> rfl
  show (kNames.getD (nameAddr e).toNat "").toUTF8.toList = _
  rw [haddr]
  rfl

/-- An empty metatable after `__index` was looked up in vain. -/
def missed : Table :=
  (({ hash := List.replicate 8 {} } : Table).getTm nameStrings nameAddr .index).2

def assigned : Except String Stored :=
  Table.set nameStrings 3 missed (.string (nameAddr .index)) (.boolean true)

/-- A metamethod that is stored after its absence was cached is found. -/
theorem assigned_found : ∃ r, assigned = .ok r ∧ missed.noTm .index = true ∧
    (r.table.getTm nameStrings nameAddr .index).1 = .boolean true := by
  have hnew : tableNew 0 8 = .ok { hash := List.replicate 8 {} } := rfl
  have hmissed : CacheCoherent nameStrings nameAddr missed := (coherent_tableNew hnew).getTm .index
  obtain ⟨r, hr, hok⟩ := set_ok hmissed.wf (validKey_string (nameAddr .index)) (.boolean true)
    (Nat.le_refl 3)
  refine ⟨r, hr, by decide, ?_⟩
  rw [getTm_eq_get nameStrings_tmNames hnew
    ((Relation.ReflTransGen.single (.getTm .index)).tail (.set hr)),
    hok.get_eq _ (validKey_string _), if_pos rfl]

end Table

namespace State

end State

end Luatier
