import Luatier.Runtime.TableBarrier
import Luatier.Runtime.TableInvariant

/-!
# The keys that a store leaves

A store writes its own key into the hash part, or an integer; every other key
was there before.
-/

namespace Luatier

namespace Table

variable {L : InternedStrings} {t : Table} {P : TValue → Prop}

def Keyed (P : TValue → Prop) (t : Table) : Prop :=
  ∀ n ∈ t.hash, n.used = true → P n.key

theorem Keyed.congr {t' : Table} (h : t.Keyed P) (hhash : t'.hash = t.hash) :
    t'.Keyed P := by
  intro n hn
  exact h n (hhash ▸ hn)

theorem Keyed.setNode (h : t.Keyed P) (slot : Nat) {node : TableNode} {version : UInt32}
    (hnode : node.used = true → P node.key) :
    Keyed P { t with hash := t.hash.set slot node, structureVersion := version } := by
  intro n hn hu
  rcases List.mem_or_eq_of_mem_set hn with hn | rfl
  · exact h n hn hu
  · exact hnode hu

theorem Keyed.fresh {m : Nat} (hhash : t.hash = List.replicate m {}) : t.Keyed P := by
  intro n hn hu
  rw [hhash] at hn
  rw [List.eq_of_mem_replicate hn] at hu
  contradiction

theorem lookup_keyed {key : TValue} (hint : ∀ i, P (.integer i)) (hkey : P key) :
    P (((keyAsInteger key).map TValue.integer).getD key) := by
  cases keyAsInteger key with
  | none => exact hkey
  | some i => exact hint i

theorem rawInsert_keyed (hint : ∀ i, P (.integer i)) {r r' : Stored}
    (h : r.table.Keyed P) {key value : TValue} (hkey : P key)
    (hr : rawInsert L r key value = .ok r') : r'.table.Keyed P := by
  unfold rawInsert at hr
  split at hr
  · cases hr
    exact h
  simp only at hr
  split at hr
  · cases hr
    exact h
  · split at hr
    · cases hr
      exact h.setNode _ fun _ => lookup_keyed hint hkey
    · rename_i slot _ _
      cases hr
      exact h.setNode slot fun hu => h (r.table.hash.getD slot {}) (getD_used hu) hu
    · contradiction

theorem reinsertArray_keyed (hint : ∀ i, P (.integer i)) {r r' : Stored}
    (h : r.table.Keyed P) (values : List TValue) {i : Nat}
    (hr : reinsertArray L r i values = .ok r') : r'.table.Keyed P := by
  induction values generalizing r i with
  | nil =>
      cases hr
      exact h
  | cons v values ih =>
      rw [reinsertArray] at hr
      by_cases hv : v.isNil = true
      · simp only [hv, if_true, pure_bind] at hr
        exact ih h hr
      · simp only [hv, Bool.false_eq_true, if_false] at hr
        cases hins : rawInsert L r (.integer (Int64.ofNat (i + 1))) v with
        | error e =>
            rw [hins] at hr
            contradiction
        | ok r₁ =>
            rw [hins] at hr
            exact ih (rawInsert_keyed hint h (hint _) hins) hr

theorem reinsertHash_keyed (hint : ∀ i, P (.integer i)) {r r' : Stored}
    (h : r.table.Keyed P) (nodes : List TableNode)
    (hnodes : ∀ n ∈ nodes, n.used = true → P n.key)
    (hr : reinsertHash L r nodes = .ok r') : r'.table.Keyed P := by
  induction nodes generalizing r with
  | nil =>
      cases hr
      exact h
  | cons n nodes ih =>
      have hrest : ∀ m ∈ nodes, m.used = true → P m.key :=
        fun m hm => hnodes m (List.mem_cons_of_mem n hm)
      rw [reinsertHash] at hr
      by_cases hn : liveNode n = true
      · simp only [hn, if_true] at hr
        have hused : n.used = true := by
          simp only [liveNode, Bool.and_eq_true] at hn
          exact hn.1
        cases hins : rawInsert L r n.key n.value with
        | error e =>
            rw [hins] at hr
            contradiction
        | ok r₁ =>
            rw [hins] at hr
            exact ih (rawInsert_keyed hint h (hnodes n List.mem_cons_self hused) hins)
              hrest hr
      · simp only [hn, Bool.false_eq_true, if_false, pure_bind] at hr
        exact ih h hrest hr

theorem rehash_keyed (hint : ∀ i, P (.integer i)) (h : t.Keyed P)
    {arrayHint hashHint : Nat} {r : Stored}
    (hr : rehash L t arrayHint hashHint = .ok r) : r.table.Keyed P := by
  unfold rehash at hr
  simp only at hr
  generalize hn : doubleUntil _ _ 8 = n at hr
  generalize hfresh : ({ t with
    array := List.replicate arrayHint .nil
    hash := List.replicate n {}
    structureVersion := t.structureVersion + 1 } : Table) = fresh at hr
  have hstart : fresh.Keyed P := .fresh (m := n) (by rw [← hfresh])
  cases harray : reinsertArray L ⟨fresh, []⟩ 0 t.array with
  | error e =>
      rw [harray] at hr
      contradiction
  | ok r₁ =>
      rw [harray] at hr
      exact reinsertHash_keyed hint (reinsertArray_keyed hint hstart t.array harray)
        t.hash h hr

theorem setArray?_keyed (h : t.Keyed P) {i : Int64} {value : TValue} {r : Stored}
    (hr : t.setArray? i value = some r) : r.table.Keyed P := by
  unfold setArray? at hr
  split at hr
  · cases hr
    exact h
  · split at hr
    · cases hr
      exact h
    · contradiction

theorem setHash?_keyed (h : t.Keyed P) {lookup value : TValue} (hlookup : P lookup)
    {r : Stored} (hr : t.setHash? L lookup value = some r) : r.table.Keyed P := by
  unfold setHash? at hr
  split at hr
  · split at hr
    · cases hr
      exact h
    · cases hr
      exact h.setNode _ fun _ => hlookup
  · rename_i slot _ _
    cases hr
    exact h.setNode slot fun hu => h (t.hash.getD slot {}) (getD_used hu) hu
  · split at hr
    · cases hr
      exact h
    · obtain ⟨slot, -, rfl⟩ := Option.map_eq_some_iff.mp hr
      exact h.setNode slot fun _ => hlookup

theorem set_setInt_keyed (hint : ∀ i, P (.integer i)) (fuel : Nat) :
    (∀ (t : Table) (key value : TValue) (r : Stored), t.Keyed P → P key →
      set L fuel t key value = .ok r → r.table.Keyed P) ∧
    ∀ (t : Table) (i : Int64) (value : TValue) (r : Stored), t.Keyed P →
      setInt L fuel t i value = .ok r → r.table.Keyed P := by
  induction fuel with
  | zero =>
      constructor
      · intro t key value r _ _ hr
        simp only [set, reduceCtorEq] at hr
      · intro t i value r _ hr
        simp only [setInt, reduceCtorEq] at hr
  | succ fuel ih =>
      obtain ⟨ihset, ihsetInt⟩ := ih
      constructor
      · intro t key value r h hkey hr
        rw [set] at hr
        split at hr
        · contradiction
        split at hr
        · contradiction
        simp only at hr
        generalize ht₁ : (if metamethodLike L key = true then t.clearTmCache
          else t) = t₁ at hr
        have h₁ : t₁.Keyed P := by
          refine h.congr ?_
          rw [← ht₁]
          split <;> rfl
        split at hr
        · exact ihsetInt _ _ _ _ h₁ hr
        split at hr
        · cases hr
          exact h₁
        generalize ht₂ : (if t₁.hash.isEmpty = true then
          { t₁ with hash := List.replicate 8 {} } else t₁) = t₂ at hr
        have h₂ : t₂.Keyed P := by
          rw [← ht₂]
          split
          · exact .fresh rfl
          · exact h₁
        split at hr
        · rename_i r' hr'
          cases hr
          exact setHash?_keyed h₂ (lookup_keyed hint hkey) hr'
        · cases hre : rehash L t₂ t₂.array.length (2 * t₂.hash.length) with
          | error e =>
              rw [hre] at hr
              contradiction
          | ok r₁ =>
              rw [hre] at hr
              cases hset : set L fuel r₁.table key value with
              | error e =>
                  simp only [bind, Except.bind, hset, reduceCtorEq] at hr
              | ok r₂ =>
                  simp only [bind, Except.bind, hset] at hr
                  cases hr
                  exact ihset _ _ value r₂ (rehash_keyed hint h₂ hre) hkey hset
      · intro t i value r h hr
        rw [setInt] at hr
        split at hr
        · rename_i r' hr'
          cases hr
          exact setArray?_keyed h hr'
        · exact ihset _ _ _ _ h (hint i) hr

theorem set_keyed (hint : ∀ i, P (.integer i)) (h : t.Keyed P) {fuel : Nat}
    {key value : TValue} (hkey : P key) {r : Stored}
    (hr : set L fuel t key value = .ok r) : r.table.Keyed P :=
  (set_setInt_keyed hint fuel).1 t key value r h hkey hr

theorem setInt_keyed (hint : ∀ i, P (.integer i)) (h : t.Keyed P) {fuel : Nat}
    {i : Int64} {value : TValue} {r : Stored}
    (hr : setInt L fuel t i value = .ok r) : r.table.Keyed P :=
  (set_setInt_keyed hint fuel).2 t i value r h hr

/-! ## Other strings -/

def SameHash (L L' : InternedStrings) (k : TValue) : Prop :=
  ∀ s, k = .string s → L'.hash s = L.hash s

variable {L' : InternedStrings}

theorem hashKey_of_sameHash {k : TValue} (h : SameHash L L' k) (mod : Nat) :
    hashKey L' k mod = hashKey L k mod := by
  unfold hashKey
  cases k with
  | string s => simp only [h s rfl]
  | _ => rfl

theorem get_of_sameHash {k : TValue} (h : SameHash L L' k) : t.get L' k = t.get L k := by
  have hlookup : SameHash L L' (((keyAsInteger k).map TValue.integer).getD k) :=
    lookup_keyed (fun _ _ => nofun) h
  simp only [get, probeFor, hashKey_of_sameHash hlookup]

theorem Wf.of_sameHash (wf : t.Wf L) (h : t.Keyed (SameHash L L')) : t.Wf L' := by
  have hhome : ∀ {i k}, t.slotView i = .key k → t.home L' k = t.home L k := by
    intro i k hk
    obtain ⟨hused, hkey, -⟩ := slotView_eq_key.mp hk
    have hnode := h (t.node i) (getD_used hused) hused
    rw [hkey] at hnode
    exact hashKey_of_sameHash hnode _
  refine ⟨wf.hash_pos, wf.array_lt, ⟨wf.probed.unique, fun hi hk => ?_⟩, wf.keys,
    wf.nil_value, wf.unused⟩
  rw [hhome hk]
  exact wf.probed.path hi hk

end Table

end Luatier
