import Luatier.Lib.Machine
import Luatier.Runtime.TableRehash

/-!
# Histories of a table

A table made by `tableNew` is compared, over every history of reads and
stores, with the map that remembers the value last stored under a key.
-/

namespace Luatier

open Binary64

namespace Table

variable {L : InternedStrings} {t : Table}

/-! ## Stores -/

theorem canonKey_canonKey (k : TValue) :
    canonKey (canonKey k) = canonKey k := by
  cases hk : keyAsInteger k with
  | some n => rw [canonKey_eq_of_keyAsInteger_some hk]; rfl
  | none => rw [canonKey_eq_of_keyAsInteger_none hk, canonKey, hk]; rfl

theorem StoreOk.congr {t' : Table} {key value : TValue} {r : Stored}
    (h : StoreOk L t' key value r) (harray : t'.array = t.array)
    (hhash : t'.hash = t.hash) : StoreOk L t key value r := by
  refine ⟨h.wf, fun k hk => ?_⟩
  rw [h.get_eq k hk, get_congr harray hhash]

theorem StoreOk.of_canonKey {key value : TValue} {r : Stored}
    (h : StoreOk L t (canonKey key) value r) : StoreOk L t key value r := by
  refine ⟨h.wf, fun k hk => ?_⟩
  rw [h.get_eq k hk, canonKey_canonKey]

theorem StoreOk.refl_nil (wf : t.Wf L) {key : TValue}
    (hget : t.get L (canonKey key) = .nil) (barriers : List TValue) :
    StoreOk L t key .nil ⟨t, barriers⟩ := by
  refine .of_canonical wf fun k _ => ?_
  split
  · rename_i heq
    rw [heq, hget]
  · rfl

private theorem fillSlot_ok (wf : t.Wf L) {k value : TValue} {step : Nat}
    (hk : Canonical k) (hin : t.InHash k)
    (habsent : ∀ i < t.hash.length, t.slotView i ≠ .key k)
    (hstep : step < t.hash.length)
    (hpath : ∀ earlier < step, t.slotView
      (Probing.probe t.hash.length (t.home L k) earlier) ≠ .free)
    (htomb : (t.node
      (Probing.probe t.hash.length (t.home L k) step)).value = .nil) :
    StoreOk L t k value (t.fillSlot
      (Probing.probe t.hash.length (t.home L k) step) k value) := by
  obtain ⟨wf', hget⟩ :=
    wf.addKey value hk hin habsent hstep hpath htomb
  refine .of_canonical (wf'.congr rfl rfl) fun k' hk' => ?_
  rw [hk.2, ← hget k' hk']
  exact get_congr rfl rfl k'

theorem setHash?_ok (wf : t.Wf L) {k value : TValue} {r : Stored}
    (hk : Canonical k) (hin : t.InHash k)
    (h : t.setHash? L k value = some r) : StoreOk L t k value r := by
  have hsearch := wf.search hk
  have harray : (keyAsInteger k).bind t.arrayIndex? = none := by
    cases hn : keyAsInteger k with
    | none => rfl
    | some n => exact (hin n hn).1
  have hnil : (∀ i < t.hash.length, t.slotView i ≠ .key k) →
      value.isNil = true → StoreOk L t k value ⟨t, []⟩ := by
    intro habsent hv
    obtain rfl := TValue.isNil_iff.mp hv
    refine .refl_nil wf ?_ []
    rw [hk.2]
    exact wf.get_absent hk harray habsent
  unfold setHash? at h
  cases hend : probeFor L t.hash k with
  | unused slot firstTomb =>
      rw [hend] at h hsearch
      obtain ⟨step, hstep, rfl, hfree, hpath, habsent, htomb⟩ := hsearch
      simp only at h
      split at h
      · rename_i hv
        obtain rfl := Option.some.inj h
        exact hnil habsent hv
      · obtain rfl := Option.some.inj h
        cases firstTomb with
        | none =>
            have hvalue := wf.nil_value _
              (wf.unused _ (slotView_eq_free.mp hfree))
            exact fillSlot_ok wf hk hin habsent hstep hpath hvalue
        | some slot =>
            obtain ⟨earlier, hearlier, rfl, hvalue⟩ := htomb
            exact fillSlot_ok wf hk hin habsent (by omega)
              (fun e he => hpath e (by omega)) hvalue
  | found slot firstTomb =>
      rw [hend] at h hsearch
      obtain ⟨hslot, hkey⟩ := hsearch
      obtain rfl := Option.some.inj h
      obtain ⟨wf', hget⟩ := wf.setValue hslot hkey value
      refine .of_canonical wf' fun k' hk' => ?_
      rw [hk.2]
      exact hget k' hk'
  | exhausted firstTomb =>
      rw [hend] at h hsearch
      obtain ⟨hfull, htomb⟩ := hsearch
      have habsent := fun i hi => (hfull i hi).2
      simp only at h
      split at h
      · rename_i hv
        obtain rfl := Option.some.inj h
        exact hnil habsent hv
      · obtain ⟨slot, rfl, rfl⟩ := Option.map_eq_some_iff.mp h
        obtain ⟨earlier, hearlier, rfl, hvalue⟩ := htomb
        exact fillSlot_ok wf hk hin habsent hearlier
          (fun e he => (hfull _ (Probing.probe_lt wf.hash_pos _ _)).1) hvalue

theorem setHash?_isSome (wf : t.Wf L) {k : TValue} (value : TValue)
    (hk : Canonical k) (hroom : t.usedCount < t.hash.length) :
    (t.setHash? L k value).isSome = true := by
  have hsearch := wf.search hk
  unfold setHash?
  cases hend : probeFor L t.hash k with
  | unused slot firstTomb => simp only; split <;> rfl
  | found slot firstTomb => rfl
  | exhausted firstTomb =>
      rw [hend] at hsearch
      obtain ⟨i, hi, hfree⟩ := exists_unused hroom
      exact absurd hfree (hsearch.1 i hi).1

private theorem inHash_of_branches {key : TValue}
    (hsmall : (keyAsInteger key).filter
      (fun i => 1 ≤ i.toInt ∧ i.toInt ≤ 64) = none)
    (harray : (keyAsInteger key).bind t.arrayIndex? = none) :
    t.InHash (canonKey key) := by
  intro n hn
  rw [keyAsInteger_canonKey] at hn
  rw [hn] at hsmall harray
  refine ⟨harray, fun hle => ?_⟩
  simp [Option.filter, hle] at hsmall

theorem setInt_small_ok (wf : t.Wf L) (fuel : Nat) {i : Int64}
    (hi : 1 ≤ i.toInt ∧ i.toInt ≤ 64) (value : TValue) :
    ∃ r, setInt L (fuel + 1) t i value = .ok r ∧
      StoreOk L t (.integer i) value r := by
  have hsome : ∃ r, t.setArray? i value = some r := by
    unfold setArray?
    cases t.arrayIndex? i with
    | some j => exact ⟨_, rfl⟩
    | none => exact ⟨_, if_pos hi⟩
  obtain ⟨r, hr⟩ := hsome
  exact ⟨r, by rw [setInt, hr], setArray?_ok wf hr⟩

private theorem setArray_ok (wf : t.Wf L) {i : Int64} {j : Nat}
    (h : t.arrayIndex? i = some j) (value : TValue) :
    StoreOk L t (.integer i) value
      ⟨{ t with array := t.array.set j value }, [value]⟩ :=
  setArray?_ok wf (by rw [setArray?, h])

/--
Either `set` finishes within the two parts, or the hash part has no slot for
the key and `set` starts over after a rehash.
-/
private theorem set_cases (wf : t.Wf L) (fuel : Nat) {key : TValue}
    (hk : ValidKey key) (value : TValue) :
    (∃ r, set L (fuel + 2) t key value = .ok r ∧ StoreOk L t key value r) ∨
      ∃ t₁ : Table, t₁.array = t.array ∧ t₁.hash = t.hash ∧
        t₁.setHash? L (canonKey key) value = none ∧
        set L (fuel + 2) t key value = (do
          let r ← rehash L t₁ t₁.array.length (2 * t₁.hash.length)
          let r' ← set L (fuel + 1) r.table key value
          .ok { r' with barriers := r.barriers ++ r'.barriers }) := by
  have hnil : key.isNil = false := by simpa using hk.1
  have hempty : ∀ t₁ : Table, t₁.hash = t.hash → t₁.hash.isEmpty = false := by
    intro t₁ h
    have := wf.hash_pos
    rw [h]
    cases hh : t.hash with
    | nil => simp [hh] at this
    | cons n rest => rfl
  obtain ⟨t₁, ht₁, harr₁, hhash₁⟩ : ∃ t₁ : Table,
      t₁ = (if metamethodLike L key then t.clearTmCache else t) ∧
        t₁.array = t.array ∧ t₁.hash = t.hash := by
    refine ⟨_, rfl, ?_, ?_⟩ <;> split <;> rfl
  have wf₁ : t₁.Wf L := wf.congr harr₁ hhash₁
  have hidx : t₁.arrayIndex? = t.arrayIndex? := arrayIndex?_congr harr₁
  rw [set]
  simp only [hnil, hk.2, Bool.false_eq_true, if_false, ← ht₁]
  cases hsmall : (keyAsInteger key).filter
      (fun i => 1 ≤ i.toInt ∧ i.toInt ≤ 64) with
  | some i =>
      left
      obtain ⟨hi, hle⟩ := Option.filter_eq_some_iff.mp hsmall
      obtain ⟨r, hr, hok⟩ := setInt_small_ok wf₁ fuel (by simpa using hle) value
      refine ⟨r, hr, ?_⟩
      rw [← canonKey_eq_of_keyAsInteger_some hi] at hok
      exact (hok.of_canonKey).congr harr₁ hhash₁
  | none =>
      simp only
      cases harray : (keyAsInteger key).bind t₁.arrayIndex? with
      | some j =>
          left
          obtain ⟨i, hi, hij⟩ := Option.bind_eq_some_iff.mp harray
          have hok := setArray_ok wf₁ hij value
          rw [← canonKey_eq_of_keyAsInteger_some hi] at hok
          exact ⟨_, rfl, (hok.of_canonKey).congr harr₁ hhash₁⟩
      | none =>
          have hlookup : ((keyAsInteger key).map TValue.integer).getD key =
            canonKey key := rfl
          simp only [hempty t₁ hhash₁, Bool.false_eq_true, if_false, hlookup]
          cases hstore : t₁.setHash? L (canonKey key) value with
          | some r =>
              left
              have hok := setHash?_ok wf₁ (canonKey_canonical hk)
                (inHash_of_branches hsmall harray) hstore
              exact ⟨r, rfl, (hok.of_canonKey).congr harr₁ hhash₁⟩
          | none => exact Or.inr ⟨t₁, harr₁, hhash₁, hstore, rfl⟩

/--
Every store under a valid key succeeds.  The last unit of fuel is for the
store that follows a rehash, which finds room.
-/
theorem set_ok (wf : t.Wf L) {fuel : Nat} {key : TValue} (hk : ValidKey key)
    (value : TValue) (hfuel : 3 ≤ fuel) :
    ∃ r, set L fuel t key value = .ok r ∧ StoreOk L t key value r := by
  obtain ⟨fuel, rfl⟩ := Nat.exists_eq_add_of_le' hfuel
  rcases set_cases wf (fuel + 1) hk value with hdone | ⟨t₁, ha, hh, -, heq⟩
  · exact hdone
  obtain ⟨r, hr, wfr, hroom, hget⟩ :=
    rehash_ok (wf.congr ha hh) (2 * t₁.hash.length)
  rcases set_cases wfr fuel hk value with ⟨r', hr', hok⟩ | ⟨t₂, ha₂, hh₂, hnone, -⟩
  · refine ⟨{ r' with barriers := r.barriers ++ r'.barriers },
      by rw [heq, hr]; simp only [bind, Except.bind, hr'], hok.wf, ?_⟩
    intro k hk'
    rw [hok.get_eq k hk', ← get_canonKey k (t := r.table),
      hget _ (canonKey_canonical hk'), get_canonKey, get_congr ha hh]
  · have hsome := setHash?_isSome (wfr.congr ha₂ hh₂) value
      (canonKey_canonical hk) (by simpa only [usedCount, hh₂] using hroom)
    rw [hnone] at hsome
    contradiction

theorem validKey_of_set {fuel : Nat} {key value : TValue} {r : Stored}
    (h : set L fuel t key value = .ok r) : ValidKey key := by
  cases fuel with
  | zero => simp only [set, reduceCtorEq] at h
  | succ fuel =>
      rw [set] at h
      split at h
      · exact nomatch h
      · rename_i hnil
        split at h
        · exact nomatch h
        · rename_i hnan
          exact ⟨by simpa using hnil, by simpa using hnan⟩

theorem setInt_ok (wf : t.Wf L) {fuel : Nat} (i : Int64) (value : TValue)
    (hfuel : 4 ≤ fuel) :
    ∃ r, setInt L fuel t i value = .ok r ∧
      StoreOk L t (.integer i) value r := by
  obtain ⟨fuel, rfl⟩ := Nat.exists_eq_add_of_le' hfuel
  rw [setInt]
  cases h : t.setArray? i value with
  | some r => exact ⟨r, rfl, setArray?_ok wf h⟩
  | none => exact set_ok wf (canonical_integer i).1 value (by omega)

/-! ## The abstract map -/

/-- Keys as a program sees them: numbers are compared by their exact value. -/
inductive KeyId where
  | number (q : ℚ)
  | infinity (negative : Bool)
  | other (v : TValue)
  deriving DecidableEq

def keyId : TValue → KeyId
  | .integer n => .number n.toInt
  | .number w =>
      match decode w with
      | .fin q => .number q
      | .inf s => .infinity s
      | .nan => .other (.number w)
  | k => .other k

abbrev KeyMap := KeyId → TValue

inductive TableOp where
  | set (key value : TValue)
  | setInt (i : Int64) (value : TValue)
  | get (key : TValue)
  | getInt (i : Int64)
  deriving DecidableEq, Repr

def TableOp.Valid : TableOp → Prop
  | .set key _ => ValidKey key
  | .get key => ValidKey key
  | _ => True

def KeyMap.apply (m : KeyMap) : TableOp → KeyMap × List TValue
  | .set key value => (Function.update m (keyId key) value, [])
  | .setInt i value => (Function.update m (.number i.toInt) value, [])
  | .get key => (m, [m (keyId key)])
  | .getInt i => (m, [m (.number i.toInt)])

def apply (L : InternedStrings) (fuel : Nat) (t : Table) :
    TableOp → Except String (Table × List TValue)
  | .set key value => (set L fuel t key value).map fun r => (r.table, [])
  | .setInt i value => (setInt L fuel t i value).map fun r => (r.table, [])
  | .get key => .ok (t, [t.get L key])
  | .getInt i => .ok (t, [t.getInt L i])

theorem keyId_canonKey (k : TValue) : keyId (canonKey k) = keyId k := by
  cases h : keyAsInteger k with
  | none => rw [canonKey_eq_of_keyAsInteger_none h]
  | some n =>
      rw [canonKey_eq_of_keyAsInteger_some h]
      cases k with
      | integer m =>
          obtain rfl : m = n := by simpa [keyAsInteger] using h
          rfl
      | number w => simp [keyId, keyAsInteger_number.mp h]
      | _ => simp [keyAsInteger] at h

theorem keyId_inj {k k' : TValue} (h : Canonical k) (h' : Canonical k')
    (heq : keyId k = keyId k') : k = k' := by
  have hfloat : ∀ {w : Word} {n : Int64}, Canonical (.number w) →
      keyId (.number w) ≠ .number n.toInt := by
    intro w n hw hid
    have hd : decode w = .fin n.toInt := by
      simp only [keyId] at hid
      cases hd : decode w <;> simp_all
    have := hw.number.1
    rw [floatToInteger_eq_some.mpr hd] at this
    contradiction
  have hother : ∀ {w : Word} {v : TValue}, Canonical (.number w) →
      keyId (.number w) ≠ .other v := by
    intro w v hw hid
    have hnan := hw.number.2
    simp only [keyId] at hid
    cases hd : decode w <;> simp_all
  cases k with
  | integer n =>
      cases k' with
      | integer n' => simpa [keyId, Int64.toInt_inj] using heq
      | number w => exact absurd heq.symm (hfloat h')
      | _ => simp [keyId] at heq
  | number w =>
      cases k' with
      | integer n => exact absurd heq (hfloat h)
      | number w' =>
          have hd : decode w = decode w' := by
            simp only [keyId] at heq
            cases hd : decode w <;> cases hd' : decode w' <;> simp_all
          have hint := h.number.1
          rw [decode_inj hd h.number.2 (decode_ne_zero hint)]
      | _ => exact absurd heq (hother h)
  | _ =>
      cases k' with
      | integer n => simp [keyId] at heq
      | number w => exact absurd heq.symm (hother h')
      | _ => simp_all [keyId]

theorem keyId_eq_iff {k k' : TValue} (h : ValidKey k) (h' : ValidKey k') :
    keyId k = keyId k' ↔ canonKey k = canonKey k' := by
  constructor
  · intro heq
    refine keyId_inj (canonKey_canonical h) (canonKey_canonical h') ?_
    rw [keyId_canonKey, keyId_canonKey, heq]
  · intro heq
    rw [← keyId_canonKey k, heq, keyId_canonKey]

/-- The table is well formed and holds exactly the entries of the map. -/
structure Represents (L : InternedStrings) (t : Table) (m : KeyMap) : Prop where
  wf : t.Wf L
  get_eq : ∀ k, ValidKey k → t.get L k = m (keyId k)

theorem StoreOk.represents {m : KeyMap} {key value : TValue} {r : Stored}
    (h : StoreOk L t key value r) (hm : t.Represents L m) (hk : ValidKey key) :
    r.table.Represents L (Function.update m (keyId key) value) := by
  refine ⟨h.wf, fun k hk' => ?_⟩
  rw [h.get_eq k hk', Function.update_apply, hm.get_eq k hk']
  simp only [keyId_eq_iff hk' hk]

theorem apply_refines {fuel : Nat} (hfuel : 4 ≤ fuel) :
    Machine.StepRefines (Represents L) TableOp.Valid (apply L fuel)
      KeyMap.apply := by
  intro t m op hm hop
  cases op with
  | set key value =>
      obtain ⟨r, hr, hok⟩ := set_ok hm.wf hop value (by omega : 3 ≤ fuel)
      exact ⟨r.table, by simp [apply, hr, KeyMap.apply, Except.map],
        hok.represents hm hop⟩
  | setInt i value =>
      obtain ⟨r, hr, hok⟩ := setInt_ok hm.wf i value hfuel
      exact ⟨r.table, by simp [apply, hr, KeyMap.apply, Except.map],
        hok.represents hm (canonical_integer i).1⟩
  | get key =>
      refine ⟨t, ?_, hm⟩
      simp only [apply, KeyMap.apply, hm.get_eq key hop]
  | getInt i =>
      refine ⟨t, ?_, hm⟩
      simp only [apply, KeyMap.apply, getInt_eq_get,
        hm.get_eq _ (canonical_integer i).1, keyId]

theorem tableNew_represents {arrayHint hashHint : Nat}
    (hnew : tableNew arrayHint hashHint = .ok t) :
    t.Represents L fun _ => .nil := by
  unfold tableNew at hnew
  set size := if hashHint = 0 then 8 else doubleUntil hashHint hashHint 1
    with hsize
  by_cases hmax : vectorMax 16 < arrayHint ∨ vectorMax 48 < size
  · rw [if_pos hmax] at hnew
    contradiction
  rw [if_neg hmax] at hnew
  obtain rfl := Except.ok.inj hnew
  have hpos : 0 < size := by
    rw [hsize]
    split
    · omega
    · exact doubleUntil_pos _ _ _ (by omega)
  have wf := Wf.empty (L := L) hpos
    (t := { array := List.replicate arrayHint .nil
            hash := List.replicate size {} }) (by
      simp only [vectorMax] at hmax
      rw [List.length_replicate]
      omega) rfl
  refine ⟨wf, fun k hk => ?_⟩
  rw [← get_canonKey]
  have hcanon := canonKey_canonical hk
  cases harr : (keyAsInteger (canonKey k)).bind (arrayIndex?
      { array := List.replicate arrayHint .nil
        hash := List.replicate size {} }) with
  | none =>
      refine wf.get_absent hcanon harr fun i _ hi => ?_
      obtain ⟨hused, -⟩ := slotView_eq_key.mp hi
      simp only [node, List.getD_eq_getElem?_getD,
        List.getElem?_replicate] at hused
      split at hused <;> contradiction
  | some j =>
      simp only [get, harr, List.getD_eq_getElem?_getD, List.getElem?_replicate]
      split <;> rfl

/--
Over any history of reads and stores, a table answers as the finite map does.
No store fails, and the invariant holds after every history.
-/
theorem table_refines_map {arrayHint hashHint fuel : Nat} {t₀ : Table}
    {ops : List TableOp} (hnew : tableNew arrayHint hashHint = .ok t₀)
    (hops : ∀ op ∈ ops, op.Valid) (hfuel : 4 ≤ fuel) :
    ∃ t, Machine.run (apply L fuel) t₀ ops =
        .ok (t, (Machine.trace KeyMap.apply (fun _ => .nil) ops).2) ∧
      t.Represents L (Machine.trace KeyMap.apply (fun _ => .nil) ops).1 :=
  Machine.StepRefines.run (apply_refines hfuel) hops (tableNew_represents hnew)

/-- A float key names the integer stored before it, and nil deletes. -/
theorem table_refines_map_sample :
    ∃ t, Machine.run (apply ⟨fun _ => [], fun _ => 0⟩ 4)
        { array := [], hash := List.replicate 8 {} }
        [.setInt 65 (.integer 1), .set (.number 0x4050400000000000) .nil,
          .set (.boolean true) (.integer 2), .getInt 65,
          .get (.boolean true)] = .ok (t, [.nil, .integer 2]) ∧
      t.Wf ⟨fun _ => [], fun _ => 0⟩ := by
  have hnew : tableNew 0 8 =
    .ok { array := [], hash := List.replicate 8 {} } := rfl
  have hops : ∀ op ∈ [TableOp.setInt 65 (.integer 1),
      .set (.number 0x4050400000000000) .nil,
      .set (.boolean true) (.integer 2), .getInt 65,
      .get (.boolean true)], op.Valid := by
    intro op hop
    simp only [List.mem_cons, List.not_mem_nil, or_false] at hop
    rcases hop with rfl | rfl | rfl | rfl | rfl
    · trivial
    · exact ⟨by simp, by decide +kernel⟩
    · exact ⟨by simp, rfl⟩
    · trivial
    · exact ⟨by simp, rfl⟩
  obtain ⟨t, hrun, hrep⟩ := table_refines_map hnew hops (le_refl 4)
  refine ⟨t, ?_, hrep.wf⟩
  rw [hrun]
  congr 2
  decide +kernel

end Table

end Luatier
